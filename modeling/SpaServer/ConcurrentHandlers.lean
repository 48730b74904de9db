import SpaServer.Base.Provenance
import SpaServer.ConcurrentRelease
import SpaServer.ConcurrentUpload

/-!
# All handlers at the same time

Any number of admin requests of every kind on one storage, one step of one of them at a time.
A handler writes a map after it has looked at others, and what it has seen may have changed by
then: after two releases at once the maps can be of different versions.  `handlers_provenance`
says what stays true however the steps are ordered: every entry of a map is as it was at the
start or was warranted in states that the run has passed through, by a request of the run.
-/

namespace SpaServer

open Base Program Method

variable {crates : Crates}

/-! ### What warrants a write -/

abbrev Told (hist : List (Sigma Op.Reply)) (op : Op) (r : op.Reply) : Prop := ⟨op, r⟩ ∈ hist

/-- The request asks for a release that comes to version `v` of `d`, and the version has been
looked at. -/
structure MayRelease (pathPrefix : PathBuf) (r : AdminRequest) (hist : List (Sigma Op.Reply))
    (d : Str) (v : UInt32) : Prop where
  asked : ∃ version, r = .updateDomainVersion ⟨d, version⟩ ∧ (version = some v ∨
    version = none ∧ ∃ entries, Told hist (.walkDir (push pathPrefix d) (some 1)) entries ∧
      (parseVersions entries).max? = some v)
  dir : Told hist (.isDir (getVersionPath pathPrefix d v)) true
  notUploading : ∃ u, Told hist (.uploadingGet d) u ∧ u ≠ some v

/-- The request and the replies so far warrant this write of a map. -/
def Warrants (pathPrefix : PathBuf) (r : AdminRequest) (hist : List (Sigma Op.Reply)) : Op → Prop
  | .metaInsert d p v => p = getVersionPath pathPrefix d v ∧ MayRelease pathPrefix r hist d v
  | .cacheUpdate d data => ∃ v, MayRelease pathPrefix r hist d v ∧
      Told hist (.cacheDir d (getVersionPath pathPrefix d v)) (.ok data)
  | .uploadingInsert d v => r = .changeUploadStatus ⟨d, v, .uploading⟩ ∧
      Told hist (.uploadingGet d) none ∧
      (∃ serving, Told hist (.metaGet d) serving ∧ serving.map (·.2) ≠ some v) ∧
      ∃ h, Told hist (.createFile (markerPath pathPrefix d v)) (.ok h)
  | .uploadingRemoveIf d v => r = .changeUploadStatus ⟨d, v, .finish⟩ ∧
      Told hist (.removeFile (markerPath pathPrefix d v)) (.ok ())
  | _ => True

def Op.sparesMaps : Op → Bool
  | metaInsert .. | uploadingInsert .. | uploadingRemoveIf .. | cacheUpdate .. => false
  | _ => true

section Warrants

variable {pathPrefix : PathBuf} {r : AdminRequest} {hist : List (Sigma Op.Reply)}

theorem warrants_of_spares {op : Op} (h : op.sparesMaps = true) : Warrants pathPrefix r hist op := by
  cases op with
  | metaInsert | uploadingInsert | uploadingRemoveIf | cacheUpdate => exact absurd h (by simp [Op.sparesMaps])
  | _ => trivial

theorem guarded_of_spares {α : Type} {p : Method α} (h : p.Uses fun op => op.sparesMaps = true) :
    p.Guarded (Warrants pathPrefix r) hist := by
  induction p generalizing hist with
  | ret a => trivial
  | call op next ih => exact ⟨warrants_of_spares h.1, fun reply => ih reply (h.2 reply)⟩

theorem lookup_spares {op : Op} (h : op.isLookup = true) : op.sparesMaps = true := by
  cases op <;> first | rfl | exact h

theorem guarded_respond {α β : Type} {p : Method α} {f : α → Method β}
    (hp : p.Guarded (Warrants pathPrefix r) hist) (hf : ∀ a, ∃ b, f a = .ret b) :
    (p >>= f).Guarded (Warrants pathPrefix r) hist := by
  induction p generalizing hist with
  | ret a =>
    obtain ⟨b, hb⟩ := hf a
    rw [ret_bind, hb]
    trivial
  | call op next ih => exact ⟨hp.1, fun reply => ih reply (hp.2 reply)⟩

/-! ### The handlers -/

theorem guarded_releaseVersion {d : Str} {version : Option UInt32} {v : UInt32}
    (hr : r = .updateDomainVersion ⟨d, version⟩)
    (hv : version = some v ∨ version = none ∧
      ∃ entries, Told hist (.walkDir (push pathPrefix d) (some 1)) entries ∧
        (parseVersions entries).max? = some v) :
    (releaseVersion pathPrefix d v).Guarded (Warrants pathPrefix r) hist := by
  simp only [releaseVersion, perform_bind]
  refine ⟨trivial, fun u => ?_⟩
  beta_reduce
  split
  · trivial
  · next hu =>
    refine ⟨trivial, fun isdir => ?_⟩
    cases isdir with
    | false => trivial
    | true =>
      -- every later history has the three replies in it
      have hmay : ∀ more : List (Sigma Op.Reply), MayRelease pathPrefix r
          (more ++ ⟨.isDir (getVersionPath pathPrefix d v), true⟩ :: ⟨.uploadingGet d, u⟩ :: hist)
          d v := by
        intro more
        refine ⟨⟨version, hr, ?_⟩, by simp [Told], u, by simp [Told], hu⟩
        rcases hv with hv | ⟨hnone, entries, htold, hmax⟩
        · exact Or.inl hv
        · exact Or.inr ⟨hnone, entries, by simp [Told, htold], hmax⟩
      refine ⟨⟨rfl, hmay []⟩, fun _ => ⟨trivial, fun files => ?_⟩⟩
      cases files with
      | error e => trivial
      | ok data => exact ⟨⟨v, hmay [_, _], by simp [Told]⟩, fun _ => trivial⟩

theorem guarded_uploadDomainWithVersion {d : Str} {version : Option UInt32}
    (hr : r = .updateDomainVersion ⟨d, version⟩) :
    (uploadDomainWithVersion pathPrefix d version).Guarded (Warrants pathPrefix r) [] := by
  cases version with
  | some v => exact guarded_releaseVersion hr (Or.inl rfl)
  | none =>
    simp only [uploadDomainWithVersion, getDomainInfoByDomain, perform_bind, call_bind]
    refine ⟨trivial, fun entries => ?_⟩
    beta_reduce
    cases hlist : parseVersions entries with
    | nil => trivial
    | cons v vs =>
      dsimp only [perform_bind, call_bind, pure_eq, ret_bind, Option.map_some, Option.getD_some]
      refine ⟨trivial, fun current => ?_⟩
      cases hmax : (v :: vs).max? with
      | none => trivial
      | some u =>
        refine guarded_releaseVersion hr (Or.inr ⟨rfl, entries, by simp [Told], ?_⟩)
        rw [hlist, hmax]

theorem guarded_finishUploading {d : Str} {v : UInt32}
    (hr : r = .changeUploadStatus ⟨d, v, .finish⟩) :
    (finishUploading pathPrefix d v).Guarded (Warrants pathPrefix r) hist := by
  simp only [finishUploading, perform_bind]
  refine ⟨trivial, fun removed => ?_⟩
  cases removed with
  | error e => trivial
  | ok u => exact ⟨⟨hr, by simp [Told]⟩, fun _ => trivial⟩

theorem guarded_updateUploadingStatus {d : Str} {v : UInt32} {status : UploadingStatus}
    (hr : r = .changeUploadStatus ⟨d, v, status⟩) :
    (updateUploadingStatus pathPrefix d v status).Guarded (Warrants pathPrefix r) hist := by
  simp only [updateUploadingStatus, perform_bind]
  refine ⟨trivial, fun current => ?_⟩
  cases current with
  | some u =>
    dsimp only
    split
    · trivial
    · split
      · next hs =>
        subst hs
        exact guarded_finishUploading hr
      · trivial
  | none =>
    dsimp only
    split
    · next hs =>
      subst hs
      refine ⟨trivial, fun serving => ?_⟩
      dsimp only
      split
      · trivial
      · next hserving =>
        refine ⟨trivial, fun made => ?_⟩
        cases made with
        | error e => trivial
        | ok _ =>
          refine ⟨trivial, fun marked => ?_⟩
          cases marked with
          | error e => trivial
          | ok h =>
            refine ⟨⟨hr, by simp [Told], ⟨serving, by simp [Told], hserving⟩, h, by simp [Told]⟩,
              fun _ => trivial⟩
    · next hs =>
      have hs : status = .finish := by cases status <;> simp_all
      subst hs
      exact guarded_finishUploading hr

theorem uses_writeFile (filePath : PathBuf) (data : List UInt8) :
    (writeFile filePath data).Uses fun op => op.sparesMaps = true := by
  simp only [writeFile, perform_bind]
  refine ⟨rfl, fun ex => ?_⟩
  -- an existing file is opened, another one created
  cases ex with
  | false =>
    refine ⟨rfl, fun file => ?_⟩
    cases file with
    | error e => trivial
    | ok h => exact ⟨rfl, fun written => by cases written <;> trivial⟩
  | true =>
    refine ⟨rfl, fun file => ?_⟩
    cases file with
    | error e => trivial
    | ok h => exact ⟨rfl, fun written => by cases written <;> trivial⟩

theorem uses_saveFile (d : Str) (v : UInt32) (path : Str) (data : List UInt8) :
    (saveFile pathPrefix d v path data).Uses fun op => op.sparesMaps = true := by
  simp only [saveFile, perform_bind]
  refine ⟨rfl, fun uploading => ?_⟩
  dsimp only
  split
  · split
    · trivial
    · split
      · trivial
      · refine ⟨rfl, fun ex => ?_⟩
        cases ex with
        | true => exact uses_writeFile _ _
        | false =>
          refine ⟨rfl, fun made => ?_⟩
          cases made with
          | error e => trivial
          | ok _ => exact uses_writeFile _ _
  · trivial

theorem uses_updateFile (parts : List Part) :
    (Service.updateFile pathPrefix parts).Uses fun op => op.sparesMaps = true := by
  simp only [Service.updateFile]
  split
  · refine (uses_saveFile _ _ _ _).bind fun saved => ?_
    cases saved <;> trivial
  · trivial

theorem uses_removeDomainVersion (d : Str) (version : Option UInt32) :
    (removeDomainVersion pathPrefix d version).Uses fun op => op.sparesMaps = true := by
  simp only [removeDomainVersion, perform_bind]
  refine ⟨rfl, fun ex => ?_⟩
  cases ex with
  | false => trivial
  | true =>
    refine ⟨rfl, fun removed => ?_⟩
    cases removed <;> trivial

theorem uses_removeVersions (d : Str) : ∀ vs : List UInt32,
    (Service.removeVersions pathPrefix d vs).Uses fun op => op.sparesMaps = true
  | [] => trivial
  | _ :: vs => (uses_removeDomainVersion d _).bind fun _ => uses_removeVersions d vs

theorem uses_removeDomains (m : Option UInt32) : ∀ infos : List DomainInfo,
    (Service.removeDomains pathPrefix m infos).Uses fun op => op.sparesMaps = true
  | [] => trivial
  | info :: infos => (uses_removeVersions info.domain _).bind fun _ => uses_removeDomains m infos

theorem uses_removeRequest (query : DeleteDomainVersionOption) :
    (Service.removeDomainVersion pathPrefix query).Uses fun op => op.sparesMaps = true := by
  have hinfos : (Service.domainsInfo pathPrefix query).Uses fun op => op.isLookup = true := by
    rw [Service.domainsInfo]
    split
    · exact (uses_getDomainInfoByDomain pathPrefix _).bind fun _ => trivial
    · exact uses_getDomainInfo pathPrefix
  exact (hinfos.mono fun _ => lookup_spares).bind fun infos =>
    (uses_removeDomains query.maxReserve infos).bind fun _ => trivial

/-- **Every handler writes the maps only when its request and what it has seen warrant it.** -/
theorem guarded_handle (r : AdminRequest) :
    (handle crates pathPrefix r).Guarded (Warrants pathPrefix r) [] := by
  have hlook : r.isLookup = true → (handle crates pathPrefix r).Guarded (Warrants pathPrefix r) [] :=
    fun h => guarded_of_spares ((handle_lookup h pathPrefix).mono fun _ => lookup_spares)
  cases r with
  | updateDomainVersion option =>
    refine guarded_respond (guarded_uploadDomainWithVersion rfl) fun released => ?_
    cases released <;> exact ⟨_, rfl⟩
  | changeUploadStatus param =>
    refine guarded_respond (guarded_updateUploadingStatus rfl) fun updated => ?_
    cases updated <;> exact ⟨_, rfl⟩
  | uploadFile parts => exact guarded_of_spares (uses_updateFile parts)
  | removeDomainVersion query => exact guarded_of_spares (uses_removeRequest query)
  | _ => exact hlook rfl

end Warrants

/-! ### Runs -/

section Runs

variable (rs : List AdminRequest) (past : List World) (pathPrefix : PathBuf)

/-- A request of the run asks for a release that comes to `v`, the version was a directory
in a state of the run, and it was not being uploaded in a state of the run. -/
structure Warranted (d : Str) (v : UInt32) : Prop where
  asked : ∃ version, .updateDomainVersion ⟨d, version⟩ ∈ rs ∧ (version = some v ∨
    version = none ∧ ∃ w ∈ past, (listedVersions w.disk (push pathPrefix d)).max? = some v)
  dir : ∃ w ∈ past, w.disk.isDir (getVersionPath pathPrefix d v) = true
  notUploading : ∃ w ∈ past, w.storage.uploadingStatus d ≠ some v

/-- The upload of `v` was asked for, no version of the domain was being uploaded, and this one not
served, in states of the run, and a step of the run made its marker. -/
structure Begun (d : Str) (v : UInt32) : Prop where
  asked : .changeUploadStatus ⟨d, v, .uploading⟩ ∈ rs
  free : ∃ w ∈ past, w.storage.uploadingStatus d = none
  notServed : ∃ w ∈ past, w.serving d ≠ some v
  marked : ∃ w w' h, [w', w] <:+: past ∧
    w.disk.createFile (markerPath pathPrefix d v) = (.ok h, w'.disk)

/-- The end of the upload of `v` was asked for, and a step of the run removed the marker. -/
def Ended (d : Str) (v : UInt32) : Prop :=
  .changeUploadStatus ⟨d, v, .finish⟩ ∈ rs ∧ ∃ w w', [w', w] <:+: past ∧
    w.disk.removeFile (markerPath pathPrefix d v) = (.ok (), w'.disk)

variable {rs past pathPrefix} {past' : List World} {d : Str} {v : UInt32}

theorem Warranted.mono (h : Warranted rs past pathPrefix d v) (hsuffix : past <:+ past') :
    Warranted rs past' pathPrefix d v := by
  obtain ⟨⟨version, hmem, hasked⟩, ⟨w₁, h₁, hdir⟩, w₂, h₂, hu⟩ := h
  have hsub := hsuffix.subset
  refine ⟨⟨version, hmem, hasked.imp_right ?_⟩, ⟨w₁, hsub h₁, hdir⟩, w₂, hsub h₂, hu⟩
  rintro ⟨hnone, w, hw, hmax⟩
  exact ⟨hnone, w, hsub hw, hmax⟩

theorem Begun.mono (h : Begun rs past pathPrefix d v) (hsuffix : past <:+ past') :
    Begun rs past' pathPrefix d v := by
  obtain ⟨hmem, ⟨w₁, h₁, hfree⟩, ⟨w₂, h₂, hserved⟩, w, w', handle, hstep, hmarked⟩ := h
  exact ⟨hmem, ⟨w₁, hsuffix.subset h₁, hfree⟩, ⟨w₂, hsuffix.subset h₂, hserved⟩, w, w', handle,
    hstep.trans hsuffix.isInfix, hmarked⟩

theorem Ended.mono (h : Ended rs past pathPrefix d v) (hsuffix : past <:+ past') :
    Ended rs past' pathPrefix d v := by
  obtain ⟨hmem, w, w', hstep, hremoved⟩ := h
  exact ⟨hmem, w, w', hstep.trans hsuffix.isInfix, hremoved⟩

end Runs

/-- Where the entries of the maps come from, in a state of a run of the requests `rs` that began
in `w₀` and has passed through the states `past`. -/
structure Provenance (crates : Crates) (rs : List AdminRequest) (w₀ : World) (past : List World)
    (w : World) : Prop where
  serving : ∀ d p v, w.storage.domainMeta d = some (p, v) →
    w₀.storage.domainMeta d = some (p, v) ∨
      p = getVersionPath w₀.storage.pathPrefix d v ∧ Warranted rs past w₀.storage.pathPrefix d v
  cached : ∀ d data, w.storage.cache.data d = some data → w₀.storage.cache.data d = some data ∨
    ∃ v, Warranted rs past w₀.storage.pathPrefix d v ∧ ∃ w' ∈ past, data = w'.snapshot crates d v
  uploading : ∀ d v, w.storage.uploadingStatus d = some v →
    w₀.storage.uploadingStatus d = some v ∨ Begun rs past w₀.storage.pathPrefix d v
  kept : ∀ d v, w₀.storage.uploadingStatus d = some v →
    w.storage.uploadingStatus d = some v ∨ Ended rs past w₀.storage.pathPrefix d v

section Provenance

variable {rs : List AdminRequest} {w₀ w : World} {past past' : List World}

theorem provenance_start (rs : List AdminRequest) (w : World) :
    Provenance crates rs w [w] w :=
  ⟨fun _ _ _ => Or.inl, fun _ _ => Or.inl, fun _ _ => Or.inl, fun _ _ => Or.inl⟩

theorem Provenance.mono (h : Provenance crates rs w₀ past w) (hsuffix : past <:+ past') :
    Provenance crates rs w₀ past' w where
  serving d p v hm := (h.serving d p v hm).imp_right fun h => ⟨h.1, h.2.mono hsuffix⟩
  cached d data hc := by
    refine (h.cached d data hc).imp_right ?_
    rintro ⟨v, hw, w', hw', he⟩
    exact ⟨v, hw.mono hsuffix, w', hsuffix.subset hw', he⟩
  uploading d v hu := (h.uploading d v hu).imp_right fun h => h.mono hsuffix
  kept d v hu := (h.kept d v hu).imp_right fun h => h.mono hsuffix

variable {hist : List (Sigma Op.Reply)} {d : Str} {v : UInt32}

theorem MayRelease.warranted {r : AdminRequest} (h : MayRelease w₀.storage.pathPrefix r hist d v)
    (hr : r ∈ rs) (hseen : Seen (meaning crates) past hist) :
    Warranted rs past w₀.storage.pathPrefix d v := by
  obtain ⟨⟨version, rfl, hasked⟩, hdir, u, hu, hne⟩ := h
  obtain ⟨w₁, h₁, hdir⟩ := hseen.answered hdir
  obtain ⟨w₂, h₂, rfl⟩ := hseen.answered hu
  refine ⟨⟨version, hr, hasked.imp_right ?_⟩, ⟨w₁, h₁, hdir⟩, w₂, h₂, hne⟩
  rintro ⟨hnone, entries, htold, hmax⟩
  obtain ⟨w₃, h₃, rfl⟩ := hseen.answered htold
  exact ⟨hnone, w₃, h₃, hmax⟩

/-- One operation that a request of the run warrants. -/
theorem Provenance.step {op : Op} {r : AdminRequest}
    (hop : Warrants w₀.storage.pathPrefix r hist op) (hr : r ∈ rs)
    (hseen : Seen (meaning crates) past hist)
    (hplace : ∀ w' ∈ past, w'.storage.pathPrefix = w₀.storage.pathPrefix)
    (hpast : ∀ w' ∈ past, Provenance crates rs w₀ past w') (hw : w ∈ past) :
    Provenance crates rs w₀ past (meaning crates op w).2 := by
  have h := hpast w hw
  cases op with
  | metaInsert d p v =>
    obtain ⟨rfl, hmay⟩ := hop
    refine { h with serving := fun e q u hm => ?_ }
    by_cases he : e = d
    · subst he
      simp only [meaning, World.setMeta, DashMap.insert_self, Option.some.injEq,
        Prod.mk.injEq] at hm
      obtain ⟨rfl, rfl⟩ := hm
      exact Or.inr ⟨rfl, hmay.warranted hr hseen⟩
    · simp only [meaning, World.setMeta, DashMap.insert_of_ne _ he] at hm
      exact h.serving e q u hm
  | cacheUpdate d data =>
    obtain ⟨v, hmay, htold⟩ := hop
    refine { h with cached := fun e files hc => ?_ }
    by_cases he : e = d
    · subst he
      change (w.storage.cache.data.insert e data) e = some files at hc
      rw [DashMap.insert_self] at hc
      obtain rfl := Option.some.inj hc
      obtain ⟨w', hw', hread⟩ := hseen.answered htold
      refine Or.inr ⟨v, hmay.warranted hr hseen, w', hw', ?_⟩
      rw [World.snapshot, hplace w' hw']
      exact (Except.ok.inj hread).symm
    · change (w.storage.cache.data.insert d data) e = some files at hc
      rw [DashMap.insert_of_ne _ he] at hc
      exact h.cached e files hc
  | uploadingInsert d v =>
    obtain ⟨rfl, hfree, ⟨serving, hserving, hne⟩, handle, hmarked⟩ := hop
    obtain ⟨w₁, h₁, hfree⟩ := hseen.answered hfree
    obtain ⟨w₂, h₂, rfl⟩ := hseen.answered hserving
    obtain ⟨w₃, hstep, hmarked⟩ := hseen.performed hmarked
    refine { h with uploading := fun e u hu => ?_, kept := fun e u hu => ?_ }
    · by_cases he : e = d
      · subst he
        rw [uploading_insert, if_pos rfl] at hu
        obtain rfl := Option.some.inj hu
        exact Or.inr ⟨hr, ⟨w₁, h₁, hfree⟩, ⟨w₂, h₂, hne⟩, w₃, _, handle, hstep,
          Prod.ext hmarked rfl⟩
      · rw [uploading_insert, if_neg he] at hu
        exact h.uploading e u hu
    · by_cases he : e = d
      · -- no version of the domain was being uploaded when the handler looked
        subst he
        refine Or.inr (((hpast w₁ h₁).kept e u hu).resolve_left fun hstill => ?_)
        exact Option.some_ne_none u (hstill.symm.trans hfree)
      · rw [uploading_insert, if_neg he]
        exact h.kept e u hu
  | uploadingRemoveIf d v =>
    obtain ⟨rfl, hremoved⟩ := hop
    obtain ⟨w₁, hstep, hremoved⟩ := hseen.performed hremoved
    refine { h with uploading := fun e u hu => ?_, kept := fun e u hu => ?_ }
    · exact h.uploading e u (DashMap.of_removeIf hu)
    · refine (h.kept e u hu).elim (fun hstill => ?_) Or.inr
      by_cases he : e = d
      · subst he
        by_cases hv : u = v
        · subst hv
          exact Or.inr ⟨hr, w₁, _, hstep, Prod.ext hremoved rfl⟩
        · refine Or.inl ?_
          simp only [meaning, World.setUploading]
          rwa [DashMap.removeIf_of_not _ hstill (by simpa using hv)]
      · refine Or.inl ?_
        simp only [meaning, World.setUploading]
        rwa [DashMap.removeIf_of_ne _ he]
  | _ => exact ⟨h.serving, h.cached, h.uploading, h.kept⟩

/-- **The maps hold nothing that was never so.**  However the steps of the handlers are
ordered, what is served, cached and recorded as being uploaded was there at the start, or a
request of the run asked for it and its conditions each held in some state of the run; a step of the
run has made the marker of an upload that is new, and removed that of one that is dropped. -/
theorem handlers_provenance {ps : List (Method Response)}
    (h : Trail (meaning crates) (rs.map (handle crates w₀.storage.pathPrefix), w₀) past (ps, w)) :
    Provenance crates rs w₀ past w := by
  let just : List (Sigma Op.Reply) → Op → Prop := fun hist op =>
    ∃ r ∈ rs, Warrants w₀.storage.pathPrefix r hist op
  have hstart : ∀ p ∈ rs.map (handle crates w₀.storage.pathPrefix), p.Guarded just [] := by
    intro p hp
    obtain ⟨r, hr, rfl⟩ := List.mem_map.mp hp
    exact (guarded_handle r).mono fun hist op hop => ⟨r, hr, hop⟩
  have hstep : ∀ {past ps s hist op}, Trail (meaning crates)
      (rs.map (handle crates w₀.storage.pathPrefix), w₀) past (ps, s) → just hist op →
      Seen (meaning crates) past hist → (∀ s' ∈ past, Provenance crates rs w₀ past s') →
      Provenance crates rs w₀ past (meaning crates op s).2 := by
    intro past ps s hist op hrun hop hseen hpast
    obtain ⟨r, hr, hop⟩ := hop
    exact Provenance.step hop hr hseen
      (hrun.eq_start (fun w => w.storage.pathPrefix) meaning_pathPrefix) hpast hrun.mem_past
  have hall : ∀ s ∈ past, Provenance crates rs w₀ past s :=
    h.invariant (fun hsuffix hw => Provenance.mono hw hsuffix) hstep hstart (provenance_start rs w₀)
  exact hall w h.mem_past

end Provenance

/-- A release of the newest version while the upload of another one begins. -/
theorem handlers_provenance_race :
    let rs : List AdminRequest := [.updateDomainVersion ⟨"www.a.com".toList, none⟩,
      .changeUploadStatus ⟨"www.a.com".toList, 3, .uploading⟩]
    let c := follow (meaning Crates.simple) [0, 1, 0, 1, 0, 1, 1, 0, 0, 1, 0, 0]
      (rs.map (handle Crates.simple twoVersions.storage.pathPrefix), twoVersions)
    ∃ past, c.2 ∈ past ∧ c.2.serving "www.a.com".toList = some 2 ∧
      c.2.storage.uploadingStatus "www.a.com".toList = some 3 ∧
      Provenance Crates.simple rs twoVersions past c.2 := by
  intro rs c
  have hserving : c.2.serving "www.a.com".toList = some 2 := by decide +kernel
  have huploading : c.2.storage.uploadingStatus "www.a.com".toList = some 3 := by decide +kernel
  obtain ⟨past, h⟩ : ∃ past, Trail (meaning Crates.simple)
      (rs.map (handle Crates.simple twoVersions.storage.pathPrefix), twoVersions) past (c.1, c.2) :=
    (follow_run (meaning Crates.simple) [0, 1, 0, 1, 0, 1, 1, 0, 0, 1, 0, 0] _).trail
  exact ⟨past, h.mem_past, hserving, huploading, handlers_provenance h⟩

end SpaServer
