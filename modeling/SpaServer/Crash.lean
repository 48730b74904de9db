import SpaServer.Markers

/-!
# Crashes

A crash leaves the disk as it is between two effects of a handler; `init` then reads
that disk.  A version without a marker counts as complete to it, so every such version
has to be accounted for (`Accounted`): it was there before the run, or a Finish request
for it has succeeded.

* `crashInv_serve`: whole requests keep every version accounted for.
* `mem_cuts_status`, `mem_cuts_save`: what the disk can look like inside a handler.
  Only between the `create_dir_all` and the `File::create` of an Uploading request is
  there a version that is not accounted for.
* `crash_safe`: after a crash at any other point, and at that point unless the new
  directory is the greatest version (`InWindow`), `init` selects only versions that are.
-/

namespace SpaServer

open Base Program

variable {crates : Crates}

/-- Version entries are directories named in decimal, and no domain has two markers. -/
structure WellFormedTree (dk : Disk) (path : PathBuf) : Prop where
  version : ∀ d name v, VersionEntry dk (dk.locate path ++ [.utf8 d]) name v →
    dk.node (dk.locate path ++ [.utf8 d] ++ [.utf8 name]) = some .dir ∧ name = toDecimal v
  one : OneMarker dk path

/-- Version `v` of `d` is there, without a marker. -/
def Complete (dk : Disk) (base : Loc) (d : Str) (v : UInt32) : Prop :=
  VersionEntry dk (base ++ [.utf8 d]) (toDecimal v) v ∧
    ¬ Marked dk (base ++ [.utf8 d]) (toDecimal v)

/-- Every version without a marker was complete on `dk₀`, or is done. -/
def Accounted (dk₀ dk : Disk) (base : Loc) (done : Str → UInt32 → Prop) : Prop :=
  ∀ d name v, VersionEntry dk (base ++ [.utf8 d]) name v → ¬ Marked dk (base ++ [.utf8 d]) name →
    name = toDecimal v ∧ (Complete dk₀ base d v ∨ done d v)

theorem Accounted.mono {dk₀ dk : Disk} {base : Loc} {done done' : Str → UInt32 → Prop}
    (h : Accounted dk₀ dk base done) (hd : ∀ d v, done d v → done' d v) :
    Accounted dk₀ dk base done' := fun d name v he hm =>
  ⟨(h d name v he hm).1, (h d name v he hm).2.imp_right (hd d v)⟩

/-- What happens along the way to one version changes the account of that version only. -/
theorem Accounted.along {dk₀ dk dk' : Disk} {base t : Loc} {done : Str → UInt32 → Prop} {d : Str}
    {v : UInt32} (h : Accounted dk₀ dk base done)
    (ha : ∀ l, dk'.node l = dk.node l ∨ l <+: base ++ .utf8 d :: .utf8 (toDecimal v) :: t)
    (hdv : Complete dk' base d v → Complete dk₀ base d v ∨ done d v) :
    Accounted dk₀ dk' base done := by
  intro e name u hent hm
  by_cases he : e = d ∧ name = toDecimal v
  · obtain ⟨rfl, rfl⟩ := he
    obtain rfl : u = v := Option.some.inj (hent.2.symm.trans (parseU32_toDecimal v))
    exact ⟨rfl, hdv ⟨hent, hm⟩⟩
  have hsame : ∀ s, dk'.node (base ++ .utf8 e :: .utf8 name :: s) =
      dk.node (base ++ .utf8 e :: .utf8 name :: s) := by
    intro s
    refine (ha _).resolve_right fun hpre => he ?_
    rw [List.prefix_append_right_inj] at hpre
    simp only [List.cons_prefix_cons, OsName.utf8.injEq] at hpre
    exact ⟨hpre.1, hpre.2.1⟩
  refine h e name u ⟨?_, hent.2⟩ ?_
  · have := hent.1
    simpa [hsame []] using this
  · rw [Marked] at hm ⊢
    simpa [hsame [.utf8 uploadingFileName]] using hm

/-- **What `init` selects is accounted for.** -/
theorem Accounted.init {dk₀ dk : Disk} {path : PathBuf} {done : Str → UInt32 → Prop}
    {cache : FileCache} {st : DomainStorage} (h : Accounted dk₀ dk (dk.locate path) done)
    (hinit : DomainStorage.init crates dk path cache = .ok st) {d : Str} {p : PathBuf} {v : UInt32}
    (hs : st.domainMeta d = some (p, v)) :
    Complete dk₀ (dk.locate path) d v ∨ done d v := by
  obtain ⟨rfl, _, hdomain, hother⟩ := init_spec hinit
  by_cases hd : DomainDir dk st.pathPrefix d
  · obtain ⟨⟨_, hserving⟩, hfound⟩ := hdomain d hd
    split at hserving
    · next hpos =>
      rw [hserving.1] at hs
      obtain ⟨_, rfl⟩ := Prod.mk.inj (Option.some.inj hs)
      obtain ⟨name, hent, hm⟩ := hfound.serving hpos
      exact (h d name _ hent hm).2
    · rw [hserving] at hs
      exact absurd hs (by simp)
  · rw [(hother d hd).2] at hs
    exact absurd hs (by simp)

/-! ### Whole requests -/

/-- What holds between two requests: the recorded uploads have their markers, and
every version without one is accounted for. -/
structure CrashInv (dk₀ : Disk) (base : Loc) (done : Str → UInt32 → Prop) (w : World) : Prop where
  here : w.disk.locate w.storage.pathPrefix = base
  marked : ∀ d v, Plain d → w.storage.uploadingStatus d = some v →
    w.disk.node (w.markerLoc d v) ≠ none
  accounted : Accounted dk₀ w.disk base done

theorem complete_iff {w : World} {dk : Disk} {d : Str} (hd : Plain d) {v : UInt32} :
    Complete dk (w.disk.locate w.storage.pathPrefix) d v ↔
      dk.node (w.versionLoc d v) ≠ none ∧ dk.node (w.markerLoc d v) = none := by
  rw [Complete, VersionEntry, Marked, w.versionLoc_plain hd, w.markerLoc_plain hd]
  simp [parseU32_toDecimal]

section Request

variable {dk₀ : Disk} {base : Loc} {done done' : Str → UInt32 → Prop} {w : World} {d : Str}
  {v : UInt32}

theorem CrashInv.mono (h : CrashInv dk₀ base done w) (hd : ∀ e u, done e u → done' e u) :
    CrashInv dk₀ base done' w := ⟨h.here, h.marked, h.accounted.mono hd⟩

/-- The disk may grow along the way to the directory of a version, if that version is
marked then or was there before. -/
theorem CrashInv.grow (h : CrashInv dk₀ base done w) (hd : Plain d) {dk : Disk} {t : Loc}
    (ha : w.disk.AddsAlong dk (w.versionLoc d v ++ t)) (hcwd : dk.cwd = w.disk.cwd)
    (hdv : dk.node (w.versionLoc d v) = w.disk.node (w.versionLoc d v) ∨
      w.disk.node (w.markerLoc d v) ≠ none) :
    CrashInv dk₀ base done (w.setDisk dk) := by
  have hp : SamePlaces w (w.setDisk dk) := ⟨rfl, hcwd⟩
  refine ⟨by rw [← h.here, Disk.locate, World.setDisk, hcwd]; rfl, fun e u he hu hn => ?_, ?_⟩
  · rw [hp.markerLoc] at hn
    exact h.marked e u he hu (ha.none_of_none hn)
  · refine h.accounted.along (d := d) (v := v) (t := t) (fun l => ?_) fun hc => ?_
    · refine (ha l).imp_right fun hn => ?_
      have := hn.2
      rw [w.versionLoc_plain hd, h.here] at this
      simpa using this
    · rw [← h.here, complete_iff hd] at hc
      obtain ⟨hv, hm⟩ := hc
      have hm' := ha.none_of_none hm
      rcases hdv with hsame | hne
      · have hold : Complete w.disk base d v := by
          rw [← h.here, complete_iff hd]
          exact ⟨by rw [← hsame]; exact hv, hm'⟩
        exact (h.accounted d _ v hold.1 hold.2).2
      · exact absurd hm' hne

theorem crashInv_save {path : Str} {data : List UInt8} {res : Except StorageError Unit × World}
    (ho : SaveOutcome w d v path data res) (hd : Plain d) (h : CrashInv dk₀ base done w) :
    CrashInv dk₀ base done res.2 := by
  cases ho with
  | notUploading _ => exact h
  | badPath _ _ => exact h
  | present _ _ _ => exact h
  | @blocked e names dk hu _ hnew =>
    refine h.grow hd (t := names.map .utf8) (hnew.addsAlong.mono ?_) hnew.1 (Or.inr (h.marked d v hd hu))
    exact List.dropLast_prefix _
  | @saved names dk t hu _ _ hf hcwd _ hrest =>
    refine h.grow hd (t := names.map .utf8) (fun l => ?_) hcwd (Or.inr (h.marked d v hd hu))
    by_cases hl : l = w.fileLoc d v names
    · subst hl
      exact Or.inr ⟨hf, List.prefix_refl _⟩
    · exact (hrest l hl).imp_right fun hn => ⟨hn.1, hn.2.2.trans (List.dropLast_prefix _)⟩

theorem crashInv_status {st : UploadingStatus} {res : Except StorageError Unit × World}
    (ho : StatusOutcome w d v st res) (hd : Plain d) (h : CrashInv dk₀ base done w)
    (hp : SamePlaces w res.2) (hdone : ∀ e u, done e u → done' e u)
    (hfin : st = .finish → res.1 = .ok () → done' d v) : CrashInv dk₀ base done' res.2 := by
  have hbase : res.2.disk.locate res.2.storage.pathPrefix = base := by
    rw [← h.here, Disk.locate, hp.1, hp.2]
    rfl
  cases ho with
  | other _ _ => exact h.mono hdone
  | again _ => exact h.mono hdone
  | notMarked _ _ => exact h.mono hdone
  | serving _ _ => exact h.mono hdone
  | blocked _ _ hnew hb =>
    exact (h.grow hd (t := []) (by simpa using hnew.addsAlong) hnew.1 hb).mono hdone
  | @started dk hu _ hnew hv hm =>
    refine ⟨hbase, fun e u he hu' => ?_, ?_⟩
    · rw [hp.markerLoc]
      simp only [World.setUploading, World.setDisk] at hu' ⊢
      by_cases hloc : w.markerLoc e u = w.markerLoc d v
      · rw [hloc, dk.set_node_self hm]
        simp
      · rw [dk.set_node_of_ne hm hloc]
        by_cases hed : e = d
        · subst hed
          rw [DashMap.insert_self] at hu'
          obtain rfl := Option.some.inj hu'
          exact absurd rfl hloc
        · rw [DashMap.insert_of_ne _ hed] at hu'
          exact fun hn => h.marked e u he hu' (hnew.addsAlong.none_of_none hn)
    · refine (h.accounted.along (d := d) (v := v) (t := [.utf8 uploadingFileName]) (fun l => ?_)
        fun hc => ?_).mono hdone
      · rw [← h.here, ← w.markerLoc_plain hd]
        simp only [World.setUploading, World.setDisk]
        by_cases hl : l = w.markerLoc d v
        · exact Or.inr (by rw [hl])
        · rw [dk.set_node_of_ne hm hl]
          exact (hnew.addsAlong l).imp_right fun hn => hn.2.trans (List.prefix_append _ _)
      · rw [← h.here, complete_iff hd] at hc
        exact absurd hc.2 (by simp [World.setUploading, World.setDisk])
  | @finished f hu hm =>
    have hnode := w.disk.removeTree_file (w.markerLoc_ne_nil d v) (by rw [hm]; simp)
    refine ⟨hbase, fun e u he hu' => ?_, ?_⟩
    · rw [hp.markerLoc]
      simp only [World.setUploading, World.setDisk] at hu' ⊢
      by_cases hed : e = d
      · subst hed
        rcases hu with hu | hu
        · rw [DashMap.removeIf_self _ hu (by simp)] at hu'
          exact absurd hu' (by simp)
        · rw [DashMap.removeIf_none _ hu, hu] at hu'
          exact absurd hu' (by simp)
      · rw [DashMap.removeIf_of_ne _ hed] at hu'
        rw [hnode, if_neg fun hl => hed (w.markerLoc_inj he hd hl).1]
        exact h.marked e u he hu'
    · refine (h.accounted.mono hdone).along (d := d) (v := v) (t := [.utf8 uploadingFileName])
        (fun l => ?_) fun _ => Or.inr (hfin rfl rfl)
      rw [← h.here, ← w.markerLoc_plain hd]
      simp only [World.setUploading, World.setDisk, hnode]
      split
      · next hl => exact Or.inr (by rw [hl])
      · exact Or.inl rfl

end Request

def Finished (log : List (AdminRequest × Response)) (d : Str) (v : UInt32) : Prop :=
  (.changeUploadStatus ⟨d, v, .finish⟩, .ok) ∈ log

def AdminRequest.KeepsFiles (r : AdminRequest) : Prop := ∀ q, r ≠ .removeDomainVersion q

/-- **One request keeps every version accounted for.** -/
theorem crashInv_serve {dk₀ : Disk} {base : Loc} {log : List (AdminRequest × Response)} {w : World}
    {r : AdminRequest} (h : CrashInv dk₀ base (Finished log) w) (hr : r.PlainDomain)
    (hk : r.KeepsFiles) :
    CrashInv dk₀ base (Finished ((r, (w.serve crates r).1) :: log)) (w.serve crates r).2 := by
  have hp : SamePlaces w (w.serve crates r).2 := run_samePlaces _ w
  have ho := @serve_outcome crates w r
  generalize w.serve crates r = res at hp ho ⊢
  have hdone : ∀ e u, Finished log e u → Finished ((r, res.1) :: log) e u :=
    fun e u hf => List.mem_cons_of_mem _ hf
  cases ho with
  | looks _ => exact h.mono hdone
  | badForm _ => exact h.mono hdone
  | save hf ho => exact (crashInv_save ho (hr _ (by rw [hf]; rfl)) h).mono hdone
  | @status param res ho =>
    refine crashInv_status ho hr h hp hdone fun hst hok => ?_
    rw [Finished, hok, ← hst]
    exact List.mem_cons_self
  | release ho =>
    cases ho with
    | refused => exact h.mono hdone
    | released _ _ _ => exact CrashInv.mono ⟨h.here, h.marked, h.accounted⟩ hdone
  | delete _ => exact absurd rfl (hk _)

/-! ### Inside a request -/

theorem mem_cuts_finish {pathPrefix : PathBuf} {w : World} {d : Str} {v : UInt32} {c : Op × World}
    (h : c ∈ (finishUploading pathPrefix d v).cuts (meaning crates) Op.changesDisk w) :
    c.2 = w := by
  rcases mem_cuts_call h with rfl | h
  · rfl
  · simp only [meaning] at h
    cases hr : (w.disk.removeFile (markerPath pathPrefix d v)).1 with
    | error e =>
      simp only [hr] at h
      exact absurd h List.not_mem_nil
    | ok _ =>
      simp only [hr] at h
      exact absurd h List.not_mem_nil

/-- Inside `update_uploading_status` the disk is as before, except between the making
of the directory and that of the marker. -/
theorem mem_cuts_status {w : World} {d : Str} {v : UInt32} {st : UploadingStatus} {c : Op × World}
    (h : c ∈ (updateUploadingStatus w.storage.pathPrefix d v st).cuts (meaning crates)
      Op.changesDisk w) :
    c.2 = w ∨ st = .uploading ∧ c = (.createFile (markerPath w.storage.pathPrefix d v),
      w.setDisk (w.disk.createDirAll (getVersionPath w.storage.pathPrefix d v)).2) := by
  simp only [updateUploadingStatus, perform_bind, pure_eq] at h
  rcases mem_cuts_call h with rfl | h
  · exact Or.inl rfl
  simp only [meaning] at h
  cases hu : w.storage.uploadingStatus d with
  | some u =>
    simp only [hu] at h
    split at h
    · exact absurd h List.not_mem_nil
    · split at h
      · exact Or.inl (mem_cuts_finish h)
      · exact absurd h List.not_mem_nil
  | none =>
    simp only [hu] at h
    split at h
    case isFalse => exact Or.inl (mem_cuts_finish h)
    case isTrue hst =>
    rcases mem_cuts_call h with rfl | h
    · exact Or.inl rfl
    split at h
    · exact absurd h List.not_mem_nil
    rcases mem_cuts_call h with rfl | h
    · exact Or.inl rfl
    simp only [meaning] at h
    cases hd : (w.disk.createDirAll (getVersionPath w.storage.pathPrefix d v)).1 with
    | error e =>
      simp only [hd] at h
      exact absurd h List.not_mem_nil
    | ok _ =>
      simp only [hd] at h
      rcases mem_cuts_call h with rfl | h
      · exact Or.inr ⟨hst, rfl⟩
      · split at h
        · exact absurd h List.not_mem_nil
        · exact absurd h List.not_mem_nil

theorem mem_cuts_writeFile {w : World} {p : PathBuf} (hp : p ≠ []) {data : List UInt8}
    {c : Op × World} (h : c ∈ (writeFile p data).cuts (meaning crates) Op.changesDisk w) :
    ∃ dk, c.2 = w.setDisk dk ∧ dk.cwd = w.disk.cwd ∧
      w.disk.AddsAlong dk (w.disk.locate p) := by
  have hsame : ∃ dk, w = w.setDisk dk ∧ dk.cwd = w.disk.cwd ∧
      w.disk.AddsAlong dk (w.disk.locate p) := ⟨w.disk, rfl, rfl, .refl _ _⟩
  simp only [writeFile, perform_bind] at h
  rcases mem_cuts_call h with rfl | h
  · exact hsame
  simp only [meaning] at h
  cases hf : w.disk.find p with
  | some n =>
    have hex : w.disk.exists? p = true := by simp [Disk.exists?, hf]
    simp only [hex] at h
    rcases mem_cuts_call h with rfl | h
    · exact hsame
    simp only [meaning, Disk.openFile, hex, if_true] at h
    rcases mem_cuts_call h with rfl | h
    · exact hsame
    · split at h
      · exact absurd h List.not_mem_nil
      · exact absurd h List.not_mem_nil
  | none =>
    have hex : w.disk.exists? p = false := by simp [Disk.exists?, hf]
    simp only [hex] at h
    rcases mem_cuts_call h with rfl | h
    · exact hsame
    simp only [meaning] at h
    rcases w.disk.createFile_cases p with ⟨e, he⟩ | ⟨hc, hdir, he⟩
    · simp only [he] at h
      exact absurd h List.not_mem_nil
    · simp only [he] at h
      rcases mem_cuts_call h with rfl | h
      · refine ⟨_, rfl, rfl, fun l => ?_⟩
        by_cases hl : l = w.disk.locate p
        · subst hl
          rw [Disk.find_eq_node hp hdir] at hf
          exact Or.inr ⟨hf, List.prefix_refl _⟩
        · exact Or.inl (w.disk.set_node_of_ne hc hl)
      · split at h
        · exact absurd h List.not_mem_nil
        · exact absurd h List.not_mem_nil

/-- Inside `save_file` the disk grows along the way to the file, of an upload that is on. -/
theorem mem_cuts_save {w : World} {d path : Str} {v : UInt32} {data : List UInt8} {c : Op × World}
    (h : c ∈ (saveFile w.storage.pathPrefix d v path data).cuts (meaning crates)
      Op.changesDisk w) :
    c.2 = w ∨ w.storage.uploadingStatus d = some v ∧ ∃ t dk, c.2 = w.setDisk dk ∧
      dk.cwd = w.disk.cwd ∧ w.disk.AddsAlong dk (w.versionLoc d v ++ t) := by
  simp only [saveFile, perform_bind, pure_eq] at h
  rcases mem_cuts_call h with rfl | h
  · exact Or.inl rfl
  split at h
  case isFalse => exact absurd h List.not_mem_nil
  case isTrue hu =>
  simp only [meaning] at h hu
  cases hn : sanitizedNames path with
  | none =>
    simp only [sanitizePath_eq_none hn] at h
    exact absurd h List.not_mem_nil
  | some names =>
  obtain ⟨p, q, hp, hq, hl, hlq, hpne, hdir⟩ := sanitizePath_version w d v hn
  simp only [hp, hq] at h
  rcases mem_cuts_call h with rfl | h
  · exact Or.inl rfl
  simp only [meaning] at h
  refine Or.inr ⟨hu, names.map .utf8, ?_⟩
  cases hex : w.disk.exists? q with
  | true =>
    simp only [hex] at h
    obtain ⟨dk, hc, hcwd, ha⟩ := mem_cuts_writeFile hpne h
    rw [hl] at ha
    exact ⟨dk, hc, hcwd, ha⟩
  | false =>
    simp only [hex] at h
    obtain ⟨hnew, _⟩ := w.disk.createDirAll_spec q
    rw [hlq] at hnew
    rcases mem_cuts_call h with rfl | h
    · exact ⟨w.disk, rfl, rfl, .refl _ _⟩
    simp only [meaning] at h
    cases hd : (w.disk.createDirAll q).1 with
    | error e =>
      simp only [hd] at h
      exact absurd h List.not_mem_nil
    | ok _ =>
      simp only [hd] at h
      obtain ⟨dk, hc, hcwd, ha⟩ := mem_cuts_writeFile hpne h
      refine ⟨dk, hc, hcwd.trans hnew.1, fun l => ?_⟩
      have hlp : (w.setDisk (w.disk.createDirAll q).2).disk.locate p = w.fileLoc d v names := by
        rw [← hl]
        exact createDirAll_locate w.disk q p
      rw [hlp] at ha
      have hold := (hnew.addsAlong.mono (List.dropLast_prefix _)) l
      rcases ha l with hs | ⟨hs, hpre⟩
      · rw [hs]
        exact hold
      · exact Or.inr ⟨hnew.addsAlong.none_of_none hs, hpre⟩

theorem uses_releaseVersion (pathPrefix : PathBuf) (d : Str) (v : UInt32) :
    (releaseVersion pathPrefix d v).Uses fun op => op.changesDisk = false := by
  simp only [releaseVersion, perform_bind]
  refine ⟨rfl, fun u => ?_⟩
  beta_reduce
  split
  · trivial
  · refine ⟨rfl, fun b => ?_⟩
    cases b with
    | true =>
      refine ⟨rfl, fun _ => ⟨rfl, fun res => ?_⟩⟩
      cases res with
      | error e => trivial
      | ok data => exact ⟨rfl, fun _ => trivial⟩
    | false => trivial

theorem uses_uploadDomainWithVersion (pathPrefix : PathBuf) (d : Str) (version : Option UInt32) :
    (uploadDomainWithVersion pathPrefix d version).Uses fun op => op.changesDisk = false := by
  cases version with
  | some v => exact uses_releaseVersion pathPrefix d v
  | none =>
    refine Uses.bind ((uses_getDomainInfoByDomain pathPrefix d).mono
      fun op h => lookup_changesDisk h) fun info => ?_
    cases ((info.map (·.versions)).getD []).max? with
    | none => trivial
    | some v => exact uses_releaseVersion pathPrefix d v

/-- **What the disk can look like inside a request**: as before; with the directory of
a new upload and no marker; or grown along the way to a file of an upload that is on. -/
theorem mem_cuts_handle {w : World} {r : AdminRequest} (hk : r.KeepsFiles) {c : Op × World}
    (h : c ∈ (handle crates w.storage.pathPrefix r).cuts (meaning crates) Op.changesDisk w) :
    c.2 = w ∨
    (∃ d v, r = .changeUploadStatus ⟨d, v, .uploading⟩ ∧
      c = (.createFile (markerPath w.storage.pathPrefix d v),
        w.setDisk (w.disk.createDirAll (getVersionPath w.storage.pathPrefix d v)).2)) ∨
    ∃ parts d v t dk, r = .uploadFile parts ∧ (formOf parts).domain = some d ∧
      w.storage.uploadingStatus d = some v ∧ c.2 = w.setDisk dk ∧ dk.cwd = w.disk.cwd ∧
      w.disk.AddsAlong dk (w.versionLoc d v ++ t) := by
  have hlook : r.isLookup = true → c.2 = w := by
    intro hl
    have hu : (handle crates w.storage.pathPrefix r).Uses fun op => op.changesDisk = false :=
      (handle_lookup hl w.storage.pathPrefix).mono fun op ho => lookup_changesDisk ho
    rw [cuts_of_uses hu] at h
    exact absurd h List.not_mem_nil
  cases r with
  | updateDomainVersion option =>
    rw [handle, Service.updateDomainVersion, cuts_bind _ (by intro a s; cases a <;> rfl),
      cuts_of_uses (uses_uploadDomainWithVersion _ _ _)] at h
    exact absurd h List.not_mem_nil
  | changeUploadStatus param =>
    rw [handle, Service.changeUploadStatus, cuts_bind _ (by intro a s; cases a <;> rfl)] at h
    rcases mem_cuts_status h with hc | ⟨hst, hc⟩
    · exact Or.inl hc
    · obtain ⟨d, v, st⟩ := param
      obtain rfl : st = .uploading := hst
      exact Or.inr (Or.inl ⟨d, v, rfl, hc⟩)
  | uploadFile parts =>
    rw [handle, Service.updateFile, ← formOf] at h
    cases hf : formOf parts with
    | mk file path version domain =>
    rw [hf] at h
    rcases file with _ | data
    · exact absurd h List.not_mem_nil
    rcases path with _ | path
    · exact absurd h List.not_mem_nil
    rcases version with _ | v
    · exact absurd h List.not_mem_nil
    rcases domain with _ | d
    · exact absurd h List.not_mem_nil
    dsimp only at h
    rw [cuts_bind _ (by intro a s; cases a <;> rfl)] at h
    rcases mem_cuts_save h with hc | ⟨hu, t, dk, hc, hcwd, ha⟩
    · exact Or.inl hc
    · exact Or.inr (Or.inr ⟨parts, d, v, t, dk, rfl, by rw [hf], hu, hc, hcwd, ha⟩)
  | removeDomainVersion q => exact absurd rfl (hk q)
  | _ => exact Or.inl (hlook rfl)

/-! ### Crashes -/

/-- The crash comes before the marker of a new upload is made, and the new directory is
that of the greatest version of a domain. -/
def InWindow (w : World) (r : AdminRequest) (op : Op) : Prop :=
  ∃ d v, r = .changeUploadStatus ⟨d, v, .uploading⟩ ∧
    op = .createFile (markerPath w.storage.pathPrefix d v) ∧
    w.disk.node (w.versionLoc d v) = none ∧ uriRegex.isMatch d = true ∧ 0 < v ∧
    ∀ name u, VersionEntry w.disk (w.domainLoc d) name u →
      ¬ Marked w.disk (w.domainLoc d) name → u < v

/-- The disks a crash can leave behind in the state `w`: that of `w` itself, or one
inside the request that comes next. -/
inductive CrashDisk (crates : Crates) (w : World) : Disk → Prop
  | between : CrashDisk crates w w.disk
  | inside {r : AdminRequest} {op : Op} {w' : World} (hr : r.PlainDomain) (hk : r.KeepsFiles)
      (h : (op, w') ∈ (handle crates w.storage.pathPrefix r).cuts (meaning crates)
        Op.changesDisk w) (hsafe : ¬ InWindow w r op) : CrashDisk crates w w'.disk

theorem crashInv_start {dk : Disk} {path : PathBuf} {cache : FileCache} {st : DomainStorage}
    (hinit : DomainStorage.init crates dk path cache = .ok st) (htree : WellFormedTree dk path) :
    CrashInv dk (dk.locate path) (Finished []) ⟨st, dk⟩ := by
  obtain ⟨rfl, _, hdomain, hother⟩ := init_spec hinit
  refine ⟨rfl, fun d v hd hu => ?_, fun d name v hent hm => ?_⟩
  · by_cases hdd : DomainDir dk st.pathPrefix d
    · obtain ⟨hholds, hfound⟩ := hdomain d hdd
      obtain ⟨name, hent, hm⟩ := hfound.uploading v (hholds.1 ▸ hu)
      obtain ⟨_, rfl⟩ := htree.version d name v hent
      rw [World.markerLoc_plain _ hd]
      simpa [Marked] using hm
    · rw [(hother d hdd).1] at hu
      exact absurd hu (by simp)
  · obtain ⟨_, rfl⟩ := htree.version d name v hent
    exact ⟨rfl, Or.inl ⟨hent, hm⟩⟩

theorem crashInv_log {dk₀ : Disk} {path : PathBuf} {cache : FileCache} {st : DomainStorage}
    (hinit : DomainStorage.init crates dk₀ path cache = .ok st) (htree : WellFormedTree dk₀ path)
    {log : List (AdminRequest × Response)} {w : World}
    (hlog : World.Logged crates (fun _ _ => True) ⟨st, dk₀⟩ log w)
    (hreqs : ∀ e ∈ log, e.1.PlainDomain ∧ e.1.KeepsFiles) :
    CrashInv dk₀ (dk₀.locate path) (Finished log) w ∧ w.storage.pathPrefix = path := by
  induction hlog with
  | start => exact ⟨crashInv_start hinit htree, (init_spec hinit).1⟩
  | serve _ r _ ih =>
    obtain ⟨hinv, hpath⟩ := ih fun e he => hreqs e (List.mem_cons_of_mem _ he)
    obtain ⟨hplain, hkeep⟩ := hreqs _ List.mem_cons_self
    exact ⟨crashInv_serve hinv hplain hkeep, (run_pathPrefix _ _).trans hpath⟩

theorem accounted_window {dk₀ dk : Disk} {base : Loc} {done : Str → UInt32 → Prop} {w : World}
    {d : Str} {v : UInt32} (h : CrashInv dk₀ base done w) (hd : Plain d)
    (hnew : w.disk.NewDirs dk (w.versionLoc d v)) :
    Accounted dk₀ dk base fun e u => done e u ∨ e = d ∧ u = v := by
  refine (h.accounted.mono fun e u he => Or.inl he).along (d := d) (v := v) (t := []) (fun l => ?_)
    fun _ => Or.inr (Or.inr ⟨rfl, rfl⟩)
  refine (hnew.2 l).imp_right fun hn => ?_
  rw [← h.here, ← w.versionLoc_plain hd]
  exact hn.2.2

/-- When `init` selects the version of the window, the crash was in the window, or the
version was there before. -/
theorem inWindow_of_selected {dk₀ dk : Disk} {base : Loc} {done : Str → UInt32 → Prop} {w : World}
    {d : Str} {v : UInt32} (h : CrashInv dk₀ base done w) (hd : Plain d)
    (hnew : w.disk.NewDirs dk (w.versionLoc d v)) {cache : FileCache} {st : DomainStorage}
    (hinit : DomainStorage.init crates dk w.storage.pathPrefix cache = .ok st) {p : PathBuf}
    (hs : st.domainMeta d = some (p, v)) :
    (Complete dk₀ base d v ∨ done d v) ∨
      InWindow w (.changeUploadStatus ⟨d, v, .uploading⟩)
        (.createFile (markerPath w.storage.pathPrefix d v)) := by
  have hloc : dk.locate w.storage.pathPrefix = w.disk.locate w.storage.pathPrefix := by
    rw [Disk.locate, hnew.1, Disk.locate]
  obtain ⟨hpre, _, hdomain, hother⟩ := init_spec hinit
  by_cases hdd : DomainDir dk w.storage.pathPrefix d
  case neg => rw [(hother d hdd).2] at hs; exact absurd hs (by simp)
  obtain ⟨⟨_, hserving⟩, hfound⟩ := hdomain d hdd
  rw [hpre] at hserving
  split at hserving
  case isFalse => rw [hserving] at hs; exact absurd hs (by simp)
  case isTrue hpos =>
  rw [hserving.1] at hs
  obtain ⟨_, rfl⟩ := Prod.mk.inj (Option.some.inj hs)
  rw [hloc] at hfound
  have hgrow : ∀ {l}, dk.node l = none → w.disk.node l = none := hnew.addsAlong.none_of_none
  by_cases hold : w.disk.node (w.versionLoc d (scanDomain dk w.storage.pathPrefix d).2) = none
  · refine Or.inr ⟨d, _, rfl, rfl, hold, hdd.2, hpos, fun name u hent hm => ?_⟩
    rw [w.domainLoc_plain hd] at hent hm
    rw [h.here] at hent hm hfound
    have hname := (h.accounted d name u hent hm).1
    subst hname
    have hent' : VersionEntry dk (base ++ [.utf8 d]) (toDecimal u) u :=
      ⟨fun hn => hent.1 (hgrow hn), hent.2⟩
    have hne : u ≠ (scanDomain dk w.storage.pathPrefix d).2 := by
      intro he
      rw [← he, w.versionLoc_plain hd, h.here] at hold
      exact hent.1 (by simpa using hold)
    have hm' : ¬ Marked dk (base ++ [.utf8 d]) (toDecimal u) := by
      rw [Marked, not_not] at hm ⊢
      rw [hnew.of_not_prefix, hm]
      intro hpre
      have := hpre.length_le
      rw [w.versionLoc_plain hd, h.here] at this
      simp at this
    exact UInt32.lt_of_le_of_ne (hfound.le _ u hent' hm') hne
  · left
    obtain ⟨name, hent, hm⟩ := hfound.serving hpos
    rw [h.here] at hent hm
    obtain ⟨rfl, _⟩ := accounted_window h hd hnew d name _ hent hm
    refine (h.accounted d _ _ ⟨?_, hent.2⟩ ?_).2
    · rw [w.versionLoc_plain hd, h.here] at hold
      simpa using hold
    · rw [Marked, not_not] at hm ⊢
      exact hgrow hm

/-- **A crash is safe.**  On the disk it leaves behind, `init` selects only versions
that were complete before the run or that a Finish request has finished. -/
theorem crash_safe {dk₀ : Disk} {path : PathBuf} {cache cache' : FileCache}
    {st st' : DomainStorage} (hinit : DomainStorage.init crates dk₀ path cache = .ok st)
    (htree : WellFormedTree dk₀ path) {log : List (AdminRequest × Response)} {w : World}
    (hlog : World.Logged crates (fun _ _ => True) ⟨st, dk₀⟩ log w)
    (hreqs : ∀ e ∈ log, e.1.PlainDomain ∧ e.1.KeepsFiles)
    {dk : Disk} (hcrash : CrashDisk crates w dk)
    (hre : DomainStorage.init crates dk path cache' = .ok st') {d : Str} {p : PathBuf} {v : UInt32}
    (hs : st'.domainMeta d = some (p, v)) :
    Complete dk₀ (dk₀.locate path) d v ∨ Finished log d v := by
  obtain ⟨hinv, hpath⟩ := crashInv_log hinit htree hlog hreqs
  subst hpath
  generalize dk₀.locate w.storage.pathPrefix = base at hinv ⊢
  have hdone : ∀ {w' : World}, CrashInv dk₀ base (Finished log) w' →
      w'.storage.pathPrefix = w.storage.pathPrefix → w'.disk = dk →
      Complete dk₀ base d v ∨ Finished log d v := by
    rintro w' h hpre rfl
    have hacc := h.accounted
    rw [← h.here, hpre] at hacc ⊢
    exact hacc.init hre hs
  cases hcrash with
  | between => exact hdone hinv rfl rfl
  | @inside r op w' hr hk h hsafe =>
    rcases mem_cuts_handle hk h with hc | ⟨e, u, rfl, hc⟩ | ⟨parts, e, u, t, dk', rfl, hdom, hu, hc, hcwd, ha⟩
    · dsimp only at hc
      subst hc
      exact hdone hinv rfl rfl
    · obtain ⟨rfl, rfl⟩ := Prod.mk.inj hc
      have hnew := (w.disk.createDirAll_spec (getVersionPath w.storage.pathPrefix e u)).1
      rw [w.locate_versionPath] at hnew
      have hacc := accounted_window hinv hr hnew
      have hloc : base = (w.disk.createDirAll (getVersionPath w.storage.pathPrefix e u)).2.locate
          w.storage.pathPrefix := by
        rw [createDirAll_locate, hinv.here]
      rw [hloc] at hacc
      rcases hacc.init hre hs with hc | hf | ⟨rfl, rfl⟩
      · rw [← hloc] at hc
        exact Or.inl hc
      · exact Or.inr hf
      · rcases inWindow_of_selected hinv hr hnew hre hs with hc | hwin
        · exact hc
        · exact absurd hwin hsafe
    · dsimp only at hc
      subst hc
      have hplain : Plain e := hr e hdom
      exact hdone (hinv.grow hplain ha hcwd (Or.inr (hinv.marked e u hplain hu))) rfl rfl

def secondUpload : World :=
  ((firstUpload.serve Crates.simple (.changeUploadStatus ⟨"www.a.com".toList, 1, .finish⟩)).2.serve
    Crates.simple (.changeUploadStatus ⟨"www.a.com".toList, 2, .uploading⟩)).2

/-- A file of version 2, which the server crashes over when it has made it and written
nothing yet. -/
def cutUpload : AdminRequest := putFile "2" "a/b.html" [7, 8]

theorem crash_safe_inside : ∃ log, World.Logged Crates.simple (fun _ _ => True)
    ⟨bareStorage, bareDisk⟩ log secondUpload ∧ ∃ dk st', CrashDisk Crates.simple secondUpload dk ∧
      secondUpload.disk.exists? "/srv/www.a.com/2/a/b.html".toList = false ∧
      dk.exists? "/srv/www.a.com/2/a/b.html".toList = true ∧
      DomainStorage.init Crates.simple dk "/srv".toList bareStorage.cache = .ok st' ∧
      st'.domainMeta "www.a.com".toList = some ("/srv/www.a.com/1".toList, 1) ∧
      (Complete bareDisk (bareDisk.locate "/srv".toList) "www.a.com".toList 1 ∨
        Finished log "www.a.com".toList 1) := by
  have hlog : World.Logged Crates.simple (fun _ _ => True) ⟨bareStorage, bareDisk⟩ _
      secondUpload :=
    .serve (.serve (.serve .start (.changeUploadStatus ⟨"www.a.com".toList, 1, .uploading⟩) trivial)
      (.changeUploadStatus ⟨"www.a.com".toList, 1, .finish⟩) trivial)
      (.changeUploadStatus ⟨"www.a.com".toList, 2, .uploading⟩) trivial
  have hplain : Plain "www.a.com".toList := by decide
  have hcut := List.mem_of_getElem? (l := (handle Crates.simple secondUpload.storage.pathPrefix
    cutUpload).cuts (meaning Crates.simple) Op.changesDisk secondUpload) (i := 5) rfl
  have hcrash := CrashDisk.inside (r := cutUpload)
    (fun d hd => by obtain rfl := Option.some.inj hd; exact hplain) (fun q => nofun) hcut nofun
  refine ⟨_, hlog, _, _, hcrash, by decide +kernel, rfl, rfl, rfl, ?_⟩
  refine @crash_safe Crates.simple bareDisk "/srv".toList bareStorage.cache bareStorage.cache
    bareStorage _ rfl ?_ _ _ hlog ?_ _ hcrash rfl _ "/srv/www.a.com/1".toList 1 rfl
  · exact ⟨fun _ _ _ h => absurd h bareDisk_noVersion, fun _ _ _ _ _ h => absurd h bareDisk_noVersion⟩
  · intro e he
    simp only [List.mem_cons, List.not_mem_nil, or_false] at he
    rcases he with rfl | rfl | rfl <;> exact ⟨hplain, fun q => nofun⟩

/-- The first upload of a domain is cut off before its marker is made: the empty
version is selected. -/
theorem crash_in_window :
    ¬ ∀ (log : List (AdminRequest × Response)) (w : World),
      World.Logged Crates.simple (fun _ _ => True) ⟨bareStorage, bareDisk⟩ log w →
      (∀ e ∈ log, e.1.PlainDomain ∧ e.1.KeepsFiles) →
      ∀ r : AdminRequest, r.PlainDomain → r.KeepsFiles →
      ∀ c ∈ (handle Crates.simple w.storage.pathPrefix r).cuts (meaning Crates.simple)
        Op.changesDisk w,
      ∀ st', DomainStorage.init Crates.simple c.2.disk "/srv".toList bareStorage.cache = .ok st' →
      ∀ d p v, st'.domainMeta d = some (p, v) →
        (r = .changeUploadStatus ⟨d, v, .uploading⟩ ∨
          ∃ resp, (.changeUploadStatus ⟨d, v, .uploading⟩, resp) ∈ log) →
        Complete bareDisk (bareDisk.locate "/srv".toList) d v ∨ Finished log d v := by
  intro h
  have hcut := List.mem_of_getElem? (l := (handle Crates.simple "/srv".toList
    (.changeUploadStatus ⟨"www.a.com".toList, 1, .uploading⟩)).cuts (meaning Crates.simple)
      Op.changesDisk ⟨bareStorage, bareDisk⟩) (i := 3) rfl
  rcases h [] ⟨bareStorage, bareDisk⟩ .start (by simp)
    (.changeUploadStatus ⟨"www.a.com".toList, 1, .uploading⟩) (by change Plain _; decide)
    (fun q => by simp) _ hcut _ rfl "www.a.com".toList "/srv/www.a.com/1".toList 1 rfl (Or.inl rfl)
    with hc | hf
  · exact bareDisk_noVersion hc.1
  · exact absurd hf List.not_mem_nil

end SpaServer
