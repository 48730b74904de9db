import SpaServer.Client.Commands
import SpaServer.Client.Resume
import SpaServer.HostName
import SpaServer.Position

/-!
# Two commands

`spa-client upload PATH DOMAIN` and then `spa-client release DOMAIN`.  No version is named: the server
chooses the one to upload, and releases the newest.  Every request is answered, and the names that come
up are such as a file system takes.

* `start_ok`, `OnlyMarked.canSave`, `serve_release_ok`: what it takes for a request to succeed.
* `sendFiles_succeeds`: so the whole upload goes through.
* `max_listed`: what was uploaded is the newest version.
* `published_iff`: the two commands publish the directory exactly when it is `Publishable`.
-/

namespace SpaServer
namespace Client

open Base
open Base.Program
open Site

variable {crates : Crates}

/-! ### Starting -/

section Start

variable {w : World} {d : Str} {v : UInt32}

def ClearWay (w : World) (d : Str) (v : UInt32) : Prop :=
  ∀ l f, l <+: w.versionLoc d v → w.disk.node l ≠ some (.file f)

theorem start_ok (hu : w.storage.uploadingStatus d = none) (hs : w.serving d ≠ some v)
    (hnew : w.disk.node (w.versionLoc d v) = none) (hclear : ClearWay w d v) :
    ((updateUploadingStatus w.storage.pathPrefix d v .uploading).run (SpaServer.meaning crates)
      w).1 = .ok () := by
  have hdirs : (w.disk.createDirAll (getVersionPath w.storage.pathPrefix d v)).1 = .ok () := by
    refine w.disk.createDirAll_ok fun l f hl => hclear l f ?_
    rwa [w.locate_versionPath] at hl
  obtain ⟨hdk, hdir⟩ := w.disk.createDirAll_spec (getVersionPath w.storage.pathPrefix d v)
  rw [w.locate_versionPath] at hdk hdir
  have hmarker : w.disk.node (w.markerLoc d v) = none :=
    w.disk.node_append_none (by rw [hnew]; simp) (by simp)
  rcases createFile_marker hdk (hdir (versionPath_ne_nil _ d v) hdirs) with
    ⟨_, -, hsome⟩ | ⟨hm, hfile⟩
  · exact absurd hmarker hsome
  simp only [updateUploadingStatus, perform_bind, run_call, SpaServer.meaning, hu]
  rw [if_pos trivial, run_call]
  split
  · next hserving => exact absurd hserving hs
  · simp only [run_call, SpaServer.meaning, World.setDisk, hdirs, hfile, pure_eq, run_ret]

theorem clearWay_of_started {res : Except StorageError Unit × World}
    (hu : w.storage.uploadingStatus d = none) (h : StatusOutcome w d v .uploading res)
    (hok : res.1 = .ok ()) : ClearWay w d v := by
  cases h with
  | other => exact absurd hok (by simp)
  | serving => exact absurd hok (by simp)
  | blocked => exact absurd hok (by simp)
  | again hu' => exact absurd (hu.symm.trans hu') (by simp)
  | @started dk _ _ hd hv hm =>
    intro l f hl hf
    have hdir : dk.node l = some .dir := by
      by_cases he : l = w.versionLoc d v
      · rw [he, hv]
      · exact dk.node_prefix hl he (by rw [hv]; simp)
    rw [hd.file_iff.mpr hf] at hdir
    exact absurd hdir (by simp)

/-- What there is when the upload has been started. -/
theorem started_there {res : Except StorageError Unit × World}
    (hu : w.storage.uploadingStatus d = none) (h : StatusOutcome w d v .uploading res)
    (hok : res.1 = .ok ()) :
    res.2.storage.uploadingStatus d = some v ∧
      res.2.disk.node (res.2.versionLoc d v) = some .dir ∧
      ∃ g, res.2.disk.node (res.2.markerLoc d v) = some (.file g) := by
  cases h with
  | other => exact absurd hok (by simp)
  | serving => exact absurd hok (by simp)
  | blocked => exact absurd hok (by simp)
  | again hu' => exact absurd (hu.symm.trans hu') (by simp)
  | @started dk _ _ hd hv hm =>
    have hplaces : SamePlaces w ((w.setDisk (dk.set _ _ hm)).setUploading
      (w.storage.uploadingStatus.insert d v)) := ⟨rfl, hd.1⟩
    have hmarker : (dk.set _ _ hm).node (w.markerLoc d v) = some (.file ⟨[], dk.now⟩) :=
      dk.set_node_self hm
    refine ⟨DashMap.insert_self _ _ _, ?_, ⟨[], dk.now⟩, ?_⟩
    · rw [hplaces.versionLoc]
      refine (dk.set _ _ hm).node_onWay (m := w.markerLoc d v) ?_ (w.markerLoc_ne_nil d v) ?_
      · rw [World.markerLoc, List.dropLast_concat]
      · rw [hmarker]
        simp
    · rw [hplaces.markerLoc]
      exact hmarker

/-- Below a version that holds its marker only, every file can be saved that is not below the
marker. -/
theorem OnlyMarked.canSave (h : OnlyMarked d v w)
    (hdir : w.disk.node (w.versionLoc d v) = some .dir) {r : List Str} {f : FileData}
    (hne : r ≠ []) (hmark : ¬ [uploadingFileName] <+: r) : CanSave w d v r f := by
  refine Or.inl ⟨h.node_eq_none hne fun he => hmark (he ▸ List.prefix_refl _), ?_⟩
  intro l g hl hg
  have hle : l <+: w.versionLoc d v ++ r.map .utf8 := hl.trans (List.dropLast_prefix _)
  rcases List.prefix_or_prefix_of_prefix hle (List.prefix_append _ _) with hup | ⟨t, rfl⟩
  · -- the directories on the way to the version
    have hup' : w.disk.node l = some .dir := by
      by_cases he : l = w.versionLoc d v
      · rw [he, hdir]
      · exact w.disk.node_prefix hup he (by rw [hdir]; simp)
    rw [hg] at hup'
    exact absurd hup' (by simp)
  · rcases h t _ hg with ⟨-, hn⟩ | rfl
    · exact absurd hn (by simp)
    · have hpre := (List.prefix_append_right_inj _).mp hle
      rw [← List.map_singleton (f := OsName.utf8)] at hpre
      obtain ⟨names, hnames, he⟩ := List.prefix_map_iff.mp hpre
      rw [map_utf8_injective he] at hmark
      exact hmark hnames

end Start

/-! ### Uploading -/

section Upload

variable {host : Host} {api : API} {dk : Disk} {dir : LocalDir dk} {d : Str} {v : UInt32} {w : World}

theorem answered_run {α : Type} (p : ClientM α) (w : World) :
    (p.run host.meaning ⟨w, []⟩).2.deliveries = [] := by
  induction p generalizing w with
  | ret a => rfl
  | call req next ih => exact ih _ _

def TakesStatus (host : Host) (api : API) (d : Str) (v : UInt32) : Prop :=
  api.authToken = host.conf.token ∧
    jsonLength (UpdateUploadingStatusOption.mk d v .uploading).toJson ≤ 1024 * 16

instance : Decidable (TakesStatus host api d v) := inferInstanceAs (Decidable (_ ∧ _))

theorem serve_changeUploadStatus (w : World) (d : Str) (v : UInt32) (st : UploadingStatus)
    {res : Except StorageError Unit × World}
    (h : (updateUploadingStatus w.storage.pathPrefix d v st).run (SpaServer.meaning crates) w =
      res) :
    w.serve crates (.changeUploadStatus ⟨d, v, st⟩) = (resultResponse res.1, res.2) := by
  simp only [World.serve, handle, Service.changeUploadStatus, run_bind, h]
  obtain ⟨_ | _, _⟩ := res <;> rfl

theorem start_answered {res : Except StorageError Unit × World}
    (h : (updateUploadingStatus w.storage.pathPrefix d v .uploading).run
      (SpaServer.meaning host.crates) w = res) :
    (call (api.changeUploadingStatus ⟨d, v, .uploading⟩)).run host.meaning ⟨w, []⟩ =
      if TakesStatus host api d v then (some (resultResponse res.1), ⟨res.2, []⟩)
      else (some .notFound, ⟨w, []⟩) := by
  obtain ⟨req, hreq⟩ : ∃ req, api.changeUploadingStatus ⟨d, v, .uploading⟩ = .ok req := ⟨_, rfl⟩
  rw [hreq, call_answered, answer_changeUploadingStatus hreq, serve_changeUploadStatus w d v _ h]
  by_cases htakes : TakesStatus host api d v
  · rw [if_pos htakes, if_pos (show _ ∧ _ from htakes)]
  · rw [if_neg htakes, if_neg (show ¬ (_ ∧ _) from htakes)]

/-- **Files that can be saved are all sent**, when the upload can be started. -/
theorem sendFiles_succeeds {sched : List Nat} {parallel : UInt32} {files : List UploadingFile}
    (htakes : TakesStatus host api d v) (huri : uriRegex.isMatch d = true)
    (hthreads : parallel ≠ 0)
    (hu : w.storage.uploadingStatus d = none) (hs : w.serving d ≠ some v)
    (hnew : w.disk.node (w.versionLoc d v) = none) (hclear : ClearWay w d v)
    (hnodup : files.Nodup)
    (hfiles : ∀ file ∈ files, ∃ r f, dir.File r f ∧ file = ⟨dir.key r, dir.text r⟩ ∧
      sanitizedNames (dir.key r) = some r ∧ host.TakesFile api dir d v r f ∧
      ¬ [uploadingFileName] <+: r) :
    ((sendFiles api dk sched d v parallel files).run host.meaning ⟨w, []⟩).1 = .ok () := by
  have hstart := @start_ok host.crates w d v hu hs hnew hclear
  have houtcome := @updateUploadingStatus_outcome host.crates w d v .uploading
  generalize hrun : (updateUploadingStatus w.storage.pathPrefix d v .uploading).run
    (SpaServer.meaning host.crates) w = res at hstart houtcome
  obtain ⟨_, w₁⟩ := res
  obtain rfl := hstart
  obtain ⟨hrecorded, hdir, g, hmarker⟩ := started_there hu houtcome rfl
  have hempty := started_new hnew houtcome rfl
  dsimp only at hrecorded hdir hmarker hempty
  -- all uploads succeed, and the marker is still there
  generalize hups : (interleave sched (files.map fun file =>
    retryUpload api dk d (toDecimal v) file 3)).run host.meaning ⟨w₁, []⟩ = ups
  obtain ⟨hall, hdel⟩ := uploads_succeed hrecorded hnodup (fun file hfile => by
    obtain ⟨r, f, hf, he, hkey, htake, hmark⟩ := hfiles file hfile
    exact ⟨r, f, hf, he, hkey, htake, hempty.canSave hdir hf.ne_nil hmark⟩) sched hups
  obtain ⟨hsaved, -⟩ := uploads_run (fun file hfile => by
    obtain ⟨r, f, hf, he, -⟩ := hfiles file hfile
    exact ⟨r, f, hf, he⟩) sched ⟨w₁, []⟩ hups
  obtain ⟨results, w₂, deliveries⟩ := ups
  obtain rfl : deliveries = [] := hdel
  have hunderway : Underway host api d v w₂ :=
    ⟨htakes.1, htakes.2, huri, (congrFun hsaved.uploading d).trans hrecorded⟩
  have hmarker₂ : w₂.disk.node (w₂.markerLoc d v) = some (.file g) := by
    rw [hsaved.places.markerLoc]
    exact hsaved.keeps _ _ hmarker
  obtain ⟨res, hfinish, hcall⟩ := @Underway.status_answered _ _ _ _ _ hunderway .finish w₂
  have hok := finish_outcome hunderway.recorded hmarker₂ hfinish
  rw [sendFiles, run_bind, start_answered hrun, if_pos htakes]
  show ((if parallel = 0 then _ else _ : ClientM _).run host.meaning _).1 = _
  rw [if_neg hthreads, run_bind, hups]
  dsimp only
  rw [if_pos hall, run_bind, hcall, hok]
  rfl

/-- The run of an upload whose version the server chooses, up to the sending of files. -/
theorem uploadFiles_answered {sched : List Nat} {path : PathBuf} {parallel : UInt32}
    (hfind : dk.find path = some .dir) (hpath : dk.locate path = dir.names.map .utf8)
    (hv : (positionOf host.crates w d).version = v) {files : List UploadingFile}
    (hfiles : dir.uploads crates (listingOf host.crates w d v) = files) :
    (uploadFiles crates api dk sched d none path parallel).run host.meaning ⟨w, []⟩ =
      if api.authToken = host.conf.token ∧ uriRegex.isMatch d = true then
        if files = [] then (.error .noFile, ⟨w, []⟩)
        else (sendFiles api dk sched d v parallel files).run host.meaning ⟨w, []⟩
      else (.error .request, ⟨w, []⟩) := by
  have hposition : (getUploadVersion api d none).run host.meaning ⟨w, []⟩ =
      (if api.authToken = host.conf.token ∧ uriRegex.isMatch d = true then some v else none,
        ⟨w, []⟩) := by
    obtain ⟨req, hreq⟩ : ∃ req, api.getUploadPosition d = .ok req := ⟨_, rfl⟩
    rw [getUploadVersion, hreq, run_bind, call_answered, answer_getUploadPosition hreq,
      serve_getUploadPosition, ite_and, ← hv]
    split
    · split <;> rfl
    · rfl
  rw [uploadFiles, hfind]
  dsimp only
  rw [hpath, canonicalText_dir]
  dsimp only
  rw [run_bind, hposition]
  by_cases hok : api.authToken = host.conf.token ∧ uriRegex.isMatch d = true
  · rw [if_pos hok, if_pos hok]
    have hlisting : (call (api.getFileMetadata d v)).run host.meaning ⟨w, []⟩ =
        (some ⟨200, .filesMetadata (listingOf host.crates w d v)⟩, ⟨w, []⟩) := by
      obtain ⟨req, hreq⟩ : ∃ req, api.getFileMetadata d v = .ok req := ⟨_, rfl⟩
      rw [hreq, call_answered, answer_getFileMetadata hreq, if_pos hok.1, serve_getFilesMetadata]
    have hmetadata : metadataResp (some ⟨200, .filesMetadata (listingOf host.crates w d v)⟩) =
        some (listingOf host.crates w d v) := rfl
    dsimp only
    rw [run_bind, hlisting]
    dsimp only
    rw [hmetadata]
    subst hfiles
    dsimp only
    split
    · next hnil => exact (if_pos hnil).symm
    · next hne => exact (if_neg hne).symm
  · rw [if_neg hok, if_neg hok]
    rfl

end Upload

/-! ### The newest version -/

section Newest

variable {w w' : World} {d : Str} {v : UInt32}

theorem parseU32_host (huri : uriRegex.isMatch d = true) : parseU32 d = none := by
  obtain ⟨c, k, e, -, -, -, hinfix⟩ := isMatch_iff_dotted.mp huri
  have hdot : '.' ∈ d := hinfix.subset (by simp)
  have hdigits : '.' ∈ dropPlus d := by
    unfold dropPlus
    split
    · exact (List.mem_cons.mp hdot).resolve_left (by decide)
    · exact hdot
  rw [parseU32, if_neg]
  rintro ⟨-, hall, -⟩
  exact absurd (List.all_eq_true.mp hall _ hdigits) (by decide)

theorem mem_listed_host (hd : Plain d) (huri : uriRegex.isMatch d = true) :
    v ∈ listedVersions w.disk (push w.storage.pathPrefix d) ↔
      ∃ name, VersionEntry w.disk (w.domainLoc d) name v := by
  constructor
  · intro h
    obtain ⟨⟨root, rel, node⟩, he, hv⟩ := mem_listedVersions.mp h
    obtain ⟨rfl, -, hnode, hlen⟩ := Disk.mem_walkDir.mp he
    dsimp only at hnode hlen
    have hlen := hlen 1 rfl
    rcases rel with _ | ⟨c, _ | ⟨c', rel⟩⟩
    · -- the directory itself
      rw [Disk.Entry.fileName] at hv
      dsimp only at hv
      rw [fileName_push hd] at hv
      exact absurd ((parseU32_host huri).symm.trans hv) (by simp)
    · obtain ⟨name, hname, hv⟩ := Option.bind_eq_some_iff.mp hv
      obtain rfl : c = .utf8 name := OsName.toStr_eq_some.mp hname
      exact ⟨name, by rw [World.domainLoc, hnode]; simp, hv⟩
    · simp only [List.length_cons] at hlen
      omega
  · rintro ⟨name, hname, hv⟩
    exact mem_listedVersions_of_entry (w.domainPath_ne_nil d) hname hv

theorem newest_listed (h : w.newest d ≠ 0) :
    w.newest d ∈ listedVersions w.disk (push w.storage.pathPrefix d) := by
  unfold World.newest at h ⊢
  cases hmax : (listedVersions w.disk (push w.storage.pathPrefix d)).max? with
  | none =>
    rw [hmax] at h
    exact absurd rfl h
  | some m => exact List.max?_mem hmax

structure AddsVersion (d : Str) (v : UInt32) (w w' : World) : Prop where
  places : SamePlaces w w'
  keeps : ∀ l, w.disk.node l ≠ none → l ≠ w.markerLoc d v → w'.disk.node l ≠ none
  adds : ∀ l, w'.disk.node l ≠ none →
    w.disk.node l ≠ none ∨ l <+: w.versionLoc d v ∨ w.versionLoc d v <+: l

theorem AddsVersion.listed (h : AddsVersion d v w w') {name : Str} {u : UInt32}
    (hu : VersionEntry w.disk (w.domainLoc d) name u) :
    VersionEntry w'.disk (w'.domainLoc d) name u := by
  refine ⟨?_, hu.2⟩
  rw [h.places.domainLoc]
  refine h.keeps _ hu.1 fun he => ?_
  have hlen := congrArg List.length he
  simp [World.markerLoc, World.versionLoc] at hlen

/-- **A version after the newest one is the newest** when it has been uploaded. -/
theorem max_listed (hd : Plain d) (huri : uriRegex.isMatch d = true) (h : AddsVersion d v w w')
    (hthere : w'.disk.node (w'.versionLoc d v) ≠ none) (hnext : w.newest d < v) :
    (listedVersions w'.disk (push w'.storage.pathPrefix d)).max? = some v := by
  have hmem : v ∈ listedVersions w'.disk (push w'.storage.pathPrefix d) :=
    (mem_listed_host hd huri).mpr ⟨_, hthere, parseU32_toDecimal v⟩
  have hle : ∀ u ∈ listedVersions w'.disk (push w'.storage.pathPrefix d), u ≤ v := by
    intro u hu
    obtain ⟨name, hname, hparse⟩ := (mem_listed_host hd huri).mp hu
    rw [h.places.domainLoc] at hname
    rcases h.adds _ hname with hold | hnew
    · exact UInt32.le_of_lt (UInt32.lt_of_le_of_lt (le_newest ⟨hold, hparse⟩) hnext)
    · -- only the version itself is new in the directory of the domain
      have hsame : w.domainLoc d ++ [.utf8 name] = w.versionLoc d v := by
        rcases hnew with hpre | hpre
        · exact hpre.eq_of_length (by simp [World.versionLoc])
        · exact (hpre.eq_of_length (by simp [World.versionLoc])).symm
      rw [World.versionLoc, List.append_cancel_left_eq] at hsame
      obtain rfl : name = toDecimal v := by simpa using hsame
      rw [Option.some.inj (hparse.symm.trans (parseU32_toDecimal v))]
      exact UInt32.le_refl v
  cases hmax : (listedVersions w'.disk (push w'.storage.pathPrefix d)).max? with
  | none =>
    rw [List.max?_eq_none_iff.mp hmax] at hmem
    exact absurd hmem List.not_mem_nil
  | some m =>
    have hvm := (List.max?_le_iff hmax).mp (UInt32.le_refl m) v hmem
    rw [UInt32.le_antisymm (hle m (List.max?_mem hmax)) hvm]

/-- What the requests of an upload that is finished do to the disk. -/
theorem addsVersion_of_finished {dk : Disk} {dir : LocalDir dk} {who : List Str → Prop} {w₁ w₂ : World}
    (hstart : StatusOutcome w d v .uploading (.ok (), w₁)) (hsaved : Saved dir d v who w₁ w₂)
    (hfinish : StatusOutcome w₂ d v .finish (.ok (), w')) : AddsVersion d v w w' := by
  obtain ⟨hplaces₁, hkeeps, hadds⟩ : SamePlaces w w₁ ∧
      (∀ l, w.disk.node l ≠ none → w₁.disk.node l ≠ none) ∧
      ∀ l, w₁.disk.node l ≠ none → w.disk.node l ≠ none ∨ l <+: w.markerLoc d v := by
    cases hstart with
    | again => exact ⟨⟨rfl, rfl⟩, fun _ h => h, fun _ h => Or.inl h⟩
    | @started dk' _ _ hd _ hm =>
      refine ⟨⟨rfl, hd.1⟩, fun l hl => ?_, fun l hl => ?_⟩
      · show (dk'.set _ _ hm).node l ≠ none
        by_cases he : l = w.markerLoc d v
        · rw [he, dk'.set_node_self hm]
          simp
        · rw [dk'.set_node_of_ne hm he]
          intro hnone
          exact hl (hd.addsAlong.none_of_none hnone)
      · by_cases he : l = w.markerLoc d v
        · exact Or.inr (he ▸ List.prefix_refl _)
        · change (dk'.set _ _ hm).node l ≠ none at hl
          rw [dk'.set_node_of_ne hm he] at hl
          rcases hd.addsAlong l with hsame | ⟨-, hpre⟩
          · exact Or.inl (hsame ▸ hl)
          · exact Or.inr (hpre.trans (List.prefix_append _ _))
  obtain ⟨hplaces, -, hfinal⟩ := hsaved.finished hfinish rfl
  dsimp only at hplaces hfinal
  have hbelow : ∀ {l t}, l <+: w.versionLoc d v ++ t →
      l <+: w.versionLoc d v ∨ w.versionLoc d v <+: l := fun h =>
    List.prefix_or_prefix_of_prefix h (List.prefix_append _ _)
  refine ⟨⟨hplaces.pathPrefix.trans hplaces₁.pathPrefix, hplaces.cwd.trans hplaces₁.cwd⟩,
    fun l hl hne => ?_, fun l hl => ?_⟩
  · rw [hfinal, if_neg]
    · obtain ⟨n, hn⟩ := Option.ne_none_iff_exists'.mp (hkeeps l hl)
      rw [hsaved.keeps l n hn]
      simp
    · rw [hplaces₁.fileLoc]
      exact hne
  · rw [hfinal] at hl
    split at hl
    · exact absurd rfl hl
    obtain ⟨n, hn⟩ := Option.ne_none_iff_exists'.mp hl
    rcases hsaved.adds l n hn with hold | ⟨r, f, names, -, -, -, hnew⟩
    · rcases hadds l (by rw [hold]; simp) with h | h
      · exact Or.inl h
      · exact Or.inr (hbelow h)
    · refine Or.inr (hbelow (t := names.map .utf8) ?_)
      rw [hplaces₁.fileLoc] at hnew
      rcases hnew with ⟨rfl, -⟩ | ⟨-, hpre⟩
      · exact List.prefix_refl _
      · exact hpre.trans (List.dropLast_prefix _)

theorem next_absent (hnext : w.newest d ≠ 4294967295) :
    w.disk.node (w.versionLoc d (w.newest d + 1)) = none := by
  by_contra hn
  have hle := UInt32.le_iff_toNat_le.mp (le_newest ⟨hn, parseU32_toDecimal _⟩)
  have hsucc := toNat_succ_iff.mpr hnext
  omega

/-- In a store that publishes what its versions hold, it is not served either. -/
theorem next_unserved {s : Deployed} (h : Serves crates w s) (hd : Plain d)
    (hnext : w.newest d ≠ 4294967295) : w.serving d ≠ some (w.newest d + 1) := by
  intro hserving
  cases hpub : s.published ⟨d, hd⟩ with
  | none =>
    have hnone := (h.represents.unpublished _ hpub).1
    exact absurd (hserving.symm.trans hnone) (by simp)
  | some vc =>
    obtain ⟨u, c⟩ := vc
    obtain rfl := Option.some.inj
      ((h.represents.published _ u c hpub).serving.symm.trans hserving)
    have hcontent := (h.represents.content _ _).symm.trans (h.current _ _ c hpub)
    have hdir := (content_eq_some.mp hcontent).1
    exact absurd ((next_absent hnext).symm.trans hdir) (by simp)

end Newest

/-! ### Releasing -/

section Release

variable {w : World} {d : Str} {v : UInt32}

theorem serve_release_newest
    (hmax : (listedVersions w.disk (push w.storage.pathPrefix d)).max? = some v) :
    w.serve crates (.updateDomainVersion ⟨d, none⟩) =
      w.serve crates (.updateDomainVersion ⟨d, some v⟩) := by
  have hrun : (uploadDomainWithVersion w.storage.pathPrefix d none).run (SpaServer.meaning crates) w =
      (uploadDomainWithVersion w.storage.pathPrefix d (some v)).run (SpaServer.meaning crates) w := by
    simp only [uploadDomainWithVersion, run_bind, getDomainInfoByDomain_run]
    cases hl : listedVersions w.disk (push w.storage.pathPrefix d) with
    | nil =>
      rw [hl] at hmax
      exact absurd hmax (by simp)
    | cons u us =>
      rw [hl] at hmax
      dsimp only [Option.map_some, Option.getD_some]
      rw [hmax]
  simp only [World.serve, handle, Service.updateDomainVersion, run_bind, hrun]

theorem serve_release_ok (hu : w.storage.uploadingStatus d ≠ some v)
    (hdir : w.disk.node (w.versionLoc d v) = some .dir) :
    w.serve crates (.updateDomainVersion ⟨d, some v⟩) =
      (releaseResponse d (.ok v), w.release crates d v) := by
  have hisDir : w.disk.isDir (getVersionPath w.storage.pathPrefix d v) = true := by
    rw [Disk.isDir, w.find_versionPath, hdir]
    rfl
  have hrun : (releaseVersion w.storage.pathPrefix d v).run (SpaServer.meaning crates) w =
      (.ok v, w.release crates d v) := by
    rw [releaseVersion]
    simp only [perform_bind, run_call]
    split
    · next huploading => exact absurd huploading hu
    · simp only [run_call, SpaServer.meaning, hisDir]
      rfl
  simp only [World.serve, handle, Service.updateDomainVersion, uploadDomainWithVersion, run_bind,
    hrun]
  rfl

end Release

/-! ### The two commands -/

/-- `spa-client upload PATH DOMAIN`, and then `spa-client release DOMAIN` if that has succeeded. -/
def uploadAndRelease (crates : Crates) (machine : Machine) (sched : List Nat)
    (configDir : Option PathBuf) (path : PathBuf) (d : Str) (parallel : Option UInt32) :
    ClientM (Except CliError Printed) := do
  match ← runWithCommands crates machine sched ⟨.upload ⟨path, d, none, parallel⟩, configDir⟩ with
  | .error e => return .error e
  | .ok _ => runWithCommands crates machine sched ⟨.release d none, configDir⟩

section Commands

variable {host : Host} {machine : Machine} {conf : CliConfig} {api : API}
  {configDir : Option PathBuf} {sched : List Nat} {path : PathBuf} {d : Str}
  {parallel : Option UInt32} {w w' : World} {v : UInt32}

theorem runWithCommands_eq (hload : CliConfig.load machine configDir = .ok conf)
    (hapi : API.new conf = .ok api) (commands : Commands) :
    runWithCommands crates machine sched ⟨commands, configDir⟩ =
      runCommand crates api conf machine.disk sched commands := by
  rw [runWithCommands, hload]
  dsimp only
  rw [hapi]

theorem uploadAndRelease_ok (hload : CliConfig.load machine configDir = .ok conf)
    (hapi : API.new conf = .ok api) {n n' : Net} {printed : Printed} :
    (uploadAndRelease crates machine sched configDir path d parallel).run host.meaning n =
        (.ok printed, n') ↔
      ∃ n₁, (uploadFiles crates api machine.disk sched d none path
            (parallel.getD conf.upload.parallel)).run host.meaning n = (.ok (), n₁) ∧
        (runCommand crates api conf machine.disk sched (.release d none)).run host.meaning n₁ =
          (.ok printed, n') := by
  rw [uploadAndRelease, runWithCommands_eq hload hapi, runWithCommands_eq hload hapi, run_bind,
    runCommand, run_bind]
  dsimp only
  generalize (uploadFiles crates api machine.disk sched d none path
    (parallel.getD conf.upload.parallel)).run host.meaning n = res
  obtain ⟨e | _, n₁⟩ := res
  · constructor
    · intro h
      exact absurd (Prod.mk.inj h).1 (by simp)
    · rintro ⟨_, h, -⟩
      exact absurd (Prod.mk.inj h).1 (by simp)
  · constructor
    · intro h
      exact ⟨n₁, rfl, h⟩
    · rintro ⟨_, h, hrelease⟩
      obtain rfl := (Prod.mk.inj h).2
      exact hrelease

theorem release_fits (h : TakesStatus host api d v) :
    jsonLength (DomainWithOptVersionOption.mk d none).toJson ≤ 1024 * 16 := by
  -- both texts begin with the domain and the name of the version
  obtain ⟨front, hrelease, hstatus⟩ : ∃ front : Str,
      jsonText (DomainWithOptVersionOption.mk d none).toJson = front ++ "null\x7d".toList ∧
      jsonText (UpdateUploadingStatusOption.mk d v .uploading).toJson =
        front ++ (JsonValue.num v.toNat).text ++ ",\"status\":0\x7d".toList := by
    refine ⟨'\x7b' :: jsonString "domain".toList ++ ':' :: jsonString d ++ ',' ::
      jsonString "version".toList ++ [':'], ?_, ?_⟩
    · simp [jsonText, DomainWithOptVersionOption.toJson, JsonValue.text]
    · simp [jsonText, UpdateUploadingStatusOption.toJson, JsonValue.text, jsonString, jsonEscape,
        UploadingStatus.repr]
  have hlen := h.2
  have hnull : (encodeUtf8 "null\x7d".toList).length = 5 := by decide
  have hend : (encodeUtf8 ",\"status\":0\x7d".toList).length = 12 := by decide
  rw [jsonLength, hstatus, encodeUtf8_append, encodeUtf8_append, List.length_append,
    List.length_append, hend] at hlen
  rw [jsonLength, hrelease, encodeUtf8_append, List.length_append, hnull]
  omega

theorem release_answered (hfits : jsonLength (DomainWithOptVersionOption.mk d none).toJson ≤ 1024 * 16)
    (htoken : api.authToken = host.conf.token) :
    (runCommand crates api conf machine.disk sched (.release d none)).run host.meaning ⟨w, []⟩ =
      (printBody (some (w.serve host.crates (.updateDomainVersion ⟨d, none⟩)).1),
        ⟨(w.serve host.crates (.updateDomainVersion ⟨d, none⟩)).2, []⟩) := by
  obtain ⟨req, hreq⟩ : ∃ req, api.releaseDomainVersion d none = .ok req := ⟨_, rfl⟩
  have hanswer : host.answer w req = w.serve host.crates (.updateDomainVersion ⟨d, none⟩) := by
    rw [Host.answer, routes_releaseDomainVersion hreq, if_pos ⟨htoken, hfits⟩]
  rw [runCommand, hreq, run_bind, call_answered, hanswer]
  rfl

end Commands

/-! ### When they publish the directory -/

/-- What it takes to publish the directory: the server knows the client, the domain has a next
version with a clear way to it, and there are files, each of which the server takes and none of which
is below the marker. -/
structure Publishable {dk : Disk} (host : Host) (api : API) (dir : LocalDir dk) (d : Str)
    (parallel : UInt32) (w : World) : Prop where
  uri : uriRegex.isMatch d = true
  takes : TakesStatus host api d (w.newest d + 1)
  next : w.newest d ≠ 4294967295
  clear : ClearWay w d (w.newest d + 1)
  threads : parallel ≠ 0
  pending : ∃ r f, dir.File r f
  files : ∀ r f, dir.File r f →
    host.TakesFile api dir d (w.newest d + 1) r f ∧ ¬ [uploadingFileName] <+: r

/-- The commands have succeeded and the version is served. -/
structure Published (d : Str) (v : UInt32) (res : Except CliError Printed × Net) : Prop where
  ok : ∃ printed, res.1 = .ok printed
  serving : res.2.world.serving d = some v

section Published

variable {host : Host} {machine : Machine} {conf : CliConfig} {api : API}
  {configDir : Option PathBuf} {sched : List Nat} {path : PathBuf} {d : Str}
  {parallel : UInt32} {parallel? : Option UInt32} {w : World} {s : Deployed}
  {dir : LocalDir machine.disk}

theorem position_next (hfree : w.storage.uploadingStatus d = none) :
    (positionOf host.crates w d).version = w.newest d + 1 := (position_eq hfree).1

theorem Publishable.uploads (h : Publishable host api dir d parallel w)
    (hserves : Serves host.crates w s) (hd : Plain d)
    (hfree : w.storage.uploadingStatus d = none) (hfind : machine.disk.find path = some .dir)
    (hpath : machine.disk.locate path = dir.names.map .utf8) (hfaith : dir.Faithful) :
    ∃ w₁, (uploadFiles crates api machine.disk sched d none path parallel).run host.meaning
      ⟨w, []⟩ = (.ok (), ⟨w₁, []⟩) := by
  have habsent := next_absent h.next
  have hnot : ∀ r f, ¬ dir.Skipped crates [] r f := by
    rintro r f ⟨x, hx, -⟩
    exact absurd hx (by simp [DashMap.collect])
  have hne : dir.uploads crates [] ≠ [] := by
    obtain ⟨r, f, hf⟩ := h.pending
    exact List.ne_nil_of_mem (mem_uploads.mpr ⟨r, f, hf, hnot r f, rfl⟩)
  have hrun := @uploadFiles_answered crates host api _ dir d _ w sched path parallel hfind hpath
    (position_next hfree) _ rfl
  rw [listingOf_absent habsent, if_pos ⟨h.takes.1, h.uri⟩, if_neg hne] at hrun
  have hsent := @sendFiles_succeeds host api _ dir d _ w sched parallel _ h.takes h.uri h.threads hfree
    (next_unserved hserves hd h.next) habsent h.clear (uploads_nodup dir crates [])
    (fun file hfile => by
      obtain ⟨r, f, hf, -, he⟩ := mem_uploads.mp hfile
      exact ⟨r, f, hf, he, (hfaith r f hf).1, h.files r f hf⟩)
  rw [← hrun] at hsent
  have hanswered := @answered_run host _
    (uploadFiles crates api machine.disk sched d none path parallel) w
  generalize (uploadFiles crates api machine.disk sched d none path parallel).run host.meaning
    ⟨w, []⟩ = res at hsent hanswered
  obtain ⟨_, w₁, deliveries⟩ := res
  obtain rfl : deliveries = [] := hanswered
  exact ⟨w₁, by rw [← hsent]⟩

/-- What an upload that has succeeded has done to the disk. -/
theorem addsVersion_of_ok (hfree : w.storage.uploadingStatus d = none)
    (hpath : machine.disk.locate path = dir.names.map .utf8) {n' : Net}
    (hupload : (uploadFiles crates api machine.disk sched d none path parallel).run host.meaning
      ⟨w, []⟩ = (.ok (), n')) : AddsVersion d (w.newest d + 1) w n'.world := by
  obtain ⟨v, hwhich, -, -, n₁, results, n₂, hstart, hups, -, hfinish⟩ := uploadFiles_ok hpath hupload
  obtain rfl : w.newest d + 1 = v := by
    rcases hwhich with hv | ⟨-, hv⟩
    · exact absurd hv (by simp)
    · exact (position_next hfree).symm.trans hv
  obtain ⟨hsaved, -⟩ := uploads_dir hups
  exact addsVersion_of_finished hstart hsaved hfinish

theorem serve_release_uploaded (hd : Plain d) (huri : uriRegex.isMatch d = true)
    (hnext : w.newest d ≠ 4294967295) {w₁ : World} (hadds : AddsVersion d (w.newest d + 1) w w₁)
    (hmirrors : Mirrors dir d (w.newest d + 1) w₁) (hpending : ∃ r f, dir.File r f) :
    w₁.serve host.crates (.updateDomainVersion ⟨d, none⟩) =
        w₁.serve host.crates (.updateDomainVersion ⟨d, some (w.newest d + 1)⟩) ∧
      w₁.serve host.crates (.updateDomainVersion ⟨d, some (w.newest d + 1)⟩) =
        (releaseResponse d (.ok (w.newest d + 1)), w₁.release host.crates d (w.newest d + 1)) := by
  have hdir : w₁.disk.node (w₁.versionLoc d (w.newest d + 1)) = some .dir := by
    obtain ⟨r, f, hf⟩ := hpending
    obtain ⟨t, ht⟩ := hmirrors.files r f hf
    have hbelow : w₁.versionLoc d (w.newest d + 1) <+: w₁.fileLoc d (w.newest d + 1) r :=
      List.prefix_append _ _
    refine w₁.disk.node_prefix hbelow ?_ (by rw [ht]; simp)
    intro he
    have hlen := congrArg List.length he
    rw [World.fileLoc, List.length_append, List.length_map] at hlen
    exact hf.ne_nil (List.length_eq_zero_iff.mp (by omega))
  have hlt : w.newest d < w.newest d + 1 := by
    have hsucc := toNat_succ_iff.mpr hnext
    rw [UInt32.lt_iff_toNat_lt]
    omega
  have hmax := max_listed hd huri hadds (by rw [hdir]; simp) hlt
  exact ⟨serve_release_newest hmax, serve_release_ok (by rw [hmirrors.free]; simp) hdir⟩

/-- A directory that is publishable is published. -/
theorem Publishable.published (h : Publishable host api dir d (parallel?.getD conf.upload.parallel) w)
    (hserves : Serves host.crates w s) (hd : Plain d) (hfree : w.storage.uploadingStatus d = none)
    (hload : CliConfig.load machine configDir = .ok conf) (hapi : API.new conf = .ok api)
    (hfind : machine.disk.find path = some .dir)
    (hpath : machine.disk.locate path = dir.names.map .utf8) (hfaith : dir.Faithful) :
    ∃ w₁ printed, (uploadFiles crates api machine.disk sched d none path
        (parallel?.getD conf.upload.parallel)).run host.meaning ⟨w, []⟩ = (.ok (), ⟨w₁, []⟩) ∧
      Mirrors dir d (w.newest d + 1) w₁ ∧
      w₁.serve host.crates (.updateDomainVersion ⟨d, some (w.newest d + 1)⟩) =
        (releaseResponse d (.ok (w.newest d + 1)), w₁.release host.crates d (w.newest d + 1)) ∧
      (uploadAndRelease crates machine sched configDir path d parallel?).run host.meaning ⟨w, []⟩ =
        (.ok printed, ⟨w₁.release host.crates d (w.newest d + 1), []⟩) := by
  obtain ⟨w₁, hupload⟩ := @Publishable.uploads crates host machine api sched path d _ w s dir h
    hserves hd hfree hfind hpath hfaith
  have hmirrors := (mirrors_iff hpath (Or.inr ⟨rfl, position_next hfree⟩) (next_absent h.next)
    hupload).mpr hfaith
  obtain ⟨hnewest, hrelease⟩ := @serve_release_uploaded host machine d w dir hd h.uri h.next w₁
    (addsVersion_of_ok hfree hpath hupload) hmirrors h.pending
  refine ⟨w₁, .body (releaseResponse d (.ok (w.newest d + 1))).body, hupload, hmirrors, hrelease, ?_⟩
  refine (uploadAndRelease_ok hload hapi).mpr ⟨_, hupload, ?_⟩
  rw [release_answered (release_fits h.takes) h.takes.1, hnewest, hrelease]
  rfl

theorem newest_of_released {w₁ : World} {v : UInt32} {printed : Printed}
    (hok : printBody (some (w₁.serve host.crates (.updateDomainVersion ⟨d, none⟩)).1) = .ok printed)
    (hserving : (w₁.serve host.crates (.updateDomainVersion ⟨d, none⟩)).2.serving d = some v) :
    (listedVersions w₁.disk (push w₁.storage.pathPrefix d)).max? = some v := by
  have h := @serve_outcome host.crates w₁ (.updateDomainVersion ⟨d, none⟩)
  generalize w₁.serve host.crates (.updateDomainVersion ⟨d, none⟩) = res at h hok hserving
  cases h with
  | looks hlook => exact absurd hlook (by simp [AdminRequest.isLookup])
  | release h =>
    cases h with
    | refused =>
      exact absurd hok (by simp [printBody, bodyResp, releaseResponse, SpaServer.Response.notFound])
    | @released u _ _ hversion =>
      dsimp only at hserving
      rw [serving_release, if_pos rfl] at hserving
      rcases hversion with hversion | ⟨-, hversion⟩
      · exact absurd hversion (by simp)
      · exact hversion.trans hserving

theorem publishable_of_published {res : Except CliError Printed × Net}
    (hd : Plain d) (hfree : w.storage.uploadingStatus d = none)
    (hload : CliConfig.load machine configDir = .ok conf) (hapi : API.new conf = .ok api)
    (hfind : machine.disk.find path = some .dir)
    (hpath : machine.disk.locate path = dir.names.map .utf8) (hfaith : dir.Faithful)
    (hres : (uploadAndRelease crates machine sched configDir path d parallel?).run host.meaning
      ⟨w, []⟩ = res) (h : Published d (w.newest d + 1) res) :
    Publishable host api dir d (parallel?.getD conf.upload.parallel) w := by
  obtain ⟨⟨printed, hok⟩, hserving⟩ := h
  obtain ⟨_, n'⟩ := res
  obtain rfl := hok
  obtain ⟨n₁, hupload, hrelease⟩ := (uploadAndRelease_ok hload hapi).mp hres
  have hadds := addsVersion_of_ok hfree hpath hupload
  have hanswered := @answered_run host _ (uploadFiles crates api machine.disk sched d none path
    (parallel?.getD conf.upload.parallel)) w
  rw [hupload] at hanswered
  obtain ⟨w₁, deliveries⟩ := n₁
  obtain rfl : deliveries = [] := hanswered
  -- what the upload asks for
  have hrun := @uploadFiles_answered crates host api _ dir d _ w sched path
    (parallel?.getD conf.upload.parallel) hfind hpath (position_next hfree) _ rfl
  rw [hupload] at hrun
  split at hrun
  case isFalse => exact absurd (Prod.mk.inj hrun).1 (by simp)
  next hknown =>
  split at hrun
  · exact absurd (Prod.mk.inj hrun).1 (by simp)
  next hne =>
  have htakes : TakesStatus host api d (w.newest d + 1) := by
    by_contra hnot
    rw [sendFiles, run_bind, start_answered rfl, if_neg hnot] at hrun
    exact absurd (Prod.mk.inj hrun).1 (by simp)
  obtain ⟨hthreads, n₁, results, n₂, hstart, hups, hall, hfinish⟩ := sendFiles_ok hrun.symm
  -- the release has found the version among the listed ones
  rw [release_answered (release_fits htakes) htakes.1] at hrelease
  obtain ⟨hprinted, rfl⟩ := Prod.mk.inj hrelease
  have hmax := newest_of_released hprinted hserving
  have hnext : w.newest d ≠ 4294967295 := by
    intro hlast
    obtain ⟨name, hname⟩ := (mem_listed_host hd hknown.2).mp
      (newest_listed (w := w) (d := d) (by rw [hlast]; decide))
    have hle := (List.max?_le_iff hmax).mp (UInt32.le_refl _) _
      ((mem_listed_host hd hknown.2).mpr ⟨name, hadds.listed hname⟩)
    rw [hlast] at hle
    exact absurd hle (by decide)
  rw [listingOf_absent (next_absent hnext)] at hups hne
  have hnot : ∀ r f, ¬ dir.Skipped crates [] r f := by
    rintro r f ⟨x, hx, -⟩
    exact absurd hx (by simp [DashMap.collect])
  obtain ⟨hsaved, hdone⟩ := uploads_dir hups
  obtain ⟨-, -, g, hmarker⟩ := started_there hfree hstart rfl
  refine ⟨hknown.2, htakes, hnext, clearWay_of_started hfree hstart rfl, hthreads, ?_, ?_⟩
  · obtain ⟨file, hfile⟩ := List.exists_mem_of_ne_nil _ hne
    obtain ⟨r, f, hf, -⟩ := mem_uploads.mp hfile
    exact ⟨r, f, hf⟩
  · intro r f hf
    obtain ⟨⟨names, hnames, hthere⟩, htake⟩ := hdone hall r f hf (hnot r f)
    obtain ⟨hkey, hmark⟩ := hfaith r f hf
    obtain rfl := Option.some.inj (hkey.symm.trans hnames)
    refine ⟨htake, fun hbelow => ?_⟩
    -- the marker is a file, and cannot be on the way to another
    have hsome : n₂.world.disk.node (n₁.world.fileLoc d (w.newest d + 1) r) ≠ none := by
      rcases hthere with ⟨⟨t, ht⟩, -⟩ | ⟨-, ht⟩
      · rw [ht]
        simp
      · exact ht
    have hpre : n₁.world.markerLoc d (w.newest d + 1) <+:
        n₁.world.fileLoc d (w.newest d + 1) r := by
      rw [World.markerLoc, World.fileLoc, List.prefix_append_right_inj]
      exact hbelow.map OsName.utf8
    have hdir := n₂.world.disk.node_prefix hpre
      (fun he => hmark (@World.fileLoc_injective _ _ _ [uploadingFileName] _ he).symm) hsome
    rw [hsaved.keeps _ _ hmarker] at hdir
    exact absurd hdir (by simp)

section Site

variable {http : Http} {service : ServiceConfig} {dk₀ : Disk} {fileDir : PathBuf}
  {settings : CacheSettings} {st : DomainStorage}

/-- **Two commands publish a directory exactly when it can be published.**  In any state that the
server reaches, with no upload of the domain under way and every request answered, a client uploads a
directory with faithful keys and releases the domain, naming no version.  The commands succeed and the
version after the newest is served just when the directory is publishable; and then, until another
version of the domain is released, every path to a file of the directory is answered with the bytes of
that file, and a path to none with 404. -/
theorem published_iff (hwarp : http.toWarp.Documented)
    {gunzip : List UInt8 → List UInt8} (hgunzip : ∀ bytes, gunzip (host.crates.gzip bytes) = bytes)
    (hinit : DomainStorage.init host.crates dk₀ fileDir ⟨settings, .empty⟩ = .ok st)
    (htree : WellFormedTree dk₀ fileDir)
    (hbefore : World.Run host.crates SparesLive ⟨st, dk₀⟩ w) (hd : Plain d)
    (hfree : w.storage.uploadingStatus d = none)
    (hload : CliConfig.load machine configDir = .ok conf) (hapi : API.new conf = .ok api)
    (hfind : machine.disk.find path = some .dir)
    (hpath : machine.disk.locate path = dir.names.map .utf8) (hfaith : dir.Faithful)
    {res : Except CliError Printed × Net}
    (hres : (uploadAndRelease crates machine sched configDir path d parallel?).run host.meaning
      ⟨w, []⟩ = res) :
    (Published d (w.newest d + 1) res ↔
      Publishable host api dir d (parallel?.getD conf.upload.parallel) w) ∧
    (Published d (w.newest d + 1) res → CleanDir dir (getVersionPath fileDir d (w.newest d + 1)) →
      ∀ w', World.Run host.crates
          (fun w r => SparesLive w r ∧ ∀ version, r ≠ .updateDomainVersion ⟨d, version⟩)
          res.2.world w' →
        ∀ req, PlainRequest http service d req →
          (∀ r f p, dir.File r f → percentDecode req.path = some p → LeadsTo p r →
            (createService http service w' req).status = 200 ∧
              decoded gunzip (createService http service w' req) = f.bytes) ∧
          ((∀ p, percentDecode req.path = some p → keyOf p ≠ uploadingFileName ∧
              ∀ r f, dir.File r f → keyOf p ≠ relativePath r) →
            createService http service w' req = Site.notFound)) := by
  have hpublishable : Published d (w.newest d + 1) res →
      Publishable host api dir d (parallel?.getD conf.upload.parallel) w :=
    publishable_of_published hd hfree hload hapi hfind hpath hfaith hres
  obtain ⟨s, hs, -⟩ := (serves_init hinit htree).run (fun _ _ h => h) hbefore
  have hpublished := fun h => @Publishable.published crates host machine conf api configDir sched path
    d parallel? w s dir h hs hd hfree hload hapi hfind hpath hfaith
  refine ⟨⟨hpublishable, fun h => ?_⟩, fun h hclean w' hafter req hreq => ?_⟩
  · obtain ⟨w₁, printed, -, -, -, hrun⟩ := hpublished h
    obtain rfl := hres.symm.trans hrun
    refine ⟨⟨printed, rfl⟩, ?_⟩
    show (w₁.release host.crates d (w.newest d + 1)).serving d = _
    rw [serving_release, if_pos rfl]
  · obtain ⟨w₁, printed, hupload, hmirrors, hrelease, hrun⟩ := hpublished (hpublishable h)
    obtain rfl := hres.symm.trans hrun
    refine released_answers hwarp hgunzip hinit htree (hbefore.trans (uploadFiles_run hd hupload)) hd
      hmirrors hfaith (by rw [hrelease]; rfl) ?_ hclean hreq
    rw [hrelease]
    exact hafter

end Site

end Published

def devPublish (sched : List Nat) : Except CliError Printed × Net :=
  (uploadAndRelease Crates.simple devMachine sched none "/site".toList "www.a.com".toList none).run
    bareHost.meaning bareNet

theorem publishable_devMachine : Publishable bareHost bareApi (siteDir _ site_dir)
    "www.a.com".toList 3 bareNet.world where
  uri := by decide +kernel
  takes := by decide +kernel
  next := by decide +kernel
  clear := by
    have hdirs : ∀ l ∈ bareDisk.dom, (bareDisk.node l).any Node.isFile = false := by decide +kernel
    intro l f hl hf
    have hdir := hdirs l ((bareDisk.mem_dom l).mpr (by rw [show bareDisk.node l = _ from hf]; simp))
    rw [show bareDisk.node l = _ from hf] at hdir
    exact absurd hdir (by simp)
  threads := by decide
  pending := ⟨["a.html".toList], ⟨[1], 0⟩,
    show (siteWith "a.html".toList).node _ = _ by decide +kernel⟩
  files r f hf := by
    rw [site_file hf]
    exact ⟨⟨rfl, fun _ _ => Nat.zero_le _⟩, by decide⟩

theorem published_iff_devMachine :
    Published "www.a.com".toList (bareNet.world.newest "www.a.com".toList + 1) (devPublish []) ∧
    (createService .simple plainService (devPublish []).2.world
      (get "www.a.com".toList "/a.html".toList)).status = 200 ∧
    decoded id (createService .simple plainService (devPublish []).2.world
      (get "www.a.com".toList "/a.html".toList)) = [1] := by
  have hinit : DomainStorage.init bareHost.crates bareDisk "/srv".toList
    ⟨bareStorage.cache.conf, .empty⟩ = .ok bareStorage := rfl
  have htree : WellFormedTree bareDisk "/srv".toList :=
    ⟨fun _ _ _ h => absurd h bareDisk_noVersion, fun _ _ _ _ _ h => absurd h bareDisk_noVersion⟩
  have hload : CliConfig.load devMachine none =
    .ok ⟨⟨"http://127.0.0.1:9000".toList, "token".toList⟩, ⟨3⟩⟩ := rfl
  have hapi : API.new ⟨⟨"http://127.0.0.1:9000".toList, "token".toList⟩, ⟨3⟩⟩ = .ok bareApi := rfl
  have hbefore : World.Run bareHost.crates SparesLive ⟨bareStorage, bareDisk⟩ bareNet.world := .refl
  have hpath : devMachine.disk.locate "/site".toList = (siteDir _ site_dir).names.map .utf8 := by
    decide +kernel
  have hclean : CleanDir (siteDir _ site_dir) (getVersionPath "/srv".toList "www.a.com".toList
      (bareNet.world.newest "www.a.com".toList + 1)) := by
    intro r f hf
    rw [site_file hf, show bareNet.world.newest "www.a.com".toList = 0 by decide +kernel]
    decide
  have hreq : PlainRequest .simple plainService "www.a.com".toList
    (get "www.a.com".toList "/a.html".toList) :=
    ⟨rfl, rfl, fun h => absurd h.1 (by decide), fun _ => rfl⟩
  have hfile : (siteDir _ site_dir).File ["a.html".toList] ⟨[1], 0⟩ :=
    show (siteWith "a.html".toList).node _ = _ by decide +kernel
  obtain ⟨hiff, hsite⟩ := @published_iff Crates.simple bareHost devMachine _ bareApi none []
    "/site".toList "www.a.com".toList none bareNet.world (siteDir _ site_dir) .simple plainService
    bareDisk "/srv".toList _ bareStorage Warp.simple_documented id (fun _ => rfl) hinit htree hbefore
    (by decide) rfl hload hapi (by decide +kernel) hpath site_faithful (devPublish []) rfl
  have hpublished := hiff.mpr publishable_devMachine
  exact ⟨hpublished, (hsite hpublished hclean _ .refl _ hreq).1 _ _ "/a.html".toList hfile
    (by decide +kernel) (Or.inl rfl)⟩

end Client
end SpaServer
