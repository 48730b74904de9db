import SpaServer.Client.Traffic
import SpaServer.Client.Uploads

/-!
# Taking up an interrupted upload

A run of `upload_files` without a version is interrupted after its upload was started
and before it is finished; then the same client runs it again.  `Resumed` says that the
second run goes through: it selects the same version, returns `Ok` and leaves it
finished, with every file's bytes.

`resumed_iff` says when it does.  The server opens a file that is there for reading
only, so a second upload can save just what is not there, or empty (`CanSave`); and
the client finds nothing it could skip in the server's listing, whose paths have no
separator in front (`not_skipped`).  So the run goes through just when nothing but
empty files has been saved so far.
-/

namespace SpaServer

open Base Program

namespace Client

variable {host : Host} {api : API} {dk : Disk} {dir : LocalDir dk} {d : Str} {v : UInt32}

/-! ### What can be saved -/

/-- There is nothing at the file's place and no file on the way to it, or it is empty and
so is the file there. -/
def CanSave (w : World) (d : Str) (v : UInt32) (r : List Str) (f : FileData) : Prop :=
  w.disk.node (w.fileLoc d v r) = none ∧
      (∀ l g, l <+: (w.fileLoc d v r).dropLast → w.disk.node l ≠ some (.file g)) ∨
    f.bytes = [] ∧ ∃ t, w.disk.node (w.fileLoc d v r) = some (.file ⟨[], t⟩)

theorem CanSave.ok {w : World} {r : List Str} {f : FileData} (h : CanSave w d v r f)
    (hf : dir.File r f) (hkey : sanitizedNames (dir.key r) = some r)
    (hu : w.storage.uploadingStatus d = some v) {res : Except StorageError Unit × World}
    (ho : SaveOutcome w d v (dir.key r) f.bytes res) : res.1 = .ok () := by
  cases ho with
  | notUploading hne => exact absurd hu hne
  | badPath _ hn => exact absurd (hkey.symm.trans hn) (by simp)
  | blocked _ hn _ hb =>
    obtain rfl := Option.some.inj (hkey.symm.trans hn)
    rcases hb with ⟨l, g, hl, hg⟩ | ⟨p, hp, hm⟩
    · rcases h with ⟨-, hway⟩ | ⟨-, t, ht⟩
      · exact absurd hg (hway l g hl)
      · -- what leads to a file is no file
        have hdir := w.disk.node_onWay hl (w.fileLoc_ne_nil d v r) (by rw [ht]; simp)
        rw [hg] at hdir
        exact absurd hdir (by simp)
    · obtain ⟨hd, hslash⟩ := hf.key_eq hkey
      rw [mustBeDir_sanitizePath hd (hslash.imp_left And.right) hf.plain_rel hf.ne_nil hp] at hm
      exact absurd hm (by simp)
  | present _ hn hnode =>
    obtain rfl := Option.some.inj (hkey.symm.trans hn)
    rcases h with ⟨hnone, -⟩ | ⟨hempty, -⟩
    · rw [hnode] at hnone
      exact absurd hnone (by simp)
    · simp [hempty]
  | saved => rfl

theorem CanSave.keep {w w' : World} {r : List Str} {f : FileData} {who : List Str → Prop}
    (h : CanSave w d v r f) (hf : dir.File r f) (hsaved : Saved dir d v who w w')
    (hwho : ∀ r', who r' → r' ≠ r ∧ sanitizedNames (dir.key r') = some r') :
    CanSave w' d v r f := by
  rw [CanSave, hsaved.places.fileLoc]
  rcases h with ⟨hnone, hway⟩ | ⟨hempty, t, ht⟩
  · refine Or.inl ⟨?_, fun l g hl hg => ?_⟩
    · by_contra hsome
      obtain ⟨n, hn⟩ := Option.ne_none_iff_exists'.mp hsome
      rcases hsaved.adds _ n hn with ho | ⟨r', f', names, hr', hf', hs, hnew⟩
      · exact absurd (hnone.symm.trans ho) (by simp)
      obtain ⟨hne, hkey⟩ := hwho r' hr'
      obtain rfl := Option.some.inj (hkey.symm.trans hs)
      rcases hnew with ⟨he, -⟩ | ⟨-, hpre⟩
      · exact hne (World.fileLoc_injective he).symm
      · exact hf.not_onWay hf' w d v hpre
    · rcases hsaved.adds _ _ hg with ho | ⟨r', f', names, hr', hf', hs, ⟨rfl, -⟩ | ⟨hdir, -⟩⟩
      · exact hway l g hl ho
      · obtain rfl := Option.some.inj ((hwho r' hr').2.symm.trans hs)
        exact hf'.not_onWay hf w d v hl
      · exact absurd hdir (by simp)
  · exact Or.inr ⟨hempty, t, hsaved.keeps _ _ ht⟩

/-! ### Uploads that all succeed -/

def Host.TakesFile (host : Host) (api : API) (dir : LocalDir dk) (d : Str) (v : UInt32)
    (r : List Str) (f : FileData) : Prop :=
  host.Takes api d (toDecimal v) (dir.key r) (dir.text r) f.bytes

theorem answer_canSave {w : World} {r : List Str} {f : FileData} {req : HttpRequest}
    (h : CanSave w d v r f) (hf : dir.File r f) (hkey : sanitizedNames (dir.key r) = some r)
    (hu : w.storage.uploadingStatus d = some v) (htakes : host.TakesFile api dir d v r f)
    (hreq : api.uploadFile dk d (toDecimal v) (dir.key r) (dir.text r) = .ok req) :
    (host.answer w req).1.status = 200 ∧
      Saved dir d v (r = ·) w (host.answer w req).2 := by
  rcases @answer_uploadFile host api w req dk d (dir.key r) v (dir.text r) f hf.find hreq with
    ⟨hnot, -⟩ | ⟨-, res, ho, he⟩
  · exact absurd htakes hnot
  · rw [he]
    refine ⟨?_, (saved_of_outcome (.refl w) hf rfl ho).1⟩
    rw [h.ok hf hkey hu ho]
    rfl

/-- **Uploads of different files that can be saved all succeed**, when every request
is answered. -/
theorem uploads_succeed {w : World} {files : List UploadingFile}
    (hu : w.storage.uploadingStatus d = some v) (hnodup : files.Nodup)
    (hfiles : ∀ file ∈ files, ∃ r f, dir.File r f ∧ file = ⟨dir.key r, dir.text r⟩ ∧
      sanitizedNames (dir.key r) = some r ∧ host.TakesFile api dir d v r f ∧ CanSave w d v r f)
    (sched : List Nat) {res : List Bool × Net}
    (hres : (interleave sched (files.map fun file =>
      retryUpload api dk d (toDecimal v) file 3)).run host.meaning ⟨w, []⟩ = res) :
    res.1.all id = true ∧ res.2.deliveries = [] := by
  -- an upload is done, or has not been tried and can be
  have hrule := fun hstep => interleave_rule
    (I := fun n : Net => n.deliveries = [] ∧ n.world.storage.uploadingStatus d = some v)
    (P := fun file p n => p = ret true ∨
      p = retryUpload api dk d (toDecimal v) file 3 ∧ ∃ r f, dir.File r f ∧
        file = ⟨dir.key r, dir.text r⟩ ∧ sanitizedNames (dir.key r) = some r ∧
        host.TakesFile api dir d v r f ∧ CanSave n.world d v r f) hstep ⟨rfl, hu⟩
    (fun file hfile => Or.inr ⟨rfl, hfiles file hfile⟩) sched hres
  obtain ⟨⟨hdel, -⟩, -, hall⟩ := hrule <| by
    rintro i file req next ⟨w', deliveries⟩ hfile ⟨hdel, hu'⟩ hsend
    obtain rfl : deliveries = [] := hdel
    rcases hsend with hret | ⟨hcall, r, f, hf, rfl, hkey, htakes, hcan⟩
    · exact absurd hret (by simp)
    obtain ⟨k, -, hreq, hnext⟩ := retryUpload_eq_call hf hcall.symm
    obtain ⟨hstatus, hsaved⟩ := answer_canSave hcan hf hkey hu' htakes hreq
    refine ⟨⟨rfl, (congrFun hsaved.uploading d).trans hu'⟩, Or.inl ((hnext _).trans (if_pos ?_)),
      fun j file' p hij hfile' hsend' => hsend'.imp_right ?_⟩
    · show handleResp (some (host.answer w' req).1) = true
      simpa [handleResp] using hstatus
    · rintro ⟨hp, r', f', hf', rfl, hkey', htakes', hcan'⟩
      refine ⟨hp, r', f', hf', rfl, hkey', htakes', hcan'.keep hf' hsaved ?_⟩
      rintro _ rfl
      refine ⟨fun hrr => hij ?_, hkey⟩
      subst hrr
      have hlt := (List.getElem?_eq_some_iff.mp hfile).1
      exact ((List.getElem?_inj hlt hnodup).mp (hfile.trans hfile'.symm)).symm
  refine ⟨List.all_eq_true.mpr fun b hb => ?_, hdel⟩
  obtain ⟨file, -, htrue | ⟨hcall, r, f, hf, rfl, -⟩⟩ := hall b hb
  · simpa using htrue
  · obtain ⟨_, -, hstep⟩ := @retryUpload_succ api dk dir d v r f hf 2
    rw [hstep] at hcall
    exact absurd hcall (by simp)

/-! ### The server at the interruption -/

/-- What is known of the server once it has accepted the upload of the version: the
client's requests reach it, and the version is recorded. -/
structure Underway (host : Host) (api : API) (d : Str) (v : UInt32) (w : World) : Prop where
  token : api.authToken = host.conf.token
  fits : jsonLength (UpdateUploadingStatusOption.mk d v .uploading).toJson ≤ 1024 * 16
  uri : uriRegex.isMatch d = true
  recorded : w.storage.uploadingStatus d = some v

/-- An upload that was accepted and not finished is under way, whatever else was
answered or lost. -/
theorem Traffic.underway {crates : Crates} {sched : List Nat} {path : PathBuf} {parallel : UInt32}
    {ok : List Exchange → Net → Nat → HttpRequest → Prop} {n₀ : Net} {log : List Exchange}
    {c : List (ClientM (Except UploadError Unit)) × Net}
    (h : Traffic host ok [uploadFiles crates api dk sched d none path parallel] n₀ log c)
    (hstarted : ∃ i, Accepted log i (.changeUploadStatus ⟨d, v, .uploading⟩))
    (hopen : ∀ i, ¬ Accepted log i (.changeUploadStatus ⟨d, v, .finish⟩)) :
    Underway host api d v c.2.world := by
  have hguarded := h.guarded (Orderly host api none) fun p hp => by
    rw [List.mem_singleton.mp hp]
    exact guarded_uploadFiles
  have hrecorded := h.uploading hstarted hopen
  obtain ⟨i, e, he, rfl, hreq, hstatus⟩ := hstarted
  obtain ⟨hist, req, horderly, hseen, hroutes⟩ := hguarded.2 e he
  rw [hreq] at hroutes
  obtain ⟨hsent, hposition⟩ := horderly.status d v .uploading hroutes
  rw [routes_changeUploadingStatus hsent] at hroutes
  split at hroutes
  · next hfits =>
    obtain ⟨e', he', -, hreq', hstatus'⟩ := (hposition rfl).accepted hseen
    refine ⟨hfits.1, hfits.2, ?_, hrecorded⟩
    obtain ⟨w, hresp⟩ := h.answered e' he'
    rw [hresp, hreq', serve_getUploadPosition] at hstatus'
    by_contra huri
    rw [if_neg huri] at hstatus'
    exact absurd hstatus' (by simp [Response.badRequest])
  · exact absurd hroutes (by simp)

/-! ### What is skipped -/

theorem listed_head {crates : Crates} {w : World}
    (hdir : w.disk.node (w.versionLoc d v) = some .dir) {x : ShortMetaData}
    (hx : x ∈ listingOf crates w d v) : x.path.head? ≠ some '/' := by
  have hfind : w.disk.find (getVersionPath w.storage.pathPrefix d v) = some .dir := by
    rw [w.find_versionPath, hdir]
  simp only [listingOf, getFilesMetadata, perform_bind, run_call, SpaServer.meaning,
    Disk.exists?, hfind] at hx
  obtain ⟨e, he, hx⟩ := List.mem_filterMap.mp hx
  obtain ⟨hroot, -, hnode, -⟩ := Disk.mem_walkDir.mp he
  obtain ⟨root, rel, node⟩ := e
  obtain rfl : root = getVersionPath w.storage.pathPrefix d v := hroot
  rw [getShortMetadata] at hx
  split at hx
  · exact absurd hx (by simp)
  split at hx
  next f text hf htext =>
    obtain rfl : node = .file f := hf
    rw [w.locate_versionPath] at hnode
    have hlast : (getVersionPath w.storage.pathPrefix d v).getLast? ≠ some '/' := by
      rw [getVersionPath, getLast?_push (toDecimal_ne_nil v)]
      exact fun he => (plain_toDecimal v).2.1 (List.mem_of_getLast? he)
    obtain ⟨r, rfl, rfl⟩ := foldlM_push_slashed (versionPath_ne_nil _ d v) hlast
      (fun c hc => w.disk.plain _ (by rw [hnode]; simp) c (List.mem_append_right _ hc)) htext
    cases r with
    | nil =>
      rw [List.map_nil, List.append_nil, hdir] at hnode
      exact absurd hnode (by simp)
    | cons n rest =>
      have hslash : ∀ m ∈ n :: rest, Plain m := fun m hm =>
        w.disk.plain _ (by rw [hnode]; simp) (.utf8 m)
          (List.mem_append_right _ (List.mem_map_of_mem hm))
      obtain rfl := Option.some.inj hx
      dsimp only
      rw [slashed_cons, List.cons_append, ← List.singleton_append (l := n ++ slashed rest),
        ← List.append_assoc, remove_append (by simp)]
      refine head_remove (by simp) fun seg hseg => ?_
      rw [splitOn_append_slashed fun m hm => (hslash m hm).2.1] at hseg
      exact (hslash seg hseg).1
  · exact absurd hx (by simp)

theorem not_skipped_of_head {crates : Crates} {listed : List ShortMetaData} {r : List Str}
    {f : FileData} (hlisted : ∀ x ∈ listed, x.path.head? ≠ some '/')
    (hkey : (dir.key r).head? = some '/') : ¬ dir.Skipped crates listed r f := by
  rintro ⟨x, hx, -⟩
  obtain ⟨y, hy, he⟩ := List.mem_map.mp (DashMap.mem_of_collect hx)
  refine hlisted y hy ?_
  rw [(Prod.mk.inj he).1, hkey]

theorem head_slashed {names : List Str} (hne : names ≠ []) :
    (slashed names).head? = some '/' := by
  obtain ⟨n, rest, rfl⟩ := List.exists_cons_of_ne_nil hne
  rfl

/-- Outside the root directory the client skips no file, whatever the server lists. -/
theorem not_skipped {crates crates' : Crates} {w : World}
    (hdir : w.disk.node (w.versionLoc d v) = some .dir) (hnames : dir.names ≠ []) {r : List Str}
    {f : FileData} (hf : dir.File r f) (hkey : sanitizedNames (dir.key r) = some r) :
    ¬ dir.Skipped crates (listingOf crates' w d v) r f := by
  refine not_skipped_of_head (fun x hx => listed_head hdir hx) ?_
  obtain ⟨-, ⟨hroot, -⟩ | hslash⟩ := hf.key_eq hkey
  · exact absurd hroot hnames
  · rw [hslash, head_slashed hf.ne_nil]

/-! ### The second run -/

/-- The run selects the version `v`, returns `Ok` and leaves the version finished, with
every file of the directory. -/
structure Resumed (dir : LocalDir dk) (d : Str) (v : UInt32) (position : UploadDomainPosition)
    (res : Except UploadError Unit × Net) : Prop where
  selects : position.version = v
  ok : res.1 = .ok ()
  files : ∀ r f, dir.File r f →
    ∃ t, res.2.world.disk.node (res.2.world.fileLoc d v r) = some (.file ⟨f.bytes, t⟩)
  unmarked : res.2.world.disk.node (res.2.world.markerLoc d v) = none
  free : res.2.world.storage.uploadingStatus d = none

/-- The upload can be taken up: the marker is there, there is something to send, the
server holds what is left out and takes and can save what is sent. -/
structure Resumable (host : Host) (crates : Crates) (api : API) (dir : LocalDir dk) (d : Str)
    (v : UInt32) (parallel : UInt32) (w : World) : Prop where
  threads : parallel ≠ 0
  marker : ∃ g, w.disk.node (w.markerLoc d v) = some (.file g)
  pending : ∃ r f, dir.File r f ∧ ¬ dir.Skipped crates (listingOf host.crates w d v) r f
  held : ∀ r f, dir.File r f → dir.Skipped crates (listingOf host.crates w d v) r f →
    ∃ t, w.disk.node (w.fileLoc d v r) = some (.file ⟨f.bytes, t⟩)
  sent : ∀ r f, dir.File r f → ¬ dir.Skipped crates (listingOf host.crates w d v) r f →
    host.TakesFile api dir d v r f ∧ CanSave w d v r f

section SecondRun

variable {w : World}

theorem call_answered (host : Host) (w : World) (req : HttpRequest) :
    (call (.ok req)).run host.meaning ⟨w, []⟩ =
      (some (host.answer w req).1, ⟨(host.answer w req).2, []⟩) := rfl

theorem position_recorded {crates : Crates} (hu : w.storage.uploadingStatus d = some v) :
    (positionOf crates w d).version = v := by
  simp only [positionOf, getUploadPosition, perform_bind, run_call, SpaServer.meaning, hu]
  rfl

theorem again_outcome {res : Except StorageError Unit × World}
    (hu : w.storage.uploadingStatus d = some v) (h : StatusOutcome w d v .uploading res) :
    res = (.ok (), w) := by
  cases h with
  | other hu' hne => exact absurd (Option.some.inj (hu'.symm.trans hu)) hne
  | again => rfl
  | serving hu' => exact absurd (hu.symm.trans hu') (by simp)
  | blocked hu' => exact absurd (hu.symm.trans hu') (by simp)
  | started hu' => exact absurd (hu.symm.trans hu') (by simp)

theorem finish_outcome {res : Except StorageError Unit × World} {g : FileData}
    (hu : w.storage.uploadingStatus d = some v)
    (hm : w.disk.node (w.markerLoc d v) = some (.file g)) (h : StatusOutcome w d v .finish res) :
    res.1 = .ok () := by
  cases h with
  | other hu' hne => exact absurd (Option.some.inj (hu'.symm.trans hu)) hne
  | notMarked _ hm' => exact absurd hm (hm' g)
  | finished => rfl

theorem finish_marked {res : Except StorageError Unit × World}
    (h : StatusOutcome w d v .finish res) (hok : res.1 = .ok ()) :
    ∃ g, w.disk.node (w.markerLoc d v) = some (.file g) := by
  cases h with
  | other => exact absurd hok (by simp)
  | notMarked => exact absurd hok (by simp)
  | finished _ hm => exact ⟨_, hm⟩

theorem Underway.status_answered (h : Underway host api d v w) {st : UploadingStatus}
    {w' : World} : ∃ res, StatusOutcome w' d v st res ∧
      (call (api.changeUploadingStatus ⟨d, v, st⟩)).run host.meaning ⟨w', []⟩ =
        (some (resultResponse res.1), ⟨res.2, []⟩) := by
  have hlen : jsonLength (UpdateUploadingStatusOption.mk d v st).toJson =
      jsonLength (UpdateUploadingStatusOption.mk d v .uploading).toJson := by
    cases st with
    | uploading => rfl
    | finish =>
      simp [jsonLength, jsonText, UpdateUploadingStatusOption.toJson, encodeUtf8]
      rfl
  obtain ⟨req, hreq⟩ : ∃ req, api.changeUploadingStatus ⟨d, v, st⟩ = .ok req := ⟨_, rfl⟩
  rcases @answer_status host api d v w' req st hreq with ⟨hnot, -⟩ | ⟨-, res, ho, he⟩
  · exact absurd ⟨h.token, hlen ▸ h.fits⟩ hnot
  · exact ⟨res, ho, by rw [hreq, call_answered, he]⟩

/-- **How the second run goes**, if there is something to send. -/
theorem Underway.run (h : Underway host api d v w) {crates : Crates} {sched : List Nat}
    {path : PathBuf} {parallel : UInt32} (hfind : dk.find path = some .dir)
    (hpath : dk.locate path = dir.names.map .utf8)
    (hne : dir.uploads crates (listingOf host.crates w d v) ≠ []) :
    (uploadFiles crates api dk sched d none path parallel).run host.meaning ⟨w, []⟩ =
      (sendFiles api dk sched d v parallel
        (dir.uploads crates (listingOf host.crates w d v))).run host.meaning ⟨w, []⟩ := by
  have hposition : (getUploadVersion api d none).run host.meaning ⟨w, []⟩ = (some v, ⟨w, []⟩) := by
    obtain ⟨req, hreq⟩ : ∃ req, api.getUploadPosition d = .ok req := ⟨_, rfl⟩
    rw [getUploadVersion, hreq, run_bind, call_answered, answer_getUploadPosition hreq,
      if_pos h.token, serve_getUploadPosition, if_pos h.uri]
    show (some (positionOf host.crates w d).version, _) = _
    rw [position_recorded h.recorded]
  have hlisting : (call (api.getFileMetadata d v)).run host.meaning ⟨w, []⟩ =
      (some ⟨200, .filesMetadata (listingOf host.crates w d v)⟩, ⟨w, []⟩) := by
    obtain ⟨req, hreq⟩ : ∃ req, api.getFileMetadata d v = .ok req := ⟨_, rfl⟩
    rw [hreq, call_answered, answer_getFileMetadata hreq, if_pos h.token, serve_getFilesMetadata]
  rw [uploadFiles, hfind]
  dsimp only
  rw [hpath, canonicalText_dir]
  dsimp only
  rw [run_bind, hposition]
  dsimp only
  have hfiles : metadataResp (some ⟨200, .filesMetadata (listingOf host.crates w d v)⟩) =
      some (listingOf host.crates w d v) := rfl
  rw [run_bind, hlisting]
  dsimp only
  rw [hfiles]
  dsimp only
  split
  · next hnil => exact absurd hnil hne
  · rfl

theorem Underway.resumed (h : Underway host api d v w) {crates : Crates} {sched : List Nat}
    {path : PathBuf} {parallel : UInt32} (hfind : dk.find path = some .dir)
    (hpath : dk.locate path = dir.names.map .utf8) (hfaith : dir.Faithful)
    (hr : Resumable host crates api dir d v parallel w) :
    Resumed dir d v (positionOf host.crates w d)
      ((uploadFiles crates api dk sched d none path parallel).run host.meaning ⟨w, []⟩) := by
  set files := dir.uploads crates (listingOf host.crates w d v) with hfiles
  have hne : files ≠ [] := by
    obtain ⟨r, f, hf, hskip⟩ := hr.pending
    exact List.ne_nil_of_mem (mem_uploads.mpr ⟨r, f, hf, hskip, rfl⟩)
  obtain ⟨g, hg⟩ := hr.marker
  -- the upload is started again, and all files are sent
  obtain ⟨res₁, hagain, hcall₁⟩ := @Underway.status_answered _ _ _ _ _ h .uploading w
  obtain rfl := again_outcome h.recorded hagain
  generalize hups : (interleave sched (files.map fun file =>
    retryUpload api dk d (toDecimal v) file 3)).run host.meaning ⟨w, []⟩ = ups
  obtain ⟨hall, hdel⟩ := uploads_succeed h.recorded (uploads_nodup dir crates _)
    (fun file hfile => by
      obtain ⟨r, f, hf, hskip, he⟩ := mem_uploads.mp hfile
      exact ⟨r, f, hf, he, (hfaith r f hf).1, hr.sent r f hf hskip⟩) sched hups
  obtain ⟨results, w₂, deliveries⟩ := ups
  obtain rfl : deliveries = [] := hdel
  obtain ⟨hsaved, hdone⟩ := uploads_dir hups
  -- and then it is finished
  obtain ⟨res₂, hfinish, hcall₂⟩ := @Underway.status_answered _ _ _ _ _ h .finish w₂
  have hg₂ : w₂.disk.node (w₂.markerLoc d v) = some (.file g) := by
    rw [hsaved.places.markerLoc]
    exact hsaved.keeps _ _ hg
  have hok := finish_outcome ((congrFun hsaved.uploading d).trans h.recorded) hg₂ hfinish
  have hrun : (uploadFiles crates api dk sched d none path parallel).run host.meaning ⟨w, []⟩ =
      (.ok (), ⟨res₂.2, []⟩) := by
    rw [h.run hfind hpath hne, sendFiles, run_bind, hcall₁]
    show (if parallel = 0 then _ else _ : ClientM _).run host.meaning _ = _
    rw [if_neg hr.threads, run_bind, hups]
    dsimp only
    rw [if_pos hall, run_bind, hcall₂, hok]
    rfl
  rw [hrun]
  obtain ⟨hplaces, hfree, hfinal⟩ := hsaved.finished hfinish hok
  refine ⟨position_recorded h.recorded, rfl, fun r f hf => ?_, ?_, hfree⟩
  · show ∃ t, res₂.2.disk.node (res₂.2.fileLoc d v r) = _
    rw [hplaces.fileLoc, hfinal, if_neg fun he => (hfaith r f hf).2 (World.fileLoc_injective he)]
    by_cases hskip : dir.Skipped crates (listingOf host.crates w d v) r f
    · obtain ⟨t, ht⟩ := hr.held r f hf hskip
      exact ⟨t, hsaved.keeps _ _ ht⟩
    · obtain ⟨⟨names, hn, hcase⟩, -⟩ := hdone hall r f hf hskip
      obtain rfl := Option.some.inj ((hfaith r f hf).1.symm.trans hn)
      rcases hcase with ⟨ht, -⟩ | ⟨hempty, hsome⟩
      · exact ht
      · rcases (hr.sent r f hf hskip).2 with ⟨hnone, -⟩ | ⟨-, t, ht⟩
        · exact (hsaved.file_new hfaith hf hnone hsome).2
        · exact ⟨t, hempty ▸ hsaved.keeps _ _ ht⟩
  · show res₂.2.disk.node (res₂.2.fileLoc d v [uploadingFileName]) = none
    rw [hplaces.fileLoc, hfinal, if_pos rfl]

theorem Saved.canSave {w' : World} {who : List Str → Prop} {r : List Str} {f : FileData}
    (h : Saved dir d v who w w') (hnone : w.disk.node (w.fileLoc d v r) = none)
    (hsome : w'.disk.node (w.fileLoc d v r) ≠ none) : CanSave w d v r f := by
  refine Or.inl ⟨hnone, fun l g hl hg => ?_⟩
  have hdir := w'.disk.node_onWay hl (w.fileLoc_ne_nil d v r) hsome
  rw [h.keeps l _ hg] at hdir
  exact absurd hdir (by simp)

/-- The upload could be taken up if the second run went through. -/
theorem Underway.resumable (h : Underway host api d v w) {crates : Crates} {sched : List Nat}
    {path : PathBuf} {parallel : UInt32} (hpath : dk.locate path = dir.names.map .utf8)
    (hfaith : dir.Faithful)
    (hr : Resumed dir d v (positionOf host.crates w d)
      ((uploadFiles crates api dk sched d none path parallel).run host.meaning ⟨w, []⟩)) :
    Resumable host crates api dir d v parallel w := by
  generalize hrun : (uploadFiles crates api dk sched d none path parallel).run host.meaning
    ⟨w, []⟩ = res at hr
  obtain ⟨-, hok, hfiles, -, -⟩ := hr
  obtain ⟨_, n'⟩ := res
  obtain rfl := hok
  obtain ⟨v', hwhich, hpar, hne, n₁, results, n₂, hstart, hups, hall, hfinish⟩ :=
    uploadFiles_ok hpath hrun
  obtain rfl : v' = v := by
    rcases hwhich with hv | ⟨-, hv⟩
    · exact absurd hv (by simp)
    · exact hv.symm.trans (position_recorded h.recorded)
  have hw₁ : n₁.world = w := (Prod.mk.inj (again_outcome h.recorded hstart)).2
  obtain ⟨hsaved, hdone⟩ := uploads_dir hups
  rw [hw₁] at hsaved hdone
  obtain ⟨hplaces, -, hfinal⟩ := hsaved.finished hfinish rfl
  obtain ⟨g, hg⟩ := finish_marked hfinish rfl
  dsimp only at hsaved hdone hplaces hfinal hg
  have hmark : n₂.world.markerLoc d v' = w.fileLoc d v' [uploadingFileName] :=
    hsaved.places.markerLoc d v'
  -- what the version holds in the end, but for the marker, it held before it was finished
  have hend : ∀ r f, dir.File r f →
      ∃ t, n₂.world.disk.node (w.fileLoc d v' r) = some (.file ⟨f.bytes, t⟩) := by
    intro r f hf
    obtain ⟨t, ht⟩ := hfiles r f hf
    dsimp only at ht
    rw [hplaces.fileLoc, hfinal,
      if_neg fun he => (hfaith r f hf).2 (World.fileLoc_injective he)] at ht
    exact ⟨t, ht⟩
  refine ⟨hpar, ?_, ?_, fun r f hf hskip => ?_, fun r f hf hskip => ?_⟩
  · rw [hmark] at hg
    rcases hsaved.adds _ _ hg with ho | ⟨r, f, names, -, hf, hs, ⟨he, -⟩ | ⟨hdir, -⟩⟩
    · exact ⟨g, ho⟩
    · obtain ⟨hkey, hne⟩ := hfaith r f hf
      obtain rfl := Option.some.inj (hkey.symm.trans hs)
      exact absurd (World.fileLoc_injective he).symm hne
    · exact absurd hdir (by simp)
  · obtain ⟨file, hfile⟩ := List.exists_mem_of_ne_nil _ hne
    obtain ⟨r, f, hf, hskip, -⟩ := mem_uploads.mp hfile
    exact ⟨r, f, hf, hskip⟩
  · obtain ⟨t, ht⟩ := hend r f hf
    refine ⟨t, ?_⟩
    by_contra hold
    have hnone : w.disk.node (w.fileLoc d v' r) = none := by
      by_contra hsome
      obtain ⟨n, hn⟩ := Option.ne_none_iff_exists'.mp hsome
      exact hold (hn.trans ((hsaved.keeps _ _ hn).symm.trans ht))
    obtain ⟨⟨f', hf', hskip'⟩, -⟩ := hsaved.file_new hfaith hf hnone (by rw [ht]; simp)
    obtain rfl := hf.unique hf'
    exact hskip' hskip
  · obtain ⟨t, ht⟩ := hend r f hf
    obtain ⟨⟨names, hn, hcase⟩, htakes⟩ := hdone hall r f hf hskip
    obtain rfl := Option.some.inj ((hfaith r f hf).1.symm.trans hn)
    refine ⟨htakes, ?_⟩
    have hsome : n₂.world.disk.node (w.fileLoc d v' r) ≠ none := by rw [ht]; simp
    rcases hcase with ⟨-, hnone⟩ | ⟨hempty, -⟩
    · exact hsaved.canSave hnone hsome
    · by_cases hnone : w.disk.node (w.fileLoc d v' r) = none
      · exact hsaved.canSave hnone hsome
      · obtain ⟨n, hn⟩ := Option.ne_none_iff_exists'.mp hnone
        refine Or.inr ⟨hempty, t, hn.trans ?_⟩
        rw [← hsaved.keeps _ _ hn, ht, hempty]

/-- Outside the root directory the upload can be taken up just when the marker is there,
the directory is not empty, and the server takes every file and can save it. -/
theorem resumable_iff {crates : Crates} {parallel : UInt32} (hnames : dir.names ≠ [])
    (hfaith : dir.Faithful) : Resumable host crates api dir d v parallel w ↔
      parallel ≠ 0 ∧ (∃ g, w.disk.node (w.markerLoc d v) = some (.file g)) ∧
        (∃ r f, dir.File r f) ∧
        ∀ r f, dir.File r f → host.TakesFile api dir d v r f ∧ CanSave w d v r f := by
  have hskip : (∃ g, w.disk.node (w.markerLoc d v) = some (.file g)) → ∀ r f, dir.File r f →
      ¬ dir.Skipped crates (listingOf host.crates w d v) r f := by
    rintro ⟨g, hg⟩ r f hf
    have hdir := w.disk.node_onWay (l := w.versionLoc d v) (m := w.markerLoc d v)
      (by rw [World.markerLoc, List.dropLast_concat]) (w.markerLoc_ne_nil d v) (by rw [hg]; simp)
    exact not_skipped hdir hnames hf (hfaith r f hf).1
  constructor
  · intro h
    obtain ⟨r, f, hf, -⟩ := h.pending
    exact ⟨h.threads, h.marker, ⟨r, f, hf⟩, fun r f hf => h.sent r f hf (hskip h.marker r f hf)⟩
  · rintro ⟨hpar, hmarker, ⟨r, f, hf⟩, hall⟩
    exact ⟨hpar, hmarker, ⟨r, f, hf, hskip hmarker r f hf⟩,
      fun r f hf hs => absurd hs (hskip hmarker r f hf), fun r f hf _ => hall r f hf⟩

end SecondRun

/-- **An interrupted upload is taken up just when it can be**: after any run that was
interrupted with its upload started and not finished, whatever requests and responses
were lost. -/
theorem resumed_iff {crates : Crates} {sched sched' : List Nat} {path : PathBuf}
    {parallel : UInt32} {ok : List Exchange → Net → Nat → HttpRequest → Prop} {n₀ : Net}
    {log : List Exchange} {c : List (ClientM (Except UploadError Unit)) × Net}
    (hfind : dk.find path = some .dir) (hpath : dk.locate path = dir.names.map .utf8)
    (hfaith : dir.Faithful)
    (h : Traffic host ok [uploadFiles crates api dk sched d none path parallel] n₀ log c)
    (hstarted : ∃ i, Accepted log i (.changeUploadStatus ⟨d, v, .uploading⟩))
    (hopen : ∀ i, ¬ Accepted log i (.changeUploadStatus ⟨d, v, .finish⟩)) :
    Resumed dir d v (positionOf host.crates c.2.world d)
        ((uploadFiles crates api dk sched' d none path parallel).run host.meaning
          ⟨c.2.world, []⟩) ↔
      Resumable host crates api dir d v parallel c.2.world :=
  have hunderway := h.underway hstarted hopen
  ⟨hunderway.resumable hpath hfaith, hunderway.resumed hfind hpath hfaith⟩

/-! ### One file -/

def interrupted (requests : List Nat) :
    List Exchange × List (ClientM (Except UploadError Unit)) × Net :=
  bareHost.follow requests [] ([uploadOf "a.html".toList], bareNet)

theorem interrupted_traffic (requests : List Nat) : Traffic bareHost (fun _ _ _ _ => True)
    [uploadOf "a.html".toList] bareNet (interrupted requests).1 (interrupted requests).2 :=
  Traffic.follow (Host.allows_of_forall (fun _ _ _ _ => trivial) _ _ _) .start

theorem site_canSave {w : World} {r : List Str} {f : FileData} (h : (siteDir _ site_dir).File r f)
    (hnone : w.disk.node (w.fileLoc d v ["a.html".toList]) = none)
    (hdir : w.disk.node (w.versionLoc d v) = some .dir) : CanSave w d v r f := by
  obtain rfl := site_file h
  refine Or.inl ⟨hnone, fun l g hl hg => ?_⟩
  rw [World.fileLoc, List.map_singleton, List.dropLast_concat] at hl
  by_cases he : l = w.versionLoc d v
  · rw [he, hdir] at hg
    exact absurd hg (by simp)
  · rw [w.disk.node_prefix hl he (by rw [hdir]; simp)] at hg
    exact absurd hg (by simp)

theorem interrupted_open {requests : List Nat}
    (h : ∀ e ∈ (interrupted requests).1,
      e.request ≠ .changeUploadStatus ⟨"www.a.com".toList, 1, .finish⟩) (i : Nat) :
    ¬ Accepted (interrupted requests).1 i (.changeUploadStatus ⟨"www.a.com".toList, 1, .finish⟩) := by
  rintro ⟨e, he, -, hr, -⟩
  exact h e he hr

/-- Interrupted right after it was started, the upload is taken up. -/
theorem resumed_started : Resumed (siteDir _ site_dir) "www.a.com".toList 1
    (positionOf Crates.simple (interrupted [0, 0, 0]).2.2.world "www.a.com".toList)
    ((uploadOf "a.html".toList).run bareHost.meaning
      ⟨(interrupted [0, 0, 0]).2.2.world, []⟩) := by
  have hresumable : Resumable bareHost Crates.simple bareApi (siteDir _ site_dir)
      "www.a.com".toList 1 1 (interrupted [0, 0, 0]).2.2.world := by
    refine (resumable_iff (by decide) site_faithful).mpr ⟨by decide, ⟨⟨[], 0⟩, by decide +kernel⟩,
      ⟨["a.html".toList], ⟨[1], 0⟩, ?_⟩, fun r f hf => ⟨⟨rfl, fun _ _ => Nat.zero_le _⟩,
        site_canSave hf (by decide +kernel) (by decide +kernel)⟩⟩
    show (siteWith "a.html".toList).node _ = _
    decide +kernel
  exact (resumed_iff (by decide +kernel) (by decide +kernel) site_faithful
    (interrupted_traffic [0, 0, 0]) ⟨0, by decide +kernel⟩
    (interrupted_open (by decide +kernel))).mpr hresumable

/-- Interrupted after its file was saved, the upload is not: the file is there, and can
only be read. -/
theorem resumed_not_saved :
    ¬ ∀ (host : Host) (crates : Crates) (api : API) (dk : Disk) (dir : LocalDir dk)
      (sched sched' : List Nat) (d : Str) (v : UInt32) (path : PathBuf) (parallel : UInt32)
      (n₀ : Net) (log : List Exchange) (c : List (ClientM (Except UploadError Unit)) × Net),
      dk.find path = some .dir → dk.locate path = dir.names.map .utf8 → dir.Faithful →
      (∃ r f, dir.File r f) → parallel ≠ 0 →
      Traffic host (fun _ _ _ _ => True) [uploadFiles crates api dk sched d none path parallel]
        n₀ log c →
      (∃ i, Accepted log i (.changeUploadStatus ⟨d, v, .uploading⟩)) →
      (∀ i, ¬ Accepted log i (.changeUploadStatus ⟨d, v, .finish⟩)) →
      Resumed dir d v (positionOf host.crates c.2.world d)
        ((uploadFiles crates api dk sched' d none path parallel).run host.meaning
          ⟨c.2.world, []⟩) := by
  intro h
  have hresumed := h bareHost Crates.simple bareApi _ (siteDir _ site_dir) [] [] _ 1 _ 1 _ _ _
    (by decide +kernel) (by decide +kernel) site_faithful
    ⟨["a.html".toList], ⟨[1], 0⟩, show (siteWith "a.html".toList).node _ = _ by decide +kernel⟩
    (by decide) (interrupted_traffic [0, 0, 0, 0]) ⟨0, by decide +kernel⟩
    (interrupted_open (by decide +kernel))
  have herr : ((uploadOf "a.html".toList).run bareHost.meaning
      ⟨(interrupted [0, 0, 0, 0]).2.2.world, []⟩).1 = .error .uploadFail := by
    decide +kernel
  exact absurd (herr.symm.trans hresumed.ok) (by simp)

end Client

end SpaServer
