import SpaServer.Serve
import SpaServer.Storage.Init

/-!
# The upload state on the disk and in memory

The version being uploaded is kept twice: in `uploadingStatus`, and as a marker file
in its directory.  `MarkersAgree` says that the two are the same for every plainly
named domain.

* `markersAgree_serve`: a request for plainly named domains keeps them the same,
  unless it is a delete that takes out the version being uploaded (`SparesUploads`).
* `markersAgree_init`: `init` makes them the same when every marker is a file in a
  version directory of a domain directory (`MarkedTree`).
* `finish_ok`: where they are the same, finishing the recorded upload succeeds.

`markers_run` puts these together for runs.
-/

namespace SpaServer

open Base

variable {crates : Crates}

/-- `d` is recorded as uploading `v` just when the marker file of `v` is there. -/
def MarkersAgree (w : World) : Prop :=
  ∀ d v, Plain d →
    (w.storage.uploadingStatus d = some v ↔ ∃ f, w.disk.node (w.markerLoc d v) = some (.file f))

/-- A delete request takes out no directory at or above a version being uploaded. -/
def SparesUploads (w : World) : AdminRequest → Prop
  | .removeDomainVersion q => ∀ d u, w.storage.uploadingStatus d = some u →
      ∀ d' v', Targets w q d' v' → w.disk.node (w.versionLoc d' v') = some .dir →
        ¬ w.versionLoc d' v' <+: w.versionLoc d u
  | _ => True

def AdminRequest.PlainDomain : AdminRequest → Prop
  | .changeUploadStatus param => Plain param.domain
  | .uploadFile parts => ∀ d ∈ (formOf parts).domain, Plain d
  | .updateDomainVersion option => Plain option.domain
  | .getFilesMetadata query => Plain query.domain
  | .getUploadPosition option => Plain option.domain
  | .getDomainInfo option => ∀ d ∈ option.domain, Plain d
  | .removeDomainVersion q => ∀ d ∈ q.domain, Plain d

def SameMarkers (w w' : World) : Prop :=
  ∀ d v, Plain d → ((∃ f, w'.disk.node (w.markerLoc d v) = some (.file f)) ↔
    ∃ f, w.disk.node (w.markerLoc d v) = some (.file f))

theorem MarkersAgree.congr {w w' : World} (h : MarkersAgree w) (hp : SamePlaces w w')
    (hu : w'.storage.uploadingStatus = w.storage.uploadingStatus) (hm : SameMarkers w w') :
    MarkersAgree w' := by
  intro d v hd
  rw [hp.markerLoc, hu, hm d v hd]
  exact h d v hd

/-- New directories are no markers. -/
theorem sameMarkers_newDirs {w : World} {dk : Disk} {target : Loc}
    (h : w.disk.NewDirs dk target) : SameMarkers w (w.setDisk dk) := by
  intro d v _
  simp only [World.setDisk, h.file_iff]

/-! ### One request -/

theorem markersAgree_status {w : World} {d : Str} {v : UInt32} {st : UploadingStatus}
    {res : Except StorageError Unit × World} (ho : StatusOutcome w d v st res) (hd : Plain d)
    (h : MarkersAgree w) (hp : SamePlaces w res.2) : MarkersAgree res.2 := by
  cases ho with
  | other _ _ => exact h
  | again _ => exact h
  | notMarked _ _ => exact h
  | serving _ _ => exact h
  | blocked _ _ hnew _ => exact h.congr hp rfl (sameMarkers_newDirs hnew)
  | @finished f hu hm =>
    have hself : ¬ ∃ g, (w.disk.removeTree _ (w.markerLoc_ne_nil d v)).node (w.markerLoc d v) =
        some (.file g) := by
      simp [Disk.removeTree_node]
    have hnone : w.storage.uploadingStatus.removeIf d (· == v) d = none := by
      rcases hu with hu | hu
      · exact DashMap.removeIf_self _ hu (by simp)
      · rw [DashMap.removeIf_none _ hu, hu]
    intro e u he
    rw [hp.markerLoc]
    simp only [World.setUploading, World.setDisk]
    by_cases hloc : w.markerLoc e u = w.markerLoc d v
    · obtain ⟨rfl, rfl⟩ := w.markerLoc_inj he hd hloc
      rw [hnone]
      exact ⟨fun hc => absurd hc (by simp), fun hc => absurd hc hself⟩
    · rw [w.disk.removeTree_file _ (by rw [hm]; simp), if_neg hloc]
      by_cases hed : e = d
      · subst hed
        rw [hnone, ← h e u he]
        refine ⟨fun hc => absurd hc (by simp), fun hc => ?_⟩
        rcases hu with hu | hu
        · obtain rfl := Option.some.inj (hu.symm.trans hc)
          exact absurd rfl hloc
        · rw [hu] at hc
          exact absurd hc (by simp)
      · rw [DashMap.removeIf_of_ne _ hed]
        exact h e u he
  | @started dk hu _ hnew hv hm =>
    intro e u he
    rw [hp.markerLoc]
    simp only [World.setUploading, World.setDisk]
    by_cases hloc : w.markerLoc e u = w.markerLoc d v
    · obtain ⟨rfl, rfl⟩ := w.markerLoc_inj he hd hloc
      exact ⟨fun _ => ⟨_, dk.set_node_self hm⟩, fun _ => DashMap.insert_self _ _ _⟩
    · simp only [dk.set_node_of_ne hm hloc, hnew.file_iff]
      by_cases hed : e = d
      · subst hed
        rw [DashMap.insert_self, ← h e u he, hu]
        refine ⟨fun hc => ?_, fun hc => absurd hc (by simp)⟩
        obtain rfl := Option.some.inj hc
        exact absurd rfl hloc
      · rw [DashMap.insert_of_ne _ hed]
        exact h e u he

theorem markersAgree_save {w : World} {d path : Str} {v : UInt32} {data : List UInt8}
    {res : Except StorageError Unit × World} (ho : SaveOutcome w d v path data res) (hd : Plain d)
    (h : MarkersAgree w) (hp : SamePlaces w res.2) : MarkersAgree res.2 := by
  cases ho with
  | notUploading _ => exact h
  | badPath _ _ => exact h
  | present _ _ _ => exact h
  | blocked _ _ hnew => exact h.congr hp rfl (sameMarkers_newDirs hnew)
  | @saved names dk t hu hn _ hf _ _ hrest =>
    refine h.congr hp rfl fun e u he => ?_
    have hloc : w.markerLoc e u ≠ w.fileLoc d v names := by
      -- the marker of an upload is there, so no new file is put in its place
      intro hloc
      obtain ⟨rfl, rfl⟩ := w.versionLoc_prefix he hd (t := names.map .utf8)
        ((List.prefix_append _ _).trans (by rw [World.markerLoc] at hloc; rw [hloc]; exact List.prefix_refl _))
      obtain ⟨f, hfile⟩ := (h e u he).mp hu
      rw [hloc, hf] at hfile
      exact absurd hfile (by simp)
    rcases hrest _ hloc with hsame | ⟨hnone, hdir, _⟩
    · simp only [World.setDisk, hsame]
    · simp only [World.setDisk, hnone, hdir]
      simp

theorem markersAgree_delete {w w' : World} {q : DeleteDomainVersionOption}
    (ho : OnDisk w w' fun r => ∃ d v, Targets w q d v ∧ r = w.versionLoc d v)
    (hs : SparesUploads w (.removeDomainVersion q)) (h : MarkersAgree w) : MarkersAgree w' := by
  refine h.congr ho.samePlaces (by rw [ho.1]) fun d v hd => ?_
  constructor
  · rintro ⟨f, hf⟩
    rcases ho.2.2 (w.markerLoc d v) with ⟨hn, _⟩ | ⟨hn, _⟩
    · rw [hn] at hf; exact absurd hf (by simp)
    · exact ⟨f, by rw [← hn, hf]⟩
  · rintro ⟨f, hf⟩
    have hu := (h d v hd).mpr ⟨f, hf⟩
    rcases ho.2.2 (w.markerLoc d v) with ⟨_, r, ⟨d', v', ht, rfl⟩, hdir, hpre⟩ | ⟨hn, _⟩
    · exfalso
      refine hs d v hu d' v' ht hdir ?_
      -- a directory at or above the marker file is above it
      rcases List.prefix_concat_iff.mp hpre with he | hpre
      · rw [he] at hdir
        rw [World.markerLoc] at hf
        rw [hf] at hdir
        exact absurd hdir (by simp)
      · exact hpre
    · exact ⟨f, by rw [hn, hf]⟩

/-- **One request keeps the two copies the same.** -/
theorem markersAgree_serve {w : World} {r : AdminRequest} (h : MarkersAgree w)
    (hr : r.PlainDomain) (hs : SparesUploads w r) : MarkersAgree (w.serve crates r).2 := by
  have hp : SamePlaces w (w.serve crates r).2 := run_samePlaces _ w
  have ho := @serve_outcome crates w r
  generalize w.serve crates r = res at hp ho ⊢
  cases ho with
  | looks _ => exact h
  | badForm _ => exact h
  | save hf ho => exact markersAgree_save ho (hr _ (by rw [hf]; rfl)) h hp
  | status ho => exact markersAgree_status ho hr h hp
  | release ho =>
    cases ho with
    | refused => exact h
    | released _ _ _ => exact h.congr hp rfl fun _ _ _ => Iff.rfl
  | delete ho => exact markersAgree_delete ho hs h

/-! ### The start -/

def OneMarker (dk : Disk) (path : PathBuf) : Prop :=
  ∀ d name name' v v', VersionEntry dk (dk.locate path ++ [.utf8 d]) name v →
    VersionEntry dk (dk.locate path ++ [.utf8 d]) name' v' →
    Marked dk (dk.locate path ++ [.utf8 d]) name →
    Marked dk (dk.locate path ++ [.utf8 d]) name' → name = name'

/-- A tree as uploads leave it: a domain has at most one version with a marker; it is
the directory of a domain, its name is the number in decimal, and the marker is a file. -/
structure MarkedTree (dk : Disk) (path : PathBuf) : Prop where
  one : OneMarker dk path
  uploads : ∀ d name v, VersionEntry dk (dk.locate path ++ [.utf8 d]) name v →
    Marked dk (dk.locate path ++ [.utf8 d]) name →
    uriRegex.isMatch d = true ∧ name = toDecimal v ∧
      ∃ f, dk.node (dk.locate path ++ [.utf8 d, .utf8 name, .utf8 uploadingFileName]) =
        some (.file f)

theorem markersAgree_init {dk : Disk} {path : PathBuf} {cache : FileCache} {st : DomainStorage}
    (hinit : DomainStorage.init crates dk path cache = .ok st) (htree : MarkedTree dk path) :
    MarkersAgree ⟨st, dk⟩ := by
  obtain ⟨rfl, _, hdomain, hother⟩ := init_spec hinit
  intro d v hd
  have hloc : (World.mk st dk).markerLoc d v = dk.locate st.pathPrefix ++ [.utf8 d] ++
      [.utf8 (toDecimal v), .utf8 uploadingFileName] := by
    rw [World.markerLoc, World.versionLoc, World.domainLoc_plain _ hd]
    simp
  rw [hloc]
  have hentry : Marked dk (dk.locate st.pathPrefix ++ [.utf8 d]) (toDecimal v) →
      VersionEntry dk (dk.locate st.pathPrefix ++ [.utf8 d]) (toDecimal v) v := fun hm => by
    have hdir := dk.closed _ (by simp) hm
    rw [List.dropLast_append_of_ne_nil (by simp)] at hdir
    exact ⟨by rw [show [OsName.utf8 (toDecimal v)] =
      [.utf8 (toDecimal v), .utf8 uploadingFileName].dropLast from rfl, hdir]; simp,
      parseU32_toDecimal v⟩
  constructor
  · intro hu
    by_cases hdd : DomainDir dk st.pathPrefix d
    · obtain ⟨hholds, hfound⟩ := hdomain d hdd
      obtain ⟨name, hent, hm⟩ := hfound.uploading v (hholds.1 ▸ hu)
      obtain ⟨_, rfl, f, hf⟩ := htree.uploads d name v hent hm
      exact ⟨f, by simpa using hf⟩
    · rw [(hother d hdd).1] at hu
      exact absurd hu (by simp)
  · rintro ⟨f, hf⟩
    have hm : Marked dk (dk.locate st.pathPrefix ++ [.utf8 d]) (toDecimal v) := by
      rw [Marked, hf]; simp
    have hent := hentry hm
    have hdir := dk.closed _ (by simp) hent.1
    rw [List.dropLast_concat] at hdir
    obtain ⟨hholds, hfound⟩ := hdomain d ⟨hdir, (htree.uploads d _ v hent hm).1⟩
    cases hs : (scanDomain dk st.pathPrefix d).1 with
    | none => exact absurd hm (hfound.noUploading hs _ v hent)
    | some u =>
      obtain ⟨name, hent', hm'⟩ := hfound.uploading u hs
      obtain rfl := htree.one d _ _ v u hent hent' hm hm'
      obtain rfl := Option.some.inj (hent.2.symm.trans hent'.2)
      exact hholds.1.trans hs

/-! ### Runs -/

/-- Where the two copies agree, finishing the recorded upload succeeds and frees the domain. -/
theorem finish_ok {w : World} (h : MarkersAgree w) {d : Str} {v : UInt32} (hd : Plain d)
    (hu : w.storage.uploadingStatus d = some v) :
    (w.serve crates (.changeUploadStatus ⟨d, v, .finish⟩)).1 = .ok ∧
      (w.serve crates (.changeUploadStatus ⟨d, v, .finish⟩)).2.storage.uploadingStatus d = none := by
  obtain ⟨f, hf⟩ := (h d v hd).mp hu
  have ho := @serve_outcome crates w (.changeUploadStatus ⟨d, v, .finish⟩)
  generalize w.serve crates (.changeUploadStatus ⟨d, v, .finish⟩) = res at ho ⊢
  cases ho with
  | looks hl => exact absurd hl (by simp [AdminRequest.isLookup])
  | status ho =>
    generalize hst : UploadingStatus.finish = st at ho
    cases ho with
    | other hu' hne =>
      rw [hu] at hu'
      exact absurd (Option.some.inj hu').symm hne
    | notMarked _ hm => exact absurd hf (hm f)
    | finished _ _ => exact ⟨rfl, DashMap.removeIf_self _ hu (by simp)⟩
    | _ => exact absurd hst (by simp)

/-- **The two copies agree in every reachable state**, from a tree as uploads leave it
and by requests for plainly named domains none of which deletes a version being
uploaded; so the recorded upload can always be finished. -/
theorem markers_run {dk : Disk} {path : PathBuf} {cache : FileCache} {st : DomainStorage}
    (hinit : DomainStorage.init crates dk path cache = .ok st) (htree : MarkedTree dk path)
    {w : World}
    (hrun : World.Run crates (fun w r => r.PlainDomain ∧ SparesUploads w r) ⟨st, dk⟩ w) :
    MarkersAgree w ∧ ∀ d v, Plain d → w.storage.uploadingStatus d = some v →
      (w.serve crates (.changeUploadStatus ⟨d, v, .finish⟩)).1 = .ok ∧
      (w.serve crates (.changeUploadStatus ⟨d, v, .finish⟩)).2.storage.uploadingStatus d = none := by
  have hagree : MarkersAgree w := by
    induction hrun with
    | refl => exact markersAgree_init hinit htree
    | tail _ hstep ih =>
      obtain ⟨r, ⟨hplain, hspares⟩, rfl⟩ := hstep
      exact markersAgree_serve ih hplain hspares
  exact ⟨hagree, fun d v hd hu => finish_ok hagree hd hu⟩

theorem bareDisk_length {l : Loc} (h : bareDisk.node l ≠ none) : l.length ≤ 1 := by
  have hl := (bareDisk.mem_dom l).mpr h
  have hdom : ∀ m ∈ bareDisk.dom, m.length ≤ 1 := by decide
  exact hdom l hl

theorem bareDisk_noVersion {d name : Str} {v : UInt32} :
    ¬ VersionEntry bareDisk (bareDisk.locate "/srv".toList ++ [.utf8 d]) name v := by
  intro h
  have := bareDisk_length h.1
  simp at this

def firstUpload : World :=
  ((World.mk bareStorage bareDisk).serve Crates.simple
    (.changeUploadStatus ⟨"www.a.com".toList, 1, .uploading⟩)).2

theorem markers_firstUpload : MarkersAgree firstUpload :=
  (@markers_run Crates.simple bareDisk "/srv".toList _ bareStorage rfl
    ⟨fun _ _ _ _ _ h => absurd h bareDisk_noVersion, fun _ _ _ h => absurd h bareDisk_noVersion⟩
    firstUpload (Relation.ReflTransGen.single
      ⟨.changeUploadStatus ⟨"www.a.com".toList, 1, .uploading⟩,
        ⟨by change Plain _; decide, trivial⟩, rfl⟩)).1

def strandedUpload : World :=
  (firstUpload.serve Crates.simple (.removeDomainVersion ⟨some "www.a.com".toList, none⟩)).2

/-- The version being uploaded is deleted, and stays recorded. -/
theorem strandedUpload_disagrees :
    ¬ ∀ (dk : Disk) (path : PathBuf) (cache : FileCache) (st : DomainStorage),
      DomainStorage.init Crates.simple dk path cache = .ok st → OneMarker dk path →
      ∀ w, World.Run Crates.simple (fun _ r => r.PlainDomain) ⟨st, dk⟩ w → MarkersAgree w := by
  intro h
  have hrun : World.Run Crates.simple (fun _ r => r.PlainDomain) ⟨bareStorage, bareDisk⟩
      strandedUpload :=
    .head ⟨.changeUploadStatus ⟨"www.a.com".toList, 1, .uploading⟩, by
      show Plain _; decide, rfl⟩
      (.single ⟨.removeDomainVersion ⟨some "www.a.com".toList, none⟩, by
        rintro d ⟨⟩; decide, rfl⟩)
  have hagree := h bareDisk "/srv".toList bareStorage.cache bareStorage rfl
    (fun _ _ _ _ _ he => absurd he bareDisk_noVersion) _ hrun
  obtain ⟨f, hf⟩ := (hagree "www.a.com".toList 1 (by decide)).mp (by decide +kernel)
  have hnone : strandedUpload.disk.node (strandedUpload.markerLoc "www.a.com".toList 1) = none := by
    decide +kernel
  rw [hnone] at hf
  exact absurd hf (by simp)

end SpaServer
