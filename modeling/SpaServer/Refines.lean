import SpaServer.Base.VersionStore
import SpaServer.Site.Stable

/-!
# What the server is for

Behind the maps, the markers and the directories the server is a store of versions: a
domain fills one version at a time, the staged one, and serves the content that another
version had when it was released.  `World.content` reads the versions off the disk, and
`Represents` says which `VersionStore` a world stands for.

`serve_refines`: each request is one event of the store or none (`Causes`), when it names
plain domains and a delete spares the version being uploaded (`Keeps`).  `status_refines`,
`save_refines`, `release_refines` and `delete_refines` are its cases.  `refines_run` is that
for runs from the start of the server.
-/

namespace SpaServer

open Base

variable {crates : Crates}

/-- A domain whose name is one plain directory name. -/
abbrev Domain := {d : Str // Plain d}

/-- The files of a version, by the names that lead to them. -/
abbrev Content := Loc → Option FileData

abbrev Deployed := VersionStore Domain UInt32 Loc FileData

abbrev DeployEvent := VersionStore.Event Domain UInt32 Loc FileData

/-! ### Reading the versions off the disk -/

def Base.Disk.filesBelow (dk : Disk) (l : Loc) : Content := fun t =>
  if t = [.utf8 uploadingFileName] then none
  else (dk.node (l ++ t)).bind fun n => match n with
    | .file f => some f
    | .dir => none

def World.content (w : World) (d : Domain) (v : UInt32) : Option Content :=
  if w.disk.node (w.versionLoc d v) = some .dir then some (w.disk.filesBelow (w.versionLoc d v))
  else none

theorem filesBelow_eq_some {dk : Disk} {l t : Loc} {f : FileData} :
    dk.filesBelow l t = some f ↔
      t ≠ [.utf8 uploadingFileName] ∧ dk.node (l ++ t) = some (.file f) := by
  unfold Disk.filesBelow
  split_ifs with ht
  · simp [ht]
  · cases dk.node (l ++ t) with
    | none => simp [ht]
    | some n => cases n <;> simp [ht]

theorem filesBelow_congr {dk dk' : Disk} {l l' : Loc}
    (h : ∀ t f, t ≠ [.utf8 uploadingFileName] →
      (dk'.node (l' ++ t) = some (.file f) ↔ dk.node (l ++ t) = some (.file f))) :
    dk'.filesBelow l' = dk.filesBelow l := by
  funext t
  refine Option.ext fun f => ?_
  rw [filesBelow_eq_some, filesBelow_eq_some]
  exact and_congr_right fun ht => h t f ht

theorem content_eq_some {w : World} {d : Domain} {v : UInt32} {c : Content} :
    w.content d v = some c ↔ w.disk.node (w.versionLoc d v) = some .dir ∧
      w.disk.filesBelow (w.versionLoc d v) = c := by
  unfold World.content
  split_ifs with h <;> simp [h]

theorem content_congr {w w' : World} (hp : SamePlaces w w') {d : Domain} {v : UInt32}
    (hdir : w'.disk.node (w.versionLoc d v) = some .dir ↔
      w.disk.node (w.versionLoc d v) = some .dir)
    (hfile : ∀ t f, t ≠ [.utf8 uploadingFileName] →
      (w'.disk.node (w.versionLoc d v ++ t) = some (.file f) ↔
        w.disk.node (w.versionLoc d v ++ t) = some (.file f))) :
    w'.content d v = w.content d v := by
  unfold World.content
  rw [hp.versionLoc, filesBelow_congr hfile]
  simp only [hdir]

/-! ### The store a world stands for -/

/-- What is cached for `d` is a version `v` as it was when it held `c`. -/
structure Publishes (crates : Crates) (w : World) (d : Domain) (v : UInt32) (c : Content) :
    Prop where
  serving : w.serving d = some v
  cached : ∃ dk, dk.cwd = w.disk.cwd ∧ dk.node (w.versionLoc d v) = some .dir ∧
    dk.filesBelow (w.versionLoc d v) = c ∧ w.storage.cache.data d =
      some (w.storage.cache.conf.cacheDir crates dk d (getVersionPath w.storage.pathPrefix d v))

structure Represents (crates : Crates) (w : World) (s : Deployed) : Prop where
  content : ∀ d v, s.content d v = w.content d v
  staged : ∀ d, s.staged d = w.storage.uploadingStatus d
  present : ∀ d v, s.staged d = some v → w.content d v ≠ none
  unpublished : ∀ d, s.published d = none → w.serving d = none ∧ w.storage.cache.data d = none
  published : ∀ d v c, s.published d = some (v, c) → Publishes crates w d v c
  plain : ∀ d, w.storage.cache.data d ≠ none → Plain d

/-- Requests for plainly named domains, which delete none of another name and no version being
uploaded. -/
structure Keeps (w : World) (r : AdminRequest) : Prop where
  plain : r.PlainDomain
  spares : ∀ q, r = .removeDomainVersion q → ∀ d v, Targets w q d v →
    Plain d ∧ w.storage.uploadingStatus d ≠ some v

/-- The request deletes no version that is served. -/
def SparesServed (w : World) (r : AdminRequest) : Prop :=
  ∀ q, r = .removeDomainVersion q → ∀ d v, Targets w q d v → w.serving d ≠ some v

inductive Causes (w : World) : AdminRequest → Response → DeployEvent → Prop
  | stage (d : Domain) (v : UInt32) :
      Causes w (.changeUploadStatus ⟨d, v, .uploading⟩) .ok (.stage d v)
  | put (d : Domain) (v : UInt32) {parts : List Part} {data : List UInt8} {path : Str}
      {names : List Str} (t : Nat)
      (hf : formOf parts = ⟨some data, some path, some v, some d.1⟩)
      (hn : sanitizedNames path = some names) :
      Causes w (.uploadFile parts) .ok (.put d v (names.map .utf8) ⟨data, t⟩)
  | commit (d : Domain) (v : UInt32) :
      Causes w (.changeUploadStatus ⟨d, v, .finish⟩) .ok (.commit d v)
  | publish (d : Domain) (v : UInt32) (version : Option UInt32) :
      Causes w (.updateDomainVersion ⟨d, version⟩) (releaseResponse d (.ok v)) (.publish d v)
  | discard (q : DeleteDomainVersionOption) :
      Causes w (.removeDomainVersion q) .ok (.discard {x | Targets w q x.1 x.2})

/-- The store stands still, or one event takes it to `s'`. -/
def Moves (w : World) (s s' : Deployed) (r : AdminRequest) (resp : Response) : Prop :=
  s' = s ∨ ∃ e, VersionStore.Step s e s' ∧ Causes w r resp e

section Refines

variable {w w' : World} {s s' : Deployed}

theorem Publishes.congr {d : Domain} {v : UInt32} {c : Content} (h : Publishes crates w d v c)
    (hp : SamePlaces w w') (hserving : w'.serving d = w.serving d)
    (hcached : w'.storage.cache.data d = w.storage.cache.data d)
    (hconf : w'.storage.cache.conf = w.storage.cache.conf) : Publishes crates w' d v c := by
  obtain ⟨hs, dk, hcwd, hdir, hfiles, hdata⟩ := h
  refine ⟨hserving.trans hs, dk, hcwd.trans hp.cwd.symm, ?_, ?_, ?_⟩
  · rwa [hp.versionLoc]
  · rwa [hp.versionLoc]
  · rw [hcached, hconf, hp.pathPrefix, hdata]

/-- What does not touch what is served only has to account for the versions. -/
theorem Represents.sameServed (h : Represents crates w s) (hp : SamePlaces w w')
    (hmeta : w'.storage.domainMeta = w.storage.domainMeta)
    (hcache : w'.storage.cache = w.storage.cache) (hpub : s'.published = s.published)
    (hcontent : ∀ d v, s'.content d v = w'.content d v)
    (hstaged : ∀ d, s'.staged d = w'.storage.uploadingStatus d)
    (hpresent : ∀ d v, s'.staged d = some v → w'.content d v ≠ none) :
    Represents crates w' s' := by
  refine ⟨hcontent, hstaged, hpresent, fun d hd => ?_, fun d v c hd => ?_,
    by rw [hcache]; exact h.plain⟩
  · rw [hpub] at hd
    obtain ⟨hserving, hdata⟩ := h.unpublished d hd
    exact ⟨(serving_of_meta hmeta d).trans hserving, by rw [hcache, hdata]⟩
  · rw [hpub] at hd
    exact (h.published d v c hd).congr hp (serving_of_meta hmeta d) (by rw [hcache]) (by rw [hcache])

/-- A change of the disk that leaves all versions as they are. -/
theorem Represents.sameContent (h : Represents crates w s) {dk : Disk}
    (hp : SamePlaces w (w.setDisk dk)) (hcontent : ∀ d v, (w.setDisk dk).content d v = w.content d v) :
    Represents crates (w.setDisk dk) s :=
  h.sameServed hp rfl rfl rfl (fun d v => (h.content d v).trans (hcontent d v).symm) h.staged
    fun d v hd => by rw [hcontent]; exact h.present d v hd

/-! ### Starting and ending an upload -/

theorem markerLoc_eq_append {d e : Domain} {v u : UInt32} {t : Loc}
    (h : w.versionLoc e u ++ t = w.markerLoc d v) :
    e = d ∧ u = v ∧ t = [.utf8 uploadingFileName] := by
  obtain ⟨hed, rfl⟩ := w.versionLoc_prefix e.2 d.2 (t := [.utf8 uploadingFileName])
    ((List.prefix_append _ t).trans (by rw [h]; exact List.prefix_refl _))
  obtain rfl := Subtype.ext hed
  exact ⟨rfl, rfl, List.append_cancel_left h⟩

theorem versionLoc_ne_markerLoc {d e : Domain} {v u : UInt32} :
    w.versionLoc e u ≠ w.markerLoc d v := by
  intro h
  obtain ⟨_, _, ht⟩ := markerLoc_eq_append (t := []) ((List.append_nil _).trans h)
  exact absurd ht (by simp)

theorem content_newDirs {dk : Disk} {target : Loc} (hnew : w.disk.NewDirs dk target)
    {d : Domain} {v : UInt32}
    (hdir : w.versionLoc d v <+: target → dk.node (w.versionLoc d v) = w.disk.node (w.versionLoc d v)) :
    (w.setDisk dk).content d v = w.content d v := by
  have hp : SamePlaces w (w.setDisk dk) := ⟨rfl, hnew.1⟩
  refine content_congr hp ?_ fun t f _ => hnew.file_iff
  show dk.node _ = _ ↔ _
  rcases hnew.2 (w.versionLoc d v) with hsame | ⟨_, _, hpre⟩
  · rw [hsame]
  · rw [hdir hpre]

theorem filesBelow_of_none {dk : Disk} {l : Loc} (h : dk.node l = none) :
    dk.filesBelow l = fun _ => none := by
  funext t
  refine Option.eq_none_iff_forall_ne_some.mpr fun f hf => ?_
  have hnode := (filesBelow_eq_some.mp hf).2
  by_cases ht : t = []
  · rw [ht, List.append_nil, h] at hnode
    exact absurd hnode (by simp)
  · rw [dk.node_append_none (by rw [h]; simp) ht] at hnode
    exact absurd hnode (by simp)

theorem status_refines (h : Represents crates w s) {d : Domain} {v : UInt32}
    {st : UploadingStatus} {res : Except StorageError Unit × World}
    (ho : StatusOutcome w d v st res) (hp : SamePlaces w res.2) :
    ∃ s', Moves w s s' (.changeUploadStatus ⟨d, v, st⟩) (resultResponse res.1) ∧
      Represents crates res.2 s' := by
  cases ho with
  | other _ _ => exact ⟨s, Or.inl rfl, h⟩
  | again _ => exact ⟨s, Or.inl rfl, h⟩
  | notMarked _ _ => exact ⟨s, Or.inl rfl, h⟩
  | serving _ _ => exact ⟨s, Or.inl rfl, h⟩
  | @blocked _ dk _ _ hnew hb =>
    refine ⟨s, Or.inl rfl, h.sameContent hp fun e u => content_newDirs hnew fun hpre => ?_⟩
    obtain ⟨hed, rfl⟩ := w.versionLoc_prefix e.2 d.2 (t := []) (by rwa [List.append_nil])
    obtain rfl := Subtype.ext hed
    refine hb.elim id fun hmarker => ?_
    -- a version with a marker is a directory, and was one
    have hdir : w.disk.node (w.versionLoc e u) = some .dir :=
      w.disk.node_prefix (List.prefix_append _ _) versionLoc_ne_markerLoc hmarker
    rcases hnew.2 (w.versionLoc e u) with hsame | ⟨hnone, _⟩
    · exact hsame
    · exact absurd (hdir.symm.trans hnone) (by simp)
  | @finished f hu hm =>
    have hnode : ∀ l, ((w.setDisk (w.disk.removeTree _ (w.markerLoc_ne_nil d v))).setUploading
        (w.storage.uploadingStatus.removeIf d (· == v))).disk.node l =
          if l = w.markerLoc d v then none else w.disk.node l :=
      w.disk.removeTree_file (w.markerLoc_ne_nil d v) (by rw [hm]; simp)
    have hcontent : ∀ e u, ((w.setDisk (w.disk.removeTree _ (w.markerLoc_ne_nil d v))).setUploading
        (w.storage.uploadingStatus.removeIf d (· == v))).content e u = w.content e u := by
      intro e u
      refine content_congr hp (by rw [hnode, if_neg versionLoc_ne_markerLoc]) fun t g ht => ?_
      rw [hnode, if_neg fun he => ht (markerLoc_eq_append he).2.2]
    rcases hu with hu | hu
    · refine ⟨s.setStaged d none, Or.inr ⟨_, .commit ((h.staged d).trans hu), .commit d v⟩,
        h.sameServed hp rfl rfl rfl (fun e u => (h.content e u).trans (hcontent e u).symm)
          (fun e => ?_) fun e u he => ?_⟩
      · show _ = w.storage.uploadingStatus.removeIf d (· == v) e
        by_cases hed : e = d
        · subst hed
          rw [VersionStore.setStaged_self, DashMap.removeIf_self _ hu (by simp)]
        · rw [VersionStore.setStaged_of_ne hed, DashMap.removeIf_of_ne _ fun he => hed (Subtype.ext he)]
          exact h.staged e
      · rw [hcontent]
        by_cases hed : e = d
        · subst hed
          rw [VersionStore.setStaged_self] at he
          exact absurd he (by simp)
        · rw [VersionStore.setStaged_of_ne hed] at he
          exact h.present e u he
    · refine ⟨s, Or.inl rfl, h.sameServed hp rfl rfl rfl
        (fun e u => (h.content e u).trans (hcontent e u).symm) (fun e => ?_)
        fun e u he => by rw [hcontent]; exact h.present e u he⟩
      show _ = w.storage.uploadingStatus.removeIf d (· == v) e
      rw [DashMap.removeIf_none _ hu]
      exact h.staged e
  | @started dk hu hs hnew hv hm =>
    have hnode : ∀ l, l ≠ w.markerLoc d v → (dk.set _ _ hm).node l = dk.node l := fun l hl =>
      dk.set_node_of_ne hm hl
    have hfile : ∀ (e : Domain) u t f, t ≠ [.utf8 uploadingFileName] →
        ((dk.set _ _ hm).node (w.versionLoc e u ++ t) = some (.file f) ↔
          w.disk.node (w.versionLoc e u ++ t) = some (.file f)) := by
      intro e u t f ht
      rw [hnode _ fun he => ht (markerLoc_eq_append he).2.2, hnew.file_iff]
    have hcontent : ((w.setDisk (dk.set _ _ hm)).setUploading
        (w.storage.uploadingStatus.insert d v)).content d v = some (s.held d v) := by
      rw [content_eq_some, hp.versionLoc]
      refine ⟨(hnode _ versionLoc_ne_markerLoc).trans hv, ?_⟩
      show (dk.set _ _ hm).filesBelow _ = _
      rw [filesBelow_congr (hfile d v), VersionStore.held, h.content]
      rcases hnew.2 (w.versionLoc d v) with hsame | ⟨hnone, _⟩
      · rw [World.content, if_pos (hsame.symm.trans hv)]
        rfl
      · rw [World.content, if_neg (by rw [hnone]; simp), filesBelow_of_none hnone]
        rfl
    have hother : ∀ e u, ¬ (e = d ∧ u = v) → ((w.setDisk (dk.set _ _ hm)).setUploading
        (w.storage.uploadingStatus.insert d v)).content e u = w.content e u := by
      intro e u hne
      refine content_congr hp ?_ (hfile e u)
      show (dk.set _ _ hm).node _ = _ ↔ _
      rw [hnode _ versionLoc_ne_markerLoc, hnew.of_not_prefix fun hpre => ?_]
      obtain ⟨hed, hvu⟩ := w.versionLoc_prefix e.2 d.2 (t := []) (by rwa [List.append_nil])
      exact hne ⟨Subtype.ext hed, hvu⟩
    refine ⟨_, Or.inr ⟨_, .stage ((h.staged d).trans hu) fun c hc => ?_, .stage d v⟩,
      h.sameServed hp rfl rfl rfl (fun e u => ?_) (fun e => ?_) fun e u he => ?_⟩
    · exact hs (h.published d v c hc).serving
    · by_cases hne : e = d ∧ u = v
      · obtain ⟨rfl, rfl⟩ := hne
        rw [hcontent, VersionStore.setStaged_content, VersionStore.setContent_self]
      · rw [hother e u hne, VersionStore.setStaged_content, VersionStore.setContent_of_ne hne,
          h.content]
    · show _ = w.storage.uploadingStatus.insert d v e
      by_cases hed : e = d
      · subst hed
        rw [VersionStore.setStaged_self, DashMap.insert_self]
      · rw [VersionStore.setStaged_of_ne hed, DashMap.insert_of_ne _ fun he => hed (Subtype.ext he)]
        exact h.staged e
    · by_cases hne : e = d ∧ u = v
      · obtain ⟨rfl, rfl⟩ := hne
        rw [hcontent]
        simp
      · by_cases hed : e = d
        · subst hed
          rw [VersionStore.setStaged_self] at he
          exact absurd ⟨rfl, (Option.some.inj he).symm⟩ hne
        · rw [VersionStore.setStaged_of_ne hed] at he
          rw [hother e u hne]
          exact h.present e u he

/-! ### Saving a file -/

theorem fileLoc_eq_append {d e : Domain} {v u : UInt32} {names : List Str} {t : Loc}
    (h : w.versionLoc e u ++ t = w.fileLoc d v names) : e = d ∧ u = v ∧ t = names.map .utf8 := by
  obtain ⟨hed, rfl⟩ := w.versionLoc_prefix e.2 d.2 (t := names.map .utf8)
    ((List.prefix_append _ t).trans (by rw [h]; exact List.prefix_refl _))
  obtain rfl := Subtype.ext hed
  exact ⟨rfl, rfl, List.append_cancel_left h⟩

/-- A directory on the way to a file of one version is in the place of no other one. -/
theorem eq_of_onWay {d e : Domain} {v u : UInt32} {names : List Str}
    (h : w.versionLoc e u <+: (w.fileLoc d v names).dropLast) : e = d ∧ u = v := by
  obtain ⟨hed, hvu⟩ := w.versionLoc_prefix e.2 d.2 (t := names.map .utf8)
    (h.trans (List.dropLast_prefix _))
  exact ⟨Subtype.ext hed, hvu⟩

theorem save_refines (h : Represents crates w s) {d : Domain} {v : UInt32} {path : Str}
    {data : List UInt8} {parts : List Part} {res : Except StorageError Unit × World}
    (hf : formOf parts = ⟨some data, some path, some v, some d.1⟩)
    (ho : SaveOutcome w d v path data res) (hp : SamePlaces w res.2) :
    ∃ s', Moves w s s' (.uploadFile parts) (resultResponse res.1) ∧ Represents crates res.2 s' := by
  cases ho with
  | notUploading _ => exact ⟨s, Or.inl rfl, h⟩
  | badPath _ _ => exact ⟨s, Or.inl rfl, h⟩
  | present _ _ _ => exact ⟨s, Or.inl rfl, h⟩
  | @blocked _ names dk hu _ hnew _ =>
    refine ⟨s, Or.inl rfl, h.sameContent hp fun e u => content_newDirs hnew fun hpre => ?_⟩
    obtain ⟨rfl, rfl⟩ := eq_of_onWay hpre
    -- the version that is being uploaded is there, so its directory is not new
    obtain ⟨c, hc⟩ := Option.ne_none_iff_exists'.mp (h.present e u ((h.staged e).trans hu))
    rcases hnew.2 (w.versionLoc e u) with hsame | ⟨hnone, _⟩
    · exact hsame
    · exact absurd ((content_eq_some.mp hc).1.symm.trans hnone) (by simp)
  | @saved names dk t hu hn hne hnode hcwd hself hrest =>
    have hstaged : s.staged d = some v := (h.staged d).trans hu
    obtain ⟨c, hc⟩ := Option.ne_none_iff_exists'.mp (h.present d v hstaged)
    obtain ⟨hdir, hfiles⟩ := content_eq_some.mp hc
    have hplace : ∀ (e : Domain) u, w.versionLoc e u ≠ w.fileLoc d v names := by
      intro e u he
      obtain ⟨_, _, ht⟩ := fileLoc_eq_append (t := []) ((List.append_nil _).trans he)
      exact hne (by simpa using ht.symm)
    have hversions : ∀ (e : Domain) u, ((w.setDisk dk).disk.node (w.versionLoc e u) = some .dir ↔
        w.disk.node (w.versionLoc e u) = some .dir) := by
      intro e u
      show dk.node _ = _ ↔ _
      rcases hrest _ (hplace e u) with hsame | ⟨hnone, _, hpre⟩
      · rw [hsame]
      · obtain ⟨rfl, rfl⟩ := eq_of_onWay hpre
        exact absurd (hdir.symm.trans hnone) (by simp)
    have hothers : ∀ (e : Domain) u q f, ¬ (e = d ∧ u = v ∧ q = names.map .utf8) →
        (dk.node (w.versionLoc e u ++ q) = some (.file f) ↔
          w.disk.node (w.versionLoc e u ++ q) = some (.file f)) := by
      intro e u q f hno
      rcases hrest _ (fun he => hno (fileLoc_eq_append he)) with hsame | ⟨hnone, hmade, _⟩
      · rw [hsame]
      · rw [hnone, hmade]
        simp
    have hsame : ∀ e u, (e = d → u ≠ v) → (w.setDisk dk).content e u = w.content e u :=
      fun e u hno => content_congr hp (hversions e u) fun q f _ =>
        hothers e u q f fun he => hno he.1 he.2.1
    by_cases hmarker : names = [uploadingFileName]
    · -- a file in the place of the marker is no file of the version
      refine ⟨s, Or.inl rfl, h.sameContent hp fun e u => ?_⟩
      refine content_congr hp (hversions e u) fun q f hq => hothers e u q f fun he => hq ?_
      rw [he.2.2, hmarker]
      rfl
    · have hkey : names.map OsName.utf8 ≠ [.utf8 uploadingFileName] := fun he =>
        hmarker (map_utf8_injective he)
      have hfree : c (names.map .utf8) = none := by
        rw [← hfiles, Option.eq_none_iff_forall_ne_some]
        intro f hfile
        exact absurd (hnode.symm.trans (filesBelow_eq_some.mp hfile).2) (by simp)
      have hfilled : (w.setDisk dk).content d v =
          some (VersionStore.fill c (names.map .utf8) ⟨data, t⟩) := by
        refine content_eq_some.mpr ⟨by rw [hp.versionLoc]; exact (hversions d v).mpr hdir, ?_⟩
        rw [hp.versionLoc]
        funext q
        refine Option.ext fun f => ?_
        by_cases hq : q = names.map .utf8
        · rw [hq, VersionStore.fill_self, filesBelow_eq_some]
          show _ ∧ dk.node (w.fileLoc d v names) = _ ↔ _
          rw [hself]
          simp [hkey]
        · rw [VersionStore.fill_of_ne _ _ hq, ← hfiles, filesBelow_eq_some, filesBelow_eq_some]
          exact and_congr_right fun _ => hothers d v q f fun he => hq he.2.2
      refine ⟨_, Or.inr ⟨_, .put hstaged ((h.content d v).trans hc) hfree, .put d v t hf hn⟩,
        h.sameServed hp rfl rfl rfl (fun e u => ?_) h.staged fun e u he => ?_⟩
      · by_cases heq : e = d ∧ u = v
        · obtain ⟨rfl, rfl⟩ := heq
          rw [hfilled, VersionStore.setContent_self]
        · rw [VersionStore.setContent_of_ne heq, hsame e u fun he hu => heq ⟨he, hu⟩, h.content]
      · by_cases heq : e = d ∧ u = v
        · obtain ⟨rfl, rfl⟩ := heq
          rw [hfilled]
          simp
        · rw [hsame e u fun he hu => heq ⟨he, hu⟩]
          exact h.present e u he

/-! ### Releasing and deleting -/

theorem release_refines (h : Represents crates w s) {d : Domain} {version : Option UInt32}
    {res : Except StorageError UInt32 × World} (ho : ReleaseOutcome crates w d version res)
    (hp : SamePlaces w res.2) :
    ∃ s', Moves w s s' (.updateDomainVersion ⟨d, version⟩) (releaseResponse d res.1) ∧
      Represents crates res.2 s' := by
  cases ho with
  | refused => exact ⟨s, Or.inl rfl, h⟩
  | @released v hu hv hversion =>
    have hc : w.content d v = some (w.disk.filesBelow (w.versionLoc d v)) :=
      content_eq_some.mpr ⟨hv, rfl⟩
    refine ⟨_, Or.inr ⟨_, .publish (fun he => hu ((h.staged d).symm.trans he))
      ((h.content d v).trans hc), .publish d v version⟩, h.content, h.staged, h.present,
      fun e he => ?_, fun e u c he => ?_, fun e he => ?_⟩
    · by_cases hed : e = d
      · subst hed
        rw [VersionStore.setPublished_self] at he
        exact absurd he (by simp)
      · rw [VersionStore.setPublished_of_ne hed] at he
        have hne : e.1 ≠ d.1 := fun hval => hed (Subtype.ext hval)
        rw [serving_release, if_neg hne, cache_release, if_neg hne]
        exact h.unpublished e he
    · by_cases hed : e = d
      · subst hed
        rw [VersionStore.setPublished_self] at he
        obtain ⟨rfl, rfl⟩ := Prod.mk.inj (Option.some.inj he)
        exact ⟨by rw [serving_release, if_pos rfl],
          w.disk, rfl, hv, rfl, by rw [cache_release, if_pos rfl]; rfl⟩
      · rw [VersionStore.setPublished_of_ne hed] at he
        have hne : e.1 ≠ d.1 := fun hval => hed (Subtype.ext hval)
        exact (h.published e u c he).congr hp (by rw [serving_release, if_neg hne])
          (by rw [cache_release, if_neg hne]) rfl
    · by_cases hed : e = d
      · rw [hed]
        exact d.2
      · rw [cache_release, if_neg hed] at he
        exact h.plain e he

theorem delete_refines (h : Represents crates w s) {q : DeleteDomainVersionOption}
    (hq : ∀ d v, Targets w q d v → Plain d ∧ w.storage.uploadingStatus d ≠ some v)
    (ho : OnDisk w w' fun r => ∃ d v, Targets w q d v ∧ r = w.versionLoc d v) :
    ∃ s', Moves w s s' (.removeDomainVersion q) .ok ∧ Represents crates w' s' := by
  have hp := ho.samePlaces
  obtain ⟨hstorage, hdisk⟩ := ho
  have hlost : ∀ (d : Domain) v, Targets w q d v → w'.content d v = none := by
    intro d v ht
    by_contra hne
    obtain ⟨c, hc⟩ := Option.ne_none_iff_exists'.mp hne
    have hdir := (content_eq_some.mp hc).1
    rw [hp.versionLoc] at hdir
    rcases hdisk.2 (w.versionLoc d v) with ⟨hnone, _⟩ | ⟨hsame, hno⟩
    · exact absurd (hdir.symm.trans hnone) (by simp)
    · exact hno ⟨_, ⟨d, v, ht, rfl⟩, hsame.symm.trans hdir, List.prefix_refl _⟩
  have hkept : ∀ (d : Domain) v, ¬ Targets w q d v → w'.content d v = w.content d v := by
    intro d v hno
    have hsame : ∀ t, w'.disk.node (w.versionLoc d v ++ t) = w.disk.node (w.versionLoc d v ++ t) := by
      intro t
      rcases hdisk.2 (w.versionLoc d v ++ t) with ⟨_, r, ⟨d', v', ht, rfl⟩, _, hpre⟩ | ⟨hsame, _⟩
      · obtain ⟨rfl, rfl⟩ := w.versionLoc_prefix (hq d' v' ht).1 d.2 hpre
        exact absurd ht hno
      · exact hsame
    refine content_congr hp ?_ fun t f _ => by rw [hsame]
    have hself := hsame []
    rw [List.append_nil] at hself
    rw [hself]
  refine ⟨_, Or.inr ⟨_, .discard, .discard q⟩,
    h.sameServed hp (by rw [hstorage]) (by rw [hstorage]) rfl (fun d v => ?_)
      (fun d => by rw [hstorage]; exact h.staged d) fun d v hd => ?_⟩
  · by_cases ht : Targets w q d v
    · rw [hlost d v ht]
      exact VersionStore.without_of_mem ht
    · rw [hkept d v ht, ← h.content]
      exact VersionStore.without_of_not_mem ht
  · rw [hkept d v fun ht => (hq d v ht).2 ((h.staged d).symm.trans hd)]
    exact h.present d v hd

theorem Represents.apart (h : Represents crates w s) (hserving : ∀ d v, w.serving d = some v →
    w.storage.uploadingStatus d ≠ some v) : s.Apart := fun d v c hpub hstaged =>
  hserving d v (h.published d v c hpub).serving ((h.staged d).symm.trans hstaged)

/-! ### The start of the server -/

/-- The store a world stands for at the start, when what is served has just been cached. -/
def World.deployed (w : World) : Deployed where
  content := fun d v => w.content d v
  staged d := w.storage.uploadingStatus d
  published d := (w.serving d).map fun v => (v, w.disk.filesBelow (w.versionLoc d v))

section Start

variable {dk : Disk} {path : PathBuf} {settings : CacheSettings} {st : DomainStorage}

theorem versionDir_of_entry (htree : WellFormedTree dk st.pathPrefix) {d : Domain} {name : Str}
    {v : UInt32} (h : VersionEntry dk (dk.locate st.pathPrefix ++ [.utf8 d.1]) name v) :
    dk.node ((World.mk st dk).versionLoc d v) = some .dir := by
  obtain ⟨hnode, rfl⟩ := htree.version d name v h
  rw [World.versionLoc_plain _ d.2]
  simpa using hnode

theorem represents_init (hinit : DomainStorage.init crates dk path ⟨settings, .empty⟩ = .ok st)
    (htree : WellFormedTree dk path) : Represents crates ⟨st, dk⟩ (World.deployed ⟨st, dk⟩) := by
  obtain ⟨rfl, hconf, hdirs, hothers⟩ := init_spec hinit
  have hempty : ∀ d, (World.mk st dk).serving d = none → st.cache.data d = none := by
    intro d hd
    rw [init_cache hinit (Option.map_eq_none_iff.mp hd)]
    rfl
  have hnewest : ∀ d v, (World.mk st dk).serving d = some v →
      NewestComplete dk st.pathPrefix d v := fun d v hd => (init_serving hinit d v).mp hd
  refine ⟨fun _ _ => rfl, fun _ => rfl, fun d v hd => ?_, fun d hd => ?_, fun d v c hd => ?_,
    fun d hd => ?_⟩
  · have hd : st.uploadingStatus d = some v := hd
    by_cases hdom : DomainDir dk st.pathPrefix d
    · obtain ⟨hholds, hfound⟩ := hdirs d hdom
      obtain ⟨name, hentry, _⟩ := hfound.uploading v (hholds.1.symm.trans hd)
      rw [World.content, if_pos (versionDir_of_entry htree hentry)]
      simp
    · rw [(hothers d hdom).1] at hd
      exact absurd hd (by simp)
  · have hserving := Option.map_eq_none_iff.mp hd
    exact ⟨hserving, hempty d hserving⟩
  · obtain ⟨u, hserving, he⟩ := Option.map_eq_some_iff.mp hd
    obtain ⟨rfl, rfl⟩ := Prod.mk.inj he
    obtain ⟨name, hentry, _⟩ := (hnewest d u hserving).entry
    refine ⟨hserving, dk, rfl, versionDir_of_entry htree hentry, rfl, ?_⟩
    rw [hconf]
    exact (init_newest hinit (hnewest d u hserving)).2
  · cases hserving : (World.mk st dk).serving d with
    | none => exact absurd (hempty d hserving) hd
    | some v => exact plain_of_entry (by rw [(hnewest d v hserving).dir.1]; simp)

theorem apart_init (hinit : DomainStorage.init crates dk path ⟨settings, .empty⟩ = .ok st)
    (htree : WellFormedTree dk path) : (World.deployed ⟨st, dk⟩).Apart :=
  (represents_init hinit htree).apart (Site.servesApart_init hinit htree).apart

theorem current_init (hinit : DomainStorage.init crates dk path ⟨settings, .empty⟩ = .ok st)
    (htree : WellFormedTree dk path) : (World.deployed ⟨st, dk⟩).Current := by
  intro d v c hpub
  obtain ⟨u, hserving, he⟩ := Option.map_eq_some_iff.mp hpub
  obtain ⟨rfl, rfl⟩ := Prod.mk.inj he
  obtain ⟨rfl, _⟩ := init_spec hinit
  obtain ⟨name, hentry, _⟩ := ((init_serving hinit d u).mp hserving).entry
  exact content_eq_some.mpr ⟨versionDir_of_entry htree hentry, rfl⟩

end Start

/-! ### Requests, and runs of them -/

/-- **Each request is one event of the store, or none.** -/
theorem serve_refines (h : Represents crates w s) {r : AdminRequest} (hr : Keeps w r) :
    ∃ s', Moves w s s' r (w.serve crates r).1 ∧ Represents crates (w.serve crates r).2 s' := by
  have ho := @serve_outcome crates w r
  have hp := @serve_samePlaces crates w r
  generalize w.serve crates r = res at ho hp ⊢
  cases ho with
  | looks _ => exact ⟨s, Or.inl rfl, h⟩
  | badForm _ => exact ⟨s, Or.inl rfl, h⟩
  | @save parts d path v data res hf ho =>
    have hd : Plain d := hr.plain d (by rw [hf]; rfl)
    exact save_refines (d := ⟨d, hd⟩) h hf ho hp
  | @status param res ho => exact status_refines (d := ⟨param.domain, hr.plain⟩) h ho hp
  | @release option res ho => exact release_refines (d := ⟨option.domain, hr.plain⟩) h ho hp
  | delete ho => exact delete_refines h (hr.spares _ rfl) ho

theorem serve_conf (w : World) (r : AdminRequest) :
    (w.serve crates r).2.storage.cache.conf = w.storage.cache.conf :=
  run_eq (fun w => w.storage.cache.conf) (fun op w => by cases op <;> rfl) _ w

theorem Causes.spares (h : Represents crates w s) {r : AdminRequest} {resp : Response}
    {e : DeployEvent} (hc : Causes w r resp e) (hr : SparesServed w r) : e.Spares s := by
  cases hc with
  | discard q => exact fun d v c hpub ht => hr q rfl d v ht (h.published d v c hpub).serving
  | _ => trivial

end Refines

/-! ### Runs -/

/-- A run of requests that `ok` allows, with their responses, the last in front, beside the
store that it stands for. -/
inductive Beside (crates : Crates) (ok : World → AdminRequest → Prop) (w₀ : World)
    (s₀ : Deployed) : List (AdminRequest × Response) → World → Deployed → Prop
  | start (h : Represents crates w₀ s₀) : Beside crates ok w₀ s₀ [] w₀ s₀
  | serve {log : List (AdminRequest × Response)} {w : World} {s s' : Deployed} {r : AdminRequest}
      (h : Beside crates ok w₀ s₀ log w s) (hr : ok w r)
      (hm : Moves w s s' r (w.serve crates r).1)
      (h' : Represents crates (w.serve crates r).2 s') :
      Beside crates ok w₀ s₀ ((r, (w.serve crates r).1) :: log) (w.serve crates r).2 s'

def Logs (log : List (AdminRequest × Response)) (e : DeployEvent) : Prop :=
  ∃ w r resp, (r, resp) ∈ log ∧ Causes w r resp e

theorem Logs.cons {log : List (AdminRequest × Response)} {e : DeployEvent} (h : Logs log e)
    (x : AdminRequest × Response) : Logs (x :: log) e := by
  obtain ⟨w, r, resp, hmem, hcauses⟩ := h
  exact ⟨w, r, resp, List.mem_cons_of_mem _ hmem, hcauses⟩

section Run

variable {ok : World → AdminRequest → Prop} {w₀ w : World} {s₀ s : Deployed}
  {log : List (AdminRequest × Response)}

theorem Beside.represents (h : Beside crates ok w₀ s₀ log w s) : Represents crates w s := by
  cases h with
  | start h => exact h
  | serve _ _ _ h' => exact h'

theorem Beside.allowed (h : Beside crates ok w₀ s₀ log w s) : ∀ x ∈ log, ∃ w, ok w x.1 := by
  induction h with
  | start => simp
  | @serve _ w _ _ _ _ hr _ _ ih => exact List.forall_mem_cons.mpr ⟨⟨w, hr⟩, ih⟩

/-- The run of the store: its events stand for requests, and spare what is served if the
requests do. -/
theorem Beside.run (h : Beside crates ok w₀ s₀ log w s) :
    ∃ events, VersionStore.Run (fun s e => (∀ w r, ok w r → SparesServed w r) → e.Spares s) s₀
      events s ∧ ∀ e ∈ events, Logs log e := by
  induction h with
  | start => exact ⟨[], .start, by simp⟩
  | @serve log w s s' r hbefore hr hmoves _ ih =>
    obtain ⟨events, hrun, hlogs⟩ := ih
    rcases hmoves with rfl | ⟨e, hstep, hcauses⟩
    · exact ⟨events, hrun, fun e he => (hlogs e he).cons _⟩
    · refine ⟨e :: events, hrun.step
        (fun hok => hcauses.spares hbefore.represents (hok _ _ hr)) hstep, fun e' he' => ?_⟩
      rcases List.mem_cons.mp he' with rfl | he'
      · exact ⟨w, r, _, List.mem_cons_self, hcauses⟩
      · exact (hlogs e' he').cons _

theorem exists_beside (hok : ∀ w r, ok w r → Keeps w r) (h₀ : Represents crates w₀ s₀)
    (hrun : World.Logged crates ok w₀ log w) : ∃ s, Beside crates ok w₀ s₀ log w s := by
  induction hrun with
  | start => exact ⟨s₀, .start h₀⟩
  | serve _ r hr ih =>
    obtain ⟨s, hbeside⟩ := ih
    obtain ⟨s', hmoves, h'⟩ := serve_refines hbeside.represents (hok _ r hr)
    exact ⟨s', hbeside.serve hr hmoves h'⟩

end Run

theorem settled_run {ok : World → AdminRequest → Prop} {w₀ w : World}
    (hrun : World.Run crates ok w₀ w) :
    SamePlaces w₀ w ∧ w.storage.cache.conf = w₀.storage.cache.conf := by
  induction hrun with
  | refl => exact ⟨⟨rfl, rfl⟩, rfl⟩
  | @tail w _ _ hstep ih =>
    obtain ⟨r, _, rfl⟩ := hstep
    have hp := @serve_samePlaces crates w r
    exact ⟨⟨hp.pathPrefix.trans ih.1.pathPrefix, hp.cwd.trans ih.1.cwd⟩,
      (serve_conf w r).trans ih.2⟩

/-- **The server is a store of versions.**  In every run of requests from the start of the
server that name plain domains and delete no version being uploaded, the world stands for a
store that events of these requests lead to, each as its request was answered, and no version
is both published and staged. -/
theorem refines_run {dk : Disk} {path : PathBuf} {settings : CacheSettings} {st : DomainStorage}
    (hinit : DomainStorage.init crates dk path ⟨settings, .empty⟩ = .ok st)
    (htree : WellFormedTree dk path) {log : List (AdminRequest × Response)} {w : World}
    (hrun : World.Logged crates Keeps ⟨st, dk⟩ log w) :
    ∃ s, Beside crates Keeps ⟨st, dk⟩ (World.deployed ⟨st, dk⟩) log w s ∧ s.Apart := by
  obtain ⟨s, hbeside⟩ := exists_beside (fun _ _ h => h) (represents_init hinit htree) hrun
  obtain ⟨events, hevents, _⟩ := hbeside.run
  exact ⟨s, hbeside, hevents.apart (apart_init hinit htree)⟩

theorem wellFormedTree_letterDisk : WellFormedTree Site.letterDisk "/srv".toList :=
  @Site.wellFormedTree_one _ _ "www.a.com".toList 1 (by decide +kernel) (by decide +kernel)

def secondRelease : List AdminRequest :=
  [.changeUploadStatus ⟨"www.a.com".toList, 2, .uploading⟩,
    putFile "2" "index.html" [97, 98], .changeUploadStatus ⟨"www.a.com".toList, 2, .finish⟩,
    .updateDomainVersion ⟨"www.a.com".toList, some 2⟩]

theorem plainDomain_secondRelease : ∀ r ∈ secondRelease,
    r.PlainDomain ∧ ∀ q, r ≠ .removeDomainVersion q := by
  have hplain : Plain "www.a.com".toList := by decide
  refine List.forall_mem_cons.mpr ⟨⟨hplain, nofun⟩, List.forall_mem_cons.mpr ⟨⟨?_, nofun⟩,
    List.forall_mem_cons.mpr ⟨⟨hplain, nofun⟩, List.forall_mem_singleton.mpr ⟨hplain, nofun⟩⟩⟩⟩
  show ∀ d ∈ some "www.a.com".toList, Plain d
  exact fun d hd => Option.some.inj hd ▸ hplain

theorem keeps_secondRelease (w : World) : ∀ r ∈ secondRelease, Keeps w r := fun r hr =>
  ⟨(plainDomain_secondRelease r hr).1, fun q hq => absurd hq ((plainDomain_secondRelease r hr).2 q)⟩

theorem sparesServed_secondRelease (w : World) : ∀ r ∈ secondRelease, SparesServed w r :=
  fun r hr q hq => absurd hq ((plainDomain_secondRelease r hr).2 q)

/-- The server with one page, and what these requests come to on it. -/
def letterWorld : World := ⟨Site.storageOn Site.letterDisk, Site.letterDisk⟩

def secondReleased : List (AdminRequest × Response) × World :=
  letterWorld.serveAll Crates.simple secondRelease

/-- All four are answered with 200, and the store publishes version 2. -/
theorem refines_run_released : secondReleased.1.map (·.2.status) = [200, 200, 200, 200] ∧
    secondReleased.2.serving "www.a.com".toList = some 2 ∧
    ∃ s, Beside Crates.simple Keeps letterWorld letterWorld.deployed secondReleased.1
      secondReleased.2 s ∧ s.Apart :=
  ⟨by decide +kernel, by decide +kernel,
    refines_run (Site.init_storageOn (by decide +kernel)) wellFormedTree_letterDisk
      (World.logged_serveAll _ _ keeps_secondRelease)⟩

end SpaServer
