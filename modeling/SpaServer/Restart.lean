import SpaServer.Position
import SpaServer.Scan

/-!
# Releasing the newest version, and restarting

`upload_domain_with_version` without a version takes the greatest number that it finds in
the directory of the domain, markers or not; `init` takes the greatest above 0 without a
marker, of the directories that it takes for domains.  `release_restarts_iff` says when a
restart after such a release makes the same choice.
-/

namespace SpaServer

open Base Program

variable {crates : Crates}

/-- A storage made from the disk as it stands serves version `v` of `d` from the same files,
and has the same upload recorded. -/
def Restarts (crates : Crates) (w : World) (d : Str) (v : UInt32) : Prop :=
  ∃ st, DomainStorage.init crates w.disk w.storage.pathPrefix ⟨w.storage.cache.conf, .empty⟩ =
      .ok st ∧
    (st.domainMeta d).map (·.2) = some v ∧ st.cache.data d = w.storage.cache.data d ∧
    st.uploadingStatus d = w.storage.uploadingStatus d

/-- What a release of the newest version needs for a restart to make the same choice. -/
structure RestartsAlike (w : World) (d : Str) : Prop where
  names : ∀ c, w.disk.node (w.disk.locate w.storage.pathPrefix ++ [c]) ≠ none → ∃ s, c = .utf8 s
  dir : DomainDir w.disk w.storage.pathPrefix d
  pos : 0 < w.newest d
  unmarked : ∃ name,
    VersionEntry w.disk (w.disk.locate w.storage.pathPrefix ++ [.utf8 d]) name (w.newest d) ∧
      ¬ Marked w.disk (w.disk.locate w.storage.pathPrefix ++ [.utf8 d]) name
  uploading : w.storage.uploadingStatus d = lastMarked w.disk (push w.storage.pathPrefix d)

theorem release_newest {w : World} {d : Str} {v : UInt32} {w' : World}
    (h : (uploadDomainWithVersion w.storage.pathPrefix d none).run (meaning crates) w =
      (.ok v, w')) : v = w.newest d ∧ w' = w.release crates d v := by
  have houtcome := @uploadDomainWithVersion_outcome crates w d none
  rw [h] at houtcome
  cases houtcome with
  | released _ _ hversion =>
    rcases hversion with hv | ⟨_, hmax⟩
    · exact absurd hv nofun
    · refine ⟨?_, rfl⟩
      unfold World.newest
      rw [hmax]
      rfl

theorem newestComplete_iff {w : World} {d : Str} :
    NewestComplete w.disk w.storage.pathPrefix d (w.newest d) ↔
      DomainDir w.disk w.storage.pathPrefix d ∧ 0 < w.newest d ∧ ∃ name,
        VersionEntry w.disk (w.disk.locate w.storage.pathPrefix ++ [.utf8 d]) name (w.newest d) ∧
          ¬ Marked w.disk (w.disk.locate w.storage.pathPrefix ++ [.utf8 d]) name := by
  constructor
  · exact fun h => ⟨h.dir, h.pos, h.entry⟩
  · rintro ⟨hdir, hpos, hentry⟩
    refine ⟨hdir, hpos, hentry, fun name u hent _ => ?_⟩
    have hplain : Plain d := plain_of_entry (by rw [hdir.1]; exact nofun)
    rw [← w.domainLoc_plain hplain] at hent
    exact le_newest hent

/-- **A restart after a release of the newest version makes the same choice exactly when**
`init` goes through, takes the directory for a domain, finds the number above 0 without a
marker, and finds the last marker where an upload is recorded. -/
theorem release_restarts_iff {w w' : World} {d : Str} {v : UInt32}
    (h : (uploadDomainWithVersion w.storage.pathPrefix d none).run (meaning crates) w =
      (.ok v, w')) : Restarts crates w' d v ↔ RestartsAlike w d := by
  obtain ⟨rfl, rfl⟩ := release_newest h
  have hcache : (w.release crates d (w.newest d)).storage.cache.data d =
      some (w.storage.cache.conf.cacheDir crates w.disk d
        (getVersionPath w.storage.pathPrefix d (w.newest d))) := by
    rw [cache_release, if_pos rfl]
  constructor
  · rintro ⟨st, hinit, hserving, _, huploading⟩
    have hnewest := (init_serving hinit d _).mp hserving
    exact ⟨(init_ok_iff _ (isDir_of_init hinit)).mp ⟨st, hinit⟩, hnewest.dir, hnewest.pos, hnewest.entry,
      huploading.symm.trans (init_uploading hinit hnewest.dir).1⟩
  · intro halike
    have hclosed := w.disk.closed (w.disk.locate w.storage.pathPrefix ++ [.utf8 d]) (by simp)
      (by rw [halike.dir.1]; exact nofun)
    rw [List.dropLast_concat] at hclosed
    have hdir : w.disk.isDir w.storage.pathPrefix = true :=
      decide_eq_true (Disk.find_of_dir w.storage.prefixNe hclosed)
    obtain ⟨st, hinit⟩ := (@init_ok_iff crates _ _ ⟨w.storage.cache.conf, .empty⟩ hdir).mpr
      halike.names
    have hnewest := newestComplete_iff.mpr ⟨halike.dir, halike.pos, halike.unmarked⟩
    obtain ⟨hmeta, hdata⟩ := init_newest hinit hnewest
    refine ⟨st, hinit, by rw [hmeta]; rfl, ?_, ?_⟩
    · rw [hdata, hcache]
    · exact (init_uploading hinit halike.dir).1.trans halike.uploading.symm

def twoUploaded : World :=
  ((World.mk bareStorage bareDisk).serveAll Crates.simple
    [.changeUploadStatus ⟨"www.a.com".toList, 1, .uploading⟩, putFile "1" "index.html" [1],
      .changeUploadStatus ⟨"www.a.com".toList, 1, .finish⟩,
      .changeUploadStatus ⟨"www.a.com".toList, 2, .uploading⟩, putFile "2" "index.html" [2],
      putFile "2" "js/app.js" [3, 4], .changeUploadStatus ⟨"www.a.com".toList, 2, .finish⟩]).2

theorem twoUploaded_restartsAlike : RestartsAlike twoUploaded "www.a.com".toList where
  names c hc := by
    have hnames : ∀ l ∈ twoUploaded.disk.dom, ∀ c ∈ l, c.toStr.isSome = true := by
      decide +kernel
    have htext := hnames _ ((twoUploaded.disk.mem_dom _).mpr hc) c (by simp)
    obtain ⟨s, hs⟩ := Option.isSome_iff_exists.mp htext
    exact ⟨s, OsName.toStr_eq_some.mp hs⟩
  dir := by
    unfold DomainDir
    decide +kernel
  pos := by decide +kernel
  unmarked := by
    refine ⟨"2".toList, ?_⟩
    unfold VersionEntry Marked
    decide +kernel
  uploading := by decide +kernel

/-- The second is released, and served again after a restart. -/
theorem release_restarts_second : Restarts Crates.simple
    ((uploadDomainWithVersion twoUploaded.storage.pathPrefix "www.a.com".toList none).run
      (meaning Crates.simple) twoUploaded).2 "www.a.com".toList 2 := by
  have hok : ((uploadDomainWithVersion twoUploaded.storage.pathPrefix "www.a.com".toList none).run
      (meaning Crates.simple) twoUploaded).1 = .ok 2 := by
    decide +kernel
  refine (release_restarts_iff ?_).mpr twoUploaded_restartsAlike
  rw [← hok]

def versionZero : World :=
  ((World.mk bareStorage bareDisk).serveAll Crates.simple
    [.changeUploadStatus ⟨"www.a.com".toList, 0, .uploading⟩,
      .changeUploadStatus ⟨"www.a.com".toList, 0, .finish⟩]).2

/-- Version 0 is released and not served after a restart. -/
theorem zero_not_restarted : ¬ ∀ (dk : Disk) (path : PathBuf) (cache : FileCache)
    (st : DomainStorage) (w w' : World) (d : Str) (v : UInt32),
    DomainStorage.init Crates.simple dk path cache = .ok st →
    World.Run Crates.simple (fun _ _ => True) ⟨st, dk⟩ w →
    (uploadDomainWithVersion w.storage.pathPrefix d none).run (meaning Crates.simple) w =
      (.ok v, w') → Restarts Crates.simple w' d v := by
  intro hall
  rcases hres : (uploadDomainWithVersion versionZero.storage.pathPrefix "www.a.com".toList none).run
    (meaning Crates.simple) versionZero with ⟨res, w'⟩
  have hzero : ((uploadDomainWithVersion versionZero.storage.pathPrefix "www.a.com".toList none).run
      (meaning Crates.simple) versionZero).1 = .ok 0 := by
    decide +kernel
  rw [hres] at hzero
  obtain rfl : res = .ok 0 := hzero
  obtain ⟨st, hinit, hserving, _⟩ := hall bareDisk "/srv".toList bareStorage.cache bareStorage
    versionZero w' "www.a.com".toList 0 rfl (World.logged_serveAll _ _ fun _ _ _ => trivial).run hres
  exact absurd ((init_serving hinit _ _).mp hserving).pos (by decide)

end SpaServer
