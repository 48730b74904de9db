import SpaServer.Serve
import SpaServer.Storage.Init

/-!
# The next upload position

`get_upload_position` finds the next version of a domain on the disk, while
`update_uploading_status` decides from the maps whether a version can be uploaded.  The
two go wrong together where a version is served that the disk has lost, and where the
next number does not fit into a `u32`.

`position_eq` is what the answer is computed from and `accepts_iff` when an upload is not
refused; `position_sound_iff` puts them together.
-/

namespace SpaServer

open Base Program

variable {crates : Crates}

/-! ### The answer -/

def World.position (crates : Crates) (w : World) (d : Str) : UploadDomainPosition :=
  ((getUploadPosition w.storage.pathPrefix d).run (meaning crates) w).1

def World.newest (w : World) (d : Str) : UInt32 :=
  (listedVersions w.disk (push w.storage.pathPrefix d)).max?.getD 0

theorem position_recorded {w : World} {d : Str} {v : UInt32}
    (h : w.storage.uploadingStatus d = some v) :
    w.position crates d = ⟨getVersionPath w.storage.pathPrefix d v, v, .inUploading⟩ := by
  unfold World.position getUploadPosition
  simp only [perform_bind, run_call, meaning, h, pure_eq, run_ret]

/-- With no upload recorded the answer is the version after the newest one. -/
theorem position_eq {w : World} {d : Str} (h : w.storage.uploadingStatus d = none) :
    (w.position crates d).version = w.newest d + 1 ∧
      (w.position crates d).status ≠ .inUploading := by
  unfold World.position getUploadPosition World.newest
  simp only [perform_bind, run_call, meaning, h, run_bind, getDomainInfoByDomain_run]
  cases listedVersions w.disk (push w.storage.pathPrefix d) with
  | nil => exact ⟨rfl, fun h => by cases h⟩
  | cons v vs => exact ⟨rfl, fun h => by cases h⟩

theorem le_newest {w : World} {d name : Str} {v : UInt32}
    (h : VersionEntry w.disk (w.domainLoc d) name v) : v ≤ w.newest d := by
  have hmem : v ∈ listedVersions w.disk (push w.storage.pathPrefix d) :=
    mem_listedVersions_of_entry (w.domainPath_ne_nil d) h.1 h.2
  unfold World.newest
  cases hmax : (listedVersions w.disk (push w.storage.pathPrefix d)).max? with
  | none => rw [List.max?_eq_none_iff.mp hmax] at hmem; exact absurd hmem List.not_mem_nil
  | some m => exact (List.max?_le_iff hmax).mp (UInt32.le_refl m) v hmem

/-! ### Starting the upload -/

/-- `update_uploading_status` takes the version for an upload, when the calls to the file
system succeed. -/
def Accepts (crates : Crates) (w : World) (d : Str) (v : UInt32) : Prop :=
  ∀ e, ((updateUploadingStatus w.storage.pathPrefix d v .uploading).run (meaning crates) w).1 =
    .error e → ∃ io, e = .io io

theorem accepts_iff {w : World} {d : Str} {v : UInt32} :
    Accepts crates w d v ↔ w.storage.uploadingStatus d = some v ∨
      w.storage.uploadingStatus d = none ∧ w.serving d ≠ some v := by
  have h := @updateUploadingStatus_outcome crates w d v .uploading
  unfold Accepts
  generalize (updateUploadingStatus w.storage.pathPrefix d v .uploading).run (meaning crates) w =
    res at h ⊢
  cases h with
  | @other _ u hu hne =>
    constructor
    · intro hall
      obtain ⟨io, hio⟩ := hall _ rfl
      exact absurd hio nofun
    · rintro (hu' | ⟨hu', _⟩)
      · exact absurd (Option.some.inj (hu.symm.trans hu')) hne
      · exact absurd (hu.symm.trans hu') nofun
  | again hu => exact ⟨fun _ => Or.inl hu, fun _ => nofun⟩
  | serving hu hs =>
    constructor
    · intro hall
      obtain ⟨io, hio⟩ := hall _ rfl
      exact absurd hio nofun
    · rintro (hu' | ⟨_, hs'⟩)
      · exact absurd (hu.symm.trans hu') nofun
      · exact absurd hs hs'
  | blocked hu hs =>
    exact ⟨fun _ => Or.inr ⟨hu, hs⟩, fun _ e he => ⟨_, (Except.error.inj he).symm⟩⟩
  | started hu hs => exact ⟨fun _ => Or.inr ⟨hu, hs⟩, fun _ => nofun⟩

/-! ### The answer can be used -/

/-- What a client relies on when it takes the position it is given. -/
structure PositionSound (crates : Crates) (w : World) (d : Str) : Prop where
  accepted : Accepts crates w d (w.position crates d).version
  recorded : (w.position crates d).status = .inUploading →
    w.storage.uploadingStatus d = some (w.position crates d).version
  absent : (w.position crates d).status ≠ .inUploading →
    w.disk.node (w.versionLoc d (w.position crates d).version) = none
  greater : (w.position crates d).status ≠ .inUploading →
    ∀ name v, VersionEntry w.disk (w.domainLoc d) name v → v < (w.position crates d).version
  noOverflow : (w.position crates d).status ≠ .inUploading →
    (w.position crates d).version.toNat = (w.newest d).toNat + 1

/-- There is a version to upload: one is recorded, or the next number is a `u32` that is
not served. -/
def HasNext (w : World) (d : Str) : Prop :=
  w.storage.uploadingStatus d ≠ none ∨
    (w.newest d ≠ 4294967295 ∧ w.serving d ≠ some (w.newest d + 1))

theorem toNat_succ_iff {v : UInt32} : (v + 1).toNat = v.toNat + 1 ↔ v ≠ 4294967295 := by
  have hlt := v.toNat_lt
  rw [UInt32.toNat_add, ne_eq, ← UInt32.toNat_inj]
  simp only [UInt32.reduceToNat]
  omega

/-- **The position can be used exactly when there is a version to upload**, for every
domain string and every state of the storage and of the disk. -/
theorem position_sound_iff (w : World) (d : Str) :
    PositionSound crates w d ↔ HasNext w d := by
  unfold HasNext
  cases hu : w.storage.uploadingStatus d with
  | some v =>
    have hpos := @position_recorded crates w d v hu
    refine ⟨fun _ => Or.inl nofun, fun _ => ⟨?_, fun _ => ?_, ?_, ?_, ?_⟩⟩
    · rw [hpos]
      exact accepts_iff.mpr (Or.inl hu)
    · rw [hpos, hu]
    all_goals
      intro h
      rw [hpos] at h
      exact absurd rfl h
  | none =>
  obtain ⟨hversion, hstatus⟩ := @position_eq crates w d hu
  constructor
  · intro h
    have hfit := h.noOverflow hstatus
    rw [hversion] at hfit
    refine Or.inr ⟨toNat_succ_iff.mp hfit, ?_⟩
    have haccepted := h.accepted
    rw [hversion, accepts_iff, hu] at haccepted
    exact haccepted.elim nofun And.right
  · rintro (h | ⟨hfit, hserving⟩)
    · exact absurd rfl h
    have hnext := toNat_succ_iff.mpr hfit
    have hgreater : ∀ name v, VersionEntry w.disk (w.domainLoc d) name v →
        v < w.newest d + 1 := by
      intro name v hv
      have hle := UInt32.le_iff_toNat_le.mp (le_newest hv)
      rw [UInt32.lt_iff_toNat_lt]
      omega
    refine ⟨?_, fun h => absurd h hstatus, fun _ => ?_, fun _ => ?_, fun _ => ?_⟩
    · rw [hversion]
      exact accepts_iff.mpr (Or.inr ⟨hu, hserving⟩)
    · rw [hversion]
      by_contra hn
      have hlt := hgreater _ _ ⟨hn, parseU32_toDecimal _⟩
      exact absurd hlt (UInt32.lt_irrefl _)
    · rw [hversion]
      exact hgreater
    · rw [hversion]
      exact hnext

/-- The last version there is, uploaded by a client that has chosen it. -/
def lastVersion : World :=
  (((World.mk bareStorage bareDisk).serve Crates.simple
    (.changeUploadStatus ⟨"www.a.com".toList, 4294967295, .uploading⟩)).2.serve Crates.simple
    (.changeUploadStatus ⟨"www.a.com".toList, 4294967295, .finish⟩)).2

/-- After the last version the position is 0. -/
theorem position_wraps : ¬ ∀ (dk : Disk) (path : PathBuf) (cache : FileCache)
    (st : DomainStorage) (w : World) (d : Str),
    DomainStorage.init Crates.simple dk path cache = .ok st →
    World.Run Crates.simple (fun _ _ => True) ⟨st, dk⟩ w → Plain d →
    PositionSound Crates.simple w d := by
  intro h
  have hrun : World.Run Crates.simple (fun _ _ => True) ⟨bareStorage, bareDisk⟩ lastVersion :=
    .head ⟨.changeUploadStatus ⟨"www.a.com".toList, 4294967295, .uploading⟩, trivial, rfl⟩
      (.single ⟨.changeUploadStatus ⟨"www.a.com".toList, 4294967295, .finish⟩, trivial, rfl⟩)
  have hsound := h bareDisk "/srv".toList bareStorage.cache bareStorage lastVersion
    "www.a.com".toList rfl hrun (by decide)
  have hfit := hsound.noOverflow (by decide +kernel)
  exact absurd hfit (by decide +kernel)

end SpaServer
