import SpaServer.Markers

/-!
# Saving over a file

A save that is answered with success should have put the given data into the file, and
a later save to the same path, of the same or of other data, should replace it.
`save_file` makes a missing file with `File::create`, but opens one that is there with
`File::open`, which only reads: nothing can be written over it but the empty data,
which `write_all` does not write.

* `saveFile_writes`: a save reaches `writeFile`, or a file stands where a directory
  should be.
* `save_found`, `save_missing`: what is answered when the path leads to something, and
  when it does not.
* `overwrites_present`: over a file that was just saved, only saves that change nothing
  succeed.
* `saves_overwrite_iff`: when a successful save and all later ones to its path leave what
  they were given.
-/

namespace SpaServer

open Base Program

variable {crates : Crates}

def World.save (crates : Crates) (w : World) (d : Str) (v : UInt32) (path : Str)
    (data : List UInt8) : Except StorageError Unit × World :=
  (saveFile w.storage.pathPrefix d v path data).run (meaning crates) w

/-- In `w'` the path `p` leads to a file with this data; every other file is as in `w`. -/
structure Leaves (w w' : World) (p : PathBuf) (data : List UInt8) : Prop where
  target : ∃ t, w'.disk.find p = some (.file ⟨data, t⟩)
  others : ∀ l, l ≠ w.disk.locate p → ∀ f,
    w'.disk.node l = some (.file f) ↔ w.disk.node l = some (.file f)

/-- The saves to `path`, one after the other, succeed, and each leaves its data. -/
def Overwrites (crates : Crates) (d : Str) (v : UInt32) (path : Str) (p : PathBuf) :
    World → List (List UInt8) → Prop
  | _, [] => True
  | w, data :: more => (w.save crates d v path data).1 = .ok () ∧
      Leaves w (w.save crates d v path data).2 p data ∧
      Overwrites crates d v path p (w.save crates d v path data).2 more

/-- If the save of `data` succeeds it leaves its data, and so do the saves of `more`
that follow it. -/
def SavesOverwrite (crates : Crates) (w : World) (d : Str) (v : UInt32) (path : Str) (p : PathBuf)
    (data : List UInt8) (more : List (List UInt8)) : Prop :=
  (w.save crates d v path data).1 = .ok () →
    Leaves w (w.save crates d v path data).2 p data ∧
    Overwrites crates d v path p (w.save crates d v path data).2 more

def FileOnWay (dk : Disk) (p : PathBuf) : Prop :=
  ∃ l f, l <+: (dk.locate p).dropLast ∧ dk.node l = some (.file f)

/-- The saves are of one kind that `save_file` treats as it should: the first makes the
file and is the last, or cannot succeed, or no byte is ever written. -/
structure OverwriteSafe (dk : Disk) (p : PathBuf) (data : List UInt8) (more : List (List UInt8)) :
    Prop where
  missing : dk.find p = none →
    mustBeDir p = true ∨ FileOnWay dk p ∨ more = [] ∨ ∀ x ∈ data :: more, x = []
  dir : dk.find p = some .dir → data ≠ []
  file : ∀ f, dk.find p = some (.file f) → data ≠ [] ∨ f.bytes = [] ∧ ∀ x ∈ more, x = []

/-! ### One save -/

section Save

variable {w : World} {d : Str} {v : UInt32} {path : Str} {p : PathBuf}
  {data : List UInt8}

theorem not_fileOnWay {dk : Disk} {p : PathBuf} {n : Node} (h : dk.find p = some n)
    (hroot : dk.locate p ≠ []) : ¬ FileOnWay dk p := by
  rintro ⟨l, f, hl, hf⟩
  have hnone : dk.node (dk.locate p) ≠ none := fun hn => by
    rw [Disk.find_eq_none hn] at h
    exact absurd h (by simp)
  rw [dk.node_onWay hl hroot hnone] at hf
  exact absurd hf (by simp)

/-- **A save ends in `writeFile`, on a disk on which the path leads where it did.**  Only a
file where a directory should be stops it before. -/
theorem saveFile_writes (hu : w.storage.uploadingStatus d = some v)
    (hp : sanitizePath (getVersionPath w.storage.pathPrefix d v) path = some p)
    (data : List UInt8) :
    w.disk.locate p ≠ [] ∧
    ((∃ e w', w.save crates d v path data = (.error e, w') ∧ FileOnWay w.disk p) ∨
    ∃ dk, dk.find p = w.disk.find p ∧ (w.disk.find p ≠ none → dk = w.disk) ∧
      w.save crates d v path data =
        (writeFile p data).run (meaning crates) (w.setDisk dk)) := by
  obtain ⟨names, q, _, hq, hl, hlq, _, _⟩ := sanitizePath_version_some hp
  have hnil : w.disk.locate p ≠ [] := hl ▸ w.fileLoc_ne_nil d v names
  refine ⟨hnil, ?_⟩
  rw [World.save, saveFile]
  simp only [perform_bind, run_call, meaning, hu, if_true, hp, hq]
  cases hex : w.disk.exists? q with
  | true => exact Or.inr ⟨w.disk, rfl, fun _ => rfl, rfl⟩
  | false =>
  simp only [run_call, meaning]
  obtain ⟨hnew, _⟩ := w.disk.createDirAll_spec q
  rw [hlq] at hnew
  cases hd : (w.disk.createDirAll q).1 with
  | error e =>
    refine Or.inl ⟨_, _, rfl, ?_⟩
    by_contra hfree
    rw [w.disk.createDirAll_ok fun l f hle hf => hfree ⟨l, f, hlq ▸ hle, hf⟩] at hd
    exact absurd hd (by simp)
  | ok _ =>
    have hself : (w.disk.createDirAll q).2.node (w.disk.locate p) =
        w.disk.node (w.disk.locate p) := by
      refine hnew.of_not_prefix fun hpre => ?_
      have hlen := hpre.length_le
      have hpos := List.length_pos_iff.mpr hnil
      rw [List.length_dropLast] at hlen
      omega
    refine Or.inr ⟨_, Disk.find_congr hnew.1 hself, fun hf => ?_, rfl⟩
    by_cases hq0 : q = []
    · rw [hq0, Disk.createDirAll, if_pos rfl]
    · -- what the path leads to has a parent directory
      have hdir : w.disk.node (w.disk.locate q) = some .dir := by
        rw [hlq]
        exact w.disk.closed _ hnil fun hnone => hf (Disk.find_eq_none hnone)
      rw [Disk.exists?, Disk.find_of_dir hq0 hdir] at hex
      exact absurd hex (by simp)

theorem locate_sanitized (w : World) {d path : Str} {v : UInt32} {p : PathBuf} {names : List Str}
    (hp : sanitizePath (getVersionPath w.storage.pathPrefix d v) path = some p)
    (hn : sanitizedNames path = some names) : w.fileLoc d v names = w.disk.locate p ∧ p ≠ [] := by
  obtain ⟨names', _, hn', _, hl, _, hne, _⟩ := sanitizePath_version_some hp
  obtain rfl := Option.some.inj (hn'.symm.trans hn)
  exact ⟨hl.symm, hne⟩

/-- What the path leads to is opened for reading: it takes the empty data and no other. -/
theorem save_found (hu : w.storage.uploadingStatus d = some v)
    (hp : sanitizePath (getVersionPath w.storage.pathPrefix d v) path = some p) {n : Node}
    (hf : w.disk.find p = some n) (data : List UInt8) :
    w.save crates d v path data =
      (if data = [] then .ok () else .error (.io .badDescriptor), w) := by
  obtain ⟨hnil, ⟨_, _, _, hway⟩ | ⟨dk, _, hdk, hrun⟩⟩ := @saveFile_writes crates w d v path p hu hp data
  · exact absurd hway (not_fileOnWay hf hnil)
  obtain rfl := hdk (by rw [hf]; simp)
  rw [hrun]
  rcases @writeFile_cases crates w p data with ⟨_, hnone, _⟩ | ⟨_, _, hr⟩ | ⟨_, _, _, hnone, _⟩
  · exact absurd (hf.symm.trans hnone) (by simp)
  · exact hr
  · exact absurd (hf.symm.trans hnone) (by simp)

theorem save_mustBeDir (hu : w.storage.uploadingStatus d = some v)
    (hp : sanitizePath (getVersionPath w.storage.pathPrefix d v) path = some p)
    (hf : w.disk.find p = none) (hm : mustBeDir p = true) (data : List UInt8) :
    ∃ e w', w.save crates d v path data = (.error e, w') := by
  obtain ⟨_, ⟨e, w', hrun, _⟩ | ⟨dk, hdk, _, hrun⟩⟩ := @saveFile_writes crates w d v path p hu hp data
  · exact ⟨e, w', hrun⟩
  rw [hrun]
  rcases @writeFile_cases crates (w.setDisk dk) p data with
    ⟨e, _, _, hr⟩ | ⟨_, hsome, _⟩ | ⟨_, _, hm', _⟩
  · exact ⟨_, _, hr⟩
  · exact absurd ((hdk.trans hf).symm.trans hsome) (by simp)
  · exact absurd (hm.symm.trans hm') (by simp)

/-- A file that was made: no file was on the way, and all others are as before. -/
theorem leaves_of_saved {names : List Str} {dk : Disk} {t : Nat} (hm : mustBeDir p = false)
    (hp : sanitizePath (getVersionPath w.storage.pathPrefix d v) path = some p)
    (hn : sanitizedNames path = some names) (hcwd : dk.cwd = w.disk.cwd)
    (hself : dk.node (w.fileLoc d v names) = some (.file ⟨data, t⟩))
    (hrest : ∀ l, l ≠ w.fileLoc d v names → dk.node l = w.disk.node l ∨
      w.disk.node l = none ∧ dk.node l = some .dir ∧ l <+: (w.fileLoc d v names).dropLast) :
    ¬ FileOnWay w.disk p ∧ Leaves w (w.setDisk dk) p data := by
  have hnil := w.fileLoc_ne_nil d v names
  obtain ⟨hl, hne⟩ := locate_sanitized w hp hn
  rw [hl] at hself hrest hnil
  have hloc : dk.locate p = w.disk.locate p := by rw [Disk.locate, hcwd, Disk.locate]
  refine ⟨?_, ⟨t, ?_⟩, fun l hlne f => ?_⟩
  · rintro ⟨l, f, hway, hfile⟩
    -- what leads to the new file is a directory, and was one or nothing before
    have hdir : dk.node l = some .dir := dk.node_onWay hway hnil (by rw [hself]; simp)
    rcases hrest l (fun he => by rw [he, hself] at hdir; exact absurd hdir (by simp)) with
      hsame | ⟨hnone, _⟩
    · rw [← hsame, hdir] at hfile
      exact absurd hfile (by simp)
    · exact absurd (hnone.symm.trans hfile) (by simp)
  · show dk.find p = _
    rw [Disk.find_eq_node hne hm, hloc, hself]
  · show dk.node l = _ ↔ _
    rcases hrest l hlne with hsame | ⟨hnone, hdir, _⟩
    · rw [hsame]
    · rw [hnone, hdir]
      simp

theorem save_missing (hu : w.storage.uploadingStatus d = some v)
    (hp : sanitizePath (getVersionPath w.storage.pathPrefix d v) path = some p)
    (hf : w.disk.find p = none) (data : List UInt8) :
    ((mustBeDir p = true ∨ FileOnWay w.disk p) ∧
      ∃ e w', w.save crates d v path data = (.error e, w')) ∨
    ¬ (mustBeDir p = true ∨ FileOnWay w.disk p) ∧
      (w.save crates d v path data).1 = .ok () ∧
      Leaves w (w.save crates d v path data).2 p data := by
  cases hm : mustBeDir p with
  | true => exact Or.inl ⟨Or.inl rfl, save_mustBeDir hu hp hf hm data⟩
  | false =>
    have hout := @saveFile_outcome crates w d v path data
    rw [← World.save] at hout
    generalize hs : w.save crates d v path data = s at hout
    cases hout with
    | notUploading hne => exact absurd hu hne
    | badPath _ hn => exact absurd ((sanitizePath_eq_none hn _).symm.trans hp) (by simp)
    | blocked _ hn _ hb =>
      refine Or.inl ⟨Or.inr ?_, _, _, rfl⟩
      rcases hb with hway | ⟨p', hp', hm'⟩
      · rwa [(locate_sanitized w hp hn).1] at hway
      · obtain rfl := Option.some.inj (hp'.symm.trans hp)
        exact absurd (hm'.symm.trans hm) (by simp)
    | present _ hn hnode =>
      obtain ⟨hl, hne⟩ := locate_sanitized w hp hn
      rw [hl, ← Disk.find_eq_node hne hm, hf] at hnode
      exact absurd hnode (by simp)
    | saved _ hn _ _ hcwd hself hrest =>
      obtain ⟨hway, hleaves⟩ := leaves_of_saved hm hp hn hcwd hself hrest
      exact Or.inr ⟨by simpa using hway, rfl, hleaves⟩

@[simp] theorem save_storage (w : World) (d path : Str) (v : UInt32) (data : List UInt8) :
    (w.save crates d v path data).2.storage = w.storage := by
  have hout := @saveFile_outcome crates w d v path data
  rw [← World.save] at hout
  generalize w.save crates d v path data = s at hout
  cases hout <;> rfl

/-! ### Saves that follow -/

theorem leaves_self : Leaves w w p data ↔ ∃ t, w.disk.find p = some (.file ⟨data, t⟩) :=
  ⟨Leaves.target, fun h => ⟨h, fun _ _ _ => Iff.rfl⟩⟩

/-- **Over a file that is there, only saves that change nothing do what they should.** -/
theorem overwrites_present (hu : w.storage.uploadingStatus d = some v)
    (hp : sanitizePath (getVersionPath w.storage.pathPrefix d v) path = some p) {f : FileData}
    (hf : w.disk.find p = some (.file f)) (more : List (List UInt8)) :
    Overwrites crates d v path p w more ↔ more = [] ∨ ∀ x ∈ f.bytes :: more, x = [] := by
  induction more with
  | nil => simp [Overwrites]
  | cons x more ih =>
    have hleaves : Leaves w w p x ↔ f.bytes = x := by
      rw [leaves_self, hf]
      constructor
      · rintro ⟨t, h⟩
        cases h
        rfl
      · rintro rfl
        exact ⟨f.modified, rfl⟩
    rw [Overwrites, save_found hu hp hf, ih, hleaves]
    by_cases hx : x = []
    · subst hx
      simp only [if_true, true_and]
      constructor
      · rintro ⟨hb, rfl | hall⟩
        · exact Or.inr (by simp [hb])
        · exact Or.inr (by simpa using hall)
      · rintro (hnil | hall)
        · exact absurd hnil (by simp)
        · exact ⟨hall _ List.mem_cons_self, Or.inr (by simpa using hall)⟩
    · constructor
      · rintro ⟨hok, _⟩
        rw [if_neg hx] at hok
        exact absurd hok (by simp)
      · rintro (hnil | hall)
        · exact absurd hnil (by simp)
        · exact absurd (hall x (by simp)) hx

theorem saves_overwrite_dir (hu : w.storage.uploadingStatus d = some v)
    (hp : sanitizePath (getVersionPath w.storage.pathPrefix d v) path = some p)
    (hf : w.disk.find p = some .dir) (data : List UInt8) (more : List (List UInt8)) :
    SavesOverwrite crates w d v path p data more ↔ data ≠ [] := by
  rw [SavesOverwrite, save_found hu hp hf]
  by_cases hd : data = []
  · simp only [if_pos hd, forall_const]
    refine iff_of_false ?_ (fun hne => hne hd)
    rintro ⟨⟨⟨t, ht⟩, _⟩, _⟩
    exact absurd (hf.symm.trans ht) (by simp)
  · simp only [if_neg hd]
    exact ⟨fun _ => hd, fun _ hok => absurd hok (by simp)⟩

/-- Over a file the first save is refused, or no save changes anything. -/
theorem saves_overwrite_file (hu : w.storage.uploadingStatus d = some v)
    (hp : sanitizePath (getVersionPath w.storage.pathPrefix d v) path = some p) {f : FileData}
    (hf : w.disk.find p = some (.file f)) (data : List UInt8) (more : List (List UInt8)) :
    SavesOverwrite crates w d v path p data more ↔
      data ≠ [] ∨ f.bytes = [] ∧ ∀ x ∈ more, x = [] := by
  rw [SavesOverwrite, save_found hu hp hf]
  by_cases hd : data = []
  · subst hd
    simp only [if_true, forall_const]
    rw [leaves_self, overwrites_present hu hp hf]
    constructor
    · rintro ⟨⟨t, ht⟩, hmore⟩
      obtain rfl := Node.file.inj (Option.some.inj (hf.symm.trans ht))
      refine Or.inr ⟨rfl, ?_⟩
      rcases hmore with rfl | hall
      · simp
      · exact fun x hx => hall x (List.mem_cons_of_mem _ hx)
    · intro hsafe
      obtain ⟨hb, hall⟩ := hsafe.resolve_left (by simp)
      refine ⟨⟨f.modified, by rw [hf, ← hb]⟩, Or.inr ?_⟩
      rw [hb]
      simpa using hall
  · simp only [if_neg hd]
    exact ⟨fun _ => Or.inl hd, fun _ hok => absurd hok (by simp)⟩

/-- Where there is nothing, the first save makes a file, and the later ones find it. -/
theorem saves_overwrite_missing (hu : w.storage.uploadingStatus d = some v)
    (hp : sanitizePath (getVersionPath w.storage.pathPrefix d v) path = some p)
    (hf : w.disk.find p = none) (data : List UInt8) (more : List (List UInt8)) :
    SavesOverwrite crates w d v path p data more ↔
      mustBeDir p = true ∨ FileOnWay w.disk p ∨ more = [] ∨ ∀ x ∈ data :: more, x = [] := by
  rw [SavesOverwrite, ← or_assoc]
  rcases @save_missing crates w d v path p hu hp hf data with
    ⟨hbad, e, w', hrun⟩ | ⟨hgood, hok, hleaves⟩
  · rw [hrun]
    exact ⟨fun _ => Or.inl hbad, fun _ hok => absurd hok (by simp)⟩
  · have hfollow : Overwrites crates d v path p (w.save crates d v path data).2 more ↔
        more = [] ∨ ∀ x ∈ data :: more, x = [] := by
      obtain ⟨t, ht⟩ := hleaves.target
      exact overwrites_present (by rw [save_storage, hu]) (by rw [save_storage, hp]) ht more
    rw [hfollow]
    exact ⟨fun h => Or.inr (h hok).2, fun h _ => ⟨hleaves, h.resolve_left hgood⟩⟩

/-- **When saves to one path overwrite**, for every state, path and sequence of data. -/
theorem saves_overwrite_iff (hu : w.storage.uploadingStatus d = some v)
    (hp : sanitizePath (getVersionPath w.storage.pathPrefix d v) path = some p)
    (data : List UInt8) (more : List (List UInt8)) :
    SavesOverwrite crates w d v path p data more ↔ OverwriteSafe w.disk p data more := by
  cases hf : w.disk.find p with
  | none =>
    rw [saves_overwrite_missing hu hp hf]
    exact ⟨fun h => ⟨fun _ => h, by simp [hf], by simp [hf]⟩, fun h => h.missing hf⟩
  | some n =>
    cases n with
    | dir =>
      rw [saves_overwrite_dir hu hp hf]
      exact ⟨fun h => ⟨by simp [hf], fun _ => h, by simp [hf]⟩, fun h => h.dir hf⟩
    | file f =>
      rw [saves_overwrite_file hu hp hf]
      refine ⟨fun h => ⟨by simp [hf], by simp [hf], fun g hg => ?_⟩, fun h => h.file f hf⟩
      obtain rfl := Node.file.inj (Option.some.inj (hf.symm.trans hg))
      exact h

end Save

theorem saves_overwrite_first : SavesOverwrite Crates.simple firstUpload "www.a.com".toList 1
    "index.html".toList "/srv/www.a.com/1/index.html".toList [1] [] :=
  (saves_overwrite_iff (by decide +kernel) (by decide +kernel) [1] []).mpr
    ⟨fun _ => Or.inr (Or.inr (Or.inl rfl)), fun _ => by simp, fun _ _ => Or.inl (by simp)⟩

/-- A file is saved, and then its next content: the second save is refused. -/
theorem secondSave_refused :
    ¬ ∀ (w : World) (d : Str) (v : UInt32) (path : Str) (p : PathBuf) (data : List UInt8)
      (more : List (List UInt8)), w.storage.uploadingStatus d = some v →
      sanitizePath (getVersionPath w.storage.pathPrefix d v) path = some p →
      SavesOverwrite Crates.simple w d v path p data more := by
  intro h
  obtain ⟨_, hok, _⟩ := h firstUpload "www.a.com".toList 1 "index.html".toList
    "/srv/www.a.com/1/index.html".toList [1] [[2]] (by decide +kernel) (by decide +kernel)
    (by decide +kernel)
  have hrefused : ((firstUpload.save Crates.simple "www.a.com".toList 1 "index.html".toList [1]).2.save
      Crates.simple "www.a.com".toList 1 "index.html".toList [2]).1 = .error (.io .badDescriptor) := by
    decide +kernel
  rw [hrefused] at hok
  exact absurd hok (by simp)

end SpaServer
