import SpaServer.DomainStorage

/-!
# What the methods do

One statement for each method of `DomainStorage`: what a run of it, alone, can
answer and leave behind.  `StatusOutcome`, `SaveOutcome` and
`ReleaseOutcome` have one constructor for each way through the method, with the
guards it has passed; the proofs about runs split on these and never unfold a
method again.
-/

namespace SpaServer

open Base Program

variable {crates : Crates}

/-! ### What no operation changes -/

@[simp] theorem meaning_pathPrefix (op : Op) (w : World) :
    (meaning crates op w).2.storage.pathPrefix = w.storage.pathPrefix := by
  cases op <;> rfl

theorem writeAll_cwd (dk : Disk) (h : Handle) (data : List UInt8) :
    (dk.writeAll h data).2.cwd = dk.cwd := by
  rcases dk.writeAll_cases h data with he | ⟨_, _, _, _, hc, he⟩
  · rw [he]
  · rw [he, Disk.set_cwd]

@[simp] theorem meaning_cwd (op : Op) (w : World) :
    (meaning crates op w).2.disk.cwd = w.disk.cwd := by
  cases op with
  | createDirAll p => exact (w.disk.createDirAll_spec p).1.1
  | createFile p =>
    rcases w.disk.createFile_cases p with ⟨e, he⟩ | ⟨h, _, he⟩
    · show (w.disk.createFile p).2.cwd = _; rw [he]
    · show (w.disk.createFile p).2.cwd = _; rw [he, Disk.set_cwd]
  | writeAll h data => exact writeAll_cwd _ _ _
  | removeFile p =>
    rcases w.disk.removeFile_cases p with ⟨e, he⟩ | ⟨f, _, h, he⟩
    · show (w.disk.removeFile p).2.cwd = _; rw [he]
    · show (w.disk.removeFile p).2.cwd = _; rw [he, Disk.removeTree_cwd]
  | removeDirAll p =>
    rcases w.disk.removeDirAll_cases p with ⟨⟨e, he⟩, _⟩ | ⟨_, h, he⟩
    · show (w.disk.removeDirAll p).2.cwd = _; rw [he]
    · show (w.disk.removeDirAll p).2.cwd = _; rw [he, Disk.removeTree_cwd]
  | _ => rfl

theorem run_eq {α γ : Type} (proj : World → γ)
    (hop : ∀ op w, proj (meaning crates op w).2 = proj w) (p : Method α) (w : World) :
    proj (p.run (meaning crates) w).2 = proj w := by
  induction p generalizing w with
  | ret a => rfl
  | call op next ih => exact (ih _ _).trans (hop op w)

@[simp] theorem run_pathPrefix {α : Type} (p : Method α) (w : World) :
    (p.run (meaning crates) w).2.storage.pathPrefix = w.storage.pathPrefix :=
  run_eq (fun w => w.storage.pathPrefix) meaning_pathPrefix p w

@[simp] theorem run_cwd {α : Type} (p : Method α) (w : World) :
    (p.run (meaning crates) w).2.disk.cwd = w.disk.cwd :=
  run_eq (fun w => w.disk.cwd) meaning_cwd p w

def Op.isLookup : Op → Bool
  | .metaGet _ | .uploadingGet _ | .pathExists _ | .isDir _ | .walkDir .. => true
  | _ => false

theorem lookup_world {op : Op} (h : op.isLookup = true) (w : World) :
    (meaning crates op w).2 = w := by
  cases op <;> first | rfl | exact absurd h (by simp [Op.isLookup])

theorem lookup_changesDisk {op : Op} (h : op.isLookup = true) : op.changesDisk = false := by
  cases op <;> first | rfl | exact absurd h (by simp [Op.isLookup])

theorem run_lookups {α : Type} {p : Method α} (h : p.Uses fun op => op.isLookup = true)
    (w : World) : (p.run (meaning crates) w).2 = w :=
  h.run_eq id (fun _ s ho => lookup_world ho s) w

/-! ### The places of a version and of its marker -/

theorem plain_uploadingFileName : Plain uploadingFileName := by decide

theorem versionPath_ne_nil (p : PathBuf) (d : Str) (v : UInt32) : getVersionPath p d v ≠ [] :=
  push_ne_nil (toDecimal_ne_nil v) _

theorem World.domainPath_ne_nil (w : World) (d : Str) : push w.storage.pathPrefix d ≠ [] :=
  push_ne_nil_left w.storage.prefixNe d

namespace World

variable (w : World)

def serving (d : Str) : Option UInt32 := (w.storage.domainMeta d).map (·.2)

def domainLoc (d : Str) : Loc := w.disk.locate (push w.storage.pathPrefix d)

def versionLoc (d : Str) (v : UInt32) : Loc := w.domainLoc d ++ [.utf8 (toDecimal v)]

def markerLoc (d : Str) (v : UInt32) : Loc := w.versionLoc d v ++ [.utf8 uploadingFileName]

theorem locate_versionPath (d : Str) (v : UInt32) :
    w.disk.locate (getVersionPath w.storage.pathPrefix d v) = w.versionLoc d v :=
  locate_push_plain (plain_toDecimal v) _ _

theorem locate_markerPath (d : Str) (v : UInt32) :
    w.disk.locate (markerPath w.storage.pathPrefix d v) = w.markerLoc d v := by
  rw [markerPath, markerLoc, ← locate_versionPath]
  exact locate_push_plain plain_uploadingFileName _ _

theorem versionLoc_ne_nil (d : Str) (v : UInt32) : w.versionLoc d v ≠ [] := by
  simp [versionLoc]

theorem markerLoc_ne_nil (d : Str) (v : UInt32) : w.markerLoc d v ≠ [] := by
  simp [markerLoc]

theorem find_versionPath (d : Str) (v : UInt32) :
    w.disk.find (getVersionPath w.storage.pathPrefix d v) = w.disk.node (w.versionLoc d v) := by
  rw [← locate_versionPath]
  exact Disk.find_eq_node (versionPath_ne_nil _ d v) (mustBeDir_push_plain (plain_toDecimal v) _)

theorem find_markerPath (d : Str) (v : UInt32) :
    w.disk.find (markerPath w.storage.pathPrefix d v) = w.disk.node (w.markerLoc d v) := by
  rw [← locate_markerPath]
  exact Disk.find_eq_node (push_ne_nil (by decide) _)
    (mustBeDir_push_plain plain_uploadingFileName _)

theorem domainLoc_plain {d : Str} (h : Plain d) :
    w.domainLoc d = w.disk.locate w.storage.pathPrefix ++ [.utf8 d] :=
  locate_push_plain h _ _

theorem versionLoc_plain {d : Str} (h : Plain d) (v : UInt32) :
    w.versionLoc d v = w.disk.locate w.storage.pathPrefix ++ [.utf8 d, .utf8 (toDecimal v)] := by
  rw [versionLoc, domainLoc_plain w h]
  simp

theorem markerLoc_plain {d : Str} (h : Plain d) (v : UInt32) :
    w.markerLoc d v = w.disk.locate w.storage.pathPrefix ++
      [.utf8 d, .utf8 (toDecimal v), .utf8 uploadingFileName] := by
  rw [markerLoc, versionLoc_plain w h]
  simp

theorem versionLoc_prefix {d d' : Str} (h : Plain d) (h' : Plain d') {v v' : UInt32} {t : Loc}
    (hpre : w.versionLoc d v <+: w.versionLoc d' v' ++ t) : d = d' ∧ v = v' := by
  rw [versionLoc, versionLoc, domainLoc_plain w h, domainLoc_plain w h', List.append_assoc,
    List.append_assoc, List.append_assoc, List.prefix_append_right_inj] at hpre
  simp only [List.cons_append, List.cons_prefix_cons, OsName.utf8.injEq, List.nil_append] at hpre
  exact ⟨hpre.1, toDecimal_injective hpre.2.1⟩

theorem markerLoc_inj {d e : Str} {v u : UInt32} (hd : Plain d) (he : Plain e)
    (h : w.markerLoc d v = w.markerLoc e u) : d = e ∧ v = u :=
  w.versionLoc_prefix hd he (t := [.utf8 uploadingFileName])
    ((List.prefix_append _ _).trans (by rw [markerLoc, markerLoc] at h; rw [h]))

end World

structure SamePlaces (w w' : World) : Prop where
  pathPrefix : w'.storage.pathPrefix = w.storage.pathPrefix
  cwd : w'.disk.cwd = w.disk.cwd

theorem SamePlaces.domainLoc {w w' : World} (h : SamePlaces w w') (d : Str) :
    w'.domainLoc d = w.domainLoc d := by
  rw [World.domainLoc, Disk.locate, h.1, h.2]
  rfl

theorem SamePlaces.versionLoc {w w' : World} (h : SamePlaces w w') (d : Str) (v : UInt32) :
    w'.versionLoc d v = w.versionLoc d v := by
  rw [World.versionLoc, h.domainLoc]
  rfl

theorem SamePlaces.markerLoc {w w' : World} (h : SamePlaces w w') (d : Str) (v : UInt32) :
    w'.markerLoc d v = w.markerLoc d v := by
  rw [World.markerLoc, h.versionLoc]
  rfl

theorem run_samePlaces {α : Type} (p : Method α) (w : World) :
    SamePlaces w (p.run (meaning crates) w).2 := ⟨run_pathPrefix p w, run_cwd p w⟩

theorem createDirAll_locate (dk : Disk) (p q : PathBuf) :
    (dk.createDirAll p).2.locate q = dk.locate q := by
  rw [Disk.locate, (dk.createDirAll_spec p).1.1, Disk.locate]

/-! ### `update_uploading_status` -/

/-- The ways through `update_uploading_status`. -/
inductive StatusOutcome (w : World) (d : Str) (v : UInt32) :
    UploadingStatus → Except StorageError Unit × World → Prop
  | other {st : UploadingStatus} {u : UInt32} (hu : w.storage.uploadingStatus d = some u)
      (hne : u ≠ v) : StatusOutcome w d v st (.error (.otherUploading d u), w)
  | again (hu : w.storage.uploadingStatus d = some v) :
      StatusOutcome w d v .uploading (.ok (), w)
  | notMarked {e : IoError}
      (hu : w.storage.uploadingStatus d = some v ∨ w.storage.uploadingStatus d = none)
      (hm : ∀ f, w.disk.node (w.markerLoc d v) ≠ some (.file f)) :
      StatusOutcome w d v .finish (.error (.io e), w)
  | finished {f : FileData}
      (hu : w.storage.uploadingStatus d = some v ∨ w.storage.uploadingStatus d = none)
      (hm : w.disk.node (w.markerLoc d v) = some (.file f)) :
      StatusOutcome w d v .finish (.ok (),
        (w.setDisk (w.disk.removeTree _ (w.markerLoc_ne_nil d v))).setUploading
          (w.storage.uploadingStatus.removeIf d (· == v)))
  | serving (hu : w.storage.uploadingStatus d = none)
      (hs : w.serving d = some v) :
      StatusOutcome w d v .uploading (.error (.serving d v), w)
  | blocked {e : IoError} {dk : Disk} (hu : w.storage.uploadingStatus d = none)
      (hs : w.serving d ≠ some v)
      (hd : w.disk.NewDirs dk (w.versionLoc d v))
      (hb : dk.node (w.versionLoc d v) = w.disk.node (w.versionLoc d v) ∨
        w.disk.node (w.markerLoc d v) ≠ none) :
      StatusOutcome w d v .uploading (.error (.io e), w.setDisk dk)
  | started {dk : Disk} (hu : w.storage.uploadingStatus d = none)
      (hs : w.serving d ≠ some v)
      (hd : w.disk.NewDirs dk (w.versionLoc d v))
      (hv : dk.node (w.versionLoc d v) = some .dir)
      (hm : dk.CanHold (w.markerLoc d v) (.file ⟨[], dk.now⟩)) :
      StatusOutcome w d v .uploading (.ok (),
        (w.setDisk (dk.set _ _ hm)).setUploading (w.storage.uploadingStatus.insert d v))

theorem finishUploading_outcome (w : World) (d : Str) (v : UInt32)
    (hu : w.storage.uploadingStatus d = some v ∨ w.storage.uploadingStatus d = none) :
    StatusOutcome w d v .finish
      ((finishUploading w.storage.pathPrefix d v).run (meaning crates) w) := by
  simp only [finishUploading, perform_bind, run_call, meaning]
  have hfind := w.find_markerPath d v
  have hloc := w.locate_markerPath d v
  rw [Disk.removeFile, hfind]
  cases hm : w.disk.node (w.markerLoc d v) with
  | none => exact .notMarked hu (by simp [hm])
  | some n =>
    cases n with
    | dir => exact .notMarked hu (by simp [hm])
    | file f =>
      simp only [hloc, dif_pos (w.markerLoc_ne_nil d v), run_call, pure_eq, run_ret, meaning]
      exact .finished hu hm

theorem createFile_marker {w : World} {d : Str} {v : UInt32} {dk : Disk}
    (hd : w.disk.NewDirs dk (w.versionLoc d v)) (hv : dk.node (w.versionLoc d v) = some .dir) :
    (∃ e, dk.createFile (markerPath w.storage.pathPrefix d v) = (.error e, dk) ∧
      w.disk.node (w.markerLoc d v) ≠ none) ∨
    ∃ hm : dk.CanHold (w.markerLoc d v) (.file ⟨[], dk.now⟩),
      dk.createFile (markerPath w.storage.pathPrefix d v) =
        (.ok ⟨w.markerLoc d v, true⟩, dk.set _ _ hm) := by
  have hloc : dk.locate (markerPath w.storage.pathPrefix d v) = w.markerLoc d v := by
    rw [Disk.locate, hd.1]
    exact w.locate_markerPath d v
  have hdir : mustBeDir (markerPath w.storage.pathPrefix d v) = false :=
    mustBeDir_push_plain plain_uploadingFileName _
  rcases dk.createFile_cases (markerPath w.storage.pathPrefix d v) with ⟨e, he⟩ | ⟨hm, _, he⟩
  · refine Or.inl ⟨e, he, fun hnone => ?_⟩
    -- with the directory there and no marker in it, the file could be made
    have hcan : dk.CanHold (w.markerLoc d v) (.file ⟨[], dk.now⟩) := by
      refine ⟨w.markerLoc_ne_nil d v, ?_, by rw [← hloc]; exact dk.locate_plain _, Or.inl ?_⟩
      · rw [World.markerLoc, List.dropLast_concat, hv]
      · rw [hd.of_not_prefix, hnone]
        intro hp
        have := hp.length_le
        rw [World.markerLoc, List.length_append, List.length_singleton] at this
        omega
    rw [← hloc] at hcan
    rw [Disk.createFile_ok hdir hcan] at he
    simp at he
  · simp only [hloc] at hm he
    exact Or.inr ⟨hm, he⟩

/-- **Every run of `update_uploading_status` takes one of these ways.** -/
theorem updateUploadingStatus_outcome (w : World) (d : Str) (v : UInt32) (st : UploadingStatus) :
    StatusOutcome w d v st
      ((updateUploadingStatus w.storage.pathPrefix d v st).run (meaning crates) w) := by
  simp only [updateUploadingStatus, perform_bind, run_call, meaning]
  cases hu : w.storage.uploadingStatus d with
  | some u =>
    dsimp only
    by_cases hne : u = v
    · subst hne
      rw [if_neg (by simp)]
      cases st with
      | finish => exact finishUploading_outcome w d u (Or.inl hu)
      | uploading => exact .again hu
    · rw [if_pos hne]
      exact .other hu hne
  | none =>
    cases st with
    | finish => exact finishUploading_outcome w d v (Or.inr hu)
    | uploading =>
      dsimp only
      rw [if_pos rfl, run_call]
      split
      · next hs => exact .serving hu hs
      next hs =>
      rw [run_call]
      simp only [meaning]
      obtain ⟨hnew, hdir⟩ := w.disk.createDirAll_spec (getVersionPath w.storage.pathPrefix d v)
      rw [w.locate_versionPath] at hnew hdir
      cases hd : (w.disk.createDirAll (getVersionPath w.storage.pathPrefix d v)).1 with
      | error e =>
        have hsame := w.disk.createDirAll_error hd
        rw [w.locate_versionPath] at hsame
        exact .blocked hu hs hnew (Or.inl hsame)
      | ok u =>
        have hv := hdir (versionPath_ne_nil _ d v) hd
        dsimp only
        rw [run_call]
        simp only [meaning]
        rcases createFile_marker hnew hv with ⟨e, he, hm⟩ | ⟨hm, he⟩
        · simp only [World.setDisk, he, pure_eq, run_ret]
          exact .blocked hu hs hnew (Or.inr hm)
        · simp only [World.setDisk, he, run_call, pure_eq, run_ret, meaning]
          exact .started hu hs hnew hv hm

/-! ### `save_file` -/

def World.fileLoc (w : World) (d : Str) (v : UInt32) (names : List Str) : Loc :=
  w.versionLoc d v ++ names.map .utf8

theorem World.fileLoc_ne_nil (w : World) (d : Str) (v : UInt32) (names : List Str) :
    w.fileLoc d v names ≠ [] := by
  simp [World.fileLoc, World.versionLoc]

theorem World.fileLoc_injective {w : World} {d : Str} {v : UInt32} {names names' : List Str}
    (h : w.fileLoc d v names = w.fileLoc d v names') : names = names' :=
  map_utf8_injective (List.append_cancel_left h)

theorem World.fileLoc_prefix {w : World} {d : Str} {v : UInt32} {names names' : List Str}
    (h : w.fileLoc d v names <+: w.fileLoc d v names') : names <+: names' := by
  rw [World.fileLoc, World.fileLoc, List.prefix_append_right_inj] at h
  obtain ⟨names'', hpre, hmap⟩ := List.prefix_map_iff.mp h
  rwa [map_utf8_injective hmap]

theorem SamePlaces.fileLoc {w w' : World} (h : SamePlaces w w') (d : Str) (v : UInt32)
    (names : List Str) : w'.fileLoc d v names = w.fileLoc d v names := by
  rw [World.fileLoc, World.fileLoc, h.versionLoc]

/-- The ways through `save_file`. -/
inductive SaveOutcome (w : World) (d : Str) (v : UInt32) (path : Str) (data : List UInt8) :
    Except StorageError Unit × World → Prop
  | notUploading (hu : w.storage.uploadingStatus d ≠ some v) :
      SaveOutcome w d v path data (.error (.notUploading d v), w)
  | badPath (hu : w.storage.uploadingStatus d = some v) (hn : sanitizedNames path = none) :
      SaveOutcome w d v path data (.error .pathError, w)
  | blocked {e : IoError} {names : List Str} {dk : Disk}
      (hu : w.storage.uploadingStatus d = some v) (hn : sanitizedNames path = some names)
      (hd : w.disk.NewDirs dk (w.fileLoc d v names).dropLast)
      (hb : (∃ l f, l <+: (w.fileLoc d v names).dropLast ∧ w.disk.node l = some (.file f)) ∨
        ∃ p, sanitizePath (getVersionPath w.storage.pathPrefix d v) path = some p ∧
          mustBeDir p = true) :
      SaveOutcome w d v path data (.error (.io e), w.setDisk dk)
  | present {names : List Str} {n : Node}
      (hu : w.storage.uploadingStatus d = some v) (hn : sanitizedNames path = some names)
      (hf : w.disk.node (w.fileLoc d v names) = some n) :
      SaveOutcome w d v path data
        (if data = [] then .ok () else .error (.io .badDescriptor), w)
  | saved {names : List Str} {dk : Disk} {t : Nat}
      (hu : w.storage.uploadingStatus d = some v) (hn : sanitizedNames path = some names)
      (hne : names ≠ []) (hf : w.disk.node (w.fileLoc d v names) = none)
      (hcwd : dk.cwd = w.disk.cwd)
      (hself : dk.node (w.fileLoc d v names) = some (.file ⟨data, t⟩))
      (hrest : ∀ l, l ≠ w.fileLoc d v names → dk.node l = w.disk.node l ∨
        w.disk.node l = none ∧ dk.node l = some .dir ∧ l <+: (w.fileLoc d v names).dropLast) :
      SaveOutcome w d v path data (.ok (), w.setDisk dk)

/-- What `writeFile` does to a file: an existing one is opened for reading, so only
empty data can be written; a missing one is made with its data. -/
theorem writeFile_cases (w : World) (p : PathBuf) (data : List UInt8) :
    (∃ e, w.disk.find p = none ∧
      (mustBeDir p = true ∨
        ∀ t, ¬ w.disk.CanHold (w.disk.locate p) (.file ⟨[], t⟩)) ∧
      (writeFile p data).run (meaning crates) w = (.error (.io e), w)) ∨
    (∃ n, w.disk.find p = some n ∧ (writeFile p data).run (meaning crates) w =
      (if data = [] then .ok () else .error (.io .badDescriptor), w)) ∨
    ∃ dk t, mustBeDir p = false ∧ w.disk.find p = none ∧ dk.cwd = w.disk.cwd ∧
      dk.node (w.disk.locate p) = some (.file ⟨data, t⟩) ∧
      (∀ l, l ≠ w.disk.locate p → dk.node l = w.disk.node l) ∧
      (writeFile p data).run (meaning crates) w = (.ok (), w.setDisk dk) := by
  rw [writeFile]
  simp only [perform_bind, run_call, meaning]
  cases hf : w.disk.find p with
  | some n =>
    refine Or.inr (Or.inl ⟨n, rfl, ?_⟩)
    have hex : w.disk.exists? p = true := by simp [Disk.exists?, hf]
    simp only [hex, run_call, meaning, Disk.openFile, if_true, Disk.writeAll_readOnly]
    by_cases hd : data = []
    · simp [hd, World.setDisk]
    · simp [hd, World.setDisk]
  | none =>
    have hex : w.disk.exists? p = false := by simp [Disk.exists?, hf]
    simp only [hex, run_call, meaning]
    rcases w.disk.createFile_cases p with ⟨e, he⟩ | ⟨hc, hdir, he⟩
    · refine Or.inl ⟨e, trivial, ?_, by simp [he, World.setDisk]⟩
      by_contra hcan
      simp only [not_or, Bool.not_eq_true, not_forall, not_not] at hcan
      obtain ⟨hdir, t, hcan⟩ := hcan
      rw [Disk.createFile_ok hdir hcan] at he
      exact absurd he (by simp)
    · refine Or.inr (Or.inr ?_)
      obtain ⟨dk, t, hw, hcwd, hself, hrest⟩ :=
        Disk.writeAll_created (w.disk.set_node_self hc) data
      refine ⟨dk, t, hdir, trivial, hcwd, hself, fun l hl => ?_, ?_⟩
      · rw [hrest l hl, w.disk.set_node_of_ne hc hl]
      · simp only [he, run_call, World.setDisk, meaning, hw, pure_eq, run_ret]

/-- What the sanitized path of a file is, as a path and as a place. -/
theorem sanitizePath_version (w : World) (d : Str) (v : UInt32) {path : Str} {names : List Str}
    (hn : sanitizedNames path = some names) :
    ∃ p q, sanitizePath (getVersionPath w.storage.pathPrefix d v) path = some p ∧
      parent p = some q ∧ w.disk.locate p = w.fileLoc d v names ∧
      w.disk.locate q = (w.fileLoc d v names).dropLast ∧ p ≠ [] ∧
      (mustBeDir p = false → names ≠ [] ∧ q ≠ []) := by
  obtain ⟨p, hp, hloc, hcomp, hdir⟩ :=
    sanitizePath_eq_some hn (getVersionPath w.storage.pathPrefix d v)
  have hbase : components (getVersionPath w.storage.pathPrefix d v) =
      components (push w.storage.pathPrefix d) ++ [toDecimal v] := by
    rw [getVersionPath, components_push (plain_toDecimal v).2.1]
    have : isComponent (toDecimal v) = true := by
      simp only [isComponent, decide_eq_true_eq]
      exact ⟨(plain_toDecimal v).1, (plain_toDecimal v).2.2.1⟩
    simp [this]
  obtain ⟨c, hc, hplain⟩ : ∃ c, (components p).getLast? = some c ∧ Plain c := by
    obtain rfl | ⟨ns, c, rfl⟩ := List.eq_nil_or_concat' names
    · exact ⟨_, by rw [hcomp, hbase]; simp, plain_toDecimal v⟩
    · exact ⟨c, by rw [hcomp, ← List.append_assoc]; simp, sanitizedNames_plain hn c (by simp)⟩
  have hne : components p ≠ [] := by rw [hcomp, hbase]; simp
  obtain ⟨q, hq⟩ : ∃ q, parent p = some q := by rw [parent, if_neg hne]; exact ⟨_, rfl⟩
  have hl : w.disk.locate p = w.fileLoc d v names := by
    rw [Disk.locate, hloc, World.fileLoc, ← w.locate_versionPath, Disk.locate]
  refine ⟨p, q, hp, hq, hl, ?_, ?_, fun hm => ⟨hdir hm, ?_⟩⟩
  · rw [← hl, Disk.locate, Disk.locate, locate_parent _ hq hc hplain, List.dropLast_concat]
  · rintro rfl
    exact hne (by simp [components, isComponent])
  · -- the parent is at or below the version's directory
    rintro rfl
    have hlen := congrArg List.length ((locate_parent [] hq hc hplain).symm.trans (hloc []))
    rw [getVersionPath, locate_push_plain (plain_toDecimal v)] at hlen
    have hnames := List.length_pos_iff.mpr (hdir hm)
    simp only [locate_nil, List.nil_append, List.length_append, List.length_cons, List.length_nil,
      List.length_map] at hlen
    omega

/-- The same for a path that has been sanitized. -/
theorem sanitizePath_version_some {w : World} {d path : Str} {v : UInt32} {p : PathBuf}
    (hp : sanitizePath (getVersionPath w.storage.pathPrefix d v) path = some p) :
    ∃ names q, sanitizedNames path = some names ∧ parent p = some q ∧
      w.disk.locate p = w.fileLoc d v names ∧ w.disk.locate q = (w.disk.locate p).dropLast ∧
      p ≠ [] ∧ (mustBeDir p = false → q ≠ []) := by
  obtain ⟨names, hn⟩ := exists_sanitizedNames hp
  obtain ⟨p', q, hp', hq, hl, hlq, hne, hfile⟩ := sanitizePath_version w d v hn
  obtain rfl := Option.some.inj (hp'.symm.trans hp)
  exact ⟨names, q, hn, hq, hl, by rw [hlq, hl], hne, fun hm => (hfile hm).2⟩

/-- The writing of the file, on the disk with the parent directory made if need be. -/
theorem writeFile_outcome {w : World} {d : Str} {v : UInt32} {path : Str} (data : List UInt8)
    (hu : w.storage.uploadingStatus d = some v) {names : List Str}
    (hn : sanitizedNames path = some names) {p : PathBuf}
    (hp : sanitizePath (getVersionPath w.storage.pathPrefix d v) path = some p)
    (hl : w.disk.locate p = w.fileLoc d v names) (hpne : p ≠ [])
    (hdir : mustBeDir p = false → names ≠ []) {dk : Disk}
    (hnew : w.disk.NewDirs dk (w.fileLoc d v names).dropLast)
    (hdk : dk = w.disk ∨ dk.find p = none ∧ w.disk.node (w.fileLoc d v names) = none)
    (hparent : dk.node (w.fileLoc d v names).dropLast = some .dir ∨ mustBeDir p = true ∨
      ∃ f, w.disk.node (w.fileLoc d v names).dropLast = some (.file f)) :
    SaveOutcome w d v path data ((writeFile p data).run (meaning crates) (w.setDisk dk)) := by
  have hlp : (w.setDisk dk).disk.locate p = w.fileLoc d v names := by
    rw [← hl, Disk.locate, Disk.locate, World.setDisk, hnew.1]
  rcases @writeFile_cases crates (w.setDisk dk) p data with
    ⟨e, hf, hcan, hr⟩ | ⟨n, hf, hr⟩ | ⟨dk', t, hm, hf, hcwd, hself, hrest, hr⟩
  · rw [hr]
    refine .blocked hu hn hnew ?_
    cases hm : mustBeDir p with
    | true => exact Or.inr ⟨p, hp, hm⟩
    | false =>
    have hcan := hcan.resolve_left (by rw [hm]; simp)
    rcases hparent with hdir' | hm' | ⟨f, hfile⟩
    · rw [Disk.find_eq_node hpne hm, hlp] at hf
      refine absurd ⟨?_, hdir', ?_, Or.inl hf⟩ (hlp ▸ hcan 0)
      · exact w.fileLoc_ne_nil d v names
      · rw [← hlp]
        exact Disk.locate_plain _ p
    · rw [hm] at hm'
      exact absurd hm' (by simp)
    · exact Or.inl ⟨_, f, List.prefix_refl _, hfile⟩
  · rcases hdk with rfl | ⟨hnone, _⟩
    · rw [hr]
      have hnode : w.disk.node (w.fileLoc d v names) = some n := by
        rw [← hl]
        cases n with
        | dir => exact (Disk.find_eq_dir hf).2
        | file f => exact (Disk.find_eq_file hf).2.2
      exact .present hu hn hnode
    · rw [World.setDisk, hnone] at hf
      exact absurd hf (by simp)
  · rw [hr]
    rw [hlp] at hself hrest
    have hnone : w.disk.node (w.fileLoc d v names) = none := by
      rcases hdk with rfl | ⟨_, h⟩
      · rw [← hl, ← Disk.find_eq_node hpne hm]
        exact hf
      · exact h
    refine .saved hu hn (hdir hm) hnone (hcwd.trans hnew.1) hself fun l hne => ?_
    rw [hrest l hne]
    exact hnew.2 l

/-- **Every run of `save_file` takes one of these ways.** -/
theorem saveFile_outcome (w : World) (d : Str) (v : UInt32) (path : Str) (data : List UInt8) :
    SaveOutcome w d v path data
      ((saveFile w.storage.pathPrefix d v path data).run (meaning crates) w) := by
  rw [saveFile]
  simp only [perform_bind, run_call]
  split
  case isFalse hu => exact .notUploading hu
  case isTrue hu =>
  simp only [meaning] at hu ⊢
  cases hn : sanitizedNames path with
  | none =>
    simp only [sanitizePath_eq_none hn, pure_eq, run_ret]
    exact .badPath hu hn
  | some names =>
  obtain ⟨p, q, hp, hq, hl, hlq, hpne, hdir⟩ := sanitizePath_version w d v hn
  simp only [hp, hq, run_call, meaning]
  have hwrite := fun dk hnew hdk => @writeFile_outcome crates w d v path data hu names hn p hp hl
    hpne (fun hm => (hdir hm).1) dk hnew hdk
  cases hex : w.disk.exists? q with
  | true =>
    refine hwrite w.disk (Disk.NewDirs.refl _ _) (Or.inl rfl) ?_
    obtain ⟨n, hfind⟩ := Option.isSome_iff_exists.mp hex
    rw [← hlq]
    cases n with
    | dir => exact Or.inl (Disk.find_eq_dir hfind).2
    | file f => exact Or.inr (Or.inr ⟨f, (Disk.find_eq_file hfind).2.2⟩)
  | false =>
    simp only [run_call, meaning]
    obtain ⟨hnew, hok⟩ := w.disk.createDirAll_spec q
    rw [hlq] at hnew hok
    cases hd : (w.disk.createDirAll q).1 with
    | error e =>
      refine .blocked hu hn hnew (Or.inl ?_)
      by_contra hfree
      rw [w.disk.createDirAll_ok fun l f hl hf => hfree ⟨l, f, hlq ▸ hl, hf⟩] at hd
      exact absurd hd (by simp)
    | ok _ =>
      refine hwrite _ hnew ?_ ?_
      swap
      · by_cases hq0 : q = []
        · refine Or.inr (Or.inl ?_)
          by_contra hm
          exact (hdir (eq_false_of_ne_true hm)).2 hq0
        · exact Or.inl (hok hq0 hd)
      by_cases hq0 : q = []
      · exact Or.inl (by rw [hq0, Disk.createDirAll, if_pos rfl])
      · have hnd : w.disk.node (w.fileLoc d v names).dropLast ≠ some .dir := by
          intro hnd
          rw [← hlq] at hnd
          rw [Disk.exists?, Disk.find, if_neg hq0, hnd] at hex
          simp at hex
        have hnil := w.fileLoc_ne_nil d v names
        have hnone : w.disk.node (w.fileLoc d v names) = none := by
          by_contra h
          exact hnd (w.disk.closed _ hnil h)
        refine Or.inr ⟨Disk.find_eq_none ?_, hnone⟩
        rw [createDirAll_locate, hl, hnew.of_not_prefix, hnone]
        intro hpre
        have := hpre.length_le
        have := List.length_pos_iff.mpr hnil
        simp only [List.length_dropLast] at *
        omega

/-! ### `upload_domain_with_version` -/

def listedVersions (dk : Disk) (path : PathBuf) : List UInt32 :=
  parseVersions (dk.walkDir path (some 1))

theorem mem_listedVersions {dk : Disk} {path : PathBuf} {v : UInt32} :
    v ∈ listedVersions dk path ↔ ∃ e ∈ dk.walkDir path (some 1),
      e.fileName.toStr.bind parseU32 = some v := List.mem_filterMap

theorem mem_listedVersions_of_entry {dk : Disk} {path : PathBuf} (hp : path ≠ []) {name : Str}
    {v : UInt32} (h : dk.node (dk.locate path ++ [.utf8 name]) ≠ none) (hv : parseU32 name = some v) :
    v ∈ listedVersions dk path := by
  have hd := dk.closed _ (by simp) h
  rw [List.dropLast_concat] at hd
  obtain ⟨n, hn⟩ := Option.ne_none_iff_exists'.mp h
  refine mem_listedVersions.mpr ⟨⟨path, [.utf8 name], n⟩, Disk.mem_walkDir.mpr
    ⟨rfl, ?_, hn, by simp⟩, ?_⟩
  · rw [Disk.find_of_dir hp hd]; simp
  · simp [Disk.Entry.fileName, hv]

theorem mem_listedVersions_of_dir {dk : Disk} {path : PathBuf} (hp : path ≠ []) {v : UInt32}
    (h : dk.node (dk.locate path ++ [.utf8 (toDecimal v)]) ≠ none) :
    v ∈ listedVersions dk path := mem_listedVersions_of_entry hp h (parseU32_toDecimal v)

def World.release (crates : Crates) (w : World) (d : Str) (v : UInt32) : World :=
  let path := getVersionPath w.storage.pathPrefix d v
  (w.setMeta (w.storage.domainMeta.insert d (path, v))).setCache
    (w.storage.cache.update d (w.storage.cache.conf.cacheDir crates w.disk d path))

inductive ReleaseOutcome (crates : Crates) (w : World) (d : Str) (version : Option UInt32) :
    Except StorageError UInt32 × World → Prop
  | refused {e : StorageError} : ReleaseOutcome crates w d version (.error e, w)
  | released {v : UInt32} (hu : w.storage.uploadingStatus d ≠ some v)
      (hv : w.disk.node (w.versionLoc d v) = some .dir)
      (hversion : version = some v ∨ version = none ∧
        (listedVersions w.disk (push w.storage.pathPrefix d)).max? = some v) :
      ReleaseOutcome crates w d version (.ok v, w.release crates d v)

theorem getDomainInfoByDomain_run (w : World) (d : Str) :
    (getDomainInfoByDomain w.storage.pathPrefix d).run (meaning crates) w =
      (match listedVersions w.disk (push w.storage.pathPrefix d) with
        | [] => none
        | versions => some ⟨d, w.serving d, versions⟩, w) := by
  simp only [getDomainInfoByDomain, perform_bind, run_call, meaning, listedVersions]
  cases parseVersions (w.disk.walkDir (push w.storage.pathPrefix d) (some 1)) <;> rfl

theorem releaseVersion_outcome (w : World) (d : Str) (v : UInt32) {version : Option UInt32}
    (hversion : version = some v ∨ version = none ∧
      (listedVersions w.disk (push w.storage.pathPrefix d)).max? = some v) :
    ReleaseOutcome crates w d version
      ((releaseVersion w.storage.pathPrefix d v).run (meaning crates) w) := by
  rw [releaseVersion]
  simp only [perform_bind, run_call]
  split
  · exact .refused
  next hu =>
  simp only [run_call, meaning]
  cases hdir : w.disk.isDir (getVersionPath w.storage.pathPrefix d v) with
  | false => exact .refused
  | true =>
    have hv : w.disk.node (w.versionLoc d v) = some .dir := by
      rw [← w.find_versionPath]
      simpa [Disk.isDir] using hdir
    exact .released hu hv hversion

/-- **Every run of `upload_domain_with_version` takes one of these ways.** -/
theorem uploadDomainWithVersion_outcome (w : World) (d : Str) (version : Option UInt32) :
    ReleaseOutcome crates w d version
      ((uploadDomainWithVersion w.storage.pathPrefix d version).run (meaning crates) w) := by
  cases version with
  | some v => exact releaseVersion_outcome w d v (Or.inl rfl)
  | none =>
    simp only [uploadDomainWithVersion, run_bind, getDomainInfoByDomain_run]
    cases hl : listedVersions w.disk (push w.storage.pathPrefix d) with
    | nil => exact .refused
    | cons u us =>
      dsimp only [Option.map_some, Option.getD_some]
      cases hmax : (u :: us).max? with
      | none => exact .refused
      | some v => exact releaseVersion_outcome w d v (Or.inr ⟨rfl, by rw [hl, hmax]⟩)

end SpaServer
