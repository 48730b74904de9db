import Mathlib.Logic.Function.Basic
import SpaServer.Base.Path

/-!
# The disk

A `Disk` is a directory tree: what stands at each place, the places where
something stands, and the facts that make it a tree (the root is a directory,
whatever exists lies in a directory, and names are names).  These facts are
fields, so every operation hands on a tree.  There are no symbolic links, every
name is taken, and no call fails for want of space or permission; `PathWalk.lean`
has what a system does that does not take every name.

The operations are those of `std::fs` and `walkdir` on path text:

* `exists`, `isDir`: `Path::exists`, `Path::is_dir`;
* `createDirAll`, `createFile`, `openFile`, `writeAll`: `fs::create_dir_all`,
  `File::create` (opens for writing and truncates), `File::open` (opens for
  reading only), `Write::write_all`, which makes no call at all for no data;
* `removeFile`, `removeDirAll`: `fs::remove_file`, `fs::remove_dir_all`;
* `walkDir`, `readDir`: `WalkDir::new(..).into_iter().filter_map(|x| x.ok())`
  and `fs::read_dir`, in no particular order.

Each has one lemma that says what it leaves behind: `Disk.mkdirs_spec`,
`Disk.createFile_cases`, `Disk.writeAll_cases` and so on.
-/

namespace SpaServer.Base

structure FileData where
  bytes : List UInt8
  modified : Nat
  deriving DecidableEq

inductive Node where
  | file (data : FileData)
  | dir
  deriving DecidableEq

def Node.isFile : Node → Bool
  | file _ => true
  | dir => false

@[simp] theorem Node.isFile_file (f : FileData) : (Node.file f).isFile = true := rfl

@[simp] theorem Node.isFile_dir : Node.dir.isFile = false := rfl

inductive IoError where
  | notFound
  | alreadyExists
  | notADirectory
  | isADirectory
  | badDescriptor
  | busy
  deriving DecidableEq

structure Handle where
  loc : Loc
  writable : Bool
  deriving DecidableEq

/-- A directory tree, with the working directory and the time that new files get. -/
structure Disk where
  cwd : Loc
  now : Nat
  node : Loc → Option Node
  dom : List Loc
  nodup : dom.Nodup
  mem_dom : ∀ l, l ∈ dom ↔ node l ≠ none
  root : node [] = some .dir
  closed : ∀ l, l ≠ [] → node l ≠ none → node l.dropLast = some .dir
  plain : ∀ l, node l ≠ none → ∀ c ∈ l, c.Plain
  cwdPlain : ∀ c ∈ cwd, c.Plain

namespace Disk

def locate (dk : Disk) (p : PathBuf) : Loc := Base.locate dk.cwd p

def find (dk : Disk) (p : PathBuf) : Option Node :=
  if p = [] then none
  else match dk.node (dk.locate p) with
    | some (.file f) => if mustBeDir p then none else some (.file f)
    | n => n

/-- The error of a path that leads to nothing: a file is taken for a directory, or a name is not
there. -/
def notFound (dk : Disk) (p : PathBuf) : IoError :=
  if (dk.locate p).inits.any fun l => (dk.node l).any Node.isFile then .notADirectory
  else .notFound

def exists? (dk : Disk) (p : PathBuf) : Bool := (dk.find p).isSome

def isDir (dk : Disk) (p : PathBuf) : Bool := dk.find p = some .dir

theorem ne_nil_of_exists (dk : Disk) {p : PathBuf} (h : dk.exists? p = true) : p ≠ [] := by
  rintro rfl
  simp [exists?, find] at h

theorem find_of_dir {dk : Disk} {p : PathBuf} (hp : p ≠ [])
    (h : dk.node (dk.locate p) = some .dir) : dk.find p = some .dir := by
  rw [find, if_neg hp, h]

/-! ### Ancestors -/

theorem node_prefix (dk : Disk) {l m : Loc} (h : l <+: m) (hne : l ≠ m)
    (hm : dk.node m ≠ none) : dk.node l = some .dir := by
  obtain ⟨t, rfl⟩ := h
  induction t using List.reverseRecOn with
  | nil => exact absurd (List.append_nil l).symm hne
  | append_singleton t c ih =>
    have hd := dk.closed (l ++ (t ++ [c])) (by simp) hm
    rw [← List.append_assoc, List.dropLast_concat] at hd
    by_cases ht : t = []
    · subst ht
      rwa [List.append_nil] at hd
    · exact ih (by simpa using ht) (by rw [hd]; simp)

theorem node_onWay (dk : Disk) {l m : Loc} (h : l <+: m.dropLast) (hne : m ≠ [])
    (hm : dk.node m ≠ none) : dk.node l = some .dir := by
  refine dk.node_prefix (h.trans (List.dropLast_prefix _)) (fun he => ?_) hm
  have := h.length_le
  have := List.length_pos_iff.mpr hne
  rw [he, List.length_dropLast] at *
  omega

theorem node_append_none (dk : Disk) {l : Loc} (h : dk.node l ≠ some .dir) {t : Loc}
    (ht : t ≠ []) : dk.node (l ++ t) = none := by
  by_contra hn
  exact h (dk.node_prefix (List.prefix_append l t) (by simpa using ht) hn)

theorem locate_plain (dk : Disk) (p : PathBuf) : ∀ c ∈ dk.locate p, c.Plain := by
  have hsegs : ∀ (segs : List Str) (cur : Loc), (∀ s ∈ segs, '/' ∉ s) → (∀ c ∈ cur, c.Plain) →
      ∀ c ∈ segs.foldl stepInto cur, c.Plain := by
    intro segs
    induction segs with
    | nil => intro cur _ hcur; exact hcur
    | cons seg segs ih =>
      intro cur hsep hcur
      refine ih _ (fun s hs => hsep s (List.mem_cons_of_mem _ hs)) ?_
      intro c hc
      rw [stepInto] at hc
      split at hc
      · exact hcur c hc
      next h1 =>
      split at hc
      · exact hcur c (List.dropLast_subset _ hc)
      next h2 =>
      rcases List.mem_append.mp hc with hc | hc
      · exact hcur c hc
      · obtain rfl := List.mem_singleton.mp hc
        rw [not_or] at h1
        exact ⟨h1.1, hsep seg List.mem_cons_self, h1.2, h2⟩
  refine hsegs _ _ (fun s hs => not_mem_of_mem_splitOn hs) ?_
  split
  · simp
  · exact dk.cwdPlain

/-! ### Changing one place -/

/-- `n` can be put at `l`: it is a new entry of a directory, or a file over a file. -/
def CanHold (dk : Disk) (l : Loc) (n : Node) : Prop :=
  l ≠ [] ∧ dk.node l.dropLast = some .dir ∧ (∀ c ∈ l, c.Plain) ∧
    (dk.node l = none ∨ (dk.node l).any Node.isFile = true ∧ n.isFile = true)

instance (c : OsName) : Decidable c.Plain := by
  cases c
  · exact inferInstanceAs (Decidable (Base.Plain _))
  · exact inferInstanceAs (Decidable True)

instance (dk : Disk) (l : Loc) (n : Node) : Decidable (dk.CanHold l n) :=
  inferInstanceAs (Decidable (_ ∧ _))

def set (dk : Disk) (l : Loc) (n : Node) (h : dk.CanHold l n) : Disk where
  cwd := dk.cwd
  now := dk.now
  node := Function.update dk.node l (some n)
  dom := if l ∈ dk.dom then dk.dom else l :: dk.dom
  nodup := by
    split
    · exact dk.nodup
    · next hl => exact List.nodup_cons.mpr ⟨hl, dk.nodup⟩
  mem_dom m := by
    by_cases hm : m = l
    · subst hm
      split <;> simp_all
    · rw [Function.update_of_ne hm, ← dk.mem_dom]
      split
      · rfl
      · simp [hm]
  root := by rw [Function.update_of_ne (Ne.symm h.1), dk.root]
  closed m hm hn := by
    by_cases hml : m = l
    · subst hml
      rw [Function.update_of_ne (by
        intro he
        have := congrArg List.length he
        have := List.length_pos_iff.mpr hm
        simp only [List.length_dropLast] at *
        omega)]
      exact h.2.1
    · rw [Function.update_of_ne hml] at hn
      have hd := dk.closed m hm hn
      by_cases hdl : m.dropLast = l
      · rw [hdl] at hd
        rcases h.2.2.2 with hl | hl
        · rw [hl] at hd; exact absurd hd (by simp)
        · rw [hd] at hl; exact absurd hl.1 (by simp)
      · rw [Function.update_of_ne hdl, hd]
  plain m hn := by
    by_cases hml : m = l
    · subst hml; exact h.2.2.1
    · rw [Function.update_of_ne hml] at hn
      exact dk.plain m hn
  cwdPlain := dk.cwdPlain

@[simp] theorem set_cwd (dk : Disk) {l : Loc} {n : Node} (h : dk.CanHold l n) :
    (dk.set l n h).cwd = dk.cwd := rfl

@[simp] theorem set_node_self (dk : Disk) {l : Loc} {n : Node} (h : dk.CanHold l n) :
    (dk.set l n h).node l = some n := Function.update_self ..

theorem set_node_of_ne (dk : Disk) {l m : Loc} {n : Node} (h : dk.CanHold l n) (hm : m ≠ l) :
    (dk.set l n h).node m = dk.node m := Function.update_of_ne hm ..

theorem canHold_file (dk : Disk) {l : Loc} {f : FileData} (h : dk.node l = some (.file f))
    (g : FileData) : dk.CanHold l (.file g) := by
  have hl : l ≠ [] := by rintro rfl; rw [dk.root] at h; simp at h
  exact ⟨hl, dk.closed l hl (by simp [h]), dk.plain l (by simp [h]), Or.inr (by simp [h])⟩

def removeTree (dk : Disk) (l : Loc) (h : l ≠ []) : Disk where
  cwd := dk.cwd
  now := dk.now
  node m := if l <+: m then none else dk.node m
  dom := dk.dom.filter fun m => ¬ l <+: m
  nodup := dk.nodup.filter _
  mem_dom m := by
    by_cases hm : l <+: m <;> simp [hm, dk.mem_dom]
  root := by
    rw [if_neg (by simpa using h)]
    exact dk.root
  closed m hm hn := by
    by_cases hml : l <+: m
    · simp [hml] at hn
    · rw [if_neg hml] at hn
      rw [if_neg (fun hd => hml (hd.trans (List.dropLast_prefix m)))]
      exact dk.closed m hm hn
  plain m hn := by
    by_cases hml : l <+: m
    · simp [hml] at hn
    · rw [if_neg hml] at hn
      exact dk.plain m hn
  cwdPlain := dk.cwdPlain

theorem removeTree_node (dk : Disk) {l : Loc} (h : l ≠ []) (m : Loc) :
    (dk.removeTree l h).node m = if l <+: m then none else dk.node m := rfl

@[simp] theorem removeTree_cwd (dk : Disk) {l : Loc} (h : l ≠ []) :
    (dk.removeTree l h).cwd = dk.cwd := rfl

/-! ### Directories -/

/-- Make the directories `base/c₁`, `base/c₁/c₂`, … that are missing. -/
def mkdirs (base : Loc) : List OsName → Disk → Except IoError Unit × Disk
  | [], dk => (.ok (), dk)
  | c :: rest, dk =>
    match dk.node (base ++ [c]) with
    | some .dir => mkdirs (base ++ [c]) rest dk
    | some (.file _) => (.error (if rest = [] then .alreadyExists else .notADirectory), dk)
    | none =>
      if h : dk.CanHold (base ++ [c]) .dir then
        mkdirs (base ++ [c]) rest (dk.set (base ++ [c]) .dir h)
      else (.error .notFound, dk)

def createDirAll (dk : Disk) (p : PathBuf) : Except IoError Unit × Disk :=
  if p = [] then (.ok (), dk) else mkdirs [] (dk.locate p) dk

/-- **What `mkdirs` leaves behind.**  Nothing that existed changes, what is new is
a directory on the way to the last one, and on success the last one is there. -/
theorem mkdirs_spec : ∀ (rest : List OsName) (base : Loc) (dk : Disk),
    dk.node base = some .dir → (∀ c ∈ rest, c.Plain) →
    (∀ c ∈ base, c.Plain) →
    (mkdirs base rest dk).2.cwd = dk.cwd ∧
    ((mkdirs base rest dk).1 = .ok () →
      (mkdirs base rest dk).2.node (base ++ rest) = some .dir) ∧
    ∀ l, (mkdirs base rest dk).2.node l = dk.node l ∨
      dk.node l = none ∧ (mkdirs base rest dk).2.node l = some .dir ∧ l <+: base ++ rest
  | [], base, dk, h, _, _ => ⟨rfl, fun _ => by rw [List.append_nil]; exact h, fun _ => Or.inl rfl⟩
  | c :: rest, base, dk, h, hp, hb => by
    have hrest : ∀ d ∈ rest, d.Plain := fun d hd => hp d (List.mem_cons_of_mem _ hd)
    have hbase : ∀ d ∈ base ++ [c], d.Plain := by
      intro d hd
      rcases List.mem_append.mp hd with hd | hd
      · exact hb d hd
      · exact hp d (by simpa using Or.inl hd)
    have happ : base ++ c :: rest = base ++ [c] ++ rest := by simp
    rw [mkdirs, happ]
    cases hn : dk.node (base ++ [c]) with
    | some n =>
      cases n with
      | dir => exact mkdirs_spec rest (base ++ [c]) dk hn hrest hbase
      | file f => exact ⟨rfl, fun he => by simp at he, fun _ => Or.inl rfl⟩
    | none =>
      have hcan : dk.CanHold (base ++ [c]) .dir :=
        ⟨by simp, by rw [List.dropLast_concat]; exact h, hbase, Or.inl hn⟩
      obtain ⟨hcwd, hok, hframe⟩ := mkdirs_spec rest (base ++ [c]) (dk.set _ .dir hcan)
        (dk.set_node_self hcan) hrest hbase
      simp only [dif_pos hcan]
      refine ⟨hcwd, hok, fun l => ?_⟩
      by_cases hl : l = base ++ [c]
      · subst hl
        rcases hframe (base ++ [c]) with he | ⟨he, _⟩
        · exact Or.inr ⟨hn, by rw [he]; exact dk.set_node_self hcan, List.prefix_append _ _⟩
        · rw [dk.set_node_self hcan] at he; exact absurd he (by simp)
      · rcases hframe l with he | ⟨he, hd, hpre⟩
        · exact Or.inl (by rw [he, dk.set_node_of_ne hcan hl])
        · exact Or.inr ⟨by rwa [dk.set_node_of_ne hcan hl] at he, hd, hpre⟩

theorem mkdirs_error : ∀ (rest : List OsName) (base : Loc) (dk : Disk) (e : IoError),
    dk.node base = some .dir → (∀ c ∈ base ++ rest, c.Plain) →
    (mkdirs base rest dk).1 = .error e → (mkdirs base rest dk).2.node (base ++ rest) ≠ some .dir
  | [], base, dk, e, _, _, herr => absurd herr (by simp [mkdirs])
  | c :: rest, base, dk, e, h, hp, herr => by
    have happ : base ++ c :: rest = base ++ [c] ++ rest := by simp
    rw [mkdirs] at herr ⊢
    rw [happ] at hp ⊢
    cases hn : dk.node (base ++ [c]) with
    | some n =>
      simp only [hn] at herr ⊢
      cases n with
      | dir => exact mkdirs_error rest (base ++ [c]) dk e hn hp herr
      | file f =>
        by_cases hr : rest = []
        · subst hr
          rw [List.append_nil, hn]
          simp
        · rw [dk.node_append_none (by rw [hn]; simp) hr]
          simp
    | none =>
      have hcan : dk.CanHold (base ++ [c]) .dir :=
        ⟨by simp, by rw [List.dropLast_concat]; exact h,
          fun d hd => hp d (List.mem_append_left _ hd), Or.inl hn⟩
      simp only [hn, dif_pos hcan] at herr ⊢
      exact mkdirs_error rest (base ++ [c]) _ e (dk.set_node_self hcan) hp herr

theorem mkdirs_ok : ∀ (rest : List OsName) (base : Loc) (dk : Disk),
    dk.node base = some .dir → (∀ c ∈ base ++ rest, c.Plain) →
    (∀ l f, l <+: base ++ rest → dk.node l ≠ some (.file f)) → (mkdirs base rest dk).1 = .ok ()
  | [], _, _, _, _, _ => rfl
  | c :: rest, base, dk, h, hp, hfree => by
    have happ : base ++ c :: rest = base ++ [c] ++ rest := by simp
    rw [mkdirs]
    rw [happ] at hp hfree
    cases hn : dk.node (base ++ [c]) with
    | some n =>
      cases n with
      | dir => exact mkdirs_ok rest (base ++ [c]) dk hn hp hfree
      | file f => exact absurd hn (hfree _ f (List.prefix_append _ _))
    | none =>
      have hcan : dk.CanHold (base ++ [c]) .dir :=
        ⟨by simp, by rw [List.dropLast_concat]; exact h,
          fun d hd => hp d (List.mem_append_left _ hd), Or.inl hn⟩
      simp only [dif_pos hcan]
      refine mkdirs_ok rest (base ++ [c]) _ (dk.set_node_self hcan) hp fun l f hl => ?_
      by_cases he : l = base ++ [c]
      · rw [he, dk.set_node_self hcan]
        simp
      · rw [dk.set_node_of_ne hcan he]
        exact hfree l f hl

/-- `dk'` is `dk` with some directories more, all of them on the way to `target`. -/
def NewDirs (dk dk' : Disk) (target : Loc) : Prop :=
  dk'.cwd = dk.cwd ∧
    ∀ l, dk'.node l = dk.node l ∨ dk.node l = none ∧ dk'.node l = some .dir ∧ l <+: target

theorem NewDirs.refl (dk : Disk) (target : Loc) : dk.NewDirs dk target :=
  ⟨rfl, fun _ => Or.inl rfl⟩

theorem NewDirs.mono {dk dk' : Disk} {target target' : Loc} (h : dk.NewDirs dk' target)
    (ht : target <+: target') : dk.NewDirs dk' target' :=
  ⟨h.1, fun l => (h.2 l).imp_right fun hn => ⟨hn.1, hn.2.1, hn.2.2.trans ht⟩⟩

theorem NewDirs.of_not_prefix {dk dk' : Disk} {target l : Loc} (h : dk.NewDirs dk' target)
    (hl : ¬ l <+: target) : dk'.node l = dk.node l :=
  (h.2 l).resolve_right fun hn => hl hn.2.2

theorem NewDirs.file_iff {dk dk' : Disk} {target l : Loc} (h : dk.NewDirs dk' target)
    {f : FileData} : dk'.node l = some (.file f) ↔ dk.node l = some (.file f) := by
  rcases h.2 l with he | ⟨hn, hd, _⟩
  · rw [he]
  · rw [hn, hd]; simp

theorem createDirAll_spec (dk : Disk) (p : PathBuf) :
    dk.NewDirs (dk.createDirAll p).2 (dk.locate p) ∧
    (p ≠ [] → (dk.createDirAll p).1 = .ok () →
      (dk.createDirAll p).2.node (dk.locate p) = some .dir) := by
  rw [createDirAll]
  split
  · exact ⟨NewDirs.refl dk _, fun h => absurd ‹_› h⟩
  · have h := mkdirs_spec (dk.locate p) [] dk dk.root (dk.locate_plain p) (by simp)
    exact ⟨⟨h.1, by simpa using h.2.2⟩, fun _ hok => by simpa using h.2.1 hok⟩

theorem createDirAll_error (dk : Disk) {p : PathBuf} {e : IoError}
    (h : (dk.createDirAll p).1 = .error e) :
    (dk.createDirAll p).2.node (dk.locate p) = dk.node (dk.locate p) := by
  have hne : (dk.createDirAll p).2.node (dk.locate p) ≠ some .dir := by
    rw [createDirAll] at h ⊢
    split at h
    · exact absurd h (by simp)
    next hp =>
    rw [if_neg hp]
    simpa using mkdirs_error (dk.locate p) [] dk e dk.root (by simpa using dk.locate_plain p) h
  rcases (dk.createDirAll_spec p).1.2 (dk.locate p) with he | ⟨_, hd, _⟩
  · exact he
  · exact absurd hd hne

theorem createDirAll_ok (dk : Disk) {p : PathBuf}
    (h : ∀ l f, l <+: dk.locate p → dk.node l ≠ some (.file f)) : (dk.createDirAll p).1 = .ok () := by
  rw [createDirAll]
  split
  · rfl
  · exact mkdirs_ok (dk.locate p) [] dk dk.root (by simpa using dk.locate_plain p) (by simpa using h)

/-- `dk'` is `dk` with some nodes more, all of them on the way to `target`. -/
def AddsAlong (dk dk' : Disk) (target : Loc) : Prop :=
  ∀ l, dk'.node l = dk.node l ∨ dk.node l = none ∧ l <+: target

theorem AddsAlong.refl (dk : Disk) (target : Loc) : dk.AddsAlong dk target := fun _ => Or.inl rfl

theorem AddsAlong.none_of_none {dk dk' : Disk} {target l : Loc} (h : dk.AddsAlong dk' target)
    (hl : dk'.node l = none) : dk.node l = none := by
  rcases h l with he | ⟨he, _⟩
  · rw [← he, hl]
  · exact he

theorem NewDirs.addsAlong {dk dk' : Disk} {target : Loc} (h : dk.NewDirs dk' target) :
    dk.AddsAlong dk' target := fun l =>
  (h.2 l).imp_right fun hn => ⟨hn.1, hn.2.2⟩

theorem AddsAlong.mono {dk dk' : Disk} {target target' : Loc} (h : dk.AddsAlong dk' target)
    (ht : target <+: target') : dk.AddsAlong dk' target' := fun l =>
  (h l).imp_right fun hn => ⟨hn.1, hn.2.trans ht⟩

/-! ### Files -/

def createFile (dk : Disk) (p : PathBuf) : Except IoError Handle × Disk :=
  if h : ¬ mustBeDir p ∧ dk.CanHold (dk.locate p) (.file ⟨[], dk.now⟩) then
    (.ok ⟨dk.locate p, true⟩, dk.set _ _ h.2)
  else if (dk.find p).any (fun n => !n.isFile) || p.getLast? = some '/' then
    (.error .isADirectory, dk)
  else (.error (dk.notFound p), dk)

def openFile (dk : Disk) (p : PathBuf) : Except IoError Handle :=
  if dk.exists? p then .ok ⟨dk.locate p, false⟩ else .error (dk.notFound p)

def writeAll (dk : Disk) (h : Handle) (data : List UInt8) : Except IoError Unit × Disk :=
  if data = [] then (.ok (), dk)
  else if h.writable then
    match dk.node h.loc with
    | some (.file f) =>
      let f' : FileData := ⟨data ++ f.bytes.drop data.length, dk.now⟩
      if hc : dk.CanHold h.loc (.file f') then (.ok (), dk.set h.loc (.file f') hc)
      else (.ok (), dk)
    | _ => (.ok (), dk)
  else (.error .badDescriptor, dk)

def removeFile (dk : Disk) (p : PathBuf) : Except IoError Unit × Disk :=
  match dk.find p with
  | some (.file _) =>
    if h : dk.locate p ≠ [] then (.ok (), dk.removeTree (dk.locate p) h)
    else (.error .busy, dk)
  | some .dir => (.error .isADirectory, dk)
  | none => (.error (dk.notFound p), dk)

def removeDirAll (dk : Disk) (p : PathBuf) : Except IoError Unit × Disk :=
  match dk.find p with
  | some .dir =>
    if h : dk.locate p ≠ [] then (.ok (), dk.removeTree (dk.locate p) h)
    else (.error .busy, dk)
  | some (.file _) => (.error .notADirectory, dk)
  | none => (.error (dk.notFound p), dk)

theorem find_eq_dir {dk : Disk} {p : PathBuf} (h : dk.find p = some .dir) :
    p ≠ [] ∧ dk.node (dk.locate p) = some .dir := by
  rw [find] at h
  split at h
  · exact absurd h (by simp)
  next hp =>
  refine ⟨hp, ?_⟩
  split at h
  · split at h
    · exact absurd h (by simp)
    · exact absurd h (by simp)
  · exact h

theorem find_eq_file {dk : Disk} {p : PathBuf} {f : FileData} (h : dk.find p = some (.file f)) :
    p ≠ [] ∧ mustBeDir p = false ∧ dk.node (dk.locate p) = some (.file f) := by
  rw [find] at h
  split at h
  · exact absurd h (by simp)
  next hp =>
  refine ⟨hp, ?_⟩
  split at h
  · split at h
    · exact absurd h (by simp)
    · next hm hd => exact ⟨by simpa using hd, hm.trans h⟩
  · next hn => exact absurd h (hn f)

theorem find_eq_none {dk : Disk} {p : PathBuf} (h : dk.node (dk.locate p) = none) :
    dk.find p = none := by
  rw [find, h]
  split <;> rfl

/-- A path that ends in a name leads to whatever stands at its place. -/
theorem find_eq_node {dk : Disk} {p : PathBuf} (hp : p ≠ []) (hm : mustBeDir p = false) :
    dk.find p = dk.node (dk.locate p) := by
  rw [find, if_neg hp]
  split
  · next h => rw [h, if_neg (by simp [hm])]
  · rfl

/-- `File::create` fails and changes nothing, or leaves an empty file there. -/
theorem createFile_cases (dk : Disk) (p : PathBuf) :
    (∃ e, dk.createFile p = (.error e, dk)) ∨
    ∃ h : dk.CanHold (dk.locate p) (.file ⟨[], dk.now⟩), mustBeDir p = false ∧
      dk.createFile p = (.ok ⟨dk.locate p, true⟩, dk.set _ _ h) := by
  rw [createFile]
  split
  · next h => exact Or.inr ⟨h.2, by simpa using h.1, rfl⟩
  · split
    · exact Or.inl ⟨_, rfl⟩
    · exact Or.inl ⟨_, rfl⟩

theorem createFile_ok {dk : Disk} {p : PathBuf} (hm : mustBeDir p = false)
    (h : dk.CanHold (dk.locate p) (.file ⟨[], dk.now⟩)) :
    dk.createFile p = (.ok ⟨dk.locate p, true⟩, dk.set _ _ h) := by
  rw [createFile, dif_pos ⟨by simp [hm], h⟩]

/-- `write_all` changes nothing, or the bytes of the file the handle is on. -/
theorem writeAll_cases (dk : Disk) (h : Handle) (data : List UInt8) :
    (dk.writeAll h data).2 = dk ∨
    ∃ f, dk.node h.loc = some (.file f) ∧ h.writable = true ∧ data ≠ [] ∧
      ∃ hc : dk.CanHold h.loc (.file ⟨data ++ f.bytes.drop data.length, dk.now⟩),
        dk.writeAll h data = (.ok (), dk.set _ _ hc) := by
  rw [writeAll]
  split
  · exact Or.inl rfl
  next hd =>
  split
  · next hw =>
    cases hn : dk.node h.loc with
    | none => exact Or.inl rfl
    | some n =>
      cases n with
      | dir => exact Or.inl rfl
      | file f =>
        have hc := dk.canHold_file hn ⟨data ++ f.bytes.drop data.length, dk.now⟩
        exact Or.inr ⟨f, rfl, hw, hd, hc, by simp only [dif_pos hc]⟩
  · exact Or.inl rfl

theorem writeAll_readOnly {dk : Disk} {l : Loc} {data : List UInt8} :
    dk.writeAll ⟨l, false⟩ data = (if data = [] then .ok () else .error .badDescriptor, dk) := by
  rw [writeAll]
  split <;> rfl

theorem writeAll_created {dk : Disk} {l : Loc} {t : Nat} (h : dk.node l = some (.file ⟨[], t⟩))
    (data : List UInt8) : ∃ dk' t', dk.writeAll ⟨l, true⟩ data = (.ok (), dk') ∧
      dk'.cwd = dk.cwd ∧ dk'.node l = some (.file ⟨data, t'⟩) ∧
      ∀ m, m ≠ l → dk'.node m = dk.node m := by
  by_cases hd : data = []
  · subst hd
    exact ⟨dk, t, by simp [writeAll], rfl, h, fun _ _ => rfl⟩
  · have hc := dk.canHold_file h ⟨data, dk.now⟩
    refine ⟨dk.set l _ hc, dk.now, ?_, rfl, dk.set_node_self hc, fun m hm => dk.set_node_of_ne hc hm⟩
    simp only [writeAll, if_neg hd, if_pos, h, List.drop_nil, List.append_nil, dif_pos hc]

theorem removeFile_cases (dk : Disk) (p : PathBuf) :
    (∃ e, dk.removeFile p = (.error e, dk)) ∨
    ∃ f, dk.find p = some (.file f) ∧ ∃ h : dk.locate p ≠ [],
      dk.removeFile p = (.ok (), dk.removeTree (dk.locate p) h) := by
  rw [removeFile]
  cases hf : dk.find p with
  | none => exact Or.inl ⟨_, rfl⟩
  | some n =>
    cases n with
    | dir => exact Or.inl ⟨_, rfl⟩
    | file f =>
      have hl : dk.locate p ≠ [] := by
        intro he
        have := (find_eq_file hf).2.2
        rw [he, dk.root] at this
        exact absurd this (by simp)
      exact Or.inr ⟨f, rfl, hl, by simp only [dif_pos hl]⟩

/-- Below a file there is nothing, so taking it out touches no other place. -/
theorem removeTree_file (dk : Disk) {l : Loc} (h : l ≠ []) (hn : dk.node l ≠ some .dir) (m : Loc) :
    (dk.removeTree l h).node m = if m = l then none else dk.node m := by
  rw [removeTree_node]
  by_cases hm : m = l
  · rw [if_pos hm, if_pos (by rw [hm])]
  rw [if_neg hm]
  split
  · next hpre =>
    obtain ⟨t, rfl⟩ := hpre
    exact (dk.node_append_none hn (by simpa using hm)).symm
  · rfl

theorem removeDirAll_cases (dk : Disk) (p : PathBuf) :
    ((∃ e, dk.removeDirAll p = (.error e, dk)) ∧ ¬ (dk.find p = some .dir ∧ dk.locate p ≠ [])) ∨
    dk.find p = some .dir ∧ ∃ h : dk.locate p ≠ [],
      dk.removeDirAll p = (.ok (), dk.removeTree (dk.locate p) h) := by
  rw [removeDirAll]
  cases hf : dk.find p with
  | none => exact Or.inl ⟨⟨_, rfl⟩, by simp⟩
  | some n =>
    cases n with
    | file f => exact Or.inl ⟨⟨_, rfl⟩, by simp⟩
    | dir =>
      by_cases hl : dk.locate p = []
      · exact Or.inl ⟨⟨.busy, by simp only [dif_neg (not_not.mpr hl)]⟩, by simp [hl]⟩
      · exact Or.inr ⟨rfl, hl, by simp only [dif_pos hl]⟩

/-- `dk'` is `dk` without the directories among the places `gone`, and what is below them. -/
def WithoutDirs (dk dk' : Disk) (gone : Loc → Prop) : Prop :=
  dk'.cwd = dk.cwd ∧ ∀ l,
    dk'.node l = none ∧ (∃ r, gone r ∧ dk.node r = some .dir ∧ r <+: l) ∨
    dk'.node l = dk.node l ∧ ¬ ∃ r, gone r ∧ dk.node r = some .dir ∧ r <+: l

theorem WithoutDirs.refl (dk : Disk) : dk.WithoutDirs dk fun _ => False :=
  ⟨rfl, fun _ => Or.inr ⟨rfl, by simp⟩⟩

theorem WithoutDirs.trans {dk dk₁ dk₂ : Disk} {gone gone' : Loc → Prop}
    (h : dk.WithoutDirs dk₁ gone) (h' : dk₁.WithoutDirs dk₂ gone') :
    dk.WithoutDirs dk₂ fun r => gone r ∨ gone' r := by
  refine ⟨h'.1.trans h.1, fun l => ?_⟩
  rcases h.2 l with ⟨hn, r, hr, hd, hpre⟩ | ⟨hn, hno⟩
  · refine Or.inl ⟨?_, r, Or.inl hr, hd, hpre⟩
    rcases h'.2 l with ⟨hn', _⟩ | ⟨hn', _⟩
    · exact hn'
    · rw [hn', hn]
  rcases h'.2 l with ⟨hn', r, hr, hd, hpre⟩ | ⟨hn', hno'⟩
  · refine Or.inl ⟨hn', r, Or.inr hr, ?_, hpre⟩
    rcases h.2 r with ⟨hrn, _⟩ | ⟨hrn, _⟩
    · rw [hrn] at hd; exact absurd hd (by simp)
    · rw [← hrn, hd]
  · refine Or.inr ⟨hn'.trans hn, ?_⟩
    rintro ⟨r, hr | hr, hd, hpre⟩
    · exact hno ⟨r, hr, hd, hpre⟩
    · rcases h.2 r with ⟨_, p, hp, hpd, hpr⟩ | ⟨hrn, _⟩
      · exact hno ⟨p, hp, hpd, hpr.trans hpre⟩
      · exact hno' ⟨r, hr, by rw [hrn, hd], hpre⟩

theorem WithoutDirs.congr {dk dk' : Disk} {gone gone' : Loc → Prop}
    (h : dk.WithoutDirs dk' gone) (hg : ∀ r, gone r ↔ gone' r) : dk.WithoutDirs dk' gone' := by
  rwa [← funext fun r => propext (hg r)]

/-- The directory at `l` is lost just when it was at or below one of those taken out. -/
theorem WithoutDirs.node_eq_none {dk dk' : Disk} {gone : Loc → Prop}
    (h : dk.WithoutDirs dk' gone) {l : Loc} (hl : dk.node l ≠ none) :
    dk'.node l = none ↔ ∃ r, gone r ∧ dk.node r = some .dir ∧ r <+: l := by
  rcases h.2 l with ⟨hn, hr⟩ | ⟨hn, hr⟩
  · exact ⟨fun _ => hr, fun _ => hn⟩
  · exact ⟨fun he => absurd (hn ▸ he) hl, fun he => absurd he hr⟩

/-- `remove_dir_all` takes out the directory it is given, if it is one. -/
theorem removeDirAll_spec (dk : Disk) {p : PathBuf} (hp : p ≠ []) (hm : mustBeDir p = false)
    (hl : dk.locate p ≠ []) :
    dk.WithoutDirs (dk.removeDirAll p).2 fun r => r = dk.locate p := by
  have hfind := @find_eq_node dk p hp hm
  rcases dk.removeDirAll_cases p with ⟨⟨e, he⟩, hno⟩ | ⟨hd, h, he⟩
  · rw [he]
    refine ⟨rfl, fun l => Or.inr ⟨rfl, ?_⟩⟩
    rintro ⟨r, rfl, hd, _⟩
    exact hno ⟨by rw [hfind, hd], hl⟩
  · rw [he]
    refine ⟨rfl, fun l => ?_⟩
    rw [hfind] at hd
    show (if _ then none else _) = none ∧ _ ∨ (if _ then none else _) = _ ∧ _
    by_cases hpre : dk.locate p <+: l
    · exact Or.inl ⟨if_pos hpre, _, rfl, hd, hpre⟩
    · refine Or.inr ⟨if_neg hpre, ?_⟩
      rintro ⟨r, rfl, _, h'⟩
      exact hpre h'

theorem find_congr {dk dk' : Disk} {p : PathBuf} (hcwd : dk'.cwd = dk.cwd)
    (hnode : dk'.node (dk.locate p) = dk.node (dk.locate p)) : dk'.find p = dk.find p := by
  have hloc : dk'.locate p = dk.locate p := by
    unfold Disk.locate
    rw [hcwd]
  unfold Disk.find
  rw [hloc, hnode]

structure SameBelow (dk dk' : Disk) (root : PathBuf) : Prop where
  cwd : dk'.cwd = dk.cwd
  node : ∀ l, dk.locate root <+: l → dk'.node l = dk.node l

theorem SameBelow.find {dk dk' : Disk} {root p : PathBuf} (h : dk.SameBelow dk' root)
    (hp : dk.locate root <+: dk.locate p) : dk'.find p = dk.find p :=
  find_congr h.cwd (h.node _ hp)

/-! ### Listings and set-up -/

/-- `walkdir::DirEntry`: the path the walk started at, the names below it, and what is there. -/
structure Entry where
  root : PathBuf
  rel : List OsName
  node : Node

/-- `DirEntry::file_name`. -/
def Entry.fileName (e : Entry) : OsName :=
  e.rel.getLast?.getD (.utf8 ((Base.fileName e.root).getD e.root))

/-- `DirEntry::path().to_str()`. -/
def Entry.text (e : Entry) : Option Str :=
  e.rel.foldlM (fun p c => c.toStr.map (push p)) e.root

/-- The entries from `p` downwards, at most `maxDepth` levels, `p` itself included. -/
def walkDir (dk : Disk) (p : PathBuf) (maxDepth : Option Nat) : List Entry :=
  let base := dk.locate p
  match dk.find p with
  | none => []
  | some (.file f) => [⟨p, [], .file f⟩]
  | some .dir =>
    dk.dom.filterMap fun l =>
      if base <+: l ∧ maxDepth.all (fun k => l.length ≤ base.length + k) then
        (dk.node l).map fun n => ⟨p, l.drop base.length, n⟩
      else none

def readDir (dk : Disk) (p : PathBuf) : Except IoError (List OsName) :=
  match dk.find p with
  | none => .error (dk.notFound p)
  | some (.file _) => .error .notADirectory
  | some .dir =>
    .ok (dk.dom.filterMap fun l =>
      if dk.locate p <+: l ∧ l.length = (dk.locate p).length + 1 then l.getLast? else none)

def empty : Disk where
  cwd := []
  now := 0
  node l := if l = [] then some .dir else none
  dom := [[]]
  nodup := by simp
  mem_dom l := by simp
  root := rfl
  closed l hl hn := by simp [hl] at hn
  plain l hn := by
    have : l = [] := by simpa using hn
    subst this
    simp
  cwdPlain := by simp

def withFile (dk : Disk) (p : PathBuf) (bytes : List UInt8) : Disk :=
  let dk := (dk.createDirAll ((parent p).getD [])).2
  match dk.createFile p with
  | (.ok h, dk) => (dk.writeAll h bytes).2
  | (.error _, dk) => dk

def withDir (dk : Disk) (p : PathBuf) : Disk := (dk.createDirAll p).2

/-- **What a walk lists**: what stands at or below the place `p` leads to. -/
theorem mem_walkDir {dk : Disk} {p : PathBuf} {k : Option Nat} {e : Entry} :
    e ∈ dk.walkDir p k ↔ e.root = p ∧ dk.find p ≠ none ∧
      dk.node (dk.locate p ++ e.rel) = some e.node ∧ ∀ n ∈ k, e.rel.length ≤ n := by
  rw [walkDir]
  cases hf : dk.find p with
  | none => simp
  | some n =>
    obtain ⟨root, rel, node⟩ := e
    cases n with
    | file f =>
      have hn := (find_eq_file hf).2.2
      simp only [List.mem_singleton, Entry.mk.injEq]
      constructor
      · rintro ⟨rfl, rfl, rfl⟩
        exact ⟨rfl, by simp, by simpa using hn, by simp⟩
      · rintro ⟨rfl, _, hrel, _⟩
        by_cases hr : rel = []
        · subst hr
          rw [List.append_nil, hn] at hrel
          exact ⟨rfl, rfl, (Option.some.inj hrel).symm⟩
        · rw [dk.node_append_none (by rw [hn]; simp) hr] at hrel
          exact absurd hrel (by simp)
    | dir =>
      simp only [List.mem_filterMap]
      constructor
      · rintro ⟨l, _, hl⟩
        split at hl
        · next hc =>
          obtain ⟨⟨t, rfl⟩, hk⟩ := hc
          rw [Option.map_eq_some_iff] at hl
          obtain ⟨m, hm, he⟩ := hl
          simp only [List.drop_left, Entry.mk.injEq] at he
          obtain ⟨rfl, rfl, rfl⟩ := he
          refine ⟨rfl, by simp, hm, fun n hn => ?_⟩
          rw [Option.mem_def] at hn
          simp only [hn, Option.all_some, List.length_append, decide_eq_true_eq] at hk
          omega
        · exact absurd hl (by simp)
      · rintro ⟨rfl, _, hn, hk⟩
        refine ⟨dk.locate root ++ rel, (dk.mem_dom _).mpr (by rw [hn]; simp), ?_⟩
        have hdepth : k.all
            (fun n => (dk.locate root ++ rel).length ≤ (dk.locate root).length + n) := by
          cases k with
          | none => rfl
          | some n => simpa using hk n rfl
        rw [if_pos ⟨List.prefix_append _ _, hdepth⟩, hn, Option.map_some, List.drop_left]

/-- What a walk lists is told by what stands at and below its place. -/
theorem SameBelow.mem_walkDir {dk dk' : Disk} {root : PathBuf} (h : dk.SameBelow dk' root)
    {k : Option Nat} {e : Entry} : e ∈ dk'.walkDir root k ↔ e ∈ dk.walkDir root k := by
  have hloc : dk'.locate root = dk.locate root := by
    unfold Disk.locate
    rw [h.cwd]
  rw [Disk.mem_walkDir, Disk.mem_walkDir, h.find (List.prefix_refl _), hloc,
    h.node _ (List.prefix_append _ _)]

theorem walkDir_nodup (dk : Disk) (p : PathBuf) (k : Option Nat) : (dk.walkDir p k).Nodup := by
  rw [walkDir]
  split
  · exact List.nodup_nil
  · exact List.pairwise_singleton _ _
  · rw [List.Nodup, List.pairwise_filterMap]
    refine dk.nodup.imp fun {l l'} hne e he e' he' heq => hne ?_
    subst heq
    split at he
    · next hl =>
      split at he'
      · next hl' =>
        obtain ⟨n, -, rfl⟩ := Option.map_eq_some_iff.mp he
        obtain ⟨n', -, hn'⟩ := Option.map_eq_some_iff.mp he'
        have hdrop := (Entry.mk.inj hn').2.1
        rw [← List.prefix_iff_eq_append.mp hl.1, ← List.prefix_iff_eq_append.mp hl'.1, hdrop]
      · exact absurd he' (by simp)
    · exact absurd he (by simp)

/-- **What a directory listing holds**: the names of the entries of a directory. -/
theorem mem_readDir {dk : Disk} {p : PathBuf} {names : List OsName}
    (h : dk.readDir p = .ok names) {c : OsName} :
    c ∈ names ↔ dk.node (dk.locate p ++ [c]) ≠ none := by
  rw [readDir] at h
  cases hf : dk.find p with
  | none => rw [hf] at h; exact absurd h (by simp)
  | some n =>
    cases n with
    | file f => rw [hf] at h; exact absurd h (by simp)
    | dir =>
      rw [hf] at h
      obtain rfl := Except.ok.inj h
      simp only [List.mem_filterMap]
      constructor
      · rintro ⟨l, hl, hc⟩
        split at hc
        · next hp =>
          obtain ⟨⟨t, rfl⟩, hlen⟩ := hp
          obtain ⟨d, rfl⟩ : ∃ d, t = [d] := List.length_eq_one_iff.mp (by simpa using hlen)
          obtain rfl : d = c := by simpa using hc
          exact (dk.mem_dom _).mp hl
        · exact absurd hc (by simp)
      · intro hn
        exact ⟨_, (dk.mem_dom _).mpr hn, by simp⟩

theorem readDir_of_dir {dk : Disk} {p : PathBuf} (h : dk.find p = some .dir) :
    ∃ names, dk.readDir p = .ok names := by
  rw [readDir, h]
  exact ⟨_, rfl⟩

end Disk

end SpaServer.Base
