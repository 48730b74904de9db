import SpaServer.Base.Disk

/-!
# Areas of a disk

An area is what stands at and below a place.  Two disks that are alike in an area (`AlikeIn`)
cannot be told apart by what works in it, and what works beside it leaves it as it is:

* `AlikeIn.find`, `AlikeIn.walkDir`, `AlikeIn.openFile`: the same is seen;
* `AlikeIn.createFile`, `AlikeIn.createDirAll` and so on: the same change is made;
* `AlikeIn.createFile_beside`, `AlikeIn.createDirAll_beside` and so on: no change is made.

The directory that the area lies in is there on both disks, so that making a directory of the
area makes none outside of it.
-/

namespace SpaServer.Base

namespace Disk

/-- The disks are alike at and below the place `area`, and a directory holds it. -/
structure AlikeIn (area : Loc) (dk dk' : Disk) : Prop where
  cwd : dk'.cwd = dk.cwd
  now : dk'.now = dk.now
  parent : dk.node area.dropLast = some .dir
  parent' : dk'.node area.dropLast = some .dir
  node : ∀ l, area <+: l → dk'.node l = dk.node l
  dom : dk'.dom.filter (fun l => area <+: l) = dk.dom.filter fun l => area <+: l

variable {area l : Loc} {dk dk' : Disk} {p : PathBuf}

theorem AlikeIn.refl (h : dk.node area.dropLast = some .dir) : AlikeIn area dk dk :=
  ⟨rfl, rfl, h, h, fun _ _ => rfl, rfl⟩

theorem AlikeIn.symm (h : AlikeIn area dk dk') : AlikeIn area dk' dk :=
  ⟨h.cwd.symm, h.now.symm, h.parent', h.parent, fun l hl => (h.node l hl).symm, h.dom.symm⟩

theorem AlikeIn.trans {dk'' : Disk} (h : AlikeIn area dk dk') (h' : AlikeIn area dk' dk'') :
    AlikeIn area dk dk'' :=
  ⟨h'.cwd.trans h.cwd, h'.now.trans h.now, h.parent, h'.parent',
    fun l hl => (h'.node l hl).trans (h.node l hl), h'.dom.trans h.dom⟩

theorem AlikeIn.locate (h : AlikeIn area dk dk') (p : PathBuf) : dk'.locate p = dk.locate p := by
  unfold Disk.locate
  rw [h.cwd]

theorem prefix_dropLast {l m : Loc} (h : l <+: m) (hne : l ≠ m) : l <+: m.dropLast := by
  obtain ⟨t, rfl⟩ := h
  rw [List.dropLast_append_of_ne_nil (by simpa using hne)]
  exact List.prefix_append _ _

/-! ### Looking -/

theorem AlikeIn.find (h : AlikeIn area dk dk') (hp : area <+: dk.locate p) :
    dk'.find p = dk.find p := find_congr h.cwd (h.node _ hp)

/-- On the way to the area are directories in both. -/
theorem AlikeIn.notFound (h : AlikeIn area dk dk') (hp : area <+: dk.locate p) :
    dk'.notFound p = dk.notFound p := by
  have hnode : ∀ l ∈ (dk.locate p).inits, dk'.node l = dk.node l := by
    intro l hl
    rcases List.prefix_or_prefix_of_prefix hp ((List.mem_inits _ _).mp hl) with hl | hl
    · exact h.node l hl
    by_cases hla : l = area
    · exact h.node l (hla ▸ List.prefix_refl _)
    have hup : l <+: area.dropLast := prefix_dropLast hl hla
    by_cases hlp : l = area.dropLast
    · rw [hlp, h.parent, h.parent']
    · rw [dk.node_prefix hup hlp (by rw [h.parent]; simp),
        dk'.node_prefix hup hlp (by rw [h.parent']; simp)]
  have hany : ((dk.locate p).inits.any fun l => (dk'.node l).any Node.isFile) =
      (dk.locate p).inits.any fun l => (dk.node l).any Node.isFile := by
    rw [Bool.eq_iff_iff, List.any_eq_true, List.any_eq_true]
    exact exists_congr fun l => and_congr_right fun hl => by rw [hnode l hl]
  unfold Disk.notFound
  rw [h.locate, hany]

theorem AlikeIn.exists? (h : AlikeIn area dk dk') (hp : area <+: dk.locate p) :
    dk'.exists? p = dk.exists? p := by
  unfold Disk.exists?
  rw [h.find hp]

theorem AlikeIn.isDir (h : AlikeIn area dk dk') (hp : area <+: dk.locate p) :
    dk'.isDir p = dk.isDir p := by
  unfold Disk.isDir
  rw [h.find hp]

theorem AlikeIn.openFile (h : AlikeIn area dk dk') (hp : area <+: dk.locate p) :
    dk'.openFile p = dk.openFile p := by
  unfold Disk.openFile
  rw [h.exists? hp, h.locate, h.notFound hp]

/-- A walk in the area lists the same, in the same order. -/
theorem AlikeIn.walkDir (h : AlikeIn area dk dk') (hp : area <+: dk.locate p) (k : Option Nat) :
    dk'.walkDir p k = dk.walkDir p k := by
  unfold Disk.walkDir
  rw [h.find hp, h.locate]
  cases dk.find p with
  | none => rfl
  | some n =>
    cases n with
    | file f => rfl
    | dir =>
      -- what lies outside of the area is not listed
      have hlist : ∀ dk₁ : Disk, (∀ l, area <+: l → dk₁.node l = dk.node l) →
          (dk₁.dom.filterMap fun l =>
            if dk.locate p <+: l ∧ k.all (fun k => l.length ≤ (dk.locate p).length + k) then
              (dk₁.node l).map fun n => (⟨p, l.drop (dk.locate p).length, n⟩ : Entry)
            else none) =
          (dk₁.dom.filter fun l => area <+: l).filterMap fun l =>
            if dk.locate p <+: l ∧ k.all (fun k => l.length ≤ (dk.locate p).length + k) then
              (dk.node l).map fun n => (⟨p, l.drop (dk.locate p).length, n⟩ : Entry)
            else none := by
        intro dk₁ hnode
        rw [List.filterMap_filter]
        refine List.filterMap_congr fun l _ => ?_
        by_cases hl : area <+: l
        · rw [hnode l hl, if_pos (decide_eq_true hl)]
        · rw [if_neg (fun hc => hl (hp.trans hc.1)), if_neg (by simpa using hl)]
      dsimp only
      rw [hlist dk' h.node, hlist dk fun _ _ => rfl, h.dom]

/-! ### Changing one place -/

theorem AlikeIn.mem_dom (h : AlikeIn area dk dk') (hl : area <+: l) :
    l ∈ dk'.dom ↔ l ∈ dk.dom := by
  rw [dk'.mem_dom, dk.mem_dom, h.node l hl]

theorem ne_dropLast (hne : area ≠ []) (hl : area <+: l) : l ≠ area.dropLast := by
  rintro rfl
  have hle := hl.length_le
  have hpos := List.length_pos_iff.mpr hne
  rw [List.length_dropLast] at hle
  omega

theorem AlikeIn.canHold (h : AlikeIn area dk dk') (hl : area <+: l) {n : Node}
    (hn : dk.CanHold l n) : dk'.CanHold l n := by
  refine ⟨hn.1, ?_, hn.2.2.1, by rw [h.node l hl]; exact hn.2.2.2⟩
  by_cases he : area = l
  · rw [← he]
    exact h.parent'
  · rw [h.node _ (prefix_dropLast hl he)]
    exact hn.2.1

theorem AlikeIn.set (h : AlikeIn area dk dk') (hne : area ≠ []) (hl : area <+: l) {n : Node}
    (hn : dk.CanHold l n) (hn' : dk'.CanHold l n) : AlikeIn area (dk.set l n hn) (dk'.set l n hn')
    where
  cwd := h.cwd
  now := h.now
  parent := by rw [dk.set_node_of_ne hn (ne_dropLast hne hl).symm, h.parent]
  parent' := by rw [dk'.set_node_of_ne hn' (ne_dropLast hne hl).symm, h.parent']
  node m hm := by
    by_cases he : m = l
    · rw [he, dk.set_node_self, dk'.set_node_self]
    · rw [dk.set_node_of_ne hn he, dk'.set_node_of_ne hn' he, h.node m hm]
  dom := by
    show List.filter _ (if l ∈ dk'.dom then _ else _) = List.filter _ (if l ∈ dk.dom then _ else _)
    by_cases hd : l ∈ dk.dom
    · rw [if_pos hd, if_pos ((h.mem_dom hl).mpr hd), h.dom]
    · rw [if_neg hd, if_neg (mt (h.mem_dom hl).mp hd), List.filter_cons_of_pos (by simpa using hl),
        List.filter_cons_of_pos (by simpa using hl), h.dom]

theorem AlikeIn.set_beside (h : AlikeIn area dk dk') (hl : ¬ area <+: l) {n : Node}
    (hn : dk.CanHold l n) : AlikeIn area (dk.set l n hn) dk' where
  cwd := h.cwd
  now := h.now
  parent := by
    have hpl : area.dropLast ≠ l := by
      rintro rfl
      rcases hn.2.2.2 with hnone | ⟨hfile, -⟩
      · rw [h.parent] at hnone
        exact absurd hnone (by simp)
      · rw [h.parent] at hfile
        exact absurd hfile (by simp)
    rw [dk.set_node_of_ne hn hpl, h.parent]
  parent' := h.parent'
  node m hm := by
    rw [dk.set_node_of_ne hn (by rintro rfl; exact hl hm), h.node m hm]
  dom := by
    show _ = List.filter _ (if l ∈ dk.dom then _ else _)
    split
    · exact h.dom
    · rw [List.filter_cons_of_neg (by simpa using hl), h.dom]

theorem AlikeIn.removeTree (h : AlikeIn area dk dk') (hne : area ≠ []) (hl : area <+: l)
    (hl₀ : l ≠ []) : AlikeIn area (dk.removeTree l hl₀) (dk'.removeTree l hl₀) := by
  have hpl : ¬ l <+: area.dropLast := by
    intro hpre
    have h₁ := (hl.trans hpre).length_le
    have h₂ := List.length_pos_iff.mpr hne
    rw [List.length_dropLast] at h₁
    omega
  refine ⟨h.cwd, h.now, ?_, ?_, fun m hm => ?_, ?_⟩
  · rw [removeTree_node, if_neg hpl, h.parent]
  · rw [removeTree_node, if_neg hpl, h.parent']
  · rw [removeTree_node, removeTree_node, h.node m hm]
  · show List.filter _ (List.filter _ _) = List.filter _ (List.filter _ _)
    rw [List.filter_comm, h.dom, List.filter_comm]

theorem AlikeIn.removeTree_beside (h : AlikeIn area dk dk') (hl₀ : l ≠ []) (hl : ¬ area <+: l)
    (hl' : ¬ l <+: area) : AlikeIn area (dk.removeTree l hl₀) dk' where
  cwd := h.cwd
  now := h.now
  parent := by
    rw [removeTree_node, if_neg (fun hpre => hl' (hpre.trans (List.dropLast_prefix _))), h.parent]
  parent' := h.parent'
  node m hm := by
    rw [removeTree_node, if_neg, h.node m hm]
    intro hpre
    exact (List.prefix_or_prefix_of_prefix hm hpre).elim hl hl'
  dom := by
    show _ = List.filter _ (List.filter _ _)
    rw [List.filter_filter, h.dom]
    refine List.filter_congr fun m _ => ?_
    by_cases hm : area <+: m
    · have hno : ¬ l <+: m := fun hpre => (List.prefix_or_prefix_of_prefix hm hpre).elim hl hl'
      simp [hm, hno]
    · simp [hm]

/-! ### Files and directories -/

theorem AlikeIn.createFile (h : AlikeIn area dk dk') (hne : area ≠ [])
    (hp : area <+: dk.locate p) : (dk'.createFile p).1 = (dk.createFile p).1 ∧
      AlikeIn area (dk.createFile p).2 (dk'.createFile p).2 := by
  unfold Disk.createFile
  simp only [h.locate, h.now, h.find hp, h.notFound hp]
  by_cases hcan : ¬ mustBeDir p ∧ dk.CanHold (dk.locate p) (.file ⟨[], dk.now⟩)
  · have hcan' := h.canHold hp hcan.2
    rw [dif_pos hcan, dif_pos ⟨hcan.1, hcan'⟩]
    exact ⟨rfl, h.set hne hp hcan.2 hcan'⟩
  · have hcan' : ¬ (¬ mustBeDir p ∧ dk'.CanHold (dk.locate p) (.file ⟨[], dk.now⟩)) := fun hc =>
      hcan ⟨hc.1, h.symm.canHold hp hc.2⟩
    rw [dif_neg hcan, dif_neg hcan']
    split <;> exact ⟨rfl, h⟩

theorem AlikeIn.createFile_beside (h : AlikeIn area dk dk') (hp : ¬ area <+: dk.locate p) :
    AlikeIn area (dk.createFile p).2 dk' := by
  rcases dk.createFile_cases p with ⟨e, he⟩ | ⟨hcan, -, he⟩
  · rwa [he]
  · rw [he]
    exact h.set_beside hp hcan

theorem AlikeIn.writeAll (h : AlikeIn area dk dk') (hne : area ≠ []) {hd : Handle}
    (hl : area <+: hd.loc) (data : List UInt8) : (dk'.writeAll hd data).1 = (dk.writeAll hd data).1 ∧
      AlikeIn area (dk.writeAll hd data).2 (dk'.writeAll hd data).2 := by
  unfold Disk.writeAll
  rw [h.node _ hl, h.now]
  by_cases hdata : data = []
  · simp only [if_pos hdata]
    exact ⟨trivial, h⟩
  · simp only [if_neg hdata]
    split
    · cases hn : dk.node hd.loc with
      | none => exact ⟨rfl, h⟩
      | some n =>
        cases n with
        | dir => exact ⟨rfl, h⟩
        | file f =>
          have hcan := dk.canHold_file hn ⟨data ++ f.bytes.drop data.length, dk.now⟩
          have hcan' := h.canHold hl hcan
          simp only [dif_pos hcan, dif_pos hcan']
          exact ⟨trivial, h.set hne hl hcan hcan'⟩
    · exact ⟨rfl, h⟩

theorem AlikeIn.writeAll_beside (h : AlikeIn area dk dk') {hd : Handle} (hl : ¬ area <+: hd.loc)
    (data : List UInt8) : AlikeIn area (dk.writeAll hd data).2 dk' := by
  rcases dk.writeAll_cases hd data with he | ⟨_, _, _, _, hcan, he⟩
  · rwa [he]
  · rw [he]
    exact h.set_beside hl hcan

theorem AlikeIn.removeFile (h : AlikeIn area dk dk') (hne : area ≠ [])
    (hp : area <+: dk.locate p) : (dk'.removeFile p).1 = (dk.removeFile p).1 ∧
      AlikeIn area (dk.removeFile p).2 (dk'.removeFile p).2 := by
  have hl : dk.locate p ≠ [] := fun he => hne (List.prefix_nil.mp (he ▸ hp))
  unfold Disk.removeFile
  simp only [h.find hp, h.locate, h.notFound hp]
  cases dk.find p with
  | none => exact ⟨rfl, h⟩
  | some n =>
    cases n with
    | dir => exact ⟨rfl, h⟩
    | file f =>
      simp only [dif_pos hl]
      exact ⟨trivial, h.removeTree hne hp hl⟩

theorem AlikeIn.removeFile_beside (h : AlikeIn area dk dk') (hp : ¬ area <+: dk.locate p)
    (hp' : ¬ dk.locate p <+: area) : AlikeIn area (dk.removeFile p).2 dk' := by
  rcases dk.removeFile_cases p with ⟨e, he⟩ | ⟨_, _, hl, he⟩
  · rwa [he]
  · rw [he]
    exact h.removeTree_beside hl hp hp'

theorem AlikeIn.removeDirAll (h : AlikeIn area dk dk') (hne : area ≠ [])
    (hp : area <+: dk.locate p) : (dk'.removeDirAll p).1 = (dk.removeDirAll p).1 ∧
      AlikeIn area (dk.removeDirAll p).2 (dk'.removeDirAll p).2 := by
  have hl : dk.locate p ≠ [] := fun he => hne (List.prefix_nil.mp (he ▸ hp))
  unfold Disk.removeDirAll
  simp only [h.find hp, h.locate, h.notFound hp]
  cases dk.find p with
  | none => exact ⟨rfl, h⟩
  | some n =>
    cases n with
    | file f => exact ⟨rfl, h⟩
    | dir =>
      simp only [dif_pos hl]
      exact ⟨trivial, h.removeTree hne hp hl⟩

theorem AlikeIn.removeDirAll_beside (h : AlikeIn area dk dk') (hp : ¬ area <+: dk.locate p)
    (hp' : ¬ dk.locate p <+: area) : AlikeIn area (dk.removeDirAll p).2 dk' := by
  rcases dk.removeDirAll_cases p with ⟨⟨e, he⟩, -⟩ | ⟨-, hl, he⟩
  · rwa [he]
  · rw [he]
    exact h.removeTree_beside hl hp hp'

/-- Induction on the names to go.  On the way to the area the directories are there. -/
theorem AlikeIn.mkdirs (hne : area ≠ []) : ∀ (rest : List OsName) (base : Loc) (dk dk' : Disk),
    AlikeIn area dk dk' → area <+: base ++ rest →
    (Disk.mkdirs base rest dk').1 = (Disk.mkdirs base rest dk).1 ∧
      AlikeIn area (Disk.mkdirs base rest dk).2 (Disk.mkdirs base rest dk').2
  | [], _, _, _, h, _ => ⟨rfl, h⟩
  | c :: rest, base, dk, dk', h, hl => by
    have happ : base ++ c :: rest = base ++ [c] ++ rest := by simp
    rw [happ] at hl
    unfold Disk.mkdirs
    by_cases hin : area <+: base ++ [c]
    · rw [h.node _ hin]
      cases hn : dk.node (base ++ [c]) with
      | some n =>
        cases n with
        | dir => exact AlikeIn.mkdirs hne rest (base ++ [c]) dk dk' h hl
        | file f => exact ⟨rfl, h⟩
      | none =>
        dsimp only
        by_cases hcan : dk.CanHold (base ++ [c]) .dir
        · have hcan' := h.canHold hin hcan
          rw [dif_pos hcan, dif_pos hcan']
          exact AlikeIn.mkdirs hne rest (base ++ [c]) _ _ (h.set hne hin hcan hcan') hl
        · rw [dif_neg hcan, dif_neg (mt (h.symm.canHold hin) hcan)]
          exact ⟨rfl, h⟩
    · have hway : base ++ [c] <+: area.dropLast := by
        have hpre : base ++ [c] <+: area :=
          (List.prefix_or_prefix_of_prefix hl (List.prefix_append _ rest)).resolve_left hin
        exact prefix_dropLast hpre fun he => hin (he ▸ List.prefix_refl _)
      have hdir : ∀ dk₁ : Disk, dk₁.node area.dropLast = some .dir →
          dk₁.node (base ++ [c]) = some .dir := by
        intro dk₁ hparent
        by_cases he : base ++ [c] = area.dropLast
        · rw [he, hparent]
        · exact dk₁.node_prefix hway he (by rw [hparent]; simp)
      rw [hdir dk h.parent, hdir dk' h.parent']
      exact AlikeIn.mkdirs hne rest (base ++ [c]) dk dk' h hl

theorem AlikeIn.mkdirs_beside : ∀ (rest : List OsName) (base : Loc) (dk : Disk),
    AlikeIn area dk dk' → ¬ area <+: base ++ rest → AlikeIn area (Disk.mkdirs base rest dk).2 dk'
  | [], _, _, h, _ => h
  | c :: rest, base, dk, h, hl => by
    have happ : base ++ c :: rest = base ++ [c] ++ rest := by simp
    rw [happ] at hl
    unfold Disk.mkdirs
    cases hn : dk.node (base ++ [c]) with
    | some n =>
      cases n with
      | dir => exact AlikeIn.mkdirs_beside rest (base ++ [c]) dk h hl
      | file f => exact h
    | none =>
      dsimp only
      split
      · next hcan =>
        refine AlikeIn.mkdirs_beside rest (base ++ [c]) _ (h.set_beside ?_ hcan) hl
        exact fun hpre => hl (hpre.trans (List.prefix_append _ _))
      · exact h

theorem AlikeIn.createDirAll (h : AlikeIn area dk dk') (hne : area ≠ [])
    (hp : area <+: dk.locate p) : (dk'.createDirAll p).1 = (dk.createDirAll p).1 ∧
      AlikeIn area (dk.createDirAll p).2 (dk'.createDirAll p).2 := by
  unfold Disk.createDirAll
  rw [h.locate]
  split
  · exact ⟨rfl, h⟩
  · exact AlikeIn.mkdirs hne _ [] dk dk' h hp

theorem AlikeIn.createDirAll_beside (h : AlikeIn area dk dk') (hp : ¬ area <+: dk.locate p) :
    AlikeIn area (dk.createDirAll p).2 dk' := by
  unfold Disk.createDirAll
  split
  · exact h
  · exact AlikeIn.mkdirs_beside _ [] dk h hp

theorem not_prefix_of_beside {base l : Loc} {c c' : OsName} (hc : c ≠ c')
    (hl : base ++ [c'] <+: l) : ¬ base ++ [c] <+: l ∧ ¬ l <+: base ++ [c] := by
  have hsame : ∀ {l'}, base ++ [c] <+: l' → base ++ [c'] <+: l' → False := by
    intro l' h h'
    have hle : (base ++ [c]).length = (base ++ [c']).length := by simp
    have heq := (List.prefix_of_prefix_length_le h h' hle.le).eq_of_length hle
    exact hc (by simpa using heq)
  exact ⟨fun h => hsame h hl, fun h => hsame (List.prefix_refl _) (hl.trans h)⟩

end Disk

end SpaServer.Base
