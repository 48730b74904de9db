import Mathlib.Data.List.Basic

/-!
# Reading a file in pieces

`Read::read` fills as much of a buffer as it likes, at least one byte of it unless the buffer is
empty or the end is reached, and may fail; how much it gives at each turn is not up to the caller.
`feed` is the loop that reads to the end and hands every piece to an `update`.

`feed_spec`: for an `update` that does not see where its input is cut, the loop comes to one
`update` with all that was there, or a read has failed.  What was in the buffer before does not
matter, so one buffer can serve many files (`filterMapWith`).
-/

namespace SpaServer.Base

/-- How the reads of an open file go: each fails, or would give one byte more than this number. -/
abbrev Turns := Nat → Option Nat

/-- `Read::read`: how many bytes came, the buffer and what is left to read. -/
def read (turn : Option Nat) (buf rest : List UInt8) : Option (Nat × List UInt8 × List UInt8) :=
  turn.map fun k =>
    let n := min (k + 1) (min buf.length rest.length)
    (n, rest.take n ++ buf.drop n, rest.drop n)

section Feed

variable {H : Type} (update : H → List UInt8 → H) (turns : Turns)

def feed (i : Nat) (buf rest : List UInt8) (h : H) : Option H × List UInt8 :=
  match hread : read (turns i) buf rest with
  | none => (none, buf)
  | some (n, buf', rest') =>
    if hn : n = 0 then (some h, buf')
    else feed (i + 1) buf' rest' (update h (buf'.take n))
termination_by rest.length
decreasing_by
  simp only [read, Option.map_eq_some_iff, Prod.mk.injEq] at hread
  obtain ⟨k, -, rfl, -, rfl⟩ := hread
  simp only [List.length_drop]
  omega

def Turns.NeverFail : Prop := ∀ i, turns i ≠ none

variable {update turns}

theorem read_length {turn : Option Nat} {buf rest buf' rest' : List UInt8} {n : Nat}
    (h : read turn buf rest = some (n, buf', rest')) :
    buf'.length = buf.length ∧ buf'.take n = rest.take n ∧ rest' = rest.drop n ∧
      (n = 0 → buf ≠ [] → rest = []) := by
  simp only [read, Option.map_eq_some_iff, Prod.mk.injEq] at h
  obtain ⟨k, -, rfl, rfl, rfl⟩ := h
  refine ⟨?_, ?_, rfl, fun hn hbuf => ?_⟩
  · simp only [List.length_append, List.length_take, List.length_drop]
    omega
  · rw [List.take_append_of_le_length, List.take_take, Nat.min_self]
    simp only [List.length_take]
    omega
  · have := List.length_pos_iff.mpr hbuf
    exact List.length_eq_zero_iff.mp (by omega)

theorem feed_spec (hnil : ∀ h, update h [] = h)
    (happend : ∀ h a b, update (update h a) b = update h (a ++ b)) (i : Nat)
    {buf : List UInt8} (hbuf : buf ≠ []) (rest : List UInt8) (h : H) :
    (feed update turns i buf rest h).2.length = buf.length ∧
      ((feed update turns i buf rest h).1 = some (update h rest) ∨
        (feed update turns i buf rest h).1 = none ∧ ∃ j, turns j = none) := by
  fun_induction feed update turns i buf rest h with
  | case1 i buf rest h hread =>
    refine ⟨rfl, Or.inr ⟨rfl, i, ?_⟩⟩
    simpa [read] using hread
  | case2 i buf rest h buf' rest' hread =>
    obtain ⟨hlen, -, -, hend⟩ := read_length hread
    obtain rfl := hend rfl hbuf
    exact ⟨hlen, Or.inl (by rw [hnil])⟩
  | case3 i buf rest h n buf' rest' hread hn ih =>
    obtain ⟨hlen, htake, rfl, -⟩ := read_length hread
    have hbuf' : buf' ≠ [] := by
      rw [← List.length_pos_iff, hlen]
      exact List.length_pos_iff.mpr hbuf
    obtain ⟨hkept, hfed⟩ := ih hbuf'
    rw [htake, happend, List.take_append_drop] at hfed
    exact ⟨hkept.trans hlen, by rwa [htake]⟩

end Feed

/-! ### One buffer for many files -/

section FilterMap

variable {α β : Type}

/-- `filter_map` with a function that works in a buffer, which it leaves changed. -/
def filterMapWith (f : α → List UInt8 → Option β × List UInt8) : List α → List UInt8 → List β
  | [], _ => []
  | a :: as, buf =>
    match f a buf with
    | (some b, buf) => b :: filterMapWith f as buf
    | (none, buf) => filterMapWith f as buf

variable {f : α → List UInt8 → Option β × List UInt8} {g : α → Option β} {n : Nat}

theorem filterMapWith_eq
    (h : ∀ a buf, buf.length = n → (f a buf).2.length = n ∧ (f a buf).1 = g a)
    (as : List α) {buf : List UInt8} (hbuf : buf.length = n) :
    filterMapWith f as buf = as.filterMap g := by
  induction as generalizing buf with
  | nil => rfl
  | cons a as ih =>
    obtain ⟨hlen, hval⟩ := h a buf hbuf
    rw [filterMapWith]
    cases hf : f a buf with
    | mk value buf' =>
      rw [hf] at hlen hval
      cases value with
      | none =>
        rw [List.filterMap_cons_none hval.symm]
        exact ih hlen
      | some b =>
        rw [List.filterMap_cons_some hval.symm]
        exact congrArg (b :: ·) (ih hlen)

/-- What the function leaves out now and then is missing, and nothing else. -/
theorem filterMapWith_sublist
    (h : ∀ a buf, buf.length = n →
      (f a buf).2.length = n ∧ ((f a buf).1 = g a ∨ (f a buf).1 = none))
    (as : List α) {buf : List UInt8} (hbuf : buf.length = n) :
    (filterMapWith f as buf).Sublist (as.filterMap g) := by
  induction as generalizing buf with
  | nil => exact List.Sublist.refl _
  | cons a as ih =>
    obtain ⟨hlen, hval⟩ := h a buf hbuf
    rw [filterMapWith]
    cases hf : f a buf with
    | mk value buf' =>
      rw [hf] at hlen hval
      cases value with
      | none =>
        cases hg : g a with
        | none => rw [List.filterMap_cons_none hg]; exact ih hlen
        | some b => rw [List.filterMap_cons_some hg]; exact (ih hlen).cons _
      | some b =>
        have hg : some b = g a := hval.resolve_right (by simp)
        rw [List.filterMap_cons_some hg.symm]
        exact (ih hlen).cons_cons _

theorem sublist_filterMapWith
    (h : ∀ a buf, buf.length = n → (f a buf).2.length = n ∧ ((f a buf).1 = g a ∨ g a = none))
    (as : List α) {buf : List UInt8} (hbuf : buf.length = n) :
    (as.filterMap g).Sublist (filterMapWith f as buf) := by
  induction as generalizing buf with
  | nil => exact List.Sublist.refl _
  | cons a as ih =>
    obtain ⟨hlen, hval⟩ := h a buf hbuf
    rw [filterMapWith]
    cases hf : f a buf with
    | mk value buf' =>
      rw [hf] at hlen hval
      cases value with
      | none =>
        have hg : g a = none := hval.elim Eq.symm id
        rw [List.filterMap_cons_none hg]
        exact ih hlen
      | some b =>
        rcases hval with hg | hg
        · rw [List.filterMap_cons_some hg.symm]
          exact (ih hlen).cons_cons _
        · rw [List.filterMap_cons_none hg]
          exact (ih hlen).cons _

end FilterMap

end SpaServer.Base
