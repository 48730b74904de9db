import Mathlib.Data.List.Basic

/-!
# Slices of a list

`slice l start stop` is the checked slice `start..stop`: it is refused where taking it would
panic.  `Tiles start pieces stop` says that the pieces, each given by its first and its last
index, lie behind one another from `start` up to `stop`, and `tiles_flatten` puts the slices of
such pieces together again.
-/

namespace SpaServer.Base

variable {α : Type}

def slice (l : List α) (start stop : Nat) : Option (List α) :=
  if start ≤ stop ∧ stop ≤ l.length then some ((l.drop start).take (stop - start)) else none

theorem slice_eq {l : List α} {start stop : Nat} (hle : start ≤ stop) (hstop : stop ≤ l.length) :
    slice l start stop = some ((l.drop start).take (stop - start)) := if_pos ⟨hle, hstop⟩

theorem take_drop_append (l : List α) {start mid stop : Nat} (hmid : start ≤ mid)
    (hstop : mid ≤ stop) : (l.drop start).take (mid - start) ++ (l.drop mid).take (stop - mid) =
      (l.drop start).take (stop - start) := by
  have hdrop : l.drop mid = (l.drop start).drop (mid - start) := by
    rw [List.drop_drop, Nat.add_sub_cancel' hmid]
  rw [hdrop, show stop - start = mid - start + (stop - mid) by omega, List.take_add]

/-- The pieces `first..=last` are not empty, and each begins where the one before it ends. -/
def Tiles : Nat → List (Nat × Nat) → Nat → Prop
  | start, [], stop => start = stop
  | start, piece :: pieces, stop =>
    piece.1 = start ∧ piece.1 ≤ piece.2 ∧ Tiles (piece.2 + 1) pieces stop

theorem Tiles.le {start stop : Nat} {pieces : List (Nat × Nat)} (h : Tiles start pieces stop) :
    start ≤ stop := by
  induction pieces generalizing start with
  | nil => exact Nat.le_of_eq h
  | cons piece pieces ih =>
    obtain ⟨rfl, hle, hrest⟩ := h
    have hnext := ih hrest
    omega

theorem Tiles.of_mem {start stop : Nat} {pieces : List (Nat × Nat)} (h : Tiles start pieces stop)
    {piece : Nat × Nat} (hmem : piece ∈ pieces) : piece.1 ≤ piece.2 ∧ piece.2 < stop := by
  induction pieces generalizing start with
  | nil => exact absurd hmem List.not_mem_nil
  | cons p pieces ih =>
    obtain ⟨_, hle, hrest⟩ := h
    rcases List.mem_cons.mp hmem with rfl | hmem
    · exact ⟨hle, hrest.le⟩
    · exact ih hrest hmem

/-- **The slices of pieces that tile an interval are, put together, its slice.** -/
theorem tiles_flatten (l : List α) {start stop : Nat} {pieces : List (Nat × Nat)}
    (h : Tiles start pieces stop) :
    (pieces.flatMap fun piece => (l.drop piece.1).take (piece.2 + 1 - piece.1)) =
      (l.drop start).take (stop - start) := by
  induction pieces generalizing start with
  | nil =>
    obtain rfl : start = stop := h
    rw [Nat.sub_self, List.take_zero]
    rfl
  | cons piece pieces ih =>
    obtain ⟨rfl, hle, hrest⟩ := h
    rw [List.flatMap_cons, ih hrest]
    exact take_drop_append l (Nat.le_succ_of_le hle) hrest.le

end SpaServer.Base
