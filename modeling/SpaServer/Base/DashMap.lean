import Mathlib.Data.List.Forall2
import Mathlib.Logic.Function.Basic
import SpaServer.Base.Text

/-!
# Maps with string keys

`DashMap` and `HashMap` are used through `get`, `insert` and `remove_if`, and
built from an iterator of pairs, so a map is the function that `get` is.
-/

namespace SpaServer.Base

abbrev DashMap (α : Type) := Str → Option α

namespace DashMap

variable {α : Type}

def empty : DashMap α := fun _ => none

def insert (m : DashMap α) (k : Str) (a : α) : DashMap α := Function.update m k (some a)

/-- `remove_if`: drop the entry of `k` when its value satisfies `p`. -/
def removeIf (m : DashMap α) (k : Str) (p : α → Bool) : DashMap α :=
  if (m k).any p then Function.update m k none else m

/-- `collect`: of two pairs with one key the later stays. -/
def collect (pairs : List (Str × α)) : DashMap α :=
  pairs.foldl (fun m kv => m.insert kv.1 kv.2) empty

@[simp] theorem empty_apply (k : Str) : (empty : DashMap α) k = none := rfl

@[simp] theorem insert_self (m : DashMap α) (k : Str) (a : α) : m.insert k a k = some a :=
  Function.update_self ..

theorem insert_of_ne (m : DashMap α) {k l : Str} (h : l ≠ k) (a : α) : m.insert k a l = m l :=
  Function.update_of_ne h ..

theorem removeIf_of_ne (m : DashMap α) {k l : Str} (h : l ≠ k) (p : α → Bool) :
    m.removeIf k p l = m l := by
  rw [removeIf]
  split
  · exact Function.update_of_ne h ..
  · rfl

theorem removeIf_self (m : DashMap α) {k : Str} {a : α} {p : α → Bool} (h : m k = some a)
    (hp : p a = true) : m.removeIf k p k = none := by
  rw [removeIf, if_pos (by simp [h, hp])]
  exact Function.update_self ..

theorem removeIf_none (m : DashMap α) {k : Str} (h : m k = none) (p : α → Bool) :
    m.removeIf k p = m := by
  rw [removeIf, if_neg (by simp [h])]

theorem removeIf_of_not (m : DashMap α) {k : Str} {a : α} {p : α → Bool} (h : m k = some a)
    (hp : p a = false) : m.removeIf k p = m := by
  rw [removeIf, if_neg (by simp [h, hp])]

theorem of_removeIf {m : DashMap α} {k l : Str} {p : α → Bool} {a : α}
    (h : m.removeIf k p l = some a) : m l = some a := by
  unfold removeIf at h
  split at h
  · by_cases hl : l = k
    · rw [hl, Function.update_self] at h
      exact absurd h nofun
    · rwa [Function.update_of_ne hl] at h
  · exact h

theorem mem_of_collect {pairs : List (Str × α)} {k : Str} {a : α}
    (h : collect pairs k = some a) : (k, a) ∈ pairs := by
  induction pairs using List.reverseRecOn with
  | nil => exact absurd h (by simp [collect])
  | append_singleton pairs kv ih =>
    rw [collect, List.foldl_concat, ← collect] at h
    by_cases hk : k = kv.1
    · rw [hk, insert_self] at h
      rw [hk, ← Option.some.inj h]
      simp
    · rw [insert_of_ne _ hk] at h
      exact List.mem_append_left _ (ih h)

/-- The last pair of a key counts. -/
theorem collect_eq (pairs : List (Str × α)) (k : Str) :
    collect pairs k = ((pairs.filter fun kv => kv.1 = k).getLast?).map (·.2) := by
  induction pairs using List.reverseRecOn with
  | nil => rfl
  | append_singleton pairs kv ih =>
    rw [collect, List.foldl_concat, ← collect, List.filter_append]
    by_cases hk : k = kv.1
    · subst hk
      rw [insert_self, List.filter_singleton, decide_eq_true rfl, cond_true, List.getLast?_concat]
      rfl
    · rw [insert_of_ne _ hk, List.filter_singleton, decide_eq_false (Ne.symm hk), cond_false,
        List.append_nil, ih]

theorem collect_ne_none_iff {pairs : List (Str × α)} {k : Str} :
    collect pairs k ≠ none ↔ ∃ a, (k, a) ∈ pairs := by
  constructor
  · intro h
    obtain ⟨a, ha⟩ := Option.ne_none_iff_exists'.mp h
    exact ⟨a, mem_of_collect ha⟩
  · rintro ⟨a, ha⟩
    induction pairs using List.reverseRecOn with
    | nil => exact absurd ha List.not_mem_nil
    | append_singleton pairs kv ih =>
      rw [collect, List.foldl_concat, ← collect]
      by_cases hk : k = kv.1
      · rw [hk, insert_self]
        exact nofun
      · rw [insert_of_ne _ hk]
        refine ih ((List.mem_append.mp ha).resolve_right fun hlast => hk ?_)
        rw [← List.mem_singleton.mp hlast]

/-- Lists of pairs that match one by one are collected into maps that match. -/
theorem collect_rel {β : Type} {R : α → β → Prop} {pairs : List (Str × α)} {pairs' : List (Str × β)}
    (h : List.Forall₂ (fun kv kv' => kv.1 = kv'.1 ∧ R kv.2 kv'.2) pairs pairs') (k : Str) :
    Option.Rel R (collect pairs k) (collect pairs' k) := by
  have hstep : ∀ (m : DashMap α) (m' : DashMap β), (∀ l, Option.Rel R (m l) (m' l)) →
      ∀ (kv : Str × α) (kv' : Str × β), kv.1 = kv'.1 ∧ R kv.2 kv'.2 →
      ∀ l, Option.Rel R (m.insert kv.1 kv.2 l) (m'.insert kv'.1 kv'.2 l) := by
    rintro m m' hm ⟨j, a⟩ ⟨j', b⟩ ⟨rfl, hab⟩ l
    by_cases hl : l = j
    · subst hl
      rw [insert_self, insert_self]
      exact .some hab
    · rw [insert_of_ne _ hl, insert_of_ne _ hl]
      exact hm l
  have hempty : ∀ l, Option.Rel R ((empty : DashMap α) l) ((empty : DashMap β) l) := fun _ => .none
  exact List.rel_foldl (P := fun (m : DashMap α) (m' : DashMap β) => ∀ l, Option.Rel R (m l) (m' l))
    (fun m m' hm kv kv' hkv => hstep m m' hm kv kv' hkv) hempty h k

end DashMap

end SpaServer.Base
