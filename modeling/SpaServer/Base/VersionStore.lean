import Mathlib.Data.Set.Basic

/-!
# Stores of versions

A store has versions under names.  A version is filled while it is staged, one version of a
name at a time, and a name publishes one of its other versions with the content that this
has at that moment.  Names, versions, places and values are any types.

* `Step.apart`: a published version is not staged, so it is not filled either.
* `Step.content_eq`: a version changes when it is staged or discarded, and else only while it
  is staged.
* `Step.current`: what is published is what its version holds, unless that is discarded.
* `Run.current` says the same of runs, and `Run.origin` where every value in them is from.
-/

namespace SpaServer.Base

/-- Contents of versions, the staged version of each name, and what it publishes. -/
structure VersionStore (N V P B : Type) where
  content : N → V → Option (P → Option B)
  staged : N → Option V
  published : N → Option (V × (P → Option B))

namespace VersionStore

variable {N V P B : Type}

inductive Event (N V P B : Type) where
  | stage (n : N) (v : V)
  | put (n : N) (v : V) (p : P) (b : B)
  | commit (n : N) (v : V)
  | publish (n : N) (v : V)
  | discard (gone : Set (N × V))

/-! ### Updates -/

section Update

variable (s : VersionStore N V P B)

open Classical in
noncomputable def setContent (n : N) (v : V) (c : P → Option B) : VersionStore N V P B :=
  { s with content := fun m u => if m = n ∧ u = v then some c else s.content m u }

open Classical in
noncomputable def setStaged (n : N) (v : Option V) : VersionStore N V P B :=
  { s with staged := fun m => if m = n then v else s.staged m }

open Classical in
noncomputable def setPublished (n : N) (v : V) (c : P → Option B) : VersionStore N V P B :=
  { s with published := fun m => if m = n then some (v, c) else s.published m }

open Classical in
noncomputable def without (gone : Set (N × V)) : VersionStore N V P B :=
  { s with content := fun n v => if (n, v) ∈ gone then none else s.content n v }

variable {s}

@[simp] theorem setContent_staged {n : N} {v : V} {c : P → Option B} :
    (s.setContent n v c).staged = s.staged := rfl

@[simp] theorem setContent_published {n : N} {v : V} {c : P → Option B} :
    (s.setContent n v c).published = s.published := rfl

@[simp] theorem setContent_self {n : N} {v : V} {c : P → Option B} :
    (s.setContent n v c).content n v = some c := if_pos ⟨rfl, rfl⟩

theorem setContent_of_ne {n m : N} {v u : V} {c : P → Option B} (h : ¬ (m = n ∧ u = v)) :
    (s.setContent n v c).content m u = s.content m u := if_neg h

@[simp] theorem setStaged_content {n : N} {v : Option V} :
    (s.setStaged n v).content = s.content := rfl

@[simp] theorem setStaged_published {n : N} {v : Option V} :
    (s.setStaged n v).published = s.published := rfl

@[simp] theorem setStaged_self {n : N} {v : Option V} : (s.setStaged n v).staged n = v :=
  if_pos rfl

theorem setStaged_of_ne {n m : N} {v : Option V} (h : m ≠ n) :
    (s.setStaged n v).staged m = s.staged m := if_neg h

@[simp] theorem setPublished_content {n : N} {v : V} {c : P → Option B} :
    (s.setPublished n v c).content = s.content := rfl

@[simp] theorem setPublished_staged {n : N} {v : V} {c : P → Option B} :
    (s.setPublished n v c).staged = s.staged := rfl

@[simp] theorem setPublished_self {n : N} {v : V} {c : P → Option B} :
    (s.setPublished n v c).published n = some (v, c) := if_pos rfl

theorem setPublished_of_ne {n m : N} {v : V} {c : P → Option B} (h : m ≠ n) :
    (s.setPublished n v c).published m = s.published m := if_neg h

@[simp] theorem without_staged {gone : Set (N × V)} : (s.without gone).staged = s.staged := rfl

@[simp] theorem without_published {gone : Set (N × V)} :
    (s.without gone).published = s.published := rfl

theorem without_of_mem {gone : Set (N × V)} {n : N} {v : V} (h : (n, v) ∈ gone) :
    (s.without gone).content n v = none := if_pos h

theorem without_of_not_mem {gone : Set (N × V)} {n : N} {v : V} (h : (n, v) ∉ gone) :
    (s.without gone).content n v = s.content n v := if_neg h

end Update

/-! ### Steps -/

open Classical in
noncomputable def fill (c : P → Option B) (p : P) (b : B) : P → Option B :=
  fun q => if q = p then some b else c q

@[simp] theorem fill_self (c : P → Option B) (p : P) (b : B) : fill c p b p = some b := if_pos rfl

theorem fill_of_ne (c : P → Option B) {p q : P} (b : B) (h : q ≠ p) : fill c p b q = c q :=
  if_neg h

def held (s : VersionStore N V P B) (n : N) (v : V) : P → Option B :=
  (s.content n v).getD fun _ => none

theorem held_of_content {s : VersionStore N V P B} {n : N} {v : V} {c : P → Option B}
    (h : s.content n v = some c) : s.held n v = c := by
  rw [held, h]
  rfl

theorem held_eq {s s' : VersionStore N V P B} {n : N} {v : V}
    (h : s'.content n v = s.content n v) : s'.held n v = s.held n v := by
  rw [held, held, h]

@[simp] theorem setStaged_held {s : VersionStore N V P B} {n m : N} {v : V} {u : Option V} :
    (s.setStaged n u).held m v = s.held m v := rfl

@[simp] theorem setContent_held_self {s : VersionStore N V P B} {n : N} {v : V}
    {c : P → Option B} : (s.setContent n v c).held n v = c := held_of_content setContent_self

/-- What an event makes of a store.  Staging keeps what a version holds, and a place is
filled once. -/
inductive Step (s : VersionStore N V P B) : Event N V P B → VersionStore N V P B → Prop
  | stage {n : N} {v : V} (hfree : s.staged n = none) (hpub : ∀ c, s.published n ≠ some (v, c)) :
      Step s (.stage n v) ((s.setContent n v (s.held n v)).setStaged n (some v))
  | put {n : N} {v : V} {c : P → Option B} {p : P} {b : B} (hstaged : s.staged n = some v)
      (hc : s.content n v = some c) (hp : c p = none) :
      Step s (.put n v p b) (s.setContent n v (fill c p b))
  | commit {n : N} {v : V} (hstaged : s.staged n = some v) :
      Step s (.commit n v) (s.setStaged n none)
  | publish {n : N} {v : V} {c : P → Option B} (hstaged : s.staged n ≠ some v)
      (hc : s.content n v = some c) : Step s (.publish n v) (s.setPublished n v c)
  | discard {gone : Set (N × V)} : Step s (.discard gone) (s.without gone)

/-- Events that `ok` allows, the last in front, and what they make of `s₀`. -/
inductive Run (ok : VersionStore N V P B → Event N V P B → Prop) (s₀ : VersionStore N V P B) :
    List (Event N V P B) → VersionStore N V P B → Prop
  | start : Run ok s₀ [] s₀
  | step {log : List (Event N V P B)} {s s' : VersionStore N V P B} {e : Event N V P B}
      (h : Run ok s₀ log s) (hok : ok s e) (hstep : Step s e s') : Run ok s₀ (e :: log) s'

/-! ### Invariants -/

def Apart (s : VersionStore N V P B) : Prop :=
  ∀ n v c, s.published n = some (v, c) → s.staged n ≠ some v

def Current (s : VersionStore N V P B) : Prop :=
  ∀ n v c, s.published n = some (v, c) → s.content n v = some c

def Event.Spares (s : VersionStore N V P B) : Event N V P B → Prop
  | .discard gone => ∀ n v c, s.published n = some (v, c) → (n, v) ∉ gone
  | _ => True

def Event.Changes (s : VersionStore N V P B) (n : N) (v : V) : Event N V P B → Prop
  | .stage n' v' => n' = n ∧ v' = v
  | .put n' v' _ _ => n' = n ∧ v' = v ∧ s.staged n = some v
  | .discard gone => (n, v) ∈ gone
  | _ => False

section Step

variable {s s' : VersionStore N V P B} {e : Event N V P B}

/-- **Only staging, filling and discarding change a version**, and it is filled only while
it is staged. -/
theorem Step.content_eq (h : Step s e s') {n : N} {v : V} (hno : ¬ e.Changes s n v) :
    s'.content n v = s.content n v := by
  cases h with
  | stage => exact setContent_of_ne fun he => hno ⟨he.1.symm, he.2.symm⟩
  | put hstaged =>
    refine setContent_of_ne ?_
    rintro ⟨rfl, rfl⟩
    exact hno ⟨rfl, rfl, hstaged⟩
  | commit => rfl
  | publish => rfl
  | discard => exact without_of_not_mem hno

theorem Step.published_eq (h : Step s e s') {n : N} (hno : ∀ v, e ≠ .publish n v) :
    s'.published n = s.published n := by
  cases h with
  | publish =>
    refine setPublished_of_ne ?_
    rintro rfl
    exact hno _ rfl
  | _ => rfl

theorem Step.apart (h : Step s e s') (hs : Apart s) : Apart s' := by
  intro n v c hpub
  cases h with
  | @stage m u _ hnot =>
    by_cases hn : n = m
    · subst hn
      rw [setStaged_self]
      intro heq
      obtain rfl := Option.some.inj heq
      exact hnot c hpub
    · rw [setStaged_of_ne hn]
      exact hs n v c hpub
  | @commit m u =>
    by_cases hn : n = m
    · subst hn
      rw [setStaged_self]
      simp
    · rw [setStaged_of_ne hn]
      exact hs n v c hpub
  | @publish m u _ hstaged =>
    by_cases hn : n = m
    · subst hn
      rw [setPublished_self] at hpub
      obtain ⟨rfl, _⟩ := Prod.mk.inj (Option.some.inj hpub)
      exact hstaged
    · rw [setPublished_of_ne hn] at hpub
      exact hs n v c hpub
  | _ => exact hs n v c hpub

theorem Step.not_changes (h : Step s e s') (hapart : Apart s) (hspares : e.Spares s) {n : N}
    {v : V} {c : P → Option B} (hpub : s.published n = some (v, c)) : ¬ e.Changes s n v := by
  intro hchanges
  cases h with
  | stage _ hnot =>
    obtain ⟨rfl, rfl⟩ := hchanges
    exact hnot c hpub
  | put => exact hapart n v c hpub hchanges.2.2
  | commit => exact hchanges
  | publish => exact hchanges
  | discard => exact hspares n v c hpub hchanges

/-- **What is published stays what its version holds**, as long as that is not discarded. -/
theorem Step.current (h : Step s e s') (hs : Current s) (hapart : Apart s) (hspares : e.Spares s) :
    Current s' := by
  intro n v c hpub
  by_cases hpublish : ∃ u, e = .publish n u
  · obtain ⟨u, rfl⟩ := hpublish
    cases h with
    | publish _ hc =>
      rw [setPublished_self] at hpub
      obtain ⟨rfl, rfl⟩ := Prod.mk.inj (Option.some.inj hpub)
      exact hc
  · have hold : s.published n = some (v, c) :=
      h.published_eq (fun u hu => hpublish ⟨u, hu⟩) ▸ hpub
    rw [h.content_eq (h.not_changes hapart hspares hold), hs n v c hold]

end Step

/-! ### Runs -/

/-- A value in a version was there before, or has just been put there. -/
theorem Step.origin {s s' : VersionStore N V P B} {e : Event N V P B} (h : Step s e s') {n : N}
    {v : V} {p : P} {b : B} (hb : s'.held n v p = some b) :
    s.held n v p = some b ∨ e = .put n v p b := by
  by_cases hchanges : e.Changes s n v
  · cases h with
    | stage =>
      obtain ⟨rfl, rfl⟩ := hchanges
      exact Or.inl (by rwa [setStaged_held, setContent_held_self] at hb)
    | @put _ _ c q b' _ hc =>
      obtain ⟨rfl, rfl, _⟩ := hchanges
      rw [setContent_held_self] at hb
      by_cases hp : p = q
      · subst hp
        rw [fill_self] at hb
        exact Or.inr (by rw [Option.some.inj hb])
      · rw [fill_of_ne _ _ hp] at hb
        exact Or.inl (by rw [held_of_content hc, hb])
    | discard =>
      rw [held, without_of_mem hchanges] at hb
      exact absurd hb (by simp)
    | _ => exact hchanges.elim
  · exact Or.inl (by rwa [held_eq (h.content_eq hchanges)] at hb)

theorem Step.kept {s s' : VersionStore N V P B} {e : Event N V P B} (h : Step s e s') {n : N}
    {v : V} (hno : ∀ gone, e = .discard gone → (n, v) ∉ gone) {p : P} {b : B}
    (hb : s.held n v p = some b) : s'.held n v p = some b := by
  by_cases hchanges : e.Changes s n v
  · cases h with
    | stage =>
      obtain ⟨rfl, rfl⟩ := hchanges
      rwa [setStaged_held, setContent_held_self]
    | @put _ _ c q _ _ hc hfree =>
      obtain ⟨rfl, rfl, _⟩ := hchanges
      rw [held_of_content hc] at hb
      have hp : p ≠ q := by
        rintro rfl
        exact absurd (hfree.symm.trans hb) (by simp)
      rw [setContent_held_self, fill_of_ne _ _ hp, hb]
    | discard => exact absurd hchanges (hno _ rfl)
    | _ => exact hchanges.elim
  · rwa [held_eq (h.content_eq hchanges)]

section Run

variable {ok : VersionStore N V P B → Event N V P B → Prop} {s₀ s : VersionStore N V P B}
  {log : List (Event N V P B)}

theorem Run.apart (h : Run ok s₀ log s) (hs : Apart s₀) : Apart s := by
  induction h with
  | start => exact hs
  | step _ _ hstep ih => exact hstep.apart ih

theorem Run.current (h : Run ok s₀ log s) (hspares : ∀ s e, ok s e → e.Spares s)
    (hs : Current s₀) (hapart : Apart s₀) : Current s := by
  induction h with
  | start => exact hs
  | step hrun hok hstep ih => exact hstep.current ih (hrun.apart hapart) (hspares _ _ hok)

/-- **A value in a version was there at the start or was put there.** -/
theorem Run.origin (h : Run ok s₀ log s) {n : N} {v : V} {p : P} {b : B}
    (hb : s.held n v p = some b) : s₀.held n v p = some b ∨ .put n v p b ∈ log := by
  induction h with
  | start => exact Or.inl hb
  | step _ _ hstep ih =>
    rcases hstep.origin hb with hb | rfl
    · exact (ih hb).imp_right (List.mem_cons_of_mem _)
    · exact Or.inr List.mem_cons_self

/-- What is published stays so, with what it held, until the next publication of the name. -/
theorem Run.published_eq (h : Run ok s₀ log s) {n : N} (hno : ∀ v, .publish n v ∉ log) :
    s.published n = s₀.published n := by
  induction h with
  | start => rfl
  | step _ _ hstep ih =>
    refine (hstep.published_eq fun v hv => hno v ?_).trans
      (ih fun v hv => hno v (List.mem_cons_of_mem _ hv))
    rw [hv]
    exact List.mem_cons_self

/-- **A value that is published was published at the start, or was in the version then, or was
put there.** -/
theorem Run.published_origin (h : Run ok s₀ log s) {n : N} {v : V} {c : P → Option B} {p : P}
    {b : B} (hpub : s.published n = some (v, c)) (hb : c p = some b) :
    (∃ c₀, s₀.published n = some (v, c₀) ∧ c₀ p = some b) ∨ s₀.held n v p = some b ∨
      .put n v p b ∈ log := by
  induction h with
  | start => exact Or.inl ⟨c, hpub, hb⟩
  | @step log s s' e hrun _ hstep ih =>
    by_cases hpublish : ∃ u, e = .publish n u
    · obtain ⟨u, rfl⟩ := hpublish
      cases hstep with
      | publish _ hc =>
        rw [setPublished_self] at hpub
        obtain ⟨rfl, rfl⟩ := Prod.mk.inj (Option.some.inj hpub)
        have horigin := hrun.origin (p := p) (b := b) (by rw [held_of_content hc, hb])
        exact Or.inr (horigin.imp_right (List.mem_cons_of_mem _))
    · rw [hstep.published_eq fun u hu => hpublish ⟨u, hu⟩] at hpub
      exact (ih hpub).imp_right (Or.imp_right (List.mem_cons_of_mem _))

/-- **No value is lost**, unless its version is discarded. -/
theorem Run.kept (h : Run ok s₀ log s) {n : N} {v : V}
    (hno : ∀ gone, .discard gone ∈ log → (n, v) ∉ gone) {p : P} {b : B}
    (hb : s₀.held n v p = some b) : s.held n v p = some b := by
  induction h with
  | start => exact hb
  | step _ _ hstep ih =>
    refine hstep.kept (fun gone hg => hno gone ?_) (ih fun gone hg =>
      hno gone (List.mem_cons_of_mem _ hg))
    rw [hg]
    exact List.mem_cons_self

end Run

end VersionStore

end SpaServer.Base
