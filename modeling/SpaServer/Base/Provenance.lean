import SpaServer.Base.Program

/-!
# What concurrent programs have seen

The programs of a pool take turns, so what one of them has been told may be out of date when it
acts on it.  But it was true once: every reply in its history was given in a step that the run has
taken (`Seen`).

* `Trail` is a run of a pool with the states it has passed through.
* `Trail.guarded`: in every state of a run, each program has seen what its history says, and
  its history justifies what it asks for next.
* `Trail.invariant`: an invariant that speaks of the states passed holds all along, when each
  operation keeps it that the replies seen by its program justify.
-/

namespace SpaServer.Base

namespace Program

variable {Op : Type} {Res : Op → Type} {σ α : Type} {m : Meaning Op Res σ}
  {just : List (Sigma Res) → Op → Prop} {past past' : List σ} {hist : List (Sigma Res)}

/-- A run of a pool, one step after the other, with the states passed, the last in front. -/
inductive Trail (m : Meaning Op Res σ) (c₀ : List (Program Op Res α) × σ) :
    List σ → List (Program Op Res α) × σ → Prop
  | start : Trail m c₀ [c₀.2] c₀
  | step {past : List σ} {c c' : List (Program Op Res α) × σ} {i : Nat} (h : Trail m c₀ past c)
      (hstep : PoolStep m i c c') : Trail m c₀ (c'.2 :: past) c'

theorem PoolRun.trail {ok : Nat → List (Program Op Res α) × σ → Prop}
    {c₀ c : List (Program Op Res α) × σ} (h : PoolRun m ok c₀ c) : ∃ past, Trail m c₀ past c := by
  induction h with
  | refl => exact ⟨_, .start⟩
  | tail _ hstep ih =>
    obtain ⟨past, htrail⟩ := ih
    obtain ⟨i, -, hstep⟩ := hstep
    exact ⟨_, htrail.step hstep⟩

/-- The replies were given in steps from one state of `past` to the next. -/
def Seen (m : Meaning Op Res σ) (past : List σ) (hist : List (Sigma Res)) : Prop :=
  ∀ x ∈ hist, ∃ s, [(m x.1 s).2, s] <:+: past ∧ x.2 = (m x.1 s).1

theorem Seen.mono (h : Seen m past hist) (hsuffix : past <:+ past') : Seen m past' hist := by
  intro x hx
  obtain ⟨s, hs, he⟩ := h x hx
  exact ⟨s, hs.trans hsuffix.isInfix, he⟩

theorem Seen.performed (h : Seen m past hist) {op : Op} {r : Res op} (hr : ⟨op, r⟩ ∈ hist) :
    ∃ s, [(m op s).2, s] <:+: past ∧ (m op s).1 = r := by
  obtain ⟨s, hs, he⟩ := h _ hr
  exact ⟨s, hs, he.symm⟩

theorem Seen.answered (h : Seen m past hist) {op : Op} {r : Res op} (hr : ⟨op, r⟩ ∈ hist) :
    ∃ s ∈ past, (m op s).1 = r := by
  obtain ⟨s, hs, he⟩ := h.performed hr
  exact ⟨s, hs.subset (by simp), he⟩

theorem seen_nil : Seen m past ([] : List (Sigma Res)) := by
  intro x hx
  exact absurd hx List.not_mem_nil

section Trails

variable {c₀ c : List (Program Op Res α) × σ}

theorem Trail.past_eq (h : Trail m c₀ past c) : ∃ before, past = c.2 :: before := by
  cases h with
  | start => exact ⟨[], rfl⟩
  | @step before => exact ⟨before, rfl⟩

theorem Trail.mem_past (h : Trail m c₀ past c) : c.2 ∈ past := by
  obtain ⟨before, rfl⟩ := h.past_eq
  exact List.mem_cons_self

/-- What every operation leaves as it is has been so all along. -/
theorem Trail.eq_start {γ : Type} (proj : σ → γ) (hop : ∀ op s, proj (m op s).2 = proj s)
    (h : Trail m c₀ past c) : ∀ s ∈ past, proj s = proj c₀.2 := by
  induction h with
  | start =>
    intro s hs
    rw [List.mem_singleton.mp hs]
  | step hrun hstep ih =>
    intro s hs
    rcases List.mem_cons.mp hs with rfl | hs
    · cases hstep with
      | step => rw [hop, ih _ hrun.mem_past]
    · exact ih s hs

/-- **What a program has been told was true when it was told.** -/
theorem Trail.guarded (hstart : ∀ p ∈ c₀.1, p.Guarded just []) (h : Trail m c₀ past c) :
    ∀ p ∈ c.1, ∃ hist, p.Guarded just hist ∧ Seen m past hist := by
  induction h with
  | start => exact fun p hp => ⟨[], hstart p hp, seen_nil⟩
  | @step past c c' i hrun hstep ih =>
    cases hstep with
    | @step ps s op next hi =>
      intro p hp
      rcases List.mem_or_eq_of_mem_set hp with hp | rfl
      · obtain ⟨hist, hguarded, hseen⟩ := ih p hp
        exact ⟨hist, hguarded, hseen.mono (List.suffix_cons _ _)⟩
      · obtain ⟨hist, hguarded, hseen⟩ := ih _ (List.mem_of_getElem? hi)
        refine ⟨⟨op, (m op s).1⟩ :: hist, hguarded.2 _, fun x hx => ?_⟩
        rcases List.mem_cons.mp hx with rfl | hx
        · obtain ⟨before, rfl⟩ := hrun.past_eq
          exact ⟨s, ⟨[], before, rfl⟩, rfl⟩
        · exact hseen.mono (List.suffix_cons _ _) x hx

/-- **The rule for invariants of the past.**  `I` may speak of the states that the run has
passed; it holds all along when every justified operation keeps it. -/
theorem Trail.invariant {I : List σ → σ → Prop}
    (hmono : ∀ {past past' s}, past <:+ past' → I past s → I past' s)
    (hstep : ∀ {past ps s hist op}, Trail m c₀ past (ps, s) → just hist op → Seen m past hist →
      (∀ s' ∈ past, I past s') → I past (m op s).2)
    (hstart : ∀ p ∈ c₀.1, p.Guarded just []) (h₀ : I [c₀.2] c₀.2) (h : Trail m c₀ past c) :
    ∀ s ∈ past, I past s := by
  induction h with
  | start =>
    intro s hs
    rw [List.mem_singleton.mp hs]
    exact h₀
  | @step past c c' i hrun hlast ih =>
    intro s' hs'
    cases hlast with
    | @step ps s op next hi =>
      refine hmono (List.suffix_cons _ _) ?_
      rcases List.mem_cons.mp hs' with rfl | hs'
      · obtain ⟨hist, hguarded, hseen⟩ := hrun.guarded hstart _ (List.mem_of_getElem? hi)
        exact hstep hrun hguarded.1 hseen ih
      · exact ih s' hs'

end Trails

end Program

end SpaServer.Base
