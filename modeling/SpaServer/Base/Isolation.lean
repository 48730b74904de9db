import SpaServer.Base.Program

/-!
# Programs that do not see each other

Some programs of a pool have operations of their own, whose replies and effects depend on a part
of the state only, and the operations of all others leave that part as it is.  `Isolates` says so
of a relation that is meant as "alike in that part".

* `PoolRun.isolated`: for every run there is one in which the programs of that kind alone take
  steps, and it leads them to the same replies and the same part.
* `PoolRun.picked`: programs that take no steps can be left out of the pool.
* `run_of_alone`: a program that alone takes steps has been executed.

An operation may be of its kind only because of a reply that came before, as a write to an open
file is; `UsesWhen` says what a program asks for when the replies are such as they can be.
-/

namespace SpaServer.Base

namespace Program

variable {Op : Type} {Res : Op → Type} {α β σ : Type} {m : Meaning Op Res σ}
  {may : (op : Op) → Res op → Prop} {allowed : Op → Prop}

/-- Every operation the program can ask for is allowed, when the replies are such as `may` says. -/
def UsesWhen (may : (op : Op) → Res op → Prop) (allowed : Op → Prop) : Program Op Res α → Prop
  | ret _ => True
  | call op next => allowed op ∧ ∀ r, may op r → (next r).UsesWhen may allowed

theorem Uses.usesWhen {p : Program Op Res α} (h : p.Uses allowed) : p.UsesWhen may allowed := by
  induction p with
  | ret a => trivial
  | call op next ih => exact ⟨h.1, fun r _ => ih r (h.2 r)⟩

theorem UsesWhen.mono {allowed' : Op → Prop} {p : Program Op Res α} (hp : p.UsesWhen may allowed)
    (h : ∀ op, allowed op → allowed' op) : p.UsesWhen may allowed' := by
  induction p with
  | ret a => trivial
  | call op next ih => exact ⟨h op hp.1, fun r hr => ih r (hp.2 r hr)⟩

theorem UsesWhen.bind {p : Program Op Res α} {f : α → Program Op Res β}
    (hp : p.UsesWhen may allowed) (hf : ∀ a, (f a).UsesWhen may allowed) :
    (p >>= f).UsesWhen may allowed := by
  induction p with
  | ret a => exact hf a
  | call op next ih => exact ⟨hp.1, fun r hr => ih r (hp.2 r hr)⟩

theorem usesWhen_true (p : Program Op Res α) : p.UsesWhen may fun _ => True := by
  induction p with
  | ret a => trivial
  | call op next ih => exact ⟨trivial, fun r _ => ih r⟩

/-- States that `R` relates answer the operations `own` alike and stay related, and no operation
in `other` leads out of `R`. -/
structure Isolates (m : Meaning Op Res σ) (may : (op : Op) → Res op → Prop) (own other : Op → Prop)
    (R : σ → σ → Prop) : Prop where
  replies : ∀ {op s s'}, own op → R s s' → (m op s').1 = (m op s).1
  effects : ∀ {op s s'}, own op → R s s' → R (m op s).2 (m op s').2
  others : ∀ {op s s'}, other op → R s s' → R (m op s).2 s'
  may : ∀ {op s s'}, R s s' → may op (m op s).1

variable {own other : Op → Prop} {R : σ → σ → Prop} {mine : Nat → Prop}

private structure Shadows (may : (op : Op) → Res op → Prop) (own other : Op → Prop)
    (R : σ → σ → Prop) (mine : Nat → Prop) (c c' : List (Program Op Res α) × σ) : Prop where
  same : ∀ i, mine i → c'.1[i]? = c.1[i]?
  state : R c.2 c'.2
  own : ∀ (i : Nat) p, c.1[i]? = some p → mine i → p.UsesWhen may own
  other : ∀ (i : Nat) p, c.1[i]? = some p → ¬ mine i → p.UsesWhen may other

private theorem Shadows.step (hiso : Isolates m may own other R)
    {c c' d : List (Program Op Res α) × σ} (h : Shadows may own other R mine c d) {i : Nat}
    (hstep : PoolStep m i c c') : ∃ d', PoolRun m (fun i _ => mine i) d d' ∧
      Shadows may own other R mine c' d' := by
  cases hstep with
  | @step ps s op next hi =>
    have hlt := (List.getElem?_eq_some_iff.mp hi).1
    have hmay : may op (m op s).1 := hiso.may h.state
    have hself : (ps.set i (next (m op s).1))[i]? = some (next (m op s).1) :=
      List.getElem?_set_self hlt
    have hne : ∀ j, j ≠ i → (ps.set i (next (m op s).1))[j]? = ps[j]? := fun j hj =>
      List.getElem?_set_ne (Ne.symm hj)
    have hown : ∀ (j : Nat) p, (ps.set i (next (m op s).1))[j]? = some p → mine j →
        p.UsesWhen may own := by
      intro j p hp hj
      by_cases hji : j = i
      · subst hji
        rw [hself] at hp
        obtain rfl := Option.some.inj hp
        exact (h.own j _ hi hj).2 _ hmay
      · rw [hne j hji] at hp
        exact h.own j p hp hj
    have hother : ∀ (j : Nat) p, (ps.set i (next (m op s).1))[j]? = some p → ¬ mine j →
        p.UsesWhen may other := by
      intro j p hp hj
      by_cases hji : j = i
      · subst hji
        rw [hself] at hp
        obtain rfl := Option.some.inj hp
        exact (h.other j _ hi hj).2 _ hmay
      · rw [hne j hji] at hp
        exact h.other j p hp hj
    obtain ⟨qs, s'⟩ := d
    by_cases hm : mine i
    · -- the same program takes the same step on the other side
      have hop := (h.own i _ hi hm).1
      have hi' : qs[i]? = some (call op next) := (h.same i hm).trans hi
      have hlt' := (List.getElem?_eq_some_iff.mp hi').1
      refine ⟨_, .single ⟨i, hm, .step hi'⟩, ?_, hiso.effects hop h.state, hown, hother⟩
      intro j hj
      dsimp only
      rw [hiso.replies hop h.state]
      by_cases hji : j = i
      · rw [hji, hself, List.getElem?_set_self hlt']
      · rw [hne j hji, List.getElem?_set_ne (Ne.symm hji)]
        exact h.same j hj
    · refine ⟨_, .refl, fun j hj => ?_, hiso.others (h.other i _ hi hm).1 h.state, hown, hother⟩
      rw [hne j (by rintro rfl; exact hm hj)]
      exact h.same j hj

/-- **Programs of their own kind run as if they were alone.** -/
theorem PoolRun.isolated (hiso : Isolates m may own other R)
    {ok : Nat → List (Program Op Res α) × σ → Prop} {ps : List (Program Op Res α)} {s₀ s₀' : σ}
    (hR : R s₀ s₀') (hown : ∀ (i : Nat) p, ps[i]? = some p → mine i → p.UsesWhen may own)
    (hother : ∀ (i : Nat) p, ps[i]? = some p → ¬ mine i → p.UsesWhen may other)
    {c : List (Program Op Res α) × σ} (h : PoolRun m ok (ps, s₀) c) :
    ∃ c', PoolRun m (fun i _ => mine i) (ps, s₀') c' ∧ R c.2 c'.2 ∧
      ∀ i, mine i → c'.1[i]? = c.1[i]? := by
  have hshadow : ∃ c', PoolRun m (fun i _ => mine i) (ps, s₀') c' ∧
      Shadows may own other R mine c c' := by
    induction h with
    | refl => exact ⟨_, .refl, fun _ _ => rfl, hR, hown, hother⟩
    | tail _ hstep ih =>
      obtain ⟨c', hrun, hc⟩ := ih
      obtain ⟨i, -, hstep⟩ := hstep
      obtain ⟨d', hmore, hd⟩ := hc.step hiso hstep
      exact ⟨d', hrun.trans hmore, hd⟩
  obtain ⟨c', hrun, hc⟩ := hshadow
  exact ⟨c', hrun, hc.state, hc.same⟩

theorem PoolRun.length_eq {ok : Nat → List (Program Op Res α) × σ → Prop}
    {c c' : List (Program Op Res α) × σ} (h : PoolRun m ok c c') : c'.1.length = c.1.length := by
  induction h with
  | refl => rfl
  | tail _ hstep ih =>
    obtain ⟨i, -, hstep⟩ := hstep
    cases hstep with
    | step => rw [← ih, List.length_set]

theorem PoolRun.returned {ok : Nat → List (Program Op Res α) × σ → Prop}
    {c c' : List (Program Op Res α) × σ} (h : PoolRun m ok c c') {i : Nat} {a : α}
    (hi : c.1[i]? = some (ret a)) : c'.1[i]? = some (ret a) := by
  induction h with
  | refl => exact hi
  | tail _ hstep ih =>
    obtain ⟨j, -, hstep⟩ := hstep
    cases hstep with
    | @step ps s op next hj =>
      have hne : j ≠ i := by
        rintro rfl
        exact absurd (ih.symm.trans hj) nofun
      rwa [List.getElem?_set_ne hne]

theorem run_of_alone {i : Nat} {c c' : List (Program Op Res α) × σ}
    (h : PoolRun m (fun j _ => j = i) c c') {p : Program Op Res α} {a : α}
    (hp : c.1[i]? = some p) (ha : c'.1[i]? = some (ret a)) : p.run m c.2 = (a, c'.2) := by
  induction h using Relation.ReflTransGen.head_induction_on generalizing p with
  | refl =>
    obtain rfl := Option.some.inj (hp.symm.trans ha)
    rfl
  | head hstep _ ih =>
    obtain ⟨j, rfl, hstep⟩ := hstep
    cases hstep with
    | @step ps s op next hi =>
      obtain rfl := Option.some.inj (hp.symm.trans hi)
      have hlt := (List.getElem?_eq_some_iff.mp hi).1
      exact ih (List.getElem?_set_self hlt)

/-! ### Without the others -/

def picked {ι : Type} (f : ι → Bool) : List ι → List α → List α
  | x :: xs, a :: as => if f x then a :: picked f xs as else picked f xs as
  | _, _ => []

theorem picked_map {ι : Type} (f : ι → Bool) (g : ι → α) (xs : List ι) :
    picked f xs (xs.map g) = (xs.filter f).map g := by
  induction xs with
  | nil => rfl
  | cons x xs ih =>
    rw [List.map_cons, picked, ih]
    split
    · next h => rw [List.filter_cons_of_pos h, List.map_cons]
    · next h => rw [List.filter_cons_of_neg h]

theorem picked_congr {ι : Type} {f : ι → Bool} {xs : List ι} {as bs : List α}
    (h : ∀ (i : Nat) x, xs[i]? = some x → f x = true → as[i]? = bs[i]?)
    (hlen : as.length = bs.length) : picked f xs as = picked f xs bs := by
  induction xs generalizing as bs with
  | nil => rfl
  | cons x xs ih =>
    cases as with
    | nil =>
      obtain rfl := List.length_eq_zero_iff.mp hlen.symm
      rfl
    | cons a as =>
      cases bs with
      | nil => exact absurd hlen (by simp)
      | cons b bs =>
        have htail := ih (fun i y hy hf => h (i + 1) y hy hf) (Nat.succ.inj hlen)
        rw [picked, picked, htail]
        by_cases hx : f x = true
        · rw [if_pos hx, if_pos hx, Option.some.inj (h 0 x rfl hx)]
        · rw [if_neg hx, if_neg hx]

theorem exists_picked {ι : Type} {f : ι → Bool} {xs : List ι} {as : List α} {i : Nat} {x : ι} {a : α}
    (hx : xs[i]? = some x) (hf : f x = true) (ha : as[i]? = some a) :
    ∃ j, (picked f xs as)[j]? = some a ∧ ∀ b, picked f xs (as.set i b) = (picked f xs as).set j b := by
  induction i generalizing xs as with
  | zero =>
    cases xs with
    | nil => exact absurd hx (by simp)
    | cons y xs =>
      cases as with
      | nil => exact absurd ha (by simp)
      | cons c as =>
        obtain rfl := Option.some.inj hx
        obtain rfl := Option.some.inj ha
        refine ⟨0, ?_, fun b => ?_⟩
        · rw [picked, if_pos hf]
          rfl
        · rw [List.set_cons_zero, picked, picked, if_pos hf, if_pos hf, List.set_cons_zero]
  | succ i ih =>
    cases xs with
    | nil => exact absurd hx (by simp)
    | cons y xs =>
      cases as with
      | nil => exact absurd ha (by simp)
      | cons c as =>
        rw [List.getElem?_cons_succ] at hx ha
        obtain ⟨j, hj, hset⟩ := ih hx ha
        by_cases hy : f y = true
        · refine ⟨j + 1, ?_, fun b => ?_⟩
          · rw [picked, if_pos hy, List.getElem?_cons_succ, hj]
          · rw [List.set_cons_succ, picked, picked, if_pos hy, if_pos hy, List.set_cons_succ, hset]
        · refine ⟨j, ?_, fun b => ?_⟩
          · rw [picked, if_neg hy, hj]
          · rw [List.set_cons_succ, picked, picked, if_neg hy, if_neg hy, hset]

/-- **Programs that take no steps can be left out.** -/
theorem PoolRun.picked {ι : Type} {f : ι → Bool} {xs : List ι}
    {c c' : List (Program Op Res α) × σ}
    (h : PoolRun m (fun i _ => ∃ x, xs[i]? = some x ∧ f x = true) c c') :
    PoolRun m (fun _ _ => True) (picked f xs c.1, c.2) (picked f xs c'.1, c'.2) := by
  induction h with
  | refl => exact .refl
  | tail _ hstep ih =>
    obtain ⟨i, ⟨x, hx, hf⟩, hstep⟩ := hstep
    cases hstep with
    | @step ps s op next hi =>
      obtain ⟨j, hj, hset⟩ := exists_picked hx hf hi
      refine ih.tail ⟨j, trivial, ?_⟩
      rw [hset]
      exact .step hj

end Program

end SpaServer.Base
