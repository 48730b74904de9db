import Mathlib.Logic.Relation
import Mathlib.Data.List.Basic

/-!
# Programs over atomic operations

A `Program Op Res α` has either returned a value or asks for one operation and
goes on with the reply.  The meaning of the operations is a separate argument,
a `Meaning Op Res σ` that says what each of them answers and does to the state,
and the same program is read in four ways:

* `run` executes it to the end, alone;
* `cuts` lists the points at which it can be cut off while it still has an
  effect ahead of it, which is what a crash sees;
* `PoolStep` advances one program of a pool by one operation, which is what
  concurrent callers of one shared state do.  `interleave` makes one program of
  several that a caller runs concurrently itself; `interleave_poolRun` says that a
  run of it is a run of the pool;
* `RunsTo` lets every operation go one of several ways, as calls do that may fail.

`Uses allowed p` says that every operation `p` can ask for is allowed, whatever
the replies.  `Uses.run_rel` is the frame rule that comes with it: a reflexive,
transitive relation that the allowed operations respect holds between the states
before and after the run.  `Guarded ok p` says the same of operations that only the
replies so far justify.
-/

namespace SpaServer.Base

/-- A program that has returned, or that waits for the reply to an operation. -/
inductive Program (Op : Type) (Res : Op → Type) (α : Type) where
  | ret (value : α)
  | call (op : Op) (next : Res op → Program Op Res α)

abbrev Meaning (Op : Type) (Res : Op → Type) (σ : Type) := (op : Op) → σ → Res op × σ

namespace Program

variable {Op : Type} {Res : Op → Type} {α β σ : Type}

def bind : Program Op Res α → (α → Program Op Res β) → Program Op Res β
  | ret a, f => f a
  | call op next, f => call op fun r => (next r).bind f

instance : Monad (Program Op Res) where
  pure := ret
  bind := bind

def perform (op : Op) : Program Op Res (Res op) := call op ret

@[simp] theorem pure_eq (a : α) : (pure a : Program Op Res α) = ret a := rfl

@[simp] theorem ret_bind (a : α) (f : α → Program Op Res β) : ret a >>= f = f a := rfl

@[simp] theorem call_bind (op : Op) (next : Res op → Program Op Res α)
    (f : α → Program Op Res β) : call op next >>= f = call op fun r => next r >>= f := rfl

@[simp] theorem perform_bind (op : Op) (f : Res op → Program Op Res α) :
    perform op >>= f = call op f := rfl

/-! ### Running a program alone -/

/-- Execute every operation of the program in order. -/
def run (m : Meaning Op Res σ) : Program Op Res α → σ → α × σ
  | ret a, s => (a, s)
  | call op next, s => (next (m op s).1).run m (m op s).2

@[simp] theorem run_ret (m : Meaning Op Res σ) (a : α) (s : σ) : (ret a).run m s = (a, s) := rfl

@[simp] theorem run_call (m : Meaning Op Res σ) (op : Op) (next : Res op → Program Op Res α)
    (s : σ) : (call op next).run m s = (next (m op s).1).run m (m op s).2 := rfl

@[simp] theorem run_perform (m : Meaning Op Res σ) (op : Op) (s : σ) :
    (perform op).run m s = m op s := rfl

theorem run_bind (m : Meaning Op Res σ) (p : Program Op Res α) (f : α → Program Op Res β)
    (s : σ) : (p >>= f).run m s = (f (p.run m s).1).run m (p.run m s).2 := by
  induction p generalizing s with
  | ret a => rfl
  | call op next ih => exact ih (m op s).1 (m op s).2

/-! ### Asking in other operations -/

/-- Let each operation be done by a program over other operations. -/
def through {Op' : Type} {Res' : Op' → Type} (f : (op : Op) → Program Op' Res' (Res op)) :
    Program Op Res α → Program Op' Res' α
  | ret a => ret a
  | call op next => f op >>= fun r => (next r).through f

theorem bind_assoc {γ : Type} (p : Program Op Res α) (f : α → Program Op Res β)
    (g : β → Program Op Res γ) : p >>= f >>= g = p >>= fun a => f a >>= g := by
  induction p with
  | ret a => rfl
  | call op next ih => exact congrArg (call op) (funext ih)

/-! ### What a program can ask for -/

/-- Every operation the program can ask for is allowed, whatever the replies. -/
def Uses (allowed : Op → Prop) : Program Op Res α → Prop
  | ret _ => True
  | call op next => allowed op ∧ ∀ r, (next r).Uses allowed

variable {allowed : Op → Prop}

@[simp] theorem uses_ret (a : α) : (ret a : Program Op Res α).Uses allowed := trivial

@[simp] theorem uses_call (op : Op) (next : Res op → Program Op Res α) :
    (call op next).Uses allowed ↔ allowed op ∧ ∀ r, (next r).Uses allowed := Iff.rfl

theorem Uses.mono {allowed' : Op → Prop} {p : Program Op Res α} (hp : p.Uses allowed)
    (h : ∀ op, allowed op → allowed' op) : p.Uses allowed' := by
  induction p with
  | ret a => trivial
  | call op next ih => exact ⟨h op hp.1, fun r => ih r (hp.2 r)⟩

theorem Uses.bind {p : Program Op Res α} {f : α → Program Op Res β} (hp : p.Uses allowed)
    (hf : ∀ a, (f a).Uses allowed) : (p >>= f).Uses allowed := by
  induction p with
  | ret a => exact hf a
  | call op next ih => exact ⟨hp.1, fun r => ih r (hp.2 r)⟩

/-- **The frame rule.**  A reflexive and transitive relation that every allowed
operation respects relates the states before and after the run. -/
theorem Uses.run_rel {m : Meaning Op Res σ} {R : σ → σ → Prop} (hrefl : ∀ s, R s s)
    (htrans : ∀ {a b c}, R a b → R b c → R a c) (hop : ∀ op s, allowed op → R s (m op s).2)
    {p : Program Op Res α} (hp : p.Uses allowed) (s : σ) : R s (p.run m s).2 := by
  induction p generalizing s with
  | ret a => exact hrefl s
  | call op next ih => exact htrans (hop op s hp.1) (ih (m op s).1 (hp.2 _) (m op s).2)

/-- The frame rule for one projection of the state that no allowed operation changes. -/
theorem Uses.run_eq {γ : Type} {m : Meaning Op Res σ} (proj : σ → γ)
    (hop : ∀ op s, allowed op → proj (m op s).2 = proj s)
    {p : Program Op Res α} (hp : p.Uses allowed) (s : σ) : proj (p.run m s).2 = proj s :=
  hp.run_rel (R := fun a b => proj b = proj a) (fun _ => rfl) (fun h g => g.trans h) hop s

/-! ### The operations of a run -/

def Along (m : Meaning Op Res σ) (P : Op → σ → Prop) : Program Op Res α → σ → Prop
  | ret _, _ => True
  | call op next, s => P op s ∧ Along m P (next (m op s).1) (m op s).2

variable {m : Meaning Op Res σ} {P : Op → σ → Prop}

theorem along_call {op : Op} {next : Res op → Program Op Res α} {s : σ} :
    (call op next).Along m P s ↔ P op s ∧ (next (m op s).1).Along m P (m op s).2 := Iff.rfl

theorem along_bind {p : Program Op Res α} {f : α → Program Op Res β} {s : σ} :
    (p >>= f).Along m P s ↔ p.Along m P s ∧ (f (p.run m s).1).Along m P (p.run m s).2 := by
  induction p generalizing s with
  | ret a => exact ⟨fun h => ⟨trivial, h⟩, fun h => h.2⟩
  | call op next ih =>
    show P op s ∧ (next _ >>= f).Along m P _ ↔ (P op s ∧ _) ∧ _
    rw [ih, and_assoc]
    rfl

/-- What holds of the allowed operations in the states that satisfy an invariant of
theirs holds all along the run. -/
theorem Uses.along {p : Program Op Res α} (hp : p.Uses allowed) {I : σ → Prop}
    (hI : ∀ op s, allowed op → I s → I (m op s).2) (h : ∀ op s, allowed op → I s → P op s)
    {s : σ} (hs : I s) : p.Along m P s := by
  induction p generalizing s with
  | ret a => trivial
  | call op next ih => exact ⟨h op s hp.1 hs, ih _ (hp.2 _) (hI op s hp.1 hs)⟩

/-! ### What justifies an operation -/

/-- Every operation that the program can ask for is justified by the replies it has
had, the last in front. -/
def Guarded (ok : List (Sigma Res) → Op → Prop) : Program Op Res α → List (Sigma Res) → Prop
  | ret _, _ => True
  | call op next, hist => ok hist op ∧ ∀ r, (next r).Guarded ok (⟨op, r⟩ :: hist)

variable {ok : List (Sigma Res) → Op → Prop}

theorem Guarded.mono {ok' : List (Sigma Res) → Op → Prop} {p : Program Op Res α}
    {hist : List (Sigma Res)} (hp : p.Guarded ok hist) (h : ∀ hist op, ok hist op → ok' hist op) :
    p.Guarded ok' hist := by
  induction p generalizing hist with
  | ret a => trivial
  | call op next ih => exact ⟨h hist op hp.1, fun r => ih r (hp.2 r)⟩

theorem Uses.guarded_bind {p : Program Op Res α} {f : α → Program Op Res β}
    {hist : List (Sigma Res)} (hp : p.Uses fun op => ∀ hist', hist <:+ hist' → ok hist' op)
    (hf : ∀ a hist', hist <:+ hist' → (f a).Guarded ok hist') : (p >>= f).Guarded ok hist := by
  have hall : ∀ hist', hist <:+ hist' → (p >>= f).Guarded ok hist' := by
    induction p with
    | ret a => exact hf a
    | call op next ih =>
      intro hist' hsuffix
      exact ⟨hp.1 hist' hsuffix, fun r =>
        ih r (hp.2 r) _ (hsuffix.trans (List.suffix_cons _ _))⟩
  exact hall hist (List.suffix_refl _)

/-! ### What lies ahead of a program -/

/-- The program can ask for an operation in `target` before it asks for one in `check`. -/
def Reaches (check target : Op → Prop) : Program Op Res α → Prop
  | ret _ => False
  | call op next => target op ∨ ¬ check op ∧ ∃ r, (next r).Reaches check target

variable {check target : Op → Prop}

theorem Uses.not_reaches {p : Program Op Res α} (hp : p.Uses fun op => ¬ target op) :
    ¬ p.Reaches check target := by
  induction p with
  | ret a => exact id
  | call op next ih =>
    rintro (ht | ⟨_, r, hr⟩)
    · exact hp.1 ht
    · exact ih r (hp.2 r) hr

theorem Reaches.of_next {op : Op} {next : Res op → Program Op Res α} {r : Res op}
    (h : (next r).Reaches check target) (hop : ¬ check op) :
    (call op next).Reaches check target := Or.inr ⟨hop, r, h⟩

theorem reaches_bind {p : Program Op Res α} {f : α → Program Op Res β}
    (h : (p >>= f).Reaches check target) :
    p.Reaches check target ∨ ∃ a, (f a).Reaches check target := by
  induction p with
  | ret a => exact Or.inr ⟨a, h⟩
  | call op next ih =>
    rcases h with ht | ⟨hc, r, hr⟩
    · exact Or.inl (Or.inl ht)
    · exact (ih r hr).imp_left fun h => h.of_next hc

/-! ### Operations that can go several ways -/

variable {ways : (op : Op) → σ → Res op × σ → Prop}

/-- The points at which a run can be cut off while an effect is still ahead: the
operation it is about to ask for, and the state at that moment. -/
def cuts (m : Meaning Op Res σ) (isEffect : Op → Bool) :
    Program Op Res α → σ → List (Op × σ)
  | ret _, _ => []
  | call op next, s =>
    let rest := (next (m op s).1).cuts m isEffect (m op s).2
    if isEffect op || !rest.isEmpty then (op, s) :: rest else []

theorem mem_cuts_call {isEffect : Op → Bool} {op : Op}
    {next : Res op → Program Op Res α} {s : σ} {c : Op × σ}
    (h : c ∈ (call op next).cuts m isEffect s) :
    c = (op, s) ∨ c ∈ (next (m op s).1).cuts m isEffect (m op s).2 := by
  simp only [cuts] at h
  split at h
  · exact List.mem_cons.mp h
  · exact absurd h List.not_mem_nil

/-- What has no effects adds no cuts. -/
theorem cuts_bind {isEffect : Op → Bool} (p : Program Op Res α)
    {f : α → Program Op Res β} (hf : ∀ a s, (f a).cuts m isEffect s = []) (s : σ) :
    (p >>= f).cuts m isEffect s = p.cuts m isEffect s := by
  induction p generalizing s with
  | ret a => exact hf a s
  | call op next ih =>
    rw [call_bind]
    simp only [cuts, ih]

theorem cuts_of_uses {isEffect : Op → Bool} {p : Program Op Res α}
    (h : p.Uses fun op => isEffect op = false) (s : σ) : p.cuts m isEffect s = [] := by
  induction p generalizing s with
  | ret a => rfl
  | call op next ih =>
    simp only [cuts, ih _ (h.2 _), h.1]
    rfl

/-! ### Running programs concurrently -/

/-- One operation of the `i`-th program of the pool takes place. -/
inductive PoolStep (m : Meaning Op Res σ) (i : Nat) :
    List (Program Op Res α) × σ → List (Program Op Res α) × σ → Prop
  | step {ps : List (Program Op Res α)} {s : σ} {op : Op} {next : Res op → Program Op Res α}
      (hi : ps[i]? = some (call op next)) :
      PoolStep m i (ps, s) (ps.set i (next (m op s).1), (m op s).2)

def PoolRun (m : Meaning Op Res σ) (ok : Nat → List (Program Op Res α) × σ → Prop) :
    List (Program Op Res α) × σ → List (Program Op Res α) × σ → Prop :=
  Relation.ReflTransGen fun c c' => ∃ i, ok i c ∧ PoolStep m i c c'

/-- Let the programs with these indices take one step each, in this order. -/
def follow (m : Meaning Op Res σ) : List Nat → List (Program Op Res α) × σ →
    List (Program Op Res α) × σ
  | [], c => c
  | i :: is, (ps, s) =>
    match ps[i]? with
    | some (call op next) => follow m is (ps.set i (next (m op s).1), (m op s).2)
    | _ => follow m is (ps, s)

theorem follow_run (m : Meaning Op Res σ) (is : List Nat) (c : List (Program Op Res α) × σ) :
    PoolRun m (fun _ _ => True) c (follow m is c) := by
  induction is generalizing c with
  | nil => exact .refl
  | cons i is ih =>
    obtain ⟨ps, s⟩ := c
    rw [follow]
    split
    · next hi => exact .head ⟨i, trivial, .step hi⟩ (ih _)
    · exact ih _

theorem PoolRun.rel {R : σ → σ → Prop} (hrefl : ∀ s, R s s)
    (htrans : ∀ {a b c}, R a b → R b c → R a c)
    {ok : Nat → List (Program Op Res α) × σ → Prop} {allowed : Nat → Op → Prop}
    {c c' : List (Program Op Res α) × σ}
    (hc : ∀ (i : Nat) p, c.1[i]? = some p → p.Uses (allowed i))
    (hop : ∀ i c op, ok i c → allowed i op → R c.2 (m op c.2).2) (h : PoolRun m ok c c') :
    R c.2 c'.2 := by
  have hrun : R c.2 c'.2 ∧ ∀ (i : Nat) p, c'.1[i]? = some p → p.Uses (allowed i) := by
    induction h with
    | refl => exact ⟨hrefl _, hc⟩
    | tail _ hstep ih =>
      obtain ⟨i, hok, hstep⟩ := hstep
      obtain ⟨hR, hprogs⟩ := ih
      cases hstep with
      | @step ps s op next hi =>
        have hlt := (List.getElem?_eq_some_iff.mp hi).1
        have hcall := hprogs i _ hi
        refine ⟨htrans hR (hop i _ op hok hcall.1), fun j p hp => ?_⟩
        by_cases hji : j = i
        · subst hji
          rw [List.getElem?_set_self hlt] at hp
          obtain rfl := Option.some.inj hp
          exact hcall.2 _
        · rw [List.getElem?_set_ne (Ne.symm hji)] at hp
          exact hprogs j p hp
  exact hrun.1

/-! ### Concurrent programs as one -/

def sequence : List (Program Op Res α) → Program Op Res (List α)
  | [] => ret []
  | p :: ps => do
    let a ← p
    let as ← sequence ps
    return a :: as

/-- Run the programs side by side and gather their values.  The list says whose turn
it is; when it is used up the programs end one after the other. -/
def interleave : List Nat → List (Program Op Res α) → Program Op Res (List α)
  | [], ps => sequence ps
  | i :: is, ps =>
    match ps[i]? with
    | some (call op next) => call op fun r => interleave is (ps.set i (next r))
    | _ => interleave is ps

theorem uses_sequence {ps : List (Program Op Res α)} (h : ∀ p ∈ ps, p.Uses allowed) :
    (sequence ps).Uses allowed := by
  induction ps with
  | nil => trivial
  | cons p ps ih =>
    exact (h p List.mem_cons_self).bind fun a =>
      (ih fun q hq => h q (List.mem_cons_of_mem _ hq)).bind fun as => trivial

theorem uses_interleave {is : List Nat} {ps : List (Program Op Res α)}
    (h : ∀ p ∈ ps, p.Uses allowed) : (interleave is ps).Uses allowed := by
  induction is generalizing ps with
  | nil => exact uses_sequence h
  | cons i is ih =>
    rw [interleave]
    split
    · next op next hi =>
      have hcall := h _ (List.mem_of_getElem? hi)
      refine ⟨hcall.1, fun r => ih fun q hq => ?_⟩
      rcases List.mem_or_eq_of_mem_set hq with hq | rfl
      · exact h q hq
      · exact hcall.2 r
    · exact ih h

theorem poolRun_at {ps : List (Program Op Res α)} {s : σ} {i : Nat} {p : Program Op Res α}
    (hi : ps[i]? = some p) : PoolRun m (fun _ _ => True) (ps, s)
      (ps.set i (ret (p.run m s).1), (p.run m s).2) := by
  induction p generalizing ps s with
  | ret a =>
    obtain ⟨hlt, he⟩ := List.getElem?_eq_some_iff.mp hi
    rw [run_ret, ← he, List.set_getElem_self]
    exact .refl
  | call op next ih =>
    obtain ⟨hlt, -⟩ := List.getElem?_eq_some_iff.mp hi
    have hnext : (ps.set i (next (m op s).1))[i]? = some (next (m op s).1) := by
      rw [List.getElem?_set_self hlt]
    have := ih _ hnext (s := (m op s).2)
    rw [List.set_set] at this
    exact .head ⟨i, trivial, .step hi⟩ this

theorem sequence_poolRun (done : List α) (ps : List (Program Op Res α)) (s : σ) :
    PoolRun m (fun _ _ => True) (done.map ret ++ ps, s)
      ((done ++ ((sequence ps).run m s).1).map ret, ((sequence ps).run m s).2) := by
  induction ps generalizing done s with
  | nil =>
    simp only [sequence, run_ret, List.append_nil]
    exact .refl
  | cons p ps ih =>
    have hi : (done.map ret ++ p :: ps)[done.length]? = some p := by
      rw [List.getElem?_append_right (by simp), List.length_map, Nat.sub_self]
      rfl
    have hset : (done.map ret ++ p :: ps).set done.length (ret (p.run m s).1) =
        (done ++ [(p.run m s).1]).map ret ++ ps := by
      rw [List.set_append_right _ _ (by simp), List.length_map, Nat.sub_self]
      simp
    have hp := poolRun_at (m := m) (s := s) hi
    rw [hset] at hp
    have hrest := ih (done ++ [(p.run m s).1]) (p.run m s).2
    rw [sequence, run_bind, run_bind]
    rw [List.append_assoc] at hrest
    exact hp.trans hrest

/-- **A run of interleaved programs is a run of their pool** to the end. -/
theorem interleave_poolRun (is : List Nat) (ps : List (Program Op Res α)) (s : σ) :
    PoolRun m (fun _ _ => True) (ps, s)
      (((interleave is ps).run m s).1.map ret, ((interleave is ps).run m s).2) := by
  induction is generalizing ps s with
  | nil => exact sequence_poolRun [] ps s
  | cons i is ih =>
    rw [interleave]
    split
    · next hi => exact .head ⟨i, trivial, .step hi⟩ (ih _ _)
    · exact ih ps s

/-- **The rule for programs side by side.**  `P x p s` says how the program for `x` has
got to `p` in the state `s`, and `I` is what they share.  When a step of one keeps `I`,
goes on with its own `P` and keeps that of all others, then `I` and every `P` hold at the
end, however the steps are ordered. -/
theorem interleave_rule {ι : Type} {xs : List ι} {prog : ι → Program Op Res α} {I : σ → Prop}
    {P : ι → Program Op Res α → σ → Prop}
    (hstep : ∀ (i : Nat) x op next s, xs[i]? = some x → I s → P x (call op next) s →
      I (m op s).2 ∧ P x (next (m op s).1) (m op s).2 ∧
        ∀ (j : Nat) y p, j ≠ i → xs[j]? = some y → P y p s → P y p (m op s).2)
    {s : σ} (hI : I s) (hP : ∀ x ∈ xs, P x (prog x) s) (is : List Nat) {res : List α × σ}
    (hres : (interleave is (xs.map prog)).run m s = res) :
    I res.2 ∧ (∀ x ∈ xs, ∃ a ∈ res.1, P x (ret a) res.2) ∧
      ∀ a ∈ res.1, ∃ x ∈ xs, P x (ret a) res.2 := by
  let Inv : List (Program Op Res α) × σ → Prop := fun c =>
    I c.2 ∧ c.1.length = xs.length ∧
      ∀ (i : Nat) x p, xs[i]? = some x → c.1[i]? = some p → P x p c.2
  have hinv : ∀ c, PoolRun m (fun _ _ => True) (xs.map prog, s) c → Inv c := by
    intro c hc
    induction hc with
    | refl =>
      refine ⟨hI, by simp, fun i x p hx hp => ?_⟩
      rw [List.getElem?_map, hx] at hp
      obtain rfl := Option.some.inj hp
      exact hP x (List.mem_of_getElem? hx)
    | tail _ hpool ih =>
      obtain ⟨i, -, hpool⟩ := hpool
      obtain ⟨hI, hlen, hall⟩ := ih
      cases hpool with
      | @step ps s op next hi =>
      have hlt := (List.getElem?_eq_some_iff.mp hi).1
      have hx := List.getElem?_eq_getElem (show i < xs.length by rw [← hlen]; exact hlt)
      obtain ⟨hI', hown, hothers⟩ := hstep i _ op next s hx hI (hall i _ _ hx hi)
      refine ⟨hI', by rw [List.length_set, hlen], fun j y p hy hp => ?_⟩
      by_cases hij : i = j
      · subst hij
        rw [List.getElem?_set_self hlt] at hp
        obtain rfl := Option.some.inj hp
        obtain rfl := Option.some.inj (hx.symm.trans hy)
        exact hown
      · rw [List.getElem?_set_ne hij] at hp
        exact hothers j y p (Ne.symm hij) hy (hall j y p hy hp)
  have hend := hinv _ (interleave_poolRun is (xs.map prog) s)
  rw [hres] at hend
  obtain ⟨hI', hlen, hall⟩ := hend
  have hlen : res.1.length = xs.length := by rw [← hlen, List.length_map]
  have hat : ∀ (i : Nat) (hi : i < xs.length) (hi' : i < res.1.length),
      P xs[i] (ret res.1[i]) res.2 := by
    intro i hi hi'
    refine hall i _ _ (List.getElem?_eq_getElem hi) ?_
    rw [List.getElem?_map, List.getElem?_eq_getElem hi']
    rfl
  refine ⟨hI', fun x hx => ?_, fun a ha => ?_⟩
  · obtain ⟨i, hi, rfl⟩ := List.getElem_of_mem hx
    exact ⟨_, List.getElem_mem (hlen ▸ hi), hat i hi (hlen ▸ hi)⟩
  · obtain ⟨i, hi, rfl⟩ := List.getElem_of_mem ha
    exact ⟨_, List.getElem_mem (hlen ▸ hi), hat i (hlen ▸ hi) hi⟩

end Program

end SpaServer.Base
