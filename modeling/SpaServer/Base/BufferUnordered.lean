import Mathlib.Logic.Hydra
import SpaServer.Base.Program

/-!
# Programs of a stream, some of them at a time

`StreamExt::buffer_unordered` takes the futures of a stream in their order, has at most
`limit` of them on their way at a time, and gives their values in the order in which they
complete.  A `Pool` is where this has got to: the futures that have not been taken, those
on their way, and the values so far, each with the name of its future.  A step takes a
future, lets one that is on its way do one operation, or gives the value of one that has
returned; whose turn it is is left open.

* `Step.tasks`: but for one operation of one program, a step only moves the programs.
* `step_wellFounded`: every run ends, whatever the operations answer.
* `exists_step`: a run that has not given all values can go on.
-/

namespace SpaServer.Base

structure Pool (Op : Type) (Res : Op → Type) (α ι : Type) where
  waiting : List (ι × Program Op Res α)
  flying : List (ι × Program Op Res α)
  outputs : List (ι × α)

namespace Pool

open Program

variable {Op : Type} {Res : Op → Type} {α ι σ : Type}

def Finished (pool : Pool Op Res α ι) : Prop := pool.waiting = [] ∧ pool.flying = []

def tasks (pool : Pool Op Res α ι) : Multiset (ι × Program Op Res α) :=
  (pool.waiting : Multiset (ι × Program Op Res α)) +
    ((pool.flying : Multiset (ι × Program Op Res α)) +
      (pool.outputs : Multiset (ι × α)).map fun o => (o.1, ret o.2))

def ahead (pool : Pool Op Res α ι) : Nat := 2 * pool.waiting.length + pool.flying.length

/-- One step of the pool, where `ways` says what an operation of a program can answer and
do to the state. -/
inductive Step (ways : ι → (op : Op) → σ → Res op × σ → Prop) (limit : Nat) :
    Pool Op Res α ι × σ → Pool Op Res α ι × σ → Prop
  | take {x : ι × Program Op Res α} {waiting flying : List (ι × Program Op Res α)}
      {outputs : List (ι × α)} {s : σ} (hroom : flying.length < limit) :
      Step ways limit (⟨x :: waiting, flying, outputs⟩, s) (⟨waiting, flying ++ [x], outputs⟩, s)
  | advance {i : ι} {op : Op} {next : Res op → Program Op Res α} {r : Res op}
      {waiting : List (ι × Program Op Res α)} (before : List (ι × Program Op Res α))
      {after : List (ι × Program Op Res α)} {outputs : List (ι × α)} {s s' : σ}
      (hway : ways i op s (r, s')) :
      Step ways limit (⟨waiting, before ++ (i, call op next) :: after, outputs⟩, s)
        (⟨waiting, before ++ (i, next r) :: after, outputs⟩, s')
  | give {i : ι} {a : α} {waiting : List (ι × Program Op Res α)}
      (before : List (ι × Program Op Res α)) {after : List (ι × Program Op Res α)}
      {outputs : List (ι × α)} {s : σ} :
      Step ways limit (⟨waiting, before ++ (i, ret a) :: after, outputs⟩, s)
        (⟨waiting, before ++ after, outputs ++ [(i, a)]⟩, s)

variable {ways : ι → (op : Op) → σ → Res op × σ → Prop} {limit : Nat}
  {c c' : Pool Op Res α ι × σ}

theorem coe_middle {β : Type} (x : β) (before after : List β) :
    ((before ++ x :: after : List β) : Multiset β) = x ::ₘ ((before ++ after : List β) : Multiset β) :=
  Quot.sound List.perm_middle

/-- **But for one operation of one program**, a step only moves the programs. -/
theorem Step.tasks (h : Step ways limit c c') :
    (c'.1.tasks = c.1.tasks ∧ c'.2 = c.2 ∧ c'.1.ahead < c.1.ahead) ∨
    ∃ i op next r rest, ways i op c.2 (r, c'.2) ∧ c.1.tasks = (i, call op next) ::ₘ rest ∧
      c'.1.tasks = (i, next r) ::ₘ rest := by
  cases h with
  | @take x waiting flying outputs s _ =>
    refine Or.inl ⟨?_, rfl, ?_⟩
    · simp only [Pool.tasks, coe_middle, List.append_nil, ← Multiset.cons_coe, Multiset.cons_add,
        Multiset.add_cons]
    · simp only [ahead, List.length_append, List.length_cons, List.length_nil]
      omega
  | @advance i op next r waiting before after outputs s s' hway =>
    refine Or.inr ⟨i, op, next, r, Pool.tasks ⟨waiting, before ++ after, outputs⟩, hway, ?_, ?_⟩
    · simp only [Pool.tasks, coe_middle, Multiset.cons_add, Multiset.add_cons]
    · simp only [Pool.tasks, coe_middle, Multiset.cons_add, Multiset.add_cons]
  | @give i a waiting before after outputs s =>
    refine Or.inl ⟨?_, rfl, ?_⟩
    · simp only [Pool.tasks, coe_middle, List.append_nil, Multiset.map_cons, Multiset.cons_add,
        Multiset.add_cons]
    · simp only [ahead, List.length_append, List.length_cons]
      omega

theorem Step.names (h : Step ways limit c c') :
    c'.1.tasks.map Prod.fst = c.1.tasks.map Prod.fst := by
  rcases h.tasks with ⟨he, _, _⟩ | ⟨i, op, next, r, rest, _, he, he'⟩
  · rw [he]
  · rw [he, he', Multiset.map_cons, Multiset.map_cons]

/-- **The rule for one step.**  What holds of every program in its state holds after the step,
if an operation keeps it for its own program and for all the others. -/
theorem Step.keeps {P : ι → Program Op Res α → σ → Prop} (h : Step ways limit c c')
    (hnames : (c.1.tasks.map Prod.fst).Nodup)
    (hown : ∀ {i op next r s'}, ways i op c.2 (r, s') → P i (call op next) c.2 → P i (next r) s')
    (hothers : ∀ {i op r s' j p}, ways i op c.2 (r, s') → j ≠ i → P j p c.2 → P j p s')
    (hP : ∀ x ∈ c.1.tasks, P x.1 x.2 c.2) : ∀ x ∈ c'.1.tasks, P x.1 x.2 c'.2 := by
  rcases h.tasks with ⟨he, hs, _⟩ | ⟨i, op, next, r, rest, hway, he, he'⟩
  · rw [he, hs]
    exact hP
  · rw [he] at hnames hP
    rw [he']
    rw [Multiset.map_cons, Multiset.nodup_cons] at hnames
    intro x hx
    rcases Multiset.mem_cons.mp hx with rfl | hx
    · exact hown hway (hP _ (Multiset.mem_cons_self _ _))
    · refine hothers hway (fun hxi => hnames.1 ?_) (hP x (Multiset.mem_cons_of_mem hx))
      show i ∈ rest.map Prod.fst
      rw [← hxi]
      exact Multiset.mem_map_of_mem Prod.fst hx

/-! ### Going on, and ending -/

theorem finished_iff {pool : Pool Op Res α ι} :
    pool.Finished ↔ pool.tasks = (pool.outputs : Multiset (ι × α)).map fun o => (o.1, ret o.2) := by
  rw [tasks, ← add_assoc, add_eq_right, add_eq_zero, Multiset.coe_eq_zero, Multiset.coe_eq_zero]
  rfl

/-- **A pool that is not finished can go on**, if there is room for one program and every
operation answers in some way. -/
theorem exists_step {pool : Pool Op Res α ι} {s : σ} (hlimit : 0 < limit)
    (hways : ∀ i op s, ∃ res, ways i op s res) (h : ¬ pool.Finished) :
    ∃ c', Step ways limit (pool, s) c' := by
  obtain ⟨waiting, flying, outputs⟩ := pool
  cases flying with
  | nil =>
    cases waiting with
    | nil => exact absurd ⟨rfl, rfl⟩ h
    | cons x waiting => exact ⟨_, .take hlimit⟩
  | cons x after =>
    obtain ⟨i, p⟩ := x
    cases p with
    | ret a => exact ⟨_, .give []⟩
    | call op next =>
      obtain ⟨⟨r, s'⟩, hway⟩ := hways i op s
      exact ⟨_, .advance [] hway⟩

def Later (p' p : Program Op Res α) : Prop := ∃ op next r, p = call op next ∧ p' = next r

theorem later_wellFounded : WellFounded (@Later Op Res α) := by
  refine ⟨fun p => ?_⟩
  induction p with
  | ret a =>
    refine ⟨_, ?_⟩
    rintro _ ⟨_, _, _, he, _⟩
    exact absurd he (by simp)
  | call op next ih =>
    refine ⟨_, ?_⟩
    rintro _ ⟨op', next', r, he, rfl⟩
    obtain ⟨rfl, rfl⟩ := Program.call.inj he
    exact ih r

/-- **Every run of a pool ends.**  An operation replaces one of its programs by what that goes
on as; between two operations the programs only move on, to the stage behind. -/
theorem step_wellFounded :
    WellFounded fun c' c : Pool Op Res α ι × σ => Step ways limit c c' := by
  refine Subrelation.wf (r := InvImage (Prod.Lex (Relation.CutExpand Later) (· < ·))
    fun c : Pool Op Res α ι × σ => (c.1.tasks.map Prod.snd, c.1.ahead)) ?_
    (InvImage.wf _ (later_wellFounded.cutExpand.prod_lex Nat.lt_wfRel.wf))
  intro c' c h
  rcases h.tasks with ⟨he, _, hahead⟩ | ⟨i, op, next, r, rest, _, he, he'⟩
  · show Prod.Lex _ _ (c'.1.tasks.map Prod.snd, _) (c.1.tasks.map Prod.snd, _)
    rw [he]
    exact Prod.Lex.right _ hahead
  · refine Prod.Lex.left _ _ ?_
    rw [he, he', Multiset.map_cons, Multiset.map_cons, ← Multiset.singleton_add,
      ← Multiset.singleton_add]
    exact Relation.cutExpand_single_add ⟨op, next, r, rfl, rfl⟩ _

end Pool

end SpaServer.Base
