import SpaServer.Base.Text

/-!
# Regular expressions

The fragment of the `regex` crate's syntax that the server uses: character
classes, concatenation, `r?`, `r{0,n}` and `r+`.  `rests r s` lists what is left
of `s` behind every match of `r` at its front, and `isMatch` is `Regex::is_match`,
which looks for a match anywhere in the string.  `matchesWhole` is the stricter notion,
that of a string of the grammar.

`Matches r u` is the language of `r`.  `mem_rests` says that `rests` enumerates it, and with it
`isMatch_iff` that the search finds a substring of the language when there is one.
-/

namespace SpaServer.Base

inductive Regex where
  | cls (p : Char → Bool)
  | seq (r s : Regex)
  | opt (r : Regex)
  | upTo (n : Nat) (r : Regex)
  | plus (r : Regex)

namespace Regex

def iterate (f : Str → List Str) : Nat → Str → List Str
  | 0, s => [s]
  | n + 1, s => s :: (f s).flatMap (iterate f n)

/-- What is left of `s` behind each match at its front.  A match of the `r` of
`r+` is taken to be non-empty, so there are at most as many as characters. -/
def rests : Regex → Str → List Str
  | cls _, [] => []
  | cls p, c :: s => if p c then [s] else []
  | seq r t, s => (r.rests s).flatMap t.rests
  | opt r, s => s :: r.rests s
  | upTo n r, s => iterate r.rests n s
  | plus r, s => (r.rests s).flatMap fun t => iterate r.rests t.length t

/-- `Regex::is_match`: some substring matches. -/
def isMatch (r : Regex) (s : Str) : Bool := s.tails.any fun t => !(r.rests t).isEmpty

def matchesWhole (r : Regex) (s : Str) : Bool := (r.rests s).contains []

theorem isMatch_of_matchesWhole {r : Regex} {s : Str} (h : r.matchesWhole s = true) :
    r.isMatch s = true := by
  have hmem := List.contains_iff_mem.mp h
  refine List.any_eq_true.mpr ⟨s, (List.mem_tails s s).mpr (List.suffix_refl s), ?_⟩
  cases hr : r.rests s with
  | nil => rw [hr] at hmem; exact absurd hmem List.not_mem_nil
  | cons t ts => rfl

def char (c : Char) : Regex := cls (· == c)

/-! ### The language -/

def Matches : Regex → Str → Prop
  | cls p, u => ∃ c, p c = true ∧ u = [c]
  | seq r t, u => ∃ v w, r.Matches v ∧ t.Matches w ∧ u = v ++ w
  | opt r, u => u = [] ∨ r.Matches u
  | upTo n r, u => ∃ us : List Str, us.length ≤ n ∧ (∀ v ∈ us, r.Matches v) ∧ u = us.flatten
  | plus r, u => ∃ us : List Str, us ≠ [] ∧ (∀ v ∈ us, r.Matches v) ∧ u = us.flatten

/-- If `f` lists what is left behind a string of `P`, `iterate f n` lists what is left behind at
most `n` of them. -/
theorem mem_iterate {f : Str → List Str} {P : Str → Prop}
    (hf : ∀ s t, t ∈ f s ↔ ∃ u, P u ∧ s = u ++ t) :
    ∀ n s t, t ∈ iterate f n s ↔
      ∃ us : List Str, us.length ≤ n ∧ (∀ v ∈ us, P v) ∧ s = us.flatten ++ t
  | 0, s, t => by
    rw [iterate, List.mem_singleton]
    constructor
    · rintro rfl
      exact ⟨[], Nat.le_refl 0, fun v hv => absurd hv List.not_mem_nil, rfl⟩
    · rintro ⟨us, hlen, _, rfl⟩
      rw [List.eq_nil_of_length_eq_zero (Nat.le_zero.mp hlen)]
      rfl
  | n + 1, s, t => by
    rw [iterate, List.mem_cons, List.mem_flatMap]
    constructor
    · rintro (rfl | ⟨s', hs', ht⟩)
      · exact ⟨[], Nat.zero_le _, fun v hv => absurd hv List.not_mem_nil, rfl⟩
      · obtain ⟨u, hu, rfl⟩ := (hf s s').mp hs'
        obtain ⟨us, hlen, hus, rfl⟩ := (mem_iterate hf n s' t).mp ht
        refine ⟨u :: us, Nat.succ_le_succ hlen, List.forall_mem_cons.mpr ⟨hu, hus⟩, ?_⟩
        rw [List.flatten_cons, List.append_assoc]
    · rintro ⟨us, hlen, hus, rfl⟩
      cases us with
      | nil => exact Or.inl rfl
      | cons u us =>
        obtain ⟨hu, hus⟩ := List.forall_mem_cons.mp hus
        refine Or.inr ⟨us.flatten ++ t, (hf _ _).mpr ⟨u, hu, ?_⟩, ?_⟩
        · rw [List.flatten_cons, List.append_assoc]
        · exact (mem_iterate hf n _ t).mpr ⟨us, Nat.le_of_succ_le_succ hlen, hus, rfl⟩

theorem length_le_flatten {us : List Str} (h : ∀ u ∈ us, u ≠ []) :
    us.length ≤ us.flatten.length := by
  induction us with
  | nil => exact Nat.le_refl 0
  | cons u us ih =>
    obtain ⟨hu, hus⟩ := List.forall_mem_cons.mp h
    have hpos := List.length_pos_iff.mpr hu
    have hrest := ih hus
    rw [List.flatten_cons, List.length_append, List.length_cons]
    omega

/-- **The matcher enumerates the language.** -/
theorem mem_rests : ∀ (r : Regex) (s t : Str), t ∈ r.rests s ↔ ∃ u, r.Matches u ∧ s = u ++ t
  | cls p, s, t => by
    constructor
    · intro h
      cases s with
      | nil => exact absurd h List.not_mem_nil
      | cons c s =>
        rw [rests] at h
        split at h
        case isTrue hc =>
          obtain rfl := List.mem_singleton.mp h
          exact ⟨[c], ⟨c, hc, rfl⟩, rfl⟩
        case isFalse => exact absurd h List.not_mem_nil
    · rintro ⟨u, ⟨c, hc, rfl⟩, rfl⟩
      show t ∈ rests (cls p) (c :: t)
      rw [rests, if_pos hc]
      exact List.mem_singleton_self t
  | seq r r', s, t => by
    rw [rests, List.mem_flatMap]
    constructor
    · rintro ⟨s', hs', ht⟩
      obtain ⟨v, hv, rfl⟩ := (mem_rests r s s').mp hs'
      obtain ⟨w, hw, rfl⟩ := (mem_rests r' s' t).mp ht
      exact ⟨v ++ w, ⟨v, w, hv, hw, rfl⟩, (List.append_assoc v w t).symm⟩
    · rintro ⟨u, ⟨v, w, hv, hw, rfl⟩, rfl⟩
      exact ⟨w ++ t, (mem_rests r _ _).mpr ⟨v, hv, List.append_assoc v w t⟩,
        (mem_rests r' _ _).mpr ⟨w, hw, rfl⟩⟩
  | opt r, s, t => by
    rw [rests, List.mem_cons, mem_rests r s t]
    constructor
    · rintro (rfl | ⟨u, hu, he⟩)
      · exact ⟨[], Or.inl rfl, rfl⟩
      · exact ⟨u, Or.inr hu, he⟩
    · rintro ⟨u, rfl | hu, he⟩
      · exact Or.inl he.symm
      · exact Or.inr ⟨u, hu, he⟩
  | upTo n r, s, t => by
    rw [rests, mem_iterate (mem_rests r)]
    constructor
    · rintro ⟨us, hlen, hus, he⟩
      exact ⟨us.flatten, ⟨us, hlen, hus, rfl⟩, he⟩
    · rintro ⟨u, ⟨us, hlen, hus, rfl⟩, he⟩
      exact ⟨us, hlen, hus, he⟩
  | plus r, s, t => by
    rw [rests, List.mem_flatMap]
    constructor
    · rintro ⟨s', hs', ht⟩
      obtain ⟨v, hv, rfl⟩ := (mem_rests r s s').mp hs'
      obtain ⟨us, _, hus, rfl⟩ := (mem_iterate (mem_rests r) _ _ _).mp ht
      refine ⟨(v :: us).flatten, ⟨v :: us, List.cons_ne_nil v us,
        List.forall_mem_cons.mpr ⟨hv, hus⟩, rfl⟩, ?_⟩
      rw [List.flatten_cons, List.append_assoc]
    · rintro ⟨u, ⟨us, hne, hus, rfl⟩, rfl⟩
      cases us with
      | nil => exact absurd rfl hne
      | cons v us =>
        obtain ⟨hv, hus⟩ := List.forall_mem_cons.mp hus
        refine ⟨us.flatten ++ t, (mem_rests r _ _).mpr ⟨v, hv, ?_⟩, ?_⟩
        · rw [List.flatten_cons, List.append_assoc]
        -- only the matches that are not empty count against the bound
        have hflat : (us.filter (· ≠ [])).flatten = us.flatten := List.flatten_filter_ne_nil
        refine (mem_iterate (mem_rests r) _ _ _).mpr ⟨us.filter (· ≠ []), ?_, ?_, ?_⟩
        · have hle : (us.filter (· ≠ [])).length ≤ (us.filter (· ≠ [])).flatten.length :=
            length_le_flatten fun u hu => by simpa using (List.mem_filter.mp hu).2
          rw [hflat] at hle
          rw [List.length_append]
          exact Nat.le_add_right_of_le hle
        · intro u hu
          exact hus u (List.mem_of_mem_filter hu)
        · rw [hflat]

/-- **The search finds a substring of the language** exactly when there is one. -/
theorem isMatch_iff {r : Regex} {s : Str} :
    r.isMatch s = true ↔ ∃ u, u <:+: s ∧ r.Matches u := by
  rw [isMatch, List.any_eq_true]
  constructor
  · rintro ⟨t, ht, hne⟩
    have hsuffix := (List.mem_tails t s).mp ht
    cases hr : r.rests t with
    | nil => rw [hr] at hne; exact absurd hne Bool.false_ne_true
    | cons t' ts =>
      obtain ⟨u, hu, rfl⟩ := (mem_rests r t t').mp (hr ▸ List.mem_cons_self)
      exact ⟨u, (List.prefix_append u t').isInfix.trans hsuffix.isInfix, hu⟩
  · rintro ⟨u, ⟨v, t, rfl⟩, hu⟩
    refine ⟨u ++ t, (List.mem_tails _ _).mpr ?_, ?_⟩
    · rw [List.append_assoc]
      exact List.suffix_append v (u ++ t)
    · have hmem := (mem_rests r (u ++ t) t).mpr ⟨u, hu, rfl⟩
      rw [Bool.not_eq_true', List.isEmpty_eq_false_iff]
      exact List.ne_nil_of_mem hmem

end Regex

end SpaServer.Base
