import SpaServer.DomainStorage

/-!
# Host names

The pattern `URI_REGEX` describes host names: labels with dots between them (`HostName`).  As a
grammar it does (`uriRegex_matches_iff`), but the check is `is_match`, which is content with a
part of the string: `isMatch_iff_dotted` is what it asks for.  A label before a dot counts from
its last letter or digit on, and one behind a dot may be cut after its first.

`isMatch_hostName_iff` is for which strings the two agree.
-/

namespace SpaServer

open Base

/-- A letter or digit, and at most 62 letters, digits and hyphens. -/
def Label (l : Str) : Prop :=
  ∃ c rest, l = c :: rest ∧ c.isAlphanum = true ∧ rest.length ≤ 62 ∧
    ∀ d ∈ rest, d = '-' ∨ d.isAlphanum = true

/-- Two or more labels, and possibly a dot at the end. -/
def HostName (s : Str) : Prop :=
  ∃ labels : List Str, 2 ≤ labels.length ∧ (∀ l ∈ labels, Label l) ∧
    (s = List.intercalate ['.'] labels ∨ s = List.intercalate ['.'] labels ++ ['.'])

/-! ### The pattern -/

def labelRegex : Regex :=
  .seq (.cls fun c => c.isAlphanum) (.upTo 62 (.cls fun c => c = '-' || c.isAlphanum))

theorem uriRegex_eq : uriRegex =
    .seq labelRegex (.seq (.plus (.seq (.char '.') labelRegex)) (.opt (.char '.'))) := rfl

theorem char_matches_iff {c : Char} {u : Str} : (Regex.char c).Matches u ↔ u = [c] := by
  constructor
  · rintro ⟨d, hd, rfl⟩
    rw [beq_iff_eq.mp hd]
  · rintro rfl
    exact ⟨c, beq_self_eq_true c, rfl⟩

/-- One character for each match of a class. -/
theorem flatten_of_cls {p : Char → Bool} {us : List Str}
    (h : ∀ u ∈ us, (Regex.cls p).Matches u) :
    us.flatten.length = us.length ∧ ∀ c ∈ us.flatten, p c = true := by
  induction us with
  | nil => exact ⟨rfl, fun c hc => absurd hc List.not_mem_nil⟩
  | cons u us ih =>
    obtain ⟨⟨c, hc, rfl⟩, hus⟩ := List.forall_mem_cons.mp h
    obtain ⟨hlen, hall⟩ := ih hus
    rw [List.flatten_cons, List.length_append, hlen, List.length_cons]
    refine ⟨Nat.add_comm .., fun d hd => ?_⟩
    rcases List.mem_cons.mp hd with rfl | hd
    · exact hc
    · exact hall d hd

theorem labelRegex_matches_iff {l : Str} : labelRegex.Matches l ↔ Label l := by
  constructor
  · rintro ⟨v, w, ⟨c, hc, rfl⟩, ⟨us, hlen, hus, rfl⟩, rfl⟩
    obtain ⟨hflat, hall⟩ := flatten_of_cls hus
    refine ⟨c, us.flatten, rfl, hc, hflat ▸ hlen, fun d hd => ?_⟩
    simpa using hall d hd
  · rintro ⟨c, rest, rfl, hc, hlen, hall⟩
    refine ⟨[c], rest, ⟨c, hc, rfl⟩, ⟨rest.map fun d => [d], ?_, ?_, ?_⟩, rfl⟩
    · rw [List.length_map]
      exact hlen
    · intro u hu
      obtain ⟨d, hd, rfl⟩ := List.mem_map.mp hu
      exact ⟨d, by simpa using hall d hd, rfl⟩
    · rw [← List.flatMap_def, List.flatMap_singleton']

theorem intercalate_cons (l : Str) (ls : List Str) :
    List.intercalate ['.'] (l :: ls) = l ++ (ls.map fun m => '.' :: m).flatten := by
  induction ls generalizing l with
  | nil => rw [List.intercalate_singleton, List.map_nil, List.flatten_nil, List.append_nil]
  | cons m ls ih =>
    rw [List.intercalate_cons_cons, ih m, List.map_cons, List.flatten_cons]
    simp

/-- What the `+` of the pattern matches: a dot and a label each time. -/
theorem plus_matches_iff {u : Str} :
    (Regex.plus (.seq (.char '.') labelRegex)).Matches u ↔
      ∃ ls : List Str, ls ≠ [] ∧ (∀ l ∈ ls, Label l) ∧ u = (ls.map fun l => '.' :: l).flatten := by
  have hone : ∀ v : Str, (Regex.seq (.char '.') labelRegex).Matches v ↔
      ∃ l, Label l ∧ '.' :: l = v := by
    intro v
    constructor
    · rintro ⟨a, l, ha, hl, rfl⟩
      rw [char_matches_iff.mp ha]
      exact ⟨l, labelRegex_matches_iff.mp hl, rfl⟩
    · rintro ⟨l, hl, rfl⟩
      exact ⟨['.'], l, char_matches_iff.mpr rfl, labelRegex_matches_iff.mpr hl, rfl⟩
  constructor
  · rintro ⟨us, hne, hus, rfl⟩
    have hls : ∃ ls : List Str, (∀ l ∈ ls, Label l) ∧ us = ls.map fun l => '.' :: l := by
      clear hne
      induction us with
      | nil => exact ⟨[], fun l hl => absurd hl List.not_mem_nil, rfl⟩
      | cons v us ih =>
        obtain ⟨hv, hrest⟩ := List.forall_mem_cons.mp hus
        obtain ⟨l, hl, rfl⟩ := (hone v).mp hv
        obtain ⟨ls, hall, rfl⟩ := ih hrest
        exact ⟨l :: ls, List.forall_mem_cons.mpr ⟨hl, hall⟩, rfl⟩
    obtain ⟨ls, hall, rfl⟩ := hls
    exact ⟨ls, fun h => hne (by rw [h]; rfl), hall, rfl⟩
  · rintro ⟨ls, hne, hall, rfl⟩
    refine ⟨ls.map fun l => '.' :: l, fun h => hne (List.map_eq_nil_iff.mp h), ?_, rfl⟩
    intro v hv
    obtain ⟨l, hl, rfl⟩ := List.mem_map.mp hv
    exact (hone _).mpr ⟨l, hall l hl, rfl⟩

/-- **The pattern as a grammar is that of host names.** -/
theorem uriRegex_matches_iff {s : Str} : uriRegex.Matches s ↔ HostName s := by
  rw [uriRegex_eq]
  constructor
  · rintro ⟨l, _, hl, ⟨u, w, hu, hw, rfl⟩, rfl⟩
    obtain ⟨ls, hne, hall, rfl⟩ := plus_matches_iff.mp hu
    refine ⟨l :: ls, Nat.succ_le_succ (List.length_pos_iff.mpr hne),
      List.forall_mem_cons.mpr ⟨labelRegex_matches_iff.mp hl, hall⟩, ?_⟩
    rw [intercalate_cons, List.append_assoc]
    rcases hw with rfl | hw
    · exact Or.inl (by rw [List.append_nil])
    · exact Or.inr (by rw [char_matches_iff.mp hw])
  · rintro ⟨labels, htwo, hall, hs⟩
    cases labels with
    | nil => exact absurd htwo (by decide)
    | cons l ls =>
      obtain ⟨hl, hls⟩ := List.forall_mem_cons.mp hall
      have hne : ls ≠ [] := List.length_pos_iff.mp (Nat.le_of_succ_le_succ htwo)
      rw [intercalate_cons, List.append_assoc] at hs
      have hplus := plus_matches_iff.mpr ⟨ls, hne, hls, rfl⟩
      rcases hs with rfl | rfl
      · exact ⟨l, _, labelRegex_matches_iff.mpr hl,
          ⟨_, [], hplus, Or.inl rfl, (List.append_nil _).symm⟩, rfl⟩
      · exact ⟨l, _, labelRegex_matches_iff.mpr hl,
          ⟨_, ['.'], hplus, Or.inr (char_matches_iff.mpr rfl), rfl⟩, rfl⟩

/-- So the whole string is matched exactly when it is a host name. -/
theorem matchesWhole_iff {s : Str} : uriRegex.matchesWhole s = true ↔ HostName s := by
  rw [Regex.matchesWhole, List.contains_iff_mem, Regex.mem_rests, ← uriRegex_matches_iff]
  constructor
  · rintro ⟨u, hu, rfl⟩
    rw [List.append_nil]
    exact hu
  · intro h
    exact ⟨s, h, (List.append_nil s).symm⟩

/-! ### The search -/

/-- Somewhere a letter or digit with at most 62 hyphens behind it stands before a dot, and another
letter or digit right behind the dot. -/
def Dotted (s : Str) : Prop :=
  ∃ c k d, c.isAlphanum = true ∧ k ≤ 62 ∧ d.isAlphanum = true ∧
    (c :: List.replicate k '-') ++ ['.', d] <:+: s

theorem label_suffix {c : Char} (hc : c.isAlphanum = true) {rest : Str}
    (h : ∀ d ∈ rest, d = '-' ∨ d.isAlphanum = true) :
    ∃ c' k, c'.isAlphanum = true ∧ k ≤ rest.length ∧
      c' :: List.replicate k '-' <:+ c :: rest := by
  induction rest using List.reverseRecOn with
  | nil => exact ⟨c, 0, hc, Nat.le_refl 0, List.suffix_refl _⟩
  | append_singleton rest d ih =>
    rcases h d (List.mem_append_right _ (List.mem_singleton_self d)) with rfl | hd
    · obtain ⟨c', k, hc', hk, hsuffix⟩ := ih fun e he => h e (List.mem_append_left _ he)
      refine ⟨c', k + 1, hc', ?_, ?_⟩
      · rw [List.length_append]
        exact Nat.succ_le_succ hk
      · rw [List.replicate_succ', ← List.cons_append, ← List.cons_append]
        obtain ⟨t, ht⟩ := hsuffix
        exact ⟨t, by rw [← List.append_assoc, ht]⟩
    · exact ⟨d, 0, hd, Nat.zero_le _, List.suffix_append (c :: rest) [d]⟩

/-- **`is_match` looks for a letter or digit, hyphens, a dot and a letter or digit.** -/
theorem isMatch_iff_dotted {s : Str} : uriRegex.isMatch s = true ↔ Dotted s := by
  rw [Regex.isMatch_iff]
  constructor
  · rintro ⟨u, hu, hmatch⟩
    obtain ⟨labels, htwo, hall, hname⟩ := uriRegex_matches_iff.mp hmatch
    obtain ⟨l, m, ls, rfl⟩ : ∃ l m ls, labels = l :: m :: ls := by
      cases labels with
      | nil => exact absurd htwo (by decide)
      | cons l ls =>
        cases ls with
        | nil => exact absurd htwo (by simp)
        | cons m ls => exact ⟨l, m, ls, rfl⟩
    obtain ⟨c, rest, rfl, hc, hlen, hrest⟩ := hall l List.mem_cons_self
    obtain ⟨d, more, rfl, hd, _⟩ := hall m (List.mem_cons_of_mem _ List.mem_cons_self)
    -- the end of the first label, the dot, and the beginning of the second
    obtain ⟨c', k, hc', hk, t, ht⟩ := label_suffix hc hrest
    refine ⟨c', k, d, hc', Nat.le_trans hk hlen, hd, List.IsInfix.trans ?_ hu⟩
    have hfront : (c' :: List.replicate k '-') ++ ['.', d] <:+:
        List.intercalate ['.'] ((c :: rest) :: (d :: more) :: ls) := by
      rw [intercalate_cons, ← ht]
      exact ⟨t, more ++ (ls.map fun m => '.' :: m).flatten, by simp⟩
    rcases hname with rfl | rfl
    · exact hfront
    · exact hfront.trans (List.prefix_append _ _).isInfix
  · rintro ⟨c, k, d, hc, hk, hd, hinfix⟩
    refine ⟨_, hinfix, uriRegex_matches_iff.mpr
      ⟨[c :: List.replicate k '-', [d]], Nat.le_refl 2, ?_, Or.inl ?_⟩⟩
    · refine List.forall_mem_cons.mpr ⟨⟨c, _, rfl, hc, ?_, ?_⟩, ?_⟩
      · rw [List.length_replicate]
        exact hk
      · intro e he
        exact Or.inl (List.eq_of_mem_replicate he)
      · intro l hl
        obtain rfl := List.mem_singleton.mp hl
        exact ⟨d, [], rfl, hd, Nat.zero_le _, fun e he => absurd he List.not_mem_nil⟩
    · rw [intercalate_cons]
      rfl

/-- **The domain check is exact** for the strings that are host names, and for those in which
nothing looks like a piece of one. -/
theorem isMatch_hostName_iff (s : Str) :
    (uriRegex.isMatch s = true ↔ HostName s) ↔ (HostName s ∨ ¬ Dotted s) := by
  have hname : HostName s → uriRegex.isMatch s = true := fun h =>
    Regex.isMatch_of_matchesWhole (matchesWhole_iff.mpr h)
  rw [← isMatch_iff_dotted]
  constructor
  · intro h
    by_cases hmatch : uriRegex.isMatch s = true
    · exact Or.inl (h.mp hmatch)
    · exact Or.inr hmatch
  · rintro (h | h)
    · exact iff_of_true (hname h) h
    · exact iff_of_false h fun hs => h (hname hs)

/-- A path that leads out of the file directory passes the check. -/
theorem parentPath_matches : ¬ (uriRegex.isMatch "../www.a.com/b c".toList = true ↔
    HostName "../www.a.com/b c".toList) := by
  rw [← matchesWhole_iff]
  decide +kernel

end SpaServer
