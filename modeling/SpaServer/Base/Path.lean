import SpaServer.Base.Text

/-!
# Paths

A `PathBuf` is text, and `push` joins text the way `PathBuf::push` and
`Path::join` do on Unix: an absolute argument replaces the path.  A `Loc` is a
place in the directory tree, the list of names that leads to it from the root.
`locate` reads the text as a place: empty and `.` segments stay, `..` goes to
the parent, every other segment is a name.

There are no symbolic links in the trees of this development, so a `..` that
follows an existing directory leads where the kernel would go; `Base/PathWalk.lean`
follows a path from directory to directory.

The segments that stand for a name are the `Plain` ones.  `locate_push` says
that pushing a plain segment goes one name down, and `sanitizePath_eq_some` that
what `sanitize_path` returns never leaves its base.
-/

namespace SpaServer.Base

/-- One name in a directory.  A name that is not UTF-8 has no string. -/
inductive OsName where
  | utf8 (s : Str)
  | bytes (b : List UInt8)
  deriving DecidableEq

/-- `OsStr::to_str`. -/
def OsName.toStr : OsName → Option Str
  | utf8 s => some s
  | bytes _ => none

@[simp] theorem OsName.toStr_utf8 (s : Str) : (OsName.utf8 s).toStr = some s := rfl

theorem OsName.toStr_eq_some {n : OsName} {s : Str} : n.toStr = some s ↔ n = .utf8 s := by
  cases n <;> simp [OsName.toStr]

abbrev Loc := List OsName

abbrev PathBuf := Str

/-- The text is one plain path component: the name of a directory entry. -/
def Plain (s : Str) : Prop := s ≠ [] ∧ '/' ∉ s ∧ s ≠ ['.'] ∧ s ≠ ['.', '.']

instance (s : Str) : Decidable (Plain s) := inferInstanceAs (Decidable (_ ∧ _))

/-- A directory entry is never named `.`, `..` or by text with a separator. -/
def OsName.Plain : OsName → Prop
  | utf8 s => Base.Plain s
  | bytes _ => True

theorem map_utf8_injective : Function.Injective (List.map OsName.utf8) :=
  List.map_injective_iff.mpr fun _ _ => OsName.utf8.inj

theorem plain_map_utf8 {names : List Str} (h : ∀ n ∈ names, Plain n) :
    ∀ c ∈ names.map OsName.utf8, c.Plain := by
  intro c hc
  obtain ⟨n, hn, rfl⟩ := List.mem_map.mp hc
  exact h n hn

theorem plain_toDecimal (v : UInt32) : Plain (toDecimal v) := by
  have hdot : '.' ∉ toDecimal v := not_mem_toDecimal (by decide)
  refine ⟨toDecimal_ne_nil v, not_mem_toDecimal (by decide), ?_, ?_⟩
  · intro h; rw [h] at hdot; simp at hdot
  · intro h; rw [h] at hdot; simp at hdot

theorem not_mem_of_mem_splitOn {c : Char} {s seg : Str} (h : seg ∈ s.splitOn c) : c ∉ seg := by
  induction s generalizing seg with
  | nil => simp at h; simp [h]
  | cons x s ih =>
    rw [List.splitOn_cons_eq_if_modifyHead] at h
    split at h
    · rcases List.mem_cons.mp h with rfl | h
      · exact List.not_mem_nil
      · exact ih h
    · next hx =>
      cases hs : s.splitOn c with
      | nil => rw [hs] at h; simp at h
      | cons w ws =>
        rw [hs, List.modifyHead_cons] at h
        rcases List.mem_cons.mp h with rfl | h
        · simp only [List.mem_cons, not_or]
          exact ⟨fun he => hx (by simp [he]), ih (by rw [hs]; exact List.mem_cons_self)⟩
        · exact ih (by rw [hs]; exact List.mem_cons_of_mem _ h)

/-! ### Joining -/

/-- `PathBuf::push`, and with it `Path::join`. -/
def push (p : PathBuf) (c : Str) : PathBuf :=
  if c.head? = some '/' then c
  else if p = [] ∨ p.getLast? = some '/' then p ++ c
  else p ++ '/' :: c

def stepInto (cur : Loc) (seg : Str) : Loc :=
  if seg = [] ∨ seg = ['.'] then cur
  else if seg = ['.', '.'] then cur.dropLast
  else cur ++ [.utf8 seg]

/-- The place a path names, relative to the working directory `cwd`. -/
def locate (cwd : Loc) (p : PathBuf) : Loc :=
  (p.splitOn '/').foldl stepInto (if p.head? = some '/' then [] else cwd)

@[simp] theorem stepInto_nil (cur : Loc) : stepInto cur [] = cur := by simp [stepInto]

theorem stepInto_plain (cur : Loc) {c : Str} (h : Plain c) : stepInto cur c = cur ++ [.utf8 c] := by
  obtain ⟨h1, _, h3, h4⟩ := h
  rw [stepInto, if_neg (by simp [h1, h3]), if_neg h4]

@[simp] theorem locate_nil (cwd : Loc) : locate cwd [] = cwd := by simp [locate]

theorem locate_push {c : Str} (hc : c.head? ≠ some '/') (cwd : Loc) (p : PathBuf) :
    locate cwd (push p c) = (c.splitOn '/').foldl stepInto (locate cwd p) := by
  rw [push, if_neg hc]
  by_cases hp : p = []
  · subst hp
    rw [if_pos (Or.inl rfl), List.nil_append, locate, if_neg hc, locate_nil]
  have hhead : ∀ t : Str, (p ++ t).head? = p.head? := fun t => by
    obtain ⟨x, xs, rfl⟩ := List.exists_cons_of_ne_nil hp
    rfl
  by_cases hl : p.getLast? = some '/'
  · obtain ⟨q, rfl⟩ : ∃ q, p = q ++ ['/'] := List.getLast?_eq_some_iff.mp hl
    rw [if_pos (Or.inr hl), locate, hhead, locate, List.append_assoc, List.singleton_append,
      List.splitOn_append_cons_self, List.splitOn_append_cons_self, List.foldl_append,
      List.foldl_append]
    simp
  · rw [if_neg (by simp [hp, hl]), locate, hhead, List.splitOn_append_cons_self,
      List.foldl_append]
    rfl

theorem Plain.head_ne {c : Str} (h : Plain c) : c.head? ≠ some '/' := by
  intro hc
  obtain ⟨xs, rfl⟩ : ∃ xs, c = '/' :: xs := List.head?_eq_some_iff.mp hc
  exact h.2.1 List.mem_cons_self

/-- **Pushing a plain component goes one name down.** -/
theorem locate_push_plain {c : Str} (h : Plain c) (cwd : Loc) (p : PathBuf) :
    locate cwd (push p c) = locate cwd p ++ [.utf8 c] := by
  rw [locate_push h.head_ne, List.splitOn_eq_singleton h.2.1]
  exact stepInto_plain _ h

/-! ### Components -/

/-- The segments that are not skipped when a path is read by components. -/
def isComponent (seg : Str) : Bool := seg ≠ [] ∧ seg ≠ ['.']

/-- `Path::components`, without the root.  A `.` in front goes too; no caller sees it. -/
def components (p : PathBuf) : List Str := (p.splitOn '/').filter isComponent

def parent (p : PathBuf) : Option PathBuf :=
  if components p = [] then none
  else some ((if p.head? = some '/' then ['/'] else []) ++
    ['/'].intercalate (components p).dropLast)

def fileName (p : PathBuf) : Option Str :=
  match (components p).getLast? with
  | some c => if c = ['.', '.'] then none else some c
  | none => none

/-- The kernel takes a path that ends in a separator, in `.` or in `..` for a directory only. -/
def mustBeDir (p : PathBuf) : Bool :=
  match (p.splitOn '/').getLast? with
  | some seg => seg = [] ∨ seg = ['.'] ∨ seg = ['.', '.']
  | none => false

/-- Splitting what `push` joins: an empty or slash-ended path gives up its last, empty segment. -/
theorem splitOn_push {c : Str} (hc : '/' ∉ c) (p : PathBuf) :
    ∃ segs, (push p c).splitOn '/' = segs ++ [c] ∧
      (p.splitOn '/' = segs ∨ p.splitOn '/' = segs ++ [[]]) := by
  have hhead : c.head? ≠ some '/' := by
    intro h
    obtain ⟨xs, rfl⟩ := List.head?_eq_some_iff.mp h
    exact hc List.mem_cons_self
  rw [push, if_neg hhead]
  by_cases hp : p = []
  · subst hp
    exact ⟨[], by simp [List.splitOn_eq_singleton hc], Or.inr (by simp)⟩
  by_cases hl : p.getLast? = some '/'
  · obtain ⟨q, rfl⟩ : ∃ q, p = q ++ ['/'] := List.getLast?_eq_some_iff.mp hl
    refine ⟨q.splitOn '/', ?_, Or.inr (by rw [List.splitOn_append_cons_self]; simp)⟩
    rw [if_pos (Or.inr hl), List.append_assoc, List.singleton_append,
      List.splitOn_append_cons_self, List.splitOn_eq_singleton hc]
  · exact ⟨p.splitOn '/', by rw [if_neg (by simp [hp, hl]), List.splitOn_append_cons_self,
      List.splitOn_eq_singleton hc], Or.inl rfl⟩

theorem components_push {c : Str} (hc : '/' ∉ c) (p : PathBuf) :
    components (push p c) = components p ++ [c].filter isComponent := by
  obtain ⟨segs, hpush, hp | hp⟩ := splitOn_push hc p
  · rw [components, components, hpush, hp, List.filter_append]
  · rw [components, components, hpush, hp, List.filter_append, List.filter_append]
    simp [isComponent]

theorem mustBeDir_push {c : Str} (hc : '/' ∉ c) (p : PathBuf) :
    mustBeDir (push p c) = (c = [] ∨ c = ['.'] ∨ c = ['.', '.']) := by
  obtain ⟨segs, hpush, _⟩ := splitOn_push hc p
  simp [mustBeDir, hpush]

theorem mustBeDir_push_plain {c : Str} (h : Plain c) (p : PathBuf) :
    mustBeDir (push p c) = false := by
  have := mustBeDir_push h.2.1 p
  simpa [h.1, h.2.2.1, h.2.2.2] using this

theorem getLast?_push {c : Str} (h : c ≠ []) (p : PathBuf) : (push p c).getLast? = c.getLast? := by
  obtain ⟨init, x, rfl⟩ := (List.eq_nil_or_concat' c).resolve_left h
  rw [push]
  split_ifs
  · rfl
  · rw [← List.append_assoc, List.getLast?_concat, List.getLast?_concat]
  · rw [← List.cons_append, ← List.append_assoc, List.getLast?_concat, List.getLast?_concat]

theorem push_ne_nil {c : Str} (h : c ≠ []) (p : PathBuf) : push p c ≠ [] := by
  rw [push]
  split
  · exact h
  · split <;> simp [h]

theorem push_ne_nil_left {p : PathBuf} (h : p ≠ []) (c : Str) : push p c ≠ [] := by
  rw [push]
  split
  · next hc => rintro rfl; simp at hc
  · split <;> simp [h]

/-- Only the components count for where a path leads. -/
theorem foldl_components (p : PathBuf) (cur : Loc) :
    (components p).foldl stepInto cur = (p.splitOn '/').foldl stepInto cur := by
  rw [components]
  induction p.splitOn '/' generalizing cur with
  | nil => rfl
  | cons seg segs ih =>
    by_cases h : isComponent seg = true
    · rw [List.filter_cons_of_pos h]
      exact ih _
    · rw [List.filter_cons_of_neg h, ih, List.foldl_cons]
      have hs : seg = [] ∨ seg = ['.'] := by
        simp only [isComponent, decide_eq_true_eq, not_and_or, not_not] at h
        exact h
      rw [stepInto, if_pos hs]

theorem mem_components {p : PathBuf} {c : Str} (h : c ∈ components p) :
    c ≠ [] ∧ '/' ∉ c := by
  obtain ⟨h1, h2⟩ := List.mem_filter.mp h
  simp only [isComponent, decide_eq_true_eq] at h2
  exact ⟨h2.1, not_mem_of_mem_splitOn h1⟩

theorem locate_eq_components (cwd : Loc) (p : PathBuf) : locate cwd p =
    (components p).foldl stepInto (if p.head? = some '/' then [] else cwd) := by
  rw [locate, foldl_components]

theorem components_intercalate {cs : List Str} (h : ∀ c ∈ cs, isComponent c = true ∧ '/' ∉ c) :
    components (['/'].intercalate cs) = cs ∧ (['/'].intercalate cs).head? ≠ some '/' := by
  by_cases hnil : cs = []
  · subst hnil
    exact ⟨rfl, nofun⟩
  have hsplit : (['/'].intercalate cs).splitOn '/' = cs :=
    List.splitOn_intercalate _ (fun c hc => (h c hc).2) hnil
  refine ⟨?_, fun hh => ?_⟩
  · rw [components, hsplit, List.filter_eq_self]
    exact fun c hc => (h c hc).1
  · obtain ⟨xs, hxs⟩ := List.head?_eq_some_iff.mp hh
    rw [hxs, List.splitOn_cons_eq_if_modifyHead, if_pos (by simp)] at hsplit
    have hempty := (h [] (by rw [← hsplit]; exact List.mem_cons_self)).1
    exact absurd hempty (by decide)

theorem components_parent {p q : PathBuf} (h : parent p = some q) :
    components q = (components p).dropLast ∧ (q.head? = some '/' ↔ p.head? = some '/') := by
  rw [parent] at h
  split at h
  · exact absurd h (by simp)
  obtain rfl := Option.some.inj h
  have hnames : ∀ c ∈ (components p).dropLast, isComponent c = true ∧ '/' ∉ c := fun c hc =>
    have hmem := List.dropLast_subset _ hc
    ⟨(List.mem_filter.mp hmem).2, (mem_components hmem).2⟩
  obtain ⟨hcomponents, hhead⟩ := components_intercalate hnames
  by_cases hr : p.head? = some '/'
  · rw [if_pos hr]
    refine ⟨?_, fun _ => hr, fun _ => rfl⟩
    conv_rhs => rw [← hcomponents]
    rw [components, List.singleton_append, List.splitOn_cons_eq_if_modifyHead, if_pos (by simp),
      List.filter_cons_of_neg (by decide)]
    rfl
  · rw [if_neg hr]
    exact ⟨hcomponents, fun hh => absurd hh hhead, fun hh => absurd hh hr⟩

theorem locate_parent (cwd : Loc) {p q : PathBuf} (h : parent p = some q) {c : Str}
    (hc : (components p).getLast? = some c) (hplain : Plain c) :
    locate cwd p = locate cwd q ++ [.utf8 c] := by
  obtain ⟨cs, hcs⟩ : ∃ cs, components p = cs ++ [c] := List.getLast?_eq_some_iff.mp hc
  obtain ⟨hcomponents, hhead⟩ := components_parent h
  rw [hcs, List.dropLast_concat] at hcomponents
  rw [locate_eq_components cwd p, locate_eq_components cwd q, hcomponents, hcs, List.foldl_append]
  simp only [hhead]
  exact stepInto_plain _ hplain

/-! ### Sanitized paths -/

/-- The loop of `sanitize_path` over the decoded segments. -/
def sanitizeSegments (buf : PathBuf) : List Str → Option PathBuf
  | [] => some buf
  | seg :: segs =>
    if ['.', '.'] <+: seg then none
    else if '\\' ∈ seg then none
    else sanitizeSegments (push buf seg) segs

/-- `warp::fs::sanitize_path(base, tail)`. -/
def sanitizePath (base : PathBuf) (tail : Str) : Option PathBuf :=
  match percentDecode tail with
  | some p => sanitizeSegments base (p.splitOn '/')
  | none => none

def SafeSegment (seg : Str) : Prop := ¬ ['.', '.'] <+: seg ∧ '\\' ∉ seg

instance (seg : Str) : Decidable (SafeSegment seg) := inferInstanceAs (Decidable (_ ∧ _))

theorem sanitizeSegments_eq : ∀ (segs : List Str) (buf : PathBuf),
    sanitizeSegments buf segs = if ∀ seg ∈ segs, SafeSegment seg then some (segs.foldl push buf)
      else none
  | [], buf => by simp [sanitizeSegments]
  | seg :: segs, buf => by
    rw [sanitizeSegments, sanitizeSegments_eq segs]
    by_cases h1 : ['.', '.'] <+: seg
    · simp [h1, SafeSegment]
    by_cases h2 : '\\' ∈ seg
    · simp [h2, SafeSegment]
    · have hseg : SafeSegment seg := ⟨h1, h2⟩
      simp only [h1, h2, if_false, List.mem_cons, forall_eq_or_imp, hseg, true_and,
        List.foldl_cons]

theorem plain_of_safe {seg : Str} (h : isComponent seg = true) (hs : '/' ∉ seg)
    (hd : SafeSegment seg) : Plain seg := by
  simp only [isComponent, decide_eq_true_eq] at h
  exact ⟨h.1, hs, h.2, fun he => hd.1 (he ▸ List.prefix_refl _)⟩

theorem head_ne_of_not_mem {c : Str} (h : '/' ∉ c) : c.head? ≠ some '/' := by
  intro hc
  obtain ⟨xs, rfl⟩ := List.head?_eq_some_iff.mp hc
  exact h List.mem_cons_self

/-- Pushing safe segments one after the other goes down the components among them. -/
theorem locate_foldl_push (cwd : Loc) : ∀ (segs : List Str) (buf : PathBuf),
    (∀ seg ∈ segs, '/' ∉ seg ∧ SafeSegment seg) →
    locate cwd (segs.foldl push buf) = locate cwd buf ++ (segs.filter isComponent).map .utf8
  | [], buf, _ => by simp
  | seg :: segs, buf, h => by
    have hseg := h seg List.mem_cons_self
    rw [List.foldl_cons,
      locate_foldl_push cwd segs _ fun s hs => h s (List.mem_cons_of_mem _ hs),
      locate_push (head_ne_of_not_mem hseg.1), List.splitOn_eq_singleton hseg.1,
      List.foldl_cons, List.foldl_nil]
    by_cases hc : isComponent seg = true
    · rw [List.filter_cons_of_pos hc, stepInto_plain _ (plain_of_safe hc hseg.1 hseg.2)]
      simp
    · have hs : seg = [] ∨ seg = ['.'] := by
        simp only [isComponent, decide_eq_true_eq, not_and_or, not_not] at hc
        exact hc
      rw [List.filter_cons_of_neg hc, stepInto, if_pos hs]

theorem components_foldl_push : ∀ (segs : List Str) (buf : PathBuf),
    (∀ seg ∈ segs, '/' ∉ seg) →
    components (segs.foldl push buf) = components buf ++ segs.filter isComponent
  | [], buf, _ => by simp
  | seg :: segs, buf, h => by
    rw [List.foldl_cons,
      components_foldl_push segs _ fun s hs => h s (List.mem_cons_of_mem _ hs),
      components_push (h seg List.mem_cons_self), List.append_assoc, ← List.filter_append]
    rfl

/-- The names of `tail` below its base, or `none` when `sanitize_path` refuses it. -/
def sanitizedNames (tail : Str) : Option (List Str) :=
  match percentDecode tail with
  | some t =>
    if ∀ seg ∈ t.splitOn '/', SafeSegment seg then some ((t.splitOn '/').filter isComponent)
    else none
  | none => none

theorem sanitizedNames_eq_some {tail : Str} {names : List Str} :
    sanitizedNames tail = some names ↔ ∃ t, percentDecode tail = some t ∧
      (∀ seg ∈ t.splitOn '/', SafeSegment seg) ∧ (t.splitOn '/').filter isComponent = names := by
  rw [sanitizedNames]
  cases percentDecode tail with
  | none => simp
  | some t => simp

theorem sanitizedNames_plain {tail : Str} {names : List Str} (h : sanitizedNames tail = some names) :
    ∀ c ∈ names, Plain c := by
  obtain ⟨t, _, hsafe, rfl⟩ := sanitizedNames_eq_some.mp h
  intro c hc
  obtain ⟨h1, h2⟩ := List.mem_filter.mp hc
  exact plain_of_safe h2 (not_mem_of_mem_splitOn h1) (hsafe c h1)

theorem sanitizePath_eq_none {tail : Str} (h : sanitizedNames tail = none) (base : PathBuf) :
    sanitizePath base tail = none := by
  rw [sanitizedNames] at h
  rw [sanitizePath]
  cases hd : percentDecode tail with
  | none => rfl
  | some t =>
    rw [hd] at h
    dsimp only at h ⊢
    rw [sanitizeSegments_eq, if_neg]
    intro hsafe
    rw [if_pos hsafe] at h
    exact absurd h (by simp)

theorem exists_sanitizedNames {base : PathBuf} {tail : Str} {p : PathBuf}
    (h : sanitizePath base tail = some p) : ∃ names, sanitizedNames tail = some names := by
  refine Option.ne_none_iff_exists'.mp fun hn => ?_
  rw [sanitizePath_eq_none hn] at h
  exact absurd h (by simp)

/-- **A sanitized path stays below its base**, at the names it goes down; it can name
a file only when there are some. -/
theorem sanitizePath_eq_some {tail : Str} {names : List Str} (h : sanitizedNames tail = some names)
    (base : PathBuf) : ∃ p, sanitizePath base tail = some p ∧
      (∀ cwd, locate cwd p = locate cwd base ++ names.map .utf8) ∧
      components p = components base ++ names ∧ (mustBeDir p = false → names ≠ []) := by
  obtain ⟨t, hd, hsafe, rfl⟩ := sanitizedNames_eq_some.mp h
  have hsep : ∀ seg ∈ t.splitOn '/', '/' ∉ seg := fun seg => not_mem_of_mem_splitOn
  refine ⟨(t.splitOn '/').foldl push base, ?_,
    fun cwd => locate_foldl_push cwd _ _ fun s hs => ⟨hsep s hs, hsafe s hs⟩,
    components_foldl_push _ _ hsep, fun hm => ?_⟩
  · rw [sanitizePath, hd]
    dsimp only
    rw [sanitizeSegments_eq, if_pos hsafe]
  · obtain hnil | ⟨segs, seg, hsegs⟩ := List.eq_nil_or_concat' (t.splitOn '/')
    · exact absurd hnil (List.splitOn_ne_nil '/' t)
    have hlast := hsep seg (by rw [hsegs]; simp)
    rw [hsegs, List.foldl_append, List.foldl_cons, List.foldl_nil] at hm
    have hdir := mustBeDir_push hlast (segs.foldl push base)
    rw [hm] at hdir
    have hc : isComponent seg = true := by
      simp only [eq_iff_iff, Bool.false_eq_true, false_iff, not_or] at hdir
      simp only [isComponent, decide_eq_true_eq]
      exact ⟨hdir.1, hdir.2.1⟩
    rw [hsegs, List.filter_append]
    simp [hc]

/-! ### Absolute paths -/

def slashed (names : List Str) : Str := names.flatMap ('/' :: ·)

@[simp] theorem slashed_nil : slashed [] = [] := rfl

@[simp] theorem slashed_cons (n : Str) (names : List Str) :
    slashed (n :: names) = '/' :: n ++ slashed names := rfl

@[simp] theorem slashed_append (names names' : List Str) :
    slashed (names ++ names') = slashed names ++ slashed names' := List.flatMap_append

theorem slashed_splitOn (t : Str) : slashed (t.splitOn '/') = '/' :: t := by
  induction t with
  | nil => rfl
  | cons c t ih =>
    rw [List.splitOn_cons_eq_if_modifyHead]
    split
    · next hc =>
      rw [slashed_cons, ih, beq_iff_eq.mp hc]
      rfl
    · cases hs : t.splitOn '/' with
      | nil => exact absurd hs (List.splitOn_ne_nil '/' t)
      | cons w ws =>
        rw [hs, slashed_cons, List.cons_append, List.cons_inj_right] at ih
        rw [List.modifyHead_cons, slashed_cons, List.cons_append, List.cons_append, ih]

theorem splitOn_append_slashed {n : Str} {names : List Str} (h : ∀ m ∈ n :: names, '/' ∉ m) :
    (n ++ slashed names).splitOn '/' = n :: names := by
  induction names generalizing n with
  | nil =>
    rw [slashed_nil, List.append_nil]
    exact List.splitOn_eq_singleton (h n List.mem_cons_self)
  | cons m names ih =>
    rw [slashed_cons, List.cons_append, List.splitOn_append_cons_self,
      List.splitOn_eq_singleton (h n List.mem_cons_self),
      ih fun x hx => h x (List.mem_cons_of_mem _ hx)]
    rfl

theorem splitOn_slashed {names : List Str} (h : ∀ n ∈ names, '/' ∉ n) :
    (slashed names).splitOn '/' = [] :: names :=
  splitOn_append_slashed (n := []) (by simpa using h)

theorem slashed_injective {names names' : List Str} (h : ∀ n ∈ names, '/' ∉ n)
    (h' : ∀ n ∈ names', '/' ∉ n) (he : slashed names = slashed names') : names = names' := by
  have := congrArg (List.splitOn '/') he
  rw [splitOn_slashed h, splitOn_slashed h'] at this
  exact (List.cons.inj this).2

theorem slashed_filter (p : Str → Bool) (names : List Str) :
    names.filter p = names ∨ utf8Len (slashed (names.filter p)) < utf8Len (slashed names) := by
  induction names with
  | nil => exact Or.inl rfl
  | cons n names ih =>
    have hsep : utf8Len (slashed (n :: names)) = utf8Len ('/' :: n) + utf8Len (slashed names) := by
      rw [slashed_cons, utf8Len_append]
    by_cases hn : p n = true
    · rw [List.filter_cons_of_pos hn]
      rcases ih with h | h
      · exact Or.inl (by rw [h])
      · refine Or.inr ?_
        rw [hsep, slashed_cons, utf8Len_append]
        omega
    · rw [List.filter_cons_of_neg hn]
      refine Or.inr ?_
      have := @utf8Len_pos ('/' :: n) (by simp)
      rcases ih with h | h
      · rw [h]; omega
      · omega

def absolute (names : List Str) : PathBuf := if names = [] then ['/'] else slashed names

theorem absolute_of_ne {names : List Str} (h : names ≠ []) : absolute names = slashed names :=
  if_neg h

theorem push_absolute {names : List Str} (h : ∀ n ∈ names, Plain n) {c : Str} (hc : Plain c) :
    push (absolute names) c = absolute (names ++ [c]) := by
  rw [push, if_neg hc.head_ne, @absolute_of_ne (names ++ [c]) (by simp), slashed_append]
  by_cases hn : names = []
  · subst hn
    rw [absolute, if_pos rfl, if_pos (by simp)]
    simp
  · obtain ⟨ns, n, rfl⟩ := (List.eq_nil_or_concat' names).resolve_left hn
    have hplain := h n (by simp)
    rw [absolute_of_ne hn, if_neg]
    · simp
    rintro (he | he)
    · simp at he
    · obtain ⟨m, x, rfl⟩ := (List.eq_nil_or_concat' n).resolve_left hplain.1
      have hlast : slashed (ns ++ [m ++ [x]]) = (slashed ns ++ '/' :: m) ++ [x] := by simp
      rw [hlast, List.getLast?_concat] at he
      have hx := Option.some.inj he
      exact hplain.2.1 (by simp [hx])

theorem absolute_ne_nil (names : List Str) : absolute names ≠ [] := by
  rw [absolute]
  split
  · simp
  · next h =>
    obtain ⟨n, ns, rfl⟩ := List.exists_cons_of_ne_nil h
    simp

theorem locate_absolute {names : List Str} (h : ∀ n ∈ names, Plain n) (cwd : Loc) :
    locate cwd (absolute names) = names.map .utf8 := by
  induction names using List.reverseRecOn with
  | nil => rfl
  | append_singleton names c ih =>
    have hc := h c (by simp)
    have hnames : ∀ n ∈ names, Plain n := fun n hn => h n (by simp [hn])
    rw [← push_absolute hnames hc, locate_push_plain hc, ih hnames]
    simp

theorem fileName_push {c : Str} (hc : Plain c) (p : PathBuf) : fileName (push p c) = some c := by
  have hcomp : isComponent c = true := by
    simp only [isComponent, decide_eq_true_eq]
    exact ⟨hc.1, hc.2.2.1⟩
  rw [fileName, components_push hc.2.1]
  simp [hcomp, hc.2.2.2]

/-- Pushing names one after the other, as far as they have text. -/
theorem foldlM_push_absolute {names : List Str} (h : ∀ n ∈ names, Plain n) {rel : Loc}
    (hrel : ∀ c ∈ rel, c.Plain) {text : Str} :
    rel.foldlM (fun p c => c.toStr.map (push p)) (absolute names) = some text ↔
      ∃ r : List Str, rel = r.map .utf8 ∧ text = absolute (names ++ r) := by
  induction rel generalizing names with
  | nil =>
    constructor
    · intro he
      exact ⟨[], rfl, by rw [List.append_nil]; exact (Option.some.inj he).symm⟩
    · rintro ⟨r, hr, rfl⟩
      rw [List.eq_nil_of_map_eq_nil hr.symm, List.append_nil]
      rfl
  | cons c rel ih =>
    rw [List.foldlM_cons]
    have hrest := fun d hd => hrel d (List.mem_cons_of_mem _ hd)
    cases c with
    | bytes b =>
      constructor
      · intro he
        exact absurd he (by simp [OsName.toStr])
      · rintro ⟨r, hr, -⟩
        cases r with
        | nil => exact absurd hr (by simp)
        | cons x r => exact absurd (List.cons.inj hr).1 (by simp)
    | utf8 s =>
      have hs : Plain s := hrel (.utf8 s) List.mem_cons_self
      have hnames : ∀ n ∈ names ++ [s], Plain n := by
        intro n hn
        rcases List.mem_append.mp hn with hn | hn
        · exact h n hn
        · rw [List.mem_singleton.mp hn]; exact hs
      show List.foldlM _ (push (absolute names) s) rel = some text ↔ _
      rw [push_absolute h hs, ih hnames hrest]
      constructor
      · rintro ⟨r, rfl, rfl⟩
        exact ⟨s :: r, rfl, by simp⟩
      · rintro ⟨r, hr, rfl⟩
        cases r with
        | nil => exact absurd hr (by simp)
        | cons x r =>
          obtain ⟨hx, rfl⟩ := List.cons.inj hr
          obtain rfl := OsName.utf8.inj hx
          exact ⟨r, rfl, by simp⟩

theorem push_plain {p : PathBuf} (hp : p ≠ []) (hlast : p.getLast? ≠ some '/') {s : Str}
    (hs : Plain s) : push p s = p ++ '/' :: s := by
  rw [push, if_neg hs.head_ne, if_neg (by simp [hp, hlast])]

theorem Plain.getLast?_push_ne {s : Str} (hs : Plain s) (p : PathBuf) :
    (push p s).getLast? ≠ some '/' := by
  rw [getLast?_push hs.1]
  exact fun h => hs.2.1 (List.mem_of_getLast? h)

theorem locate_append_slashed (cwd : Loc) {p : PathBuf} (hp : p ≠ []) (hlast : p.getLast? ≠ some '/')
    {names : List Str} (h : ∀ n ∈ names, Plain n) :
    locate cwd (p ++ slashed names) = locate cwd p ++ names.map .utf8 := by
  induction names generalizing p with
  | nil => rw [slashed_nil, List.append_nil, List.map_nil, List.append_nil]
  | cons n names ih =>
    have hn : Plain n := h n List.mem_cons_self
    have hpush : p ++ slashed (n :: names) = push p n ++ slashed names := by
      rw [push_plain hp hlast hn, slashed_cons, List.append_assoc]
    rw [hpush, ih (push_ne_nil hn.1 p) (hn.getLast?_push_ne p)
      fun m hm => h m (List.mem_cons_of_mem _ hm), locate_push_plain hn, List.map_cons,
      List.append_assoc]
    rfl

theorem mustBeDir_append_slashed {p : PathBuf} (hp : p ≠ []) (hlast : p.getLast? ≠ some '/')
    (hm : mustBeDir p = false) {names : List Str} (h : ∀ n ∈ names, Plain n) :
    mustBeDir (p ++ slashed names) = false := by
  induction names generalizing p with
  | nil => rwa [slashed_nil, List.append_nil]
  | cons n names ih =>
    have hn : Plain n := h n List.mem_cons_self
    have hpush : p ++ slashed (n :: names) = push p n ++ slashed names := by
      rw [push_plain hp hlast hn, slashed_cons, List.append_assoc]
    rw [hpush]
    exact ih (push_ne_nil hn.1 p) (hn.getLast?_push_ne p) (mustBeDir_push_plain hn p)
      fun m hm => h m (List.mem_cons_of_mem _ hm)

theorem foldlM_push_slashed {p : PathBuf} (hp : p ≠ []) (hlast : p.getLast? ≠ some '/')
    {rel : Loc} (hrel : ∀ c ∈ rel, c.Plain) {text : Str}
    (h : rel.foldlM (fun p c => c.toStr.map (push p)) p = some text) :
    ∃ r : List Str, rel = r.map .utf8 ∧ text = p ++ slashed r := by
  induction rel generalizing p with
  | nil => exact ⟨[], rfl, by rw [slashed_nil, List.append_nil]; exact (Option.some.inj h).symm⟩
  | cons c rel ih =>
    rw [List.foldlM_cons] at h
    cases c with
    | bytes b => exact absurd h (by simp [OsName.toStr])
    | utf8 s =>
      have hs : Plain s := hrel (.utf8 s) List.mem_cons_self
      obtain ⟨r, hr, ht⟩ := ih (push_ne_nil hs.1 p) (hs.getLast?_push_ne p)
        (fun d hd => hrel d (List.mem_cons_of_mem _ hd)) h
      rw [push_plain hp hlast hs] at ht
      exact ⟨s :: r, by rw [hr]; rfl, by rw [ht]; simp⟩

/-- The names have text, so pushing them goes through. -/
theorem foldlM_push_names {p : PathBuf} (hp : p ≠ []) (hlast : p.getLast? ≠ some '/')
    {names : List Str} (h : ∀ n ∈ names, Plain n) :
    (names.map OsName.utf8).foldlM (fun p c => c.toStr.map (push p)) p =
      some (p ++ slashed names) := by
  have hsome : ∀ (names : List Str) (p : PathBuf),
      ∃ text, (names.map OsName.utf8).foldlM (fun p c => c.toStr.map (push p)) p = some text := by
    intro names
    induction names with
    | nil => exact fun p => ⟨p, rfl⟩
    | cons n names ih => exact fun p => ih (push p n)
  obtain ⟨text, htext⟩ := hsome names p
  obtain ⟨r, hr, rfl⟩ := foldlM_push_slashed hp hlast (plain_map_utf8 h) htext
  rw [htext, map_utf8_injective hr]

def relativePath (names : List Str) : Str := ['/'].intercalate names

theorem slashed_eq {names : List Str} (hne : names ≠ []) (h : ∀ n ∈ names, '/' ∉ n) :
    slashed names = '/' :: relativePath names := by
  rw [← slashed_splitOn, relativePath, List.splitOn_intercalate _ h hne]

/-- Taking out text that ends in a separator leaves no separator in front, where the
segments are not empty. -/
theorem head_remove {pat s : Str} (hpat : pat.getLast? = some '/')
    (hs : ∀ seg ∈ s.splitOn '/', seg ≠ []) : (remove pat s).head? ≠ some '/' := by
  induction hn : s.length using Nat.strong_induction_on generalizing s with
  | _ n ih =>
    cases s with
    | nil => exact absurd rfl (hs [] (by simp))
    | cons c t =>
      by_cases hpre : pat <+: c :: t
      · obtain ⟨s', hs'⟩ := hpre
        obtain ⟨q, rfl⟩ := List.getLast?_eq_some_iff.mp hpat
        rw [← hs', remove_append (by simp)]
        refine ih s'.length ?_ (fun seg hseg => hs seg ?_) rfl
        · rw [← hn, ← hs']
          simp
          omega
        · rw [← hs', List.append_assoc, List.singleton_append, List.splitOn_append_cons_self]
          exact List.mem_append_right _ hseg
      · rw [remove_cons_of_not hpre]
        rintro ⟨⟩
        exact hs [] (by rw [List.splitOn_cons_eq_if_modifyHead]; simp) rfl

/-! ### What sanitizing does to the length -/

/-- The names a sanitized path goes down are no longer than the path with a separator
in front, and make that up, with nothing decoded, when they are as long. -/
theorem sanitizedNames_length {key : Str} {names : List Str} (h : sanitizedNames key = some names) :
    percentDecode key = some key ∧ '/' :: key = slashed names ∨
      utf8Len (slashed names) < utf8Len ('/' :: key) := by
  obtain ⟨t, hd, -, rfl⟩ := sanitizedNames_eq_some.mp h
  have ht := slashed_splitOn t
  rw [utf8Len_cons '/' key]
  rcases slashed_filter isComponent (t.splitOn '/') with hf | hf
  · rw [hf, ht, utf8Len_cons '/' t]
    rcases percentDecode_eq_or_shorter hd with rfl | hlt
    · exact Or.inl ⟨hd, rfl⟩
    · exact Or.inr (by omega)
  · refine Or.inr ?_
    rw [ht, utf8Len_cons '/' t] at hf
    rcases percentDecode_eq_or_shorter hd with rfl | hlt
    · exact hf
    · omega

theorem sanitizedNames_length_slash {key : Str} {names : List Str}
    (h : sanitizedNames ('/' :: key) = some names) :
    percentDecode ('/' :: key) = some ('/' :: key) ∧ '/' :: key = slashed names ∨
      utf8Len (slashed names) < utf8Len ('/' :: key) := by
  obtain ⟨t, hd, -, rfl⟩ := sanitizedNames_eq_some.mp h
  obtain ⟨t, rfl⟩ := percentDecode_slash hd
  have ht := slashed_splitOn t
  have hsplit : ('/' :: t).splitOn '/' = [] :: t.splitOn '/' := by
    rw [List.splitOn_cons_eq_if_modifyHead, if_pos (by simp)]
  have hnil : (('/' :: t).splitOn '/').filter isComponent = (t.splitOn '/').filter isComponent := by
    rw [hsplit]
    rfl
  rw [hnil]
  rcases slashed_filter isComponent (t.splitOn '/') with hf | hf
  · rw [hf, ht]
    rcases percentDecode_eq_or_shorter hd with he | hlt
    · exact Or.inl ⟨he ▸ hd, he.symm⟩
    · exact Or.inr hlt
  · refine Or.inr ?_
    rw [ht] at hf
    rcases percentDecode_eq_or_shorter hd with he | hlt
    · rw [← he]; exact hf
    · omega

/-- A sanitized path that is made up of plain names leads to a file or nothing. -/
theorem mustBeDir_sanitizePath {tail : Str} {names : List Str}
    (hd : percentDecode tail = some tail) (ht : '/' :: tail = slashed names ∨ tail = slashed names)
    (hplain : ∀ n ∈ names, Plain n) (hne : names ≠ []) {base p : PathBuf}
    (hp : sanitizePath base tail = some p) : mustBeDir p = false := by
  have hslash : ∀ n ∈ names, '/' ∉ n := fun n hn => (hplain n hn).2.1
  obtain ⟨init, hsplit⟩ : ∃ init, tail.splitOn '/' = init ++ [names.getLast hne] := by
    have hlast := (List.dropLast_append_getLast hne).symm
    rcases ht with ht | rfl
    · have hsplit := congrArg (List.splitOn '/') ht
      rw [splitOn_slashed hslash, List.splitOn_cons_eq_if_modifyHead, if_pos (by simp)] at hsplit
      exact ⟨_, (List.cons.inj hsplit).2.trans hlast⟩
    · exact ⟨[] :: names.dropLast, by rw [splitOn_slashed hslash, List.cons_append, ← hlast]⟩
  rw [sanitizePath, hd] at hp
  dsimp only at hp
  rw [sanitizeSegments_eq] at hp
  split at hp
  · rw [← Option.some.inj hp, hsplit, List.foldl_append]
    exact mustBeDir_push_plain (hplain _ (List.getLast_mem hne)) _
  · exact absurd hp (by simp)

end SpaServer.Base
