import Mathlib.Algebra.Order.BigOperators.Group.Finset
import Mathlib.Data.Set.Finite.Basic
import Mathlib.Data.Set.Finite.List
import SpaServer.Client.UploadFiles

/-!
# The keys of the local files

The client names a file by the text of its path without the text of the directory
(`LocalDir.key`), and the server goes down the names that the sanitized key has.
`Faithful` says that this leads every file to its own relative path, and to another
place than the marker's.

Taking out text, decoding and leaving out segments only ever shorten, so names that
differ from the file's own are shorter (`LocalDir.sanitized_key`).  This is why a
detour cannot cancel out: if every local path is the place of some file, every file
is at its own (`LocalDir.eq_self_of_covers`).
-/

namespace SpaServer

open Base Program

namespace Client

/-- A map of a finite set onto itself that makes whatever it moves smaller moves nothing. -/
theorem eq_self_of_subset_image {α : Type} [DecidableEq α] {S : Finset α} {g : α → α}
    (size : α → Nat) (hS : S ⊆ S.image g) (hg : ∀ a ∈ S, g a = a ∨ size (g a) < size a) :
    ∀ a ∈ S, g a = a := by
  have himage : S = S.image g := Finset.eq_of_subset_of_card_le hS Finset.card_image_le
  have hinj : Set.InjOn g S := Finset.card_image_iff.mp (by rw [← himage])
  have hsum : ∑ a ∈ S, size (g a) = ∑ a ∈ S, size a := by
    rw [← Finset.sum_image hinj, ← himage]
  intro a ha
  by_contra hne
  have hlt : ∑ a ∈ S, size (g a) < ∑ a ∈ S, size a := by
    refine Finset.sum_lt_sum (fun b hb => ?_) ⟨a, ha, (hg a ha).resolve_left hne⟩
    rcases hg b hb with h | h
    · rw [h]
    · exact h.le
  omega

/-! ### A local directory -/

/-- A directory of the local disk that the client can name. -/
structure LocalDir (dk : Disk) where
  names : List Str
  dir : dk.node (names.map .utf8) = some .dir

namespace LocalDir

variable {dk : Disk} (dir : LocalDir dk)

def File (r : List Str) (f : FileData) : Prop :=
  dk.node ((dir.names ++ r).map .utf8) = some (.file f)

def text (r : List Str) : PathBuf := absolute (dir.names ++ r)

def key (r : List Str) : Str := remove (absolute dir.names) (dir.text r)

variable {dir} {r : List Str} {f : FileData}

theorem plain_names (dir : LocalDir dk) : ∀ n ∈ dir.names, Plain n := fun n hn =>
  dk.plain _ (by rw [dir.dir]; simp) (.utf8 n) (List.mem_map_of_mem hn)

theorem File.plain (h : dir.File r f) : ∀ n ∈ dir.names ++ r, Plain n := fun n hn =>
  dk.plain _ (by rw [h]; simp) (.utf8 n) (List.mem_map_of_mem hn)

theorem File.plain_rel (h : dir.File r f) : ∀ n ∈ r, Plain n := fun n hn =>
  h.plain n (List.mem_append_right _ hn)

theorem File.ne_nil (h : dir.File r f) : r ≠ [] := by
  rintro rfl
  rw [File, List.append_nil, dir.dir] at h
  exact absurd h (by simp)

theorem File.unique {g : FileData} (h : dir.File r f) (h' : dir.File r g) : f = g := by
  have := h.symm.trans h'
  simpa using this

theorem File.eq_of_prefix {r' : List Str} {f' : FileData} (h : dir.File r f)
    (h' : dir.File r' f') (hpre : r <+: r') : r = r' := by
  by_contra hne
  have hdir := dk.node_prefix (l := (dir.names ++ r).map .utf8) (m := (dir.names ++ r').map .utf8)
    (((List.prefix_append_right_inj _).mpr hpre).map _)
    (fun he => hne (List.append_cancel_left (map_utf8_injective he)))
    (by rw [h']; simp)
  rw [h] at hdir
  exact absurd hdir (by simp)

theorem File.not_onWay {r' : List Str} {f' : FileData} (h : dir.File r f) (h' : dir.File r' f')
    (w : World) (d : Str) (v : UInt32) : ¬ w.fileLoc d v r <+: (w.fileLoc d v r').dropLast := by
  intro hpre
  obtain rfl := h.eq_of_prefix h' (World.fileLoc_prefix (hpre.trans (List.dropLast_prefix _)))
  have hlen := hpre.length_le
  have := List.length_pos_iff.mpr (w.fileLoc_ne_nil d v r)
  rw [List.length_dropLast] at hlen
  omega

theorem File.text_injective {r' : List Str} {f' : FileData} (h : dir.File r f)
    (h' : dir.File r' f') (he : dir.text r = dir.text r') : r = r' := by
  rw [LocalDir.text, LocalDir.text, absolute_of_ne (by simp [h.ne_nil]),
    absolute_of_ne (by simp [h'.ne_nil])] at he
  exact List.append_cancel_left (slashed_injective (fun n hn => (h.plain n hn).2.1)
    (fun n hn => (h'.plain n hn).2.1) he)

theorem File.text_eq (h : dir.File r f) :
    dir.text r = push (absolute (dir.names ++ r.dropLast)) (r.getLast h.ne_nil) := by
  have hr := List.dropLast_append_getLast h.ne_nil
  rw [push_absolute, List.append_assoc, hr]
  · rfl
  · intro n hn
    refine h.plain n ?_
    rcases List.mem_append.mp hn with hn | hn
    · exact List.mem_append_left _ hn
    · exact List.mem_append_right _ (List.dropLast_subset _ hn)
  · exact h.plain_rel _ (List.getLast_mem h.ne_nil)

theorem File.find (h : dir.File r f) : dk.find (dir.text r) = some (.file f) := by
  have hplain := h.plain_rel _ (List.getLast_mem h.ne_nil)
  have hloc : dk.locate (dir.text r) = (dir.names ++ r).map .utf8 := locate_absolute h.plain _
  have hnode : dk.node (dk.locate (dir.text r)) = some (.file f) := by rw [hloc]; exact h
  rw [← hnode]
  refine Disk.find_eq_node (absolute_ne_nil _) ?_
  rw [h.text_eq]
  exact mustBeDir_push_plain hplain _

theorem File.foldlM_text (h : dir.File r f) :
    (r.map OsName.utf8).foldlM (fun p c => c.toStr.map (push p)) (absolute dir.names) =
      some (dir.text r) :=
  (foldlM_push_absolute dir.plain_names (plain_map_utf8 h.plain_rel)).mpr ⟨r, rfl, rfl⟩

theorem File.fileName (h : dir.File r f) : ∃ name, fileName (dir.text r) = some name := by
  rw [h.text_eq]
  exact ⟨_, fileName_push (h.plain_rel _ (List.getLast_mem h.ne_nil)) _⟩

/-! ### Where a key leads -/

theorem remove_slash {names : List Str} (h : ∀ n ∈ names, '/' ∉ n) :
    remove ['/'] (slashed names) = names.flatten := by
  have hfilter : ∀ s : Str, remove ['/'] s = s.filter (· ≠ '/') := by
    intro s
    induction s with
    | nil => rfl
    | cons c s ih =>
      by_cases hc : c = '/'
      · subst hc
        have := @remove_append ['/'] (by simp) s
        rw [List.singleton_append] at this
        rw [this, ih, List.filter_cons_of_neg (by simp)]
      · rw [remove_cons_of_not (by simpa using Ne.symm hc), ih,
          List.filter_cons_of_pos (by simp [hc])]
  rw [hfilter]
  induction names with
  | nil => rfl
  | cons n names ih =>
    have hn : n.filter (· ≠ '/') = n := List.filter_eq_self.mpr fun c hc => by
      have := h n List.mem_cons_self
      simp only [decide_eq_true_eq]
      rintro rfl
      exact this hc
    rw [slashed_cons, List.filter_append, List.filter_cons_of_neg (by simp), hn,
      ih fun m hm => h m (List.mem_cons_of_mem _ hm)]
    rfl

theorem utf8Len_slashed (names : List Str) :
    utf8Len (slashed names) = utf8Len names.flatten + names.length := by
  induction names with
  | nil => rfl
  | cons n names ih =>
    have hsep : utf8Len ('/' :: n) = 1 + utf8Len n := utf8Len_cons '/' n
    rw [slashed_cons, utf8Len_append, ih, hsep, List.flatten_cons, utf8Len_append,
      List.length_cons]
    omega

/-- In the root directory every separator goes; elsewhere the key is the relative path,
unless the directory's text is in there too. -/
theorem File.key_cases (h : dir.File r f) :
    dir.names = [] ∧ dir.key r = r.flatten ∨ dir.key r = slashed r ∨
      utf8Len (dir.key r) + 2 ≤ utf8Len (slashed r) := by
  have htext : dir.text r = slashed (dir.names ++ r) :=
    absolute_of_ne (by simp [h.ne_nil])
  by_cases hroot : dir.names = []
  · refine Or.inl ⟨hroot, ?_⟩
    rw [key, htext, hroot]
    exact remove_slash fun n hn => (h.plain_rel n hn).2.1
  · refine Or.inr ?_
    have habs : absolute dir.names = slashed dir.names := absolute_of_ne hroot
    have hkey : dir.key r = remove (slashed dir.names) (slashed r) := by
      rw [key, htext, habs, slashed_append]
      refine remove_append ?_ _
      rw [← habs]
      exact absolute_ne_nil _
    rw [hkey]
    refine (remove_eq_or_shorter (slashed dir.names) (slashed r)).imp_right fun hshort => ?_
    obtain ⟨n, rest, hrest⟩ := List.exists_cons_of_ne_nil hroot
    have hn0 : 0 < utf8Len n := utf8Len_pos (dir.plain_names n (by rw [hrest]; simp)).1
    have hroot2 : 2 ≤ utf8Len (slashed dir.names) := by
      rw [hrest, utf8Len_slashed, List.flatten_cons, utf8Len_append, List.length_cons]
      omega
    omega

/-- **The names that a key leads to are the file's own or shorter.** -/
theorem sanitized_key (h : dir.File r f) {names : List Str}
    (hn : sanitizedNames (dir.key r) = some names) :
    names = r ∨ utf8Len (slashed names) < utf8Len (slashed r) := by
  have hr : ∀ n ∈ r, '/' ∉ n := fun n hn => (h.plain_rel n hn).2.1
  have hnames : ∀ n ∈ names, '/' ∉ n := fun n hmem => (sanitizedNames_plain hn n hmem).2.1
  have hsep : utf8Len ('/' :: dir.key r) = 1 + utf8Len (dir.key r) := utf8Len_cons '/' _
  obtain ⟨n, rest, hrest⟩ := List.exists_cons_of_ne_nil h.ne_nil
  rcases h.key_cases with ⟨-, hkey⟩ | hkey | hshort
  · have hlen := utf8Len_slashed r
    rw [← hkey] at hlen
    cases rest with
    | nil =>
      have hone : '/' :: dir.key r = slashed r := by rw [hkey, hrest]; simp
      rcases sanitizedNames_length hn with ⟨-, he⟩ | hlt
      · exact Or.inl (slashed_injective hnames hr (he.symm.trans hone))
      · exact Or.inr (by rwa [hone] at hlt)
    | cons m rest =>
      refine Or.inr ?_
      simp only [hrest, List.length_cons] at hlen
      rw [hrest] at hsep ⊢
      rcases sanitizedNames_length hn with ⟨-, he⟩ | hlt
      · rw [← he, hrest]; omega
      · rw [hrest] at hlt; omega
  · -- nothing is taken out but the directory in front
    have hslash : dir.key r = '/' :: (n ++ slashed rest) := by rw [hkey, hrest]; rfl
    rw [hslash] at hn
    rcases sanitizedNames_length_slash hn with ⟨-, he⟩ | hlt
    · rw [← hslash, hkey] at he
      exact Or.inl (slashed_injective hnames hr he.symm)
    · rw [← hslash, hkey] at hlt
      exact Or.inr hlt
  · refine Or.inr ?_
    rcases sanitizedNames_length hn with ⟨-, he⟩ | hlt
    · rw [← he]; omega
    · omega

/-- A key that leads to the file's own path is that path, with nothing to decode. -/
theorem File.key_eq (h : dir.File r f) (hn : sanitizedNames (dir.key r) = some r) :
    percentDecode (dir.key r) = some (dir.key r) ∧
      (dir.names = [] ∧ '/' :: dir.key r = slashed r ∨ dir.key r = slashed r) := by
  have hsep : utf8Len ('/' :: dir.key r) = 1 + utf8Len (dir.key r) := utf8Len_cons '/' _
  obtain ⟨n, rest, hrest⟩ := List.exists_cons_of_ne_nil h.ne_nil
  rcases h.key_cases with ⟨hroot, hkey⟩ | hkey | hshort
  · rcases sanitizedNames_length hn with ⟨hd, he⟩ | hlt
    · exact ⟨hd, Or.inl ⟨hroot, he⟩⟩
    · have hlen := utf8Len_slashed r
      have hpos := List.length_pos_iff.mpr h.ne_nil
      rw [← hkey] at hlen
      omega
  · have hslash : dir.key r = '/' :: (n ++ slashed rest) := by rw [hkey, hrest]; rfl
    refine ⟨?_, Or.inr hkey⟩
    rw [hslash] at hn ⊢
    rcases sanitizedNames_length_slash hn with ⟨hd, -⟩ | hlt
    · exact hd
    · rw [← hslash, hkey] at hlt
      exact absurd hlt (lt_irrefl _)
  · rcases sanitizedNames_length hn with ⟨-, he⟩ | hlt
    · rw [← he] at hshort; omega
    · omega

/-- Every file is led to its own path, which is not the marker's. -/
def Faithful (dir : LocalDir dk) : Prop :=
  ∀ r f, dir.File r f → sanitizedNames (dir.key r) = some r ∧ r ≠ [uploadingFileName]

/-- **If every file's path is where some file is led, every file is led to its own.** -/
theorem eq_self_of_covers
    (hsome : ∀ r f, dir.File r f → ∃ names, sanitizedNames (dir.key r) = some names)
    (hcovers : ∀ r f, dir.File r f →
      ∃ r' f', dir.File r' f' ∧ sanitizedNames (dir.key r') = some r) :
    ∀ r f, dir.File r f → sanitizedNames (dir.key r) = some r := by
  classical
  have hfinite : {r | ∃ f, dir.File r f}.Finite := by
    refine Set.Finite.subset (Set.Finite.preimage
      (f := fun r : List Str => (dir.names ++ r).map OsName.utf8) ?_ (List.finite_toSet dk.dom)) ?_
    · exact fun a _ b _ he => List.append_cancel_left (map_utf8_injective he)
    · rintro r ⟨f, hf⟩
      exact (dk.mem_dom _).mpr (by rw [hf]; simp)
  have hmem : ∀ r, r ∈ hfinite.toFinset ↔ ∃ f, dir.File r f := fun r => hfinite.mem_toFinset
  let lead : List Str → List Str := fun r => (sanitizedNames (dir.key r)).getD r
  have hlead := eq_self_of_subset_image (S := hfinite.toFinset) (g := lead)
    (fun names => utf8Len (slashed names)) (by
      intro r hr
      obtain ⟨f, hf⟩ := (hmem r).mp hr
      obtain ⟨r', f', hf', he⟩ := hcovers r f hf
      exact Finset.mem_image.mpr ⟨r', (hmem r').mpr ⟨f', hf'⟩, by simp [lead, he]⟩) (by
      intro r hr
      obtain ⟨f, hf⟩ := (hmem r).mp hr
      obtain ⟨names, hn⟩ := hsome r f hf
      simpa [lead, hn] using sanitized_key hf hn)
  intro r f hf
  obtain ⟨names, hn⟩ := hsome r f hf
  have := hlead r ((hmem r).mpr ⟨f, hf⟩)
  simp only [lead, hn, Option.getD_some] at this
  rw [hn, this]

end LocalDir

/-! ### A directory with one file -/

def siteDir (name : Str) (h : (siteWith name).node (siteNames.map .utf8) = some .dir) :
    LocalDir (siteWith name) := ⟨siteNames, h⟩

theorem site_dir : (siteWith "a.html".toList).node (siteNames.map .utf8) = some .dir := by
  decide +kernel

theorem site_file {r : List Str} {f : FileData} (h : (siteDir _ site_dir).File r f) :
    r = ["a.html".toList] := by
  have hdom : (siteWith "a.html".toList).dom =
      [[.utf8 "site".toList, .utf8 "a.html".toList], [.utf8 "site".toList], []] := by
    decide +kernel
  have hmem := ((siteWith "a.html".toList).mem_dom _).mpr (show _ ≠ none by rw [h]; simp)
  rw [hdom] at hmem
  rcases r with _ | ⟨n, _ | ⟨m, r⟩⟩
  · exact absurd rfl h.ne_nil
  · simp only [siteDir, siteNames, List.singleton_append, List.map_cons, List.map_nil,
      List.mem_cons, List.cons.injEq, OsName.utf8.injEq, true_and, and_true, List.not_mem_nil,
      reduceCtorEq, and_false, or_false] at hmem
    rw [hmem]
  · simp [siteDir, siteNames] at hmem

theorem site_faithful : (siteDir _ site_dir).Faithful := by
  intro r f hf
  obtain rfl := site_file hf
  exact ⟨by decide +kernel, by decide⟩

/-! ### A directory with a file in it and one further down -/

def nestedSite : Disk :=
  (Disk.empty.withFile "/site/a.html".toList [1]).withFile "/site/js/app.js".toList [2, 3]

def nestedDir : LocalDir nestedSite := ⟨siteNames, by decide +kernel⟩

theorem nested_node {rel : Loc} {f : FileData}
    (h : nestedSite.node (siteNames.map .utf8 ++ rel) = some (.file f)) :
    rel = ["a.html".toList].map .utf8 ∧ f = ⟨[1], 0⟩ ∨
      rel = ["js".toList, "app.js".toList].map .utf8 ∧ f = ⟨[2, 3], 0⟩ := by
  have hdom : ∀ l ∈ nestedSite.dom, (nestedSite.node l).any Node.isFile = true →
      l = siteNames.map .utf8 ++ ["a.html".toList].map .utf8 ∨
      l = siteNames.map .utf8 ++ ["js".toList, "app.js".toList].map .utf8 := by decide +kernel
  have ha : nestedSite.node (siteNames.map .utf8 ++ ["a.html".toList].map .utf8) =
      some (.file ⟨[1], 0⟩) := by decide +kernel
  have hb : nestedSite.node (siteNames.map .utf8 ++ ["js".toList, "app.js".toList].map .utf8) =
      some (.file ⟨[2, 3], 0⟩) := by decide +kernel
  rcases hdom _ ((nestedSite.mem_dom _).mpr (by rw [h]; exact nofun)) (by rw [h]; rfl) with he | he
  · rw [he, ha] at h
    exact Or.inl ⟨List.append_cancel_left he, (Node.file.inj (Option.some.inj h)).symm⟩
  · rw [he, hb] at h
    exact Or.inr ⟨List.append_cancel_left he, (Node.file.inj (Option.some.inj h)).symm⟩

theorem nested_file {r : List Str} {f : FileData} (h : nestedDir.File r f) :
    r = ["a.html".toList] ∧ f = ⟨[1], 0⟩ ∨
      r = ["js".toList, "app.js".toList] ∧ f = ⟨[2, 3], 0⟩ := by
  rw [LocalDir.File, List.map_append] at h
  exact (nested_node h).imp (And.imp_left fun he => map_utf8_injective he)
    (And.imp_left fun he => map_utf8_injective he)

theorem nested_faithful : nestedDir.Faithful := by
  intro r f hf
  rcases nested_file hf with ⟨rfl, -⟩ | ⟨rfl, -⟩
  · exact ⟨by decide +kernel, by decide⟩
  · exact ⟨by decide +kernel, by decide⟩

end Client

end SpaServer
