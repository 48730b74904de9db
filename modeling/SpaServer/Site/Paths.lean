import SpaServer.Base.PercentEncoding
import SpaServer.Site.StaticFile

/-!
# Paths and keys

How the path of a request leads to a key of the file map.  `get_cache_file` decodes the path,
refuses it when a segment looks like one that leads out of the directory, and cuts off its first
byte.

* `getCacheFile_encoded`: every percent-encoding of a key leads to it.
* `checkedGetCacheFile_eq`: the slice does not panic.
* `key_injective`: different paths lead to different keys, but for those of `index.html`.

`getCacheFile_exact` puts them together.
-/

namespace SpaServer.Site

open Base

/-! ### The path of a request -/

/-- What `Uri::path` of a request is: a path from the root, that of `OPTIONS *`, or nothing. -/
def RequestPath (p : Str) : Prop := p = [] ∨ p = ['*'] ∨ ∃ q, p = '/' :: q

def keyOf (s : Str) : Str := if s = "/".toList ∨ s = [] then "index.html".toList else s.drop 1

/-- The decoded paths of the `index.html` at the root. -/
def IsIndex (s : Str) : Prop := s = "/".toList ∨ s = [] ∨ s = "/index.html".toList

/-- `get_cache_file`, with the slice of its source: `none` when it panics. -/
def checkedGetCacheFile (tail host : Str) (storage : DomainStorage) :
    Option (Except Response (Str × CacheItem)) :=
  match sanitizePath tail with
  | .error resp => some (.error resp)
  | .ok s =>
    let key := if s = "/".toList ∨ s = [] then some "index.html".toList else byteSlice s 1
    key.map fun key =>
      match storage.cache.getItem host key with
      | some item => .ok (key, item)
      | none => .error notFound

section Storage

variable {storage : DomainStorage} {host : Str}

theorem sanitizePath_eq_ok {p s : Str} :
    sanitizePath p = .ok s ↔
      percentDecode p = some s ∧ ∀ seg ∈ s.splitOn '/', SafeSegment seg := by
  unfold sanitizePath
  cases percentDecode p with
  | none => exact iff_of_false (by simp) (by simp)
  | some t =>
    dsimp only
    by_cases hsafe : ∀ seg ∈ t.splitOn '/', SafeSegment seg
    · rw [if_pos hsafe]
      constructor
      · intro h
        obtain rfl := Except.ok.inj h
        exact ⟨rfl, hsafe⟩
      · rintro ⟨h, _⟩
        rw [Option.some.inj h]
    · rw [if_neg hsafe]
      refine iff_of_false (by simp) ?_
      rintro ⟨h, hs⟩
      obtain rfl := Option.some.inj h
      exact hsafe hs

theorem getCacheFile_of_decoded {p s : Str} (hs : percentDecode p = some s) :
    getCacheFile p host storage =
      if ∀ seg ∈ s.splitOn '/', SafeSegment seg then
        (storage.cache.getItem host (keyOf s)).elim (.error notFound)
          fun item => .ok (keyOf s, item)
      else .error notFound := by
  unfold getCacheFile sanitizePath
  rw [hs]
  dsimp only
  by_cases hsafe : ∀ seg ∈ s.splitOn '/', SafeSegment seg
  · rw [if_pos hsafe, if_pos hsafe]
    dsimp only [keyOf]
    generalize (if s = "/".toList ∨ s = [] then "index.html".toList else s.drop 1) = key
    cases storage.cache.getItem host key with
    | none => rfl
    | some item => rfl
  · rw [if_neg hsafe, if_neg hsafe]

theorem getCacheFile_eq_ok {p k : Str} {item : CacheItem}
    (h : getCacheFile p host storage = .ok (k, item)) :
    ∃ s, percentDecode p = some s ∧ k = keyOf s ∧ storage.cache.getItem host k = some item := by
  cases hs : percentDecode p with
  | none =>
    unfold getCacheFile sanitizePath at h
    rw [hs] at h
    exact absurd h (by simp)
  | some s =>
    rw [getCacheFile_of_decoded hs] at h
    split at h
    case isFalse => exact absurd h (by simp)
    case isTrue =>
      cases hitem : storage.cache.getItem host (keyOf s) with
      | none =>
        rw [hitem] at h
        exact absurd h (by simp)
      | some item' =>
        rw [hitem] at h
        obtain ⟨rfl, rfl⟩ := Prod.mk.inj (Except.ok.inj h)
        exact ⟨s, rfl, rfl, hitem⟩

theorem getCacheFile_error {p : Str} {resp : Response}
    (h : getCacheFile p host storage = .error resp) : resp = notFound := by
  cases hs : percentDecode p with
  | none =>
    unfold getCacheFile sanitizePath at h
    rw [hs] at h
    exact (Except.error.inj h).symm
  | some s =>
    rw [getCacheFile_of_decoded hs] at h
    split at h
    case isFalse => exact (Except.error.inj h).symm
    case isTrue =>
      cases hitem : storage.cache.getItem host (keyOf s) with
      | none =>
        rw [hitem] at h
        exact (Except.error.inj h).symm
      | some item =>
        rw [hitem] at h
        exact absurd h (by simp)

/-! ### What the paths of a request decode to -/

theorem decoded_cases {p s : Str} (hp : RequestPath p) (hs : percentDecode p = some s) :
    s = [] ∨ s = ['*'] ∨ ∃ t, s = '/' :: t := by
  rcases hp with rfl | rfl | ⟨q, rfl⟩
  · exact Or.inl (Option.some.inj hs).symm
  · have hstar : percentDecode ['*'] = some ['*'] := by decide
    exact Or.inr (Or.inl (Option.some.inj (hs.symm.trans hstar)))
  · exact Or.inr (Or.inr (percentDecode_slash hs))

/-- **The slice of a path cuts off a character.** -/
theorem checkedGetCacheFile_eq {p : Str} (hp : p = [] ∨ ∃ c q, (c = '/' ∨ c = '*') ∧ p = c :: q) :
    checkedGetCacheFile p host storage = some (getCacheFile p host storage) := by
  unfold checkedGetCacheFile getCacheFile
  cases hs : sanitizePath p with
  | error resp => rfl
  | ok s =>
    have hdecode := (sanitizePath_eq_ok.mp hs).1
    dsimp only
    by_cases hroot : s = "/".toList ∨ s = []
    · rw [if_pos hroot, if_pos hroot]
      rfl
    · have hslice : byteSlice s 1 = some (s.drop 1) := by
        rcases hp with rfl | ⟨c, q, hc, rfl⟩
        · exact absurd (Or.inr (Option.some.inj hdecode).symm) hroot
        · have hcut : ∃ t, s = c :: t := by
            rcases hc with rfl | rfl
            · exact percentDecode_cons (by decide) (by decide) hdecode
            · exact percentDecode_cons (by decide) (by decide) hdecode
          obtain ⟨t, rfl⟩ := hcut
          refine byteSlice_one ?_ t
          rcases hc with rfl | rfl
          · rfl
          · rfl
      rw [if_neg hroot, if_neg hroot, hslice]
      rfl

/-- **Different paths lead to different keys**, but for those of `index.html`. -/
theorem key_injective {s t : Str} (hs : s = [] ∨ ∃ s', s = '/' :: s')
    (ht : t = [] ∨ ∃ t', t = '/' :: t') (hkey : keyOf s = keyOf t) (hne : s ≠ t) :
    IsIndex s ∧ IsIndex t := by
  have hroot : ∀ u : Str, (u = "/".toList ∨ u = []) → IsIndex u ∧ keyOf u = "index.html".toList := by
    intro u hu
    refine ⟨hu.imp_right Or.inl, ?_⟩
    unfold keyOf
    rw [if_pos hu]
  have hpath : ∀ u : Str, (u = [] ∨ ∃ u', u = '/' :: u') → ¬ (u = "/".toList ∨ u = []) →
      u = '/' :: keyOf u := by
    intro u hu hn
    unfold keyOf
    rw [if_neg hn]
    rcases hu with rfl | ⟨u', rfl⟩
    · exact absurd (Or.inr rfl) hn
    · rfl
  by_cases hs' : s = "/".toList ∨ s = []
  · refine ⟨(hroot s hs').1, ?_⟩
    by_cases ht' : t = "/".toList ∨ t = []
    · exact (hroot t ht').1
    · refine Or.inr (Or.inr ?_)
      rw [hpath t ht ht', ← hkey, (hroot s hs').2]
      rfl
  · by_cases ht' : t = "/".toList ∨ t = []
    · refine ⟨Or.inr (Or.inr ?_), (hroot t ht').1⟩
      rw [hpath s hs hs', hkey, (hroot t ht').2]
      rfl
    · refine absurd ?_ hne
      rw [hpath s hs hs', hpath t ht ht', hkey]

/-! ### The two directions -/

/-- **Every percent-encoding of a key leads to it**, unless it is refused for a segment. -/
theorem getCacheFile_encoded {m : FileMap} (hm : storage.cache.data host = some m) {k p : Str}
    {item : CacheItem} (hk : k ≠ []) (hitem : m k = some item)
    (hp : PercentEncoded (encodeUtf8 k) p) :
    getCacheFile ('/' :: p) host storage =
      if ∀ seg ∈ k.splitOn '/', SafeSegment seg then .ok (k, item) else .error notFound := by
  have hdecode : percentDecode ('/' :: p) = some ('/' :: k) :=
    percentDecode_of_encoded (.literal (by decide) hp)
  have hkey : keyOf ('/' :: k) = k := by
    unfold keyOf
    rw [if_neg]
    · rfl
    · rintro (h | h)
      · exact hk (List.cons.inj h).2
      · exact absurd h (List.cons_ne_nil _ _)
  have hsegs : (∀ seg ∈ ('/' :: k).splitOn '/', SafeSegment seg) ↔
      ∀ seg ∈ k.splitOn '/', SafeSegment seg := by
    have hsplit : ('/' :: k).splitOn '/' = [] :: k.splitOn '/' := by
      rw [List.splitOn_cons_eq_if_modifyHead, if_pos (beq_self_eq_true '/')]
    rw [hsplit, List.forall_mem_cons]
    exact and_iff_right (by decide)
  have hget : storage.cache.getItem host k = some item := by
    unfold FileCache.getItem
    rw [hm, Option.bind_some, hitem]
  rw [getCacheFile_of_decoded hdecode, hkey, hget]
  by_cases hsafe : ∀ seg ∈ k.splitOn '/', SafeSegment seg
  · rw [if_pos (hsegs.mpr hsafe), if_pos hsafe]
    rfl
  · rw [if_neg (fun h => hsafe (hsegs.mp h)), if_neg hsafe]

/-- **Paths and keys correspond.**  In the file map of a host, whose keys are not empty, every
encoding of a key leads to its item, or to a 404 for an unsafe segment; no path of a request makes
the slice panic; every answer is an entry of the map; and only the paths of `index.html` share
one. -/
theorem getCacheFile_exact {m : FileMap} (hm : storage.cache.data host = some m)
    (hkeys : ∀ k, m k ≠ none → k ≠ []) :
    (∀ k item p, m k = some item → PercentEncoded (encodeUtf8 k) p →
      getCacheFile ('/' :: p) host storage =
        if ∀ seg ∈ k.splitOn '/', SafeSegment seg then .ok (k, item) else .error notFound) ∧
    (∀ p, (p = [] ∨ ∃ c q, (c = '/' ∨ c = '*') ∧ p = c :: q) →
      checkedGetCacheFile p host storage = some (getCacheFile p host storage)) ∧
    (∀ p k item, getCacheFile p host storage = .ok (k, item) → m k = some item) ∧
    ∀ p q s t k i j, RequestPath p → RequestPath q →
      percentDecode p = some s → percentDecode q = some t → s ≠ t →
      getCacheFile p host storage = .ok (k, i) → getCacheFile q host storage = .ok (k, j) →
      IsIndex s ∧ IsIndex t := by
  have hentry : ∀ k item, storage.cache.getItem host k = some item → m k = some item := by
    intro k item h
    unfold FileCache.getItem at h
    rwa [hm, Option.bind_some] at h
  refine ⟨fun k item p hitem hp => ?_, fun p hp => checkedGetCacheFile_eq hp, ?_, ?_⟩
  · exact getCacheFile_encoded hm (hkeys k (by rw [hitem]; simp)) hitem hp
  · intro p k item h
    obtain ⟨_, _, _, hitem⟩ := getCacheFile_eq_ok h
    exact hentry k item hitem
  · intro p q s t k i j hp hq hs ht hne hpk hqk
    obtain ⟨_, hs', rfl, hi⟩ := getCacheFile_eq_ok hpk
    obtain ⟨_, ht', hkey, hj⟩ := getCacheFile_eq_ok hqk
    obtain rfl := Option.some.inj (hs.symm.trans hs')
    obtain rfl := Option.some.inj (ht.symm.trans ht')
    -- the path `*` leads to the empty key
    have hstar : ∀ u x, u = ['*'] → m (keyOf u) ≠ some x := by
      rintro u x rfl hx
      exact hkeys [] (fun hnone => absurd (hnone.symm.trans hx) (by simp)) rfl
    have hpath : ∀ u x, (u = [] ∨ u = ['*'] ∨ ∃ u', u = '/' :: u') → m (keyOf u) = some x →
        u = [] ∨ ∃ u', u = '/' :: u' := by
      intro u x hu hx
      rcases hu with h | h | h
      · exact Or.inl h
      · exact absurd hx (hstar u x h)
      · exact Or.inr h
    have hi' := hentry _ i hi
    have hj' := hentry _ j (hkey ▸ hj)
    exact key_injective (hpath s i (decoded_cases hp hs) hi') (hpath t j (decoded_cases hq ht) hj')
      hkey hne

end Storage

def spaceItem : CacheItem := ⟨⟨0, 0⟩, .cacheBlock [] false "/srv/www.a.com/1/a b".toList, [], none⟩

def spaceStorage : DomainStorage :=
  .fresh "/srv".toList srv_ne_nil
    ((FileCache.mk ⟨.default, .empty⟩ .empty).update "www.a.com".toList
      (DashMap.empty.insert "a b".toList spaceItem))

/-- `/a%20b` is one of the encodings of `a b`. -/
theorem getCacheFile_exact_space :
    getCacheFile "/a%20b".toList "www.a.com".toList spaceStorage = .ok ("a b".toList, spaceItem) ∧
      checkedGetCacheFile "/a%20b".toList "www.a.com".toList spaceStorage =
        some (getCacheFile "/a%20b".toList "www.a.com".toList spaceStorage) := by
  have hm : spaceStorage.cache.data "www.a.com".toList =
      some (DashMap.empty.insert "a b".toList spaceItem) :=
    DashMap.insert_self .empty "www.a.com".toList _
  have hkeys : ∀ k, (DashMap.empty.insert "a b".toList spaceItem) k ≠ none → k ≠ [] := by
    rintro _ hk rfl
    exact hk (DashMap.insert_of_ne _ (by decide) _)
  have hcode : PercentEncoded (encodeUtf8 "a b".toList) "a%20b".toList :=
    .literal (by decide) (.escaped (a := 50) (b := 48) rfl rfl rfl (.literal (by decide) .nil))
  have h := getCacheFile_exact hm hkeys
  refine ⟨?_, h.2.1 _ (Or.inr ⟨'/', _, Or.inl rfl, rfl⟩)⟩
  exact (h.1 _ spaceItem _ (DashMap.insert_self ..) hcode).trans (if_pos (by decide))

end SpaServer.Site
