import SpaServer.Base.Slice
import SpaServer.Site.Replies

/-!
# Byte ranges

A range goes through three notations: the inclusive bounds of the header, the half-open interval
of `bytes_range`, and the inclusive `Content-Range` of the response.

* `bytesRange_selects_iff`: when `bytes_range` picks the interval that RFC 7233 picks.  It takes
  the last number of `a-b` beyond the file for an error, and a suffix length for a last byte.
* `replies_exact`: what is picked is answered exactly.  No reply slices out of bounds, takes a
  negative length or fails to build its `Content-Range`, and the replies to the pieces of a
  partition are the pieces of the content.
-/

namespace SpaServer.Site

open Base

/-! ### The specs of the header -/

/-- A `byte-range-spec` or `suffix-byte-range-spec` of RFC 7233. -/
inductive ByteRangeSpec where
  | fromTo (first last : UInt64) (hle : first ≤ last)
  | fromOn (first : UInt64)
  | suffix (len : UInt64)

namespace ByteRangeSpec

/-- What `headers::Range::iter` yields of a spec. -/
def bounds : ByteRangeSpec → Bound × Bound
  | fromTo first last _ => (.included first.toNat, .included last.toNat)
  | fromOn first => (.included first.toNat, .unbounded)
  | suffix len => (.unbounded, .included len.toNat)

/-- The interval that a spec selects of `n` bytes, by section 2.1 of RFC 7233. -/
def selected (n : Nat) : ByteRangeSpec → Except BadRange (Nat × Nat)
  | fromTo first last _ =>
    if first.toNat < n then .ok (first.toNat, min (last.toNat + 1) n) else .error .badRange
  | fromOn first => if first.toNat < n then .ok (first.toNat, n) else .error .badRange
  | suffix len =>
    if 0 < len.toNat ∧ 0 < n then .ok (n - min len.toNat n, n) else .error .badRange

/-- The specs that `bytes_range` reads as they are meant. -/
def Fits (n : Nat) : ByteRangeSpec → Prop
  | fromTo first last _ => last.toNat ≤ n ∨ (n ≤ first.toNat ∧ last.toNat ≠ 2 ^ 64 - 1)
  | fromOn _ => True
  | suffix len => len.toNat = n ∨ (n = 0 ∧ len.toNat ≠ 2 ^ 64 - 1)

end ByteRangeSpec

/-! ### The additions -/

/-- `u64::checked_add`. -/
def checkedAdd (a b : Nat) : Option Nat := if a + b < 2 ^ 64 then some (a + b) else none

def checkedStart : Bound → Option Nat
  | .unbounded => some 0
  | .included s => some s
  | .excluded s => checkedAdd s 1

def checkedEnd (maxLen : Nat) : Bound → Option Nat
  | .unbounded => some maxLen
  | .included s => if s = maxLen then some s else checkedAdd s 1
  | .excluded s => some s

/-- `bytes_range` in a debug build: `none` when an addition overflows. -/
def checkedBytesRange (range : Option Range) (maxLen : Nat) :
    Option (Except BadRange (Nat × Nat)) :=
  match range with
  | none => some (.ok (0, maxLen))
  | some range =>
    match range.head? with
    | none => some (.ok (0, maxLen))
    | some (s, e) =>
      (checkedStart s).bind fun start => (checkedEnd maxLen e).map fun stop =>
        if start < stop ∧ stop ≤ maxLen then .ok (start, stop) else .error .badRange

theorem succU64_of_checkedAdd {n m : Nat} (h : checkedAdd n 1 = some m) : succU64 n = m := by
  unfold checkedAdd at h
  split at h
  case isTrue hlt =>
    rw [← Option.some.inj h]
    exact Nat.mod_eq_of_lt hlt
  case isFalse => exact absurd h (by simp)

theorem rangeStart_of_checked {b : Bound} {start : Nat} (h : checkedStart b = some start) :
    rangeStart b = start := by
  cases b with
  | unbounded => exact Option.some.inj h
  | included s => exact Option.some.inj h
  | excluded s => exact succU64_of_checkedAdd h

theorem rangeEnd_of_checked {b : Bound} {maxLen stop : Nat}
    (h : checkedEnd maxLen b = some stop) : rangeEnd maxLen b = stop := by
  cases b with
  | unbounded => exact Option.some.inj h
  | included s =>
    unfold checkedEnd at h
    unfold rangeEnd
    dsimp only at h ⊢
    by_cases hs : s = maxLen
    · rw [if_pos hs] at h ⊢
      exact Option.some.inj h
    · rw [if_neg hs] at h ⊢
      exact succU64_of_checkedAdd h
  | excluded s => exact Option.some.inj h

/-- **Without an overflow both builds answer the same.** -/
theorem bytesRange_of_checked {range : Option Range} {maxLen : Nat}
    {r : Except BadRange (Nat × Nat)} (h : checkedBytesRange range maxLen = some r) :
    bytesRange range maxLen = r := by
  unfold checkedBytesRange at h
  unfold bytesRange
  cases range with
  | none => exact Option.some.inj h
  | some range =>
    dsimp only at h ⊢
    cases hhead : range.head? with
    | none =>
      rw [hhead] at h
      exact Option.some.inj h
    | some bounds =>
      rw [hhead] at h
      obtain ⟨start, hstart, h⟩ := Option.bind_eq_some_iff.mp h
      obtain ⟨stop, hstop, rfl⟩ := Option.map_eq_some_iff.mp h
      dsimp only
      rw [rangeStart_of_checked hstart, rangeEnd_of_checked hstop]

/-- So no overflow and the right answer is the right answer of a debug build. -/
theorem bytesRange_and_checked_iff {range : Option Range} {maxLen : Nat}
    {r : Except BadRange (Nat × Nat)} :
    (bytesRange range maxLen = r ∧ checkedBytesRange range maxLen ≠ none) ↔
      checkedBytesRange range maxLen = some r := by
  constructor
  · rintro ⟨hr, hne⟩
    obtain ⟨r', hr'⟩ := Option.ne_none_iff_exists'.mp hne
    rw [hr', ← hr, bytesRange_of_checked hr']
  · intro h
    exact ⟨bytesRange_of_checked h, fun hnone => absurd (hnone.symm.trans h) (by simp)⟩

/-! ### Against RFC 7233 -/

theorem checkedAdd_of_lt {n : Nat} (h : n + 1 < 2 ^ 64) : checkedAdd n 1 = some (n + 1) := if_pos h

theorem checkedEnd_self (n : Nat) : checkedEnd n (.included n) = some n := if_pos rfl

theorem checkedEnd_of_ne {n s : Nat} (hne : s ≠ n) :
    checkedEnd n (.included s) = checkedAdd s 1 := if_neg hne

/-- What a debug build makes of a range whose bounds it could compute. -/
theorem checkedBytesRange_eq {s e : Bound} {more : Range} {n start stop : Nat}
    (hstart : checkedStart s = some start) (hstop : checkedEnd n e = some stop) :
    checkedBytesRange (some ((s, e) :: more)) n =
      some (if start < stop ∧ stop ≤ n then .ok (start, stop) else .error .badRange) := by
  show (checkedStart s).bind _ = _
  rw [hstart, Option.bind_some, hstop, Option.map_some]

theorem checkedBytesRange_overflow {s e : Bound} {more : Range} {n start : Nat}
    (hstart : checkedStart s = some start) (hstop : checkedEnd n e = none) :
    checkedBytesRange (some ((s, e) :: more)) n = none := by
  show (checkedStart s).bind _ = _
  rw [hstart, Option.bind_some, hstop, Option.map_none]

theorem checkedAdd_one_cases (s : UInt64) :
    s.toNat + 1 < 2 ^ 64 ∧ checkedAdd s.toNat 1 = some (s.toNat + 1) ∨
      s.toNat = 2 ^ 64 - 1 ∧ checkedAdd s.toNat 1 = none := by
  have hlt := s.toNat_lt
  by_cases h : s.toNat + 1 < 2 ^ 64
  · exact Or.inl ⟨h, checkedAdd_of_lt h⟩
  · exact Or.inr ⟨by omega, if_neg h⟩

section Specs

variable {n : Nat} {more : Range}

theorem fromOn_selected (first : UInt64) :
    checkedBytesRange (some ((ByteRangeSpec.fromOn first).bounds :: more)) n =
      some ((ByteRangeSpec.fromOn first).selected n) := by
  refine (checkedBytesRange_eq rfl rfl).trans ?_
  rw [ByteRangeSpec.selected]
  simp only [Nat.le_refl, and_true]

/-- `a-b` is misread exactly when `b` lies beyond the file and `a` does not. -/
theorem fromTo_selected_iff (hn : n < 2 ^ 64) (first last : UInt64) (hle : first ≤ last) :
    checkedBytesRange (some ((ByteRangeSpec.fromTo first last hle).bounds :: more)) n =
        some ((ByteRangeSpec.fromTo first last hle).selected n) ↔
      (ByteRangeSpec.fromTo first last hle).Fits n := by
  have hle' : first.toNat ≤ last.toNat := hle
  rw [ByteRangeSpec.selected, ByteRangeSpec.Fits, ByteRangeSpec.bounds]
  by_cases hself : last.toNat = n
  · -- the special case of the source
    rw [hself, checkedBytesRange_eq rfl (checkedEnd_self n)]
    simp only [Nat.le_refl, and_true, true_or, Nat.min_eq_right (Nat.le_succ n)]
  rcases checkedAdd_one_cases last with ⟨_, hadd⟩ | ⟨hmax, hadd⟩
  · rw [checkedBytesRange_eq rfl ((checkedEnd_of_ne hself).trans hadd)]
    by_cases hin : last.toNat < n
    · rw [if_pos ⟨by omega, by omega⟩, if_pos (by omega), Nat.min_eq_left (by omega)]
      exact iff_of_true rfl (Or.inl (by omega))
    · rw [if_neg (by omega)]
      by_cases hfirst : first.toNat < n
      · rw [if_pos hfirst]
        exact iff_of_false (by simp) (by omega)
      · rw [if_neg hfirst]
        exact iff_of_true rfl (Or.inr ⟨by omega, by omega⟩)
  · rw [checkedBytesRange_overflow rfl ((checkedEnd_of_ne hself).trans hadd)]
    exact iff_of_false (by simp) (by omega)

/-- `-k` is misread unless it asks for exactly the whole of the file, or for some of nothing. -/
theorem suffix_selected_iff (len : UInt64) :
    checkedBytesRange (some ((ByteRangeSpec.suffix len).bounds :: more)) n =
      some ((ByteRangeSpec.suffix len).selected n) ↔ (ByteRangeSpec.suffix len).Fits n := by
  rw [ByteRangeSpec.selected, ByteRangeSpec.Fits, ByteRangeSpec.bounds]
  by_cases hself : len.toNat = n
  · rw [hself, checkedBytesRange_eq rfl (checkedEnd_self n), Nat.min_self, Nat.sub_self]
    simp only [Nat.le_refl, and_true, and_self, true_or]
  rcases checkedAdd_one_cases len with ⟨hlt, hadd⟩ | ⟨hmax, hadd⟩
  · rw [checkedBytesRange_eq rfl ((checkedEnd_of_ne hself).trans hadd)]
    by_cases hzero : n = 0
    · rw [if_neg (by omega), if_neg (by omega)]
      exact iff_of_true rfl (Or.inr ⟨hzero, by omega⟩)
    · refine iff_of_false ?_ (by omega)
      -- the standard lets the interval end at `n`, the code behind the byte `len`
      intro he
      split at he
      case isTrue =>
        split at he
        case isTrue =>
          obtain ⟨hfirst, hend⟩ := Prod.mk.inj (Except.ok.inj (Option.some.inj he))
          omega
        case isFalse => exact absurd he (by simp)
      case isFalse =>
        split at he
        case isTrue => exact absurd he (by simp)
        case isFalse => omega
  · rw [checkedBytesRange_overflow rfl ((checkedEnd_of_ne hself).trans hadd)]
    exact iff_of_false (by simp) (by omega)

end Specs

/-- **`bytes_range` and RFC 7233.**  On a range whose first spec is valid, `bytes_range` selects
what the standard does without an overflow exactly when the spec `Fits` the file. -/
theorem bytesRange_selects_iff (n : UInt64) (spec : ByteRangeSpec) (more : Range) :
    (bytesRange (some (spec.bounds :: more)) n.toNat = spec.selected n.toNat ∧
        checkedBytesRange (some (spec.bounds :: more)) n.toNat ≠ none) ↔
      spec.Fits n.toNat := by
  rw [bytesRange_and_checked_iff]
  cases spec with
  | fromTo first last hle => exact fromTo_selected_iff n.toNat_lt first last hle
  | fromOn first => exact iff_of_true (fromOn_selected first) trivial
  | suffix len => exact suffix_selected_iff len

/-- The last five of ten bytes: the first six are answered. -/
theorem suffix_misread :
    ¬ (bytesRange (some [(ByteRangeSpec.suffix 5).bounds]) 10 =
        (ByteRangeSpec.suffix 5).selected 10 ∧
      checkedBytesRange (some [(ByteRangeSpec.suffix 5).bounds]) 10 ≠ none) := by
  rintro ⟨he, _⟩
  exact absurd (Prod.mk.inj (Except.ok.inj he)).1 (by decide)

/-! ### Replies that can fail

The two replies once more, with each step that panics outside its domain as a partial one: the
subtraction of the lengths, the slice of the cached bytes, and `ContentRange::bytes`. -/

/-- `u64::checked_sub`. -/
def checkedSub (a b : Nat) : Option Nat := if b ≤ a then some (a - b) else none

theorem checkedSub_of_le {a b : Nat} (h : b ≤ a) : checkedSub a b = some (a - b) := if_pos h

/-- `ContentRange::bytes(start..stop, len)`: the header names the last byte. -/
def ContentRange.ofInterval (start stop len : Nat) : Option ContentRange :=
  (checkedSub stop 1).map fun last => .bytes start last len

def checkedFileReply (warp : Warp) (dk : Disk) (item : CacheItem) (path : PathBuf)
    (range : Option Range) (modified : Option LastModified) : Option Response :=
  let len := item.fileMeta.len
  match dk.openFile path with
  | .ok file =>
    match bytesRange range len with
    | .ok (start, stop) =>
      (checkedSub stop start).bind fun subLen =>
        let body := warp.fileStream (contents dk file) (start, stop)
        let resp := cacheItemToResponseHeader (.new body) item modified
        if subLen ≠ len then
          (ContentRange.ofInterval start stop len).map fun contentRange =>
            ((resp.withStatus 206).insert (.contentRange contentRange)).insert
              (.contentLength subLen)
        else some (resp.insert (.contentLength len))
    | .error _ => some (rangeNotSatisfiable len)
  | .error _ => some notFound

def checkedCacheReply (item : CacheItem) (bytes : List UInt8) (range : Option Range)
    (modified : Option LastModified) : Option Response :=
  let len := bytes.length
  match bytesRange range len with
  | .ok (start, stop) =>
    (checkedSub stop start).bind fun subLen => (slice bytes start stop).bind fun body =>
      let resp := Response.new body
      let resp :=
        if subLen ≠ len then
          (ContentRange.ofInterval start stop len).map fun contentRange =>
            ((resp.withStatus 206).insert (.contentRange contentRange)).insert
              (.contentLength subLen)
        else some (resp.insert (.contentLength len))
      resp.map fun resp => cacheItemToResponseHeader resp item modified
  | .error _ => some (rangeNotSatisfiable len)

theorem ofInterval_of_part {range : Option Range} {len start stop : Nat}
    (h : bytesRange range len = .ok (start, stop)) (hpart : stop - start ≠ len) :
    start < stop ∧ ContentRange.ofInterval start stop len = some (.bytes start (stop - 1) len) := by
  rcases bytesRange_cases h with ⟨rfl, rfl⟩ | ⟨hlt, _⟩
  · exact absurd (Nat.sub_zero _) hpart
  · refine ⟨hlt, ?_⟩
    unfold ContentRange.ofInterval
    rw [checkedSub_of_le (Nat.one_le_of_lt hlt), Option.map_some]

section Replies

variable {warp : Warp} {item : CacheItem} {modified : Option LastModified}

/-- **No reply from a file fails.** -/
theorem checkedFileReply_eq (dk : Disk) (path : PathBuf) (range : Option Range) :
    checkedFileReply warp dk item path range modified =
      some (fileReply warp dk item path range modified) := by
  unfold checkedFileReply fileReply
  dsimp only
  cases dk.openFile path with
  | error e => rfl
  | ok file =>
    dsimp only
    cases hrange : bytesRange range item.fileMeta.len with
    | error e => rfl
    | ok interval =>
      obtain ⟨start, stop⟩ := interval
      dsimp only
      rw [checkedSub_of_le (bytesRange_le hrange).1, Option.bind_some]
      by_cases hpart : stop - start ≠ item.fileMeta.len
      · rw [if_pos hpart, if_pos hpart, (ofInterval_of_part hrange hpart).2, Option.map_some]
      · rw [if_neg hpart, if_neg hpart]

/-- **No reply from memory fails.** -/
theorem checkedCacheReply_eq (bytes : List UInt8) (range : Option Range) :
    checkedCacheReply item bytes range modified =
      some (cacheReply item bytes range modified) := by
  unfold checkedCacheReply cacheReply
  dsimp only
  cases hrange : bytesRange range bytes.length with
  | error e => rfl
  | ok interval =>
    obtain ⟨start, stop⟩ := interval
    obtain ⟨hle, hstop⟩ := bytesRange_le hrange
    dsimp only
    rw [checkedSub_of_le hle, Option.bind_some, slice_eq hle hstop, Option.bind_some]
    by_cases hpart : stop - start ≠ bytes.length
    · rw [if_pos hpart, if_pos hpart, (ofInterval_of_part hrange hpart).2, Option.map_some,
        Option.map_some]
    · rw [if_neg hpart, if_neg hpart, Option.map_some]

/-! ### Replies that are exact -/

/-- The status, body and headers of a reply with a satisfiable range. -/
structure ReplyOf (bytes : List UInt8) (start stop : Nat) (resp : Response) : Prop where
  body : resp.body = (bytes.drop start).take (stop - start)
  contentLength : resp.headers .contentLength = some (.contentLength (stop - start))
  whole : stop - start = bytes.length → resp.status = 200
  part : stop - start ≠ bytes.length → resp.status = 206 ∧ start < stop ∧
    resp.headers .contentRange = some (.contentRange (.bytes start (stop - 1) bytes.length))

section Intervals

variable {bytes : List UInt8} {range : Option Range} {start stop : Nat}

theorem cacheReply_part (h : bytesRange range bytes.length = .ok (start, stop))
    (hpart : stop - start ≠ bytes.length) :
    cacheReply item bytes range modified = cacheItemToResponseHeader
      ((((Response.new ((bytes.drop start).take (stop - start))).withStatus 206).insert
        (.contentRange (.bytes start (stop - 1) bytes.length))).insert
          (.contentLength (stop - start))) item modified := by
  unfold cacheReply
  dsimp only
  rw [h]
  dsimp only
  rw [if_pos hpart]

theorem cacheReply_all (h : bytesRange range bytes.length = .ok (start, stop))
    (hall : stop - start = bytes.length) :
    cacheReply item bytes range modified = cacheItemToResponseHeader
      ((Response.new ((bytes.drop start).take (stop - start))).insert
        (.contentLength bytes.length)) item modified := by
  unfold cacheReply
  dsimp only
  rw [h]
  dsimp only
  rw [if_neg (not_not.mpr hall)]

theorem cacheReply_error {e : BadRange} (h : bytesRange range bytes.length = .error e) :
    cacheReply item bytes range modified = rangeNotSatisfiable bytes.length := by
  unfold cacheReply
  dsimp only
  rw [h]

theorem cacheReply_ok (h : bytesRange range bytes.length = .ok (start, stop)) :
    ReplyOf bytes start stop (cacheReply item bytes range modified) := by
  by_cases hpart : stop - start ≠ bytes.length
  · rw [cacheReply_part h hpart]
    refine ⟨?_, ?_, fun hall => absurd hall hpart, fun _ => ⟨?_, (ofInterval_of_part h hpart).1, ?_⟩⟩
    · rw [cacheItemToResponseHeader_body]
      rfl
    · rw [cacheItemToResponseHeader_headers (by decide)]
      rfl
    · rw [cacheItemToResponseHeader_status]
      rfl
    · rw [cacheItemToResponseHeader_headers (by decide)]
      rfl
  · have hall := not_not.mp hpart
    rw [cacheReply_all h hall]
    refine ⟨?_, ?_, fun _ => ?_, fun hne => absurd hall hne⟩
    · rw [cacheItemToResponseHeader_body]
      rfl
    · rw [cacheItemToResponseHeader_headers (by decide), hall]
      rfl
    · rw [cacheItemToResponseHeader_status]
      rfl

end Intervals

/-- The range of the header `bytes=first-last`. -/
def rangeOf (piece : Nat × Nat) : Option Range := some [(.included piece.1, .included piece.2)]

theorem bytesRange_rangeOf {len : Nat} (hlen : len < 2 ^ 64) {piece : Nat × Nat}
    (hle : piece.1 ≤ piece.2) (hlast : piece.2 < len) :
    bytesRange (rangeOf piece) len = .ok (piece.1, piece.2 + 1) := by
  have hend : rangeEnd len (.included piece.2) = piece.2 + 1 :=
    rangeEnd_of_checked ((checkedEnd_of_ne (Nat.ne_of_lt hlast)).trans
      (checkedAdd_of_lt (by omega)))
  show (if _ then _ else _) = _
  rw [hend, if_pos ⟨Nat.lt_succ_of_le hle, hlast⟩]
  rfl

/-- What the replies that are made from these bytes must be. -/
structure ExactReplies (bytes : List UInt8) (reply : Option Range → Response) : Prop where
  /-- A 200 or 206 is the reply of an interval, and 206 exactly when it is a part. -/
  interval : ∀ range, (reply range).status = 200 ∨ (reply range).status = 206 →
    ∃ start stop, bytesRange range bytes.length = .ok (start, stop) ∧
      start ≤ stop ∧ stop ≤ bytes.length ∧
      (reply range).body = (bytes.drop start).take (stop - start) ∧
      (reply range).headers .contentLength = some (.contentLength (stop - start)) ∧
      ((reply range).status = 206 ↔ stop - start ≠ bytes.length) ∧
      (stop - start ≠ bytes.length → start < stop ∧ (reply range).headers .contentRange =
        some (.contentRange (.bytes start (stop - 1) bytes.length)))
  /-- The replies to the pieces of a partition make up the bytes. -/
  pieces : ∀ pieces, Tiles 0 pieces bytes.length →
    (pieces.flatMap fun piece => (reply (rangeOf piece)).body) = bytes

theorem cacheReply_exact {bytes : List UInt8} (hlen : bytes.length < 2 ^ 64) :
    ExactReplies bytes fun range => cacheReply item bytes range modified where
  interval range hstatus := by
    cases hrange : bytesRange range bytes.length with
    | error e =>
      rw [cacheReply_error hrange] at hstatus
      have h416 : (rangeNotSatisfiable bytes.length).status = 416 := rfl
      rw [h416] at hstatus
      exact absurd hstatus (by decide)
    | ok interval =>
      obtain ⟨start, stop⟩ := interval
      obtain ⟨hle, hstop⟩ := bytesRange_le hrange
      have hreply : ReplyOf bytes start stop (cacheReply item bytes range modified) :=
        cacheReply_ok hrange
      refine ⟨start, stop, rfl, hle, hstop, hreply.body, hreply.contentLength, ⟨?_, ?_⟩, ?_⟩
      · intro hpart hwhole
        exact absurd (hpart.symm.trans (hreply.whole hwhole)) (by decide)
      · intro hne
        exact (hreply.part hne).1
      · intro hne
        exact (hreply.part hne).2
  pieces pieces htiles := by
    have hpiece : ∀ piece ∈ pieces, (cacheReply item bytes (rangeOf piece) modified).body =
        (bytes.drop piece.1).take (piece.2 + 1 - piece.1) := by
      intro piece hmem
      obtain ⟨hle, hlast⟩ := htiles.of_mem hmem
      exact (cacheReply_ok (bytesRange_rangeOf hlen hle hlast)).body
    rw [List.flatMap_congr hpiece, tiles_flatten bytes htiles, Nat.sub_zero, List.drop_zero,
      List.take_length]

/-- **Every reply is exact.**  Neither reply fails, and both, from the bytes in memory and from the
file on the disk, are exact for every range and every partition. -/
theorem replies_exact (hwarp : warp.Documented) {bytes : List UInt8}
    (hlen : bytes.length < 2 ^ 64) (item : CacheItem) (modified : Option LastModified) :
    ((∀ range, checkedCacheReply item bytes range modified =
        some (cacheReply item bytes range modified)) ∧
      ExactReplies bytes fun range => cacheReply item bytes range modified) ∧
    ∀ dk path,
      (∀ range, checkedFileReply warp dk item path range modified =
        some (fileReply warp dk item path range modified)) ∧
      ∀ f, dk.find path = some (.file f) → f.bytes = bytes → item.fileMeta.len = bytes.length →
        ExactReplies bytes fun range => fileReply warp dk item path range modified := by
  refine ⟨⟨checkedCacheReply_eq bytes, cacheReply_exact hlen⟩, fun dk path =>
    ⟨checkedFileReply_eq dk path, ?_⟩⟩
  intro f hfile hbytes hmeta
  subst hbytes
  have hsame : (fun range => fileReply warp dk item path range modified) =
      fun range => cacheReply item f.bytes range modified :=
    funext fun range => fileReply_eq_cacheReply hwarp hfile hmeta range
  rw [hsame]
  exact cacheReply_exact hlen

end Replies

/-- The first two bytes of the page are a part, and with the other three make it up. -/
theorem replies_exact_word :
    let memory range := cacheReply wordItem wordBytes range none
    let file range := fileReply .simple wordDisk wordItem "/srv/www.a.com/1/index.html".toList range none
    (memory (rangeOf (0, 1))).status = 206 ∧
    (memory (rangeOf (0, 1))).headers .contentRange = some (.contentRange (.bytes 0 1 5)) ∧
    ExactReplies wordBytes memory ∧ ExactReplies wordBytes file ∧
    (file (rangeOf (0, 1))).body ++ (file (rangeOf (2, 4))).body = wordBytes := by
  intro memory file
  have h := replies_exact Warp.simple_documented (by decide : wordBytes.length < 2 ^ 64) wordItem none
  have hfind : wordDisk.find "/srv/www.a.com/1/index.html".toList = some (.file ⟨wordBytes, 0⟩) := by
    decide +kernel
  have hfile : ExactReplies wordBytes file := (h.2 wordDisk _).2 _ hfind rfl rfl
  refine ⟨rfl, rfl, h.1.2, hfile, ?_⟩
  have hpieces := hfile.pieces [(0, 1), (2, 4)] ⟨rfl, by decide, rfl, by decide, rfl⟩
  simpa using hpieces

end SpaServer.Site
