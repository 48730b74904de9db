import Mathlib.Algebra.Group.Nat.Defs
import SpaServer.DomainStorage

/-!
# Answering with a file

`static_file_filter.rs`: how a cached item becomes a response.  An item is answered from
memory (`cacheReply`), or its file is opened and streamed (`fileReply`) when it was too large
to be kept, or is kept compressed and the client does not take gzip.

`Conditionals::check` and `file_stream` are `warp`'s, and stay parameters (`Warp`); what is
relied on of them is `Warp.Documented`.  Header values are kept as what was inserted, not as
text, and a `HeaderMap` has at most one of each name, since nothing here appends.
-/

namespace SpaServer.Site

open Base

/-! ### Headers -/

abbrev LastModified := Nat

/-- `LastModified::from`, of a time in nanoseconds. -/
def LastModified.ofSystemTime (t : Nat) : LastModified := t / 10 ^ 9

inductive HeaderName where
  | contentType
  | acceptRanges
  | cacheControl
  | lastModified
  | contentRange
  | contentLength
  | contentEncoding
  | location
  | accessControlAllowCredentials
  | accessControlAllowMethods
  | accessControlMaxAge
  | accessControlAllowOrigin
  deriving DecidableEq

inductive CacheControl where
  | maxAge (seconds : Nat)
  | noCache
  deriving DecidableEq

/-- `Content-Range`; the second number of `bytes` is the last byte, as in the header. -/
inductive ContentRange where
  | bytes (first last len : Nat)
  | unsatisfiedBytes (len : Nat)
  deriving DecidableEq

inductive Header where
  | contentType (mime : Str)
  | acceptRangesBytes
  | cacheControl (c : CacheControl)
  | lastModified (t : LastModified)
  | contentRange (r : ContentRange)
  | contentLength (n : Nat)
  | contentEncodingGzip
  | location (uri : Str)
  | accessControlAllowCredentials
  | accessControlAllowMethods (methods : List Str)
  | accessControlMaxAge (seconds : Nat)
  | accessControlAllowOrigin (origin : List UInt8)
  deriving DecidableEq

def Header.name : Header → HeaderName
  | contentType _ => .contentType
  | acceptRangesBytes => .acceptRanges
  | cacheControl _ => .cacheControl
  | lastModified _ => .lastModified
  | contentRange _ => .contentRange
  | contentLength _ => .contentLength
  | contentEncodingGzip => .contentEncoding
  | location _ => .location
  | accessControlAllowCredentials => .accessControlAllowCredentials
  | accessControlAllowMethods _ => .accessControlAllowMethods
  | accessControlMaxAge _ => .accessControlMaxAge
  | accessControlAllowOrigin _ => .accessControlAllowOrigin

/-- The headers of a response by name; their order is no part of it. -/
abbrev HeaderMap := HeaderName → Option Header

/-- `HeaderMap::insert`, and with it `typed_insert`. -/
def HeaderMap.insert (m : HeaderMap) (h : Header) : HeaderMap := Function.update m h.name (some h)

theorem HeaderMap.insert_comm (m : HeaderMap) {h h' : Header} (hne : h.name ≠ h'.name) :
    (m.insert h).insert h' = (m.insert h').insert h :=
  Function.update_comm hne _ _ m

@[simp] theorem HeaderMap.insert_self (m : HeaderMap) (h : Header) : m.insert h h.name = some h :=
  Function.update_self ..

theorem HeaderMap.insert_of_ne (m : HeaderMap) {h : Header} {n : HeaderName} (hne : n ≠ h.name) :
    m.insert h n = m n := Function.update_of_ne hne ..

/-! ### Responses -/

structure Response where
  status : Nat
  headers : HeaderMap
  body : List UInt8

def Response.new (body : List UInt8) : Response := ⟨200, fun _ => none, body⟩

def Response.withStatus (r : Response) (status : Nat) : Response := { r with status := status }

def Response.insert (r : Response) (h : Header) : Response := { r with headers := r.headers.insert h }

theorem Response.insert_comm (r : Response) {h h' : Header} (hne : h.name ≠ h'.name) :
    (r.insert h).insert h' = (r.insert h').insert h := by
  unfold Response.insert
  rw [r.headers.insert_comm hne]

theorem Response.insert_withStatus (r : Response) (h : Header) (status : Nat) :
    (r.insert h).withStatus status = (r.withStatus status).insert h := rfl

/-- `service::not_found`. -/
def notFound : Response := (Response.new []).withStatus 404

/-! ### Ranges -/

/-- `std::ops::Bound`, of a `u64`. -/
inductive Bound where
  | unbounded
  | included (n : Nat)
  | excluded (n : Nat)
  deriving DecidableEq

abbrev Range := List (Bound × Bound)

inductive BadRange where
  | badRange

/-- The successor of a `u64`, which wraps in a release build. -/
def succU64 (n : Nat) : Nat := (n + 1) % 2 ^ 64

def rangeStart : Bound → Nat
  | .unbounded => 0
  | .included s => s
  | .excluded s => succU64 s

def rangeEnd (maxLen : Nat) : Bound → Nat
  | .unbounded => maxLen
  | .included s => if s = maxLen then s else succU64 s
  | .excluded s => s

/-- `bytes_range`: only the first of several ranges counts. -/
def bytesRange (range : Option Range) (maxLen : Nat) : Except BadRange (Nat × Nat) :=
  match range with
  | none => .ok (0, maxLen)
  | some range =>
    match range.head? with
    | none => .ok (0, maxLen)
    | some (s, e) =>
      if rangeStart s < rangeEnd maxLen e ∧ rangeEnd maxLen e ≤ maxLen then
        .ok (rangeStart s, rangeEnd maxLen e)
      else .error .badRange

theorem bytesRange_cases {range : Option Range} {maxLen first stop : Nat}
    (h : bytesRange range maxLen = .ok (first, stop)) :
    first = 0 ∧ stop = maxLen ∨ first < stop ∧ stop ≤ maxLen := by
  have hwhole : (Except.ok (0, maxLen) : Except BadRange (Nat × Nat)) = .ok (first, stop) →
      first = 0 ∧ stop = maxLen ∨ first < stop ∧ stop ≤ maxLen := by
    intro he
    obtain ⟨rfl, rfl⟩ := Prod.mk.inj (Except.ok.inj he)
    exact Or.inl ⟨rfl, rfl⟩
  unfold bytesRange at h
  split at h
  · exact hwhole h
  split at h
  · exact hwhole h
  split at h
  case isTrue hle =>
    obtain ⟨rfl, rfl⟩ := Prod.mk.inj (Except.ok.inj h)
    exact Or.inr hle
  case isFalse => exact absurd h nofun

/-- **A range that is taken lies within the length.** -/
theorem bytesRange_le {range : Option Range} {maxLen first stop : Nat}
    (h : bytesRange range maxLen = .ok (first, stop)) : first ≤ stop ∧ stop ≤ maxLen := by
  rcases bytesRange_cases h with ⟨rfl, rfl⟩ | ⟨hlt, hle⟩
  · exact ⟨Nat.zero_le _, Nat.le_refl _⟩
  · exact ⟨Nat.le_of_lt hlt, hle⟩

/-! ### What `warp` does -/

inductive IfRange where
  | etag (tag : Str)
  | date (t : LastModified)
  deriving DecidableEq

structure Conditionals where
  ifModifiedSince : Option LastModified
  ifUnmodifiedSince : Option LastModified
  ifRange : Option IfRange
  range : Option Range

/-- `warp::fs::Cond`. -/
inductive Cond where
  | noBody (resp : Response)
  | withBody (range : Option Range)

/-- `Conditionals::check`, and what `file_stream` yields of a file with these bytes. -/
structure Warp where
  check : Conditionals → Option LastModified → Cond
  fileStream : List UInt8 → Nat × Nat → List UInt8

/-- What the server relies on: a range that `check` hands on is that of the request, and
`file_stream` yields the bytes of the interval. -/
structure Warp.Documented (warp : Warp) : Prop where
  check : ∀ conditionals modified range, warp.check conditionals modified = .withBody range →
    range = none ∨ range = conditionals.range
  fileStream : ∀ bytes first stop, first ≤ stop → stop ≤ bytes.length →
    warp.fileStream bytes (first, stop) = (bytes.drop first).take (stop - first)

/-! ### Replies -/

/-- What can be read through a handle.  A directory opens, but reading it yields nothing. -/
def contents (dk : Disk) (h : Handle) : List UInt8 :=
  match dk.node h.loc with
  | some (.file f) => f.bytes
  | _ => []

def cacheItemToResponseHeader (resp : Response) (item : CacheItem)
    (modified : Option LastModified) : Response :=
  let resp := (resp.insert (.contentType item.mime)).insert .acceptRangesBytes
  let resp := match item.expire with
    | some expire =>
      if expire ≠ 0 then resp.insert (.cacheControl (.maxAge (expire / 10 ^ 9)))
      else resp.insert (.cacheControl .noCache)
    | none => resp
  match modified with
  | some t => resp.insert (.lastModified t)
  | none => resp

/-- The end of both replies, for a range that is not in the file. -/
def rangeNotSatisfiable (len : Nat) : Response :=
  ((Response.new []).withStatus 416).insert (.contentRange (.unsatisfiedBytes len))

def fileReply (warp : Warp) (dk : Disk) (item : CacheItem) (path : PathBuf)
    (range : Option Range) (modified : Option LastModified) : Response :=
  let len := item.fileMeta.len
  match dk.openFile path with
  | .ok file =>
    match bytesRange range len with
    | .ok (first, stop) =>
      let subLen := stop - first
      let body := warp.fileStream (contents dk file) (first, stop)
      let resp := cacheItemToResponseHeader (.new body) item modified
      if subLen ≠ len then
        ((resp.withStatus 206).insert (.contentRange (.bytes first (stop - 1) len))).insert
          (.contentLength subLen)
      else resp.insert (.contentLength len)
    | .error _ => rangeNotSatisfiable len
  | .error _ => notFound

def cacheReply (item : CacheItem) (bytes : List UInt8) (range : Option Range)
    (modified : Option LastModified) : Response :=
  let len := bytes.length
  match bytesRange range len with
  | .ok (first, stop) =>
    let subLen := stop - first
    let resp := Response.new ((bytes.drop first).take (stop - first))
    let resp :=
      if subLen ≠ len then
        ((resp.withStatus 206).insert (.contentRange (.bytes first (stop - 1) len))).insert
          (.contentLength subLen)
      else resp.insert (.contentLength len)
    cacheItemToResponseHeader resp item modified
  | .error _ => rangeNotSatisfiable len

/-- The client takes gzip: the text of `Accept-Encoding` has `gzip` in it somewhere. -/
def acceptsGzip (acceptEncoding : Option Str) : Bool :=
  acceptEncoding.any fun x => decide ("gzip".toList <:+: x)

def cacheOrFileReply (warp : Warp) (dk : Disk) (item : CacheItem) (conditionals : Conditionals)
    (acceptEncoding : Option Str) : Response :=
  let modified := some (LastModified.ofSystemTime item.fileMeta.modified)
  match warp.check conditionals modified with
  | .noBody resp => resp
  | .withBody range =>
    match item.data with
    | .cacheBlock bytes compressed path =>
      if !acceptsGzip acceptEncoding && compressed then
        fileReply warp dk item path range modified
      else
        let resp := cacheReply item bytes range modified
        if acceptsGzip acceptEncoding && compressed then resp.insert .contentEncodingGzip else resp
    | .fileBlock path => fileReply warp dk item path range modified

/-! ### Finding the item -/

/-- `sanitize_path` of this file: the decoded path, if no segment is unsafe. -/
def sanitizePath (tail : Str) : Except Response Str :=
  match percentDecode tail with
  | some p => if ∀ seg ∈ p.splitOn '/', SafeSegment seg then .ok p else .error notFound
  | none => .error notFound

/-- `get_cache_file`.  The path of a URI is empty or begins with a character of one byte, so
the slice from 1 on drops that character. -/
def getCacheFile (tail host : Str) (storage : DomainStorage) : Except Response (Str × CacheItem) :=
  match sanitizePath tail with
  | .error resp => .error resp
  | .ok s =>
    let key := if s = "/".toList ∨ s = [] then "index.html".toList else s.drop 1
    match storage.cache.getItem host key with
    | some item => .ok (key, item)
    | none => .error notFound

end SpaServer.Site
