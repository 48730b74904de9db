import SpaServer.CacheKeys
import SpaServer.Site.StaticFile

/-!
# The three ways a file is kept

By the settings of a domain a file of its version directory is left on the disk, kept in
memory, or kept compressed in memory.  `fileReply` and `cacheReply` are written apart, each
with its own length and its own order of headers.

* `fileReply_eq_cacheReply`: on the same bytes they answer the same.
* `reply_plain`: to a client that does not take gzip every way of keeping a file gives the
  reply with the bytes of the file themselves (`plainReply`).
* `reply_decoded`: to one that does, and that asks for no range, the reply decodes to it.
* `cacheDir_alike`: under two settings with the same client cache, a key leads to the same file.

`replies_agree` puts them together.
-/

namespace SpaServer.Site

open Base

variable {crates : Crates} {warp : Warp}

/-! ### The headers of an item -/

/-- The headers that `cacheItemToResponseHeader` inserts, in order. -/
def itemHeaders (item : CacheItem) (modified : Option LastModified) : List Header :=
  [.contentType item.mime, .acceptRangesBytes] ++
    (item.expire.map fun expire =>
      .cacheControl (if expire ≠ 0 then .maxAge (expire / 10 ^ 9) else .noCache)).toList ++
    (modified.map .lastModified).toList

theorem cacheItemToResponseHeader_eq (resp : Response) (item : CacheItem)
    (modified : Option LastModified) : cacheItemToResponseHeader resp item modified =
      (itemHeaders item modified).foldl Response.insert resp := by
  unfold cacheItemToResponseHeader itemHeaders
  cases item.expire with
  | none => cases modified <;> rfl
  | some expire =>
    by_cases hzero : expire ≠ 0
    · simp only [if_pos hzero, Option.map_some]
      cases modified <;> rfl
    · simp only [if_neg hzero, Option.map_some]
      cases modified <;> rfl

/-- None of them is about the body. -/
theorem name_of_mem_itemHeaders {item : CacheItem} {modified : Option LastModified} {h : Header}
    (hmem : h ∈ itemHeaders item modified) :
    h.name ∈ [HeaderName.contentType, .acceptRanges, .cacheControl, .lastModified] := by
  unfold itemHeaders at hmem
  rcases List.mem_append.mp hmem with hmem | hmem
  · rcases List.mem_append.mp hmem with hmem | hmem
    · rcases List.mem_pair.mp hmem with rfl | rfl
      · simp [Header.name]
      · simp [Header.name]
    · obtain ⟨expire, _, rfl⟩ := Option.map_eq_some_iff.mp (Option.mem_toList.mp hmem)
      simp [Header.name]
  · obtain ⟨t, _, rfl⟩ := Option.map_eq_some_iff.mp (Option.mem_toList.mp hmem)
    simp [Header.name]

theorem foldl_insert_comm {h : Header} {hs : List Header} (hne : ∀ h' ∈ hs, h.name ≠ h'.name)
    (resp : Response) :
    hs.foldl Response.insert (resp.insert h) = (hs.foldl Response.insert resp).insert h := by
  induction hs generalizing resp with
  | nil => rfl
  | cons h' hs ih =>
    rw [List.foldl_cons, List.foldl_cons, resp.insert_comm (hne h' List.mem_cons_self),
      ih fun k hk => hne k (List.mem_cons_of_mem _ hk)]

theorem foldl_withStatus (hs : List Header) (resp : Response) (status : Nat) :
    hs.foldl Response.insert (resp.withStatus status) =
      (hs.foldl Response.insert resp).withStatus status := by
  induction hs generalizing resp with
  | nil => rfl
  | cons h hs ih =>
    rw [List.foldl_cons, List.foldl_cons, ← resp.insert_withStatus, ih]

theorem foldl_insert_body (hs : List Header) (resp : Response) :
    (hs.foldl Response.insert resp).body = resp.body := by
  induction hs generalizing resp with
  | nil => rfl
  | cons h hs ih => exact ih (resp.insert h)

theorem foldl_insert_status (hs : List Header) (resp : Response) :
    (hs.foldl Response.insert resp).status = resp.status := by
  induction hs generalizing resp with
  | nil => rfl
  | cons h hs ih => exact ih (resp.insert h)

theorem foldl_insert_headers {n : HeaderName} {hs : List Header} (hne : ∀ h ∈ hs, n ≠ h.name)
    (resp : Response) : (hs.foldl Response.insert resp).headers n = resp.headers n := by
  induction hs generalizing resp with
  | nil => rfl
  | cons h hs ih =>
    rw [List.foldl_cons, ih fun k hk => hne k (List.mem_cons_of_mem _ hk)]
    exact HeaderMap.insert_of_ne _ (hne h List.mem_cons_self)

section Item

variable {item : CacheItem} {modified : Option LastModified}

/-- A header about the body can be inserted before those of the item or after them. -/
theorem cacheItemToResponseHeader_insert {h : Header}
    (hname : h.name ∉ [HeaderName.contentType, .acceptRanges, .cacheControl, .lastModified])
    (resp : Response) : cacheItemToResponseHeader (resp.insert h) item modified =
      (cacheItemToResponseHeader resp item modified).insert h := by
  rw [cacheItemToResponseHeader_eq, cacheItemToResponseHeader_eq]
  exact foldl_insert_comm (fun h' hmem he => hname (he ▸ name_of_mem_itemHeaders hmem)) resp

theorem cacheItemToResponseHeader_withStatus (resp : Response) (status : Nat) :
    cacheItemToResponseHeader (resp.withStatus status) item modified =
      (cacheItemToResponseHeader resp item modified).withStatus status := by
  rw [cacheItemToResponseHeader_eq, cacheItemToResponseHeader_eq, foldl_withStatus]

theorem cacheItemToResponseHeader_status (resp : Response) :
    (cacheItemToResponseHeader resp item modified).status = resp.status := by
  rw [cacheItemToResponseHeader_eq, foldl_insert_status]

theorem cacheItemToResponseHeader_body (resp : Response) :
    (cacheItemToResponseHeader resp item modified).body = resp.body := by
  rw [cacheItemToResponseHeader_eq, foldl_insert_body]

theorem cacheItemToResponseHeader_headers {n : HeaderName}
    (hname : n ∉ [HeaderName.contentType, .acceptRanges, .cacheControl, .lastModified])
    (resp : Response) :
    (cacheItemToResponseHeader resp item modified).headers n = resp.headers n := by
  rw [cacheItemToResponseHeader_eq, foldl_insert_headers]
  intro h hmem he
  exact hname (he ▸ name_of_mem_itemHeaders hmem)

/-! ### The two replies -/

theorem contents_of_file {dk : Disk} {x : PathBuf} {f : FileData}
    (h : dk.find x = some (.file f)) :
    ∃ file, dk.openFile x = .ok file ∧ contents dk file = f.bytes := by
  refine ⟨⟨dk.locate x, false⟩, ?_, ?_⟩
  · unfold Disk.openFile Disk.exists?
    rw [h]
    rfl
  · unfold contents
    rw [(Disk.find_eq_file h).2.2]

/-- **The two replies are one**: from the file on the disk and from its bytes in memory. -/
theorem fileReply_eq_cacheReply (hwarp : warp.Documented) {dk : Disk} {x : PathBuf} {f : FileData}
    (hfile : dk.find x = some (.file f)) (hlen : item.fileMeta.len = f.bytes.length)
    (range : Option Range) :
    fileReply warp dk item x range modified = cacheReply item f.bytes range modified := by
  obtain ⟨file, hopen, hcontents⟩ := contents_of_file hfile
  unfold fileReply cacheReply
  rw [hopen, hlen]
  dsimp only
  cases hrange : bytesRange range f.bytes.length with
  | error e => rfl
  | ok interval =>
    obtain ⟨first, stop⟩ := interval
    obtain ⟨hle, hstop⟩ := bytesRange_le hrange
    dsimp only
    rw [hcontents, hwarp.fileStream _ _ _ hle hstop]
    -- the headers of the item come first in the one reply and last in the other
    split
    · rw [cacheItemToResponseHeader_insert (by decide : HeaderName.contentLength ∉ _),
        cacheItemToResponseHeader_insert (by decide : HeaderName.contentRange ∉ _),
        cacheItemToResponseHeader_withStatus]
    · rw [cacheItemToResponseHeader_insert (by decide : HeaderName.contentLength ∉ _)]

theorem cacheReply_encoding (bytes : List UInt8) (range : Option Range) :
    (cacheReply item bytes range modified).headers .contentEncoding = none := by
  have hkeep : ∀ resp : Response, resp.headers .contentEncoding = none →
      (cacheItemToResponseHeader resp item modified).headers .contentEncoding = none := by
    intro resp h
    rw [cacheItemToResponseHeader_headers (by decide), h]
  unfold cacheReply
  dsimp only
  cases bytesRange range bytes.length with
  | error e => rfl
  | ok interval =>
    dsimp only
    apply hkeep
    split
    · rfl
    · rfl

theorem cacheReply_whole (bytes : List UInt8) :
    (cacheReply item bytes none modified).body = bytes := by
  unfold cacheReply bytesRange
  dsimp only
  rw [Nat.sub_zero, if_neg (not_not.mpr rfl), cacheItemToResponseHeader_body]
  show (bytes.drop 0).take bytes.length = bytes
  rw [List.drop_zero, List.take_length]

end Item

/-! ### The reply with the file itself -/

/-- The reply with these bytes, whatever way they are kept. -/
def plainReply (warp : Warp) (item : CacheItem) (bytes : List UInt8)
    (conditionals : Conditionals) : Response :=
  let modified := some (LastModified.ofSystemTime item.fileMeta.modified)
  match warp.check conditionals modified with
  | .noBody resp => resp
  | .withBody range => cacheReply item bytes range modified

section Checked

variable {item : CacheItem} {conditionals : Conditionals}

theorem plainReply_noBody {resp : Response} (h : warp.check conditionals
    (some (LastModified.ofSystemTime item.fileMeta.modified)) = .noBody resp)
    (bytes : List UInt8) : plainReply warp item bytes conditionals = resp := by
  unfold plainReply
  dsimp only
  rw [h]

theorem plainReply_withBody {range : Option Range} (h : warp.check conditionals
    (some (LastModified.ofSystemTime item.fileMeta.modified)) = .withBody range)
    (bytes : List UInt8) : plainReply warp item bytes conditionals =
      cacheReply item bytes range (some (LastModified.ofSystemTime item.fileMeta.modified)) := by
  unfold plainReply
  dsimp only
  rw [h]

end Checked

/-- The body without its content encoding. -/
def decoded (gunzip : List UInt8 → List UInt8) (resp : Response) : List UInt8 :=
  if resp.headers .contentEncoding = some .contentEncodingGzip then gunzip resp.body else resp.body

theorem Response.insert_gzip (resp : Response) :
    (resp.insert .contentEncodingGzip).headers .contentEncoding = some .contentEncodingGzip :=
  resp.headers.insert_self .contentEncodingGzip

theorem decoded_gzip (gunzip : List UInt8 → List UInt8) (resp : Response) :
    decoded gunzip (resp.insert .contentEncodingGzip) = gunzip resp.body :=
  if_pos resp.insert_gzip

theorem decoded_of_none (gunzip : List UInt8 → List UInt8) {resp : Response}
    (h : resp.headers .contentEncoding = none) : decoded gunzip resp = resp.body := by
  unfold decoded
  rw [h, if_neg nofun]

section Kept

variable {dk : Disk} {x : PathBuf} {f : FileData} {item : CacheItem} {conditionals : Conditionals}
  {acceptEncoding : Option Str}

/-- **The reply is that with the bytes of the file**, unless they are kept compressed and the
client is taken to accept that. -/
theorem reply_own (hwarp : warp.Documented) (hfile : dk.find x = some (.file f))
    (hitem : HoldsFile crates x f item)
    (hown : (acceptsGzip acceptEncoding && item.data.isCompressed) = false) :
    cacheOrFileReply warp dk item conditionals acceptEncoding =
      plainReply warp item f.bytes conditionals := by
  have hlen : item.fileMeta.len = f.bytes.length := by rw [hitem.fileMeta]
  have hdata := hitem.data
  unfold cacheOrFileReply plainReply
  dsimp only
  cases warp.check conditionals _ with
  | noBody resp => rfl
  | withBody range =>
    dsimp only
    cases hd : item.data with
    | fileBlock path =>
      rw [hd] at hdata
      obtain rfl : path = x := hdata
      exact fileReply_eq_cacheReply hwarp hfile hlen range
    | cacheBlock bytes compressed path =>
      rw [hd] at hdata hown
      obtain ⟨rfl, rfl⟩ := hdata
      cases compressed with
      | true =>
        rw [(Bool.and_true _).symm.trans hown]
        exact fileReply_eq_cacheReply hwarp hfile hlen range
      | false =>
        dsimp only
        rw [Bool.and_false, Bool.and_false]
        rfl

theorem reply_plain (hwarp : warp.Documented) (hfile : dk.find x = some (.file f))
    (hitem : HoldsFile crates x f item) (hgzip : acceptsGzip acceptEncoding = false) :
    cacheOrFileReply warp dk item conditionals acceptEncoding =
      plainReply warp item f.bytes conditionals :=
  reply_own hwarp hfile hitem (by rw [hgzip, Bool.false_and])

theorem reply_noBody {resp : Response} (h : warp.check conditionals
    (some (LastModified.ofSystemTime item.fileMeta.modified)) = .noBody resp) :
    cacheOrFileReply warp dk item conditionals acceptEncoding = resp := by
  unfold cacheOrFileReply
  dsimp only
  rw [h]

theorem reply_compressed {bytes : List UInt8} {path : PathBuf} {range : Option Range}
    (hdata : item.data = .cacheBlock bytes true path) (hgzip : acceptsGzip acceptEncoding = true)
    (h : warp.check conditionals (some (LastModified.ofSystemTime item.fileMeta.modified)) =
      .withBody range) :
    cacheOrFileReply warp dk item conditionals acceptEncoding =
      (cacheReply item bytes range
        (some (LastModified.ofSystemTime item.fileMeta.modified))).insert .contentEncodingGzip := by
  unfold cacheOrFileReply
  dsimp only
  rw [h, hdata, hgzip]
  rfl

/-- **With gzip and no range the reply decodes to that with the bytes of the file.** -/
theorem reply_decoded (hwarp : warp.Documented) {gunzip : List UInt8 → List UInt8}
    (hgunzip : ∀ bytes, gunzip (crates.gzip bytes) = bytes)
    (hfile : dk.find x = some (.file f)) (hitem : HoldsFile crates x f item)
    (hgzip : acceptsGzip acceptEncoding = true) (hrange : conditionals.range = none) :
    decoded gunzip (cacheOrFileReply warp dk item conditionals acceptEncoding) =
      decoded gunzip (plainReply warp item f.bytes conditionals) := by
  by_cases hkept : item.data.isCompressed = true
  · obtain ⟨path, hdata⟩ := hitem.compressed hkept
    cases hcheck : warp.check conditionals
        (some (LastModified.ofSystemTime item.fileMeta.modified)) with
    | noBody resp => rw [reply_noBody hcheck, plainReply_noBody hcheck]
    | withBody range =>
      -- there is no range to hand on
      obtain rfl : range = none := by
        rcases hwarp.check _ _ _ hcheck with h | h
        · exact h
        · exact h.trans hrange
      rw [reply_compressed hdata hgzip hcheck, plainReply_withBody hcheck, decoded_gzip,
        decoded_of_none gunzip (cacheReply_encoding f.bytes none), cacheReply_whole,
        cacheReply_whole, hgunzip]
  · rw [reply_own hwarp hfile hitem (by rw [eq_false_of_ne_true hkept, Bool.and_false])]

end Kept

/-! ### Two settings -/

/-- Two items of the file `f` at `x`, which differ at most in the way it is kept. -/
structure SameFile (crates : Crates) (x : PathBuf) (f : FileData) (item item' : CacheItem) : Prop where
  left : HoldsFile crates x f item
  right : HoldsFile crates x f item'
  mime : item'.mime = item.mime
  expire : item'.expire = item.expire

theorem SameFile.plainReply {x : PathBuf} {f : FileData} {item item' : CacheItem}
    (h : SameFile crates x f item item') (bytes : List UInt8) (conditionals : Conditionals) :
    plainReply warp item' bytes conditionals = plainReply warp item bytes conditionals := by
  unfold Site.plainReply cacheReply cacheItemToResponseHeader
  rw [h.right.fileMeta, h.left.fileMeta, h.mime, h.expire]

section Settings

variable {s s' : CacheSettings} {d : Str} {dk : Disk} {root : PathBuf}

theorem expireConfig_eq (hclient : (s'.getDomainCacheConfig d).clientCache =
    (s.getDomainCacheConfig d).clientCache) :
    s'.getDomainExpireConfig d = s.getDomainExpireConfig d := by
  unfold CacheSettings.getDomainExpireConfig
  rw [hclient]

/-- **A key leads to the same file** under two settings with the same client cache. -/
theorem cacheDir_alike (hroot : IsRoot root) (hclient : (s'.getDomainCacheConfig d).clientCache =
    (s.getDomainCacheConfig d).clientCache) (key : Str) :
    Option.Rel (fun item item' => ∃ names f, FileAt dk root names f ∧
        SameFile crates (root ++ slashed names) f item item')
      (s.cacheDir crates dk d root key) (s'.cacheDir crates dk d root key) := by
  refine DashMap.collect_rel (List.rel_filterMap (R := fun e e' => e = e' ∧ e ∈ dk.walkDir root none)
    ?_ (List.forall₂_same.mpr fun e he => ⟨rfl, he⟩)) key
  rintro e _ ⟨rfl, he⟩
  cases hn : e.node with
  | dir =>
    unfold CacheSettings.cacheEntry
    rw [hn]
    exact .none
  | file f =>
    cases hx : e.text with
    | none =>
      unfold CacheSettings.cacheEntry
      rw [hn, hx]
      exact .none
    | some x =>
      obtain ⟨names, hfile, _, rfl⟩ := fileAt_of_entry hroot he hn hx
      obtain ⟨item, hitem, hmime, hexpire⟩ := @cacheEntry_file crates s d root e f _ hn hx
      obtain ⟨item', hitem', hmime', hexpire'⟩ := @cacheEntry_file crates s' d root e f _ hn hx
      obtain ⟨_, _, hf, ht, _, hholds⟩ := cacheEntry_spec hitem
      obtain ⟨_, _, hf', ht', _, hholds'⟩ := cacheEntry_spec hitem'
      rw [hn] at hf hf'
      rw [hx] at ht ht'
      obtain rfl := Node.file.inj hf
      obtain rfl := Node.file.inj hf'
      obtain rfl := Option.some.inj ht
      obtain rfl := Option.some.inj ht'
      rw [hitem, hitem']
      refine .some ⟨rfl, names, _, hfile, hholds, hholds', hmime'.trans hmime.symm, ?_⟩
      rw [hexpire', hexpire, expireConfig_eq hclient]

end Settings

/-- A file of a version directory is found as long as the directory is left alone. -/
theorem find_versionFile {dk now : Disk} {fileDir : PathBuf} {d : Str} {v : UInt32}
    (hsame : dk.SameBelow now (getVersionPath fileDir d v)) {names : List Str} {f : FileData}
    (hfile : FileAt dk (getVersionPath fileDir d v) names f) :
    now.find (getVersionPath fileDir d v ++ slashed names) = some (.file f) := by
  have hroot := isRoot_versionPath fileDir d v
  rw [hsame.find (by rw [hfile.locate hroot]; exact List.prefix_append _ _)]
  exact hfile.find hroot (mustBeDir_push_plain (plain_toDecimal v) _)

/-- **The replies agree**, for a version directory as it was cached: a key that one setting
caches the other caches too, a client that does not take gzip gets the same response, and one
that does and asks for no range the same body once it is decoded. -/
theorem replies_agree (hwarp : warp.Documented) {gunzip : List UInt8 → List UInt8}
    (hgunzip : ∀ bytes, gunzip (crates.gzip bytes) = bytes) {s s' : CacheSettings} {d : Str}
    (hclient : (s'.getDomainCacheConfig d).clientCache = (s.getDomainCacheConfig d).clientCache)
    {dk now : Disk} {fileDir : PathBuf} {v : UInt32}
    (hsame : dk.SameBelow now (getVersionPath fileDir d v)) {key : Str} {item : CacheItem}
    (hitem : s.cacheDir crates dk d (getVersionPath fileDir d v) key = some item) :
    ∃ item', s'.cacheDir crates dk d (getVersionPath fileDir d v) key = some item' ∧
      ∀ conditionals acceptEncoding,
        (acceptsGzip acceptEncoding = false →
          cacheOrFileReply warp now item' conditionals acceptEncoding =
            cacheOrFileReply warp now item conditionals acceptEncoding) ∧
        (acceptsGzip acceptEncoding = true → conditionals.range = none →
          decoded gunzip (cacheOrFileReply warp now item' conditionals acceptEncoding) =
            decoded gunzip (cacheOrFileReply warp now item conditionals acceptEncoding)) := by
  have hroot := isRoot_versionPath fileDir d v
  have halike := @cacheDir_alike crates s s' d dk _ hroot hclient key
  rw [hitem] at halike
  cases hitem' : s'.cacheDir crates dk d (getVersionPath fileDir d v) key with
  | none =>
    rw [hitem'] at halike
    exact absurd halike nofun
  | some item' =>
    rw [hitem'] at halike
    cases halike with
    | some halike =>
    obtain ⟨names, f, hfile, hpair⟩ := halike
    have hfind := find_versionFile hsame hfile
    refine ⟨item', rfl, fun conditionals acceptEncoding => ⟨fun hgzip => ?_, fun hgzip hrange => ?_⟩⟩
    · rw [reply_plain hwarp hfind hpair.right hgzip, reply_plain hwarp hfind hpair.left hgzip,
        hpair.plainReply]
    · rw [reply_decoded hwarp hgunzip hfind hpair.right hgzip hrange,
        reply_decoded hwarp hgunzip hfind hpair.left hgzip hrange, hpair.plainReply]

/-- The texts `a` and `hello`, as the encoder compresses them. -/
def letterGzip : List UInt8 :=
  [0x1f, 0x8b, 8, 0, 0, 0, 0, 0, 0, 0xff, 0x4b, 4, 0, 0x43, 0xbe, 0xb7, 0xe8, 1, 0, 0, 0]

def wordBytes : List UInt8 := [104, 101, 108, 108, 111]

def wordGzip : List UInt8 :=
  [0x1f, 0x8b, 8, 0, 0, 0, 0, 0, 0, 0xff, 0xcb, 0x48, 0xcd, 0xc9, 0xc9, 7, 0, 0x86, 0xa6, 0x10, 0x36,
    5, 0, 0, 0]

/-- Crates that compress these texts, and only mark any other. -/
def letterCrates : Crates :=
  { Crates.simple with
    gzip := fun bytes =>
      if bytes = [97] then letterGzip else if bytes = wordBytes then wordGzip else 0 :: bytes }

def letterGunzip (bytes : List UInt8) : List UInt8 :=
  if bytes = letterGzip then [97] else if bytes = wordGzip then wordBytes else bytes.tail

/-- `warp`, where no conditional header but `Range` is sent. -/
def Warp.simple : Warp where
  check conditionals _ := .withBody conditionals.range
  fileStream bytes interval := (bytes.drop interval.1).take (interval.2 - interval.1)

theorem Warp.simple_documented : Warp.simple.Documented :=
  ⟨fun _ _ _ h => Or.inr (Cond.withBody.inj h).symm, fun _ _ _ _ _ => rfl⟩

/-- `Conditionals::check`, without entity tags. -/
def Warp.dated : Warp where
  check c modified :=
    if c.ifUnmodifiedSince.any fun t => modified.all fun m => t < m then
      .noBody ((Response.new []).withStatus 412)
    else if c.ifModifiedSince.any fun t => modified.any fun m => m ≤ t then
      .noBody ((Response.new []).withStatus 304)
    else match c.ifRange with
      | some (.date t) => .withBody (if modified.any fun m => m ≤ t then c.range else none)
      | some (.etag _) => .withBody none
      | none => .withBody c.range
  fileStream := Warp.simple.fileStream

theorem Warp.dated_documented : Warp.dated.Documented := by
  refine ⟨fun c modified range h => ?_, fun _ _ _ _ _ => rfl⟩
  unfold Warp.dated at h
  dsimp only at h
  split at h
  · exact absurd h nofun
  split at h
  · exact absurd h nofun
  split at h
  · obtain rfl := Cond.withBody.inj h
    split
    · exact Or.inr rfl
    · exact Or.inl rfl
  · exact Or.inl (Cond.withBody.inj h).symm
  · exact Or.inr (Cond.withBody.inj h).symm

/-- Every file stays on the disk. -/
def allOnDisk : CacheSettings := ⟨⟨0, false, []⟩, .empty⟩

/-- Files are kept in memory, and compressed. -/
def allCompressed : CacheSettings := ⟨⟨defaultMaxSize, true, []⟩, .empty⟩

def letterDisk : Disk := Disk.empty.withFile "/srv/www.a.com/1/index.html".toList [97]

def wordDisk : Disk := Disk.empty.withFile "/srv/www.a.com/1/index.html".toList wordBytes

def wordItem : CacheItem :=
  ⟨⟨5, 0⟩, .fileBlock "/srv/www.a.com/1/index.html".toList, "text/html".toList, none⟩

theorem letterGunzip_gzip (bytes : List UInt8) : letterGunzip (letterCrates.gzip bytes) = bytes := by
  show letterGunzip (if bytes = [97] then letterGzip else
    if bytes = wordBytes then wordGzip else 0 :: bytes) = bytes
  split_ifs with hletter hword
  · rw [hletter]
    decide
  · rw [hword]
    decide
  · unfold letterGunzip
    rw [if_neg (by simp [letterGzip]), if_neg (by simp [wordGzip])]
    rfl

/-- The page compressed in memory is answered like the page on the disk. -/
theorem replies_agree_word : ∃ item', allCompressed.cacheDir letterCrates wordDisk
      "www.a.com".toList (getVersionPath "/srv".toList "www.a.com".toList 1) "index.html".toList =
        some item' ∧
    ∀ conditionals acceptEncoding,
      (acceptsGzip acceptEncoding = false →
        cacheOrFileReply .dated wordDisk item' conditionals acceptEncoding =
          cacheOrFileReply .dated wordDisk wordItem conditionals acceptEncoding) ∧
      (acceptsGzip acceptEncoding = true → conditionals.range = none →
        decoded letterGunzip (cacheOrFileReply .dated wordDisk item' conditionals acceptEncoding) =
          decoded letterGunzip
            (cacheOrFileReply .dated wordDisk wordItem conditionals acceptEncoding)) := by
  have hitem : allOnDisk.cacheDir letterCrates wordDisk "www.a.com".toList
      (getVersionPath "/srv".toList "www.a.com".toList 1) "index.html".toList = some wordItem := by
    decide +kernel
  have hclient : (allCompressed.getDomainCacheConfig "www.a.com".toList).clientCache =
      (allOnDisk.getDomainCacheConfig "www.a.com".toList).clientCache := rfl
  exact replies_agree Warp.dated_documented letterGunzip_gzip hclient ⟨rfl, fun _ _ => rfl⟩ hitem

end SpaServer.Site
