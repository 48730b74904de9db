import SpaServer.Base.AcceptEncoding
import SpaServer.Site.Paths
import SpaServer.Site.Ranges
import SpaServer.Site.Service

/-!
# Which clients get gzip

The compressed bytes of an item are sent to the clients whose `Accept-Encoding` has the text
`gzip` in it somewhere.  By RFC 7231 that is not what it says: `gzip;q=0` refuses gzip, and
`notgzip` is another coding.

* `createService_item`: which requests are answered with an item (`Reaches`), and how.
* `encoding_of_not_reaches`: all others get no encoding.
* `createService_encoding_iff`: the encoding is right unless the header is misread for an item
  that is kept compressed (`Misread`).
-/

namespace SpaServer.Site

open Base

variable {crates : Crates} {http : Http} {conf : ServiceConfig} {w : World} {req : Request}

/-! ### Requests that are answered with an item -/

def Request.acceptEncoding (http : Http) (req : Request) : Option Str :=
  (req.headers "accept-encoding".toList).bind http.toStr

/-- The request is neither answered by the CORS check nor redirected, and leads to the item. -/
structure Reaches (http : Http) (conf : ServiceConfig) (w : World) (req : Request) (host : Str)
    (item : CacheItem) : Prop where
  named : req.host http = some host
  cors : ∃ validated, respCorsRequest http req.method req.headers
    (conf.getDomainServiceConfig host).cors = .ok validated
  scheme : ¬ (req.scheme = some "http".toList ∧
    (conf.getDomainServiceConfig host).httpRedirectToHttps = true)
  found : ∃ key, getCacheFile req.path host w.storage = .ok (key, item)

/-- The end of `create_service`: the headers for another origin. -/
def withCors (validated : Validated) (resp : Response) : Response :=
  match validated with
  | .simple origin => corsResp resp origin
  | .notCors => resp

theorem withCors_status (validated : Validated) (resp : Response) :
    (withCors validated resp).status = resp.status := by
  cases validated with
  | simple origin => rfl
  | notCors => rfl

theorem withCors_body (validated : Validated) (resp : Response) :
    (withCors validated resp).body = resp.body := by
  cases validated with
  | simple origin => rfl
  | notCors => rfl

/-- The headers about the body stay. -/
theorem withCors_headers (validated : Validated) (resp : Response) {n : HeaderName}
    (hn : n ∈ [HeaderName.contentLength, .contentRange, .contentEncoding]) :
    (withCors validated resp).headers n = resp.headers n := by
  have hne : ∀ m : HeaderName, m ∉ [HeaderName.contentLength, .contentRange, .contentEncoding] →
      n ≠ m := fun m hm he => hm (he ▸ hn)
  cases validated with
  | notCors => rfl
  | simple origin =>
    show (corsResp resp origin).headers n = _
    unfold corsResp Response.insert
    dsimp only
    rw [HeaderMap.insert_of_ne _ (hne .accessControlAllowOrigin (by decide)),
      HeaderMap.insert_of_ne _ (hne .accessControlMaxAge (by decide)),
      HeaderMap.insert_of_ne _ (hne .accessControlAllowMethods (by decide)),
      HeaderMap.insert_of_ne _ (hne .accessControlAllowCredentials (by decide))]

/-- **A request that reaches an item is answered with it.** -/
theorem createService_item {host : Str} {item : CacheItem}
    (h : Reaches http conf w req host item) :
    ∃ validated, createService http conf w req = withCors validated
      (cacheOrFileReply http.toWarp w.disk item (http.conditionals req.headers)
        (req.acceptEncoding http)) := by
  obtain ⟨validated, hcors⟩ := h.cors
  obtain ⟨key, hfound⟩ := h.found
  have hfile : staticFile http w host req = cacheOrFileReply http.toWarp w.disk item
      (http.conditionals req.headers) (req.acceptEncoding http) := by
    unfold staticFile
    rw [hfound]
    rfl
  refine ⟨validated, ?_⟩
  unfold createService
  rw [h.named]
  dsimp only
  rw [hcors]
  dsimp only
  rw [if_neg h.scheme, hfile]
  rfl

/-! ### Requests that are not -/

/-- The CORS check sends no file. -/
theorem respCorsRequest_encoding {method : Str} {headers : RequestHeaders} {allowCors : Bool}
    {resp : Response} (h : respCorsRequest http method headers allowCors = .error resp) :
    resp.headers .contentEncoding = none := by
  have hplain : ∀ r : Response, r.headers .contentEncoding = none →
      (Except.error r : Except Response Validated) = .error resp →
        resp.headers .contentEncoding = none := by
    intro r hr he
    rw [← Except.error.inj he, hr]
  unfold respCorsRequest at h
  split at h
  · split at h
    · split at h
      · exact hplain _ rfl h
      · split at h
        · split at h
          · exact hplain _ (withCors_headers (.simple _) _ (by decide)) h
          · exact hplain _ rfl h
        · exact hplain _ rfl h
    · split at h
      · exact hplain _ rfl h
      · exact absurd h (by simp)
  · exact absurd h (by simp)

/-- **Any other request gets no encoding.** -/
theorem encoding_of_not_reaches (h : ∀ host item, ¬ Reaches http conf w req host item) :
    (createService http conf w req).headers .contentEncoding = none := by
  unfold createService
  cases hhost : req.host http with
  | none => rfl
  | some host =>
    dsimp only
    cases hcors : respCorsRequest http req.method req.headers
        (conf.getDomainServiceConfig host).cors with
    | error resp => exact respCorsRequest_encoding hcors
    | ok validated =>
      dsimp only
      by_cases hscheme : req.scheme = some "http".toList ∧
          (conf.getDomainServiceConfig host).httpRedirectToHttps = true
      · rw [if_pos hscheme]
        rfl
      · rw [if_neg hscheme]
        show (withCors validated _).headers _ = none
        rw [withCors_headers _ _ (by decide)]
        unfold staticFile
        cases hfile : getCacheFile req.path host w.storage with
        | error resp =>
          rw [getCacheFile_error hfile]
          rfl
        | ok found =>
          obtain ⟨key, item⟩ := found
          exact absurd ⟨hhost, ⟨validated, hcors⟩, hscheme, key, hfile⟩ (h host item)

/-! ### The right encoding -/

/-- `Conditionals::check` answers 304 or 412 by itself, without an encoding. -/
def Warp.AnswersPlain (warp : Warp) : Prop :=
  ∀ conditionals modified resp, warp.check conditionals modified = .noBody resp →
    (resp.status = 304 ∨ resp.status = 412) ∧ resp.headers .contentEncoding = none

/-- The cached files of the host are on the disk as they were cached. -/
def Kept (crates : Crates) (w : World) (host : Str) : Prop :=
  ∀ key item, w.storage.cache.getItem host key = some item →
    ∃ f, w.disk.find item.data.path = some (.file f) ∧ HoldsFile crates item.data.path f item

/-- So they are as long as the version directory they were cached from is left alone. -/
theorem kept_of_cacheDir {settings : CacheSettings} {dk : Disk} {fileDir : PathBuf} {host : Str}
    {v : UInt32} (hsame : dk.SameBelow w.disk (getVersionPath fileDir host v))
    (hdata : w.storage.cache.data host =
      some (settings.cacheDir crates dk host (getVersionPath fileDir host v))) :
    Kept crates w host := by
  intro key item h
  obtain ⟨m, hm, hitem⟩ := Option.bind_eq_some_iff.mp h
  obtain rfl := Option.some.inj (hm.symm.trans hdata)
  obtain ⟨names, f, hfile, _, hholds⟩ :=
    mem_cachePairs (isRoot_versionPath fileDir host v) (DashMap.mem_of_collect hitem)
  rw [hholds.path]
  exact ⟨f, find_versionFile hsame hfile, hholds⟩

def Response.Success (resp : Response) : Prop := 200 ≤ resp.status ∧ resp.status < 300

/-- Compressed bytes go to those who accept gzip, and any other success for an item carries bytes
of its file as they are. -/
structure EncodingRight (http : Http) (conf : ServiceConfig) (w : World) (req : Request) :
    Prop where
  gzip : (createService http conf w req).headers .contentEncoding = some .contentEncodingGzip →
    (req.acceptEncoding http).any acceptsGzipCoding = true
  own : ∀ host item, Reaches http conf w req host item →
    (createService http conf w req).headers .contentEncoding ≠ some .contentEncodingGzip →
    (createService http conf w req).Success →
      (createService http conf w req).headers .contentEncoding = none ∧
      ∃ f, w.disk.find item.data.path = some (.file f) ∧
        ∃ start stop, ReplyOf f.bytes start stop (createService http conf w req)

/-- The header has the text `gzip` in it without accepting gzip, and the request is answered with
an item that is kept compressed. -/
def Misread (http : Http) (conf : ServiceConfig) (w : World) (req : Request) : Prop :=
  acceptsGzip (req.acceptEncoding http) = true ∧
  (req.acceptEncoding http).any acceptsGzipCoding = false ∧
  ∃ host item, Reaches http conf w req host item ∧ item.data.isCompressed = true ∧
    ∃ range, http.check (http.conditionals req.headers)
      (some (LastModified.ofSystemTime item.fileMeta.modified)) = .withBody range

theorem ReplyOf.withCors {bytes : List UInt8} {start stop : Nat} {resp : Response}
    (h : ReplyOf bytes start stop resp) (validated : Validated) :
    ReplyOf bytes start stop (withCors validated resp) := by
  constructor
  · rw [withCors_body, h.body]
  · rw [withCors_headers _ _ (by decide), h.contentLength]
  · rw [withCors_status]
    exact h.whole
  · rw [withCors_status, withCors_headers _ _ (by decide)]
    exact h.part

theorem plainReply_right {warp : Warp} (hplain : warp.AnswersPlain) (item : CacheItem)
    (bytes : List UInt8) (conditionals : Conditionals) :
    (plainReply warp item bytes conditionals).headers .contentEncoding = none ∧
      ((plainReply warp item bytes conditionals).Success →
        ∃ start stop, ReplyOf bytes start stop (plainReply warp item bytes conditionals)) := by
  cases hcheck : warp.check conditionals
      (some (LastModified.ofSystemTime item.fileMeta.modified)) with
  | noBody resp =>
    rw [plainReply_noBody hcheck]
    obtain ⟨hstatus, hencoding⟩ := hplain _ _ _ hcheck
    refine ⟨hencoding, fun hsuccess => ?_⟩
    have hlt := hsuccess.2
    rcases hstatus with h | h
    · omega
    · omega
  | withBody range =>
    rw [plainReply_withBody hcheck]
    refine ⟨cacheReply_encoding bytes range, fun hsuccess => ?_⟩
    cases hrange : bytesRange range bytes.length with
    | ok interval =>
      obtain ⟨start, stop⟩ := interval
      exact ⟨start, stop, cacheReply_ok hrange⟩
    | error e =>
      rw [cacheReply_error hrange] at hsuccess
      exact absurd hsuccess.2 (by show ¬ 416 < 300; decide)

theorem right_of_plain (hplain : http.toWarp.AnswersPlain) {host : Str}
    (hkept : Kept crates w host) {item : CacheItem} (hreach : Reaches http conf w req host item)
    (hreply : ∀ f, w.disk.find item.data.path = some (.file f) →
      HoldsFile crates item.data.path f item →
      cacheOrFileReply http.toWarp w.disk item (http.conditionals req.headers)
        (req.acceptEncoding http) =
      plainReply http.toWarp item f.bytes (http.conditionals req.headers)) :
    EncodingRight http conf w req := by
  obtain ⟨validated, hservice⟩ := createService_item hreach
  obtain ⟨key, hfound⟩ := hreach.found
  obtain ⟨_, _, _, hitem⟩ := getCacheFile_eq_ok hfound
  obtain ⟨f, hfile, hholds⟩ := hkept key item hitem
  rw [hreply f hfile hholds] at hservice
  obtain ⟨hencoding, hsuccess⟩ := plainReply_right hplain item f.bytes (http.conditionals req.headers)
  have hnone : (createService http conf w req).headers .contentEncoding = none := by
    rw [hservice, withCors_headers _ _ (by decide), hencoding]
  constructor
  · intro h
    exact absurd (hnone.symm.trans h) (by simp)
  · intro host' item' hreach' _ hstatus
    -- the request leads to one item only
    obtain rfl := Option.some.inj (hreach'.named.symm.trans hreach.named)
    obtain ⟨key', hfound'⟩ := hreach'.found
    obtain ⟨_, rfl⟩ := Prod.mk.inj (Except.ok.inj (hfound'.symm.trans hfound))
    refine ⟨hnone, f, hfile, ?_⟩
    rw [hservice] at hstatus ⊢
    unfold Response.Success at hstatus
    rw [withCors_status] at hstatus
    obtain ⟨start, stop, h⟩ := hsuccess hstatus
    exact ⟨start, stop, h.withCors validated⟩

theorem encoding_of_compressed {host : Str} (hkept : Kept crates w host) {item : CacheItem}
    (hreach : Reaches http conf w req host item) (hcompressed : item.data.isCompressed = true)
    (hgzip : acceptsGzip (req.acceptEncoding http) = true) {range : Option Range}
    (hcheck : http.check (http.conditionals req.headers)
      (some (LastModified.ofSystemTime item.fileMeta.modified)) = .withBody range) :
    (createService http conf w req).headers .contentEncoding = some .contentEncodingGzip := by
  obtain ⟨key, hfound⟩ := hreach.found
  obtain ⟨_, _, _, hitem⟩ := getCacheFile_eq_ok hfound
  obtain ⟨f, _, hholds⟩ := hkept key item hitem
  obtain ⟨path, hdata⟩ := hholds.compressed hcompressed
  obtain ⟨validated, hservice⟩ := createService_item hreach
  rw [hservice, withCors_headers _ _ (by decide), reply_compressed hdata hgzip hcheck]
  exact Response.insert_gzip _

/-- **Compressed bytes are sent right** exactly when the header is not misread. -/
theorem createService_encoding_iff (hwarp : http.toWarp.Documented)
    (hplain : http.toWarp.AnswersPlain) (hkept : ∀ host, Kept crates w host) :
    EncodingRight http conf w req ↔ ¬ Misread http conf w req := by
  constructor
  · rintro hright ⟨hgzip, hrefused, host, item, hreach, hcompressed, range, hcheck⟩
    have hencoding := encoding_of_compressed (hkept host) hreach hcompressed hgzip hcheck
    exact absurd (hrefused.symm.trans (hright.gzip hencoding)) Bool.false_ne_true
  · intro hread
    by_cases hreach : ∃ host item, Reaches http conf w req host item
    · obtain ⟨host, item, hreach⟩ := hreach
      by_cases hown : (acceptsGzip (req.acceptEncoding http) && item.data.isCompressed) = false
      · exact right_of_plain hplain (hkept host) hreach fun f hfile hholds =>
          reply_own hwarp hfile hholds hown
      obtain ⟨hgzip, hcompressed⟩ := Bool.and_eq_true_iff.mp (eq_true_of_ne_false hown)
      cases hcheck : http.check (http.conditionals req.headers)
          (some (LastModified.ofSystemTime item.fileMeta.modified)) with
      | noBody resp =>
        refine right_of_plain hplain (hkept host) hreach fun f _ _ => ?_
        rw [reply_noBody hcheck, plainReply_noBody hcheck]
      | withBody range =>
        have hencoding := encoding_of_compressed (hkept host) hreach hcompressed hgzip hcheck
        constructor
        · intro _
          by_contra hrefused
          exact hread ⟨hgzip, eq_false_of_ne_true hrefused, host, item, hreach, hcompressed, range,
            hcheck⟩
        · intro _ _ _ hne _
          exact absurd hencoding hne
    · rw [not_exists] at hreach
      have hnone := encoding_of_not_reaches fun host item h => hreach host ⟨item, h⟩
      exact ⟨fun h => absurd (hnone.symm.trans h) (by simp),
        fun host item h => absurd ⟨item, h⟩ (hreach host)⟩

def getEncoded (acceptEncoding : Str) : Request :=
  { get "www.a.com".toList "/index.html".toList with
    headers := Function.update (fun _ => none) "accept-encoding".toList
      (some (encodeUtf8 acceptEncoding)) }

def compressedWorld : World :=
  ⟨.fresh "/srv".toList srv_ne_nil
    ((FileCache.mk allCompressed .empty).update "www.a.com".toList
      (allCompressed.cacheDir letterCrates letterDisk "www.a.com".toList
        (getVersionPath "/srv".toList "www.a.com".toList 1))), letterDisk⟩

theorem kept_compressedWorld (host : Str) : Kept letterCrates compressedWorld host := by
  by_cases hhost : host = "www.a.com".toList
  · subst hhost
    exact kept_of_cacheDir ⟨rfl, fun _ _ => rfl⟩ (DashMap.insert_self .empty "www.a.com".toList _)
  · have hdata : compressedWorld.storage.cache.data host = none :=
      DashMap.insert_of_ne .empty hhost _
    intro key item h
    obtain ⟨m, hm, _⟩ := Option.bind_eq_some_iff.mp h
    exact absurd (hm.symm.trans hdata) (by simp)

theorem simple_answersPlain : Warp.simple.AnswersPlain := by
  intro _ _ _ h
  exact absurd h (by simp [Warp.simple])

/-- A client that refuses gzip gets it. -/
theorem refused_misread :
    ¬ EncodingRight .simple plainService compressedWorld (getEncoded "gzip;q=0".toList) := by
  intro h
  exact absurd (h.gzip (by decide +kernel)) (by decide +kernel)

theorem createService_encoding_plain :
    EncodingRight .simple plainService compressedWorld (getEncoded "br".toList) := by
  refine (createService_encoding_iff Warp.simple_documented simple_answersPlain
    kept_compressedWorld).mpr ?_
  rintro ⟨hgzip, _⟩
  exact absurd hgzip (by decide +kernel)

end SpaServer.Site
