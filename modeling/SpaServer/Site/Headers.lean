import SpaServer.Site.Published

/-!
# The headers of a response

What a response says about caching comes a long way: from the configuration, through the settings
of a domain and a map by extension names, into each cached item, and from that into the headers of
one of two replies.  This file joins the two ends.

* `expireOf_eq`: what a key is kept for is said by the last item of the effective client cache
  that names its extension.
* `cacheOrFileReply_shape`: a reply is bare, or it has the file and exactly the item's headers.
* `cachePolicy_of_run`: so in every run each file that is served carries the configured
  `Cache-Control`, and nothing else that is answered carries any.
-/

namespace SpaServer

open Base

/-! ### What is configured -/

/-- The client cache of a domain: of its last entry, or else the common one. -/
def Config.clientCacheOf (conf : Config) (host : Str) : List ClientCacheItem :=
  (((conf.domains.filter fun d => d.domain = host).getLast?).bind fun d =>
    d.cache.bind (·.clientCache)).getD conf.cache.clientCache

/-- How long a key may be kept: the last item that names what follows its last dot says so. -/
def Config.expireOf (conf : Config) (host key : Str) : Option Duration :=
  (((conf.clientCacheOf host).filter fun item =>
    item.extensionNames.contains ((key.splitOn '.').getLast?.getD [])).getLast?).map (·.expire)

theorem clientCache_eq (conf : Config) (host : Str) :
    ((CacheSettings.new conf).getDomainCacheConfig host).clientCache = conf.clientCacheOf host := by
  have hinner : (CacheSettings.new conf).inner host =
      ((conf.domains.filter fun d => d.domain = host).getLast?).map fun d =>
        { maxSize := (d.cache.bind (·.maxSize)).getD conf.cache.maxSize
          compression := (d.cache.bind (·.compression)).getD conf.cache.compression
          clientCache := (d.cache.bind (·.clientCache)).getD conf.cache.clientCache } := by
    show DashMap.collect _ host = _
    rw [DashMap.collect_eq, List.filter_map, List.getLast?_map, Option.map_map]
    rfl
  unfold CacheSettings.getDomainCacheConfig Config.clientCacheOf
  rw [hinner]
  cases (conf.domains.filter fun d => d.domain = host).getLast? with
  | none => rfl
  | some d => rfl

/-- The map by extension names: of two items with one name the later counts. -/
theorem collect_extensions (items : List ClientCacheItem) (ext : Str) :
    DashMap.collect (items.flatMap fun item =>
        item.extensionNames.map fun name => (name, item.expire)) ext =
      ((items.filter fun item => ext ∈ item.extensionNames).getLast?).map (·.expire) := by
  rw [DashMap.collect_eq]
  induction items using List.reverseRecOn with
  | nil => rfl
  | append_singleton items item ih =>
    have hone : (item.extensionNames.map fun name => (name, item.expire)).filter
        (fun pair => pair.1 = ext) =
        (item.extensionNames.filter fun name => name = ext).map fun name => (name, item.expire) := by
      rw [List.filter_map]
      rfl
    rw [List.flatMap_append, List.filter_append, List.filter_append, List.getLast?_append,
      List.flatMap_singleton, hone]
    by_cases hext : ext ∈ item.extensionNames
    · have hne : item.extensionNames.filter (fun name => name = ext) ≠ [] :=
        List.ne_nil_of_mem (List.mem_filter.mpr ⟨hext, by simp⟩)
      obtain ⟨name, hname⟩ := Option.ne_none_iff_exists'.mp (mt List.getLast?_eq_none_iff.mp hne)
      rw [List.getLast?_map, hname, List.filter_cons_of_pos (by simpa using hext), List.filter_nil,
        List.getLast?_append]
      rfl
    · have hnil : item.extensionNames.filter (fun name => name = ext) = [] :=
        List.filter_eq_nil_iff.mpr fun name hname he =>
          hext (of_decide_eq_true he ▸ hname)
      rw [hnil, List.filter_cons_of_neg (by simpa using hext), List.filter_nil, List.append_nil]
      exact ih

/-- **What a key is kept for is what is configured.** -/
theorem expireOf_eq (conf : Config) (host key : Str) :
    (CacheSettings.new conf).getDomainExpireConfig host ((key.splitOn '.').getLast?.getD []) =
      conf.expireOf host key := by
  unfold CacheSettings.getDomainExpireConfig Config.expireOf
  rw [clientCache_eq, collect_extensions]
  simp only [List.contains_eq_mem]

namespace Site

/-! ### What a reply has -/

/-- `Conditionals::check` answers by itself with a bare 304 or 412. -/
def Warp.AnswersBare (warp : Warp) : Prop :=
  ∀ conditionals modified resp, warp.check conditionals modified = .noBody resp →
    resp = (Response.new []).withStatus 304 ∨ resp = (Response.new []).withStatus 412

/-- The headers that say how much of a file is sent, and in which form. -/
def bodyHeaders : List HeaderName := [.contentLength, .contentRange, .contentEncoding]

theorem contentLength_mem {len : Nat} : (Header.contentLength len).name ∈ bodyHeaders :=
  List.mem_cons_self

theorem contentRange_mem {range : ContentRange} : (Header.contentRange range).name ∈ bodyHeaders :=
  List.mem_cons_of_mem _ List.mem_cons_self

/-- A response without a file, or with the file of an item and its headers. -/
inductive Shape (item : CacheItem) (resp : Response) : Prop
  | bare (hstatus : resp.status ∈ [304, 404, 412, 416])
      (hheaders : ∀ n ∉ bodyHeaders, resp.headers n = none)
  | file (hstatus : resp.status ∈ [200, 206])
      (hheaders : ∀ n ∉ bodyHeaders, resp.headers n = (cacheItemToResponseHeader (.new []) item
        (some (LastModified.ofSystemTime item.fileMeta.modified))).headers n)

section Shape

variable {item : CacheItem} {resp : Response}

theorem shape_notFound : Shape item notFound := .bare (by decide) fun _ _ => rfl

theorem shape_rangeNotSatisfiable (len : Nat) : Shape item (rangeNotSatisfiable len) := by
  refine .bare (by show 416 ∈ _; decide) fun n hn => ?_
  have hne : n ≠ .contentRange := fun he => hn (by rw [he]; decide)
  exact HeaderMap.insert_of_ne _ hne

theorem Shape.insert (h : Shape item resp) {header : Header} (hname : header.name ∈ bodyHeaders) :
    Shape item (resp.insert header) := by
  have hkeep : ∀ n ∉ bodyHeaders, (resp.insert header).headers n = resp.headers n :=
    fun n hn => HeaderMap.insert_of_ne _ fun he => hn (he ▸ hname)
  cases h with
  | bare hstatus hheaders => exact .bare hstatus fun n hn => (hkeep n hn).trans (hheaders n hn)
  | file hstatus hheaders => exact .file hstatus fun n hn => (hkeep n hn).trans (hheaders n hn)

theorem shape_new (body : List UInt8) : Shape item (cacheItemToResponseHeader (.new body) item
    (some (LastModified.ofSystemTime item.fileMeta.modified))) := by
  refine .file ?_ fun n _ => ?_
  · rw [cacheItemToResponseHeader_status]
    show 200 ∈ [200, 206]
    decide
  · have hfold : ∀ (hs : List Header) (r r' : Response), r.headers = r'.headers →
        (hs.foldl Response.insert r).headers = (hs.foldl Response.insert r').headers := by
      intro hs
      induction hs with
      | nil => exact fun _ _ h => h
      | cons header hs ih =>
        exact fun r r' h => ih _ _ (congrArg (HeaderMap.insert · header) h)
    rw [cacheItemToResponseHeader_eq, cacheItemToResponseHeader_eq]
    exact congrFun (hfold _ (.new body) (.new []) rfl) n

theorem Shape.withPart (h : Shape item resp) (hfile : resp.status = 200) :
    Shape item (resp.withStatus 206) := by
  cases h with
  | bare hstatus _ =>
    rw [hfile] at hstatus
    exact absurd hstatus (by decide)
  | file _ hheaders => exact .file (by show 206 ∈ [200, 206]; decide) hheaders

theorem fileReply_shape (warp : Warp) (dk : Disk) (path : PathBuf) (range : Option Range) :
    Shape item (fileReply warp dk item path range
      (some (LastModified.ofSystemTime item.fileMeta.modified))) := by
  unfold fileReply
  dsimp only
  cases dk.openFile path with
  | error e => exact shape_notFound
  | ok file =>
    dsimp only
    cases bytesRange range item.fileMeta.len with
    | error e => exact shape_rangeNotSatisfiable _
    | ok interval =>
      dsimp only
      split
      · exact (((shape_new _).withPart (cacheItemToResponseHeader_status _)).insert
          contentRange_mem).insert contentLength_mem
      · exact (shape_new _).insert contentLength_mem

theorem cacheReply_shape (bytes : List UInt8) (range : Option Range) :
    Shape item (cacheReply item bytes range
      (some (LastModified.ofSystemTime item.fileMeta.modified))) := by
  unfold cacheReply
  dsimp only
  cases bytesRange range bytes.length with
  | error e => exact shape_rangeNotSatisfiable _
  | ok interval =>
    dsimp only
    split
    · -- the item's headers go on last here, and before the others in `fileReply`
      rw [cacheItemToResponseHeader_insert (by simp [Header.name]),
        cacheItemToResponseHeader_insert (by simp [Header.name]),
        cacheItemToResponseHeader_withStatus]
      exact (((shape_new _).withPart (cacheItemToResponseHeader_status _)).insert
        contentRange_mem).insert contentLength_mem
    · rw [cacheItemToResponseHeader_insert (by simp [Header.name])]
      exact (shape_new _).insert contentLength_mem

/-- A reply with a body, as far as `warp` is concerned. -/
theorem reply_shape {warp : Warp} {dk : Disk} {conditionals : Conditionals} {range : Option Range}
    (hcheck : warp.check conditionals
      (some (LastModified.ofSystemTime item.fileMeta.modified)) = .withBody range)
    (acceptEncoding : Option Str) :
    Shape item (cacheOrFileReply warp dk item conditionals acceptEncoding) := by
  unfold cacheOrFileReply
  dsimp only
  rw [hcheck]
  dsimp only
  cases item.data with
  | fileBlock path => exact fileReply_shape ..
  | cacheBlock bytes compressed path =>
    dsimp only
    split
    · exact fileReply_shape ..
    · split
      · exact (cacheReply_shape bytes range).insert (by decide)
      · exact cacheReply_shape ..

/-- **A reply is bare, or it has the file and exactly the item's headers.** -/
theorem cacheOrFileReply_shape {warp : Warp} (hbare : warp.AnswersBare) (dk : Disk)
    (conditionals : Conditionals) (acceptEncoding : Option Str) :
    Shape item (cacheOrFileReply warp dk item conditionals acceptEncoding) := by
  cases hcheck : warp.check conditionals
      (some (LastModified.ofSystemTime item.fileMeta.modified)) with
  | noBody resp =>
    rw [reply_noBody hcheck]
    rcases hbare _ _ _ hcheck with rfl | rfl
    · exact .bare (by decide) fun _ _ => rfl
    · exact .bare (by decide) fun _ _ => rfl
  | withBody range => exact reply_shape hcheck acceptEncoding

end Shape

/-! ### Requests of other origins -/

def PreflightAllowed (http : Http) (headers : RequestHeaders) : Prop :=
  ∃ reqMethod, headers "access-control-request-method".toList = some reqMethod ∧
    (http.methodFromBytes reqMethod).any allowMethods.contains = true

inductive CorsOutcome (http : Http) (method : Str) (headers : RequestHeaders) (allowCors : Bool) :
    Except Response Validated → Prop
  | notCors (horigin : headers "origin".toList = none) :
      CorsOutcome http method headers allowCors (.ok .notCors)
  | simple {origin : HeaderValue} (horigin : headers "origin".toList = some origin)
      (hmethod : method ≠ "OPTIONS".toList) (hallow : allowCors = true) :
      CorsOutcome http method headers allowCors (.ok (.simple origin))
  | preflight {origin : HeaderValue} (horigin : headers "origin".toList = some origin)
      (hmethod : method = "OPTIONS".toList) (hallow : allowCors = true)
      (hpreflight : PreflightAllowed http headers) :
      CorsOutcome http method headers allowCors (.error (corsResp (.new []) origin))
  | refused {origin : HeaderValue} (horigin : headers "origin".toList = some origin)
      (hrefused : allowCors = false ∨
        method = "OPTIONS".toList ∧ ¬ PreflightAllowed http headers) (text : Str) :
      CorsOutcome http method headers allowCors (.error (resp 403 text))

theorem respCorsRequest_outcome (http : Http) (method : Str) (headers : RequestHeaders)
    (allowCors : Bool) :
    CorsOutcome http method headers allowCors (respCorsRequest http method headers allowCors) := by
  unfold respCorsRequest
  cases horigin : headers "origin".toList with
  | none => exact .notCors horigin
  | some origin =>
    dsimp only
    by_cases hmethod : method = "OPTIONS".toList
    · rw [if_pos hmethod]
      cases allowCors with
      | false => exact .refused horigin (Or.inl rfl) _
      | true =>
        cases hreq : headers "access-control-request-method".toList with
        | none =>
          exact .refused horigin (Or.inr ⟨hmethod, fun ⟨m, hm, _⟩ =>
            absurd (hm.symm.trans hreq) (by simp)⟩) _
        | some reqMethod =>
          by_cases hany : (http.methodFromBytes reqMethod).any allowMethods.contains = true
          · simp only [Bool.not_true, Bool.false_eq_true, if_false, hany, if_true]
            exact .preflight horigin hmethod rfl ⟨reqMethod, hreq, hany⟩
          · simp only [Bool.not_true, Bool.false_eq_true, if_false, hany]
            refine .refused horigin (Or.inr ⟨hmethod, ?_⟩) _
            rintro ⟨m, hm, hallowed⟩
            obtain rfl := Option.some.inj (hm.symm.trans hreq)
            exact hany hallowed
    · rw [if_neg hmethod]
      cases allowCors with
      | false => exact .refused horigin (Or.inl rfl) _
      | true => exact .simple horigin hmethod rfl

def corsHeaders : List HeaderName :=
  [.accessControlAllowCredentials, .accessControlAllowMethods, .accessControlMaxAge,
    .accessControlAllowOrigin]

theorem corsResp_headers (resp : Response) (origin : HeaderValue) {n : HeaderName}
    (hn : n ∉ corsHeaders) : (corsResp resp origin).headers n = resp.headers n := by
  have hne : ∀ m ∈ corsHeaders, n ≠ m := fun m hm he => hn (he ▸ hm)
  unfold corsResp Response.insert
  dsimp only
  rw [HeaderMap.insert_of_ne _ (hne .accessControlAllowOrigin (by decide)),
    HeaderMap.insert_of_ne _ (hne .accessControlMaxAge (by decide)),
    HeaderMap.insert_of_ne _ (hne .accessControlAllowMethods (by decide)),
    HeaderMap.insert_of_ne _ (hne .accessControlAllowCredentials (by decide))]

theorem withCors_of_notMem (validated : Validated) (resp : Response) {n : HeaderName}
    (hn : n ∉ corsHeaders) : (withCors validated resp).headers n = resp.headers n := by
  cases validated with
  | simple origin => exact corsResp_headers resp origin hn
  | notCors => rfl

/-! ### The policy on the wire -/

/-- The `Cache-Control` that a key should be sent with. -/
def cacheControlOf (conf : Config) (host key : Str) : Option Header :=
  (conf.expireOf host key).map fun expire =>
    .cacheControl (if expire ≠ 0 then .maxAge (expire / 10 ^ 9) else .noCache)

/-- The headers that a published file should be sent with. -/
structure FileHeaders (crates : Crates) (conf : Config) (root : PathBuf) (host key : Str)
    (f : FileData) (resp : Response) : Prop where
  cacheControl : resp.headers .cacheControl = cacheControlOf conf host key
  contentType : resp.headers .contentType =
    some (.contentType (crates.mimeFromPath (root ++ '/' :: key)))
  lastModified : resp.headers .lastModified =
    some (.lastModified (LastModified.ofSystemTime f.modified))

/-- A request that asks whether another one is allowed. -/
def IsPreflight (req : Request) : Prop :=
  req.method = "OPTIONS".toList ∧ req.headers "origin".toList ≠ none

theorem cacheItemToResponseHeader_values (item : CacheItem) (t : LastModified) :
    let resp := cacheItemToResponseHeader (.new []) item (some t)
    resp.headers .cacheControl = item.expire.map (fun expire =>
        .cacheControl (if expire ≠ 0 then .maxAge (expire / 10 ^ 9) else .noCache)) ∧
      resp.headers .contentType = some (.contentType item.mime) ∧
      resp.headers .lastModified = some (.lastModified t) := by
  unfold cacheItemToResponseHeader
  cases item.expire with
  | none => exact ⟨rfl, rfl, rfl⟩
  | some expire =>
    by_cases hexpire : expire ≠ 0
    · simp only [if_pos hexpire]
      exact ⟨by simp [Response.insert, HeaderMap.insert, Header.name, hexpire], rfl, rfl⟩
    · simp only [if_neg hexpire]
      exact ⟨by simp [Response.insert, HeaderMap.insert, Header.name, not_not.mp hexpire], rfl, rfl⟩

section Policy

variable {crates : Crates} {http : Http} {w : World} {s : Deployed}

theorem fileItem_expire (conf : Config) (host : Str) (root : PathBuf) (key : Str) (f : FileData) :
    (fileItem crates (.new conf) host root key f).expire = conf.expireOf host key :=
  expireOf_eq conf host key

theorem fileHeaders_of_kept {conf : Config} {host key : Str} {v : UInt32} {f : FileData}
    {item : CacheItem} {reply : Response} (hconf : w.storage.cache.conf = .new conf)
    (hkept : KeptAs crates w host key (v, f) item) (hshape : Shape item reply)
    (hstatus : reply.status ∈ [200, 206]) :
    FileHeaders crates conf (getVersionPath w.storage.pathPrefix host v) host key f reply := by
  obtain ⟨_, hsame⟩ := hkept
  cases hshape with
  | bare hbare _ =>
    simp only [List.mem_cons, List.not_mem_nil, or_false] at hstatus hbare
    omega
  | file _ hheaders =>
    obtain ⟨hcontrol, htype, hmodified⟩ := cacheItemToResponseHeader_values item
      (LastModified.ofSystemTime item.fileMeta.modified)
    refine ⟨?_, ?_, ?_⟩
    · unfold cacheControlOf
      rw [hheaders _ (by decide), hcontrol, ← hsame.expire, hconf, fileItem_expire]
    · rw [hheaders _ (by decide), htype, ← hsame.mime]
      rfl
    · rw [hheaders _ (by decide), hmodified, hsame.left.fileMeta]

/-- What comes of a request of a host, when files carry what they should. -/
theorem createService_policy (hbare : http.toWarp.AnswersBare) (h : Represents crates w s)
    (hcurrent : s.Current) {conf : Config} (hconf : w.storage.cache.conf = .new conf)
    (sconf : ServiceConfig) {req : Request} {host : Str} (hhost : req.host http = some host)
    (hclean : CleanSite w.storage.pathPrefix host (site s host)) (hreq : AsksFile req) :
    let resp := createService http sconf w req
    (resp.status ∈ [200, 206] ∧ ¬ IsPreflight req → ∃ v key f,
      siteFile (site s host) req.path = .ok (v, key, f) ∧
      FileHeaders crates conf (getVersionPath w.storage.pathPrefix host v) host key f resp) ∧
    (resp.headers .cacheControl ≠ none → resp.status ∈ [200, 206] ∧ ¬ IsPreflight req) := by
  intro resp
  have hresp : resp = answerWith http sconf host req (staticFile http w host req) :=
    createService_eq hhost
  clear_value resp
  unfold answerWith at hresp
  have houtcome := respCorsRequest_outcome http req.method req.headers
    (sconf.getDomainServiceConfig host).cors
  have hlet : ∀ validated, respCorsRequest http req.method req.headers
      (sconf.getDomainServiceConfig host).cors = .ok validated → ¬ IsPreflight req := by
    intro validated hok
    rw [hok] at houtcome
    rintro ⟨hmethod, horigin⟩
    cases houtcome with
    | notCors hnone => exact horigin hnone
    | simple _ hne _ => exact hne hmethod
  cases hcors : respCorsRequest http req.method req.headers
      (sconf.getDomainServiceConfig host).cors with
  | error answer =>
    rw [hcors] at hresp houtcome
    dsimp only at hresp
    subst hresp
    cases houtcome with
    | preflight horigin hmethod _ _ =>
      refine ⟨fun hfile => absurd ⟨hmethod, by rw [horigin]; exact nofun⟩ hfile.2, fun hcontrol => ?_⟩
      exact absurd (corsResp_headers _ _ (by decide)) hcontrol
    | refused _ _ text =>
      refine ⟨fun hfile => absurd hfile.1 (by show 403 ∉ [200, 206]; decide), fun hcontrol => ?_⟩
      exact absurd rfl hcontrol
  | ok validated =>
    rw [hcors] at hresp
    dsimp only at hresp
    by_cases hredirect : req.scheme = some "http".toList ∧
        (sconf.getDomainServiceConfig host).httpRedirectToHttps = true
    · rw [if_pos hredirect] at hresp
      subst hresp
      refine ⟨fun hfile => absurd hfile.1 (by show 301 ∉ [200, 206]; decide), fun hcontrol => ?_⟩
      exact absurd rfl hcontrol
    · rw [if_neg hredirect] at hresp
      have hstatus : resp.status = (staticFile http w host req).status := by
        rw [hresp, withCors_status]
      have hheaders : ∀ n ∉ corsHeaders, resp.headers n = (staticFile http w host req).headers n := by
        intro n hn
        rw [hresp, withCors_of_notMem _ _ hn]
      rw [hstatus, hheaders _ (by decide)]
      rcases staticFile_cases h hcurrent hclean hreq with ⟨bad, hbad, hstatic⟩ | ⟨v, key, f, item,
        hfile, hkept, hstatic⟩
      · obtain rfl := siteFile_error hbad
        rw [hstatic]
        exact ⟨fun hfile => absurd hfile.1 (by decide), fun hcontrol => absurd rfl hcontrol⟩
      · have hshape := @cacheOrFileReply_shape item _ hbare w.disk
          (http.conditionals req.headers) (req.acceptEncoding http)
        rw [← hstatic] at hshape
        refine ⟨fun hfile' => ⟨v, key, f, hfile, ?_⟩, fun hcontrol => ?_⟩
        · have hfileHeaders := fileHeaders_of_kept hconf hkept hshape hfile'.1
          exact ⟨(hheaders _ (by decide)).trans hfileHeaders.cacheControl,
            (hheaders _ (by decide)).trans hfileHeaders.contentType,
            (hheaders _ (by decide)).trans hfileHeaders.lastModified⟩
        · cases hshape with
          | bare _ hnone => exact absurd (hnone _ (by decide)) hcontrol
          | file hok _ => exact ⟨hok, hlet validated hcors⟩

variable {dk : Disk} {path : PathBuf} {st : DomainStorage}
  {log : List (AdminRequest × SpaServer.Response)}

/-- **Every file is sent with the configured policy**, and what is no file with none.  In every run
from the start, a response with status 200 or 206 that does not answer a preflight request has
the `Cache-Control` that the configuration gives to the key of the published file, with its type and
time; and no other response has a `Cache-Control`. -/
theorem cachePolicy_of_run (sconf : ServiceConfig) (hbare : http.toWarp.AnswersBare)
    (conf : Config) (hinit : DomainStorage.init crates dk path (.new conf) = .ok st)
    (htree : WellFormedTree dk path)
    (hrun : World.Logged crates (fun w r => Keeps w r ∧ SparesServed w r) ⟨st, dk⟩ log w) :
    ∃ s, Beside crates (fun w r => Keeps w r ∧ SparesServed w r) ⟨st, dk⟩
        (World.deployed ⟨st, dk⟩) log w s ∧
      ∀ req host, req.host http = some host → CleanSite path host (site s host) → AsksFile req →
        let resp := createService http sconf w req
        (resp.status ∈ [200, 206] ∧ ¬ IsPreflight req → ∃ v key f,
          siteFile (site s host) req.path = .ok (v, key, f) ∧
          FileHeaders crates conf (getVersionPath path host v) host key f resp) ∧
        (resp.headers .cacheControl ≠ none → resp.status ∈ [200, 206] ∧ ¬ IsPreflight req) := by
  obtain ⟨s, hbeside⟩ :=
    exists_beside (fun _ _ h => h.1) (represents_init hinit htree) hrun
  obtain ⟨events, hevents, _⟩ := hbeside.run
  have hcurrent : s.Current := hevents.current (fun _ _ h => h fun _ _ hr => hr.2)
    (current_init hinit htree) (apart_init hinit htree)
  obtain ⟨hplaces, hconf⟩ := settled_run hrun.run
  obtain ⟨hpath, hsettings, _⟩ := init_spec hinit
  rw [← (hplaces.pathPrefix.trans hpath : w.storage.pathPrefix = path)]
  exact ⟨s, hbeside, fun req host hhost hclean hreq => createService_policy hbare
    hbeside.represents hcurrent (hconf.trans hsettings) sconf hhost hclean hreq⟩

end Policy

theorem simple_answersBare : Warp.simple.AnswersBare := by
  intro _ _ _ h
  exact absurd h (by simp [Warp.simple])

/-- Pages may be kept for an hour. -/
def pagesAnHour : Config where
  port := 80
  addr := "0.0.0.0".toList
  fileDir := "/srv".toList
  cache := ⟨0, false, [⟨3600 * 10 ^ 9, ["html".toList]⟩]⟩

/-- So the pages are sent when a second version has been released. -/
theorem cachePolicy_of_run_pages :
    cacheControlOf pagesAnHour "www.a.com".toList "index.html".toList =
      some (.cacheControl (.maxAge 3600)) ∧
    ∃ st, DomainStorage.init Crates.simple letterDisk "/srv".toList (.new pagesAnHour) = .ok st ∧
      let c := World.serveAll Crates.simple ⟨st, letterDisk⟩ secondRelease
      ∃ s, Beside Crates.simple (fun w r => Keeps w r ∧ SparesServed w r) ⟨st, letterDisk⟩
          (World.deployed ⟨st, letterDisk⟩) c.1 c.2 s ∧
        ∀ req host, req.host .simple = some host → CleanSite "/srv".toList host (site s host) →
          AsksFile req →
          let resp := createService .simple plainService c.2 req
          (resp.status ∈ [200, 206] ∧ ¬ IsPreflight req → ∃ v key f,
            siteFile (site s host) req.path = .ok (v, key, f) ∧
            FileHeaders Crates.simple pagesAnHour (getVersionPath "/srv".toList host v) host key f
              resp) ∧
          (resp.headers .cacheControl ≠ none → resp.status ∈ [200, 206] ∧ ¬ IsPreflight req) := by
  refine ⟨by decide, ?_⟩
  have hok : (DomainStorage.init Crates.simple letterDisk "/srv".toList
      (.new pagesAnHour)).isOk = true := by decide +kernel
  cases hinit : DomainStorage.init Crates.simple letterDisk "/srv".toList (.new pagesAnHour) with
  | error e =>
    rw [hinit] at hok
    exact absurd hok nofun
  | ok st =>
    exact ⟨st, rfl, cachePolicy_of_run plainService simple_answersBare pagesAnHour hinit
      wellFormedTree_letterDisk (World.logged_serveAll _ _ fun w r hr =>
        ⟨keeps_secondRelease w r hr, sparesServed_secondRelease w r hr⟩)⟩

end Site

end SpaServer
