import SpaServer.Site.Encoding

/-!
# Sending plain HTTP on to HTTPS

`Server::new` works out for every domain whether plain HTTP is to be redirected, and both
listeners answer with `create_service`.  It asks the scheme of the request target, which a target
in origin form does not have, and it answers with the target itself.

* `redirects_eq`: the setting of a host is that of its entry, or else the default.
* `plainHttp_never_redirects`: no request over plain HTTP is sent on to HTTPS, whatever is set: one
  in origin form is answered with the file, and one for `http://` with its own address.
-/

namespace SpaServer.Site

open Base

/-! ### The settings -/

/-- `HttpsConfig`, as far as `Server::new` reads it. -/
structure HttpsSettings where
  httpRedirectToHttps : Bool

/-- `DomainHttpsConfig`, as far as `Server::new` reads it. -/
structure DomainHttpsSettings where
  httpRedirectToHttps : Option Bool

/-- `DomainConfig`, as far as `Server::new` reads it. -/
structure DomainSettings where
  domain : Str
  cors : Option Bool
  https : Option DomainHttpsSettings

/-- `Config`, as far as `Server::new` reads it. -/
structure Settings where
  cors : Bool
  https : Option HttpsSettings
  domains : List DomainSettings

def Settings.defaultRedirect (conf : Settings) : Bool :=
  (conf.https.map (·.httpRedirectToHttps)).getD false

def ServiceConfig.new (conf : Settings) : ServiceConfig where
  fallback := ⟨conf.cors, conf.defaultRedirect⟩
  inner := DashMap.collect (conf.domains.map fun domain =>
    (domain.domain, ⟨domain.cors.getD conf.cors,
      (domain.https.bind (·.httpRedirectToHttps)).getD conf.defaultRedirect⟩))

def Settings.entry (conf : Settings) (host : Str) : Option DomainSettings :=
  (conf.domains.filter fun domain => domain.domain = host).getLast?

def Settings.redirects (conf : Settings) (host : Str) : Bool :=
  ((conf.entry host).bind fun domain => domain.https.bind (·.httpRedirectToHttps)).getD
    conf.defaultRedirect

/-- **The setting of a host** is that of its entry, or else the default. -/
theorem redirects_eq (conf : Settings) (host : Str) :
    ((ServiceConfig.new conf).getDomainServiceConfig host).httpRedirectToHttps =
      conf.redirects host := by
  have hinner : (ServiceConfig.new conf).inner host = (conf.entry host).map fun domain =>
      ⟨domain.cors.getD conf.cors,
        (domain.https.bind (·.httpRedirectToHttps)).getD conf.defaultRedirect⟩ := by
    show DashMap.collect _ host = _
    rw [DashMap.collect_eq, List.filter_map, List.getLast?_map, Option.map_map]
    rfl
  unfold ServiceConfig.getDomainServiceConfig Settings.redirects
  rw [hinner]
  cases conf.entry host with
  | none => rfl
  | some domain => rfl

/-! ### Requests over plain HTTP -/

/-- The target of a request, in the parts it is cut into, each as it stands in the request
line. -/
inductive RequestTarget where
  | originForm (path : Str) (query : Option Str)
  | absoluteForm (scheme authority path : Str) (query : Option Str)

/-- `Uri::scheme`: `http` and `https` in lower case, any other as it is written. -/
def uriScheme (written : Str) : Str :=
  let lower := written.map Char.toLower
  if lower = "http".toList ∨ lower = "https".toList then lower else written

/-- `Uri::path`: nothing reads as the root. -/
def uriPath (written : Str) : Str := if written = [] then "/".toList else written

def RequestTarget.path : RequestTarget → Str
  | originForm path _ | absoluteForm _ _ path _ => uriPath path

def RequestTarget.query : RequestTarget → Str
  | originForm _ query | absoluteForm _ _ _ query => (query.map fun query => '?' :: query).getD []

/-- The request that `hyper` makes of a target: one in origin form has no scheme and no
authority. -/
def received (http : Http) (method : Str) (target : RequestTarget) (headers : RequestHeaders) :
    Request where
  method := method
  authority := match target with
    | .originForm _ _ => none
    | .absoluteForm _ authority _ _ => http.authorityHost authority
  scheme := match target with
    | .originForm _ _ => none
    | .absoluteForm scheme _ _ _ => some (uriScheme scheme)
  path := target.path
  uri := match target with
    | .originForm _ _ => target.path ++ target.query
    | .absoluteForm scheme authority _ _ =>
      uriScheme scheme ++ "://".toList ++ authority ++ target.path ++ target.query
  headers := headers

/-- The response sends the client on to the same host, path and query under HTTPS.  The root may
be left out of the address. -/
def SendsToHttps (http : Http) (host : Str) (target : RequestTarget) (resp : Response) : Prop :=
  resp.status = 301 ∧ ∃ authority path, http.authorityHost authority = some host ∧
    uriPath path = target.path ∧
    resp.headers .location =
      some (.location ("https://".toList ++ authority ++ path ++ target.query))

/-! ### The status of a file -/

section Status

variable {http : Http} {item : CacheItem} {modified : Option LastModified}

/-- The statuses that a request for a file can have. -/
def fileStatuses : List Nat := [200, 206, 304, 404, 412, 416]

theorem cacheReply_status (bytes : List UInt8) (range : Option Range) :
    (cacheReply item bytes range modified).status ∈ fileStatuses := by
  cases hrange : bytesRange range bytes.length with
  | error e =>
    have h416 : (rangeNotSatisfiable bytes.length).status = 416 := rfl
    rw [cacheReply_error hrange, h416]
    decide
  | ok interval =>
    obtain ⟨start, stop⟩ := interval
    have hreply : ReplyOf bytes start stop (cacheReply item bytes range modified) :=
      cacheReply_ok hrange
    by_cases hall : stop - start = bytes.length
    · rw [hreply.whole hall]
      decide
    · rw [(hreply.part hall).1]
      decide

theorem fileReply_status (warp : Warp) (dk : Disk) (path : PathBuf) (range : Option Range) :
    (fileReply warp dk item path range modified).status ∈ fileStatuses := by
  unfold fileReply
  dsimp only
  cases dk.openFile path with
  | error e => show 404 ∈ fileStatuses; decide
  | ok file =>
    dsimp only
    cases bytesRange range item.fileMeta.len with
    | error e => show 416 ∈ fileStatuses; decide
    | ok interval =>
      dsimp only
      split
      · show 206 ∈ fileStatuses
        decide
      · show (cacheItemToResponseHeader _ item modified).status ∈ fileStatuses
        rw [cacheItemToResponseHeader_status]
        show 200 ∈ fileStatuses
        decide

theorem cacheOrFileReply_status {warp : Warp} (hplain : warp.AnswersPlain) (dk : Disk)
    (conditionals : Conditionals) (acceptEncoding : Option Str) :
    (cacheOrFileReply warp dk item conditionals acceptEncoding).status ∈ fileStatuses := by
  cases hcheck : warp.check conditionals
      (some (LastModified.ofSystemTime item.fileMeta.modified)) with
  | noBody resp =>
    rw [reply_noBody hcheck]
    rcases (hplain _ _ _ hcheck).1 with h | h
    · rw [h]
      decide
    · rw [h]
      decide
  | withBody range =>
    unfold cacheOrFileReply
    dsimp only
    rw [hcheck]
    dsimp only
    split
    · split
      · exact fileReply_status ..
      · split
        · exact cacheReply_status ..
        · exact cacheReply_status ..
    · exact fileReply_status ..

theorem staticFile_status (hplain : http.toWarp.AnswersPlain) (w : World) (host : Str)
    (req : Request) : (staticFile http w host req).status ∈ fileStatuses := by
  unfold staticFile
  cases hfile : getCacheFile req.path host w.storage with
  | error resp =>
    rw [getCacheFile_error hfile]
    show 404 ∈ fileStatuses
    decide
  | ok found => exact cacheOrFileReply_status hplain ..

end Status

/-! ### No request is sent on -/

/-- What is sent on is sent on to the target itself, and that begins with `http:`. -/
theorem location_of_received {http : Http} {method : Str} {target : RequestTarget}
    {headers : RequestHeaders} (h : (received http method target headers).scheme =
      some "http".toList) (rest : Str) :
    (received http method target headers).uri ≠ "https://".toList ++ rest := by
  cases target with
  | originForm path query => exact absurd h (by simp [received])
  | absoluteForm scheme authority path query =>
    have hhttp : uriScheme scheme = "http".toList := Option.some.inj h
    show uriScheme scheme ++ "://".toList ++ authority ++ _ ++ _ ≠ _
    rw [hhttp]
    intro he
    have hfifth : (':' : Char) = 's' := Option.some.inj (congrArg (fun s : Str => s[4]?) he)
    exact absurd hfifth (by decide)

/-- **No request over plain HTTP is sent on to HTTPS.**  A request that the CORS check lets through,
for a host that is to be redirected, is never answered with its address under HTTPS: with the
scheme `http` it is sent to the address it asked for, and without it gets the file. -/
theorem plainHttp_never_redirects {http : Http} (hplain : http.toWarp.AnswersPlain)
    (conf : Settings) (w : World) (method : Str) (target : RequestTarget) (headers : RequestHeaders)
    {host : Str} {validated : Validated}
    (hhost : (received http method target headers).host http = some host)
    (hset : conf.redirects host = true)
    (hcors : respCorsRequest http method headers
      ((ServiceConfig.new conf).getDomainServiceConfig host).cors = .ok validated) :
    let req := received http method target headers
    let resp := createService http (.new conf) w req
    ¬ SendsToHttps http host target resp ∧
      (req.scheme = some "http".toList →
        resp.status = 301 ∧ resp.headers .location = some (.location req.uri)) ∧
      (req.scheme ≠ some "http".toList →
        resp = withCors validated (staticFile http w host req)) := by
  intro req resp
  have hresp : resp = if req.scheme = some "http".toList ∧
      ((ServiceConfig.new conf).getDomainServiceConfig host).httpRedirectToHttps = true then
        ((Response.new []).insert (.location req.uri)).withStatus 301
      else withCors validated (staticFile http w host req) := by
    have hcors' : respCorsRequest http req.method req.headers
      ((ServiceConfig.new conf).getDomainServiceConfig host).cors = .ok validated := hcors
    show createService http (.new conf) w req = _
    unfold createService
    rw [hhost]
    dsimp only
    rw [hcors']
    rfl
  rw [redirects_eq, hset] at hresp
  by_cases hscheme : req.scheme = some "http".toList
  · rw [if_pos ⟨hscheme, rfl⟩] at hresp
    refine ⟨?_, fun _ => ?_, fun hne => absurd hscheme hne⟩
    · rintro ⟨_, authority, path, _, _, hlocation⟩
      rw [hresp] at hlocation
      have huri : req.uri = "https://".toList ++ authority ++ path ++ target.query :=
        Header.location.inj (Option.some.inj hlocation)
      rw [List.append_assoc, List.append_assoc] at huri
      exact location_of_received hscheme _ huri
    · rw [hresp]
      exact ⟨rfl, rfl⟩
  · rw [if_neg fun h => hscheme h.1] at hresp
    refine ⟨?_, fun h => absurd h hscheme, fun _ => hresp⟩
    rintro ⟨hstatus, _⟩
    rw [hresp, withCors_status] at hstatus
    have hmem := staticFile_status hplain w host req
    rw [hstatus] at hmem
    exact absurd hmem (by decide)

def redirectAll : Settings := ⟨false, some ⟨true⟩, []⟩

def hostHeader : RequestHeaders :=
  Function.update (fun _ => none) "host".toList (some (encodeUtf8 "www.a.com".toList))

theorem originForm_served :
    ¬ SendsToHttps .simple "www.a.com".toList (.originForm "/index.html".toList none)
      (createService .simple (.new redirectAll) compressedWorld
        (received .simple "GET".toList (.originForm "/index.html".toList none) hostHeader)) := by
  rintro ⟨hstatus, _⟩
  exact absurd hstatus (by decide +kernel)

/-- `GET HTTP://www.a.com?a=1` is sent on to itself. -/
theorem plainHttp_never_redirects_loop :
    let target : RequestTarget :=
      .absoluteForm "HTTP".toList "www.a.com".toList [] (some "a=1".toList)
    let resp := createService .simple (.new redirectAll) compressedWorld
      (received .simple "GET".toList target hostHeader)
    ¬ SendsToHttps .simple "www.a.com".toList target resp ∧ resp.status = 301 ∧
      resp.headers .location = some (.location "http://www.a.com/?a=1".toList) := by
  intro target resp
  have hcors : respCorsRequest .simple "GET".toList hostHeader false = .ok .notCors := by
    have horigin : hostHeader "origin".toList = none := by decide +kernel
    unfold respCorsRequest
    rw [horigin]
  have hhost : (received .simple "GET".toList target hostHeader).host .simple =
      some "www.a.com".toList := rfl
  have h := plainHttp_never_redirects simple_answersPlain redirectAll compressedWorld
    "GET".toList target hostHeader hhost rfl hcors
  exact ⟨h.1, h.2.1 rfl⟩

end SpaServer.Site
