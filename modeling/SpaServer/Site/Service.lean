import SpaServer.Site.Replies

/-!
# Answering a request

`service.rs` and `cors.rs`: the host of a request names the domain, a request of another
origin is refused or let through, plain HTTP may be sent on to HTTPS, and what is left is
answered with a file.

Parsing is the work of `http` and `headers`: an authority, a method, the four conditional
headers.  It stays a parameter (`Http`), with what is used of `warp`.

`createService_congr`: a response depends on the cached files of the host, and on the disk
only where one of them is read from it.
-/

namespace SpaServer.Site

open Base

/-! ### Requests -/

abbrev HeaderValue := List UInt8

abbrev RequestHeaders := Str → Option HeaderValue

structure Request where
  method : Str
  /-- The host of the authority in the URI. -/
  authority : Option Str
  scheme : Option Str
  path : Str
  /-- The whole URI, as text. -/
  uri : Str
  headers : RequestHeaders

structure Http extends Warp where
  toStr : HeaderValue → Option Str
  /-- The host of an authority, if the text is one. -/
  authorityHost : Str → Option Str
  methodFromBytes : HeaderValue → Option Str
  conditionals : RequestHeaders → Conditionals

/-! ### Other origins -/

inductive Validated where
  | simple (origin : HeaderValue)
  | notCors
  deriving DecidableEq

/-- `ALLOW_METHODS`, a set, in the order in which it is written out. -/
def allowMethods : List Str := ["GET".toList, "OPTIONS".toList, "HEAD".toList]

def corsResp (res : Response) (origin : HeaderValue) : Response :=
  (((res.insert .accessControlAllowCredentials).insert
    (.accessControlAllowMethods allowMethods)).insert (.accessControlMaxAge 3600)).insert
    (.accessControlAllowOrigin origin)

/-- `service::resp`. -/
def resp (code : Nat) (text : Str) : Response := (Response.new (encodeUtf8 text)).withStatus code

/-- `resp_cors_request`; a response on the right of its `Either` is an error here. -/
def respCorsRequest (http : Http) (method : Str) (headers : RequestHeaders) (allowCors : Bool) :
    Except Response Validated :=
  match headers "origin".toList with
  | some origin =>
    if method = "OPTIONS".toList then
      if !allowCors then .error (resp 403 "origin not allowed".toList)
      else
        match headers "access-control-request-method".toList with
        | some reqMethod =>
          if (http.methodFromBytes reqMethod).any allowMethods.contains then
            .error (corsResp (.new []) origin)
          else .error (resp 403 "request-method not allowed".toList)
        | none => .error (resp 403 "request-method not allowed".toList)
    else if !allowCors then .error (resp 403 "origin not allowed".toList)
    else .ok (.simple origin)
  | none => .ok .notCors

/-! ### The service -/

structure DomainServiceConfig where
  cors : Bool
  httpRedirectToHttps : Bool
  deriving DecidableEq

structure ServiceConfig where
  fallback : DomainServiceConfig
  inner : DashMap DomainServiceConfig

def ServiceConfig.getDomainServiceConfig (conf : ServiceConfig) (domain : Str) :
    DomainServiceConfig := (conf.inner domain).getD conf.fallback

def Request.host (http : Http) (req : Request) : Option Str :=
  req.authority.or ((req.headers "host".toList).bind fun value =>
    (http.toStr value).bind http.authorityHost)

/-- The middle of `create_service`: a file, or why there is none. -/
def staticFile (http : Http) (w : World) (host : Str) (req : Request) : Response :=
  match getCacheFile req.path host w.storage with
  | .ok (_, item) =>
    cacheOrFileReply http.toWarp w.disk item (http.conditionals req.headers)
      ((req.headers "accept-encoding".toList).bind http.toStr)
  | .error resp => resp

def createService (http : Http) (conf : ServiceConfig) (w : World) (req : Request) : Response :=
  match req.host http with
  | none => (Response.new []).withStatus 403
  | some host =>
    let serviceConfig := conf.getDomainServiceConfig host
    match respCorsRequest http req.method req.headers serviceConfig.cors with
    | .error resp => resp
    | .ok validated =>
      if req.scheme = some "http".toList ∧ serviceConfig.httpRedirectToHttps then
        ((Response.new []).insert (.location req.uri)).withStatus 301
      else
        let resp := staticFile http w host req
        match validated with
        | .simple origin => corsResp resp origin
        | .notCors => resp

/-! ### What a response depends on -/

def readsDisk (item : CacheItem) : Bool :=
  match item.data with
  | .fileBlock _ => true
  | .cacheBlock _ compressed _ => compressed

/-- What an opened file holds is what its path leads to. -/
theorem openFile_contents (dk : Disk) (path : PathBuf) :
    (dk.openFile path).toOption.map (contents dk) =
      (dk.find path).map fun n => match n with
        | .file f => f.bytes
        | .dir => [] := by
  unfold Disk.openFile Disk.exists?
  cases hf : dk.find path with
  | none => rfl
  | some n =>
    show some (contents dk ⟨dk.locate path, false⟩) = _
    unfold contents
    cases n with
    | file f => rw [(Disk.find_eq_file hf).2.2]; rfl
    | dir => rw [(Disk.find_eq_dir hf).2]; rfl

theorem fileReply_congr (warp : Warp) {dk dk' : Disk} {path : PathBuf}
    (h : dk'.find path = dk.find path) (item : CacheItem) (range : Option Range)
    (modified : Option LastModified) :
    fileReply warp dk' item path range modified = fileReply warp dk item path range modified := by
  have hopen := openFile_contents dk' path
  rw [h, ← openFile_contents dk path] at hopen
  unfold fileReply
  cases ho : dk.openFile path with
  | error e =>
    rw [ho] at hopen
    cases ho' : dk'.openFile path with
    | error e' => rfl
    | ok file' => rw [ho'] at hopen; exact absurd hopen nofun
  | ok file =>
    rw [ho] at hopen
    cases ho' : dk'.openFile path with
    | error e' => rw [ho'] at hopen; exact absurd hopen nofun
    | ok file' =>
      rw [ho'] at hopen
      have hcontents : contents dk' file' = contents dk file := Option.some.inj hopen
      dsimp only
      rw [hcontents]

/-- **A reply from memory does not depend on the disk**, and any other on one path of it. -/
theorem cacheOrFileReply_congr (warp : Warp) {dk dk' : Disk} {item : CacheItem}
    (h : readsDisk item = true → dk'.find item.data.path = dk.find item.data.path)
    (conditionals : Conditionals) (acceptEncoding : Option Str) :
    cacheOrFileReply warp dk' item conditionals acceptEncoding =
      cacheOrFileReply warp dk item conditionals acceptEncoding := by
  unfold cacheOrFileReply
  unfold readsDisk DataBlock.path at h
  dsimp only
  cases warp.check conditionals _ with
  | noBody resp => rfl
  | withBody range =>
    dsimp only
    cases hd : item.data with
    | fileBlock path =>
      rw [hd] at h
      exact fileReply_congr warp (h rfl) item range _
    | cacheBlock bytes compressed path =>
      rw [hd] at h
      dsimp only at h ⊢
      split
      case isTrue hgzip =>
        rw [Bool.and_eq_true] at hgzip
        exact fileReply_congr warp (h hgzip.2) item range _
      case isFalse => rfl

/-- **A response depends on the cached files of the host**, and on the disk only where one of
them is read from it. -/
theorem createService_congr {http : Http} {conf : ServiceConfig} {w w' : World} {req : Request}
    {host : Str} (hhost : req.host http = some host)
    (hcache : w'.storage.cache.data host = w.storage.cache.data host)
    (hdisk : ∀ key item, w.storage.cache.getItem host key = some item → readsDisk item = true →
      w'.disk.find item.data.path = w.disk.find item.data.path) :
    createService http conf w' req = createService http conf w req := by
  have hget : ∀ key, w'.storage.cache.getItem host key = w.storage.cache.getItem host key := by
    intro key
    unfold FileCache.getItem
    rw [hcache]
  have hfile : staticFile http w' host req = staticFile http w host req := by
    unfold staticFile getCacheFile
    cases sanitizePath req.path with
    | error resp => rfl
    | ok s =>
      dsimp only
      rw [hget]
      cases hitem : w.storage.cache.getItem host _ with
      | none => rfl
      | some item => exact cacheOrFileReply_congr http.toWarp (hdisk _ item hitem) _ _
  unfold createService
  rw [hhost]
  dsimp only
  rw [hfile]

/-! ### Simple requests -/

/-- Header values are text, hosts are as they are sent, and no header is conditional. -/
def Http.simple : Http where
  toWarp := .simple
  toStr value := some (value.map fun b => Char.ofNat b.toNat)
  authorityHost := some
  methodFromBytes value := some (value.map fun b => Char.ofNat b.toNat)
  conditionals _ := ⟨none, none, none, none⟩

def plainService : ServiceConfig := ⟨⟨false, false⟩, .empty⟩

def get (host path : Str) : Request := ⟨"GET".toList, some host, none, path, path, fun _ => none⟩

end SpaServer.Site
