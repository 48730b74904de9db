import SpaServer.AdminRoutes
import SpaServer.Serve

/-!
# The client's API

`api.rs`: for each operation of the admin server the request that the client
builds for it.  The address names the admin server and has no path of its own, and
the token is the one the server asks for.

`Delivered` is what such a method is for: it builds a request, the routes take the
request, and what is decoded for the handler is what the caller passed.  So
`delivered_iff` compares the two crates operation by operation.  Two of them do not
fit: the domain given to `get_domain_info` makes no query, and `remove_files` puts
its arguments in a JSON body where the route reads the query.
-/

namespace SpaServer

open Base

namespace Client

structure API where
  address : Str
  authToken : Str

inductive ApiError where
  | builder
  | io
  | panic
  deriving DecidableEq

/-- What is handed to `RequestBuilder::query`. -/
inductive QueryArg where
  | pairs (q : List (Str × Str))
  | strs (xs : List Str)

/-- `RequestBuilder::query`: `serde_urlencoded` takes sequences of pairs only, with
anything else the builder fails when the request is sent. -/
def withQuery (req : HttpRequest) : QueryArg → Except ApiError HttpRequest
  | .pairs q => .ok { req with query := q }
  | .strs _ => .error .builder

namespace API

variable (api : API)

def request (method : HttpMethod) (uri : Str) (body : HttpBody) : HttpRequest where
  method := method
  path := '/' :: uri
  query := []
  authorization := some ("Bearer ".toList ++ api.authToken)
  body := body

def getDomainInfo (domain : Option Str) : Except ApiError HttpRequest :=
  let q := api.request .get "status".toList .empty
  match domain with
  | some domain => withQuery q (.strs ["domain".toList, domain])
  | none => .ok q

def changeUploadingStatus (param : UpdateUploadingStatusOption) : Except ApiError HttpRequest :=
  .ok (api.request .post "files/upload_status".toList (.json param.toJson))

def releaseDomainVersion (domain : Str) (version : Option UInt32) : Except ApiError HttpRequest :=
  .ok (api.request .post "update_version".toList
    (.json (DomainWithOptVersionOption.mk domain version).toJson))

def reloadSapServer : Except ApiError HttpRequest :=
  .ok (api.request .post "reload".toList .empty)

def removeFiles (domain : Option Str) (maxReserve : Option UInt32) :
    Except ApiError HttpRequest :=
  .ok (api.request .post "files/delete".toList
    (.json (DeleteDomainVersionOption.mk domain maxReserve).toJson))

def uploadForm (domain version key : Str) (name : Str) (content : List UInt8) : List FormPart :=
  [{ name := "domain".toList, data := encodeUtf8 domain, fileName := none },
    { name := "version".toList, data := encodeUtf8 version, fileName := none },
    { name := "path".toList, data := encodeUtf8 key, fileName := none },
    { name := "file".toList, data := content, fileName := some name }]

/-- A directory can be opened, but not read. -/
def uploadFile (dk : Disk) (domain version key : Str) (path : PathBuf) :
    Except ApiError HttpRequest :=
  match fileName path with
  | none => .error .panic
  | some name =>
    match dk.find path with
    | some (.file f) => .ok (api.request .post "file/upload".toList
        (.multipart (uploadForm domain version key name f.bytes)))
    | _ => .error .io

def getFileMetadata (domain : Str) (version : UInt32) : Except ApiError HttpRequest :=
  withQuery (api.request .get "files/metadata".toList .empty)
    (.pairs [("domain".toList, domain), ("version".toList, toDecimal version)])

def getUploadPosition (domain : Str) : Except ApiError HttpRequest :=
  withQuery (api.request .get "upload/position".toList .empty)
    (.pairs [("domain".toList, domain), ("format".toList, "Json".toList)])

end API

/-! ### What arrives -/

inductive ApiCall where
  | getDomainInfo (domain : Option Str)
  | changeUploadingStatus (param : UpdateUploadingStatusOption)
  | releaseDomainVersion (domain : Str) (version : Option UInt32)
  | removeFiles (domain : Option Str) (maxReserve : Option UInt32)
  | uploadFile (domain version key : Str) (path : PathBuf)
  | getFileMetadata (domain : Str) (version : UInt32)
  | getUploadPosition (domain : Str)

def ApiCall.request (api : API) (dk : Disk) : ApiCall → Except ApiError HttpRequest
  | getDomainInfo domain => api.getDomainInfo domain
  | changeUploadingStatus param => api.changeUploadingStatus param
  | releaseDomainVersion domain version => api.releaseDomainVersion domain version
  | removeFiles domain maxReserve => api.removeFiles domain maxReserve
  | uploadFile domain version key path => api.uploadFile dk domain version key path
  | getFileMetadata domain version => api.getFileMetadata domain version
  | getUploadPosition domain => api.getUploadPosition domain

/-- What the handler decodes says what the caller passed. -/
def ApiCall.Says (dk : Disk) : ApiCall → AdminRequest → Prop
  | getDomainInfo domain, r => r = .getDomainInfo ⟨domain⟩
  | changeUploadingStatus param, r => r = .changeUploadStatus param
  | releaseDomainVersion domain version, r => r = .updateDomainVersion ⟨domain, version⟩
  | removeFiles domain maxReserve, r => r = .removeDomainVersion ⟨domain, maxReserve⟩
  | uploadFile domain version key path, r => ∃ parts f v, r = .uploadFile parts ∧
      dk.find path = some (.file f) ∧ parseU32 version = some v ∧
      formOf parts = ⟨some f.bytes, some key, some v, some domain⟩
  | getFileMetadata domain version, r => r = .getFilesMetadata ⟨domain, version⟩
  | getUploadPosition domain, r => r = .getUploadPosition ⟨domain, .json⟩

/-- The method builds a request, the routes take it, and the handler gets what was passed. -/
def Delivered (conf : AdminConfig) (formLength : List FormPart → Nat) (address : Str)
    (dk : Disk) (c : ApiCall) : Prop :=
  ∃ req r, c.request ⟨address, conf.token⟩ dk = .ok req ∧
    AdminServer.routes conf formLength req = some (.service r) ∧ c.Says dk r

/-- What the arguments have to be for that. -/
def ApiCall.Fits (conf : AdminConfig) (formLength : List FormPart → Nat) (dk : Disk) :
    ApiCall → Prop
  | getDomainInfo domain => domain = none
  | changeUploadingStatus param => jsonLength param.toJson ≤ 1024 * 16
  | releaseDomainVersion domain version =>
    jsonLength (DomainWithOptVersionOption.mk domain version).toJson ≤ 1024 * 16
  | removeFiles domain maxReserve => domain = none ∧ maxReserve = none
  | uploadFile domain version key path => ∃ name f v, fileName path = some name ∧
      dk.find path = some (.file f) ∧ parseU32 version = some v ∧
      formLength (API.uploadForm domain version key name f.bytes) ≤ conf.maxUploadSize
  | getFileMetadata _ _ | getUploadPosition _ => True

/-! ### Where the requests are routed -/

section Routes

variable {conf : AdminConfig} {formLength : List FormPart → Nat} {api : API} {req : HttpRequest}

theorem routes_of_token (h : req.authorization = some ("Bearer ".toList ++ api.authToken)) :
    AdminServer.routes conf formLength req =
      if api.authToken = conf.token then
        match req.method with
        | .get => AdminServer.getDomainInfo req <|> AdminServer.getDomainUploadPath req <|>
            AdminServer.getFilesMetadata req
        | .post => AdminServer.updateDomainVersion req <|> AdminServer.reloadServer req <|>
            AdminServer.changeUploadStatus req <|> AdminServer.uploadFile conf formLength req <|>
            AdminServer.removeDomainVersion req
      else none := by
  rw [AdminServer.routes, AdminServer.auth, h]
  by_cases ht : api.authToken = conf.token
  · exact (if_pos (by simp [ht])).trans (if_pos ht).symm
  · rw [if_neg ht, if_neg (by simpa using ht)]

theorem routes_getDomainInfo (h : api.getDomainInfo none = .ok req) :
    AdminServer.routes conf formLength req =
      if api.authToken = conf.token then some (.service (.getDomainInfo ⟨none⟩)) else none := by
  obtain rfl := Except.ok.inj h
  rw [routes_of_token rfl]
  rfl

theorem routes_changeUploadingStatus {param : UpdateUploadingStatusOption}
    (h : api.changeUploadingStatus param = .ok req) :
    AdminServer.routes conf formLength req =
      if api.authToken = conf.token ∧ jsonLength param.toJson ≤ 1024 * 16 then
        some (.service (.changeUploadStatus param))
      else none := by
  obtain rfl := Except.ok.inj h
  rw [routes_of_token rfl, ite_and]
  congr 1
  show ((if jsonLength param.toJson ≤ 1024 * 16 then
    UpdateUploadingStatusOption.ofJson param.toJson else none).map
      (fun o => AdminCall.service (.changeUploadStatus o)) <|> none) = _
  split <;> simp

theorem routes_releaseDomainVersion {domain : Str} {version : Option UInt32}
    (h : api.releaseDomainVersion domain version = .ok req) :
    AdminServer.routes conf formLength req =
      if api.authToken = conf.token ∧
          jsonLength (DomainWithOptVersionOption.mk domain version).toJson ≤ 1024 * 16 then
        some (.service (.updateDomainVersion ⟨domain, version⟩))
      else none := by
  obtain rfl := Except.ok.inj h
  rw [routes_of_token rfl, ite_and]
  congr 1
  show ((if jsonLength (DomainWithOptVersionOption.mk domain version).toJson ≤ 1024 * 16
    then DomainWithOptVersionOption.ofJson (DomainWithOptVersionOption.mk domain version).toJson
    else none).map (fun o => AdminCall.service (.updateDomainVersion o)) <|> none) = _
  split <;> simp

/-- The body is not read, so nothing of the arguments is. -/
theorem routes_removeFiles {domain : Option Str} {maxReserve : Option UInt32}
    (h : api.removeFiles domain maxReserve = .ok req) :
    AdminServer.routes conf formLength req =
      if api.authToken = conf.token then some (.service (.removeDomainVersion ⟨none, none⟩))
      else none := by
  obtain rfl := Except.ok.inj h
  rw [routes_of_token rfl]
  rfl

theorem uploadFile_eq_ok {dk : Disk} {domain version key : Str} {path : PathBuf} :
    api.uploadFile dk domain version key path = .ok req ↔
      ∃ name f, fileName path = some name ∧ dk.find path = some (.file f) ∧
        req = api.request .post "file/upload".toList
          (.multipart (API.uploadForm domain version key name f.bytes)) := by
  rw [API.uploadFile]
  constructor
  · intro h
    cases hname : fileName path with
    | none => rw [hname] at h; exact absurd h (by simp)
    | some name =>
      rw [hname] at h
      dsimp only at h
      split at h
      · next f hf => exact ⟨name, f, rfl, hf, (Except.ok.inj h).symm⟩
      · exact absurd h (by simp)
  · rintro ⟨name, f, hname, hf, rfl⟩
    rw [hname, hf]

theorem routes_uploadForm {domain version key name : Str} {content : List UInt8} :
    AdminServer.routes conf formLength (api.request .post "file/upload".toList
        (.multipart (API.uploadForm domain version key name content))) =
      if api.authToken = conf.token ∧
          formLength (API.uploadForm domain version key name content) ≤ conf.maxUploadSize then
        some (.service (.uploadFile
          ((API.uploadForm domain version key name content).map (·.toPart))))
      else none := by
  rw [routes_of_token rfl, ite_and]
  congr 1
  show ((if _ ≤ _ then some (AdminCall.service (.uploadFile _)) else none) <|> none) = _
  split <;> rfl

theorem formOf_uploadForm (domain version key name : Str) (content : List UInt8) :
    formOf ((API.uploadForm domain version key name content).map (·.toPart)) =
      ⟨some content, some key, parseU32 version, some domain⟩ := by
  show UploadForm.mk (some content) (decodeUtf8 (encodeUtf8 key))
    ((decodeUtf8 (encodeUtf8 version)).bind parseU32) (decodeUtf8 (encodeUtf8 domain)) = _
  rw [decodeUtf8_encodeUtf8, decodeUtf8_encodeUtf8, decodeUtf8_encodeUtf8]
  rfl

theorem routes_getFileMetadata {domain : Str} {version : UInt32}
    (h : api.getFileMetadata domain version = .ok req) :
    AdminServer.routes conf formLength req =
      if api.authToken = conf.token then some (.service (.getFilesMetadata ⟨domain, version⟩))
      else none := by
  obtain rfl := Except.ok.inj h
  rw [routes_of_token rfl]
  congr 1
  show ((parseU32 (toDecimal version)).bind fun v =>
    some (DomainWithVersionOption.mk domain v)).map
      (fun q => AdminCall.service (.getFilesMetadata q)) = _
  rw [parseU32_toDecimal]
  rfl

theorem routes_getUploadPosition {domain : Str} (h : api.getUploadPosition domain = .ok req) :
    AdminServer.routes conf formLength req =
      if api.authToken = conf.token then some (.service (.getUploadPosition ⟨domain, .json⟩))
      else none := by
  obtain rfl := Except.ok.inj h
  rw [routes_of_token rfl]
  rfl

end Routes

/-! ### Every method -/

section Delivered

variable {conf : AdminConfig} {formLength : List FormPart → Nat} {address : Str} {dk : Disk}

theorem delivered_of_ok {c : ApiCall} {req : HttpRequest}
    (hreq : c.request ⟨address, conf.token⟩ dk = .ok req) :
    Delivered conf formLength address dk c ↔
      ∃ r, AdminServer.routes conf formLength req = some (.service r) ∧ c.Says dk r := by
  constructor
  · rintro ⟨req', r, hreq', h⟩
    obtain rfl := Except.ok.inj (hreq.symm.trans hreq')
    exact ⟨r, h⟩
  · rintro ⟨r, h⟩
    exact ⟨req, r, hreq, h⟩

/-- **A method's arguments arrive just when they fit.** -/
theorem delivered_iff (c : ApiCall) :
    Delivered conf formLength address dk c ↔ c.Fits conf formLength dk := by
  cases c with
  | getDomainInfo domain =>
    cases domain with
    | none =>
      rw [delivered_of_ok rfl, routes_getDomainInfo rfl, if_pos rfl]
      exact ⟨fun _ => rfl, fun _ => ⟨_, rfl, rfl⟩⟩
    | some d =>
      constructor
      · rintro ⟨req, r, hreq, _⟩
        exact absurd hreq (by simp [ApiCall.request, API.getDomainInfo, withQuery])
      · intro h
        exact absurd h (by simp [ApiCall.Fits])
  | changeUploadingStatus param =>
    rw [delivered_of_ok rfl, routes_changeUploadingStatus rfl, ApiCall.Fits]
    simp only [true_and]
    by_cases h : jsonLength param.toJson ≤ 1024 * 16
    · simp [h, ApiCall.Says]
    · simp [h]
  | releaseDomainVersion domain version =>
    rw [delivered_of_ok rfl, routes_releaseDomainVersion rfl, ApiCall.Fits]
    simp only [true_and]
    by_cases h : jsonLength (DomainWithOptVersionOption.mk domain version).toJson ≤ 1024 * 16
    · simp [h, ApiCall.Says]
    · simp [h]
  | removeFiles domain maxReserve =>
    rw [delivered_of_ok rfl, routes_removeFiles rfl, if_pos rfl]
    simp [ApiCall.Says, ApiCall.Fits, eq_comm]
  | uploadFile domain version key path =>
    constructor
    · rintro ⟨req, r, hreq, hr, parts, f, v, rfl, hf, hv, -⟩
      obtain ⟨name, f', hname, hf', rfl⟩ := uploadFile_eq_ok.mp hreq
      cases hf.symm.trans hf'
      rw [routes_uploadForm] at hr
      refine ⟨name, f, v, hname, hf, hv, ?_⟩
      by_contra hlen
      rw [if_neg fun h => hlen h.2] at hr
      exact absurd hr (by simp)
    · rintro ⟨name, f, v, hname, hf, hv, hlen⟩
      refine ⟨_, _, uploadFile_eq_ok.mpr ⟨name, f, hname, hf, rfl⟩,
        routes_uploadForm.trans (if_pos ⟨rfl, hlen⟩), _, f, v, rfl, hf, hv, ?_⟩
      rw [formOf_uploadForm, hv]
  | getFileMetadata domain version =>
    rw [delivered_of_ok rfl, routes_getFileMetadata rfl, if_pos rfl]
    exact ⟨fun _ => trivial, fun _ => ⟨_, rfl, rfl⟩⟩
  | getUploadPosition domain =>
    rw [delivered_of_ok rfl, routes_getUploadPosition rfl, if_pos rfl]
    exact ⟨fun _ => trivial, fun _ => ⟨_, rfl, rfl⟩⟩

/-- `delete www.a.com 2` asks the server to delete what no version serves, everywhere. -/
theorem removeFiles_lost :
    ¬ ∀ (conf : AdminConfig) (formLength : List FormPart → Nat) (address : Str) (dk : Disk)
      (c : ApiCall), Delivered conf formLength address dk c := by
  intro h
  obtain ⟨req, r, hreq, hr, rfl⟩ := h
    ⟨9000, "127.0.0.1".toList, "token".toList, defaultMaxUploadSize, none⟩ (fun _ => 0)
    "http://127.0.0.1:9000".toList Disk.empty (.removeFiles (some "www.a.com".toList) (some 2))
  obtain rfl := Except.ok.inj hreq
  have hnone : some (AdminCall.service (.removeDomainVersion ⟨none, none⟩)) =
      some (.service (.removeDomainVersion ⟨some "www.a.com".toList, some 2⟩)) := hr
  exact absurd hnone (by decide)

end Delivered

end Client

end SpaServer
