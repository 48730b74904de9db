import SpaServer.Storage.Outcome

/-!
# The admin server's services

`admin_server.rs`: the option types of the requests and the `service` functions,
one for each route, as programs over the operations of the storage.  How a
request is routed and decoded is in `SpaServer.AdminRoutes`; here it is already
one of `AdminRequest`, and `handle` is what the route does with it.

`deleteVersions` is the choice that `remove_domain_version` makes for one domain.
Its subtraction is that of `u32` in a release build and wraps.
-/

namespace SpaServer

open Base Program

/-! ### Requests and responses -/

structure GetDomainOption where
  domain : Option Str
  deriving DecidableEq

inductive GetDomainPositionFormat where
  | path
  | json
  deriving DecidableEq

structure GetDomainPositionOption where
  domain : Str
  format : GetDomainPositionFormat
  deriving DecidableEq

structure DomainWithVersionOption where
  domain : Str
  version : UInt32
  deriving DecidableEq

structure DomainWithOptVersionOption where
  domain : Str
  version : Option UInt32
  deriving DecidableEq

structure UpdateUploadingStatusOption where
  domain : Str
  version : UInt32
  status : UploadingStatus
  deriving DecidableEq

structure DeleteDomainVersionOption where
  domain : Option Str
  maxReserve : Option UInt32
  deriving DecidableEq

structure Part where
  name : Str
  data : List UInt8
  deriving DecidableEq

/-- What `update_file` has gathered from the parts so far. -/
structure UploadForm where
  file : Option (List UInt8)
  path : Option Str
  version : Option UInt32
  domain : Option Str
  deriving DecidableEq

inductive Body where
  | empty
  | text (s : Str)
  | error (e : StorageError)
  | badParams
  | domainInfo (info : DomainInfo)
  | domainInfos (infos : List DomainInfo)
  | position (p : UploadDomainPosition)
  | filesMetadata (files : List ShortMetaData)
  deriving DecidableEq

structure Response where
  status : Nat
  body : Body
  deriving DecidableEq

/-- `Response::default()`. -/
def Response.ok : Response := ⟨200, .empty⟩

def Response.badRequest (body : Body) : Response := ⟨400, body⟩

def Response.notFound : Response := ⟨404, .empty⟩

namespace Service

/-! ### Reading -/

variable (pathPrefix : PathBuf)

def getDomainInfo (option : GetDomainOption) : Method Response := do
  let domainInfo ← SpaServer.getDomainInfo pathPrefix
  match option.domain with
  | some domain =>
    match domainInfo.find? (·.domain = domain) with
    | some data => return ⟨200, .domainInfo data⟩
    | none => return .notFound
  | none => return ⟨200, .domainInfos domainInfo⟩

def getUploadPosition (option : GetDomainPositionOption) : Method Response := do
  if uriRegex.isMatch option.domain then
    let ret ← SpaServer.getUploadPosition pathPrefix option.domain
    match option.format with
    | .json => return ⟨200, .position ret⟩
    | .path => return ⟨200, .text ret.path⟩
  else return .badRequest .empty

def getFilesMetadata (crates : Crates) (query : DomainWithVersionOption) : Method Response := do
  let data ← SpaServer.getFilesMetadata pathPrefix crates query.domain query.version
  return ⟨200, .filesMetadata data⟩

/-! ### Uploading and releasing -/

def updateDomainVersion (option : DomainWithOptVersionOption) : Method Response := do
  match ← uploadDomainWithVersion pathPrefix option.domain option.version with
  | .ok version =>
    return ⟨200, .text ("domain:".toList ++ option.domain ++ " has changed to ".toList ++
      toDecimal version)⟩
  | .error _ => return .notFound

def changeUploadStatus (param : UpdateUploadingStatusOption) : Method Response := do
  match ← updateUploadingStatus pathPrefix param.domain param.version param.status with
  | .ok _ => return .ok
  | .error e => return .badRequest (.error e)

/-- One round of the loop of `update_file`. -/
def readPart (form : UploadForm) (p : Part) : UploadForm :=
  if p.name = "file".toList then { form with file := some p.data }
  else if p.name = "path".toList then { form with path := decodeUtf8 p.data }
  else if p.name = "version".toList then
    { form with version := (decodeUtf8 p.data).bind parseU32 }
  else if p.name = "domain".toList then { form with domain := decodeUtf8 p.data }
  else form

def updateFile (parts : List Part) : Method Response := do
  match parts.foldl readPart ⟨none, none, none, none⟩ with
  | ⟨some fileBuf, some path, some version, some domain⟩ =>
    match ← saveFile pathPrefix domain version path fileBuf with
    | .ok _ => return .ok
    | .error e => return .badRequest (.error e)
  | _ => return .badRequest .badParams

/-! ### Deleting -/

def deleteVersions (maxReserve : Option UInt32) (info : DomainInfo) : List UInt32 :=
  match maxReserve with
  | some maxReserve =>
    match info.currentVersion.or info.versions.max? with
    | some maxVersion => info.versions.filter (· < maxVersion - maxReserve)
    | none => []
  | none =>
    let currentVersion := info.currentVersion.getD 4294967295
    info.versions.filter (· ≠ currentVersion)

def removeVersions (domain : Str) : List UInt32 → Method Unit
  | [] => return ()
  | version :: rest => do
    let _ ← SpaServer.removeDomainVersion pathPrefix domain (some version)
    removeVersions domain rest

def removeDomains (maxReserve : Option UInt32) : List DomainInfo → Method Unit
  | [] => return ()
  | info :: rest => do
    removeVersions pathPrefix info.domain (deleteVersions maxReserve info)
    removeDomains maxReserve rest

def domainsInfo (query : DeleteDomainVersionOption) : Method (List DomainInfo) :=
  match query.domain with
  | some domain => do
    let info ← getDomainInfoByDomain pathPrefix domain
    return info.toList
  | none => SpaServer.getDomainInfo pathPrefix

def removeDomainVersion (query : DeleteDomainVersionOption) : Method Response := do
  let infos ← domainsInfo pathPrefix query
  removeDomains pathPrefix query.maxReserve infos
  return .ok

end Service

/-! ### One request after another -/

inductive AdminRequest where
  | getDomainInfo (option : GetDomainOption)
  | getUploadPosition (option : GetDomainPositionOption)
  | getFilesMetadata (query : DomainWithVersionOption)
  | updateDomainVersion (option : DomainWithOptVersionOption)
  | changeUploadStatus (param : UpdateUploadingStatusOption)
  | uploadFile (parts : List Part)
  | removeDomainVersion (query : DeleteDomainVersionOption)
  deriving DecidableEq

def handle (crates : Crates) (pathPrefix : PathBuf) : AdminRequest → Method Response
  | .getDomainInfo option => Service.getDomainInfo pathPrefix option
  | .getUploadPosition option => Service.getUploadPosition pathPrefix option
  | .getFilesMetadata query => Service.getFilesMetadata pathPrefix crates query
  | .updateDomainVersion option => Service.updateDomainVersion pathPrefix option
  | .changeUploadStatus param => Service.changeUploadStatus pathPrefix param
  | .uploadFile parts => Service.updateFile pathPrefix parts
  | .removeDomainVersion query => Service.removeDomainVersion pathPrefix query

def World.serve (crates : Crates) (w : World) (r : AdminRequest) : Response × World :=
  (handle crates w.storage.pathPrefix r).run (meaning crates) w

end SpaServer
