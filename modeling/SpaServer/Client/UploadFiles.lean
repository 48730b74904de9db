import SpaServer.Client.Api

/-!
# Uploading a directory

`upload_files.rs`: `uploadFiles` is the client's program over the requests it
sends.  The reply to a request is the server's response, or `none` when sending it
failed; the uploads of the files go on concurrently, in the order that the
schedule `sched` says.

`Host` is the admin server that answers, and `Net` its state with what becomes of
the requests on their way: each is answered, or handled without its response
coming back, or lost.
-/

namespace SpaServer

open Base Program

namespace Client

/-! ### The server and the network -/

/-- The admin server, as its configuration and the crates it uses. -/
structure Host where
  crates : Crates
  conf : AdminConfig
  formLength : List FormPart → Nat

inductive Delivery where
  | answered
  | unanswered
  | lost
  deriving DecidableEq

/-- The state of the server and the fate of the requests to come; those past the end
of the list are answered. -/
structure Net where
  world : World
  deliveries : List Delivery

/-- Answer a request.  A client only sees of a rejection that its status is not 200;
reloading is no business of a client that uploads. -/
def Host.answer (host : Host) (w : World) (req : HttpRequest) : Response × World :=
  match AdminServer.routes host.conf host.formLength req with
  | some (.service r) => w.serve host.crates r
  | _ => (.notFound, w)

def Host.meaning (host : Host) : Meaning HttpRequest (fun _ => Option Response) Net
  | req, ⟨w, deliveries⟩ =>
    match deliveries.headD .answered with
    | .answered => (some (host.answer w req).1, ⟨(host.answer w req).2, deliveries.tail⟩)
    | .unanswered => (none, ⟨(host.answer w req).2, deliveries.tail⟩)
    | .lost => (none, ⟨w, deliveries.tail⟩)

abbrev ClientM (α : Type) := Program HttpRequest (fun _ => Option Response) α

def call : Except ApiError HttpRequest → ClientM (Option Response)
  | .ok req => perform req
  | .error _ => return none

@[simp] theorem call_ok_bind {β : Type} (req : HttpRequest) (f : Option Response → ClientM β) :
    call (.ok req) >>= f = .call req f := rfl

def handleResp (resp : Option Response) : Bool := resp.any fun r => r.status = 200

/-- `json_resp!(resp, UploadDomainPosition)`. -/
def positionResp : Option Response → Option UploadDomainPosition
  | some ⟨200, .position p⟩ => some p
  | _ => none

/-- `json_resp!(resp, Vec<ShortMetaData>)`. -/
def metadataResp : Option Response → Option (List ShortMetaData)
  | some ⟨200, .filesMetadata files⟩ => some files
  | _ => none

theorem handleResp_some {reply : Option Response} (h : handleResp reply = true) :
    ∃ resp, reply = some resp ∧ resp.status = 200 := by
  cases reply with
  | none => exact absurd h (by simp [handleResp])
  | some resp => exact ⟨resp, rfl, by simpa [handleResp] using h⟩

theorem positionResp_some {reply : Option Response} {p : UploadDomainPosition}
    (h : positionResp reply = some p) : reply = some ⟨200, .position p⟩ := by
  unfold positionResp at h
  split at h
  · rw [Option.some.inj h]
  · exact absurd h (by simp)

/-! ### `upload_files` -/

inductive UploadError where
  | io
  | notDirectory
  | panic
  | request
  | noFile
  | uploadFail
  deriving DecidableEq

structure UploadingFile where
  key : Str
  path : PathBuf
  deriving DecidableEq

/-- `fs::canonicalize`, of a place that exists, and `to_str`. -/
def canonicalText (l : Loc) : Option Str :=
  l.foldlM (fun p c => c.toStr.map (push p)) (absolute [])

/-- What is to be done about one entry of the local directory. -/
def uploadingFile (crates : Crates) (serverMetadata : DashMap ShortMetaData)
    (prefixPath : Str) (e : Disk.Entry) : Option UploadingFile :=
  match e.node, e.text with
  | .file f, some path =>
    let key := remove prefixPath path
    if (serverMetadata key).any fun x => x.length = f.bytes.length ∧ crates.md5 f.bytes = x.md5
    then none
    else some ⟨key, path⟩
  | _, _ => none

section UploadFiles

variable (crates : Crates) (api : API) (dk : Disk)

def getUploadVersion (domain : Str) (version : Option UInt32) : ClientM (Option UInt32) :=
  match version with
  | some version => return some version
  | none => do
    let resp ← call (api.getUploadPosition domain)
    return (positionResp resp).map (·.version)

def retryUpload (domain version : Str) (file : UploadingFile) : Nat → ClientM Bool
  | 0 => return false
  | n + 1 => do
    let resp ← call (api.uploadFile dk domain version file.key file.path)
    match handleResp resp with
    | true => return true
    | false => retryUpload domain version file n

/-- `upload_files` from the point where the files to upload are known.  A tokio
runtime with no worker threads panics. -/
def sendFiles (sched : List Nat) (domain : Str) (version : UInt32) (parallel : UInt32)
    (files : List UploadingFile) : ClientM (Except UploadError Unit) := do
  let resp ← call (api.changeUploadingStatus ⟨domain, version, .uploading⟩)
  match handleResp resp with
  | false => return .error .request
  | true =>
    if parallel = 0 then return .error .panic
    else
      let results ← interleave sched
        (files.map fun file => retryUpload api dk domain (toDecimal version) file 3)
      if results.all id then
        let resp ← call (api.changeUploadingStatus ⟨domain, version, .finish⟩)
        match handleResp resp with
        | true => return .ok ()
        | false => return .error .request
      else return .error .uploadFail

def uploadFiles (sched : List Nat) (domain : Str) (version : Option UInt32) (path : PathBuf)
    (parallel : UInt32) : ClientM (Except UploadError Unit) :=
  match dk.find path with
  | none => return .error .io
  | some (.file _) => return .error .notDirectory
  | some .dir =>
    match canonicalText (dk.locate path) with
    | none => return .error .panic
    | some prefixPath => do
      match ← getUploadVersion api domain version with
      | none => return .error .request
      | some version =>
        let resp ← call (api.getFileMetadata domain version)
        match metadataResp resp with
        | none => return .error .request
        | some serverMetadata =>
          let serverMetadata := DashMap.collect (serverMetadata.map fun x => (x.path, x))
          match (dk.walkDir prefixPath none).filterMap
            (uploadingFile crates serverMetadata prefixPath) with
          | [] => return .error .noFile
          | files => sendFiles api dk sched domain version parallel files

end UploadFiles

/-! ### A server with nothing on it, and a client of it -/

def bareHost : Host :=
  ⟨Crates.simple, ⟨9000, "127.0.0.1".toList, "token".toList, defaultMaxUploadSize, none⟩, fun _ => 0⟩

def bareApi : API := ⟨"http://127.0.0.1:9000".toList, "token".toList⟩

def bareNet : Net := ⟨⟨bareStorage, bareDisk⟩, []⟩

def siteWith (name : Str) : Disk := Disk.empty.withFile ("/site/".toList ++ name) [1]

def siteNames : List Str := ["site".toList]

def uploadOf (name : Str) : ClientM (Except UploadError Unit) :=
  uploadFiles Crates.simple bareApi (siteWith name) [] "www.a.com".toList none "/site".toList 1

end Client

end SpaServer
