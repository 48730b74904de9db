import SpaServer.Base.Program
import SpaServer.Base.Regex
import SpaServer.FileCache

/-!
# The domain storage

`domain_storage.rs`.  A `DomainStorage` keeps three maps, the serving version of
each domain (`domainMeta`, the source's `meta`), the cached files (`cache`) and the version being uploaded
(`uploadingStatus`), over a directory `pathPrefix` in which version `v` of the
domain `d` is the directory `d/v`, marked by a file `.SPA-Processing` while it
is being uploaded.

The methods are `Program`s over the operations `Op`, each of them one read or
write of a map or one file-system call, in the order of the source; `meaning`
says what the operations do to a `World`, the storage with the disk under it.
-/

namespace SpaServer

open Base

/-- `URI_REGEX_STR`: `[a-zA-Z0-9][-a-zA-Z0-9]{0,62}(\.[a-zA-Z0-9][-a-zA-Z0-9]{0,62})+\.?` -/
def uriRegex : Regex :=
  let alnum : Char → Bool := fun c => c.isAlphanum
  let label : Regex := .seq (.cls alnum) (.upTo 62 (.cls fun c => c = '-' || alnum c))
  .seq label (.seq (.plus (.seq (.char '.') label)) (.opt (.char '.')))

example : uriRegex.isMatch "www.baidu.com".toList = true := by decide

example : uriRegex.isMatch "baidu".toList = false := by decide

def uploadingFileName : Str := ".SPA-Processing".toList

structure DomainStorage where
  domainMeta : DashMap (PathBuf × UInt32)
  pathPrefix : PathBuf
  cache : FileCache
  uploadingStatus : DashMap UInt32
  /-- `init` takes only a path that exists. -/
  prefixNe : pathPrefix ≠ []

def DomainStorage.fresh (pathPrefix : PathBuf) (h : pathPrefix ≠ []) (cache : FileCache) :
    DomainStorage := ⟨.empty, pathPrefix, cache, .empty, h⟩

theorem srv_ne_nil : "/srv".toList ≠ [] := by decide

/-- A storage and the disk it works on. -/
structure World where
  storage : DomainStorage
  disk : Disk

/-! ### Errors -/

inductive StorageError where
  | io (e : IoError)
  | noVersion (domain : Str)
  | uploadingNow (domain : Str) (version : UInt32)
  | noDirectory (path : PathBuf)
  | pathError
  | noParent (path : PathBuf)
  | notUploading (domain : Str) (version : UInt32)
  | otherUploading (domain : Str) (version : UInt32)
  | serving (domain : Str) (version : UInt32)
  deriving DecidableEq

/-! ### Operations -/

/-- The steps the methods of `DomainStorage` are made of. -/
inductive Op where
  | metaGet (domain : Str)
  | metaInsert (domain : Str) (path : PathBuf) (version : UInt32)
  | uploadingGet (domain : Str)
  | uploadingInsert (domain : Str) (version : UInt32)
  | uploadingRemoveIf (domain : Str) (version : UInt32)
  | cacheUpdate (domain : Str) (data : FileMap)
  | cacheDir (domain : Str) (path : PathBuf)
  | pathExists (path : PathBuf)
  | isDir (path : PathBuf)
  | walkDir (path : PathBuf) (maxDepth : Option Nat)
  | createDirAll (path : PathBuf)
  | createFile (path : PathBuf)
  | openFile (path : PathBuf)
  | writeAll (h : Handle) (data : List UInt8)
  | removeFile (path : PathBuf)
  | removeDirAll (path : PathBuf)

abbrev Op.Reply : Op → Type
  | metaGet _ => Option (PathBuf × UInt32)
  | metaInsert .. | uploadingInsert .. | uploadingRemoveIf .. | cacheUpdate .. => Unit
  | uploadingGet _ => Option UInt32
  | cacheDir .. => Except StorageError FileMap
  | pathExists _ | isDir _ => Bool
  | walkDir .. => List Disk.Entry
  | createDirAll _ | writeAll .. | removeFile _ | removeDirAll _ => Except IoError Unit
  | createFile _ | openFile _ => Except IoError Handle

def Op.changesDisk : Op → Bool
  | createDirAll _ | createFile _ | writeAll .. | removeFile _ | removeDirAll _ => true
  | _ => false

namespace World

variable (w : World)

def setMeta (m : DashMap (PathBuf × UInt32)) : World :=
  { w with storage := { w.storage with domainMeta := m } }

def setUploading (m : DashMap UInt32) : World :=
  { w with storage := { w.storage with uploadingStatus := m } }

def setCache (c : FileCache) : World := { w with storage := { w.storage with cache := c } }

def setDisk (dk : Disk) : World := { w with disk := dk }

end World

/-- What each step does. -/
def meaning (crates : Crates) : Meaning Op Op.Reply World
  | .metaGet d, w => (w.storage.domainMeta d, w)
  | .metaInsert d p v, w => ((), w.setMeta (w.storage.domainMeta.insert d (p, v)))
  | .uploadingGet d, w => (w.storage.uploadingStatus d, w)
  | .uploadingInsert d v, w => ((), w.setUploading (w.storage.uploadingStatus.insert d v))
  | .uploadingRemoveIf d v, w =>
    ((), w.setUploading (w.storage.uploadingStatus.removeIf d (· == v)))
  | .cacheUpdate d data, w => ((), w.setCache (w.storage.cache.update d data))
  | .cacheDir d p, w => (.ok (w.storage.cache.conf.cacheDir crates w.disk d p), w)
  | .pathExists p, w => (w.disk.exists? p, w)
  | .isDir p, w => (w.disk.isDir p, w)
  | .walkDir p k, w => (w.disk.walkDir p k, w)
  | .createDirAll p, w => ((w.disk.createDirAll p).1, w.setDisk (w.disk.createDirAll p).2)
  | .createFile p, w => ((w.disk.createFile p).1, w.setDisk (w.disk.createFile p).2)
  | .openFile p, w => (w.disk.openFile p, w)
  | .writeAll h data, w => ((w.disk.writeAll h data).1, w.setDisk (w.disk.writeAll h data).2)
  | .removeFile p, w => ((w.disk.removeFile p).1, w.setDisk (w.disk.removeFile p).2)
  | .removeDirAll p, w => ((w.disk.removeDirAll p).1, w.setDisk (w.disk.removeDirAll p).2)

/-- A method of `DomainStorage`. -/
abbrev Method (α : Type) := Program Op Op.Reply α

namespace Method

open Program (perform)

abbrev metaGet (domain : Str) : Method (Option (PathBuf × UInt32)) := perform (Op.metaGet domain)

abbrev metaInsert (domain : Str) (path : PathBuf) (version : UInt32) : Method Unit :=
  perform (Op.metaInsert domain path version)

abbrev uploadingGet (domain : Str) : Method (Option UInt32) := perform (Op.uploadingGet domain)

abbrev uploadingInsert (domain : Str) (version : UInt32) : Method Unit :=
  perform (Op.uploadingInsert domain version)

abbrev uploadingRemoveIf (domain : Str) (version : UInt32) : Method Unit :=
  perform (Op.uploadingRemoveIf domain version)

abbrev cacheUpdate (domain : Str) (data : FileMap) : Method Unit :=
  perform (Op.cacheUpdate domain data)

abbrev cacheDir (domain : Str) (path : PathBuf) : Method (Except StorageError FileMap) :=
  perform (Op.cacheDir domain path)

abbrev pathExists (path : PathBuf) : Method Bool := perform (Op.pathExists path)

abbrev isDir (path : PathBuf) : Method Bool := perform (Op.isDir path)

abbrev walkDir (path : PathBuf) (maxDepth : Option Nat) : Method (List Disk.Entry) :=
  perform (Op.walkDir path maxDepth)

abbrev createDirAll (path : PathBuf) : Method (Except IoError Unit) :=
  perform (Op.createDirAll path)

abbrev createFile (path : PathBuf) : Method (Except IoError Handle) :=
  perform (Op.createFile path)

abbrev openFile (path : PathBuf) : Method (Except IoError Handle) := perform (Op.openFile path)

abbrev writeAll (h : Handle) (data : List UInt8) : Method (Except IoError Unit) :=
  perform (Op.writeAll h data)

abbrev removeFile (path : PathBuf) : Method (Except IoError Unit) :=
  perform (Op.removeFile path)

abbrev removeDirAll (path : PathBuf) : Method (Except IoError Unit) :=
  perform (Op.removeDirAll path)

end Method

/-! ### Releasing a version -/

structure DomainInfo where
  domain : Str
  currentVersion : Option UInt32
  versions : List UInt32
  deriving DecidableEq

/-- The names among the entries that `parse::<u32>` takes, as numbers. -/
def parseVersions (entries : List Disk.Entry) : List UInt32 :=
  entries.filterMap fun e => e.fileName.toStr.bind parseU32

section Methods

open Method

variable (pathPrefix : PathBuf)

def getVersionPath (host : Str) (version : UInt32) : PathBuf :=
  push (push pathPrefix host) (toDecimal version)

def markerPath (host : Str) (version : UInt32) : PathBuf :=
  push (getVersionPath pathPrefix host version) uploadingFileName

def getDomainInfoByDomain (domain : Str) : Method (Option DomainInfo) := do
  let entries ← walkDir (push pathPrefix domain) (some 1)
  match parseVersions entries with
  | [] => return none
  | versions =>
    let current ← metaGet domain
    return some ⟨domain, current.map (·.2), versions⟩

/-- `upload_domain_with_version` from the point where the version is settled. -/
def releaseVersion (domain : Str) (version : UInt32) : Method (Except StorageError UInt32) := do
  let newPath := getVersionPath pathPrefix domain version
  let uploading ← uploadingGet domain
  if uploading = some version then
    return .error (.uploadingNow domain version)
  else
    match ← isDir newPath with
    | true =>
      metaInsert domain newPath version
      match ← cacheDir domain newPath with
      | .error e => return .error e
      | .ok data =>
        cacheUpdate domain data
        return .ok version
    | false => return .error (.noDirectory newPath)

def uploadDomainWithVersion (domain : Str) (version : Option UInt32) :
    Method (Except StorageError UInt32) := do
  match version with
  | some v => releaseVersion pathPrefix domain v
  | none =>
    let info ← getDomainInfoByDomain pathPrefix domain
    match ((info.map (·.versions)).getD []).max? with
    | some v => releaseVersion pathPrefix domain v
    | none => return .error (.noVersion domain)

/-! ### Uploading a version -/

inductive UploadingStatus where
  | uploading
  | finish
  deriving DecidableEq

inductive GetDomainPositionStatus where
  | newDomain
  | newVersion
  | inUploading
  deriving DecidableEq

structure UploadDomainPosition where
  path : PathBuf
  version : UInt32
  status : GetDomainPositionStatus
  deriving DecidableEq

def getUploadPosition (domain : Str) : Method UploadDomainPosition := do
  match ← uploadingGet domain with
  | some version => return ⟨getVersionPath pathPrefix domain version, version, .inUploading⟩
  | none =>
    match ← getDomainInfoByDomain pathPrefix domain with
    | some info =>
      let version := info.versions.max?.getD 0 + 1
      return ⟨getVersionPath pathPrefix domain version, version, .newVersion⟩
    | none => return ⟨getVersionPath pathPrefix domain 1, 1, .newDomain⟩

structure ShortMetaData where
  path : Str
  md5 : Str
  length : Nat
  deriving DecidableEq

/-- `get_short_metadata`, with the filter in front of it. -/
def getShortMetadata (crates : Crates) (root : PathBuf) (e : Disk.Entry) : Option ShortMetaData :=
  if e.fileName = .utf8 uploadingFileName then none
  else match e.node, e.text with
    | .file f, some x => some ⟨remove (root ++ ['/']) x, crates.md5 f.bytes, f.bytes.length⟩
    | _, _ => none

def getFilesMetadata (crates : Crates) (domain : Str) (version : UInt32) :
    Method (List ShortMetaData) := do
  let path := getVersionPath pathPrefix domain version
  match ← pathExists path with
  | true =>
    let entries ← walkDir path none
    return entries.filterMap (getShortMetadata crates path)
  | false => return []

/-- The end of `save_file`: a file that is not there is created, one that is there
is opened with `File::open`, and the data is written. -/
def writeFile (filePath : PathBuf) (data : List UInt8) : Method (Except StorageError Unit) := do
  let file ← match ← pathExists filePath with
    | false => createFile filePath
    | true => openFile filePath
  match file with
  | .error e => return .error (.io e)
  | .ok h =>
    match ← writeAll h data with
    | .error e => return .error (.io e)
    | .ok _ => return .ok ()

def saveFile (domain : Str) (version : UInt32) (path : Str) (data : List UInt8) :
    Method (Except StorageError Unit) := do
  let uploading ← uploadingGet domain
  if uploading = some version then
    match sanitizePath (getVersionPath pathPrefix domain version) path with
    | none => return .error .pathError
    | some filePath =>
      match parent filePath with
      | none => return .error (.noParent filePath)
      | some parentPath =>
        match ← pathExists parentPath with
        | true => writeFile filePath data
        | false =>
          match ← createDirAll parentPath with
          | .error e => return .error (.io e)
          | .ok _ => writeFile filePath data
  else
    return .error (.notUploading domain version)

/-- Both branches of `update_uploading_status` that end an upload. -/
def finishUploading (domain : Str) (version : UInt32) : Method (Except StorageError Unit) := do
  match ← removeFile (markerPath pathPrefix domain version) with
  | .error e => return .error (.io e)
  | .ok _ =>
    uploadingRemoveIf domain version
    return .ok ()

def updateUploadingStatus (domain : Str) (version : UInt32) (status : UploadingStatus) :
    Method (Except StorageError Unit) := do
  match ← uploadingGet domain with
  | some uploadingVersion =>
    if uploadingVersion ≠ version then
      return .error (.otherUploading domain uploadingVersion)
    else if status = .finish then
      finishUploading pathPrefix domain version
    else
      return .ok ()
  | none =>
    if status = .uploading then
      let serving ← metaGet domain
      if serving.map (·.2) = some version then
        return .error (.serving domain version)
      else
        match ← createDirAll (getVersionPath pathPrefix domain version) with
        | .error e => return .error (.io e)
        | .ok _ =>
          match ← createFile (markerPath pathPrefix domain version) with
          | .error e => return .error (.io e)
          | .ok _ =>
            uploadingInsert domain version
            return .ok ()
    else
      finishUploading pathPrefix domain version

/-! ### Listing and removing versions -/

/-- The domain an entry below `pathPrefix` stands for, with its path. -/
def domainOfEntry (e : Disk.Entry) : Option (Str × PathBuf) :=
  match e.fileName.toStr, e.text with
  | some domain, some path =>
    if e.node = .dir ∧ uriRegex.isMatch domain then some (domain, path) else none
  | _, _ => none

def domainInfos : List Disk.Entry → Method (List DomainInfo)
  | [] => return []
  | e :: es =>
    match domainOfEntry e with
    | none => domainInfos es
    | some (domain, path) => do
      let current ← metaGet domain
      let entries ← walkDir path (some 1)
      let rest ← domainInfos es
      return ⟨domain, current.map (·.2), parseVersions entries⟩ :: rest

def getDomainInfo : Method (List DomainInfo) := do
  let entries ← walkDir pathPrefix (some 1)
  domainInfos entries

def removeDomainVersion (domain : Str) (version : Option UInt32) :
    Method (Except StorageError Bool) := do
  let path := match version with
    | some v => push (push pathPrefix domain) (toDecimal v)
    | none => push pathPrefix domain
  match ← pathExists path with
  | false => return .ok false
  | true =>
    match ← removeDirAll path with
    | .error e => return .error (.io e)
    | .ok _ => return .ok true

end Methods

/-! ### Starting up -/

inductive InitError where
  | io (e : IoError)
  | panic
  | noDirectory (path : PathBuf)
  deriving DecidableEq

/-- One round of the loop over the version directories of a domain: the version
being uploaded, and the greatest other one, 0 to begin with. -/
def scanVersion (dk : Disk) (domainPath : PathBuf) (acc : Option UInt32 × UInt32)
    (name : OsName) : Option UInt32 × UInt32 :=
  match name.toStr with
  | none => acc
  | some s =>
    match parseU32 s with
    | none => acc
    | some version =>
      if dk.exists? (push (push domainPath s) uploadingFileName) then (some version, acc.2)
      else if acc.2 < version then (acc.1, version)
      else acc

def initDomain (crates : Crates) (dk : Disk) (st : DomainStorage) (name : OsName) :
    Except InitError DomainStorage :=
  match name.toStr with
  | none => .error .panic
  | some domain =>
    let domainPath := push st.pathPrefix domain
    if dk.isDir domainPath ∧ uriRegex.isMatch domain then
      match dk.readDir domainPath with
      | .error e => .error (.io e)
      | .ok names =>
        let (uploading, maxVersion) := names.foldl (scanVersion dk domainPath) (none, 0)
        let st := match uploading with
          | some v => { st with uploadingStatus := st.uploadingStatus.insert domain v }
          | none => st
        if 0 < maxVersion then
          let path := getVersionPath st.pathPrefix domain maxVersion
          let data := st.cache.conf.cacheDir crates dk domain path
          .ok { st with
            cache := st.cache.update domain data
            domainMeta := st.domainMeta.insert domain (path, maxVersion) }
        else .ok st
    else .ok st

def DomainStorage.init (crates : Crates) (dk : Disk) (pathPrefix : PathBuf) (cache : FileCache) :
    Except InitError DomainStorage :=
  if h : dk.exists? pathPrefix then
    match dk.readDir pathPrefix with
    | .error e => .error (.io e)
    | .ok names =>
      names.foldlM (initDomain crates dk) (.fresh pathPrefix (dk.ne_nil_of_exists h) cache)
  else .error (.noDirectory pathPrefix)

end SpaServer
