import SpaServer.AdminServer

/-!
# The admin server's routes

`AdminServer::routes`: which handler a request goes to, and the option value that
is decoded for it from the query, the JSON body or the multipart form.

The codecs on the two sides are taken to be inverse to each other, so a request
carries its query, JSON object or form as a value.  Their lengths do count, for
the routes limit them: that of a JSON object is the length of the text that
`serde_json` writes, and that of a form is asked of `formLength`.

`deserialize` of a derived option: a name that comes twice is an error, a name it
does not know is ignored, and an optional field that is missing is `none`.
-/

namespace SpaServer

open Base

/-! ### Requests on the wire -/

inductive HttpMethod where
  | get
  | post
  deriving DecidableEq

inductive JsonValue where
  | null
  | num (n : Nat)
  | str (s : Str)
  deriving DecidableEq

/-- A JSON object, as far as the options need one. -/
abbrev JsonObject := List (Str × JsonValue)

structure FormPart extends Part where
  fileName : Option Str
  deriving DecidableEq

inductive HttpBody where
  | empty
  | json (v : JsonObject)
  | multipart (form : List FormPart)
  deriving DecidableEq

structure HttpRequest where
  method : HttpMethod
  path : Str
  query : List (Str × Str)
  authorization : Option Str
  body : HttpBody
  deriving DecidableEq

/-- A character of a JSON string, as `serde_json` escapes it. -/
def jsonEscape (c : Char) : Str :=
  if c = '"' then ['\\', '"']
  else if c = '\\' then ['\\', '\\']
  else if c.toNat = 8 then ['\\', 'b']
  else if c.toNat = 9 then ['\\', 't']
  else if c.toNat = 10 then ['\\', 'n']
  else if c.toNat = 12 then ['\\', 'f']
  else if c.toNat = 13 then ['\\', 'r']
  else if c.toNat < 32 then
    ['\\', 'u', '0', '0', Nat.digitChar (c.toNat / 16), Nat.digitChar (c.toNat % 16)]
  else [c]

def jsonString (s : Str) : Str := '"' :: s.flatMap jsonEscape ++ ['"']

def JsonValue.text : JsonValue → Str
  | null => "null".toList
  | num n => Nat.toDigits 10 n
  | str s => jsonString s

/-- `serde_json::to_vec`, of an object. -/
def jsonText (v : JsonObject) : Str :=
  '\x7b' :: [','].intercalate (v.map fun f => jsonString f.1 ++ ':' :: f.2.text) ++ ['\x7d']

def jsonLength (v : JsonObject) : Nat := (encodeUtf8 (jsonText v)).length

example : String.ofList (jsonText [("domain".toList, .str "a\"b".toList), ("version".toList, .null)]) =
    "\x7b\"domain\":\"a\\\"b\",\"version\":null\x7d" := by decide

/-! ### Serialize and deserialize -/

/-- The one value under a name, or none; two are an error. -/
def field {α : Type} (fields : List (Str × α)) (name : Str) : Option (Option α) :=
  match fields.filter (·.1 = name) with
  | [] => some none
  | [f] => some (some f.2)
  | _ => none

def required {α : Type} (fields : List (Str × α)) (name : Str) : Option α :=
  (field fields name).bind id

def GetDomainOption.ofQuery (q : List (Str × Str)) : Option GetDomainOption := do
  let domain ← field q "domain".toList
  return ⟨domain⟩

def GetDomainPositionFormat.ofString (s : Str) : Option GetDomainPositionFormat :=
  if s = "Path".toList then some .path
  else if s = "Json".toList then some .json
  else none

def GetDomainPositionOption.ofQuery (q : List (Str × Str)) : Option GetDomainPositionOption := do
  let domain ← required q "domain".toList
  match ← field q "format".toList with
  | some s =>
    let format ← GetDomainPositionFormat.ofString s
    return ⟨domain, format⟩
  | none => return ⟨domain, .path⟩

def DomainWithVersionOption.ofQuery (q : List (Str × Str)) : Option DomainWithVersionOption := do
  let domain ← required q "domain".toList
  let version ← required q "version".toList
  let version ← parseU32 version
  return ⟨domain, version⟩

def DeleteDomainVersionOption.ofQuery (q : List (Str × Str)) :
    Option DeleteDomainVersionOption := do
  let domain ← field q "domain".toList
  match ← field q "max_reserve".toList with
  | some s =>
    let maxReserve ← parseU32 s
    return ⟨domain, some maxReserve⟩
  | none => return ⟨domain, none⟩

def JsonValue.toStr : JsonValue → Option Str
  | str s => some s
  | _ => none

def JsonValue.toU32 : JsonValue → Option UInt32
  | num n => if n < UInt32.size then some (UInt32.ofNat n) else none
  | _ => none

/-- An optional `u32` may be left out or be null. -/
def optionalU32 : Option JsonValue → Option (Option UInt32)
  | none | some .null => some none
  | some v => v.toU32.map some

def DomainWithOptVersionOption.toJson (o : DomainWithOptVersionOption) : JsonObject :=
  [("domain".toList, .str o.domain),
    ("version".toList, (o.version.map fun v => .num v.toNat).getD .null)]

def DomainWithOptVersionOption.ofJson (v : JsonObject) : Option DomainWithOptVersionOption := do
  let domain ← required v "domain".toList
  let domain ← domain.toStr
  let version ← field v "version".toList
  let version ← optionalU32 version
  return ⟨domain, version⟩

/-- `Serialize_repr`. -/
def UploadingStatus.repr : UploadingStatus → Nat
  | uploading => 0
  | finish => 1

def UploadingStatus.ofRepr (n : Nat) : Option UploadingStatus :=
  if n = 0 then some .uploading else if n = 1 then some .finish else none

def UpdateUploadingStatusOption.toJson (o : UpdateUploadingStatusOption) : JsonObject :=
  [("domain".toList, .str o.domain), ("version".toList, .num o.version.toNat),
    ("status".toList, .num o.status.repr)]

def UpdateUploadingStatusOption.ofJson (v : JsonObject) : Option UpdateUploadingStatusOption := do
  let domain ← required v "domain".toList
  let domain ← domain.toStr
  let version ← required v "version".toList
  let version ← version.toU32
  match ← required v "status".toList with
  | .num n =>
    let status ← UploadingStatus.ofRepr n
    return ⟨domain, version, status⟩
  | _ => none

def DeleteDomainVersionOption.toJson (o : DeleteDomainVersionOption) : JsonObject :=
  [("domain".toList, (o.domain.map .str).getD .null),
    ("max_reserve".toList, (o.maxReserve.map fun v => .num v.toNat).getD .null)]

theorem JsonValue.toU32_num (v : UInt32) : (JsonValue.num v.toNat).toU32 = some v := by
  rw [JsonValue.toU32, if_pos v.toNat_lt_size, UInt32.ofNat_toNat]

@[simp] theorem DomainWithOptVersionOption.ofJson_toJson (o : DomainWithOptVersionOption) :
    ofJson o.toJson = some o := by
  obtain ⟨domain, version⟩ := o
  cases version with
  | none => rfl
  | some v =>
    show ((JsonValue.num v.toNat).toU32.map some).bind
      (fun version => some (DomainWithOptVersionOption.mk domain version)) = _
    rw [JsonValue.toU32_num]
    rfl

@[simp] theorem UpdateUploadingStatusOption.ofJson_toJson (o : UpdateUploadingStatusOption) :
    ofJson o.toJson = some o := by
  obtain ⟨domain, version, status⟩ := o
  show (JsonValue.num version.toNat).toU32.bind (fun version =>
    (UploadingStatus.ofRepr status.repr).bind fun status =>
      some (UpdateUploadingStatusOption.mk domain version status)) = _
  rw [JsonValue.toU32_num]
  cases status <;> rfl

/-! ### Routes -/

inductive AdminCall where
  | service (r : AdminRequest)
  | reloadServer
  deriving DecidableEq

/-- The segments that the path filters compare: a separator in front and one at the
end do not count. -/
def segments (path : Str) : List Str :=
  let segs := (path.splitOn '/').tail
  if segs.getLast? = some [] then segs.dropLast else segs

/-- `content_length_limit(1024 * 16)` with `body::json`. -/
def bodyJson {α : Type} (decode : JsonObject → Option α) (req : HttpRequest) : Option α :=
  match req.body with
  | .json v => if jsonLength v ≤ 1024 * 16 then decode v else none
  | _ => none

namespace AdminServer

variable (conf : AdminConfig) (formLength : List FormPart → Nat) (req : HttpRequest)

def auth : Bool := req.authorization = some ("Bearer ".toList ++ conf.token)

def getDomainInfo : Option AdminCall :=
  if (segments req.path).head? = some "status".toList then
    (GetDomainOption.ofQuery req.query).map fun o => .service (.getDomainInfo o)
  else none

def getDomainUploadPath : Option AdminCall :=
  if segments req.path = ["upload".toList, "position".toList] then
    (GetDomainPositionOption.ofQuery req.query).map fun o => .service (.getUploadPosition o)
  else none

def updateDomainVersion : Option AdminCall :=
  if segments req.path = ["update_version".toList] then
    (bodyJson DomainWithOptVersionOption.ofJson req).map fun o =>
      .service (.updateDomainVersion o)
  else none

def reloadServer : Option AdminCall :=
  if segments req.path = ["reload".toList] then some .reloadServer else none

def changeUploadStatus : Option AdminCall :=
  if segments req.path = ["files".toList, "upload_status".toList] then
    (bodyJson UpdateUploadingStatusOption.ofJson req).map fun o =>
      .service (.changeUploadStatus o)
  else none

def uploadFile : Option AdminCall :=
  if segments req.path = ["file".toList, "upload".toList] then
    match req.body with
    | .multipart form =>
      if formLength form ≤ conf.maxUploadSize then
        some (.service (.uploadFile (form.map (·.toPart))))
      else none
    | _ => none
  else none

def getFilesMetadata : Option AdminCall :=
  if segments req.path = ["files".toList, "metadata".toList] then
    (DomainWithVersionOption.ofQuery req.query).map fun q => .service (.getFilesMetadata q)
  else none

def removeDomainVersion : Option AdminCall :=
  if segments req.path = ["files".toList, "delete".toList] then
    (DeleteDomainVersionOption.ofQuery req.query).map fun q => .service (.removeDomainVersion q)
  else none

/-- The handler a request reaches, with what it gets, or `none` for a rejection. -/
def routes : Option AdminCall :=
  if auth conf req then
    match req.method with
    | .get => getDomainInfo req <|> getDomainUploadPath req <|> getFilesMetadata req
    | .post => updateDomainVersion req <|> reloadServer req <|> changeUploadStatus req <|>
        uploadFile conf formLength req <|> removeDomainVersion req
  else none

end AdminServer

end SpaServer
