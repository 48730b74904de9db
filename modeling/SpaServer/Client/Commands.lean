import SpaServer.Deploy

/-!
# The commands of the client

`lib.rs`, `commands.rs` and `config.rs` of the client: `run_with_commands` loads the configuration
from a file and the environment, makes an `API` of it, and does one of five things.  Parsing the
command line is `clap`'s work, and reading HOCON is `hocon`'s: a loaded file is what `as_string` says
of each of its values.

* `asks_runWithCommands`: what the host can take the requests of a command for.
* `visitors_undisturbed`: any number of clients at once, with whatever becomes of their requests,
  change nothing for the visitors of a host as long as none of them releases its domain.
-/

namespace SpaServer
namespace Client

open Base
open Base.Program
open Site

variable {crates : Crates}

/-! ### The configuration -/

structure AdminServerConfig where
  address : Str
  authToken : Str

structure UploadConfig where
  parallel : UInt32

/-- The client's `Config`. -/
structure CliConfig where
  server : AdminServerConfig
  upload : UploadConfig

/-- A loaded HOCON file: what `hocon[section][key].as_string()` is. -/
abbrev Hocon := Str → Str → Option Str

structure Machine where
  disk : Disk
  env : Str → Option Str
  /-- What `hocon` loads from a file, or from none. -/
  hocon : Option PathBuf → Option Hocon

inductive CliError where
  | load
  | missing (name : Str)
  | panic
  | request
  | upload (e : UploadError)
  deriving DecidableEq

/-- `Config::load`. -/
def CliConfig.load (machine : Machine) (configDir : Option PathBuf) : Except CliError CliConfig :=
  match machine.hocon configDir with
  | none => .error .load
  | some hocon =>
    match (hocon "server".toList "address".toList).or (machine.env "SPA_SERVER_ADDRESS".toList) with
    | none => .error (.missing "server.address".toList)
    | some address =>
      match (hocon "server".toList "auth_token".toList).or
        (machine.env "SPA_SERVER_AUTH_TOKEN".toList) with
      | none => .error (.missing "server.auth_token".toList)
      | some authToken =>
        let parallel := (hocon "upload".toList "parallel".toList).or
          (machine.env "SPA_UPLOAD_PARALLEL".toList)
        .ok ⟨⟨address, authToken⟩, ⟨(parallel.bind parseU32).getD 3⟩⟩

/-- `HeaderValue::from_str` takes the text. -/
def isHeaderValue (s : Str) : Bool :=
  (encodeUtf8 s).all fun b => decide (32 ≤ b ∧ b ≠ 127 ∨ b = 9)

/-- `API::new`; the token is unwrapped into a header. -/
def API.new (conf : CliConfig) : Except CliError API :=
  if isHeaderValue ("Bearer ".toList ++ conf.server.authToken) then
    .ok ⟨conf.server.address, conf.server.authToken⟩
  else .error .panic

/-! ### The commands -/

structure UploadArg where
  path : PathBuf
  domain : Str
  version : Option UInt32
  parallel : Option UInt32

inductive Commands where
  | info (domain : Option Str)
  | upload (arg : UploadArg)
  | release (domain : Str) (version : Option UInt32)
  | reload
  | delete (domain : Option Str) (maxReserve : Option UInt32)

structure CliCommand where
  commands : Commands
  configDir : Option PathBuf

/-- What a command prints at its end. -/
inductive Printed where
  | body (b : Body)
  | success (message : Str)
  | nothing
  deriving DecidableEq

/-- `json_resp` without a type, and `string_resp`: what `status` answers with 200 is JSON. -/
def bodyResp (resp : Option Response) : Option Body :=
  resp.bind fun r => if r.status = 200 then some r.body else none

def printBody (resp : Option Response) : Except CliError Printed :=
  match bodyResp resp with
  | some b => .ok (.body b)
  | none => .error .request

def printSuccess (message : Str) (resp : Option Response) : Except CliError Printed :=
  if handleResp resp then .ok (.success message) else .error .request

/-- The part of `run_with_commands` after `API::new`; `sched` is the order in which the files of an
upload are sent. -/
def runCommand (crates : Crates) (api : API) (conf : CliConfig) (dk : Disk) (sched : List Nat) :
    Commands → ClientM (Except CliError Printed)
  | .info domain => do
    let resp ← call (api.getDomainInfo domain)
    return printBody resp
  | .upload arg => do
    let parallel := arg.parallel.getD conf.upload.parallel
    match ← uploadFiles crates api dk sched arg.domain arg.version arg.path parallel with
    | .ok _ => return .ok .nothing
    | .error e => return .error (.upload e)
  | .release domain version => do
    let resp ← call (api.releaseDomainVersion domain version)
    return printBody resp
  | .reload => do
    let resp ← call api.reloadSapServer
    return printSuccess "reload success!".toList resp
  | .delete domain maxReserve => do
    let resp ← call (api.removeFiles domain maxReserve)
    return printSuccess "delete success!".toList resp

def runWithCommands (crates : Crates) (machine : Machine) (sched : List Nat)
    (commands : CliCommand) : ClientM (Except CliError Printed) :=
  match CliConfig.load machine commands.configDir with
  | .error e => return .error e
  | .ok conf =>
    match API.new conf with
    | .error e => return .error e
    | .ok api => runCommand crates api conf machine.disk sched commands.commands

/-- What the admin server can be asked for by a command.  Nothing of what `delete` is given gets
there. -/
inductive Commands.Request : Commands → AdminRequest → Prop
  | info (domain : Option Str) : Request (.info domain) (.getDomainInfo ⟨none⟩)
  | upload (arg : UploadArg) {r : AdminRequest} (h : UploadRequest arg.domain r) :
      Request (.upload arg) r
  | release (domain : Str) (version : Option UInt32) :
      Request (.release domain version) (.updateDomainVersion ⟨domain, version⟩)
  | delete (domain : Option Str) (maxReserve : Option UInt32) :
      Request (.delete domain maxReserve) (.removeDomainVersion ⟨none, none⟩)

section Asks

variable {host : Host} {api : API} {req : HttpRequest}

/-- **What a command asks for**, wherever it is run, unless it asks for a reload. -/
theorem asks_runWithCommands (machine : Machine) (sched : List Nat) (commands : CliCommand)
    (hreload : commands.commands ≠ .reload) :
    (runWithCommands crates machine sched commands).Uses (Asks host commands.commands.Request) := by
  unfold runWithCommands
  cases CliConfig.load machine commands.configDir with
  | error e => trivial
  | ok conf =>
    dsimp only
    cases API.new conf with
    | error e => trivial
    | ok api =>
      dsimp only
      generalize commands.commands = command at hreload
      cases command with
      | info domain =>
        refine uses_request (fun req hreq => ?_) fun reply => trivial
        cases domain with
        | none => exact asks_of_routes (routes_getDomainInfo hreq) (.info none)
        | some d => exact absurd hreq nofun
      | upload arg =>
        refine (asks_uploadFiles.mono fun req h => h.mono fun _ => .upload arg).bind fun res => ?_
        cases res <;> trivial
      | release domain version =>
        refine uses_request (fun req hreq => ?_) fun reply => trivial
        exact asks_of_routes (routes_releaseDomainVersion hreq) (.release domain version)
      | reload => exact absurd rfl hreload
      | delete domain maxReserve =>
        refine uses_request (fun req hreq => ?_) fun reply => trivial
        exact asks_of_routes (routes_removeFiles hreq) (.delete domain maxReserve)

end Asks

/-! ### Several clients at once -/

/-- The server, and the storage that its listeners have of their own since a reload. -/
structure Front where
  net : Net
  own : Option DomainStorage

/-- What visitors are answered from: the admin server's storage, until a reload. -/
def Front.visited (front : Front) : World :=
  ⟨front.own.getD front.net.world.storage, front.net.world.disk⟩

/-- The answer to a request, with the state of the admin server after it and the storage that the
listeners get by it.  The admin server keeps its own storage over a reload; `reload` is what else a
reload comes to. -/
def Host.answerAll (host : Host) (reload : World → Response × Option DomainStorage) (w : World)
    (req : HttpRequest) : Response × World × Option DomainStorage :=
  match AdminServer.routes host.conf host.formLength req with
  | some (.service r) => ((w.serve host.crates r).1, (w.serve host.crates r).2, none)
  | some .reloadServer => ((reload w).1, w, (reload w).2)
  | none => (.notFound, w, none)

/-- Every request is answered, or handled without its response coming back, or lost. -/
def Host.meaningAll (host : Host) (reload : Net → Response × Option DomainStorage) :
    Meaning HttpRequest (fun _ => Option Response) Front
  | req, ⟨⟨w, deliveries⟩, own⟩ =>
    let (resp, w', fresh) := host.answerAll (fun w => reload ⟨w, deliveries⟩) w req
    match deliveries.headD .answered with
    | .answered => (some resp, ⟨⟨w', deliveries.tail⟩, fresh.or own⟩)
    | .unanswered => (none, ⟨⟨w', deliveries.tail⟩, fresh.or own⟩)
    | .lost => (none, ⟨⟨w, deliveries.tail⟩, own⟩)

structure Invocation where
  machine : Machine
  sched : List Nat
  command : CliCommand

def Invocation.program (crates : Crates) (inv : Invocation) : ClientM (Except CliError Printed) :=
  runWithCommands crates inv.machine inv.sched inv.command

def Commands.domain : Commands → Option Str
  | .upload arg => some arg.domain
  | .release domain _ => some domain
  | _ => none

def Commands.deletes : Commands → Bool
  | .delete _ _ => true
  | _ => false

section Clients

variable {host : Host} {reload : Net → Response × Option DomainStorage} {w : World} {s : Deployed}

theorem sparesServed_deleteAll (w : World) :
    SparesServed w (.removeDomainVersion ⟨none, none⟩) := by
  intro q hq d v htarget hserving
  obtain rfl := AdminRequest.removeDomainVersion.inj hq
  obtain ⟨path, -, -, hdoomed⟩ := htarget
  rw [hserving] at hdoomed
  obtain ⟨r, hr, -⟩ := Doomed.serving_iff.mp hdoomed
  exact absurd hr nofun

/-- A request of a command that is for a plain domain and does not delete what is being uploaded
spares what is live. -/
theorem Commands.Request.sparesLive {commands : Commands} {r : AdminRequest}
    (h : commands.Request r) (hplain : ∀ d ∈ commands.domain, Plain d)
    (hkeeps : commands.deletes = true → Keeps w (.removeDomainVersion ⟨none, none⟩)) :
    SparesLive w r := by
  cases h with
  | info domain =>
    refine sparesLive_of_plain ?_ (by simp) w
    exact fun d hd => absurd hd nofun
  | upload arg hr => exact hr.sparesLive (hplain arg.domain rfl) w
  | release domain version =>
    refine sparesLive_of_plain ?_ (by simp) w
    exact hplain domain rfl
  | delete domain maxReserve => exact ⟨hkeeps rfl, sparesServed_deleteAll w⟩

/-- A request that asks for no reload is served once or not at all, and the listeners keep what they
have. -/
theorem meaningAll_cases {allowed : AdminRequest → Prop} {req : HttpRequest}
    (h : Asks host allowed req) (front : Front) :
    (host.meaningAll reload req front).2.own = front.own ∧
      ((host.meaningAll reload req front).2.net.world = front.net.world ∨ ∃ r, allowed r ∧
        (host.meaningAll reload req front).2.net.world =
          (front.net.world.serve host.crates r).2) := by
  obtain ⟨⟨w, deliveries⟩, own⟩ := front
  have hanswer : ∀ reload, (host.answerAll reload w req).2.2 = none ∧
      ((host.answerAll reload w req).2.1 = w ∨ ∃ r, allowed r ∧
        (host.answerAll reload w req).2.1 = (w.serve host.crates r).2) := by
    intro reload
    unfold Host.answerAll
    split
    · next r hroutes =>
      obtain ⟨_, he, hr⟩ := h _ hroutes
      obtain rfl := AdminCall.service.inj he
      exact ⟨rfl, Or.inr ⟨r, hr, rfl⟩⟩
    · next hroutes =>
      obtain ⟨_, he, _⟩ := h _ hroutes
      exact absurd he nofun
    · exact ⟨rfl, Or.inl rfl⟩
  obtain ⟨hfresh, hworld⟩ := hanswer fun w => reload ⟨w, deliveries⟩
  have hown : (host.answerAll (fun w => reload ⟨w, deliveries⟩) w req).2.2.or own = own := by
    rw [hfresh]
    rfl
  unfold Host.meaningAll
  dsimp only
  split
  · exact ⟨hown, hworld⟩
  · exact ⟨hown, hworld⟩
  · exact ⟨rfl, Or.inl rfl⟩

/-- **Clients run requests**, each of which one of their commands makes, and the listeners keep
their storage. -/
theorem clients_run {invs : List Invocation} {front front' : Front}
    {ps : List (ClientM (Except CliError Printed))}
    (hplain : ∀ inv ∈ invs, ∀ d ∈ inv.command.commands.domain, Plain d)
    (hreload : ∀ inv ∈ invs, inv.command.commands ≠ .reload)
    (hrun : PoolRun (host.meaningAll reload)
      (fun i c => ∀ inv, invs[i]? = some inv → inv.command.commands.deletes = true →
        Keeps c.2.net.world (.removeDomainVersion ⟨none, none⟩))
      (invs.map (Invocation.program crates), front) (ps, front')) :
    World.Run host.crates
      (fun w r => SparesLive w r ∧ ∃ inv ∈ invs, inv.command.commands.Request r)
      front.net.world front'.net.world ∧ front'.own = front.own := by
  refine @PoolRun.rel _ _ _ _ (host.meaningAll reload) (fun front front' => World.Run host.crates
      (fun w r => SparesLive w r ∧ ∃ inv ∈ invs, inv.command.commands.Request r)
      front.net.world front'.net.world ∧ front'.own = front.own)
    (fun _ => ⟨.refl, rfl⟩) (fun h h' => ⟨h.1.trans h'.1, h'.2.trans h.2⟩) _
    (fun i req => ∃ inv, invs[i]? = some inv ∧ Asks host inv.command.commands.Request req)
    _ _ ?_ ?_ hrun
  · intro i p hp
    obtain ⟨inv, hi, rfl⟩ := Option.map_eq_some_iff.mp (List.getElem?_map.symm.trans hp)
    exact (asks_runWithCommands inv.machine inv.sched inv.command
      (hreload inv (List.mem_of_getElem? hi))).mono fun _ h => ⟨inv, hi, h⟩
  · rintro i ⟨_, front⟩ req hok ⟨inv, hi, hasks⟩
    obtain ⟨hown, hw | ⟨r, hrequest, hw⟩⟩ := @meaningAll_cases host reload _ req hasks front
    · rw [hw]
      exact ⟨.refl, hown⟩
    · have hmem := List.mem_of_getElem? hi
      exact ⟨.single ⟨r, ⟨hrequest.sparesLive (hplain inv hmem) (hok inv hi), inv, hmem, hrequest⟩,
        hw⟩, hown⟩

section Visitors

variable {dk : Disk} {fileDir : PathBuf} {settings : CacheSettings} {st : DomainStorage}
  {http : Http} {conf : ServiceConfig}

/-- **Nobody who visits a host notices the clients**, unless one of them releases its domain or has
the server reloaded.  From any state that the server reaches by requests that spare what is live, any
number of clients run commands at once, with whatever orders of requests and replies, lost ones among
them; the domains are plain, and a deletion comes when it deletes nothing that is being uploaded.  Then
every request of the host is answered as before. -/
theorem visitors_undisturbed (hwarp : http.toWarp.Documented)
    {gunzip : List UInt8 → List UInt8} (hgunzip : ∀ bytes, gunzip (host.crates.gzip bytes) = bytes)
    (hinit : DomainStorage.init host.crates dk fileDir ⟨settings, .empty⟩ = .ok st)
    (htree : WellFormedTree dk fileDir) {invs : List Invocation} {n : Net} {front : Front}
    {ps : List (ClientM (Except CliError Printed))}
    (hbefore : World.Run host.crates SparesLive ⟨st, dk⟩ n.world)
    (hplain : ∀ inv ∈ invs, ∀ d ∈ inv.command.commands.domain, Plain d)
    (hreload : ∀ inv ∈ invs, inv.command.commands ≠ .reload)
    (hrun : PoolRun (host.meaningAll reload)
      (fun i c => ∀ inv, invs[i]? = some inv → inv.command.commands.deletes = true →
        Keeps c.2.net.world (.removeDomainVersion ⟨none, none⟩))
      (invs.map (Invocation.program crates), ⟨n, none⟩) (ps, front))
    {d : Str} (hd : Plain d)
    (hnot : ∀ inv ∈ invs, ∀ version, inv.command.commands ≠ .release d version) :
    ∃ s, Serves host.crates n.world s ∧ (CleanSite fileDir d (site s d) →
      ∀ req, req.host http = some d → AsksFile req →
        (acceptsGzip (req.acceptEncoding http) = false →
          createService http conf front.visited req = createService http conf n.world req) ∧
        (acceptsGzip (req.acceptEncoding http) = true →
          (http.conditionals req.headers).range = none →
          decoded gunzip (createService http conf front.visited req) =
            decoded gunzip (createService http conf n.world req))) := by
  obtain ⟨hclients, hown⟩ := clients_run hplain hreload hrun
  have hvisited : front.visited = front.net.world := by
    rw [Front.visited, hown]
    rfl
  rw [hvisited]
  obtain ⟨s, hs, -⟩ := (serves_init hinit htree).run (fun _ _ h => h) hbefore
  obtain ⟨s', hs', hpublished⟩ := hs.run (fun _ _ h => h.1) hclients
  have hsame : site s' d = site s d := by
    unfold site
    rw [dif_pos hd, dif_pos hd]
    refine hpublished ⟨d, hd⟩ fun w version hok => ?_
    obtain ⟨-, inv, hmem, hrequest⟩ := hok
    have hno := hnot inv hmem version
    generalize inv.command.commands = commands at hrequest hno
    cases hrequest with
    | upload arg h => cases h
    | release domain version => exact hno rfl
  obtain ⟨hplaces, hconf⟩ := settled_run hclients
  have hpath : n.world.storage.pathPrefix = fileDir :=
    (settled_run hbefore).1.pathPrefix.trans (init_spec hinit).1
  refine ⟨s, hs, fun hclean req hhost hreq => ?_⟩
  rw [← hpath] at hclean
  have hclean' : CleanSite front.net.world.storage.pathPrefix d (site s' d) := by
    rw [hplaces.pathPrefix, hsame]
    exact hclean
  obtain ⟨hplainReply, hgzipReply⟩ := @createService_published host.crates n.world s http conf req
    hwarp gunzip hgunzip hs.represents hs.current d hhost hclean hreq
  obtain ⟨hplainReply', hgzipReply'⟩ := @createService_published host.crates front.net.world s' http
    conf req hwarp gunzip hgunzip hs'.represents hs'.current d hhost hclean' hreq
  rw [hsame, hconf, hplaces.pathPrefix] at hplainReply' hgzipReply'
  refine ⟨fun h => ?_, fun h hrange => ?_⟩
  · rw [hplainReply' h, hplainReply h]
  · rw [hgzipReply' h hrange, hgzipReply h hrange]

end Visitors

end Clients

/-- A machine with a site of one file, where the environment says how to reach the server. -/
def devMachine : Machine where
  disk := siteWith "a.html".toList
  env name :=
    if name = "SPA_SERVER_ADDRESS".toList then some "http://127.0.0.1:9000".toList
    else if name = "SPA_SERVER_AUTH_TOKEN".toList then some "token".toList
    else none
  hocon _ := some fun _ _ => none

/-- One client uploads a site and another releases it, perhaps too early. -/
def devClients : List Invocation :=
  [⟨devMachine, [], ⟨.upload ⟨"/site".toList, "www.b.com".toList, none, none⟩, none⟩⟩,
    ⟨devMachine, [], ⟨.release "www.b.com".toList (some 1), none⟩⟩]

def devNet : Net := ⟨⟨storageOn letterDisk, letterDisk⟩, [.answered, .lost]⟩

def devRun (sched : List Nat) : List (ClientM (Except CliError Printed)) × Front :=
  follow (bareHost.meaningAll fun _ => (.ok, none)) sched
    (devClients.map (Invocation.program Crates.simple), ⟨devNet, none⟩)

theorem devRun_run (sched : List Nat) :
    PoolRun (bareHost.meaningAll fun _ => (.ok, none)) (fun _ _ => True)
      (devClients.map (Invocation.program Crates.simple), ⟨devNet, none⟩)
      ((devRun sched).1, (devRun sched).2) :=
  follow_run (bareHost.meaningAll fun _ => (.ok, none)) sched _

theorem visitors_undisturbed_devClients :
    ∃ s, Serves Crates.simple devNet.world s ∧
      (CleanSite "/srv".toList "www.a.com".toList (site s "www.a.com".toList) →
        ∀ req, req.host .simple = some "www.a.com".toList → AsksFile req →
          (acceptsGzip (req.acceptEncoding .simple) = false →
            createService .simple plainService (devRun [0, 1, 0, 0, 0, 0, 0, 1]).2.visited req =
              createService .simple plainService devNet.world req) ∧
          (acceptsGzip (req.acceptEncoding .simple) = true →
            (Http.simple.conditionals req.headers).range = none →
            decoded id (createService .simple plainService (devRun [0, 1, 0, 0, 0, 0, 0, 1]).2.visited
                req) = decoded id (createService .simple plainService devNet.world req))) := by
  have hcommand : ∀ inv ∈ devClients, inv.command.commands.deletes = false ∧
      inv.command.commands.domain = some "www.b.com".toList := by
    simp [devClients, Commands.deletes, Commands.domain]
  have hinit := @init_storageOn letterDisk (by decide +kernel)
  have hrun : PoolRun (bareHost.meaningAll fun _ => (.ok, none))
      (fun i c => ∀ inv, devClients[i]? = some inv → inv.command.commands.deletes = true →
        Keeps c.2.net.world (.removeDomainVersion ⟨none, none⟩))
      (devClients.map (Invocation.program Crates.simple), ⟨devNet, none⟩)
      ((devRun [0, 1, 0, 0, 0, 0, 0, 1]).1, (devRun [0, 1, 0, 0, 0, 0, 0, 1]).2) := by
    refine Relation.ReflTransGen.mono ?_ _ _ (devRun_run _)
    rintro _ _ ⟨i, -, hstep⟩
    refine ⟨i, fun inv hi hdeletes => ?_, hstep⟩
    exact absurd ((hcommand inv (List.mem_of_getElem? hi)).1.symm.trans hdeletes) (by decide)
  refine @visitors_undisturbed Crates.simple bareHost (fun _ => (.ok, none)) letterDisk "/srv".toList allOnDisk
    (storageOn letterDisk) .simple plainService Warp.simple_documented id (fun _ => rfl) hinit
    wellFormedTree_letterDisk devClients devNet _ _ .refl ?_ ?_ hrun
    "www.a.com".toList (by decide) ?_
  · intro inv hinv d hd
    rw [(hcommand inv hinv).2] at hd
    obtain rfl := Option.some.inj hd
    decide
  · intro inv hinv he
    have hdomain := (hcommand inv hinv).2
    rw [he] at hdomain
    exact absurd hdomain nofun
  · intro inv hinv version he
    have hdomain := (hcommand inv hinv).2
    rw [he] at hdomain
    exact absurd hdomain (by simp [Commands.domain])

end Client
end SpaServer
