import SpaServer.Client.Mirror
import SpaServer.Client.Traffic
import SpaServer.Site.Published

/-!
# Deploying a site

From the directory on the client's disk to the replies of the service: the client uploads it
as a new version, the version is released, and a browser asks for its files.

* `uploadFiles_run`: all that an upload does to the server is a run of requests that spare what
  is uploaded or served.
* `holds_of_mirrors`, `release_publishes`, `Serves.run`: the version holds the directory, its
  release publishes that, and it stays published until the next one.
* `deployed_site`: so every file of the directory is answered with its bytes, and every path
  that leads to none with 404, whatever requests have come since.
-/

namespace SpaServer

open Base Program Client Site

variable {crates : Crates}

/-- The request does no harm to what is uploaded or served. -/
def SparesLive (w : World) (r : AdminRequest) : Prop := Keeps w r ∧ SparesServed w r

/-! ### Uploading -/

/-- Whatever the host takes the request for spares what is live, whenever it comes. -/
def AsksSparing (host : Host) (req : HttpRequest) : Prop :=
  ∀ r, AdminServer.routes host.conf host.formLength req = some (.service r) → ∀ w, SparesLive w r

section Upload

variable {host : Host} {api : API} {d : Str} {v : UInt32} {req : HttpRequest}

theorem sparesLive_of_plain {r : AdminRequest} (hplain : r.PlainDomain)
    (hno : ∀ q, r ≠ .removeDomainVersion q) (w : World) : SparesLive w r :=
  ⟨⟨hplain, fun q hq => absurd hq (hno q)⟩, fun q hq => absurd hq (hno q)⟩

theorem uses_request {β : Type} {allowed : HttpRequest → Prop} {r : Except ApiError HttpRequest}
    {f : Option Response → ClientM β} (hreq : ∀ req, r = .ok req → allowed req)
    (hf : ∀ reply, (f reply).Uses allowed) : (call r >>= f).Uses allowed := by
  cases r with
  | error e => exact hf none
  | ok req => exact ⟨hreq req rfl, hf⟩

inductive UploadRequest (d : Str) : AdminRequest → Prop
  | position (format : GetDomainPositionFormat) : UploadRequest d (.getUploadPosition ⟨d, format⟩)
  | metadata (v : UInt32) : UploadRequest d (.getFilesMetadata ⟨d, v⟩)
  | status (v : UInt32) (status : UploadingStatus) :
      UploadRequest d (.changeUploadStatus ⟨d, v, status⟩)
  | file {parts : List Part} (h : (formOf parts).domain = some d) : UploadRequest d (.uploadFile parts)

/-- Whatever the host takes the request for is one of these, and so no reload. -/
def Asks (host : Host) (allowed : AdminRequest → Prop) (req : HttpRequest) : Prop :=
  ∀ c, AdminServer.routes host.conf host.formLength req = some c → ∃ r, c = .service r ∧ allowed r

theorem Asks.mono {allowed allowed' : AdminRequest → Prop} (h : Asks host allowed req)
    (himp : ∀ r, allowed r → allowed' r) : Asks host allowed' req := fun c hc =>
  let ⟨r, he, hr⟩ := h c hc
  ⟨r, he, himp r hr⟩

theorem asks_of_routes {allowed : AdminRequest → Prop} {p : Prop} [Decidable p] {r : AdminRequest}
    (hroutes : AdminServer.routes host.conf host.formLength req =
      if p then some (.service r) else none) (hr : allowed r) : Asks host allowed req := by
  intro c hc
  rw [hroutes] at hc
  split at hc
  · exact ⟨r, (Option.some.inj hc).symm, hr⟩
  · exact absurd hc nofun

theorem UploadRequest.plainDomain {r : AdminRequest} (h : UploadRequest d r) (hd : Plain d) :
    r.PlainDomain := by
  cases h with
  | position format => exact hd
  | metadata v => exact hd
  | status v status => exact hd
  | file hform =>
    intro d' hd'
    rw [hform] at hd'
    obtain rfl := Option.some.inj hd'
    exact hd

theorem UploadRequest.sparesLive {r : AdminRequest} (h : UploadRequest d r) (hd : Plain d)
    (w : World) : SparesLive w r := by
  refine sparesLive_of_plain (h.plainDomain hd) ?_ w
  rintro q rfl
  cases h

theorem asks_retryUpload {dk : Disk} (file : UploadingFile) (n : Nat) :
    (retryUpload api dk d (toDecimal v) file n).Uses (Asks host (UploadRequest d)) := by
  induction n with
  | zero => trivial
  | succ n ih =>
    refine uses_request (fun req hreq => ?_) fun reply => ?_
    · obtain ⟨name, f, -, -, rfl⟩ := uploadFile_eq_ok.mp hreq
      exact asks_of_routes routes_uploadForm (.file (by rw [formOf_uploadForm]))
    · cases handleResp reply
      · exact ih
      · trivial

theorem asks_sendFiles {dk : Disk} {sched : List Nat} {parallel : UInt32}
    {files : List UploadingFile} :
    (sendFiles api dk sched d v parallel files).Uses (Asks host (UploadRequest d)) := by
  have hstatus : ∀ st req, api.changeUploadingStatus ⟨d, v, st⟩ = .ok req →
      Asks host (UploadRequest d) req := fun st req hreq =>
    asks_of_routes (routes_changeUploadingStatus hreq) (.status v st)
  refine uses_request (hstatus _) fun reply => ?_
  cases handleResp reply with
  | false => trivial
  | true =>
    dsimp only
    split
    · trivial
    · refine (uses_interleave fun p hp => ?_).bind fun results => ?_
      · obtain ⟨file, -, rfl⟩ := List.mem_map.mp hp
        exact asks_retryUpload file 3
      · split
        · refine uses_request (hstatus _) fun reply => ?_
          cases handleResp reply <;> trivial
        · trivial

theorem asks_uploadFiles {dk : Disk} {sched : List Nat} {version : Option UInt32}
    {path : PathBuf} {parallel : UInt32} :
    (uploadFiles crates api dk sched d version path parallel).Uses
      (Asks host (UploadRequest d)) := by
  rw [uploadFiles]
  split
  · trivial
  · trivial
  split
  · trivial
  next prefixPath _ =>
  have hposition : (getUploadVersion api d version).Uses (Asks host (UploadRequest d)) := by
    cases version with
    | some v => trivial
    | none =>
      refine uses_request (fun req hreq => ?_) fun reply => trivial
      exact asks_of_routes (routes_getUploadPosition hreq) (.position _)
  refine hposition.bind fun known => ?_
  cases known with
  | none => trivial
  | some v =>
    refine uses_request (fun req hreq => ?_) fun reply => ?_
    · exact asks_of_routes (routes_getFileMetadata hreq) (.metadata v)
    · split
      · trivial
      · dsimp only
        split
        · trivial
        · exact asks_sendFiles

theorem uses_uploadFiles (hd : Plain d) {dk : Disk} {sched : List Nat} {version : Option UInt32}
    {path : PathBuf} {parallel : UInt32} :
    (uploadFiles crates api dk sched d version path parallel).Uses (AsksSparing host) := by
  refine (@asks_uploadFiles crates host api d dk sched version path parallel).mono fun _ h r hr w => ?_
  obtain ⟨_, he, hr⟩ := h _ hr
  obtain rfl := AdminCall.service.inj he
  exact hr.sparesLive hd w

/-- **An upload is a run of requests that spare what is live**, whatever becomes of them on
their way. -/
theorem uploadFiles_run (hd : Plain d) {dk : Disk} {sched : List Nat} {version : Option UInt32}
    {path : PathBuf} {parallel : UInt32} {n n' : Net} {res : Except UploadError Unit}
    (h : (uploadFiles crates api dk sched d version path parallel).run host.meaning n =
      (res, n')) : World.Run host.crates SparesLive n.world n'.world := by
  have hanswer : ∀ req w, AsksSparing host req →
      World.Run host.crates SparesLive w (host.answer w req).2 := by
    intro req w hreq
    rw [Host.answer]
    split
    · next r hr => exact .single ⟨r, hreq r hr w, rfl⟩
    · exact .refl
  have hstep : ∀ req n, AsksSparing host req →
      World.Run host.crates SparesLive n.world (host.meaning req n).2.world := by
    intro req n hreq
    rcases meaning_cases host req n with ⟨_, hw⟩ | ⟨_, hw | hw⟩
    · rw [hw]; exact hanswer req n.world hreq
    · rw [hw]; exact hanswer req n.world hreq
    · rw [hw]; exact .refl
  have huses : (uploadFiles crates api dk sched d version path parallel).Uses (AsksSparing host) :=
    uses_uploadFiles hd
  have hrun := huses.run_rel (m := host.meaning)
    (R := fun n n' => World.Run host.crates SparesLive n.world n'.world)
    (fun _ => .refl) (fun h h' => h.trans h') hstep n
  rw [h] at hrun
  exact hrun

end Upload

/-! ### Releasing -/

/-- The world stands for a store that publishes what its versions hold. -/
structure Serves (crates : Crates) (w : World) (s : Deployed) : Prop where
  represents : Represents crates w s
  apart : s.Apart
  current : s.Current

section Release

variable {w w' : World} {s : Deployed} {ok : World → AdminRequest → Prop} {d : Str} {v : UInt32}

theorem serves_init {dk : Disk} {path : PathBuf} {settings : CacheSettings} {st : DomainStorage}
    (hinit : DomainStorage.init crates dk path ⟨settings, .empty⟩ = .ok st)
    (htree : WellFormedTree dk path) : Serves crates ⟨st, dk⟩ (World.deployed ⟨st, dk⟩) :=
  ⟨represents_init hinit htree, apart_init hinit htree, current_init hinit htree⟩

/-- **What is published stays**, as long as no request releases another version of its name. -/
theorem Serves.run (h : Serves crates w s) (hok : ∀ w r, ok w r → SparesLive w r)
    (hrun : World.Run crates ok w w') : ∃ s', Serves crates w' s' ∧ ∀ d : Domain,
      (∀ w version, ¬ ok w (.updateDomainVersion ⟨d, version⟩)) →
        s'.published d = s.published d := by
  obtain ⟨log, hlog⟩ := hrun.logged
  obtain ⟨s', hbeside⟩ := exists_beside (fun w r hr => (hok w r hr).1) h.represents hlog
  obtain ⟨events, hevents, hlogs⟩ := hbeside.run
  refine ⟨s', ⟨hbeside.represents, hevents.apart h.apart, hevents.current
    (fun _ _ he => he fun w r hr => (hok w r hr).2) h.current h.apart⟩, fun d hno => ?_⟩
  refine hevents.published_eq fun v hmem => ?_
  obtain ⟨_, r, resp, hin, hcauses⟩ := hlogs _ hmem
  obtain ⟨w₁, hr⟩ := hbeside.allowed _ hin
  cases hcauses
  exact hno _ _ hr

/-- **A release publishes the version as it is on the disk.** -/
theorem release_publishes (hd : Plain d)
    (h : Serves crates (w.serve crates (.updateDomainVersion ⟨d, some v⟩)).2 s)
    (hstatus : (w.serve crates (.updateDomainVersion ⟨d, some v⟩)).1.status = 200) :
    site s d = some (v, w.disk.filesBelow (w.versionLoc d v)) := by
  have ho := @serve_outcome crates w (.updateDomainVersion ⟨d, some v⟩)
  generalize w.serve crates (.updateDomainVersion ⟨d, some v⟩) = res at ho h hstatus
  cases ho with
  | looks hlook => exact absurd hlook (by simp [AdminRequest.isLookup])
  | release ho =>
    cases ho with
    | refused => exact absurd hstatus (by simp [releaseResponse, SpaServer.Response.notFound])
    | @released u _ _ hversion =>
      obtain rfl : v = u := by simpa using hversion
      have hserving : (w.release crates d v).serving d = some v := by
        rw [serving_release, if_pos rfl]
      rw [site, dif_pos hd]
      cases hpub : s.published ⟨d, hd⟩ with
      | none =>
        have hnone := (h.represents.unpublished _ hpub).1
        exact absurd (hnone.symm.trans hserving) (by simp)
      | some vc =>
        obtain ⟨u, c⟩ := vc
        obtain rfl := Option.some.inj
          ((h.represents.published _ u c hpub).serving.symm.trans hserving)
        have hcontent := (h.represents.content _ _).symm.trans (h.current _ _ c hpub)
        rw [← (content_eq_some.mp hcontent).2]
        rfl

end Release

/-! ### Asking for the files -/

structure Holds {dk : Disk} (dir : LocalDir dk) (c : Content) : Prop where
  file : ∀ r f, dir.File r f → ∃ t, c (r.map .utf8) = some ⟨f.bytes, t⟩
  only : ∀ l g, c l = some g → ∃ r f, dir.File r f ∧ l = r.map .utf8

section Ask

variable {dk : Disk} {dir : LocalDir dk} {w : World} {s : Deployed} {d : Str} {v : UInt32}
  {c : Content} {http : Http} {conf : ServiceConfig} {req : Site.Request}

theorem holds_of_mirrors (h : Mirrors dir d v w) (hfaith : dir.Faithful) :
    Holds dir (w.disk.filesBelow (w.versionLoc d v)) := by
  constructor
  · intro r f hf
    obtain ⟨t, ht⟩ := h.files r f hf
    exact ⟨t, filesBelow_eq_some.mpr
      ⟨fun he => (hfaith r f hf).2 (map_utf8_injective he), ht⟩⟩
  · intro l g hl
    obtain ⟨r, f, hf, hloc⟩ := h.only _ g (List.prefix_append _ l) (filesBelow_eq_some.mp hl).2
    exact ⟨r, f, hf, List.append_cancel_left hloc⟩

/-- A request for `d` from its own origin that is not redirected and has no conditions. -/
structure PlainRequest (http : Http) (conf : ServiceConfig) (d : Str) (req : Site.Request) : Prop where
  host : req.host http = some d
  origin : req.headers "origin".toList = none
  scheme : ¬ (req.scheme = some "http".toList ∧
    (conf.getDomainServiceConfig d).httpRedirectToHttps = true)
  unconditional : ∀ modified, http.check (http.conditionals req.headers) modified = .withBody none

theorem PlainRequest.service (h : PlainRequest http conf d req) :
    createService http conf w req = staticFile http w d req := by
  rw [createService_eq h.host, answerWith, respCorsRequest, h.origin]
  dsimp only
  rw [if_neg h.scheme]
  rfl

def LeadsTo (p : Str) (r : List Str) : Prop :=
  p = '/' :: relativePath r ∨ (p = "/".toList ∨ p = []) ∧ r = ["index.html".toList]

theorem LeadsTo.keyOf {p : Str} {r : List Str} (h : LeadsTo p r) (hne : relativePath r ≠ []) :
    keyOf p = relativePath r := by
  rcases h with rfl | ⟨hroot, rfl⟩
  · refine if_neg ?_
    rintro (h | h)
    · exact hne (List.cons.inj h).2
    · exact absurd h (by simp)
  · exact if_pos hroot

theorem LeadsTo.safe {p : Str} {r : List Str} (h : LeadsTo p r) (hne : r ≠ [])
    (hplain : ∀ n ∈ r, Plain n) (hsafe : ∀ n ∈ r, SafeSegment n) :
    ∀ seg ∈ p.splitOn '/', SafeSegment seg := by
  rcases h with rfl | ⟨rfl | rfl, -⟩
  · rw [← slashed_eq hne fun n hn => (hplain n hn).2.1,
      splitOn_slashed fun n hn => (hplain n hn).2.1]
    exact List.forall_mem_cons.mpr ⟨by decide, hsafe⟩
  · decide
  · decide

theorem safe_of_faithful (hfaith : dir.Faithful) {r : List Str} {f : FileData}
    (hf : dir.File r f) : ∀ n ∈ r, SafeSegment n := by
  obtain ⟨t, _, hsafe, hr⟩ := sanitizedNames_eq_some.mp (hfaith r f hf).1
  intro n hn
  rw [← hr] at hn
  exact hsafe n (List.mem_filter.mp hn).1

theorem Client.LocalDir.File.splitOn_relativePath {r : List Str} {f : FileData} (hf : dir.File r f) :
    (relativePath r).splitOn '/' = r :=
  List.splitOn_intercalate _ (fun n hn => (hf.plain_rel n hn).2.1) hf.ne_nil

/-- The version's own path is in no path of a file. -/
def CleanDir (dir : LocalDir dk) (root : PathBuf) : Prop :=
  ∀ r f, dir.File r f → ¬ root ++ ['/'] <:+: relativePath r

/-- **A site that holds a directory answers with its files.** -/
theorem answers_files (hwarp : http.toWarp.Documented) {gunzip : List UInt8 → List UInt8}
    (hgunzip : ∀ bytes, gunzip (crates.gzip bytes) = bytes) (h : Serves crates w s)
    (hsite : site s d = some (v, c)) (hholds : Holds dir c) (hfaith : dir.Faithful)
    (hclean : CleanDir dir (getVersionPath w.storage.pathPrefix d v))
    (hreq : PlainRequest http conf d req) :
    (∀ r f p, dir.File r f → percentDecode req.path = some p → LeadsTo p r →
      (createService http conf w req).status = 200 ∧
        decoded gunzip (createService http conf w req) = f.bytes) ∧
    ((∀ p, percentDecode req.path = some p → keyOf p ≠ uploadingFileName ∧
        ∀ r f, dir.File r f → keyOf p ≠ relativePath r) →
      createService http conf w req = notFound) := by
  have hcleanSite : CleanSite w.storage.pathPrefix d (site s d) := by
    intro u c' hu names f hf
    obtain ⟨rfl, rfl⟩ := Prod.mk.inj (Option.some.inj (hsite.symm.trans hu))
    obtain ⟨r, g, hr, hnames⟩ := hholds.only _ f hf
    rw [map_utf8_injective hnames]
    exact hclean r g hr
  rw [hreq.service]
  constructor
  · intro r f p hf hp hleads
    obtain ⟨t, hfile⟩ := hholds.file r f hf
    have hsplit := hf.splitOn_relativePath
    have hne : relativePath r ≠ [] := by
      intro he
      rw [he] at hsplit
      have hplain := hf.plain_rel [] (by rw [← hsplit]; simp)
      exact hplain.1 rfl
    have hkey := hleads.keyOf hne
    have hsanitized : Site.sanitizePath req.path = .ok p := sanitizePath_eq_ok.mpr
      ⟨hp, hleads.safe hf.ne_nil hf.plain_rel (safe_of_faithful hfaith hf)⟩
    have hasks : AsksFile req := by
      intro p' hp'
      obtain rfl := Except.ok.inj (hsanitized.symm.trans hp')
      rw [hkey]
      intro hmarker
      rw [hmarker] at hsplit
      exact (hfaith r f hf).2 (hsplit.symm.trans (by decide))
    have hok : siteFile (site s d) req.path = .ok (v, relativePath r, ⟨f.bytes, t⟩) := by
      rw [hsite]
      refine siteFile_ok.mpr ⟨p, hsanitized, rfl, hkey.symm, ?_⟩
      rw [fileOf, hsplit, hfile]
    rcases staticFile_cases h.represents h.current hcleanSite hasks with ⟨resp, herror, _⟩ |
      ⟨u, key, g, item, hok', ⟨hfind, hsame⟩, hstatic⟩
    · exact absurd (hok.symm.trans herror) (by simp)
    · obtain ⟨rfl, hrest⟩ := Prod.mk.inj (Except.ok.inj (hok.symm.trans hok'))
      obtain ⟨rfl, rfl⟩ := Prod.mk.inj hrest
      rw [hstatic]
      exact reply_whole hwarp hgunzip hfind hsame.left (hreq.unconditional _) _
  · intro hno
    have hasks : AsksFile req := fun p hp => (hno p (sanitizePath_eq_ok.mp hp).1).1
    rcases staticFile_cases h.represents h.current hcleanSite hasks with ⟨resp, herror, hstatic⟩ |
      ⟨u, key, g, item, hok, _, _⟩
    · rw [hstatic]
      exact siteFile_error herror
    · rw [hsite] at hok
      obtain ⟨p, hp, _, rfl, hfile⟩ := siteFile_ok.mp hok
      obtain ⟨r, f, hf, hnames⟩ := hholds.only _ g hfile
      refine absurd ?_ ((hno p (sanitizePath_eq_ok.mp hp).1).2 r f hf)
      rw [← map_utf8_injective hnames, relativePath_splitOn]

end Ask

/-! ### From the directory to the browser -/

/-- **A version that mirrors a directory is served when it is released**, until another version of
the domain is. -/
theorem released_answers {host : Host} {dk : Disk} {dir : LocalDir dk} {d : Str} {v : UInt32}
    {dk₀ : Disk} {fileDir : PathBuf} {settings : CacheSettings} {st : DomainStorage} {w₁ w : World}
    {http : Http} {conf : ServiceConfig} (hwarp : http.toWarp.Documented)
    {gunzip : List UInt8 → List UInt8} (hgunzip : ∀ bytes, gunzip (host.crates.gzip bytes) = bytes)
    (hinit : DomainStorage.init host.crates dk₀ fileDir ⟨settings, .empty⟩ = .ok st)
    (htree : WellFormedTree dk₀ fileDir)
    (hreached : World.Run host.crates SparesLive ⟨st, dk₀⟩ w₁) (hd : Plain d)
    (hmirrors : Mirrors dir d v w₁) (hfaith : dir.Faithful)
    (hrelease : (w₁.serve host.crates (.updateDomainVersion ⟨d, some v⟩)).1.status = 200)
    (hafter : World.Run host.crates
      (fun w r => SparesLive w r ∧ ∀ version, r ≠ .updateDomainVersion ⟨d, version⟩)
      (w₁.serve host.crates (.updateDomainVersion ⟨d, some v⟩)).2 w)
    (hclean : CleanDir dir (getVersionPath fileDir d v)) {req : Site.Request}
    (hreq : PlainRequest http conf d req) :
    (∀ r f p, dir.File r f → percentDecode req.path = some p → LeadsTo p r →
      (createService http conf w req).status = 200 ∧
        decoded gunzip (createService http conf w req) = f.bytes) ∧
    ((∀ p, percentDecode req.path = some p → keyOf p ≠ uploadingFileName ∧
        ∀ r f, dir.File r f → keyOf p ≠ relativePath r) →
      createService http conf w req = Site.notFound) := by
  have hspares : SparesLive w₁ (.updateDomainVersion ⟨d, some v⟩) := by
    refine sparesLive_of_plain ?_ (by simp) _
    exact hd
  have hreleased := hreached.tail ⟨_, hspares, rfl⟩
  obtain ⟨s₁, h₁, _⟩ := (serves_init hinit htree).run (fun _ _ h => h) hreleased
  obtain ⟨s₂, h₂, hstays⟩ := h₁.run (fun _ _ h => h.1) hafter
  have hsite : site s₂ d = some (v, w₁.disk.filesBelow (w₁.versionLoc d v)) := by
    rw [← release_publishes hd h₁ hrelease, site, site, dif_pos hd, dif_pos hd]
    exact hstays ⟨d, hd⟩ fun _ version h => h.2 version rfl
  have hfileDir : w.storage.pathPrefix = fileDir := by
    rw [(settled_run hafter).1.pathPrefix, (settled_run hreleased).1.pathPrefix]
    exact (init_spec hinit).1
  exact answers_files hwarp hgunzip h₂ hsite (holds_of_mirrors hmirrors hfaith) hfaith
    (by rw [hfileDir]; exact hclean) hreq

/-- **A site that has been uploaded and released is served.**  A directory with faithful keys is
uploaded as a version that was not there, and this is released; afterwards, and until another
version of the domain is released, every path to a file of the directory is answered with the
bytes of that file, and a path to none with 404. -/
theorem deployed_site {host : Host} {api : API} {dk : Disk} {dir : LocalDir dk} {sched : List Nat}
    {d : Str} {v : UInt32} {version : Option UInt32} {path : PathBuf} {parallel : UInt32}
    {n n' : Net} {dk₀ : Disk} {fileDir : PathBuf} {settings : CacheSettings} {st : DomainStorage}
    {w : World} {http : Http} {conf : ServiceConfig} (hwarp : http.toWarp.Documented)
    {gunzip : List UInt8 → List UInt8} (hgunzip : ∀ bytes, gunzip (host.crates.gzip bytes) = bytes)
    (hinit : DomainStorage.init host.crates dk₀ fileDir ⟨settings, .empty⟩ = .ok st)
    (htree : WellFormedTree dk₀ fileDir)
    (hbefore : World.Run host.crates SparesLive ⟨st, dk₀⟩ n.world) (hd : Plain d)
    (hpath : dk.locate path = dir.names.map .utf8)
    (hversion : version = some v ∨
      version = none ∧ (positionOf host.crates n.world d).version = v)
    (hnew : n.world.disk.node (n.world.versionLoc d v) = none) (hfaith : dir.Faithful)
    (hupload : (uploadFiles crates api dk sched d version path parallel).run host.meaning n =
      (.ok (), n'))
    (hrelease : (n'.world.serve host.crates (.updateDomainVersion ⟨d, some v⟩)).1.status = 200)
    (hafter : World.Run host.crates
      (fun w r => SparesLive w r ∧ ∀ version, r ≠ .updateDomainVersion ⟨d, version⟩)
      (n'.world.serve host.crates (.updateDomainVersion ⟨d, some v⟩)).2 w)
    (hclean : CleanDir dir (getVersionPath fileDir d v)) {req : Site.Request}
    (hreq : PlainRequest http conf d req) :
    (∀ r f p, dir.File r f → percentDecode req.path = some p → LeadsTo p r →
      (createService http conf w req).status = 200 ∧
        decoded gunzip (createService http conf w req) = f.bytes) ∧
    ((∀ p, percentDecode req.path = some p → keyOf p ≠ uploadingFileName ∧
        ∀ r f, dir.File r f → keyOf p ≠ relativePath r) →
      createService http conf w req = Site.notFound) :=
  released_answers hwarp hgunzip hinit htree (hbefore.trans (uploadFiles_run hd hupload)) hd
    ((mirrors_iff hpath hversion hnew hupload).mpr hfaith) hfaith hrelease hafter hclean hreq

theorem deployed_oneFile :
    (createService .simple plainService
      ((uploadSite (siteWith "a.html".toList)).2.world.serve Crates.simple
        (.updateDomainVersion ⟨"www.a.com".toList, some 1⟩)).2
      (get "www.a.com".toList "/a.html".toList)).status = 200 ∧
    decoded id (createService .simple plainService
      ((uploadSite (siteWith "a.html".toList)).2.world.serve Crates.simple
        (.updateDomainVersion ⟨"www.a.com".toList, some 1⟩)).2
      (get "www.a.com".toList "/a.html".toList)) = [1] := by
  have hwarp : Http.simple.toWarp.Documented := Warp.simple_documented
  have hinit : DomainStorage.init bareHost.crates bareDisk "/srv".toList
    ⟨bareStorage.cache.conf, .empty⟩ = .ok bareStorage := rfl
  have htree : WellFormedTree bareDisk "/srv".toList :=
    ⟨fun _ _ _ h => absurd h bareDisk_noVersion, fun _ _ _ _ _ h => absurd h bareDisk_noVersion⟩
  have hpath : (siteWith "a.html".toList).locate "/site".toList =
    (siteDir _ site_dir).names.map .utf8 := by decide +kernel
  have hplain : Plain "www.a.com".toList := by decide
  have hrelease : ((uploadSite (siteWith "a.html".toList)).2.world.serve bareHost.crates
    (.updateDomainVersion ⟨"www.a.com".toList, some 1⟩)).1.status = 200 := by decide +kernel
  have hclean : CleanDir (siteDir _ site_dir)
      (getVersionPath "/srv".toList "www.a.com".toList 1) := by
    intro r f hf
    rw [site_file hf]
    decide
  have hreq : PlainRequest .simple plainService "www.a.com".toList
    (get "www.a.com".toList "/a.html".toList) := ⟨rfl, rfl, fun h => absurd h.1 (by decide), fun _ => rfl⟩
  have hfile : (siteDir _ site_dir).File ["a.html".toList] ⟨[1], 0⟩ :=
    show (siteWith "a.html".toList).node _ = _ by decide +kernel
  have hbefore : World.Run bareHost.crates SparesLive ⟨bareStorage, bareDisk⟩ bareNet.world := .refl
  exact (deployed_site hwarp (fun _ => rfl) hinit htree hbefore hplain hpath (Or.inl rfl)
    (by decide +kernel) site_faithful (uploadSite_ok (by decide +kernel)) hrelease .refl hclean
    hreq).1 _ _ "/a.html".toList hfile (by decide +kernel) (Or.inl rfl)

end SpaServer
