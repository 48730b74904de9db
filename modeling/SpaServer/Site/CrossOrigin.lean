import SpaServer.Site.Headers
import SpaServer.Site.Redirect

/-!
# Pages of other origins

A browser lets a page of another origin read a response when `Access-Control-Allow-Origin` names
that origin.  `cors.rs` decides before the file is looked for, and `create_service` puts the headers
on at the end; between the two lie the redirect and every way of keeping a file.

* `serviceConfig_eq`: what is set for a host is what its last entry says, or else the common setting.
* `createService_fromOrigin`: what a request gets that comes from another origin.
* `crossOrigin_policy`: so a page reads what its own origin would get when the settings let it, and
  otherwise gets an answer that has nothing of the files in it.
-/

namespace SpaServer.Site

open Base

/-- What a host serves may be read by pages of other origins. -/
def Settings.allowsCors (conf : Settings) (host : Str) : Bool :=
  ((conf.entry host).bind (·.cors)).getD conf.cors

theorem serviceConfig_eq (conf : Settings) (host : Str) :
    (ServiceConfig.new conf).getDomainServiceConfig host =
      ⟨conf.allowsCors host, conf.redirects host⟩ := by
  have hinner : (ServiceConfig.new conf).inner host = (conf.entry host).map fun domain =>
      ⟨domain.cors.getD conf.cors,
        (domain.https.bind (·.httpRedirectToHttps)).getD conf.defaultRedirect⟩ := by
    show DashMap.collect _ host = _
    rw [DashMap.collect_eq, List.filter_map, List.getLast?_map, Option.map_map]
    rfl
  unfold ServiceConfig.getDomainServiceConfig Settings.allowsCors Settings.redirects
  rw [hinner]
  cases conf.entry host with
  | none => rfl
  | some domain => rfl

/-! ### The same request from another origin -/

def Request.fromOrigin (req : Request) (origin : HeaderValue) : Request :=
  { req with headers := Function.update req.headers "origin".toList (some origin) }

theorem Request.headers_fromOrigin (req : Request) (origin : HeaderValue) {name : Str}
    (hname : name ≠ "origin".toList) : (req.fromOrigin origin).headers name = req.headers name :=
  Function.update_of_ne hname ..

theorem Request.origin_fromOrigin (req : Request) (origin : HeaderValue) :
    (req.fromOrigin origin).headers "origin".toList = some origin := by
  unfold Request.fromOrigin
  dsimp only
  rw [Function.update_self]

/-- The conditional headers are four, and `Origin` is none of them. -/
def Http.IgnoresOrigin (http : Http) : Prop :=
  ∀ headers value, http.conditionals (Function.update headers "origin".toList value) =
    http.conditionals headers

/-- The settings let a page make this request. -/
def Allowed (http : Http) (conf : Settings) (host : Str) (req : Request) : Prop :=
  conf.allowsCors host = true ∧
    (req.method = "OPTIONS".toList → PreflightAllowed http req.headers)

def SentOn (conf : Settings) (host : Str) (req : Request) : Prop :=
  req.scheme = some "http".toList ∧ conf.redirects host = true

section Request

variable {http : Http} {conf : Settings} {w : World} {req : Request} {host : Str}

theorem host_fromOrigin (req : Request) (origin : HeaderValue) :
    (req.fromOrigin origin).host http = req.host http := by
  unfold Request.host
  rw [req.headers_fromOrigin origin (by decide)]
  rfl

theorem staticFile_fromOrigin (hignores : http.IgnoresOrigin) (w : World) (host : Str)
    (req : Request) (origin : HeaderValue) :
    staticFile http w host (req.fromOrigin origin) = staticFile http w host req := by
  have hconditionals : http.conditionals (req.fromOrigin origin).headers =
      http.conditionals req.headers := hignores req.headers (some origin)
  have hpath : (req.fromOrigin origin).path = req.path := rfl
  unfold staticFile
  rw [req.headers_fromOrigin origin (by decide), hconditionals, hpath]

theorem preflightAllowed_fromOrigin (req : Request) (origin : HeaderValue) :
    PreflightAllowed http (req.fromOrigin origin).headers ↔ PreflightAllowed http req.headers := by
  unfold PreflightAllowed
  rw [req.headers_fromOrigin origin (by decide)]

theorem createService_own (hhost : req.host http = some host)
    (horigin : req.headers "origin".toList = none) (w : World) :
    (SentOn conf host req → createService http (.new conf) w req =
      ((Response.new []).insert (.location req.uri)).withStatus 301) ∧
    (¬ SentOn conf host req → createService http (.new conf) w req = staticFile http w host req) := by
  have hcors : respCorsRequest http req.method req.headers
      ((ServiceConfig.new conf).getDomainServiceConfig host).cors = .ok .notCors := by
    unfold respCorsRequest
    rw [horigin]
  rw [createService_eq hhost]
  unfold answerWith SentOn
  rw [hcors, serviceConfig_eq]
  exact ⟨fun h => if_pos h, fun h => if_neg h⟩

/-- **What a request from another origin gets**: a refusal, the answer to a preflight request, or
what the host's own pages get. -/
theorem createService_fromOrigin (hignores : http.IgnoresOrigin)
    (hhost : req.host http = some host) (horigin : req.headers "origin".toList = none)
    (origin : HeaderValue) :
    (¬ Allowed http conf host req → ∃ text, ∀ w,
      createService http (.new conf) w (req.fromOrigin origin) = resp 403 text) ∧
    (Allowed http conf host req → req.method = "OPTIONS".toList → ∀ w,
      createService http (.new conf) w (req.fromOrigin origin) = corsResp (.new []) origin) ∧
    (Allowed http conf host req → req.method ≠ "OPTIONS".toList → ∀ w,
      (SentOn conf host req → createService http (.new conf) w (req.fromOrigin origin) =
        createService http (.new conf) w req) ∧
      (¬ SentOn conf host req → createService http (.new conf) w (req.fromOrigin origin) =
        corsResp (createService http (.new conf) w req) origin)) := by
  have hhost' : (req.fromOrigin origin).host http = some host :=
    (host_fromOrigin req origin).trans hhost
  have hsent := req.origin_fromOrigin origin
  have houtcome := respCorsRequest_outcome http req.method (req.fromOrigin origin).headers
    (conf.allowsCors host)
  have hanswer := fun w => @createService_eq w http (.new conf) (req.fromOrigin origin) host hhost'
  have hmethod' : (req.fromOrigin origin).method = req.method := rfl
  simp only [answerWith, serviceConfig_eq, staticFile_fromOrigin hignores, hmethod'] at hanswer
  generalize respCorsRequest http req.method (req.fromOrigin origin).headers
    (conf.allowsCors host) = outcome at houtcome hanswer
  cases houtcome with
  | notCors hnone => exact absurd (hsent.symm.trans hnone) nofun
  | simple hsome hmethod hallow =>
    obtain rfl := Option.some.inj (hsent.symm.trans hsome)
    refine ⟨fun h => absurd ⟨hallow, fun h => absurd h hmethod⟩ h, fun _ h => absurd h hmethod,
      fun _ _ w => ?_⟩
    obtain ⟨hon, hfile⟩ := @createService_own http conf req host hhost horigin w
    refine ⟨fun h => ?_, fun h => ?_⟩
    · rw [hanswer, hon h]
      exact if_pos h
    · rw [hanswer, hfile h]
      exact if_neg h
  | preflight hsome hmethod hallow hpreflight =>
    obtain rfl := Option.some.inj (hsent.symm.trans hsome)
    have hallowed : Allowed http conf host req :=
      ⟨hallow, fun _ => (preflightAllowed_fromOrigin req origin).mp hpreflight⟩
    exact ⟨fun h => absurd hallowed h, fun _ _ w => hanswer w, fun _ h => absurd hmethod h⟩
  | refused _ hrefused text =>
    have hnot : ¬ Allowed http conf host req := by
      rintro ⟨hallow, hpreflight⟩
      rcases hrefused with hrefused | ⟨hmethod, hrefused⟩
      · exact absurd (hallow.symm.trans hrefused) (by decide)
      · exact hrefused ((preflightAllowed_fromOrigin req origin).mpr (hpreflight hmethod))
    exact ⟨fun _ => ⟨text, hanswer⟩, fun h => absurd h hnot, fun h => absurd h hnot⟩

/-! ### What a page may read -/

/-- What a browser lets a page of this origin read of a response. -/
def readBy (origin : HeaderValue) (resp : Response) : Option Response :=
  if resp.headers .accessControlAllowOrigin = some (.accessControlAllowOrigin origin) then some resp
  else none

theorem readBy_of_none {resp : Response} (h : resp.headers .accessControlAllowOrigin = none)
    (origin : HeaderValue) : readBy origin resp = none :=
  if_neg (by rw [h]; exact nofun)

theorem readBy_corsResp (resp : Response) (origin page : HeaderValue) :
    readBy page (corsResp resp origin) =
      if page = origin then some (corsResp resp origin) else none := by
  have hself : (corsResp resp origin).headers .accessControlAllowOrigin =
      some (.accessControlAllowOrigin origin) := by
    exact HeaderMap.insert_self (((resp.insert .accessControlAllowCredentials).insert
      (.accessControlAllowMethods allowMethods)).insert (.accessControlMaxAge 3600)).headers
      (.accessControlAllowOrigin origin)
  unfold readBy
  rw [hself]
  by_cases hpage : page = origin
  · rw [if_pos hpage, hpage, if_pos rfl]
  · rw [if_neg hpage, if_neg fun h => hpage (Header.accessControlAllowOrigin.inj
      (Option.some.inj h)).symm]

theorem staticFile_noOrigin (hbare : http.toWarp.AnswersBare) (w : World) (host : Str)
    (req : Request) : (staticFile http w host req).headers .accessControlAllowOrigin = none := by
  unfold staticFile
  cases hfile : getCacheFile req.path host w.storage with
  | error resp =>
    rw [getCacheFile_error hfile]
    rfl
  | ok found =>
    obtain ⟨key, item⟩ := found
    have hshape := @cacheOrFileReply_shape item _ hbare w.disk (http.conditionals req.headers)
      ((req.headers "accept-encoding".toList).bind http.toStr)
    cases hshape with
    | bare _ hnone => exact hnone _ (by decide)
    | file _ hheaders =>
      rw [hheaders _ (by decide), cacheItemToResponseHeader_headers (by decide)]
      rfl

/-- What pages of other origins may read of what this request asks for. -/
structure CrossOriginPolicy (http : Http) (conf : Settings) (host : Str) (req : Request) : Prop where
  own : ∀ w page, readBy page (createService http (.new conf) w req) = none
  /-- A refusal says nothing of the files. -/
  refused : ¬ Allowed http conf host req → ∀ origin page w w',
    readBy page (createService http (.new conf) w (req.fromOrigin origin)) = none ∧
      createService http (.new conf) w' (req.fromOrigin origin) =
        createService http (.new conf) w (req.fromOrigin origin)
  /-- Nor does the answer to a preflight request. -/
  preflight : Allowed http conf host req → req.method = "OPTIONS".toList → ∀ origin page w,
    readBy page (createService http (.new conf) w (req.fromOrigin origin)) =
      if page = origin then some (corsResp (.new []) origin) else none
  sentOn : Allowed http conf host req → req.method ≠ "OPTIONS".toList → SentOn conf host req →
    ∀ origin page w, readBy page (createService http (.new conf) w (req.fromOrigin origin)) = none
  reads : Allowed http conf host req → req.method ≠ "OPTIONS".toList → ¬ SentOn conf host req →
    ∀ origin page w, readBy page (createService http (.new conf) w (req.fromOrigin origin)) =
      if page = origin then some (corsResp (createService http (.new conf) w req) origin) else none

/-- **A page of another origin reads what the settings let it**: exactly what the host's own pages
get, with the headers that let it, or else nothing, and then the answer is the same whatever is
published. -/
theorem crossOrigin_policy (hbare : http.toWarp.AnswersBare) (hignores : http.IgnoresOrigin)
    (conf : Settings) (hhost : req.host http = some host)
    (horigin : req.headers "origin".toList = none) : CrossOriginPolicy http conf host req := by
  have hown : ∀ w, (createService http (.new conf) w req).headers .accessControlAllowOrigin =
      none := by
    intro w
    obtain ⟨hon, hfile⟩ := @createService_own http conf req host hhost horigin w
    by_cases hsent : SentOn conf host req
    · rw [hon hsent]
      rfl
    · rw [hfile hsent]
      exact staticFile_noOrigin hbare w host req
  have hfrom := @createService_fromOrigin http conf req host hignores hhost horigin
  refine ⟨fun w => readBy_of_none (hown w), ?_, ?_, ?_, ?_⟩
  · intro hnot origin page w w'
    obtain ⟨text, hrefused⟩ := (hfrom origin).1 hnot
    rw [hrefused w, hrefused w']
    exact ⟨readBy_of_none rfl page, rfl⟩
  · intro hallowed hmethod origin page w
    rw [(hfrom origin).2.1 hallowed hmethod w]
    exact readBy_corsResp _ origin page
  · intro hallowed hmethod hsent origin page w
    rw [((hfrom origin).2.2 hallowed hmethod w).1 hsent]
    exact readBy_of_none (hown w) page
  · intro hallowed hmethod hsent origin page w
    rw [((hfrom origin).2.2 hallowed hmethod w).2 hsent]
    exact readBy_corsResp _ origin page

end Request

def openSettings : Settings := ⟨true, none, []⟩

def otherOrigin : HeaderValue := encodeUtf8 "https://www.b.com".toList

/-- A page of the other origin asks whether it may `GET`. -/
def askFirst : Request :=
  { get "www.a.com".toList "/index.html".toList with
    method := "OPTIONS".toList
    headers := Function.update (fun _ => none) "access-control-request-method".toList
      (some (encodeUtf8 "GET".toList)) }

/-- It may, and reads the page. -/
theorem crossOrigin_policy_open :
    let page := get "www.a.com".toList "/index.html".toList
    CrossOriginPolicy .simple openSettings "www.a.com".toList askFirst ∧
    Allowed .simple openSettings "www.a.com".toList askFirst ∧
    CrossOriginPolicy .simple openSettings "www.a.com".toList page ∧
    (readBy otherOrigin (createService .simple (.new openSettings) letterWorld
      (page.fromOrigin otherOrigin))).map (fun resp => (resp.status, resp.body)) =
        some (200, [97]) := by
  intro page
  refine ⟨crossOrigin_policy simple_answersBare (fun _ _ => rfl) openSettings rfl rfl,
    ⟨rfl, fun _ => ?_⟩, crossOrigin_policy simple_answersBare (fun _ _ => rfl) openSettings rfl rfl,
    by decide +kernel⟩
  exact ⟨_, rfl, by decide +kernel⟩

end SpaServer.Site
