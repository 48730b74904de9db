import Mathlib.Data.List.Nodup
import SpaServer.AdminRoutes
import SpaServer.Isolation

/-!
# Handlers of HTTP requests

What the admin server does with a request that comes in over HTTP: the routes are tried one after
the other, and the handler of the one that takes it works on the storage, step by step beside the
others.

* `routes_anyOrder`: no two routes of one method take the same request, so the order in which they
  are tried does not count.
* `readers_invisible`: requests without the token and requests with `GET` are not noticed by any
  other, however the steps are ordered.
-/

namespace SpaServer

open Base
open Base.Program

variable {crates : Crates}

/-! ### The order of the routes -/

abbrev Route := List Str × (HttpRequest → Option AdminCall)

namespace AdminServer

/-- The routes below `warp::get`, in the order of the source. -/
def getRoutes : List Route :=
  [(["status".toList], getDomainInfo),
    (["upload".toList, "position".toList], getDomainUploadPath),
    (["files".toList, "metadata".toList], getFilesMetadata)]

def postRoutes (conf : AdminConfig) (formLength : List FormPart → Nat) : List Route :=
  [(["update_version".toList], updateDomainVersion),
    (["reload".toList], reloadServer),
    (["files".toList, "upload_status".toList], changeUploadStatus),
    (["file".toList, "upload".toList], uploadFile conf formLength),
    (["files".toList, "delete".toList], removeDomainVersion)]

def firstOf (routes : List Route) (req : HttpRequest) : Option AdminCall :=
  routes.findSome? fun route => route.2 req

/-- The path of the route that may take a request: that of `status` stands for all below it. -/
def routePath (req : HttpRequest) : List Str :=
  if (segments req.path).head? = some "status".toList then ["status".toList] else segments req.path

variable {conf : AdminConfig} {formLength : List FormPart → Nat} {req : HttpRequest}

theorem firstOf_cons (route : Route) (routes : List Route) (req : HttpRequest) :
    firstOf (route :: routes) req = (route.2 req <|> firstOf routes req) := by
  unfold firstOf
  rw [List.findSome?_cons]
  cases route.2 req with
  | none => rfl
  | some c => rfl

theorem firstOf_singleton (route : Route) (req : HttpRequest) :
    firstOf [route] req = route.2 req := by
  rw [firstOf_cons]
  show (route.2 req <|> none) = _
  cases route.2 req with
  | none => rfl
  | some c => rfl

/-- Routes that take requests for their own paths only can be asked in any order. -/
theorem firstOf_perm {routes routes' : List Route} (hperm : routes'.Perm routes)
    (hnodup : (routes.map (·.1)).Nodup)
    (hown : ∀ route ∈ routes, ∀ c, route.2 req = some c → routePath req = route.1) :
    firstOf routes' req = firstOf routes req := by
  cases hfirst : firstOf routes req with
  | none =>
    unfold firstOf at hfirst ⊢
    rw [List.findSome?_eq_none_iff] at hfirst ⊢
    exact fun route h => hfirst route (hperm.mem_iff.mp h)
  | some c =>
    obtain ⟨route, hroute, hc⟩ := List.exists_of_findSome?_eq_some hfirst
    cases hfirst' : firstOf routes' req with
    | none =>
      have hnone := List.findSome?_eq_none_iff.mp hfirst' route (hperm.mem_iff.mpr hroute)
      exact absurd (hc.symm.trans hnone) nofun
    | some c' =>
      obtain ⟨route', hroute', hc'⟩ := List.exists_of_findSome?_eq_some hfirst'
      have hroute' := hperm.mem_iff.mp hroute'
      have hsame : route' = route := List.inj_on_of_nodup_map hnodup hroute' hroute
        ((hown route' hroute' c' hc').symm.trans (hown route hroute c hc))
      rw [← hc, ← hc', hsame]

theorem routePath_of_taken {path : List Str} (hpath : path.head? ≠ some "status".toList)
    {taken : Option AdminCall} {c : AdminCall}
    (h : (if segments req.path = path then taken else none) = some c) : routePath req = path := by
  split at h
  · next he =>
    unfold routePath
    rw [he, if_neg hpath]
  · exact absurd h nofun

theorem getRoutes_own : ∀ route ∈ getRoutes, ∀ c, route.2 req = some c →
    routePath req = route.1 := by
  intro route hroute c hc
  simp only [getRoutes, List.mem_cons, List.not_mem_nil, or_false] at hroute
  rcases hroute with rfl | rfl | rfl
  · dsimp only at hc ⊢
    unfold getDomainInfo at hc
    split at hc
    · next he => exact if_pos he
    · exact absurd hc nofun
  · exact routePath_of_taken (by decide) hc
  · exact routePath_of_taken (by decide) hc

theorem postRoutes_own : ∀ route ∈ postRoutes conf formLength, ∀ c, route.2 req = some c →
    routePath req = route.1 := by
  intro route hroute c hc
  simp only [postRoutes, List.mem_cons, List.not_mem_nil, or_false] at hroute
  rcases hroute with rfl | rfl | rfl | rfl | rfl
  all_goals
    refine routePath_of_taken ?_ hc
    show some _ ≠ some _
    decide

theorem nodup_postRoutes : ((postRoutes conf formLength).map (·.1)).Nodup := by
  have hpaths : (postRoutes conf formLength).map (·.1) = [["update_version".toList],
      ["reload".toList], ["files".toList, "upload_status".toList], ["file".toList, "upload".toList],
      ["files".toList, "delete".toList]] := rfl
  rw [hpaths]
  decide

/-- The routes are asked in the order of the lists. -/
theorem routes_eq (conf : AdminConfig) (formLength : List FormPart → Nat) (req : HttpRequest) :
    routes conf formLength req =
      if auth conf req then
        if req.method = .get then firstOf getRoutes req else firstOf (postRoutes conf formLength) req
      else none := by
  unfold routes
  split
  · cases req.method with
    | get =>
      rw [if_pos rfl]
      unfold getRoutes
      rw [firstOf_cons, firstOf_cons, firstOf_singleton]
    | post =>
      rw [if_neg (by decide)]
      unfold postRoutes
      rw [firstOf_cons, firstOf_cons, firstOf_cons, firstOf_cons, firstOf_singleton]
  · rfl

/-- **The order of the routes does not count.**  Those of each method can be asked in any other, and
every request goes to the same handler with the same options. -/
theorem routes_anyOrder (conf : AdminConfig) (formLength : List FormPart → Nat) (req : HttpRequest)
    {gets posts : List Route} (hgets : gets.Perm getRoutes)
    (hposts : posts.Perm (postRoutes conf formLength)) :
    routes conf formLength req =
      if auth conf req then
        if req.method = .get then firstOf gets req else firstOf posts req
      else none := by
  rw [firstOf_perm hgets (by decide) getRoutes_own, firstOf_perm hposts nodup_postRoutes postRoutes_own]
  exact routes_eq conf formLength req

/-! ### Requests that change nothing -/

/-- The request can change something: it has the token, and its method is `POST`. -/
def writes (conf : AdminConfig) (req : HttpRequest) : Bool :=
  auth conf req && decide (req.method = .post)

/-- The handler of a request, or its rejection.  A reload builds a storage of its own: this one and
the disk stay as they are, whatever it is answered. -/
def handler (crates : Crates) (conf : AdminConfig) (formLength : List FormPart → Nat)
    (pathPrefix : PathBuf) (reloaded : Response) (req : HttpRequest) : Method (Option Response) :=
  match routes conf formLength req with
  | some (.service r) => do
    let resp ← handle crates pathPrefix r
    return some resp
  | some .reloadServer => return some reloaded
  | none => return none

theorem service_of_taken {α : Type} {P : Prop} [Decidable P] {decoded : Option α}
    {f : α → AdminRequest} {r : AdminRequest}
    (h : (if P then decoded.map fun option => AdminCall.service (f option) else none) =
      some (.service r)) : ∃ option, r = f option := by
  split at h
  · obtain ⟨option, -, he⟩ := Option.map_eq_some_iff.mp h
    exact ⟨option, (AdminCall.service.inj he).symm⟩
  · exact absurd h nofun

theorem isLookup_of_get (hmethod : req.method = .get) {r : AdminRequest}
    (h : routes conf formLength req = some (.service r)) : r.isLookup = true := by
  rw [routes_eq, if_pos hmethod] at h
  split at h
  · obtain ⟨route, hroute, hr⟩ := List.exists_of_findSome?_eq_some h
    simp only [getRoutes, List.mem_cons, List.not_mem_nil, or_false] at hroute
    rcases hroute with rfl | rfl | rfl
    · obtain ⟨option, rfl⟩ := service_of_taken hr
      rfl
    · obtain ⟨option, rfl⟩ := service_of_taken hr
      rfl
    · obtain ⟨query, rfl⟩ := service_of_taken hr
      rfl
  · exact absurd h nofun

theorem handler_looks {pathPrefix : PathBuf} {reloaded : Response}
    (h : writes conf req = false) :
    (handler crates conf formLength pathPrefix reloaded req).Uses fun op => op.isLookup = true := by
  unfold handler
  cases hcall : routes conf formLength req with
  | none => trivial
  | some call =>
    have hauth : auth conf req = true := by
      rw [routes_eq] at hcall
      split at hcall
      · assumption
      · exact absurd hcall nofun
    have hmethod : req.method = .get := by
      cases hm : req.method with
      | get => rfl
      | post =>
        unfold writes at h
        rw [hauth, hm] at h
        exact absurd h (by decide)
    cases call with
    | reloadServer => trivial
    | service r =>
      exact (handle_lookup (isLookup_of_get hmethod hcall) pathPrefix).bind fun _ => trivial

theorem handler_rejects {pathPrefix : PathBuf} {reloaded : Response} (h : auth conf req = false) :
    handler crates conf formLength pathPrefix reloaded req = .ret none := by
  unfold handler routes
  rw [h]
  rfl

theorem isolates_lookups : Isolates (meaning crates) (fun _ _ => True) (fun _ => True)
    (fun op => op.isLookup = true) Eq where
  replies _ h := by rw [h]
  effects _ h := by rw [h]
  others hop h := (lookup_world hop _).trans h
  may _ := trivial

section Runs

variable {reqs : List HttpRequest} {w₀ w : World} {ps : List (Method (Option Response))}
  {pathPrefix : PathBuf} {reloaded : Response}

/-- **Requests without the token and requests with `GET` are invisible.**  However the steps of any
requests are ordered, the others can take theirs without them, so that each of these is where it
was, with the same response if it has one, and the state is the same; and each request without the
token has been rejected. -/
theorem readers_invisible
    (h : PoolRun (meaning crates) (fun _ _ => True)
      (reqs.map (handler crates conf formLength pathPrefix reloaded), w₀) (ps, w)) :
    PoolRun (meaning crates) (fun _ _ => True)
        ((reqs.filter (writes conf)).map (handler crates conf formLength pathPrefix reloaded), w₀)
        (picked (writes conf) reqs ps, w) ∧
      ∀ (i : Nat) req, reqs[i]? = some req → auth conf req = false → ps[i]? = some (.ret none) := by
  have hprog : ∀ {i : Nat} {p}, (reqs.map (handler crates conf formLength pathPrefix reloaded))[i]? =
      some p → ∃ req, reqs[i]? = some req ∧ handler crates conf formLength pathPrefix reloaded req =
        p := fun hp => Option.map_eq_some_iff.mp (List.getElem?_map.symm.trans hp)
  have hother : ∀ (i : Nat) p,
      (reqs.map (handler crates conf formLength pathPrefix reloaded))[i]? = some p →
      (¬ ∃ req, reqs[i]? = some req ∧ writes conf req = true) →
      p.UsesWhen (fun _ _ => True) fun op => op.isLookup = true := by
    intro i p hp hmine
    obtain ⟨req, hi, rfl⟩ := hprog hp
    exact (handler_looks (Bool.eq_false_iff.mpr fun hw => hmine ⟨req, hi, hw⟩)).usesWhen
  obtain ⟨⟨ps', w'⟩, hrun, he, hsame⟩ := PoolRun.isolated isolates_lookups rfl
    (fun _ p _ _ => usesWhen_true p) hother h
  obtain rfl : w = w' := he
  constructor
  · have hpicked := hrun.picked
    rw [picked_map] at hpicked
    rwa [picked_congr (fun i req hi hw => hsame i ⟨req, hi, hw⟩)
      (hrun.length_eq.trans h.length_eq.symm)] at hpicked
  · intro i req hi hauth
    refine h.returned ?_
    rw [List.getElem?_map, hi, Option.map_some, handler_rejects hauth]

end Runs

def tokenConf : AdminConfig := ⟨9000, "127.0.0.1".toList, "token".toList, defaultMaxUploadSize, none⟩

def releaseWith (authorization : Option Str) : HttpRequest where
  method := .post
  path := "/update_version".toList
  query := []
  authorization := authorization
  body := .json (DomainWithOptVersionOption.mk "www.a.com".toList (some 1)).toJson

theorem routes_anyOrder_reversed :
    routes tokenConf (fun _ => 0) (releaseWith (some "Bearer token".toList)) =
      if auth tokenConf (releaseWith (some "Bearer token".toList)) then
        if (releaseWith (some "Bearer token".toList)).method = .get then
          firstOf getRoutes.reverse (releaseWith (some "Bearer token".toList))
        else firstOf (postRoutes tokenConf fun _ => 0).reverse
          (releaseWith (some "Bearer token".toList))
      else none :=
  routes_anyOrder _ _ _ (List.reverse_perm _) (List.reverse_perm _)

def mixedRequests : List HttpRequest :=
  [releaseWith (some "Bearer token".toList), releaseWith none,
    ⟨.get, "/status".toList, [], some "Bearer token".toList, .empty⟩]

theorem readers_invisible_mixed :
    let handlers := fun reqs : List HttpRequest => reqs.map
      (handler Crates.simple tokenConf (fun _ => 0) twoVersions.storage.pathPrefix .ok)
    let c := follow (meaning Crates.simple) [0, 2, 0, 2, 0, 2, 0] (handlers mixedRequests, twoVersions)
    PoolRun (meaning Crates.simple) (fun _ _ => True)
        (handlers (mixedRequests.filter (writes tokenConf)), twoVersions)
        (picked (writes tokenConf) mixedRequests c.1, c.2) ∧
      c.1[1]? = some (.ret none) := by
  intro handlers c
  have h := readers_invisible
    (follow_run (meaning Crates.simple) [0, 2, 0, 2, 0, 2, 0] (handlers mixedRequests, twoVersions))
  exact ⟨h.1, h.2 1 (releaseWith none) rfl rfl⟩

end AdminServer

end SpaServer
