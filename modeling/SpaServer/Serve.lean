import SpaServer.Delete

/-!
# What serving one request does

`ServeOutcome` puts the outcomes of the storage methods together: for each admin
request the ways it can go, with its response.  `serve_outcome` says that there are
no others; every invariant of runs of requests is proved by cases on it.
-/

namespace SpaServer

open Base Program

variable {crates : Crates}

/-! ### Requests that only look -/

theorem uses_getDomainInfoByDomain (pathPrefix : PathBuf) (d : Str) :
    (getDomainInfoByDomain pathPrefix d).Uses fun op => op.isLookup = true := by
  simp only [getDomainInfoByDomain, perform_bind]
  refine ⟨rfl, fun entries => ?_⟩
  dsimp only
  split
  · trivial
  · exact ⟨rfl, fun _ => trivial⟩

theorem uses_domainInfos : ∀ entries : List Disk.Entry,
    (domainInfos entries).Uses fun op => op.isLookup = true
  | [] => trivial
  | e :: es => by
    rw [domainInfos]
    split
    · exact uses_domainInfos es
    · exact ⟨rfl, fun _ => ⟨rfl, fun _ => (uses_domainInfos es).bind fun _ => trivial⟩⟩

theorem uses_getDomainInfo (pathPrefix : PathBuf) :
    (getDomainInfo pathPrefix).Uses fun op => op.isLookup = true :=
  ⟨rfl, fun entries => uses_domainInfos entries⟩

theorem uses_getUploadPosition (pathPrefix : PathBuf) (d : Str) :
    (getUploadPosition pathPrefix d).Uses fun op => op.isLookup = true := by
  refine ⟨rfl, fun uploading => ?_⟩
  cases uploading with
  | some v => trivial
  | none =>
    refine (uses_getDomainInfoByDomain pathPrefix d).bind fun info => ?_
    cases info <;> trivial

theorem uses_getFilesMetadata (pathPrefix : PathBuf) (d : Str) (v : UInt32) :
    (getFilesMetadata pathPrefix crates d v).Uses fun op => op.isLookup = true := by
  refine ⟨rfl, fun ex => ?_⟩
  cases ex with
  | true => exact ⟨rfl, fun _ => trivial⟩
  | false => trivial

def AdminRequest.isLookup : AdminRequest → Bool
  | .getDomainInfo _ | .getUploadPosition _ | .getFilesMetadata _ => true
  | _ => false

theorem handle_lookup {r : AdminRequest} (h : r.isLookup = true) (pathPrefix : PathBuf) :
    (handle crates pathPrefix r).Uses fun op => op.isLookup = true := by
  cases r with
  | getDomainInfo option =>
    refine (uses_getDomainInfo pathPrefix).bind fun infos => ?_
    cases option.domain with
    | none => trivial
    | some d =>
      dsimp only
      split <;> trivial
  | getUploadPosition option =>
    simp only [handle, Service.getUploadPosition]
    split
    · refine (uses_getUploadPosition pathPrefix option.domain).bind fun ret => ?_
      cases option.format <;> trivial
    · trivial
  | getFilesMetadata query =>
    exact (uses_getFilesMetadata pathPrefix query.domain query.version).bind fun _ => trivial
  | _ => exact absurd h (by simp [AdminRequest.isLookup])

/-! ### All requests -/

def formOf (parts : List Part) : UploadForm := parts.foldl Service.readPart ⟨none, none, none, none⟩

def resultResponse : Except StorageError Unit → Response
  | .ok _ => .ok
  | .error e => .badRequest (.error e)

def releaseResponse (domain : Str) : Except StorageError UInt32 → Response
  | .ok version => ⟨200, .text ("domain:".toList ++ domain ++ " has changed to ".toList ++
      toDecimal version)⟩
  | .error _ => .notFound

/-- The ways a request can go. -/
inductive ServeOutcome (crates : Crates) (w : World) : AdminRequest → Response × World → Prop
  | looks {r : AdminRequest} {resp : Response} (h : r.isLookup = true) :
      ServeOutcome crates w r (resp, w)
  | badForm {parts : List Part}
      (h : ∀ data path v d, formOf parts ≠ ⟨some data, some path, some v, some d⟩) :
      ServeOutcome crates w (.uploadFile parts) (.badRequest .badParams, w)
  | save {parts : List Part} {d path : Str} {v : UInt32} {data : List UInt8}
      {res : Except StorageError Unit × World}
      (hf : formOf parts = ⟨some data, some path, some v, some d⟩)
      (h : SaveOutcome w d v path data res) :
      ServeOutcome crates w (.uploadFile parts) (resultResponse res.1, res.2)
  | status {param : UpdateUploadingStatusOption} {res : Except StorageError Unit × World}
      (h : StatusOutcome w param.domain param.version param.status res) :
      ServeOutcome crates w (.changeUploadStatus param) (resultResponse res.1, res.2)
  | release {option : DomainWithOptVersionOption} {res : Except StorageError UInt32 × World}
      (h : ReleaseOutcome crates w option.domain option.version res) :
      ServeOutcome crates w (.updateDomainVersion option)
        (releaseResponse option.domain res.1, res.2)
  | delete {q : DeleteDomainVersionOption} {w' : World}
      (h : OnDisk w w' fun r => ∃ d v, Targets w q d v ∧ r = w.versionLoc d v) :
      ServeOutcome crates w (.removeDomainVersion q) (.ok, w')

/-- **Every request goes one of these ways.** -/
theorem serve_outcome (w : World) (r : AdminRequest) :
    ServeOutcome crates w r (w.serve crates r) := by
  have hlook : r.isLookup = true → ServeOutcome crates w r (w.serve crates r) := by
    intro h
    have hw : w.serve crates r = ((w.serve crates r).1, w) :=
      Prod.ext rfl (run_lookups (handle_lookup h _) w)
    rw [hw]
    exact .looks h
  cases r with
  | updateDomainVersion option =>
    have h := @uploadDomainWithVersion_outcome crates w option.domain option.version
    simp only [World.serve, handle, Service.updateDomainVersion, run_bind]
    generalize (uploadDomainWithVersion w.storage.pathPrefix option.domain option.version).run
      (meaning crates) w = res at h ⊢
    obtain ⟨_ | v, w'⟩ := res
    · exact .release h
    · exact .release h
  | changeUploadStatus param =>
    have h := @updateUploadingStatus_outcome crates w param.domain param.version
      param.status
    simp only [World.serve, handle, Service.changeUploadStatus, run_bind]
    generalize (updateUploadingStatus w.storage.pathPrefix param.domain param.version
      param.status).run (meaning crates) w = res at h ⊢
    obtain ⟨_ | v, w'⟩ := res
    · exact .status h
    · exact .status h
  | uploadFile parts =>
    simp only [World.serve, handle, Service.updateFile]
    rw [← formOf]
    cases hf : formOf parts with
    | mk file path version domain =>
    have hbad : (∀ data p v d, UploadForm.mk file path version domain ≠
        ⟨some data, some p, some v, some d⟩) →
        ServeOutcome crates w (.uploadFile parts) (.badRequest .badParams, w) := by
      intro h
      exact .badForm (by rwa [hf])
    rcases file with _ | data
    · exact hbad (by simp)
    rcases path with _ | path
    · exact hbad (by simp)
    rcases version with _ | version
    · exact hbad (by simp)
    rcases domain with _ | domain
    · exact hbad (by simp)
    have h := @saveFile_outcome crates w domain version path data
    simp only [run_bind]
    generalize (saveFile w.storage.pathPrefix domain version path data).run (meaning crates) w =
      res at h ⊢
    obtain ⟨_ | v, w'⟩ := res
    · exact .save hf h
    · exact .save hf h
  | removeDomainVersion q =>
    have h := @delete_spec crates w q
    have hok : w.serve crates (.removeDomainVersion q) =
        (.ok, (w.serve crates (.removeDomainVersion q)).2) := by
      refine Prod.ext ?_ rfl
      simp only [World.serve, handle, Service.removeDomainVersion, run_bind]
      rfl
    rw [hok]
    exact .delete h
  | _ => exact hlook rfl

/-- The version that a release request settles on can be released: it is not being
uploaded, and its directory is there. -/
structure Releasable (w : World) (option : DomainWithOptVersionOption) (v : UInt32) : Prop where
  version : option.version = some v ∨ option.version = none ∧
    (listedVersions w.disk (push w.storage.pathPrefix option.domain)).max? = some v
  notUploading : w.storage.uploadingStatus option.domain ≠ some v
  dir : w.disk.node (w.versionLoc option.domain v) = some .dir

theorem StatusOutcome.maps {w : World} {d : Str} {v : UInt32} {st : UploadingStatus}
    {res : Except StorageError Unit × World} (h : StatusOutcome w d v st res) :
    res.2.storage.domainMeta = w.storage.domainMeta ∧ res.2.storage.cache = w.storage.cache := by
  cases h <;> exact ⟨rfl, rfl⟩

/-- **Only a release that goes through changes what is served.** -/
theorem serve_maps (w : World) (r : AdminRequest) :
    ((w.serve crates r).2.storage.domainMeta = w.storage.domainMeta ∧
      (w.serve crates r).2.storage.cache = w.storage.cache) ∨
    ∃ option v, r = .updateDomainVersion option ∧ Releasable w option v ∧
      w.serve crates r = (releaseResponse option.domain (.ok v), w.release crates option.domain v) := by
  have h := @serve_outcome crates w r
  generalize w.serve crates r = res at h ⊢
  cases h with
  | looks _ => exact Or.inl ⟨rfl, rfl⟩
  | badForm _ => exact Or.inl ⟨rfl, rfl⟩
  | save _ h => cases h <;> exact Or.inl ⟨rfl, rfl⟩
  | status h => exact Or.inl h.maps
  | @release option _ h =>
    cases h with
    | refused => exact Or.inl ⟨rfl, rfl⟩
    | released hu hv hversion => exact Or.inr ⟨option, _, rfl, ⟨hversion, hu, hv⟩, rfl⟩
  | delete h => exact Or.inl ⟨by rw [h.1], by rw [h.1]⟩

theorem serve_samePlaces (w : World) (r : AdminRequest) : SamePlaces w (w.serve crates r).2 :=
  run_samePlaces _ w

theorem serving_of_meta {w w' : World} (h : w'.storage.domainMeta = w.storage.domainMeta) (d : Str) :
    w'.serving d = w.serving d := by
  rw [World.serving, h]
  rfl

theorem serving_release (w : World) (d : Str) (v : UInt32) (e : Str) :
    (w.release crates d v).serving e = if e = d then some v else w.serving e := by
  show ((w.storage.domainMeta.insert d _) e).map (·.2) = _
  split
  · next h => rw [h, DashMap.insert_self]; rfl
  · next h => rw [DashMap.insert_of_ne _ h]; rfl

theorem cache_release (w : World) (d : Str) (v : UInt32) (e : Str) :
    (w.release crates d v).storage.cache.data e =
      if e = d then some (w.storage.cache.conf.cacheDir crates w.disk d
        (getVersionPath w.storage.pathPrefix d v)) else w.storage.cache.data e := by
  show (w.storage.cache.data.insert d _) e = _
  split
  · next h => rw [h, DashMap.insert_self]
  · next h => rw [DashMap.insert_of_ne _ h]

/-! ### Runs -/

/-- Some requests, one after the other, each of which `ok` allows in its state. -/
def World.Run (crates : Crates) (ok : World → AdminRequest → Prop) : World → World → Prop :=
  Relation.ReflTransGen fun w w' => ∃ r, ok w r ∧ w' = (w.serve crates r).2

/-- Such a run with its requests and their responses, the last in front. -/
inductive World.Logged (crates : Crates) (ok : World → AdminRequest → Prop) (w₀ : World) :
    List (AdminRequest × Response) → World → Prop
  | start : Logged crates ok w₀ [] w₀
  | serve {log : List (AdminRequest × Response)} {w : World} (h : Logged crates ok w₀ log w)
      (r : AdminRequest) (hr : ok w r) :
      Logged crates ok w₀ ((r, (w.serve crates r).1) :: log) (w.serve crates r).2

theorem World.Logged.run {ok : World → AdminRequest → Prop} {w₀ w : World}
    {log : List (AdminRequest × Response)} (h : World.Logged crates ok w₀ log w) :
    World.Run crates ok w₀ w := by
  induction h with
  | start => exact .refl
  | serve _ r hr ih => exact ih.tail ⟨r, hr, rfl⟩

theorem World.Run.logged {ok : World → AdminRequest → Prop} {w₀ w : World}
    (h : World.Run crates ok w₀ w) : ∃ log, World.Logged crates ok w₀ log w := by
  induction h with
  | refl => exact ⟨[], .start⟩
  | tail _ hstep ih =>
    obtain ⟨log, hlog⟩ := ih
    obtain ⟨r, hr, rfl⟩ := hstep
    exact ⟨_, hlog.serve r hr⟩

def World.serveAll (crates : Crates) (w : World) (rs : List AdminRequest) :
    List (AdminRequest × Response) × World :=
  rs.foldl (fun c r => ((r, (c.2.serve crates r).1) :: c.1, (c.2.serve crates r).2)) ([], w)

theorem World.logged_serveAll {ok : World → AdminRequest → Prop} (w : World)
    (rs : List AdminRequest) (h : ∀ w, ∀ r ∈ rs, ok w r) :
    World.Logged crates ok w (w.serveAll crates rs).1 (w.serveAll crates rs).2 := by
  refine List.foldlRecOn rs _ (b := ([], w))
    (motive := fun c => World.Logged crates ok w c.1 c.2) .start fun c hc r hr => ?_
  exact hc.serve r (h _ r hr)

/-! ### A server with nothing on it -/

def bareDisk : Disk := Disk.empty.withDir "/srv".toList

def bareStorage : DomainStorage :=
  .fresh "/srv".toList srv_ne_nil (.new ⟨80, [], [], none, none, .default, []⟩)

def putFile (version path : String) (bytes : List UInt8) : AdminRequest :=
  .uploadFile [⟨"domain".toList, encodeUtf8 "www.a.com".toList⟩,
    ⟨"version".toList, encodeUtf8 version.toList⟩, ⟨"path".toList, encodeUtf8 path.toList⟩,
    ⟨"file".toList, bytes⟩]

end SpaServer
