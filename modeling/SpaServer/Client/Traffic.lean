import SpaServer.Client.UploadFiles

/-!
# Traffic

Some clients and the server, one request after the other: `Traffic` is a run of
their pool together with the log of what the server has handled, also of the requests
whose responses the client never saw.

What a client has seen is in the log (`Traffic.guarded`), so a program that asks only
for what the replies justify makes a log in which every request is justified.  What
the log says the server has started and not finished is what the server records
(`Traffic.uploading`).
-/

namespace SpaServer

open Base Program

namespace Client

structure Exchange where
  client : Nat
  request : AdminRequest
  response : Response

/-- What the log says of a request that client `i` is sending: nothing if it gets lost
or no service is meant. -/
def Host.handled (host : Host) (n : Net) (i : Nat) (req : HttpRequest) : List Exchange :=
  match n.deliveries.headD .answered, AdminServer.routes host.conf host.formLength req with
  | .lost, _ => []
  | _, some (.service r) => [⟨i, r, (n.world.serve host.crates r).1⟩]
  | _, _ => []

/-- Runs of the clients with the log of the server, the last exchange in front; `ok`
says when a client may send a request. -/
inductive Traffic {α : Type} (host : Host)
    (ok : List Exchange → Net → Nat → HttpRequest → Prop) (ps₀ : List (ClientM α)) (n₀ : Net) :
    List Exchange → List (ClientM α) × Net → Prop
  | start : Traffic host ok ps₀ n₀ [] (ps₀, n₀)
  | send {log : List Exchange} {ps : List (ClientM α)} {n : Net} {i : Nat} {req : HttpRequest}
      {next : Option Response → ClientM α} (h : Traffic host ok ps₀ n₀ log (ps, n))
      (hi : ps[i]? = some (.call req next)) (hok : ok log n i req) :
      Traffic host ok ps₀ n₀ (host.handled n i req ++ log)
        (ps.set i (next (host.meaning req n).1), (host.meaning req n).2)

def Accepted (log : List Exchange) (i : Nat) (r : AdminRequest) : Prop :=
  ∃ e ∈ log, e.client = i ∧ e.request = r ∧ e.response.status = 200

instance (log : List Exchange) (i : Nat) (r : AdminRequest) : Decidable (Accepted log i r) :=
  inferInstanceAs (Decidable (∃ e ∈ log, _))

theorem Accepted.mono {log log' : List Exchange} {i : Nat} {r : AdminRequest}
    (h : Accepted log i r) (hsub : log ⊆ log') : Accepted log' i r := by
  obtain ⟨e, he, hrest⟩ := h
  exact ⟨e, hsub he, hrest⟩

theorem accepted_cons {log : List Exchange} {e : Exchange} {i : Nat} {r : AdminRequest} :
    Accepted (e :: log) i r ↔
      e.client = i ∧ e.request = r ∧ e.response.status = 200 ∨ Accepted log i r := by
  simp [Accepted, or_and_right, exists_or]

variable {α : Type} {host : Host} {ok : List Exchange → Net → Nat → HttpRequest → Prop}
  {ps₀ ps : List (ClientM α)} {n₀ n : Net} {log : List Exchange}

/-! ### One request -/

/-- A request either reaches a service, and the log and the server go on by that, or
it changes nothing. -/
theorem handled_cases (host : Host) (n : Net) (i : Nat) (req : HttpRequest) :
    (host.handled n i req = [] ∧ (host.meaning req n).2.world = n.world ∧
      ∀ resp, (host.meaning req n).1 = some resp → resp.status ≠ 200) ∨
    ∃ r, AdminServer.routes host.conf host.formLength req = some (.service r) ∧
      n.deliveries.headD .answered ≠ .lost ∧
      host.handled n i req = [⟨i, r, (n.world.serve host.crates r).1⟩] ∧
      (host.meaning req n).2.world = (n.world.serve host.crates r).2 ∧
      ∀ resp, (host.meaning req n).1 = some resp → resp = (n.world.serve host.crates r).1 := by
  obtain ⟨w, deliveries⟩ := n
  simp only [Host.handled, Host.meaning]
  cases hroutes : AdminServer.routes host.conf host.formLength req with
  | none =>
    have hans : host.answer w req = (.notFound, w) := by simp only [Host.answer, hroutes]
    rw [hans]
    refine Or.inl ?_
    cases deliveries.headD .answered <;> simp [Response.notFound]
  | some c =>
    cases c with
    | reloadServer =>
      have hans : host.answer w req = (.notFound, w) := by simp only [Host.answer, hroutes]
      rw [hans]
      refine Or.inl ?_
      cases deliveries.headD .answered <;> simp [Response.notFound]
    | service r =>
      have hans : host.answer w req = w.serve host.crates r := by
        simp only [Host.answer, hroutes]
      rw [hans]
      cases deliveries.headD .answered with
      | lost => exact Or.inl ⟨rfl, rfl, by simp⟩
      | answered => exact Or.inr ⟨r, rfl, by simp, rfl, rfl, by simp⟩
      | unanswered => exact Or.inr ⟨r, rfl, by simp, rfl, rfl, by simp⟩

theorem Traffic.answered {c : List (ClientM α) × Net} (h : Traffic host ok ps₀ n₀ log c) :
    ∀ e ∈ log, ∃ w : World, e.response = (w.serve host.crates e.request).1 := by
  induction h with
  | start => exact fun e he => absurd he List.not_mem_nil
  | @send log ps n i req next _ _ _ ih =>
    intro e he
    rcases handled_cases host n i req with ⟨hlog, -⟩ | ⟨r, -, -, hlog, -⟩
    · rw [hlog] at he
      exact ih e he
    · rw [hlog] at he
      rcases List.mem_cons.mp he with rfl | he
      · exact ⟨n.world, rfl⟩
      · exact ih e he

/-! ### What a client has seen -/

abbrev History := List ((_ : HttpRequest) × Option Response)

/-- The client has seen success for a request that means this one, if anything. -/
def Granted (host : Host) (hist : History) (r : AdminRequest) : Prop :=
  ∃ req resp, ⟨req, some resp⟩ ∈ hist ∧ resp.status = 200 ∧
    ∀ r', AdminServer.routes host.conf host.formLength req = some (.service r') → r' = r

def Seen (host : Host) (log : List Exchange) (i : Nat) (hist : History) : Prop :=
  ∀ req resp, ⟨req, some resp⟩ ∈ hist → resp.status = 200 →
    ∃ r, AdminServer.routes host.conf host.formLength req = some (.service r) ∧
      ⟨i, r, resp⟩ ∈ log

theorem Seen.mono {log' : List Exchange} {i : Nat} {hist : History} (h : Seen host log i hist)
    (hsub : log ⊆ log') : Seen host log' i hist := by
  intro req resp hmem hstatus
  obtain ⟨r, hr, he⟩ := h req resp hmem hstatus
  exact ⟨r, hr, hsub he⟩

theorem Granted.accepted {i : Nat} {hist : History} {r : AdminRequest}
    (h : Granted host hist r) (hseen : Seen host log i hist) : Accepted log i r := by
  obtain ⟨req, resp, hmem, hstatus, hr⟩ := h
  obtain ⟨r', hr', he⟩ := hseen req resp hmem hstatus
  exact ⟨_, he, rfl, hr r' hr', hstatus⟩

/-- **What justifies a client's requests is in the log**, for the clients that go on
and for the requests that the server has handled. -/
theorem Traffic.guarded (just : History → HttpRequest → Prop)
    (hstart : ∀ p ∈ ps₀, p.Guarded just []) {c : List (ClientM α) × Net}
    (h : Traffic host ok ps₀ n₀ log c) :
    (∀ (i : Nat) (p : ClientM α), c.1[i]? = some p →
      ∃ hist, p.Guarded just hist ∧ Seen host log i hist) ∧
    ∀ e ∈ log, ∃ hist req, just hist req ∧ Seen host log e.client hist ∧
      AdminServer.routes host.conf host.formLength req = some (.service e.request) := by
  induction h with
  | start =>
    refine ⟨fun i p hp => ⟨[], hstart p (List.mem_of_getElem? hp), ?_⟩, ?_⟩
    · exact fun _ _ hmem => absurd hmem List.not_mem_nil
    · exact fun e he => absurd he List.not_mem_nil
  | @send log ps n i req next _ hi _ ih =>
    obtain ⟨hclients, hlog⟩ := ih
    obtain ⟨hist, ⟨hjust, hnext⟩, hseen⟩ := hclients i _ hi
    have hsub : log ⊆ host.handled n i req ++ log := List.subset_append_right _ _
    constructor
    · intro j p hp
      by_cases hij : i = j
      · subst hij
        rw [List.getElem?_set_self (List.getElem?_eq_some_iff.mp hi).1] at hp
        obtain rfl := Option.some.inj hp
        refine ⟨_, hnext _, fun req' resp hmem hstatus => ?_⟩
        rcases List.mem_cons.mp hmem with he | hmem
        · obtain ⟨rfl, hreply⟩ := Sigma.mk.inj he
          have hreply := (eq_of_heq hreply).symm
          rcases handled_cases host n i req' with ⟨-, -, hbad⟩ | ⟨r, hr, -, hnew, -, hresp⟩
          · exact absurd hstatus (hbad resp hreply)
          · rw [hnew, hresp resp hreply]
            exact ⟨r, hr, List.mem_cons_self⟩
        · exact (hseen.mono hsub) req' resp hmem hstatus
      · rw [List.getElem?_set_ne hij] at hp
        obtain ⟨hist', hg, hs⟩ := hclients j p hp
        exact ⟨hist', hg, hs.mono hsub⟩
    · intro e he
      rcases List.mem_append.mp he with hnew | hold
      · rcases handled_cases host n i req with ⟨hnil, -⟩ | ⟨r, hr, -, hone, -⟩
        · rw [hnil] at hnew
          exact absurd hnew List.not_mem_nil
        · rw [hone] at hnew
          obtain rfl := List.mem_singleton.mp hnew
          exact ⟨hist, req, hjust, hseen.mono hsub, hr⟩
      · obtain ⟨hist', req', hj, hs, hr⟩ := hlog e hold
        exact ⟨hist', req', hj, hs.mono hsub, hr⟩

/-! ### The requests of an upload -/

/-- The order in which `upload_files` asks: a change of status, with its own request,
only after a position when no version is given, and a file only after the version was
started. -/
structure Orderly (host : Host) (api : API) (version : Option UInt32) (hist : History)
    (req : HttpRequest) : Prop where
  status : ∀ d v st, AdminServer.routes host.conf host.formLength req =
    some (.service (.changeUploadStatus ⟨d, v, st⟩)) →
    api.changeUploadingStatus ⟨d, v, st⟩ = .ok req ∧
      (version = none → Granted host hist (.getUploadPosition ⟨d, .json⟩))
  started : ∀ parts data path v d, AdminServer.routes host.conf host.formLength req =
    some (.service (.uploadFile parts)) → formOf parts = ⟨some data, some path, some v, some d⟩ →
    Granted host hist (.changeUploadStatus ⟨d, v, .uploading⟩)

theorem Granted.mono {hist hist' : History} {r : AdminRequest} (h : Granted host hist r)
    (hsuffix : hist <:+ hist') : Granted host hist' r := by
  obtain ⟨req, resp, hmem, hrest⟩ := h
  exact ⟨req, resp, hsuffix.subset hmem, hrest⟩

theorem orderly_of_routes {api : API} {version : Option UInt32} {hist : History}
    {req : HttpRequest} {r : AdminRequest} (hr : ∀ r', AdminServer.routes host.conf host.formLength req =
      some (.service r') → r' = r)
    (hlook : r.isLookup = true) : Orderly host api version hist req := by
  constructor
  · intro d v st h
    obtain rfl := hr _ h
    exact absurd hlook (by simp [AdminRequest.isLookup])
  · intro parts data path v d h _
    obtain rfl := hr _ h
    exact absurd hlook (by simp [AdminRequest.isLookup])

section Requests

variable {api : API} {d : Str} {v : UInt32} {req : HttpRequest} {version : Option UInt32}
  {hist : History}

theorem means_getUploadPosition (h : api.getUploadPosition d = .ok req) (r' : AdminRequest)
    (hr : AdminServer.routes host.conf host.formLength req = some (.service r')) :
    r' = .getUploadPosition ⟨d, .json⟩ := by
  rw [routes_getUploadPosition h] at hr
  split at hr
  · exact (AdminCall.service.inj (Option.some.inj hr)).symm
  · exact absurd hr (by simp)

theorem means_getFileMetadata (h : api.getFileMetadata d v = .ok req) (r' : AdminRequest)
    (hr : AdminServer.routes host.conf host.formLength req = some (.service r')) :
    r' = .getFilesMetadata ⟨d, v⟩ := by
  rw [routes_getFileMetadata h] at hr
  split at hr
  · exact (AdminCall.service.inj (Option.some.inj hr)).symm
  · exact absurd hr (by simp)

theorem means_changeUploadingStatus {param : UpdateUploadingStatusOption}
    (h : api.changeUploadingStatus param = .ok req) (r' : AdminRequest)
    (hr : AdminServer.routes host.conf host.formLength req = some (.service r')) :
    r' = .changeUploadStatus param := by
  rw [routes_changeUploadingStatus h] at hr
  split at hr
  · exact (AdminCall.service.inj (Option.some.inj hr)).symm
  · exact absurd hr (by simp)

theorem means_uploadFile {dk : Disk} {key : Str} {path : PathBuf}
    (h : api.uploadFile dk d (toDecimal v) key path = .ok req) (r' : AdminRequest)
    (hr : AdminServer.routes host.conf host.formLength req = some (.service r')) :
    ∃ parts data, r' = .uploadFile parts ∧
      formOf parts = ⟨some data, some key, some v, some d⟩ := by
  obtain ⟨name, f, -, -, rfl⟩ := uploadFile_eq_ok.mp h
  rw [routes_uploadForm] at hr
  split at hr
  · refine ⟨_, f.bytes, (AdminCall.service.inj (Option.some.inj hr)).symm, ?_⟩
    rw [formOf_uploadForm, parseU32_toDecimal]
  · exact absurd hr (by simp)

theorem guarded_call {just : History → HttpRequest → Prop} {β : Type}
    {r : Except ApiError HttpRequest} {f : Option Response → ClientM β}
    (hnone : (f none).Guarded just hist)
    (hcall : ∀ req, r = .ok req → just hist req ∧
      ∀ reply, (f reply).Guarded just (⟨req, reply⟩ :: hist)) : (call r >>= f).Guarded just hist := by
  cases r with
  | error e => exact hnone
  | ok req => exact hcall req rfl

theorem orderly_changeUploadingStatus {st : UploadingStatus}
    (hpos : version = none → Granted host hist (.getUploadPosition ⟨d, .json⟩))
    (h : api.changeUploadingStatus ⟨d, v, st⟩ = .ok req) : Orderly host api version hist req := by
  constructor
  · intro d' v' st' hr
    cases means_changeUploadingStatus h _ hr
    exact ⟨h, hpos⟩
  · intro parts data path v' d' hr _
    exact absurd (means_changeUploadingStatus h _ hr) (by simp)

theorem uses_retryUpload {dk : Disk} (file : UploadingFile)
    (hstart : Granted host hist (.changeUploadStatus ⟨d, v, .uploading⟩)) (n : Nat) :
    (retryUpload api dk d (toDecimal v) file n).Uses fun req =>
      ∀ hist', hist <:+ hist' → Orderly host api version hist' req := by
  induction n with
  | zero => trivial
  | succ n ih =>
    rw [retryUpload]
    cases h : api.uploadFile dk d (toDecimal v) file.key file.path with
    | error e => exact ih
    | ok req =>
      rw [call_ok_bind]
      refine ⟨fun hist' hsuffix => ⟨?_, ?_⟩, fun reply => ?_⟩
      · intro d' v' st' hr
        obtain ⟨parts, data, he, -⟩ := means_uploadFile h _ hr
        exact absurd he (by simp)
      · intro parts data path v' d' hr hform
        obtain ⟨parts', data', he, hform'⟩ := means_uploadFile h _ hr
        cases he
        cases hform.symm.trans hform'
        exact hstart.mono hsuffix
      · beta_reduce
        cases handleResp reply
        · exact ih
        · trivial

theorem guarded_sendFiles {dk : Disk} {sched : List Nat} {parallel : UInt32}
    {files : List UploadingFile}
    (hpos : version = none → Granted host hist (.getUploadPosition ⟨d, .json⟩)) :
    (sendFiles api dk sched d v parallel files).Guarded (Orderly host api version) hist := by
  refine guarded_call trivial fun req hreq =>
    ⟨orderly_changeUploadingStatus hpos hreq, fun reply => ?_⟩
  cases hreply : handleResp reply with
  | false => trivial
  | true =>
  dsimp only
  split
  · trivial
  obtain ⟨resp, rfl, hstatus⟩ := handleResp_some hreply
  have hstart : Granted host (⟨req, some resp⟩ :: hist) (.changeUploadStatus ⟨d, v, .uploading⟩) :=
    ⟨req, resp, List.mem_cons_self, hstatus, means_changeUploadingStatus hreq⟩
  refine Uses.guarded_bind (uses_interleave fun p hp => ?_) fun results hist' hsuffix => ?_
  · obtain ⟨file, -, rfl⟩ := List.mem_map.mp hp
    exact uses_retryUpload file hstart 3
  · split
    · refine guarded_call trivial fun req hreq =>
        ⟨orderly_changeUploadingStatus (fun h => ?_) hreq, fun reply => ?_⟩
      · exact ((hpos h).mono (List.suffix_cons _ _)).mono hsuffix
      · cases handleResp reply <;> trivial
    · trivial

theorem guarded_listed {crates : Crates} {dk : Disk} {sched : List Nat} {prefixPath : PathBuf}
    {parallel : UInt32}
    (hpos : version = none → Granted host hist (.getUploadPosition ⟨d, .json⟩)) :
    (call (api.getFileMetadata d v) >>= fun resp =>
      match metadataResp resp with
      | none => return .error .request
      | some serverMetadata =>
        let serverMetadata := DashMap.collect (serverMetadata.map fun x => (x.path, x))
        match (dk.walkDir prefixPath none).filterMap
          (uploadingFile crates serverMetadata prefixPath) with
        | [] => return .error .noFile
        | files => sendFiles api dk sched d v parallel files).Guarded
      (Orderly host api version) hist := by
  refine guarded_call trivial fun req hreq =>
    ⟨orderly_of_routes (means_getFileMetadata hreq) rfl, fun reply => ?_⟩
  split
  · trivial
  · dsimp only
    split
    · trivial
    · exact guarded_sendFiles fun h => (hpos h).mono (List.suffix_cons _ _)

/-- **`uploadFiles` asks in order.** -/
theorem guarded_uploadFiles {crates : Crates} {dk : Disk} {sched : List Nat} {path : PathBuf}
    {parallel : UInt32} : (uploadFiles crates api dk sched d version path parallel).Guarded
      (Orderly host api version) [] := by
  rw [uploadFiles]
  split
  · trivial
  · trivial
  split
  · trivial
  next prefixPath _ =>
  cases version with
  | some v => exact guarded_listed fun h => absurd h (by simp)
  | none =>
    obtain ⟨req, hreq⟩ : ∃ req, api.getUploadPosition d = .ok req := ⟨_, rfl⟩
    have hcall : getUploadVersion api d none =
        .call req fun reply => ret ((positionResp reply).map (·.version)) := by
      rw [getUploadVersion, hreq]
      rfl
    rw [hcall, call_bind]
    refine ⟨orderly_of_routes (means_getUploadPosition hreq) rfl, fun reply => ?_⟩
    dsimp only [ret_bind]
    cases hp : positionResp reply with
    | none => trivial
    | some p =>
      refine guarded_listed fun _ => ?_
      obtain rfl := positionResp_some hp
      exact ⟨req, _, List.mem_cons_self, rfl, means_getUploadPosition hreq⟩

end Requests

/-! ### What the server records -/

/-- The server lets the upload of this version begin, or go on. -/
def Admits (w : World) (d : Str) (v : UInt32) : Prop :=
  w.storage.uploadingStatus d = some v ∨
    w.storage.uploadingStatus d = none ∧ w.serving d ≠ some v

/-- The record of a version being uploaded goes only by finishing it. -/
theorem serve_keepsUploading (crates : Crates) {w : World} (r : AdminRequest) {d : Str}
    {v : UInt32} (hu : w.storage.uploadingStatus d = some v) :
    (w.serve crates r).2.storage.uploadingStatus d = some v ∨
      r = .changeUploadStatus ⟨d, v, .finish⟩ ∧ (w.serve crates r).1.status = 200 := by
  have ho := @serve_outcome crates w r
  generalize w.serve crates r = res at ho ⊢
  cases ho with
  | looks _ => exact Or.inl hu
  | badForm _ => exact Or.inl hu
  | save _ h => cases h <;> exact Or.inl hu
  | release h => cases h <;> exact Or.inl hu
  | delete h => exact Or.inl (by rw [h.1, hu])
  | @status param res h =>
    obtain ⟨e, u, st⟩ := param
    by_cases hd : d = e
    · subst hd
      cases h with
      | started hu' => exact absurd (hu.symm.trans hu') (by simp)
      | finished hu' =>
        rcases hu' with hu' | hu'
        · obtain rfl := Option.some.inj (hu.symm.trans hu')
          exact Or.inr ⟨rfl, rfl⟩
        · exact absurd (hu.symm.trans hu') (by simp)
      | _ => exact Or.inl hu
    · refine Or.inl ?_
      cases h with
      | started =>
        show (w.storage.uploadingStatus.insert e u) d = _
        rw [DashMap.insert_of_ne _ hd, hu]
      | finished =>
        show (w.storage.uploadingStatus.removeIf e (· == u)) d = _
        rw [DashMap.removeIf_of_ne _ hd, hu]
      | _ => exact hu

theorem serve_uploading {crates : Crates} {w : World} {d : Str} {v : UInt32}
    (h : (w.serve crates (.changeUploadStatus ⟨d, v, .uploading⟩)).1.status = 200) :
    Admits w d v ∧
      (w.serve crates (.changeUploadStatus ⟨d, v, .uploading⟩)).2.storage.uploadingStatus d =
        some v := by
  have ho := @serve_outcome crates w (.changeUploadStatus ⟨d, v, .uploading⟩)
  generalize w.serve crates (.changeUploadStatus ⟨d, v, .uploading⟩) = res at ho h ⊢
  cases ho with
  | looks hl => exact absurd hl (by simp [AdminRequest.isLookup])
  | status ho =>
    cases ho with
    | again hu => exact ⟨Or.inl hu, hu⟩
    | started hu hs => exact ⟨Or.inr ⟨hu, hs⟩, DashMap.insert_self _ _ _⟩
    | _ => exact absurd h (by simp [resultResponse, Response.badRequest])

/-- **What has been started and not finished is recorded.** -/
theorem Traffic.uploading {c : List (ClientM α) × Net} (h : Traffic host ok ps₀ n₀ log c)
    {d : Str} {v : UInt32} (hstarted : ∃ i, Accepted log i (.changeUploadStatus ⟨d, v, .uploading⟩))
    (hopen : ∀ i, ¬ Accepted log i (.changeUploadStatus ⟨d, v, .finish⟩)) :
    c.2.world.storage.uploadingStatus d = some v := by
  induction h with
  | start =>
    obtain ⟨i, e, he, -⟩ := hstarted
    exact absurd he List.not_mem_nil
  | @send log ps n i req next _ _ _ ih =>
    rcases handled_cases host n i req with ⟨hlog, hw, -⟩ | ⟨r, -, -, hlog, hw, -⟩
    · rw [hlog] at hstarted hopen
      show (host.meaning req n).2.world.storage.uploadingStatus d = some v
      rw [hw]
      exact ih hstarted hopen
    · rw [hlog, List.singleton_append] at hstarted hopen
      show (host.meaning req n).2.world.storage.uploadingStatus d = some v
      rw [hw]
      obtain ⟨j, hj⟩ := hstarted
      rcases accepted_cons.mp hj with ⟨-, rfl, hstatus⟩ | hold
      · exact (serve_uploading hstatus).2
      · have hu := ih ⟨j, hold⟩ fun k hk => hopen k (hk.mono (List.subset_cons_self _ _))
        dsimp only at hu
        rcases serve_keepsUploading host.crates r hu with hkeep | ⟨rfl, hstatus⟩
        · exact hkeep
        · exact absurd (accepted_cons.mpr (Or.inl ⟨rfl, rfl, hstatus⟩)) (hopen i)

/-! ### Following a schedule -/

def Host.follow (host : Host) : List Nat → List Exchange → List (ClientM α) × Net →
    List Exchange × List (ClientM α) × Net
  | [], log, c => (log, c)
  | i :: is, log, (ps, n) =>
    match ps[i]? with
    | some (.call req next) =>
      host.follow is (host.handled n i req ++ log)
        (ps.set i (next (host.meaning req n).1), (host.meaning req n).2)
    | _ => host.follow is log (ps, n)

def Host.allows (host : Host) (ok : List Exchange → Net → Nat → HttpRequest → Prop)
    [∀ log n i req, Decidable (ok log n i req)] : List Nat → List Exchange →
    List (ClientM α) × Net → Bool
  | [], _, _ => true
  | i :: is, log, (ps, n) =>
    match ps[i]? with
    | some (.call req next) =>
      decide (ok log n i req) && host.allows ok is (host.handled n i req ++ log)
        (ps.set i (next (host.meaning req n).1), (host.meaning req n).2)
    | _ => host.allows ok is log (ps, n)

theorem Host.allows_of_forall [∀ log n i req, Decidable (ok log n i req)]
    (h : ∀ log n i req, ok log n i req) (is : List Nat) (log : List Exchange)
    (c : List (ClientM α) × Net) : host.allows ok is log c = true := by
  induction is generalizing log c with
  | nil => rfl
  | cons i is ih =>
    obtain ⟨ps, n⟩ := c
    rw [Host.allows]
    split
    · rw [decide_eq_true (h _ _ _ _), ih]
      rfl
    · exact ih _ _

theorem Traffic.follow [∀ log n i req, Decidable (ok log n i req)] {is : List Nat}
    {log : List Exchange} {c : List (ClientM α) × Net} (hok : host.allows ok is log c = true)
    (h : Traffic host ok ps₀ n₀ log c) :
    Traffic host ok ps₀ n₀ (host.follow is log c).1 (host.follow is log c).2 := by
  induction is generalizing log c with
  | nil => exact h
  | cons i is ih =>
    obtain ⟨ps, n⟩ := c
    rw [Host.allows] at hok
    rw [Host.follow]
    split at hok
    · next hcall =>
      rw [Bool.and_eq_true] at hok
      exact ih hok.2 (h.send hcall (of_decide_eq_true hok.1))
    · exact ih hok h

end Client

end SpaServer
