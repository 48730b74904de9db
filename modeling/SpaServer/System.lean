import SpaServer.Reloads
import SpaServer.Serve

/-!
# The running server

`lib.rs`.  `run_server` gives one storage to the admin server and to the first generation
of listeners; `reload_server` builds a fresh storage for the next generation, which the
admin server never sees.  A `System` is the admin server's storage with the disk, the
listeners of all generations and the storages that reloads have built.

`reloadServer_run` says that a reload alone is a run of `Reloads`, so what that model
says of the senders holds of every state that a server reaches (`owned_of_run`).
-/

namespace SpaServer

open Base

variable {crates : Crates}

structure System where
  adminConf : AdminConfig
  /-- The admin server's own storage, with the disk. -/
  world : World
  manager : HotReloadState
  listeners : Listeners
  /-- The storages of the generations after the first, in order. -/
  reloaded : List DomainStorage

/-- `run_server`.  There is no system when it panics, or runs without an admin server. -/
def runServer (crates : Crates) (dk : Disk) (config : Config) (starts : Protocol → Bool) :
    Option System :=
  match DomainStorage.init crates dk config.fileDir (.new config) with
  | .error _ => none
  | .ok domainStorage =>
    if config.port = 0 ∧ config.https.isNone then none
    else config.adminConfig.map fun adminConf =>
      { adminConf := adminConf
        world := ⟨domainStorage, dk⟩
        manager := .init config 0
        listeners := Listeners.none.run config 0 starts
        reloaded := [] }

theorem runServer_cases {dk : Disk} {config : Config} {starts : Protocol → Bool} {s₀ : System}
    (h : runServer crates dk config starts = some s₀) : ∃ storage adminConf,
      DomainStorage.init crates dk config.fileDir (.new config) = .ok storage ∧
      config.adminConfig = some adminConf ∧
      s₀ = ⟨adminConf, ⟨storage, dk⟩, .init config 0, Listeners.none.run config 0 starts, []⟩ := by
  rw [runServer] at h
  cases hinit : DomainStorage.init crates dk config.fileDir (.new config) with
  | error e => rw [hinit] at h; exact absurd h nofun
  | ok storage =>
    rw [hinit] at h
    dsimp only at h
    split at h
    · exact absurd h nofun
    · obtain ⟨adminConf, hconf, rfl⟩ := Option.map_eq_some_iff.mp h
      exact ⟨storage, adminConf, rfl, hconf, rfl⟩

namespace System

def generations (s : System) : Nat := s.reloaded.length + 1

/-- The storage that the listeners of a generation look things up in. -/
def storageOf (s : System) : Nat → Option DomainStorage
  | 0 => some s.world.storage
  | g + 1 => s.reloaded[g]?

/-- `reload_server`.  `loaded` is what `Config::load` has read, and `starts` says which of
the new listeners come up before the manager is reloaded. -/
def reloadServer (crates : Crates) (s : System) (loaded : Option Config)
    (starts : Protocol → Bool) : Except ReloadError Unit × System :=
  match loaded with
  | none => (.error .config, s)
  | some config =>
    if config.adminConfig = some s.adminConf then
      match DomainStorage.init crates s.world.disk config.fileDir (.new config) with
      | .error e => (.error (.init e), s)
      | .ok domainStorage =>
        let state := HotReloadState.init config s.generations
        let listeners := s.listeners.run config s.generations starts
        let (ret, manager, listeners) := HotReloadManager.reload s.manager state listeners
        (ret, { s with
          manager := manager
          listeners := listeners
          reloaded := s.reloaded ++ [domainStorage] })
    else (.ok (), s)

/-! ### Runs -/

inductive Event where
  | request (r : AdminRequest)
  | reload (loaded : Option Config) (starts : Protocol → Bool)
  | ends (tx : Sender)

def step (crates : Crates) (s : System) : Event → System
  | .request r => { s with world := (s.world.serve crates r).2 }
  | .reload loaded starts => (s.reloadServer crates loaded starts).2
  | .ends tx => { s with listeners := s.listeners.endAt tx }

/-- Events one after the other, each of which `ok` allows in its state, with the disks
seen on the way. -/
inductive Run (crates : Crates) (ok : System → Event → Prop) (s₀ : System) :
    List Disk → System → Prop
  | start : Run crates ok s₀ [s₀.world.disk] s₀
  | step {seen : List Disk} {s : System} (h : Run crates ok s₀ seen s) (e : Event) (hok : ok s e) :
      Run crates ok s₀ ((s.step crates e).world.disk :: seen) (s.step crates e)

/-! ### A reload alone -/

/-- A reload leaves all as it was, or starts a generation and reloads the manager. -/
theorem reloadServer_cases {s s' : System} {loaded : Option Config} {starts : Protocol → Bool}
    {ret : Except ReloadError Unit} (h : s.reloadServer crates loaded starts = (ret, s')) :
    (s' = s ∧ ∀ config storage, loaded = some config → config.adminConfig = some s.adminConf →
      DomainStorage.init crates s.world.disk config.fileDir (.new config) ≠ .ok storage) ∨
    ∃ config storage manager ls, (loaded = some config ∧ config.adminConfig = some s.adminConf) ∧
      DomainStorage.init crates s.world.disk config.fileDir (.new config) = .ok storage ∧
      HotReloadManager.reload s.manager (.init config s.generations)
        (s.listeners.run config s.generations starts) = (ret, manager, ls) ∧
      s' = { s with manager := manager, listeners := ls, reloaded := s.reloaded ++ [storage] } := by
  unfold reloadServer at h
  cases loaded with
  | none => exact Or.inl ⟨(Prod.mk.inj h).2.symm, nofun⟩
  | some config =>
    dsimp only at h
    split at h
    case isFalse hconf =>
      refine Or.inl ⟨(Prod.mk.inj h).2.symm, fun config' _ he hconf' => absurd hconf' ?_⟩
      rwa [← Option.some.inj he]
    case isTrue hconf =>
      cases hinit : DomainStorage.init crates s.world.disk config.fileDir (.new config) with
      | error e =>
        rw [hinit] at h
        refine Or.inl ⟨(Prod.mk.inj h).2.symm, fun config' storage he _ => ?_⟩
        rw [← Option.some.inj he, hinit]
        exact nofun
      | ok storage =>
        rw [hinit] at h
        dsimp only at h
        obtain ⟨rfl, rfl⟩ := Prod.mk.inj h
        exact Or.inr ⟨config, storage, _, _, ⟨rfl, hconf⟩, hinit, rfl, rfl⟩

def reloads (s : System) (requests : List Request) : Reloads :=
  ⟨s.generations, s.listeners, s.manager, requests⟩

theorem managerReload_run {r : Reloads} {i : Nat} {state manager : HotReloadState}
    {ls : Listeners} {ret : Except ReloadError Unit} (hi : r.requests[i]? = some (.locked state))
    (h : HotReloadManager.reload r.manager state r.listeners = (ret, manager, ls)) :
    Reloads.Run r (r.goOn i .done manager ls) := by
  have hlt := (List.getElem?_eq_some_iff.mp hi).1
  have hset : ∀ req manager ls, (r.goOn i req manager ls).requests[i]? = some req :=
    fun _ _ _ => List.getElem?_set_self hlt
  have hover : ∀ req req' manager manager' ls ls',
      (r.goOn i req manager ls).goOn i req' manager' ls' = r.goOn i req' manager' ls' := by
    intros
    simp only [Reloads.goOn, List.set_set]
  rw [HotReloadManager.reload, HotReloadState.reload] at h
  rcases hhttp : r.manager.stop .http r.listeners with ⟨_ | _, m₁, ls₁⟩
  · rw [hhttp] at h
    simp only [Prod.mk.injEq] at h
    obtain ⟨_, rfl, rfl⟩ := h
    exact .single (.httpFails hi hhttp)
  rw [hhttp] at h
  dsimp only at h
  have hstep₁ := Reloads.Step.stopHttp hi hhttp
  rcases hhttps : m₁.stop .https ls₁ with ⟨_ | _, m₂, ls₂⟩
  · rw [hhttps] at h
    simp only [Prod.mk.injEq] at h
    obtain ⟨_, rfl, rfl⟩ := h
    have hstep₂ := Reloads.Step.httpsFails (hset (.httpStopped state) m₁ ls₁) hhttps
    rw [hover] at hstep₂
    exact .head hstep₁ (.single hstep₂)
  · rw [hhttps] at h
    simp only [Prod.mk.injEq] at h
    obtain ⟨_, rfl, rfl⟩ := h
    have hstep₂ := Reloads.Step.stopHttps (hset (.httpStopped state) m₁ ls₁) hhttps
    rw [hover] at hstep₂
    have hstep₃ := Reloads.Step.store (hset (.httpsStopped state) m₂ ls₂)
    rw [hover] at hstep₃
    exact .head hstep₁ (.head hstep₂ (.single hstep₃))

/-- **A reload request alone is one of the overlapping ones**: it starts a generation,
gets the lock and goes through to its end. -/
theorem reloadServer_run (s : System) {requests : List Request}
    (hquiet : ∀ req ∈ requests, req.state = none) (loaded : Option Config)
    (starts : Protocol → Bool) : ∃ requests', (∀ req ∈ requests', req.state = none) ∧
      Reloads.Run (s.reloads requests) ((s.reloadServer crates loaded starts).2.reloads requests') := by
  rcases hret : s.reloadServer crates loaded starts with ⟨ret, s'⟩
  rcases reloadServer_cases hret with ⟨rfl, _⟩ | ⟨config, storage, manager, ls, _, _, hmanager, rfl⟩
  · exact ⟨requests, hquiet, .refl⟩
  have hlast : (requests ++ [.waiting (.init config s.generations)])[requests.length]? =
      some (.waiting (.init config s.generations)) := List.getElem?_concat_length ..
  have hlt := (List.getElem?_eq_some_iff.mp hlast).1
  have hfree : ∀ req ∈ requests ++ [.waiting (.init config s.generations)],
      req.hasLock = false := by
    intro req hreq
    rcases List.mem_append.mp hreq with hreq | hreq
    · have hnone := hquiet req hreq
      cases req with
      | waiting | done => rfl
      | locked state | httpStopped state | httpsStopped state => exact absurd hnone nofun
    · rw [List.mem_singleton.mp hreq]
      rfl
  let r : Reloads := ⟨s.generations + 1, s.listeners.run config s.generations starts, s.manager,
    requests ++ [.waiting (.init config s.generations)]⟩
  have hstart : Reloads.Step (s.reloads requests) r := .start config starts
  have hlock : Reloads.Step r (r.goOn requests.length (.locked (.init config s.generations))
    r.manager r.listeners) := .lock hlast hfree
  have hrest := managerReload_run (r := r.goOn requests.length
    (.locked (.init config s.generations)) r.manager r.listeners)
    (List.getElem?_set_self hlt) hmanager
  refine ⟨requests ++ [.done], fun req hreq => ?_, ?_⟩
  · rcases List.mem_append.mp hreq with hreq | hreq
    · exact hquiet req hreq
    · rw [List.mem_singleton.mp hreq]
      rfl
  · have hend : (r.goOn requests.length (.locked (.init config s.generations)) r.manager
        r.listeners).goOn requests.length .done manager ls =
        System.reloads { s with
          manager := manager
          listeners := ls
          reloaded := s.reloaded ++ [storage] } (requests ++ [.done]) := by
      simp [Reloads.goOn, reloads, generations, r]
    rw [hend] at hrest
    exact .head hstart (.head hlock hrest)

/-- **What the model of the reload requests says holds of every state of the server**: its
live listeners are of one generation, and the manager holds their senders. -/
theorem owned_of_run {dk : Disk} {config : Config} {starts : Protocol → Bool} {s₀ s : System}
    {ok : System → Event → Prop} {seen : List Disk}
    (h₀ : runServer crates dk config starts = some s₀) (hrun : Run crates ok s₀ seen s) :
    ∃ g < s.generations, s.manager.OfGeneration g ∧
      ∀ tx, s.listeners.LiveAt tx → tx.generation = g ∧ s.manager.signal tx.protocol = some tx := by
  have hreach : ∃ requests, (∀ req ∈ requests, req.state = none) ∧
      Reloads.Run (.init config starts) (s.reloads requests) := by
    induction hrun with
    | start =>
      obtain ⟨_, _, _, _, rfl⟩ := runServer_cases h₀
      exact ⟨[], nofun, .refl⟩
    | step _ e _ ih =>
      obtain ⟨requests, hquiet, hreach⟩ := ih
      cases e with
      | request r => exact ⟨requests, hquiet, hreach⟩
      | reload loaded starts =>
        obtain ⟨requests', hquiet', hmore⟩ := reloadServer_run _ hquiet loaded starts
        exact ⟨requests', hquiet', hreach.trans hmore⟩
      | ends tx => exact ⟨requests, hquiet, hreach.tail (.ends tx)⟩
  obtain ⟨requests, hquiet, hreach⟩ := hreach
  have howned := Reloads.owned_run (Reloads.owned_init config starts) hreach
  obtain ⟨g, hlt, hg⟩ := howned.manager
  refine ⟨g, hlt, hg, fun tx hl => ?_⟩
  obtain ⟨_, _, hlive⟩ := (Reloads.reloads_owned hreach).2 hquiet
  obtain ⟨p, hp⟩ := (hlive tx hl).2
  have htx := hg p tx hp
  exact ⟨by rw [htx], by rw [htx] at hp ⊢; exact hp⟩

end System

end SpaServer
