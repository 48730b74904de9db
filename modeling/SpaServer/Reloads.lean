import Mathlib.Logic.Relation
import SpaServer.HotReload

/-!
# Reloads at the same time

Any number of reload requests under way at once.  A request starts its generation of
listeners, sleeps, waits for the manager's lock, sends the two stop signals and stores its
own state; it can be cancelled while it waits, and a listener can end at any time.

`Request` is what a request owns at each point, `Step` one step of one of them.
`owned_step` says that a live listener's sender is always owned by somebody;
`reloads_owned` is that over runs, with what it comes to when no request is in flight.
-/

namespace SpaServer

/-! ### Requests -/

/-- Where a reload request is, with the state it owns there. -/
inductive Request where
  /-- Its listeners are started; it sleeps, or waits for the lock. -/
  | waiting (state : HotReloadState)
  | locked (state : HotReloadState)
  | httpStopped (state : HotReloadState)
  | httpsStopped (state : HotReloadState)
  | done

namespace Request

def state : Request → Option HotReloadState
  | waiting state | locked state | httpStopped state | httpsStopped state => some state
  | done => none

def hasLock : Request → Bool
  | locked _ | httpStopped _ | httpsStopped _ => true
  | waiting _ | done => false

end Request

structure Reloads where
  /-- How many generations have been started. -/
  started : Nat
  listeners : Listeners
  /-- What the manager's lock guards. -/
  manager : HotReloadState
  requests : List Request

namespace Reloads

def init (conf : Config) (starts : Protocol → Bool) : Reloads where
  started := 1
  listeners := Listeners.none.run conf 0 starts
  manager := .init conf 0
  requests := []

def goOn (r : Reloads) (i : Nat) (req : Request) (manager : HotReloadState)
    (listeners : Listeners) : Reloads :=
  { r with requests := r.requests.set i req, manager := manager, listeners := listeners }

inductive Step : Reloads → Reloads → Prop
  | start {r : Reloads} (conf : Config) (starts : Protocol → Bool) :
      Step r
        { r with
          started := r.started + 1
          listeners := r.listeners.run conf r.started starts
          requests := r.requests ++ [.waiting (.init conf r.started)] }
  | lock {r : Reloads} {i : Nat} {state : HotReloadState}
      (hi : r.requests[i]? = some (.waiting state))
      (hfree : ∀ req ∈ r.requests, req.hasLock = false) :
      Step r (r.goOn i (.locked state) r.manager r.listeners)
  | stopHttp {r : Reloads} {i : Nat} {state manager : HotReloadState} {ls : Listeners}
      (hi : r.requests[i]? = some (.locked state))
      (h : r.manager.stop .http r.listeners = (.ok (), manager, ls)) :
      Step r (r.goOn i (.httpStopped state) manager ls)
  | httpFails {r : Reloads} {i : Nat} {state manager : HotReloadState} {ls : Listeners}
      {e : ReloadError} (hi : r.requests[i]? = some (.locked state))
      (h : r.manager.stop .http r.listeners = (.error e, manager, ls)) :
      Step r (r.goOn i .done manager (state.drop ls))
  | stopHttps {r : Reloads} {i : Nat} {state manager : HotReloadState} {ls : Listeners}
      (hi : r.requests[i]? = some (.httpStopped state))
      (h : r.manager.stop .https r.listeners = (.ok (), manager, ls)) :
      Step r (r.goOn i (.httpsStopped state) manager ls)
  | httpsFails {r : Reloads} {i : Nat} {state manager : HotReloadState} {ls : Listeners}
      {e : ReloadError} (hi : r.requests[i]? = some (.httpStopped state))
      (h : r.manager.stop .https r.listeners = (.error e, manager, ls)) :
      Step r (r.goOn i .done manager (state.drop ls))
  | store {r : Reloads} {i : Nat} {state : HotReloadState}
      (hi : r.requests[i]? = some (.httpsStopped state)) :
      Step r (r.goOn i .done state (r.manager.drop r.listeners))
  | cancel {r : Reloads} {i : Nat} {state : HotReloadState}
      (hi : r.requests[i]? = some (.waiting state)) :
      Step r (r.goOn i .done r.manager (state.drop r.listeners))
  | ends {r : Reloads} (tx : Sender) : Step r { r with listeners := r.listeners.endAt tx }

def Run : Reloads → Reloads → Prop := Relation.ReflTransGen Step

/-! ### Who holds a sender -/

/-- The manager, or a request in flight, holds the sender. -/
def Held (r : Reloads) (tx : Sender) : Prop :=
  r.manager.Holds tx ∨ ∃ (i : Nat) (req : Request) (state : HotReloadState),
    r.requests[i]? = some req ∧ req.state = some state ∧
    state.Holds tx

def Quiet (r : Reloads) : Prop := ∀ req ∈ r.requests, req.state = none

/-- A live listener's sender is held, and every state holds senders of one generation
that has been started. -/
structure Owned (r : Reloads) : Prop where
  held : ∀ tx, r.listeners.LiveAt tx → r.Held tx
  fresh : ∀ tx, r.started ≤ tx.generation → r.listeners tx = none
  manager : ∃ g < r.started, r.manager.OfGeneration g
  requests : ∀ (i : Nat) req state, r.requests[i]? = some req → req.state = some state →
    ∃ g < r.started, state.OfGeneration g

theorem owned_init (conf : Config) (starts : Protocol → Bool) : (init conf starts).Owned := by
  refine ⟨fun tx hl => Or.inl ?_, fun tx hg => ?_,
    ⟨0, Nat.one_pos, HotReloadState.ofGeneration_init conf 0⟩, nofun⟩
  · rw [init, Listeners.liveAt_run] at hl
    split at hl
    · next h => exact HotReloadState.holds_init.mpr h
    · obtain ⟨l, h, _⟩ := hl
      exact absurd h.symm (Option.some_ne_none l)
  · have hne : tx.generation ≠ 0 := Nat.ne_of_gt hg
    show Listeners.none.run conf 0 starts tx = none
    rw [Listeners.run, if_neg (fun h => hne h.1)]
    rfl

/-- The `i`-th request goes on.  What was held is held still, when the sender of every
listener that is live afterwards is with the manager, if it was before, or with the
request, if it was before. -/
theorem Owned.goOn {r : Reloads} (h : r.Owned) {i : Nat} {req req' : Request}
    {state manager : HotReloadState} {ls : Listeners} (hi : r.requests[i]? = some req)
    (hstate : req.state = some state) (hlive : ∀ tx, ls.LiveAt tx → r.listeners.LiveAt tx ∧
      (r.manager.Holds tx → manager.Holds tx) ∧
      (state.Holds tx → manager.Holds tx ∨ req'.state = some state))
    (hnone : ∀ tx, ls tx = none ↔ r.listeners tx = none)
    (hmanager : ∃ g < r.started, manager.OfGeneration g)
    (hreq : ∀ state', req'.state = some state' → state' = state) :
    (r.goOn i req' manager ls).Owned := by
  have hlt := (List.getElem?_eq_some_iff.mp hi).1
  refine ⟨fun tx hl => ?_, fun tx hg => (hnone tx).mpr (h.fresh tx hg), hmanager,
    fun j q s hq hs => ?_⟩
  · obtain ⟨hbefore, hman, hst⟩ := hlive tx hl
    rcases h.held tx hbefore with hm | ⟨j, q, s, hq, hs, htx⟩
    · exact Or.inl (hman hm)
    by_cases hj : i = j
    · subst hj
      obtain rfl := Option.some.inj (hi.symm.trans hq)
      obtain rfl := Option.some.inj (hstate.symm.trans hs)
      refine (hst htx).imp id fun hreq' => ⟨i, req', state, ?_, hreq', htx⟩
      exact List.getElem?_set_self hlt
    · refine Or.inr ⟨j, q, s, ?_, hs, htx⟩
      rw [Reloads.goOn, List.getElem?_set_ne hj]
      exact hq
  · rw [Reloads.goOn] at hq
    by_cases hj : i = j
    · subst hj
      rw [List.getElem?_set_self hlt] at hq
      obtain rfl := Option.some.inj hq
      obtain rfl := hreq s hs
      exact h.requests i req s hi hstate
    · rw [List.getElem?_set_ne hj] at hq
      exact h.requests j q s hq hs

theorem Owned.stopped {r : Reloads} (h : r.Owned) {i : Nat} {req req' : Request}
    {state manager : HotReloadState} {ls : Listeners} {res : Except ReloadError Unit} {p : Protocol}
    (hi : r.requests[i]? = some req) (hstate : req.state = some state)
    (hreq : req'.state = some state)
    (hstop : r.manager.stop p r.listeners = (res, manager, ls)) :
    (r.goOn i req' manager ls).Owned := by
  obtain ⟨rfl, hlive, hnone⟩ := r.manager.stop_spec r.listeners p hstop
  obtain ⟨g, hlt, hg⟩ := h.manager
  refine h.goOn hi hstate (fun tx hl => ?_) hnone ⟨g, hlt, hg.take _ p⟩ fun s hs =>
    Option.some.inj (hs.symm.trans hreq)
  obtain ⟨hbefore, hnot⟩ := (hlive tx).mp hl
  refine ⟨hbefore, fun ⟨q, hq⟩ => ⟨q, ?_⟩, fun _ => Or.inr hreq⟩
  rw [HotReloadState.signal_take, if_neg]
  · exact hq
  · rintro rfl
    exact hnot hq

theorem Owned.failed {r : Reloads} (h : r.Owned) {i : Nat} {req : Request}
    {state manager : HotReloadState} {ls : Listeners} {res : Except ReloadError Unit} {p : Protocol}
    (hi : r.requests[i]? = some req) (hstate : req.state = some state)
    (hstop : r.manager.stop p r.listeners = (res, manager, ls)) :
    (r.goOn i .done manager (state.drop ls)).Owned := by
  obtain ⟨rfl, hlive, hnone⟩ := r.manager.stop_spec r.listeners p hstop
  obtain ⟨g, hlt, hg⟩ := h.manager
  refine h.goOn hi hstate (fun tx hl => ?_)
    (fun tx => (state.drop_eq_none ls).trans (hnone tx)) ⟨g, hlt, hg.take _ p⟩ nofun
  rw [HotReloadState.liveAt_drop] at hl
  obtain ⟨hbefore, hnot⟩ := (hlive tx).mp hl.1
  refine ⟨hbefore, fun ⟨q, hq⟩ => ⟨q, ?_⟩, fun hst => absurd hst hl.2⟩
  rw [HotReloadState.signal_take, if_neg]
  · exact hq
  · rintro rfl
    exact hnot hq

/-- **One step keeps every live listener's sender owned.** -/
theorem owned_step {r r' : Reloads} (h : r.Owned) (hstep : Step r r') : r'.Owned := by
  cases hstep with
  | start conf starts =>
    refine ⟨fun tx hl => ?_, fun tx hg => ?_, ?_, fun i req state hi hs => ?_⟩
    · rw [Listeners.liveAt_run] at hl
      split at hl
      · next hnew =>
        refine Or.inr ⟨r.requests.length, .waiting (.init conf r.started), _, ?_, rfl,
          HotReloadState.holds_init.mpr hnew⟩
        exact List.getElem?_concat_length ..
      · rcases h.held tx hl with hm | ⟨i, req, state, hi, hrest⟩
        · exact Or.inl hm
        · refine Or.inr ⟨i, req, state, ?_, hrest⟩
          rw [List.getElem?_append_left (List.getElem?_eq_some_iff.mp hi).1]
          exact hi
    · have hlt : r.started < tx.generation := hg
      show r.listeners.run conf r.started starts tx = none
      rw [Listeners.run, if_neg (fun hc => (Nat.ne_of_gt hlt) hc.1)]
      exact h.fresh tx (Nat.le_of_lt hlt)
    · obtain ⟨g, hlt, hg⟩ := h.manager
      exact ⟨g, Nat.lt_succ_of_lt hlt, hg⟩
    · rcases List.mem_append.mp (List.mem_of_getElem? hi) with hmem | hmem
      · obtain ⟨j, hj⟩ := List.mem_iff_getElem?.mp hmem
        obtain ⟨g, hlt, hg⟩ := h.requests j req state hj hs
        exact ⟨g, Nat.lt_succ_of_lt hlt, hg⟩
      · obtain rfl := List.mem_singleton.mp hmem
        obtain rfl := Option.some.inj hs
        exact ⟨r.started, Nat.lt_succ_self _, HotReloadState.ofGeneration_init conf r.started⟩
  | lock hi _ =>
    exact h.goOn hi rfl (fun tx hl => ⟨hl, id, fun _ => Or.inr rfl⟩) (fun _ => Iff.rfl) h.manager
      fun s hs =>
      (Option.some.inj hs).symm
  | stopHttp hi hstop => exact h.stopped hi rfl rfl hstop
  | httpFails hi hstop => exact h.failed hi rfl hstop
  | stopHttps hi hstop => exact h.stopped hi rfl rfl hstop
  | httpsFails hi hstop => exact h.failed hi rfl hstop
  | store hi =>
    refine h.goOn hi rfl (fun tx hl => ?_) (fun tx => r.manager.drop_eq_none r.listeners)
      (h.requests _ _ _ hi rfl) fun _ hs => by cases hs
    rw [HotReloadState.liveAt_drop] at hl
    exact ⟨hl.1, fun hm => absurd hm hl.2, Or.inl⟩
  | @cancel _ state hi =>
    refine h.goOn hi rfl (fun tx hl => ?_) (fun tx => state.drop_eq_none r.listeners) h.manager
      fun _ hs => by cases hs
    rw [HotReloadState.liveAt_drop] at hl
    exact ⟨hl.1, id, fun hs => absurd hs hl.2⟩
  | ends tx =>
    refine ⟨fun tx' hl => ?_, fun tx' hg => ?_, h.manager, h.requests⟩
    · rw [Listeners.liveAt_endAt] at hl
      exact h.held tx' hl.2
    · exact (r.listeners.modify_eq_none tx tx' _).mpr (h.fresh tx' hg)

theorem owned_run {r r' : Reloads} (h : r.Owned) (hrun : Run r r') : r'.Owned := by
  induction hrun with
  | refl => exact h
  | tail _ hstep ih => exact owned_step ih hstep

/-- **Every listener can be stopped.**  However reload requests overlap, fail and are
cancelled, every listener has ended, has been woken, or has its sender held by the
manager or by a request in flight; so with no request in flight all that are live are of
one generation, and the manager holds the senders of that generation. -/
theorem reloads_owned {conf : Config} {starts : Protocol → Bool} {r : Reloads}
    (hrun : Run (init conf starts) r) :
    (∀ tx l, r.listeners tx = some l → l.ended = true ∨ l.woken = true ∨ r.Held tx) ∧
      (r.Quiet → ∃ g, r.manager.OfGeneration g ∧
        ∀ tx, r.listeners.LiveAt tx → tx.generation = g ∧ r.manager.Holds tx) := by
  have h := owned_run (owned_init conf starts) hrun
  constructor
  · intro tx l hl
    cases he : l.ended with
    | true => exact Or.inl rfl
    | false =>
      cases hw : l.woken with
      | true => exact Or.inr (Or.inl rfl)
      | false => exact Or.inr (Or.inr (h.held tx ⟨l, hl, by simp [Listener.isLive, he, hw]⟩))
  · intro hquiet
    obtain ⟨g, _, hg⟩ := h.manager
    refine ⟨g, hg, fun tx hl => ?_⟩
    rcases h.held tx hl with hm | ⟨i, req, state, hi, hs, _⟩
    · obtain ⟨p, hp⟩ := hm
      exact ⟨by rw [hg p tx hp], p, hp⟩
    · rw [hquiet req (List.mem_of_getElem? hi)] at hs
      exact absurd hs.symm (Option.some_ne_none state)

def httpOnly : Config := ⟨80, [], [], none, none, .default, []⟩

/-- Two requests overlap; the first goes through and the second is cancelled.  The first listener has
been told to stop and the second one is live. -/
theorem reloads_owned_overlapping : ∃ r, Run (init httpOnly fun _ => true) r ∧
    r.requests.length = 2 ∧ (r.listeners ⟨0, .http⟩).any (·.woken) = true ∧
    r.listeners.LiveAt ⟨1, .http⟩ ∧ ∃ g, r.manager.OfGeneration g ∧
      ∀ tx, r.listeners.LiveAt tx → tx.generation = g ∧ r.manager.Holds tx := by
  have hrun : Run (init httpOnly fun _ => true) _ :=
    .tail (.tail (.tail (.tail (.tail (.tail (.tail .refl
      (.start httpOnly fun _ => true)) (.start httpOnly fun _ => true))
      (.lock (i := 0) rfl (by decide))) (.stopHttp (i := 0) rfl rfl))
      (.stopHttps (i := 0) rfl rfl)) (.store (i := 0) rfl)) (.cancel (i := 1) rfl)
  refine ⟨_, hrun, rfl, rfl, ⟨_, rfl, rfl⟩, (reloads_owned hrun).2 ?_⟩
  intro req hreq
  have hdone : req ∈ [Request.done, .done] := hreq
  rw [List.mem_pair, or_self] at hdone
  rw [hdone]
  rfl

end Reloads

end SpaServer
