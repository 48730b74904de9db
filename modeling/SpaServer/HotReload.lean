import SpaServer.DomainStorage

/-!
# Hot reload

`hot_reload.rs`: every generation of listeners is started with a `HotReloadState`, the
senders of the oneshot channels that its HTTP and HTTPS listener wait on.  To reload is
to send to the senders that the manager holds and to put the new ones in their place.

A sender is named by the listener that waits for it.  A send fails when the receiver has
been dropped, which is when the listener has ended; a receiver wakes when its sender
sends or is dropped, and its listener then shuts down.
-/

namespace SpaServer

inductive Protocol where
  | http
  | https
  deriving DecidableEq

def Config.enables (conf : Config) : Protocol → Bool
  | .http => decide (0 < conf.port)
  | .https => conf.https.isSome

/-- A `oneshot::Sender`, by the listener that has the receiver. -/
structure Sender where
  generation : Nat
  protocol : Protocol
  deriving DecidableEq

/-! ### Listeners -/

structure Listener where
  /-- It could not be started or has ended, and its receiver is dropped. -/
  ended : Bool
  /-- Its receiver has been woken. -/
  woken : Bool
  deriving DecidableEq

def Listener.isLive (l : Listener) : Bool := !l.ended && !l.woken

/-- The listeners ever started. -/
abbrev Listeners := Sender → Option Listener

namespace Listeners

variable (ls : Listeners)

def none : Listeners := fun _ => Option.none

def modify (tx : Sender) (f : Listener → Listener) : Listeners :=
  Function.update ls tx ((ls tx).map f)

def wake (tx : Sender) : Listeners := ls.modify tx fun l => { l with woken := true }

def endAt (tx : Sender) : Listeners := ls.modify tx fun l => { l with ended := true }

def send (tx : Sender) : Bool × Listeners :=
  if (ls tx).any (!·.ended) then (true, ls.wake tx) else (false, ls)

/-- `Server::run`: the listeners of a generation, one for each protocol that is enabled;
`starts` says which of them come up. -/
def run (conf : Config) (generation : Nat) (starts : Protocol → Bool) : Listeners := fun tx =>
  if tx.generation = generation ∧ conf.enables tx.protocol then
    some ⟨!starts tx.protocol, false⟩
  else ls tx

def LiveAt (tx : Sender) : Prop := ∃ l, ls tx = some l ∧ l.isLive = true

theorem modify_self (tx : Sender) (f : Listener → Listener) :
    ls.modify tx f tx = (ls tx).map f := Function.update_self ..

theorem modify_of_ne {tx tx' : Sender} (h : tx' ≠ tx) (f : Listener → Listener) :
    ls.modify tx f tx' = ls tx' := Function.update_of_ne h ..

@[simp] theorem modify_eq_none (tx tx' : Sender) (f : Listener → Listener) :
    ls.modify tx f tx' = Option.none ↔ ls tx' = Option.none := by
  by_cases h : tx' = tx
  · rw [h, modify_self, Option.map_eq_none_iff]
  · rw [modify_of_ne _ h]

theorem liveAt_wake {tx tx' : Sender} :
    (ls.wake tx).LiveAt tx' ↔ tx' ≠ tx ∧ ls.LiveAt tx' := by
  rw [LiveAt, LiveAt, wake]
  by_cases h : tx' = tx
  · subst h
    rw [modify_self]
    cases ls tx' <;> simp [Listener.isLive]
  · rw [modify_of_ne _ h]
    simp [h]

theorem liveAt_endAt {tx tx' : Sender} :
    (ls.endAt tx).LiveAt tx' ↔ tx' ≠ tx ∧ ls.LiveAt tx' := by
  rw [LiveAt, LiveAt, endAt]
  by_cases h : tx' = tx
  · subst h
    rw [modify_self]
    cases ls tx' <;> simp [Listener.isLive]
  · rw [modify_of_ne _ h]
    simp [h]

theorem send_cases (tx : Sender) :
    ls.send tx = (true, ls.wake tx) ∨ ls.send tx = (false, ls) ∧ ¬ ls.LiveAt tx := by
  rw [send]
  split
  · exact Or.inl rfl
  · next h =>
    refine Or.inr ⟨rfl, ?_⟩
    rintro ⟨l, hl, hlive⟩
    rw [hl] at h
    simp only [Option.any_some, Bool.not_eq_true', Bool.not_eq_false] at h
    simp [Listener.isLive, h] at hlive

theorem liveAt_run {conf : Config} {g : Nat} {starts : Protocol → Bool} {tx : Sender} :
    (ls.run conf g starts).LiveAt tx ↔
      if tx.generation = g ∧ conf.enables tx.protocol = true then starts tx.protocol = true
      else ls.LiveAt tx := by
  rw [LiveAt, run]
  split
  · simp [Listener.isLive]
  · rfl

end Listeners

/-! ### Reloading -/

structure HotReloadState where
  httpSignal : Option Sender
  httpsSignal : Option Sender

inductive ReloadError where
  | config
  | init (e : InitError)
  | signal (p : Protocol)
  deriving DecidableEq

namespace HotReloadState

/-- `HotReloadState::init`, for the listeners of this generation. -/
def init (conf : Config) (generation : Nat) : HotReloadState where
  httpSignal := if conf.enables .http then some ⟨generation, .http⟩ else none
  httpsSignal := if conf.enables .https then some ⟨generation, .https⟩ else none

def signal (s : HotReloadState) : Protocol → Option Sender
  | .http => s.httpSignal
  | .https => s.httpsSignal

def take (s : HotReloadState) : Protocol → HotReloadState
  | .http => { s with httpSignal := none }
  | .https => { s with httpsSignal := none }

/-- One of the two blocks of `reload`: take the signal and send to it. -/
def stop (s : HotReloadState) (p : Protocol) (ls : Listeners) :
    Except ReloadError Unit × HotReloadState × Listeners :=
  match s.signal p with
  | none => (.ok (), s, ls)
  | some tx =>
    match ls.send tx with
    | (true, ls) => (.ok (), s.take p, ls)
    | (false, ls) => (.error (.signal p), s.take p, ls)

def reload (s : HotReloadState) (ls : Listeners) :
    Except ReloadError Unit × HotReloadState × Listeners :=
  match s.stop .http ls with
  | (.ok _, s, ls) => s.stop .https ls
  | failed => failed

/-- The senders of a state go out of scope. -/
def drop (s : HotReloadState) (ls : Listeners) : Listeners :=
  let ls := match s.httpSignal with
    | some tx => ls.wake tx
    | none => ls
  match s.httpsSignal with
  | some tx => ls.wake tx
  | none => ls

end HotReloadState

/-- `HotReloadManager::reload`: what the lock guards afterwards, with the listeners.  The
state that is not kept is dropped. -/
def HotReloadManager.reload (manager state : HotReloadState) (ls : Listeners) :
    Except ReloadError Unit × HotReloadState × Listeners :=
  match manager.reload ls with
  | (.ok _, manager, ls) => (.ok (), state, manager.drop ls)
  | (.error e, manager, ls) => (.error e, manager, state.drop ls)

/-! ### What reloading does to the listeners -/

namespace HotReloadState

variable (s : HotReloadState) (ls : Listeners)

def Holds (tx : Sender) : Prop := ∃ p, s.signal p = some tx

/-- Its senders are those of one generation, each for its own protocol. -/
def OfGeneration (g : Nat) : Prop := ∀ p tx, s.signal p = some tx → tx = ⟨g, p⟩

theorem signal_take (p q : Protocol) : (s.take p).signal q = if q = p then none else s.signal q := by
  cases p <;> cases q <;> rfl

theorem take_of_none {p : Protocol} (h : s.signal p = none) : s.take p = s := by
  cases s
  cases p with
  | http => rw [take]; simp only [signal] at h; rw [h]
  | https => rw [take]; simp only [signal] at h; rw [h]

theorem OfGeneration.take {g : Nat} (h : s.OfGeneration g) (p : Protocol) :
    (s.take p).OfGeneration g := by
  intro q tx hq
  rw [signal_take] at hq
  split at hq
  · exact absurd hq.symm (Option.some_ne_none tx)
  · exact h q tx hq

theorem signal_init (conf : Config) (g : Nat) (p : Protocol) :
    (init conf g).signal p = if conf.enables p = true then some ⟨g, p⟩ else none := by
  cases p <;> rfl

theorem ofGeneration_init (conf : Config) (g : Nat) : (init conf g).OfGeneration g := by
  intro p tx h
  rw [signal_init] at h
  split at h
  · exact (Option.some.inj h).symm
  · exact absurd h.symm (Option.some_ne_none tx)

theorem holds_init {conf : Config} {g : Nat} {tx : Sender} :
    (init conf g).Holds tx ↔ tx.generation = g ∧ conf.enables tx.protocol = true := by
  constructor
  · rintro ⟨p, hp⟩
    rw [signal_init] at hp
    split at hp
    · next h =>
      obtain rfl := Option.some.inj hp
      exact ⟨rfl, h⟩
    · exact absurd hp.symm (Option.some_ne_none tx)
  · rintro ⟨rfl, h⟩
    exact ⟨tx.protocol, by rw [signal_init, if_pos h]⟩

/-- **What sending one of the signals does**: the state has it no more, and its listener
is not live. -/
theorem stop_spec (p : Protocol) {r : Except ReloadError Unit} {s' : HotReloadState}
    {ls' : Listeners} (h : s.stop p ls = (r, s', ls')) :
    s' = s.take p ∧ (∀ tx, ls'.LiveAt tx ↔ ls.LiveAt tx ∧ s.signal p ≠ some tx) ∧
      ∀ tx, ls' tx = none ↔ ls tx = none := by
  rw [stop] at h
  cases hs : s.signal p with
  | none =>
    rw [hs] at h
    simp only [Prod.mk.injEq] at h
    obtain ⟨_, rfl, rfl⟩ := h
    exact ⟨(s.take_of_none hs).symm, by simp, fun _ => Iff.rfl⟩
  | some tx =>
    rw [hs] at h
    dsimp only at h
    rcases ls.send_cases tx with hsend | ⟨hsend, hdead⟩
    · rw [hsend] at h
      simp only [Prod.mk.injEq] at h
      obtain ⟨_, rfl, rfl⟩ := h
      refine ⟨rfl, fun tx' => ?_, fun tx' => ls.modify_eq_none tx tx' _⟩
      simp [Listeners.liveAt_wake, and_comm, eq_comm]
    · rw [hsend] at h
      simp only [Prod.mk.injEq] at h
      obtain ⟨_, rfl, rfl⟩ := h
      refine ⟨rfl, fun tx' => ⟨fun hl => ⟨hl, ?_⟩, And.left⟩, fun _ => Iff.rfl⟩
      intro htx
      obtain rfl := Option.some.inj htx
      exact hdead hl

theorem holds_iff (tx : Sender) :
    s.Holds tx ↔ s.httpSignal = some tx ∨ s.httpsSignal = some tx :=
  ⟨fun ⟨p, h⟩ => by cases p with
    | http => exact Or.inl h
    | https => exact Or.inr h, fun h => h.elim (⟨.http, ·⟩) (⟨.https, ·⟩)⟩

theorem liveAt_drop {tx : Sender} : (s.drop ls).LiveAt tx ↔ ls.LiveAt tx ∧ ¬ s.Holds tx := by
  rw [holds_iff, drop]
  cases s.httpSignal <;> cases s.httpsSignal <;>
    simp only [Listeners.liveAt_wake, Option.some_inj, reduceCtorEq, ne_eq, eq_comm] <;> tauto

theorem drop_eq_none {tx : Sender} : s.drop ls tx = none ↔ ls tx = none := by
  rw [drop]
  cases s.httpSignal <;> cases s.httpsSignal <;> simp [Listeners.wake]

end HotReloadState

end SpaServer
