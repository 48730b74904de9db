import SpaServer.System

/-!
# What a reload leaves running

A reload starts the new listeners, stops the old ones and only then lets go of what it
has: whether a new listener has come up is never looked at, and when an old one cannot be
told to stop the new ones are stopped instead.  `managerReload_live` lists the three ways
this goes, and `reload_keepsLive_iff` says for every state of a server exactly when each
protocol that was live, and still is enabled, is live afterwards.
-/

namespace SpaServer

open Base

variable {crates : Crates}

/-! ### The three ways of a reload -/

namespace HotReloadState

variable (s : HotReloadState) (ls : Listeners)

def Refuses (p : Protocol) : Prop := ∃ tx, s.signal p = some tx ∧ (ls tx).any (!·.ended) = false

theorem any_wake (tx tx' : Sender) :
    (ls.wake tx tx').any (!·.ended) = (ls tx').any (!·.ended) := by
  rw [Listeners.wake]
  by_cases h : tx' = tx
  · rw [h, Listeners.modify_self, Option.any_map]
  · rw [Listeners.modify_of_ne _ h]

/-- Sending one signal fails when its listener has ended, and changes no other's end. -/
theorem stop_ended (p : Protocol) {r : Except ReloadError Unit} {s' : HotReloadState}
    {ls' : Listeners} (h : s.stop p ls = (r, s', ls')) :
    (r = .ok () ∧ ¬ s.Refuses ls p ∨ r = .error (.signal p) ∧ s.Refuses ls p) ∧
      ∀ tx, (ls' tx).any (!·.ended) = (ls tx).any (!·.ended) := by
  rw [stop] at h
  cases hs : s.signal p with
  | none =>
    rw [hs] at h
    simp only [Prod.mk.injEq] at h
    obtain ⟨rfl, _, rfl⟩ := h
    refine ⟨Or.inl ⟨rfl, ?_⟩, fun _ => rfl⟩
    rintro ⟨tx, htx, _⟩
    exact absurd (hs.symm.trans htx).symm (Option.some_ne_none tx)
  | some tx =>
    rw [hs] at h
    dsimp only at h
    rw [Listeners.send] at h
    cases he : (ls tx).any (!·.ended) with
    | true =>
      rw [he, if_pos rfl] at h
      simp only [Prod.mk.injEq] at h
      obtain ⟨rfl, _, rfl⟩ := h
      refine ⟨Or.inl ⟨rfl, ?_⟩, any_wake ls tx⟩
      rintro ⟨tx', htx', he'⟩
      obtain rfl := Option.some.inj (hs.symm.trans htx')
      exact absurd (he.symm.trans he') Bool.noConfusion
    | false =>
      rw [he, if_neg Bool.noConfusion] at h
      simp only [Prod.mk.injEq] at h
      obtain ⟨rfl, _, rfl⟩ := h
      exact ⟨Or.inr ⟨rfl, tx, hs, he⟩, fun _ => rfl⟩

/-- A generation that has just been started refuses where a listener has not come up. -/
theorem refuses_run {conf : Config} {g : Nat} {starts : Protocol → Bool} {p : Protocol}
    (h : (init conf g).Refuses (ls.run conf g starts) p) : starts p = false := by
  obtain ⟨tx, htx, he⟩ := h
  rw [signal_init] at htx
  split at htx
  case isFalse => exact absurd htx.symm (Option.some_ne_none tx)
  case isTrue henables =>
    obtain rfl := Option.some.inj htx
    rw [Listeners.run, if_pos ⟨rfl, henables⟩] at he
    simpa using he

theorem Refuses.not_live {s : HotReloadState} {ls : Listeners} {p : Protocol} {tx : Sender}
    (h : s.Refuses ls p) (hl : ls.LiveAt tx) : s.signal p ≠ some tx := by
  intro hs
  obtain ⟨tx', hs', he⟩ := h
  obtain rfl := Option.some.inj (hs.symm.trans hs')
  obtain ⟨l, hl, hlive⟩ := hl
  rw [hl] at he
  simp only [Option.any_some, Bool.not_eq_false'] at he
  simp [Listener.isLive, he] at hlive

end HotReloadState

/-- **Which listeners are live after the manager is reloaded.** -/
theorem managerReload_live {manager state manager' : HotReloadState} {ls ls' : Listeners}
    {ret : Except ReloadError Unit}
    (h : HotReloadManager.reload manager state ls = (ret, manager', ls')) :
    manager.Refuses ls .http ∧ (∀ tx, ls'.LiveAt tx ↔ ls.LiveAt tx ∧ ¬ state.Holds tx) ∨
    ¬ manager.Refuses ls .http ∧ manager.Refuses ls .https ∧
      (∀ tx, ls'.LiveAt tx ↔
        (ls.LiveAt tx ∧ manager.signal .http ≠ some tx ∧ manager.signal .https ≠ some tx) ∧
          ¬ state.Holds tx) ∨
    ¬ manager.Refuses ls .http ∧ ¬ manager.Refuses ls .https ∧
      ∀ tx, ls'.LiveAt tx ↔ ls.LiveAt tx ∧ ¬ manager.Holds tx := by
  rw [HotReloadManager.reload, HotReloadState.reload] at h
  rcases hhttp : manager.stop .http ls with ⟨r₁, m₁, ls₁⟩
  obtain ⟨rfl, hlive₁, _⟩ := manager.stop_spec ls .http hhttp
  obtain ⟨hres₁, hended₁⟩ := manager.stop_ended ls .http hhttp
  rw [hhttp] at h
  rcases hres₁ with ⟨rfl, hsent₁⟩ | ⟨rfl, hrefused₁⟩
  case inr =>
    simp only [Prod.mk.injEq] at h
    obtain ⟨_, _, rfl⟩ := h
    refine Or.inl ⟨hrefused₁, fun tx => ?_⟩
    rw [HotReloadState.liveAt_drop, hlive₁]
    exact ⟨fun hl => ⟨hl.1.1, hl.2⟩, fun hl => ⟨⟨hl.1, hrefused₁.not_live hl.1⟩, hl.2⟩⟩
  dsimp only at h
  rcases hhttps : (manager.take .http).stop .https ls₁ with ⟨r₂, m₂, ls₂⟩
  obtain ⟨rfl, hlive₂, _⟩ := (manager.take .http).stop_spec ls₁ .https hhttps
  obtain ⟨hres₂, _⟩ := (manager.take .http).stop_ended ls₁ .https hhttps
  rw [hhttps] at h
  have hsignal : (manager.take .http).signal .https = manager.signal .https := by
    rw [HotReloadState.signal_take, if_neg (by decide)]
  have hrefuses : (manager.take .http).Refuses ls₁ .https ↔ manager.Refuses ls .https := by
    rw [HotReloadState.Refuses, HotReloadState.Refuses, hsignal]
    simp only [hended₁]
  have hlive : ∀ tx, ls₂.LiveAt tx ↔ ls.LiveAt tx ∧ manager.signal .http ≠ some tx ∧
      manager.signal .https ≠ some tx := by
    intro tx
    rw [hlive₂, hlive₁, hsignal, and_assoc]
  refine Or.inr ?_
  rcases hres₂ with ⟨rfl, hsent₂⟩ | ⟨rfl, hrefused₂⟩
  · simp only [Prod.mk.injEq] at h
    obtain ⟨_, _, rfl⟩ := h
    refine Or.inr ⟨hsent₁, fun hr => hsent₂ (hrefuses.mpr hr), fun tx => ?_⟩
    -- both senders are taken, so nothing is left to drop
    have hnone : ¬ ((manager.take .http).take .https).Holds tx := by
      rw [HotReloadState.holds_iff]
      rintro (hh | hh) <;> cases hh
    rw [HotReloadState.liveAt_drop, hlive, manager.holds_iff, not_or]
    exact ⟨And.left, fun hl => ⟨hl, hnone⟩⟩
  · simp only [Prod.mk.injEq] at h
    obtain ⟨_, _, rfl⟩ := h
    refine Or.inl ⟨hsent₁, hrefuses.mp hrefused₂, fun tx => ?_⟩
    rw [HotReloadState.liveAt_drop, hlive]

namespace System

def Live (s : System) (p : Protocol) : Prop := ∃ tx, tx.protocol = p ∧ s.listeners.LiveAt tx

/-- Each protocol that is live in `s` and enabled in the configuration just loaded, if one
was, is live in `s'`. -/
def KeepsLive (s : System) (loaded : Option Config) (s' : System) : Prop :=
  ∀ p, s.Live p → (∀ config, loaded = some config → config.enables p = true) → s'.Live p

/-- The listeners can be replaced: where a generation is started at all, either the old
HTTP listener has ended and refuses the signal, or the HTTPS listener refuses it and there
is no live HTTP listener to be told first, or each new listener comes up that has to stand
in for a live one. -/
def Replaceable (crates : Crates) (s : System) (loaded : Option Config)
    (starts : Protocol → Bool) : Prop :=
  ∀ config storage, loaded = some config → config.adminConfig = some s.adminConf →
    DomainStorage.init crates s.world.disk config.fileDir (.new config) = .ok storage →
    s.manager.Refuses s.listeners .http ∨
    s.manager.Refuses s.listeners .https ∧ ¬ (s.Live .http ∧ config.enables .http = true) ∨
    ¬ s.manager.Refuses s.listeners .https ∧
      ∀ p, s.Live p → config.enables p = true → starts p = true

/-- **Which listeners are live after a generation was started**, when the manager holds
the senders of those that were: they stay, or none is left, or the new ones are live that
have come up. -/
theorem reload_live {s : System} {g : Nat} (hg : g < s.generations)
    (hof : s.manager.OfGeneration g) (hheld : ∀ tx, s.listeners.LiveAt tx →
      tx.generation = g ∧ s.manager.signal tx.protocol = some tx)
    {config : Config} {starts : Protocol → Bool} {ret : Except ReloadError Unit}
    {manager : HotReloadState} {ls : Listeners}
    (h : HotReloadManager.reload s.manager (.init config s.generations)
      (s.listeners.run config s.generations starts) = (ret, manager, ls)) :
    s.manager.Refuses s.listeners .http ∧ (∀ tx, ls.LiveAt tx ↔ s.listeners.LiveAt tx) ∨
    ¬ s.manager.Refuses s.listeners .http ∧ s.manager.Refuses s.listeners .https ∧
      (∀ tx, ¬ ls.LiveAt tx) ∨
    ¬ s.manager.Refuses s.listeners .http ∧ ¬ s.manager.Refuses s.listeners .https ∧
      ∀ tx, ls.LiveAt tx ↔ tx.generation = s.generations ∧ config.enables tx.protocol = true ∧
        starts tx.protocol = true := by
  -- the generations are apart, so the listeners of each can be told from the others
  have hnew : ∀ tx, (s.listeners.run config s.generations starts).LiveAt tx ↔
      (tx.generation = s.generations ∧ config.enables tx.protocol = true ∧
        starts tx.protocol = true) ∨ s.listeners.LiveAt tx := by
    intro tx
    rw [Listeners.liveAt_run]
    split
    · next h =>
      have hold : ¬ s.listeners.LiveAt tx := fun hl => by
        have := (hheld tx hl).1
        omega
      simp only [h.1, h.2, hold, true_and, or_false]
    · next h =>
      refine ⟨Or.inr, fun hl => hl.resolve_left fun hn => h ⟨hn.1, hn.2.1⟩⟩
  have hapart : ∀ tx, s.manager.Holds tx → tx.generation ≠ s.generations := by
    rintro tx ⟨p, hp⟩
    rw [hof p tx hp]
    exact Nat.ne_of_lt hg
  have hrefuses : ∀ p, s.manager.Refuses (s.listeners.run config s.generations starts) p ↔
      s.manager.Refuses s.listeners p := by
    intro p
    have hsame : ∀ tx, s.manager.signal p = some tx →
        s.listeners.run config s.generations starts tx = s.listeners tx := fun tx htx => by
      rw [Listeners.run, if_neg fun h => hapart tx ⟨p, htx⟩ h.1]
    refine ⟨?_, ?_⟩
    · rintro ⟨tx, htx, he⟩
      exact ⟨tx, htx, by rwa [hsame tx htx] at he⟩
    · rintro ⟨tx, htx, he⟩
      exact ⟨tx, htx, by rwa [hsame tx htx]⟩
  have hlive := managerReload_live h
  simp only [hrefuses, hnew, HotReloadState.holds_init] at hlive
  rcases hlive with ⟨hhttp, hlive⟩ | ⟨hhttp, hhttps, hlive⟩ | ⟨hhttp, hhttps, hlive⟩
  · refine Or.inl ⟨hhttp, fun tx => (hlive tx).trans ⟨?_, fun hl => ⟨Or.inr hl, fun hh => ?_⟩⟩⟩
    · rintro ⟨hl | hl, hnot⟩
      · exact absurd ⟨hl.1, hl.2.1⟩ hnot
      · exact hl
    · have := (hheld tx hl).1
      omega
  · refine Or.inr (Or.inl ⟨hhttp, hhttps, fun tx hl => ?_⟩)
    obtain ⟨⟨hl | hl, h1, h2⟩, hnot⟩ := (hlive tx).mp hl
    · exact hnot ⟨hl.1, hl.2.1⟩
    · have hsignal := (hheld tx hl).2
      cases hp : tx.protocol with
      | http => exact h1 (hp ▸ hsignal)
      | https => exact h2 (hp ▸ hsignal)
  · refine Or.inr (Or.inr ⟨hhttp, hhttps, fun tx => (hlive tx).trans ⟨?_, fun hl =>
      ⟨Or.inl hl, fun hh => hapart tx hh hl.1⟩⟩⟩)
    rintro ⟨hl | hl, hnot⟩
    · exact hl
    · exact absurd ⟨_, (hheld tx hl).2⟩ hnot

theorem keepsLive_iff_of_owned {s : System} {g : Nat} (hg : g < s.generations)
    (hof : s.manager.OfGeneration g) (hheld : ∀ tx, s.listeners.LiveAt tx →
      tx.generation = g ∧ s.manager.signal tx.protocol = some tx)
    (loaded : Option Config) (starts : Protocol → Bool) :
    KeepsLive s loaded (s.reloadServer crates loaded starts).2 ↔
      Replaceable crates s loaded starts := by
  rcases hret : s.reloadServer crates loaded starts with ⟨ret, s'⟩
  rcases reloadServer_cases hret with
    ⟨rfl, hno⟩ | ⟨config, storage, manager, ls, ⟨rfl, hconf⟩, hinit, hmanager, rfl⟩
  · exact ⟨fun _ config storage hl hc hi => absurd hi (hno config storage hl hc),
      fun _ p hl _ => hl⟩
  have hkeeps : ∀ s', KeepsLive s (some config) s' ↔
      ∀ p, s.Live p → config.enables p = true → s'.Live p :=
    fun s' => ⟨fun h p hl he => h p hl fun c hc => Option.some.inj hc ▸ he,
      fun h p hl he => h p hl (he config rfl)⟩
  have hreplaceable : Replaceable crates s (some config) starts ↔
      s.manager.Refuses s.listeners .http ∨
      s.manager.Refuses s.listeners .https ∧ ¬ (s.Live .http ∧ config.enables .http = true) ∨
      ¬ s.manager.Refuses s.listeners .https ∧
        ∀ p, s.Live p → config.enables p = true → starts p = true :=
    ⟨fun h => h config storage rfl hconf hinit, fun h c _ hc _ _ => Option.some.inj hc ▸ h⟩
  rw [hkeeps, hreplaceable]
  rcases reload_live hg hof hheld hmanager with
    ⟨hhttp, hlive⟩ | ⟨hhttp, hhttps, hlive⟩ | ⟨hhttp, hhttps, hlive⟩
  · -- the old listeners stay
    refine ⟨fun _ => Or.inl hhttp, ?_⟩
    rintro - p ⟨tx, hp, hl⟩ _
    exact ⟨tx, hp, (hlive tx).mpr hl⟩
  · -- nothing is left, and no HTTPS listener was live before
    have hold : ¬ s.Live .https := by
      rintro ⟨tx, hp, hl⟩
      exact hhttps.not_live hl (hp ▸ (hheld tx hl).2)
    constructor
    · refine fun h => Or.inr (Or.inl ⟨hhttps, fun hc => ?_⟩)
      obtain ⟨tx, _, hl⟩ := h .http hc.1 hc.2
      exact hlive tx hl
    · rintro (h | ⟨_, h⟩ | ⟨h, _⟩) p hl he
      · exact absurd h hhttp
      · cases p with
        | http => exact absurd ⟨hl, he⟩ h
        | https => exact absurd hl hold
      · exact absurd hhttps h
  · -- the new listeners are what is left
    constructor
    · refine fun h => Or.inr (Or.inr ⟨hhttps, fun p hl he => ?_⟩)
      obtain ⟨tx, rfl, hl'⟩ := h p hl he
      exact ((hlive tx).mp hl').2.2
    · rintro (h | ⟨h, _⟩ | ⟨_, h⟩) p hl he
      · exact absurd h hhttp
      · exact absurd h hhttps
      · exact ⟨⟨s.generations, p⟩, rfl, (hlive _).mpr ⟨rfl, he, h p hl he⟩⟩

/-- **A reload keeps the server live exactly when** the listeners can be replaced, in
every state that a server reaches. -/
theorem reload_keepsLive_iff {dk : Disk} {config₀ : Config} {starts₀ : Protocol → Bool}
    {s₀ s : System} {seen : List Disk} (h₀ : runServer crates dk config₀ starts₀ = some s₀)
    (hrun : Run crates (fun _ _ => True) s₀ seen s) (loaded : Option Config)
    (starts : Protocol → Bool) :
    KeepsLive s loaded (s.reloadServer crates loaded starts).2 ↔
      Replaceable crates s loaded starts := by
  obtain ⟨g, hg, hof, hheld⟩ := owned_of_run h₀ hrun
  exact keepsLive_iff_of_owned hg hof hheld loaded starts

/-! ### A certificate that cannot be loaded -/

def bothProtocols : Config :=
  ⟨80, "0.0.0.0".toList, "/srv".toList,
    some ⟨9000, "127.0.0.1".toList, "token".toList, defaultMaxUploadSize, none⟩,
    some ⟨443, "0.0.0.0".toList⟩, .default, []⟩

theorem bothProtocols_starts : ∃ s₀, runServer Crates.simple bareDisk bothProtocols
    (fun _ => true) = some s₀ :=
  Option.isSome_iff_exists.mp (by decide +kernel)

theorem not_refuses_started {dk : Disk} {config : Config} {s₀ : System}
    (h₀ : runServer crates dk config (fun _ => true) = some s₀) (p : Protocol) :
    ¬ s₀.manager.Refuses s₀.listeners p := by
  obtain ⟨_, _, _, _, rfl⟩ := runServer_cases h₀
  intro h
  have hstarts := @HotReloadState.refuses_run Listeners.none config 0 (fun _ => true) p h
  exact absurd hstarts (by decide)

/-- With the same configuration, and both new listeners up, all stays live. -/
theorem reload_keepsLive_same : ∃ s₀, runServer Crates.simple bareDisk bothProtocols
    (fun _ => true) = some s₀ ∧
    KeepsLive s₀ (some bothProtocols)
      (s₀.reloadServer Crates.simple (some bothProtocols) fun _ => true).2 := by
  obtain ⟨s₀, h₀⟩ := bothProtocols_starts
  refine ⟨s₀, h₀, (reload_keepsLive_iff h₀ .start (some bothProtocols) fun _ => true).mpr ?_⟩
  exact fun config storage _ _ _ =>
    Or.inr (Or.inr ⟨not_refuses_started h₀ .https, fun _ _ _ => rfl⟩)

/-- The new HTTPS listener does not come up, and the old one is stopped all the same. -/
theorem certificate_lost : ¬ ∀ (dk : Disk) (config₀ : Config) (starts₀ : Protocol → Bool)
    (s₀ s : System) (seen : List Disk) (loaded : Option Config) (starts : Protocol → Bool),
    runServer Crates.simple dk config₀ starts₀ = some s₀ →
    Run Crates.simple (fun _ _ => True) s₀ seen s →
    (∀ config, loaded = some config → config.adminConfig = some s.adminConf) →
    KeepsLive s loaded (s.reloadServer Crates.simple loaded starts).2 := by
  intro hall
  obtain ⟨s₀, h₀⟩ := bothProtocols_starts
  have hrun : Run Crates.simple (fun _ _ => True) s₀ _ s₀ := .start
  obtain ⟨g, hg, hof, hheld⟩ := owned_of_run h₀ hrun
  have hrefuses := not_refuses_started h₀
  obtain ⟨storage, adminConf, hinit, hconf, rfl⟩ := runServer_cases h₀
  have hadmin : ∀ config, some bothProtocols = some config → config.adminConfig = some adminConf :=
    fun config hc => Option.some.inj hc ▸ hconf
  have hkeeps := hall _ _ _ _ _ _ _ (· = .http) h₀ hrun hadmin
  rw [keepsLive_iff_of_owned hg hof hheld] at hkeeps
  rcases hkeeps bothProtocols storage rfl hconf hinit with h | ⟨h, _⟩ | ⟨_, h⟩
  · exact hrefuses .http h
  · exact hrefuses .https h
  · have hstarts := h .https ⟨⟨0, .https⟩, rfl, ⟨false, false⟩, rfl, rfl⟩ rfl
    exact absurd hstarts (by decide)

end System

end SpaServer
