import SpaServer.LiveListeners
import SpaServer.Storage.Init

/-!
# Do the listeners follow the admin server?

The listeners of the first generation look things up in the admin server's own storage.
Those that a reload starts have a storage of their own, made from the disk at that moment,
and no release reaches it.  A `Recorded` run keeps, for each generation and domain, the disk
from which the files were cached last, and `Shows` compares what a listener has cached with
the version that the admin server reports, as it was on that disk.

`follow_step` keeps it through every event that `Follows` allows: a release with such
listeners running has to settle on the version that is served already, and a reload has
to find on the disk just the versions that the admin server serves.  `listeners_follow`
is that for whole runs.
-/

namespace SpaServer

open Base

variable {crates : Crates}

namespace System

/-- The storage has cached for `d` the files that version `v` had on this disk. -/
def ShowsVersion (crates : Crates) (dk : Disk) (w : World) (st : DomainStorage) (d : Str)
    (v : UInt32) : Prop :=
  dk.locate (getVersionPath st.pathPrefix d v) = w.versionLoc d v ∧
    st.cache.data d = some (st.cache.conf.cacheDir crates dk d (getVersionPath st.pathPrefix d v))

/-- The storage has cached for `d` the version that the admin server reports, as it was on
this disk, and nothing when it reports none. -/
def Shows (crates : Crates) (dk : Disk) (w : World) (st : DomainStorage) (d : Str) : Prop :=
  match w.serving d with
  | none => st.cache.data d = none
  | some v => ShowsVersion crates dk w st d v

theorem Shows.congr {dk : Disk} {w w' : World} {st : DomainStorage} {d : Str}
    (h : Shows crates dk w st d) (hplaces : SamePlaces w w')
    (hserving : w'.serving d = w.serving d) : Shows crates dk w' st d := by
  rw [Shows, hserving]
  rw [Shows] at h
  cases hs : w.serving d with
  | none => rw [hs] at h; exact h
  | some v =>
    rw [hs] at h
    exact ⟨by rw [hplaces.versionLoc]; exact h.1, h.2⟩

/-! ### What is served after a request -/

def Releases (crates : Crates) (w : World) (d : Str) : AdminRequest → Bool
  | .updateDomainVersion option =>
    option.domain = d ∧ (w.serve crates (.updateDomainVersion option)).1.status = 200
  | _ => false

/-- **A request releases nothing** and leaves alone what is served, or it releases a version. -/
theorem releases_cases (w : World) (r : AdminRequest) :
    ((∀ d, Releases crates w d r = false) ∧
      (w.serve crates r).2.storage.domainMeta = w.storage.domainMeta ∧
      (w.serve crates r).2.storage.cache = w.storage.cache) ∨
    ∃ option v, r = .updateDomainVersion option ∧ Releasable w option v ∧
      w.serve crates r = (releaseResponse option.domain (.ok v), w.release crates option.domain v) ∧
      ∀ d, Releases crates w d r = decide (option.domain = d) := by
  have hothers : (∀ option, r ≠ .updateDomainVersion option) →
      ∀ d, Releases crates w d r = false := by
    intro hr d
    cases r with
    | updateDomainVersion option => exact absurd rfl (hr option)
    | _ => rfl
  rcases @serve_maps crates w r with ⟨hmeta, hcache⟩ | ⟨option, v, rfl, hrel, hserve⟩
  · have houtcome := @serve_outcome crates w r
    generalize hres : w.serve crates r = res at houtcome
    cases houtcome with
    | @release option _ h =>
      cases h with
      | refused =>
        refine Or.inl ⟨fun d => ?_, hres ▸ hmeta, hres ▸ hcache⟩
        simp [Releases, hres, releaseResponse, Response.notFound]
      | @released v hu hv hversion =>
        refine Or.inr ⟨option, v, rfl, ⟨hversion, hu, hv⟩, rfl, fun d => ?_⟩
        simp [Releases, hres, releaseResponse]
    | looks h => exact Or.inl ⟨hothers (by rintro _ rfl; exact absurd h nofun), hres ▸ hmeta, hres ▸ hcache⟩
    | badForm | save | status | delete =>
      exact Or.inl ⟨hothers nofun, hres ▸ hmeta, hres ▸ hcache⟩
  · refine Or.inr ⟨option, v, rfl, hrel, hserve, fun d => ?_⟩
    simp [Releases, hserve, releaseResponse]

theorem shows_serve {taken : Str → Disk} {w : World} (r : AdminRequest)
    (h : ∀ d, Shows crates (taken d) w w.storage d) (d : Str) :
    Shows crates (if Releases crates w d r then w.disk else taken d) (w.serve crates r).2
      (w.serve crates r).2.storage d := by
  have hplaces := @serve_samePlaces crates w r
  rcases @releases_cases crates w r with
    ⟨hnot, hmeta, hcache⟩ | ⟨option, v, _, _, hserve, hreleases⟩
  · rw [hnot, if_neg Bool.false_ne_true]
    have hshow := (h d).congr hplaces (serving_of_meta hmeta d)
    simp only [Shows, ShowsVersion, hcache, hplaces.pathPrefix] at hshow ⊢
    exact hshow
  rw [hreleases]
  rw [hserve] at hplaces ⊢
  by_cases hd : option.domain = d
  · subst hd
    rw [if_pos (decide_eq_true rfl), Shows, serving_release, if_pos rfl]
    refine ⟨?_, ?_⟩
    · rw [hplaces.versionLoc]
      exact w.locate_versionPath option.domain v
    · rw [cache_release, if_pos rfl]
      rfl
  · rw [if_neg (by simpa using hd)]
    have hshow := (h d).congr hplaces (by rw [serving_release, if_neg (Ne.symm hd)])
    simp only [Shows, ShowsVersion, cache_release, if_neg (Ne.symm hd)] at hshow ⊢
    exact hshow

/-- A fresh storage shows what the admin server reports, when it finds on the disk just
the versions that are reported, where the admin server has them. -/
theorem shows_init {w : World} {config : Config} {st : DomainStorage}
    (hinit : DomainStorage.init crates w.disk config.fileDir (.new config) = .ok st) (d : Str)
    (h : ∀ v, w.serving d = some v ↔ NewestComplete w.disk config.fileDir d v)
    (hplace : w.serving d ≠ none → w.disk.locate config.fileDir =
      w.disk.locate w.storage.pathPrefix) : Shows crates w.disk w st d := by
  rw [Shows]
  cases hs : w.serving d with
  | none =>
    have hnone : st.domainMeta d = none := by
      cases hm : st.domainMeta d with
      | none => rfl
      | some e =>
        have hnewest := (init_serving hinit d e.2).mp (by rw [hm]; rfl)
        exact absurd ((h e.2).mpr hnewest) (by simp [hs])
    exact init_cache hinit hnone
  | some v =>
    have hnewest := (h v).mp hs
    have hplain : Plain d := plain_of_entry (by rw [hnewest.dir.1]; simp)
    obtain ⟨hpath, hconf, _⟩ := init_spec hinit
    have hloc := hplace (by simp [hs])
    rw [Disk.locate, Disk.locate] at hloc
    refine ⟨?_, ?_⟩
    · rw [w.versionLoc_plain hplain, Disk.locate, getVersionPath,
        locate_push_plain (plain_toDecimal v), locate_push_plain hplain, hpath, hloc]
      simp [Disk.locate]
    · rw [(init_newest hinit hnewest).2, hconf, hpath]

/-! ### The listeners -/

/-- A reload with this configuration leaves new listeners in the place of the old ones. -/
structure Replaces (crates : Crates) (s : System) (config : Config) (starts : Protocol → Bool) :
    Prop where
  conf : config.adminConfig = some s.adminConf
  init : ∃ storage,
    DomainStorage.init crates s.world.disk config.fileDir (.new config) = .ok storage
  stops : ∀ p, ¬ s.manager.Refuses s.listeners p
  starts : ∃ p, config.enables p = true ∧ starts p = true

/-- The events after which the listeners still follow the admin server.  While a reloaded
listener is live, a release has to settle on the version that is served already; and a
reload that leaves new listeners has to find on the disk, as the newest complete version of
each domain, just what the admin server serves, where the admin server has it. -/
def Follows (crates : Crates) (s : System) : Event → Prop
  | .request (.updateDomainVersion option) =>
    (∀ tx, s.listeners.LiveAt tx → tx.generation = 0) ∨
      ∀ v, Releasable s.world option v → s.world.serving option.domain = some v
  | .reload (some config) starts => Replaces crates s config starts → ∀ d,
      (∀ v, s.world.serving d = some v ↔ NewestComplete s.world.disk config.fileDir d v) ∧
      (s.world.serving d ≠ none → s.world.disk.locate config.fileDir =
        s.world.disk.locate s.world.storage.pathPrefix)
  | _ => True

/-- For each generation and domain, the disk from which the files were cached last. -/
abbrev Snapshots := Nat → Str → Disk

/-- The snapshots after an event: a release takes one for the first generation, which shares
the admin server's storage, and a reload one of every domain for the new generation. -/
def takes (crates : Crates) (s : System) (taken : Snapshots) : Event → Snapshots
  | .request r => fun g d => if g = 0 ∧ Releases crates s.world d r then s.world.disk else taken g d
  | .reload .. => fun g d => if g = s.generations then s.world.disk else taken g d
  | .ends _ => taken

theorem takes_first {s : System} {taken : Snapshots} (r : AdminRequest) (d : Str) :
    s.takes crates taken (.request r) 0 d =
      if Releases crates s.world d r then s.world.disk else taken 0 d := by
  simp only [takes, true_and]

/-- Events one after the other, each of which `ok` allows in its state, with the snapshots
that are taken on the way. -/
inductive Recorded (crates : Crates) (ok : System → Event → Prop) (s₀ : System) :
    Snapshots → System → Prop
  | start : Recorded crates ok s₀ (fun _ _ => s₀.world.disk) s₀
  | step {taken : Snapshots} {s : System} (h : Recorded crates ok s₀ taken s) (e : Event)
      (hok : ok s e) : Recorded crates ok s₀ (s.takes crates taken e) (s.step crates e)

/-- Every live listener has a storage that shows what the admin server reports. -/
def ListenersFollow (crates : Crates) (taken : Snapshots) (s : System) : Prop :=
  ∀ tx, s.listeners.LiveAt tx → ∃ st, s.storageOf tx.generation = some st ∧
    ∀ d, Shows crates (taken tx.generation d) s.world st d

theorem storageOf_reloaded {s : System} {manager : HotReloadState} {ls : Listeners}
    {storage st : DomainStorage} {g : Nat} (h : s.storageOf g = some st) :
    System.storageOf { s with
      manager := manager, listeners := ls, reloaded := s.reloaded ++ [storage] } g = some st := by
  cases g with
  | zero => exact h
  | succ g =>
    have hg : s.reloaded[g]? = some st := h
    show (s.reloaded ++ [storage])[g]? = some st
    rw [List.getElem?_append_left (List.getElem?_eq_some_iff.mp hg).1, hg]

theorem follow_request {taken : Snapshots} {s : System} (r : AdminRequest)
    (hok : Follows crates s (.request r))
    (hown : ∀ d, Shows crates (taken 0 d) s.world s.world.storage d)
    (h : ListenersFollow crates taken s) :
    ListenersFollow crates (s.takes crates taken (.request r)) (s.step crates (.request r)) := by
  intro tx hl
  obtain ⟨st, hst, hshows⟩ := h tx hl
  cases hg : tx.generation with
  | zero =>
    -- the first generation has the admin server's own storage
    refine ⟨_, rfl, fun d => ?_⟩
    rw [takes_first]
    exact shows_serve r hown d
  | succ g =>
    rw [hg] at hst hshows
    refine ⟨st, hst, fun d => ?_⟩
    simp only [takes, Nat.add_one_ne_zero, false_and, if_false]
    refine (hshows d).congr (serve_samePlaces s.world r) ?_
    rcases @serve_maps crates s.world r with ⟨hmeta, _⟩ | ⟨option, v, rfl, hrel, hserve⟩
    · exact serving_of_meta hmeta d
    show (s.world.serve crates (.updateDomainVersion option)).2.serving d = s.world.serving d
    rw [hserve, serving_release]
    split
    case isFalse => rfl
    case isTrue hd =>
      rcases hok with hgen | hsame
      · exact absurd ((hgen tx hl).symm.trans hg) nofun
      · rw [hd, hsame v hrel]

/-- One reload, in a state whose live listeners the manager holds the senders of. -/
theorem follow_reload {taken : Snapshots} {s : System}
    {g : Nat} (hlt : g < s.generations) (hof : s.manager.OfGeneration g)
    (hheld : ∀ tx, s.listeners.LiveAt tx →
      tx.generation = g ∧ s.manager.signal tx.protocol = some tx)
    {loaded : Option Config} {starts : Protocol → Bool}
    (hok : Follows crates s (.reload loaded starts)) (h : ListenersFollow crates taken s) :
    ListenersFollow crates (s.takes crates taken (.reload loaded starts))
      (s.step crates (.reload loaded starts)) := by
  show ListenersFollow crates _ (s.reloadServer crates loaded starts).2
  have hold : ∀ tx, s.listeners.LiveAt tx →
      s.takes crates taken (.reload loaded starts) tx.generation = taken tx.generation := by
    intro tx hl
    have hne : tx.generation ≠ s.generations := by
      rw [(hheld tx hl).1]
      exact Nat.ne_of_lt hlt
    funext d
    exact if_neg hne
  rcases hret : s.reloadServer crates loaded starts with ⟨ret, s'⟩
  rcases reloadServer_cases hret with
    ⟨rfl, _⟩ | ⟨config, storage, manager, ls, ⟨rfl, hconf⟩, hinit, hmanager, rfl⟩
  · intro tx hl
    rw [hold tx hl]
    exact h tx hl
  intro tx hl
  rcases reload_live hlt hof hheld hmanager with
    ⟨_, hlive⟩ | ⟨_, _, hlive⟩ | ⟨hhttp, hhttps, hlive⟩
  · have hl' := (hlive tx).mp hl
    obtain ⟨st, hst, hshows⟩ := h tx hl'
    rw [hold tx hl']
    exact ⟨st, storageOf_reloaded hst, hshows⟩
  · exact absurd hl (hlive tx)
  · obtain ⟨hgen, henables, hstarts⟩ := (hlive tx).mp hl
    refine ⟨storage, ?_, fun d => ?_⟩
    · rw [hgen]
      exact List.getElem?_concat_length ..
    · have hreplaces : Replaces crates s config starts :=
        ⟨hconf, ⟨storage, hinit⟩, fun p => by cases p <;> assumption, _, henables, hstarts⟩
      obtain ⟨hnewest, hplace⟩ := hok hreplaces d
      have htaken : s.takes crates taken (.reload (some config) starts) tx.generation d =
          s.world.disk := if_pos hgen
      rw [htaken]
      exact shows_init hinit d hnewest hplace

/-- **What one event keeps.** -/
theorem follow_step {taken : Snapshots} {s : System} {e : Event}
    {g : Nat} (hlt : g < s.generations) (hof : s.manager.OfGeneration g)
    (hheld : ∀ tx, s.listeners.LiveAt tx →
      tx.generation = g ∧ s.manager.signal tx.protocol = some tx)
    (hok : Follows crates s e) (hown : ∀ d, Shows crates (taken 0 d) s.world s.world.storage d)
    (h : ListenersFollow crates taken s) :
    let taken' := s.takes crates taken e
    (∀ d, Shows crates (taken' 0 d) (s.step crates e).world (s.step crates e).world.storage d) ∧
      ListenersFollow crates taken' (s.step crates e) := by
  cases e with
  | request r =>
    refine ⟨fun d => ?_, follow_request r hok hown h⟩
    rw [takes_first]
    exact shows_serve r hown d
  | reload loaded starts =>
    have hworld : (s.step crates (.reload loaded starts)).world = s.world := by
      show (s.reloadServer crates loaded starts).2.world = s.world
      rcases hret : s.reloadServer crates loaded starts with ⟨ret, s'⟩
      rcases reloadServer_cases hret with ⟨rfl, _⟩ | ⟨_, _, _, _, _, _, _, rfl⟩ <;> rfl
    refine ⟨fun d => ?_, follow_reload hlt hof hheld hok h⟩
    have hfirst : s.takes crates taken (.reload loaded starts) 0 d = taken 0 d := by
      simp only [takes]
      exact if_neg (Nat.succ_ne_zero _).symm
    rw [hworld, hfirst]
    exact hown d
  | ends tx' => exact ⟨hown, fun tx hl => h tx (s.listeners.liveAt_endAt.mp hl).2⟩

/-! ### Runs -/

theorem Recorded.run {ok : System → Event → Prop} {s₀ s : System} {taken : Snapshots}
    (h : Recorded crates ok s₀ taken s) : ∃ seen, Run crates ok s₀ seen s := by
  induction h with
  | start => exact ⟨_, .start⟩
  | step _ e hok ih => exact ⟨_, ih.choose_spec.step e hok⟩

theorem shows_start {dk : Disk} {config : Config} {starts : Protocol → Bool} {s₀ : System}
    (h₀ : runServer crates dk config starts = some s₀) (d : Str) :
    Shows crates s₀.world.disk s₀.world s₀.world.storage d := by
  obtain ⟨storage, _, hinit, _, rfl⟩ := runServer_cases h₀
  obtain ⟨hpath, _⟩ := init_spec hinit
  exact shows_init (w := ⟨storage, dk⟩) hinit d (init_serving hinit d) fun _ => by rw [hpath]

theorem follow_run {dk : Disk} {config : Config} {starts : Protocol → Bool} {s₀ s : System}
    {taken : Snapshots} (h₀ : runServer crates dk config starts = some s₀)
    (hrun : Recorded crates (Follows crates) s₀ taken s) :
    (∀ d, Shows crates (taken 0 d) s.world s.world.storage d) ∧
      ListenersFollow crates taken s := by
  induction hrun with
  | start =>
    refine ⟨shows_start h₀, fun tx hl => ⟨s₀.world.storage, ?_, shows_start h₀⟩⟩
    obtain ⟨_, _, _, _, rfl⟩ := runServer_cases h₀
    rw [Listeners.liveAt_run] at hl
    split at hl
    · next hgen =>
      rw [hgen.1]
      rfl
    · exact absurd hl.choose_spec.1 nofun
  | step hrun e hok ih =>
    obtain ⟨g, hlt, hof, hheld⟩ := owned_of_run h₀ hrun.run.choose_spec
    exact follow_step hlt hof hheld hok ih.1 ih.2

def Succeeds (crates : Crates) (w : World) (option : DomainWithOptVersionOption) (v : UInt32) :
    Prop :=
  (w.serve crates (.updateDomainVersion option)).1 = releaseResponse option.domain (.ok v)

theorem Succeeds.release {w : World} {option : DomainWithOptVersionOption} {v : UInt32}
    (h : Succeeds crates w option v) :
    (w.serve crates (.updateDomainVersion option)).2 = w.release crates option.domain v := by
  have houtcome := @serve_outcome crates w (.updateDomainVersion option)
  rw [Succeeds] at h
  generalize w.serve crates (.updateDomainVersion option) = res at h houtcome ⊢
  cases houtcome with
  | looks hl => exact absurd hl nofun
  | @release _ res hrel =>
    cases hrel with
    | refused => exact absurd (congrArg Response.status h) (show 404 ≠ 200 by decide)
    | @released u hu hv hversion =>
      have htext := Body.text.inj (congrArg Response.body h)
      obtain rfl := toDecimal_injective (List.append_cancel_left htext)
      rfl

/-- The event is no reload, and no release of the domain that goes through. -/
def Leaves (crates : Crates) (d : Str) (s : System) : Event → Prop
  | .request (.updateDomainVersion option) =>
    option.domain = d → ∀ v, ¬ Succeeds crates s.world option v
  | .reload .. => False
  | _ => True

/-- Such an event changes neither what is reported for the domain nor a snapshot of it. -/
theorem leaves_step {d : Str} {s : System} {e : Event} (h : Leaves crates d s e)
    (taken : Snapshots) : (s.step crates e).world.serving d = s.world.serving d ∧
      ∀ g, s.takes crates taken e g d = taken g d := by
  cases e with
  | request r =>
    have hkeeps : (s.world.serve crates r).2.serving d = s.world.serving d ∧
        Releases crates s.world d r = false := by
      rcases @releases_cases crates s.world r with
        ⟨hnot, hmeta, _⟩ | ⟨option, v, rfl, _, hserve, hreleases⟩
      · exact ⟨serving_of_meta hmeta d, hnot d⟩
      · have hd : option.domain ≠ d := fun hd => h hd v (congrArg Prod.fst hserve)
        rw [hserve, serving_release, if_neg (Ne.symm hd), hreleases]
        exact ⟨rfl, decide_eq_false hd⟩
    refine ⟨hkeeps.1, fun g => if_neg ?_⟩
    rw [hkeeps.2]
    exact fun h => Bool.false_ne_true h.2
  | reload => exact h.elim
  | ends => exact ⟨rfl, fun _ => rfl⟩

theorem leaves_run {d : Str} {ok : System → Event → Prop} {s₀ s s' : System} {seen' : List Disk}
    {taken : Snapshots} (h : Recorded crates ok s₀ taken s)
    (h' : Run crates (fun s e => ok s e ∧ Leaves crates d s e) s seen' s') :
    ∃ taken', Recorded crates ok s₀ taken' s' ∧ s'.world.serving d = s.world.serving d ∧
      ∀ g, taken' g d = taken g d := by
  induction h' with
  | start => exact ⟨taken, h, rfl, fun _ => rfl⟩
  | step _ e hok ih =>
    obtain ⟨taken', hrecorded, hserving, htaken⟩ := ih
    obtain ⟨hserving', htaken'⟩ := leaves_step hok.2 taken'
    exact ⟨_, hrecorded.step e hok.1, hserving'.trans hserving,
      fun g => (htaken' g).trans (htaken g)⟩

/-- **The listeners follow the admin server** in every run of such events: what a live
listener looks up for a domain are the files of the version that the admin server reports,
as they were when that generation cached them last; and from a release of a domain that goes
through to the next one, or to the next reload, it is the version released, for the first
generation as it was on the disk of the release. -/
theorem listeners_follow {dk : Disk} {config : Config} {starts : Protocol → Bool}
    {s₀ s : System} {taken : Snapshots} (h₀ : runServer crates dk config starts = some s₀)
    (hrun : Recorded crates (Follows crates) s₀ taken s) :
    ListenersFollow crates taken s ∧
      ∀ option v, Follows crates s (.request (.updateDomainVersion option)) →
        Succeeds crates s.world option v → ∀ seen' s',
          Run crates (fun s e => Follows crates s e ∧ Leaves crates option.domain s e)
            (s.step crates (.request (.updateDomainVersion option))) seen' s' →
          ∀ tx, s'.listeners.LiveAt tx → ∃ st, s'.storageOf tx.generation = some st ∧
            ShowsVersion crates
              (if tx.generation = 0 then s.world.disk else taken tx.generation option.domain)
              s'.world st option.domain v := by
  refine ⟨(follow_run h₀ hrun).2, fun option v hok hsucceeds seen' s' hrun' tx hl => ?_⟩
  have hreleases : Releases crates s.world option.domain (.updateDomainVersion option) = true := by
    rw [Releases, hsucceeds]
    exact decide_eq_true ⟨rfl, rfl⟩
  obtain ⟨taken', hrecorded, hserving, htaken⟩ := leaves_run (hrun.step _ hok) hrun'
  have hreported : s'.world.serving option.domain = some v := by
    rw [hserving]
    show (s.world.serve crates _).2.serving option.domain = some v
    rw [hsucceeds.release, serving_release, if_pos rfl]
  obtain ⟨st, hst, hshows⟩ := (follow_run h₀ hrecorded).2 tx hl
  have hshow := hshows option.domain
  rw [Shows, hreported, htaken] at hshow
  simp only [takes, hreleases, and_true] at hshow
  exact ⟨st, hst, hshow⟩

/-! ### A release after a reload -/

def twoVersionDisk : Disk :=
  (bareDisk.withDir "/srv/www.a.com/1".toList).withFile "/srv/www.a.com/2/index.html".toList [1]

def startedServer : System :=
  (runServer Crates.simple twoVersionDisk bothProtocols fun _ => true).get (by decide +kernel)

theorem startedServer_starts : runServer Crates.simple twoVersionDisk bothProtocols
    (fun _ => true) = some startedServer := (Option.some_get _).symm

def uploadedServer : System :=
  ((startedServer.step Crates.simple
    (.request (.changeUploadStatus ⟨"www.a.com".toList, 3, .uploading⟩))).step Crates.simple
    (.request (putFile "3" "index.html" [7, 8]))).step Crates.simple
    (.request (.changeUploadStatus ⟨"www.a.com".toList, 3, .finish⟩))

def thirdVersion : DomainWithOptVersionOption := ⟨"www.a.com".toList, some 3⟩

def thirdReleased : System :=
  uploadedServer.step Crates.simple (.request (.updateDomainVersion thirdVersion))

/-- After its release the HTTP listener has its file. -/
theorem listeners_follow_uploaded : thirdReleased.listeners.LiveAt ⟨0, .http⟩ ∧
    ∃ st, thirdReleased.storageOf 0 = some st ∧
      ShowsVersion Crates.simple uploadedServer.world.disk thirdReleased.world st
        "www.a.com".toList 3 ∧
      (st.cache.getItem "www.a.com".toList "index.html".toList).any
        (fun item => item.fileMeta.len = 2) = true := by
  have hrun : Recorded Crates.simple (Follows Crates.simple) startedServer _ uploadedServer :=
    ((Recorded.start.step _ trivial).step _ trivial).step _ trivial
  have hgenerations : ∀ tx, startedServer.listeners.LiveAt tx → tx.generation = 0 := by
    obtain ⟨_, _, _, _, hs⟩ := runServer_cases startedServer_starts
    intro tx hl
    rw [hs, Listeners.liveAt_run] at hl
    split at hl
    · next h => exact h.1
    · exact absurd hl.choose_spec.1 nofun
  have hlive : thirdReleased.listeners.LiveAt ⟨0, .http⟩ := ⟨⟨false, false⟩, by decide +kernel, rfl⟩
  obtain ⟨st, hst, hshows⟩ := (listeners_follow startedServer_starts hrun).2 thirdVersion 3
    (Or.inl hgenerations) (by unfold Succeeds; decide +kernel) _ _ .start ⟨0, .http⟩ hlive
  have hitem : (thirdReleased.storageOf 0).any (fun st =>
      (st.cache.getItem "www.a.com".toList "index.html".toList).any
        (fun item => item.fileMeta.len = 2)) = true := by decide +kernel
  have hfirst : thirdReleased.storageOf 0 = some st := hst
  rw [hfirst] at hitem
  exact ⟨hlive, st, hfirst, hshows, hitem⟩

/-- The requests to an admin server, and its reloads with the admin settings unchanged. -/
def AdminEvent (s : System) : Event → Prop
  | .request _ => True
  | .reload loaded _ => ∃ config, loaded = some config ∧ config.adminConfig = some s.adminConf
  | .ends _ => False

theorem cacheDir_empty {conf : CacheSettings} {dk : Disk} {path : PathBuf} (d : Str)
    (h : ∀ l ∈ dk.dom, dk.locate path <+: l → (dk.node l).any Node.isFile = false) :
    conf.cacheDir crates dk d path = .empty := by
  have hnone : (dk.walkDir path none).filterMap (conf.cacheEntry crates d path) = [] := by
    refine List.filterMap_eq_nil_iff.mpr fun e he => ?_
    obtain ⟨_, _, hnode, _⟩ := Disk.mem_walkDir.mp he
    have hfile := h _ ((dk.mem_dom _).mpr (by rw [hnode]; exact nofun)) (List.prefix_append _ e.rel)
    rw [hnode] at hfile
    cases hn : e.node with
    | dir => rw [CacheSettings.cacheEntry, hn]
    | file f => rw [hn] at hfile; exact absurd hfile nofun
  rw [CacheSettings.cacheDir, hnone]
  rfl

def olderVersion : DomainWithOptVersionOption := ⟨"www.a.com".toList, some 1⟩

def reloadedServer : System :=
  startedServer.step Crates.simple (.reload (some bothProtocols) fun _ => true)

def releasedServer : System :=
  reloadedServer.step Crates.simple (.request (.updateDomainVersion olderVersion))

/-- The release answers with success, and the listeners still show the newer version. -/
theorem reloaded_stale : ¬ ∀ (dk : Disk) (config : Config) (starts : Protocol → Bool)
    (s₀ s : System) (taken : Snapshots), runServer Crates.simple dk config starts = some s₀ →
    Recorded Crates.simple AdminEvent s₀ taken s → ListenersFollow Crates.simple taken s := by
  intro hall
  have hadmin : AdminEvent startedServer (.reload (some bothProtocols) fun _ => true) := by
    obtain ⟨_, _, _, hconf, hs⟩ := runServer_cases startedServer_starts
    exact ⟨bothProtocols, rfl, by rw [hs]; exact hconf⟩
  have hrun : Recorded Crates.simple AdminEvent startedServer _ releasedServer :=
    (Recorded.start.step _ hadmin).step (.request (.updateDomainVersion olderVersion)) trivial
  have hlive : releasedServer.listeners.LiveAt ⟨1, .http⟩ :=
    ⟨⟨false, false⟩, by decide +kernel, rfl⟩
  obtain ⟨st, hst, hshows⟩ := hall _ _ _ _ _ _ startedServer_starts hrun _ hlive
  have hserving : releasedServer.world.serving "www.a.com".toList = some 1 := by decide +kernel
  have hshow := hshows "www.a.com".toList
  rw [Shows, hserving] at hshow
  -- the new generation has its files from the disk of the reload, which is that of the start
  obtain ⟨hpath, hcache⟩ : ShowsVersion Crates.simple startedServer.world.disk
    releasedServer.world st "www.a.com".toList 1 := hshow
  have hfiles : ∀ l ∈ startedServer.world.disk.dom,
      releasedServer.world.versionLoc "www.a.com".toList 1 <+: l →
      (startedServer.world.disk.node l).any Node.isFile = false := by decide +kernel
  rw [cacheDir_empty _ fun l hl hpre => hfiles l hl (hpath ▸ hpre)] at hcache
  have hitem : (releasedServer.storageOf 1).any
      (fun st => (st.cache.getItem "www.a.com".toList "index.html".toList).isSome) = true := by
    decide +kernel
  rw [hst, Option.any_some, FileCache.getItem, hcache] at hitem
  exact absurd hitem nofun

end System

end SpaServer
