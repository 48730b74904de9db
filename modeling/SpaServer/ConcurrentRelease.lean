import SpaServer.Storage.Outcome

/-!
# Releases at the same time

Any number of `upload_domain_with_version` handlers on one storage, one step of
one of them at a time.  A handler that has found its version puts it into `meta`,
reads the version directory and only then puts the files into the cache; in
between (`walking`, `storing`) it is *unsettled*, and `meta` may already name
another version.

`Phase` says where a handler can be and `phase_step` what its next step does.
`releases_agree`: when every handler that stores its files while no other handler
of its domain is unsettled finds its own version in `meta`, then the cache and
`meta` agree whenever all handlers are done.
-/

namespace SpaServer

open Base Program Method

variable {crates : Crates}

/-- The file map of version `v` of `d`, as `cache_dir` reads it now. -/
def World.snapshot (crates : Crates) (w : World) (d : Str) (v : UInt32) : FileMap :=
  w.storage.cache.conf.cacheDir crates w.disk d (getVersionPath w.storage.pathPrefix d v)

/-- What `meta` holds for `d` and what is cached for `d` are one version. -/
def Agrees (crates : Crates) (w : World) (d : Str) : Prop :=
  ∀ p v, w.storage.domainMeta d = some (p, v) →
    p = getVersionPath w.storage.pathPrefix d v ∧
      w.storage.cache.data d = some (w.snapshot crates d v)

/-! ### The phases of a handler -/

abbrev Handler := Method (Except StorageError UInt32)

/-- The rest of `upload_domain_with_version` after the file map is read. -/
def storing (d : Str) (v : UInt32) (data : FileMap) : Handler := do
  cacheUpdate d data
  return .ok v

/-- The rest of `upload_domain_with_version` after `meta` is written. -/
def walking (pathPrefix : PathBuf) (d : Str) (v : UInt32) : Handler := do
  match ← cacheDir d (getVersionPath pathPrefix d v) with
  | .error e => return .error e
  | .ok data => storing d v data

/-- A handler for `d` that has not written anything: it looks, gives up, or is about
to write `meta` and go on with `walking`. -/
def Before (pathPrefix : PathBuf) (d : Str) : Handler → Prop
  | .ret (.ok _) => False
  | .ret (.error _) => True
  | .call (.metaInsert d' p v) next =>
    d' = d ∧ p = getVersionPath pathPrefix d v ∧ next () = walking pathPrefix d v
  | .call op next => op.isLookup = true ∧ ∀ r, Before pathPrefix d (next r)

inductive Phase (crates : Crates) (w : World) (d : Str) : Handler → Prop
  | before {p : Handler} (h : Before w.storage.pathPrefix d p) : Phase crates w d p
  | walking {v : UInt32} : Phase crates w d (walking w.storage.pathPrefix d v)
  | storing {v : UInt32} : Phase crates w d (storing d v (w.snapshot crates d v))
  | released {v : UInt32} : Phase crates w d (.ret (.ok v))

theorem before_releaseVersion (pathPrefix : PathBuf) (d : Str) (v : UInt32) :
    Before pathPrefix d (releaseVersion pathPrefix d v) := by
  simp only [releaseVersion, perform_bind]
  refine ⟨rfl, fun u => ?_⟩
  beta_reduce
  split
  · trivial
  · refine ⟨rfl, fun b => ?_⟩
    cases b with
    | true => exact ⟨rfl, rfl, rfl⟩
    | false => trivial

theorem before_start (pathPrefix : PathBuf) (d : Str) (version : Option UInt32) :
    Before pathPrefix d (uploadDomainWithVersion pathPrefix d version) := by
  cases version with
  | some v => exact before_releaseVersion pathPrefix d v
  | none =>
    simp only [uploadDomainWithVersion, getDomainInfoByDomain, perform_bind, call_bind]
    refine ⟨rfl, fun entries => ?_⟩
    beta_reduce
    cases parseVersions entries with
    | nil => trivial
    | cons v vs =>
      dsimp only [perform_bind, call_bind, pure_eq, ret_bind, Option.map_some, Option.getD_some]
      refine ⟨rfl, fun current => ?_⟩
      cases (v :: vs).max? with
      | none => trivial
      | some u => exact before_releaseVersion pathPrefix d u

inductive HandlerStep (crates : Crates) (w : World) (d : Str) : Handler → Handler → World → Prop
  | looks {p p' : Handler} (h : Before w.storage.pathPrefix d p)
      (h' : Before w.storage.pathPrefix d p') : HandlerStep crates w d p p' w
  | writes {p : Handler} {v : UInt32} (h : Before w.storage.pathPrefix d p) :
      HandlerStep crates w d p (walking w.storage.pathPrefix d v)
        (w.setMeta (w.storage.domainMeta.insert d (getVersionPath w.storage.pathPrefix d v, v)))
  | reads {v : UInt32} : HandlerStep crates w d (walking w.storage.pathPrefix d v)
      (storing d v (w.snapshot crates d v)) w
  | stores {v : UInt32} : HandlerStep crates w d (storing d v (w.snapshot crates d v))
      (.ret (.ok v)) (w.setCache (w.storage.cache.update d (w.snapshot crates d v)))

/-- **A handler in a phase takes one of these steps.** -/
theorem phase_step {w : World} {d : Str} {op : Op} {next : op.Reply → Handler}
    (h : Phase crates w d (.call op next)) :
    HandlerStep crates w d (.call op next) (next (meaning crates op w).1)
      (meaning crates op w).2 := by
  generalize hp : Program.call op next = p at h
  cases h with
  | released => exact absurd hp (by simp)
  | walking =>
    obtain ⟨rfl, hn⟩ := (Program.call.injEq ..).mp hp
    obtain rfl := eq_of_heq hn
    exact .reads
  | storing =>
    obtain ⟨rfl, hn⟩ := (Program.call.injEq ..).mp hp
    obtain rfl := eq_of_heq hn
    exact .stores
  | before h =>
    subst hp
    have hlook : (op.isLookup = true ∧ ∀ r, Before w.storage.pathPrefix d (next r)) →
        HandlerStep crates w d (.call op next) (next (meaning crates op w).1)
          (meaning crates op w).2 := by
      rintro ⟨hl, hr⟩
      rw [lookup_world hl]
      exact .looks h (hr _)
    cases op with
    | metaInsert d' p v =>
      obtain ⟨rfl, rfl, hn⟩ := h
      simp only [meaning, hn]
      exact .writes ⟨rfl, rfl, hn⟩
    | _ => exact hlook h

theorem HandlerStep.phase {w w' : World} {d : Str} {p p' : Handler}
    (h : HandlerStep crates w d p p' w') : Phase crates w' d p' := by
  cases h with
  | looks _ h' => exact .before h'
  | writes _ => exact .walking
  | reads => exact .storing
  | stores => exact .released

theorem HandlerStep.pathPrefix {w w' : World} {d : Str} {p p' : Handler}
    (h : HandlerStep crates w d p p' w') : w'.storage.pathPrefix = w.storage.pathPrefix := by
  cases h <;> rfl

theorem HandlerStep.other_phase {w w' : World} {d e : Str} {p p' q : Handler}
    (h : HandlerStep crates w d p p' w') (hq : Phase crates w e q) : Phase crates w' e q := by
  have hpre := h.pathPrefix
  have hsnap : ∀ v, w.snapshot crates e v = w'.snapshot crates e v := fun v => by cases h <;> rfl
  cases hq with
  | before hb => exact .before (hpre ▸ hb)
  | walking => rw [← hpre]; exact .walking
  | storing => rw [hsnap]; exact .storing
  | released => exact .released

theorem not_before_walking {pathPrefix : PathBuf} {d e : Str} {v : UInt32} :
    ¬ Before pathPrefix e (walking pathPrefix d v) := fun h => absurd h.1 (by simp [Op.isLookup])

theorem not_before_storing {pathPrefix : PathBuf} {d e : Str} {v : UInt32} {data : FileMap} :
    ¬ Before pathPrefix e (storing d v data) := fun h => absurd h.1 (by simp [Op.isLookup])

/-! ### Handlers together -/

def handlers (pathPrefix : PathBuf) (reqs : List (Str × Option UInt32)) : List Handler :=
  reqs.map fun r => uploadDomainWithVersion pathPrefix r.1 r.2

def Unsettled (pathPrefix : PathBuf) (reqs : List (Str × Option UInt32)) (ps : List Handler)
    (d : Str) (j : Nat) : Prop :=
  ∃ version, reqs[j]? = some (d, version) ∧
    ∃ v, ps[j]? = some (walking pathPrefix d v) ∨ ∃ data, ps[j]? = some (storing d v data)

/-- When the `i`-th handler is about to store the files of version `v` of `d`, then `v`
is what `meta` holds for `d`, or another handler for `d` has still to store its files. -/
def Careful (reqs : List (Str × Option UInt32)) (i : Nat) (c : List Handler × World) : Prop :=
  ∀ d v data, c.1[i]? = some (storing d v data) →
    c.2.serving d = some v ∨ ∃ j, j ≠ i ∧ Unsettled c.2.storage.pathPrefix reqs c.1 d j

def PathsAt (w : World) (d : Str) : Prop :=
  ∀ p v, w.storage.domainMeta d = some (p, v) → p = getVersionPath w.storage.pathPrefix d v

/-- What holds of the pool at any time: every handler is in a phase, and where `meta`
and the cache do not agree, a handler will still see to it, or none has begun to. -/
structure PoolInv (crates : Crates) (reqs : List (Str × Option UInt32)) (w₀ : World)
    (ps : List Handler) (w : World) : Prop where
  phase : ∀ (i : Nat) p, ps[i]? = some p → ∃ d version, reqs[i]? = some (d, version) ∧ Phase crates w d p
  agree : ∀ d, Agrees crates w d ∨
    (∃ j, Unsettled w.storage.pathPrefix reqs ps d j) ∧ PathsAt w d ∨
    ¬ Agrees crates w₀ d ∧ ∀ (i : Nat) p version, reqs[i]? = some (d, version) →
      ps[i]? = some p → Before w.storage.pathPrefix d p

theorem poolInv_start (reqs : List (Str × Option UInt32)) (w : World) :
    PoolInv crates reqs w (handlers w.storage.pathPrefix reqs) w := by
  have hstart : ∀ (i : Nat) p, (handlers w.storage.pathPrefix reqs)[i]? = some p →
      ∃ d version, reqs[i]? = some (d, version) ∧ Before w.storage.pathPrefix d p := by
    intro i p hp
    rw [handlers, List.getElem?_map, Option.map_eq_some_iff] at hp
    obtain ⟨⟨d, version⟩, hr, rfl⟩ := hp
    exact ⟨d, version, hr, before_start _ d version⟩
  constructor
  · intro i p hp
    obtain ⟨d, version, hr, hb⟩ := hstart i p hp
    exact ⟨d, version, hr, .before hb⟩
  · intro d
    by_cases h : Agrees crates w d
    · exact Or.inl h
    · refine Or.inr (Or.inr ⟨h, fun i p version hr hp => ?_⟩)
      obtain ⟨d', _, hr', hb⟩ := hstart i p hp
      rw [hr] at hr'
      simp only [Option.some.injEq, Prod.mk.injEq] at hr'
      exact hr'.1 ▸ hb

theorem HandlerStep.agrees_of_ne {w w' : World} {d e : Str} {p p' : Handler}
    (h : HandlerStep crates w d p p' w') (he : e ≠ d) :
    (Agrees crates w e → Agrees crates w' e) ∧ (PathsAt w e → PathsAt w' e) := by
  cases h with
  | looks _ _ => exact ⟨id, id⟩
  | reads => exact ⟨id, id⟩
  | writes _ =>
    constructor
    · intro ha q v hm
      simp only [World.setMeta, DashMap.insert_of_ne _ he] at hm
      exact ha q v hm
    · intro ha q v hm
      simp only [World.setMeta, DashMap.insert_of_ne _ he] at hm
      exact ha q v hm
  | stores =>
    refine ⟨fun ha q v hm => ?_, id⟩
    obtain ⟨hq, hc⟩ := ha q v hm
    refine ⟨hq, ?_⟩
    rw [World.setCache]
    show (w.storage.cache.data.insert d _) e = _
    rw [DashMap.insert_of_ne _ he]
    exact hc

theorem not_before_released {pathPrefix : PathBuf} {d : Str} {v : UInt32} :
    ¬ Before pathPrefix d (.ret (.ok v)) := id

/-- **One step keeps the invariant**, when it is a careful one. -/
theorem poolInv_step {reqs : List (Str × Option UInt32)} {w₀ w w' : World}
    {ps ps' : List Handler} {i : Nat} (hinv : PoolInv crates reqs w₀ ps w)
    (hcareful : Careful reqs i (ps, w)) (hstep : PoolStep (meaning crates) i (ps, w) (ps', w')) :
    PoolInv crates reqs w₀ ps' w' := by
  generalize hc : (ps, w) = c at hstep
  generalize hc' : (ps', w') = c' at hstep
  obtain @⟨_, _, op, next, hi⟩ := hstep
  obtain ⟨rfl, rfl⟩ := Prod.mk.inj hc
  obtain ⟨rfl, rfl⟩ := Prod.mk.inj hc'
  obtain ⟨d, version, hreq, hphase⟩ := hinv.phase i _ hi
  have hs := phase_step hphase
  generalize (meaning crates op w).2 = w' at hs ⊢
  generalize next (meaning crates op w).1 = p' at hs ⊢
  generalize Program.call op next = p at hs hi
  have hself : (ps.set i p')[i]? = some p' := by
    rw [List.getElem?_set_self' , hi]
    rfl
  have hother : ∀ j, j ≠ i → (ps.set i p')[j]? = ps[j]? := fun j hj =>
    List.getElem?_set_ne (Ne.symm hj)
  have hsame : ∀ e v, reqs[i]? = some (e, v) → e = d := fun e v he => by
    rw [hreq] at he
    exact (Prod.mk.inj (Option.some.inj he)).1.symm
  constructor
  · intro j q hq
    by_cases hj : j = i
    · subst hj
      rw [hself] at hq
      obtain rfl := Option.some.inj hq
      exact ⟨d, version, hreq, hs.phase⟩
    · rw [hother j hj] at hq
      obtain ⟨e, ver, hr, hph⟩ := hinv.phase j q hq
      exact ⟨e, ver, hr, hs.other_phase hph⟩
  · intro e
    by_cases he : e = d
    case neg =>
      have hne : ∀ j v, reqs[j]? = some (e, v) → j ≠ i := by
        rintro j v hr rfl
        exact he (hsame e v hr)
      rcases hinv.agree e with ha | ⟨⟨j, ver, hr, hu⟩, hp⟩ | ⟨hna, hb⟩
      · exact Or.inl ((hs.agrees_of_ne he).1 ha)
      · refine Or.inr (Or.inl ⟨⟨j, ver, hr, ?_⟩, (hs.agrees_of_ne he).2 hp⟩)
        rw [hs.pathPrefix, hother j (hne j ver hr)]
        exact hu
      · refine Or.inr (Or.inr ⟨hna, fun j q ver hr hq => ?_⟩)
        rw [hother j (hne j ver hr)] at hq
        rw [hs.pathPrefix]
        exact hb j q ver hr hq
    subst he
    -- a handler that waits to store its files keeps waiting when another takes a step
    have hkeep : ∀ j, j ≠ i → Unsettled w.storage.pathPrefix reqs ps e j →
        Unsettled w'.storage.pathPrefix reqs (ps.set i p') e j := by
      rintro j hj ⟨ver, hr, hu⟩
      rw [Unsettled, hs.pathPrefix, hother j hj]
      exact ⟨ver, hr, hu⟩
    have hpaths : ¬ Before w.storage.pathPrefix e p → PathsAt w e := fun hn => by
      rcases hinv.agree e with ha | ⟨_, hp⟩ | ⟨_, hb⟩
      · exact fun q v hm => (ha q v hm).1
      · exact hp
      · exact absurd (hb i p version hreq hi) hn
    cases hs with
    | looks hbef hbef' =>
      rcases hinv.agree e with ha | ⟨⟨j, hu⟩, hp⟩ | ⟨hna, hb⟩
      · exact Or.inl ha
      · refine Or.inr (Or.inl ⟨⟨j, hkeep j ?_ hu⟩, hp⟩)
        rintro rfl
        obtain ⟨_, _, v, hv | ⟨data, hv⟩⟩ := hu
        · rw [hi] at hv
          exact not_before_walking (Option.some.inj hv ▸ hbef)
        · rw [hi] at hv
          exact not_before_storing (Option.some.inj hv ▸ hbef)
      · refine Or.inr (Or.inr ⟨hna, fun j q ver hr hq => ?_⟩)
        by_cases hj : j = i
        · subst hj
          rw [hself] at hq
          exact Option.some.inj hq ▸ hbef'
        · rw [hother j hj] at hq
          exact hb j q ver hr hq
    | @writes _ v hbef =>
      refine Or.inr (Or.inl ⟨⟨i, version, hreq, v, Or.inl hself⟩, fun q u hm => ?_⟩)
      simp only [World.setMeta, DashMap.insert_self, Option.some.injEq, Prod.mk.injEq] at hm
      rw [← hm.1, ← hm.2]
      rfl
    | @reads v =>
      exact Or.inr (Or.inl ⟨⟨i, version, hreq, v, Or.inr ⟨_, hself⟩⟩, hpaths not_before_walking⟩)
    | @stores v =>
      have hp := hpaths not_before_storing
      rcases hcareful e v _ hi with hserving | ⟨j, hj, hu⟩
      · refine Or.inl fun q u hm => ?_
        have hq : q = getVersionPath w.storage.pathPrefix e u := hp q u hm
        have hu : u = v := by
          change w.storage.domainMeta e = _ at hm
          simpa [World.serving, hm] using hserving
        subst hu
        exact ⟨hq, DashMap.insert_self _ _ _⟩
      · exact Or.inr (Or.inl ⟨⟨j, hkeep j hj hu⟩, hp⟩)

def Quiescent (pathPrefix : PathBuf) (reqs : List (Str × Option UInt32)) (ps : List Handler) :
    Prop :=
  ∀ (i : Nat) (p : Handler), ps[i]? = some p →
    (handlers pathPrefix reqs)[i]? = some p ∨ ∃ r, p = .ret r

/-- **Releases agree.**  In a careful run, whenever no handler is under way, what is
cached for a domain is the version that `meta` holds, if a handler of the run has
released the domain or if they agreed to begin with. -/
theorem releases_agree (reqs : List (Str × Option UInt32)) (w₀ w : World) (ps : List Handler)
    (hrun : PoolRun (meaning crates) (Careful reqs) (handlers w₀.storage.pathPrefix reqs, w₀) (ps, w))
    (hquiet : Quiescent w₀.storage.pathPrefix reqs ps) (d : Str)
    (hd : Agrees crates w₀ d ∨ ∃ (i : Nat) (version : Option UInt32) (v : UInt32),
      reqs[i]? = some (d, version) ∧ ps[i]? = some (.ret (.ok v))) : Agrees crates w d := by
  have hinv : ∀ c : List Handler × World, PoolRun (meaning crates) (Careful reqs)
      (handlers w₀.storage.pathPrefix reqs, w₀) c →
      PoolInv crates reqs w₀ c.1 c.2 ∧ c.2.storage.pathPrefix = w₀.storage.pathPrefix := by
    intro c hc
    induction hc with
    | refl => exact ⟨poolInv_start reqs w₀, rfl⟩
    | @tail c c' _ hstep ih =>
      obtain ⟨i, hcareful, hstep⟩ := hstep
      refine ⟨poolInv_step ih.1 hcareful hstep, ?_⟩
      cases hstep with
      | step hi => rw [meaning_pathPrefix]; exact ih.2
  obtain ⟨⟨_, hagree⟩, hpre⟩ := hinv _ hrun
  dsimp only at hagree hpre
  rcases hagree d with ha | ⟨⟨j, _, _, hu⟩, _⟩ | ⟨hna, hb⟩
  · exact ha
  · exfalso
    rw [hpre] at hu
    have hbegun : ∀ p, ps[j]? = some p → (∀ r, p ≠ .ret r) →
        (∀ e, ¬ Before w₀.storage.pathPrefix e p) → False := by
      intro p hp hret hbef
      rcases hquiet j p hp with hs | ⟨r, rfl⟩
      · rw [handlers, List.getElem?_map, Option.map_eq_some_iff] at hs
        obtain ⟨r, _, rfl⟩ := hs
        exact hbef r.1 (before_start _ _ _)
      · exact hret r rfl
    obtain ⟨v, hv | ⟨data, hv⟩⟩ := hu
    · exact hbegun _ hv (fun _ h => by cases h) fun _ => not_before_walking
    · exact hbegun _ hv (fun _ h => by cases h) fun _ => not_before_storing
  · rcases hd with ha | ⟨i, version, v, hr, hp⟩
    · exact absurd ha hna
    · exact absurd (hb i _ version hr hp) not_before_released

def twoVersions : World where
  storage := .fresh "/srv".toList srv_ne_nil (.new ⟨80, [], [], none, none, .default, []⟩)
  disk := (Disk.empty.withFile "/srv/www.a.com/1/index.html".toList [49]).withFile
    "/srv/www.a.com/2/index.html".toList [50]

theorem careful_of_op {reqs : List (Str × Option UInt32)} {i : Nat} {ps : List Handler}
    {w : World} {op : Op} {next : op.Reply → Handler} (hi : ps[i]? = some (.call op next))
    (hop : ∀ d data, op ≠ .cacheUpdate d data) : Careful reqs i (ps, w) := by
  intro d v data h
  rw [hi] at h
  exact absurd ((Program.call.injEq ..).mp (Option.some.inj h)).1 (hop d data)

theorem storing_inj {d d' : Str} {v v' : UInt32} {data data' : FileMap}
    (h : storing d v data = storing d' v' data') : d = d' ∧ v = v' := by
  obtain ⟨hop, hnext⟩ := (Program.call.injEq ..).mp h
  obtain ⟨rfl, rfl⟩ := (Op.cacheUpdate.injEq ..).mp hop
  exact ⟨rfl, Except.ok.inj (Program.ret.inj (congrFun (eq_of_heq hnext) ()))⟩

def twoReleases : List (Str × Option UInt32) :=
  [("www.a.com".toList, some 1), ("www.a.com".toList, some 2)]

/-- Both write `meta`, the first stores its files while the second has still to read its
own, and the second stores them last: version 2 is reported and cached. -/
theorem releases_agree_overlapping :
    Agrees Crates.simple (follow (meaning Crates.simple) [0, 0, 0, 1, 1, 1, 0, 0, 1, 1]
      (handlers "/srv".toList twoReleases, twoVersions)).2 "www.a.com".toList := by
  refine releases_agree twoReleases twoVersions _ [.ret (.ok 1), .ret (.ok 2)] ?_ ?_ _
    (Or.inr ⟨0, some 1, 1, rfl, rfl⟩)
  · refine .head ⟨0, careful_of_op rfl ?_, .step rfl⟩ (.head ⟨0, careful_of_op rfl ?_, .step rfl⟩
      (.head ⟨0, careful_of_op rfl ?_, .step rfl⟩ (.head ⟨1, careful_of_op rfl ?_, .step rfl⟩
      (.head ⟨1, careful_of_op rfl ?_, .step rfl⟩ (.head ⟨1, careful_of_op rfl ?_, .step rfl⟩
      (.head ⟨0, careful_of_op rfl ?_, .step rfl⟩ (.head ⟨0, ?_, .step rfl⟩
      (.head ⟨1, careful_of_op rfl ?_, .step rfl⟩ (.head ⟨1, ?_, .step rfl⟩ .refl)))))))))
    case refine_8 =>
      -- the second handler has written `meta` and not read its files
      intro d v data h
      obtain ⟨rfl, rfl⟩ := @storing_inj "www.a.com".toList d 1 v
        (twoVersions.snapshot Crates.simple "www.a.com".toList 1) data (Option.some.inj h)
      exact Or.inr ⟨1, by decide, some 2, rfl, 2, Or.inl rfl⟩
    case refine_10 =>
      intro d v data h
      obtain ⟨rfl, rfl⟩ := @storing_inj "www.a.com".toList d 2 v
        (twoVersions.snapshot Crates.simple "www.a.com".toList 2) data (Option.some.inj h)
      exact Or.inl rfl
    all_goals exact fun _ _ => by simp
  · rintro (_ | _ | i) p hp
    · exact Or.inr ⟨_, (Option.some.inj hp).symm⟩
    · exact Or.inr ⟨_, (Option.some.inj hp).symm⟩
    · exact absurd hp (by simp)

/-- The race of two releases: the first writes `meta`, the second releases its version
whole, then the first stores its files. -/
def raceEnd : World :=
  (follow (meaning Crates.simple) [0, 0, 0, 1, 1, 1, 1, 1, 0, 0]
    (handlers "/srv".toList twoReleases, twoVersions)).2

theorem race_disagrees :
    ¬ ∀ (reqs : List (Str × Option UInt32)) (ps : List Handler) (w : World),
      PoolRun (meaning Crates.simple) (fun _ _ => True)
        (handlers twoVersions.storage.pathPrefix reqs, twoVersions) (ps, w) →
      Quiescent twoVersions.storage.pathPrefix reqs ps →
      ∀ d, (∃ (i : Nat) (version : Option UInt32) (v : UInt32),
        reqs[i]? = some (d, version) ∧ ps[i]? = some (.ret (.ok v))) →
      Agrees Crates.simple w d := by
  intro h
  have hend := h twoReleases [.ret (.ok 1), .ret (.ok 2)] raceEnd
    (follow_run (meaning Crates.simple) [0, 0, 0, 1, 1, 1, 1, 1, 0, 0]
      (handlers "/srv".toList twoReleases, twoVersions)) ?_ "www.a.com".toList ⟨0, some 1, 1, rfl, rfl⟩ "/srv/www.a.com/2".toList 2 rfl
  · have hitem := congrArg (fun m : Option FileMap => (m.bind (· "index.html".toList)).map (·.data))
      hend.2
    revert hitem
    decide +kernel
  · rintro (_ | _ | i) p hp
    · exact Or.inr ⟨_, (Option.some.inj hp).symm⟩
    · exact Or.inr ⟨_, (Option.some.inj hp).symm⟩
    · exact absurd hp (by simp)

end SpaServer
