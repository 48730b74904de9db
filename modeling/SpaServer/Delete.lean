import Mathlib.Algebra.Group.Nat.Defs
import SpaServer.AdminServer

/-!
# What a delete request takes out

`service::remove_domain_version`, the body of `files/delete` and of the scheduled
task.  `Doomed` is the arithmetic of its choice, over natural numbers, and
`Targets` the versions it picks among those listed on the disk.  `delete_spec`
says that the disk afterwards is the disk before without the directories of these.

`KeepsLive` is what a retention rule has to keep: the serving version and the one
being uploaded stay, and with a reserve just the versions older than that go.
`delete_keepsLive_iff` is the exact condition on the state before.  For one
domain it comes down to arithmetic: `Doomed.serving_iff` says that the serving
version is picked just when the reserve is greater than its number, for then the
subtraction wraps.
-/

namespace SpaServer

open Base Program

variable {crates : Crates}

/-! ### The choice of versions -/

/-- Version `v` is to go, with this serving version, greatest listed version and reserve. -/
inductive Doomed (current newest : Option UInt32) : Option UInt32 → UInt32 → Prop
  | old {m c v : UInt32} (hc : current.or newest = some c) (h : v.toNat + m.toNat < c.toNat) :
      Doomed current newest (some m) v
  | wrapped {m c v : UInt32} (hc : current.or newest = some c) (hcm : c < m)
      (h : v.toNat + m.toNat < c.toNat + 2 ^ 32) : Doomed current newest (some m) v
  | other {c v : UInt32} (hc : current = some c) (h : v ≠ c) : Doomed current newest none v
  | unserved {v : UInt32} (hc : current = none) (h : v ≠ 4294967295) :
      Doomed current newest none v

/-- The `u32` comparison of the source, over natural numbers. -/
theorem lt_sub_iff (v c m : UInt32) :
    v < c - m ↔ v.toNat + m.toNat < c.toNat ∨ c < m ∧ v.toNat + m.toNat < c.toNat + 2 ^ 32 := by
  have hv := v.toNat_lt
  have hc := c.toNat_lt
  have hm := m.toNat_lt
  rw [UInt32.lt_iff_toNat_lt, UInt32.lt_iff_toNat_lt, UInt32.toNat_sub]
  omega

theorem mem_deleteVersions {m : Option UInt32} {info : DomainInfo} {v : UInt32} :
    v ∈ Service.deleteVersions m info ↔
      v ∈ info.versions ∧ Doomed info.currentVersion info.versions.max? m v := by
  cases m with
  | none =>
    simp only [Service.deleteVersions, List.mem_filter, decide_eq_true_eq]
    refine and_congr_right fun _ => ?_
    cases hc : info.currentVersion with
    | none =>
      constructor
      · exact .unserved rfl
      · rintro (_ | _ | ⟨he, _⟩ | ⟨_, h⟩)
        · exact absurd he (by simp)
        · exact h
    | some c =>
      constructor
      · exact .other rfl
      · rintro (_ | _ | ⟨he, h⟩ | ⟨he, _⟩)
        · cases he; exact h
        · exact absurd he (by simp)
  | some m =>
    rw [Service.deleteVersions]
    cases hc : info.currentVersion.or info.versions.max? with
    | none =>
      refine ⟨fun h => absurd h List.not_mem_nil, fun h => ?_⟩
      rcases h.2 with h' | h'
      · rw [hc] at h'; exact absurd h' (by simp)
      · rw [hc] at h'; exact absurd h' (by simp)
    | some c =>
      simp only [List.mem_filter, decide_eq_true_eq, lt_sub_iff]
      refine and_congr_right fun _ => ⟨?_, ?_⟩
      · rintro (h | ⟨hcm, h⟩)
        · exact .old hc h
        · exact .wrapped hc hcm h
      · rintro (⟨hc', h⟩ | ⟨hc', hcm, h⟩)
        · obtain rfl := Option.some.inj (hc.symm.trans hc')
          exact Or.inl h
        · obtain rfl := Option.some.inj (hc.symm.trans hc')
          exact Or.inr ⟨hcm, h⟩

/-- **The serving version is picked just when the reserve exceeds it.** -/
theorem Doomed.serving_iff {c : UInt32} {newest m : Option UInt32} :
    Doomed (some c) newest m c ↔ ∃ r, m = some r ∧ c < r := by
  constructor
  · rintro (⟨hc, h⟩ | ⟨hc, hcm, h⟩ | ⟨hc, h⟩ | ⟨hc, _⟩)
    · obtain rfl := Option.some.inj hc
      omega
    · obtain rfl := Option.some.inj hc
      exact ⟨_, rfl, hcm⟩
    · exact absurd (Option.some.inj hc).symm h.symm
    · exact absurd hc (by simp)
  · rintro ⟨r, rfl, h⟩
    exact .wrapped rfl h (by have := r.toNat_lt; omega)

/-! ### What goes -/

def Selected (w : World) (q : DeleteDomainVersionOption) (d : Str) (path : PathBuf) : Prop :=
  match q.domain with
  | some domain => d = domain ∧ path = push w.storage.pathPrefix domain
  | none => ∃ e ∈ w.disk.walkDir w.storage.pathPrefix (some 1), domainOfEntry e = some (d, path)

def Targets (w : World) (q : DeleteDomainVersionOption) (d : Str) (v : UInt32) : Prop :=
  ∃ path, Selected w q d path ∧ v ∈ listedVersions w.disk path ∧
    Doomed (w.serving d) (listedVersions w.disk path).max? q.maxReserve v

def OnDisk (w w' : World) (gone : Loc → Prop) : Prop :=
  w'.storage = w.storage ∧ w.disk.WithoutDirs w'.disk gone

theorem OnDisk.samePlaces {w w' : World} {gone : Loc → Prop} (h : OnDisk w w' gone) :
    SamePlaces w w' := ⟨by rw [h.1], h.2.1⟩

theorem removeDomainVersion_spec (w : World) (d : Str) (v : UInt32) :
    OnDisk w ((removeDomainVersion w.storage.pathPrefix d (some v)).run (meaning crates) w).2
      fun r => r = w.versionLoc d v := by
  have hm : mustBeDir (getVersionPath w.storage.pathPrefix d v) = false :=
    mustBeDir_push_plain (plain_toDecimal v) _
  have hl : w.disk.locate (getVersionPath w.storage.pathPrefix d v) ≠ [] := by
    rw [w.locate_versionPath]
    exact w.versionLoc_ne_nil d v
  have hspec := w.disk.removeDirAll_spec (versionPath_ne_nil _ d v) hm hl
  rw [w.locate_versionPath] at hspec
  simp only [removeDomainVersion, perform_bind, run_call, meaning]
  cases hex : w.disk.exists? (push (push w.storage.pathPrefix d) (toDecimal v)) with
  | true =>
    simp only [run_call, meaning]
    split <;> exact ⟨rfl, hspec⟩
  | false =>
    refine ⟨rfl, rfl, fun l => Or.inr ⟨rfl, ?_⟩⟩
    rintro ⟨r, rfl, hd, _⟩
    rw [← w.find_versionPath, getVersionPath] at hd
    rw [Disk.exists?, hd] at hex
    simp at hex

theorem OnDisk.trans {w w₁ w₂ : World} {gone gone' both : Loc → Prop} (h : OnDisk w w₁ gone)
    (h' : OnDisk w₁ w₂ gone') (hboth : ∀ r, gone r ∨ gone' r ↔ both r) : OnDisk w w₂ both :=
  ⟨h'.1.trans h.1, (h.2.trans h'.2).congr hboth⟩

theorem removeVersions_spec (d : Str) (vs : List UInt32) (w : World) :
    OnDisk w ((Service.removeVersions w.storage.pathPrefix d vs).run (meaning crates) w).2
      fun r => ∃ v ∈ vs, r = w.versionLoc d v := by
  induction vs generalizing w with
  | nil => exact ⟨rfl, (Disk.WithoutDirs.refl w.disk).congr (by simp)⟩
  | cons v vs ih =>
    have hv := @removeDomainVersion_spec crates w d v
    rw [Service.removeVersions, run_bind]
    have hvs := ih ((removeDomainVersion w.storage.pathPrefix d (some v)).run (meaning crates) w).2
    rw [run_pathPrefix] at hvs
    refine hv.trans hvs fun r => ?_
    simp [hv.samePlaces.versionLoc]

theorem removeDomains_spec (m : Option UInt32) (infos : List DomainInfo) (w : World) :
    OnDisk w ((Service.removeDomains w.storage.pathPrefix m infos).run (meaning crates) w).2
      fun r => ∃ i ∈ infos, ∃ v ∈ Service.deleteVersions m i, r = w.versionLoc i.domain v := by
  induction infos generalizing w with
  | nil => exact ⟨rfl, (Disk.WithoutDirs.refl w.disk).congr (by simp)⟩
  | cons i infos ih =>
    have hi := @removeVersions_spec crates i.domain (Service.deleteVersions m i) w
    rw [Service.removeDomains, run_bind]
    have hrest := ih ((Service.removeVersions w.storage.pathPrefix i.domain
      (Service.deleteVersions m i)).run (meaning crates) w).2
    rw [run_pathPrefix] at hrest
    refine hi.trans hrest fun r => ?_
    simp [hi.samePlaces.versionLoc]

theorem domainInfos_run (entries : List Disk.Entry) (w : World) :
    (domainInfos entries).run (meaning crates) w =
      ((entries.filterMap domainOfEntry).map fun e =>
        ⟨e.1, w.serving e.1, listedVersions w.disk e.2⟩, w) := by
  induction entries with
  | nil => rfl
  | cons e es ih =>
    rw [domainInfos]
    cases he : domainOfEntry e with
    | none => rw [List.filterMap_cons_none he]; exact ih
    | some x =>
      rw [List.filterMap_cons_some he]
      simp only [perform_bind, run_call, meaning, run_bind, ih]
      rfl

def infos (w : World) (q : DeleteDomainVersionOption) : List DomainInfo :=
  match q.domain with
  | some d =>
    match listedVersions w.disk (push w.storage.pathPrefix d) with
    | [] => []
    | versions => [⟨d, w.serving d, versions⟩]
  | none =>
    ((w.disk.walkDir w.storage.pathPrefix (some 1)).filterMap domainOfEntry).map fun e =>
      ⟨e.1, w.serving e.1, listedVersions w.disk e.2⟩

theorem domainsInfo_run (w : World) (q : DeleteDomainVersionOption) :
    (Service.domainsInfo w.storage.pathPrefix q).run (meaning crates) w = (infos w q, w) := by
  rw [Service.domainsInfo, infos]
  cases q.domain with
  | some d =>
    simp only [run_bind, getDomainInfoByDomain_run]
    cases listedVersions w.disk (push w.storage.pathPrefix d) <;> rfl
  | none =>
    simp only [getDomainInfo, perform_bind, run_call, meaning, domainInfos_run]

theorem targets_iff (w : World) (q : DeleteDomainVersionOption) (d : Str) (v : UInt32) :
    Targets w q d v ↔
      ∃ i ∈ infos w q, i.domain = d ∧ v ∈ Service.deleteVersions q.maxReserve i := by
  simp only [mem_deleteVersions]
  constructor
  · rintro ⟨path, hs, hv, hdoom⟩
    refine ⟨⟨d, w.serving d, listedVersions w.disk path⟩, ?_, rfl, hv, hdoom⟩
    rw [Selected] at hs
    rw [infos]
    cases hq : q.domain with
    | some domain =>
      rw [hq] at hs
      obtain ⟨rfl, rfl⟩ := hs
      dsimp only
      cases hl : listedVersions w.disk (push w.storage.pathPrefix d) with
      | nil => rw [hl] at hv; exact absurd hv List.not_mem_nil
      | cons u us => exact List.mem_singleton.mpr rfl
    | none =>
      rw [hq] at hs
      obtain ⟨e, he, hd⟩ := hs
      exact List.mem_map.mpr ⟨(d, path), List.mem_filterMap.mpr ⟨e, he, hd⟩, rfl⟩
  · rintro ⟨i, hi, rfl, hv, hdoom⟩
    rw [infos] at hi
    cases hq : q.domain with
    | some domain =>
      rw [hq] at hi
      dsimp only at hi
      cases hl : listedVersions w.disk (push w.storage.pathPrefix domain) with
      | nil => rw [hl] at hi; exact absurd hi List.not_mem_nil
      | cons u us =>
        rw [hl] at hi
        obtain rfl := List.mem_singleton.mp hi
        exact ⟨push w.storage.pathPrefix domain, by rw [Selected, hq]; exact ⟨rfl, rfl⟩,
          by rw [hl]; exact hv, by rw [hl]; exact hdoom⟩
    | none =>
      rw [hq] at hi
      obtain ⟨⟨d, path⟩, he, rfl⟩ := List.mem_map.mp hi
      obtain ⟨e, he, hd⟩ := List.mem_filterMap.mp he
      exact ⟨path, by rw [Selected, hq]; exact ⟨e, he, hd⟩, hv, hdoom⟩

/-- **What a delete request does**: it takes out the directories of its targets and
leaves everything else. -/
theorem delete_spec (w : World) (q : DeleteDomainVersionOption) :
    OnDisk w (w.serve crates (.removeDomainVersion q)).2
      fun r => ∃ d v, Targets w q d v ∧ r = w.versionLoc d v := by
  have hrun : (w.serve crates (.removeDomainVersion q)).2 =
      ((Service.removeDomains w.storage.pathPrefix q.maxReserve (infos w q)).run
        (meaning crates) w).2 := by
    simp only [World.serve, handle, Service.removeDomainVersion, run_bind, domainsInfo_run]
    rfl
  rw [hrun]
  obtain ⟨hst, hdk⟩ := @removeDomains_spec crates q.maxReserve (infos w q) w
  refine ⟨hst, hdk.congr fun r => ?_⟩
  simp only [targets_iff]
  constructor
  · rintro ⟨i, hi, v, hv, rfl⟩
    exact ⟨i.domain, v, ⟨i, hi, rfl, hv⟩, rfl⟩
  · rintro ⟨d, v, ⟨i, hi, rfl, hv⟩, rfl⟩
    exact ⟨i, hi, v, hv, rfl⟩

/-! ### Keeping what is live -/

def World.Live (w : World) (d : Str) (v : UInt32) : Prop :=
  w.serving d = some v ∨ w.storage.uploadingStatus d = some v

/-- The query is about `d`: it names it, or it names none and `d` is one of the
domain directories. -/
def Covers (w : World) (q : DeleteDomainVersionOption) (d : Str) : Prop :=
  match q.domain with
  | some domain => d = domain
  | none => Plain d ∧ uriRegex.isMatch d = true ∧ w.disk.node (w.domainLoc d) = some .dir

/-- What a delete request has to keep: it removes no live version, and with a
reserve `m` it removes of a domain served at `c` just the `v` with `v + m < c`. -/
structure KeepsLive (crates : Crates) (w : World) (q : DeleteDomainVersionOption) : Prop where
  live : ∀ d v, w.Live d v → w.disk.node (w.versionLoc d v) = some .dir →
    (w.serve crates (.removeDomainVersion q)).2.disk.node (w.versionLoc d v) ≠ none
  reserve : ∀ m d c, q.maxReserve = some m → Covers w q d → w.serving d = some c →
    ∀ v, w.disk.node (w.versionLoc d v) = some .dir →
      ((w.serve crates (.removeDomainVersion q)).2.disk.node (w.versionLoc d v) = none ↔
        v.toNat + m.toNat < c.toNat)

/-- No target is live, nor above a live version, nor above one the reserve protects. -/
def TargetsHarmless (w : World) (q : DeleteDomainVersionOption) : Prop :=
  ∀ d' v', Targets w q d' v' → w.disk.node (w.versionLoc d' v') = some .dir →
    ∀ d v, w.disk.node (w.versionLoc d v) = some .dir → w.versionLoc d' v' <+: w.versionLoc d v →
      ¬ w.Live d v ∧ ∀ m c, q.maxReserve = some m → Covers w q d → w.serving d = some c →
        v.toNat + m.toNat < c.toNat

theorem exists_selected {w : World} {q : DeleteDomainVersionOption} {d : Str} {v : UInt32}
    (hc : Covers w q d) (hv : w.disk.node (w.versionLoc d v) = some .dir) :
    ∃ path, Selected w q d path ∧ v ∈ listedVersions w.disk path := by
  have hlist : v ∈ listedVersions w.disk (push w.storage.pathPrefix d) :=
    mem_listedVersions_of_dir (w.domainPath_ne_nil d) (by
      show w.disk.node (w.versionLoc d v) ≠ none
      rw [hv]; simp)
  rw [Covers] at hc
  cases hq : q.domain with
  | some domain =>
    rw [hq] at hc
    obtain rfl : d = domain := hc
    exact ⟨_, by rw [Selected, hq]; exact ⟨rfl, rfl⟩, hlist⟩
  | none =>
    rw [hq] at hc
    obtain ⟨hplain, hregex, hdir⟩ := hc
    refine ⟨_, ?_, hlist⟩
    rw [Selected, hq]
    have hloc : w.domainLoc d = w.disk.locate w.storage.pathPrefix ++ [.utf8 d] :=
      locate_push_plain hplain _ _
    rw [hloc] at hdir
    have hroot := w.disk.closed (w.disk.locate w.storage.pathPrefix ++ [.utf8 d]) (by simp)
      (by rw [hdir]; simp)
    rw [List.dropLast_concat] at hroot
    refine ⟨⟨w.storage.pathPrefix, [.utf8 d], .dir⟩, Disk.mem_walkDir.mpr
      ⟨rfl, ?_, hdir, by simp⟩, ?_⟩
    · rw [Disk.find_of_dir w.storage.prefixNe hroot]; simp
    · simp [domainOfEntry, Disk.Entry.fileName, Disk.Entry.text, hregex]

theorem delete_keepsLive_iff (w : World) (q : DeleteDomainVersionOption) :
    KeepsLive crates w q ↔ TargetsHarmless w q := by
  obtain ⟨_, hdk⟩ := @delete_spec crates w q
  constructor
  · intro hk d' v' ht hd' d v hd hpre
    have hgone := (hdk.node_eq_none (by rw [hd]; simp)).mpr
      ⟨_, ⟨d', v', ht, rfl⟩, hd', hpre⟩
    refine ⟨fun hl => hk.live d v hl hd hgone, fun m c hm hcov hs => ?_⟩
    exact (hk.reserve m d c hm hcov hs v hd).mp hgone
  · intro hh
    constructor
    · intro d v hl hd hgone
      obtain ⟨r, ⟨d', v', ht, rfl⟩, hd', hpre⟩ :=
        (hdk.node_eq_none (by rw [hd]; simp)).mp hgone
      exact (hh d' v' ht hd' d v hd hpre).1 hl
    · intro m d c hm hcov hs v hd
      constructor
      · intro hgone
        obtain ⟨r, ⟨d', v', ht, rfl⟩, hd', hpre⟩ :=
          (hdk.node_eq_none (by rw [hd]; simp)).mp hgone
        exact (hh d' v' ht hd' d v hd hpre).2 m c hm hcov hs
      · intro hlt
        obtain ⟨path, hsel, hlist⟩ := exists_selected hcov hd
        refine (hdk.node_eq_none (by rw [hd]; simp)).mpr ⟨_, ⟨d, v, ?_, rfl⟩, hd,
          List.prefix_refl _⟩
        refine ⟨path, hsel, hlist, ?_⟩
        rw [hm]
        exact .old (by rw [hs]; rfl) hlt

/-- **For plainly named domains the condition is arithmetic**: the reserve does not
exceed the serving version, unless nothing on the disk is below the wrapped bound,
and the version being uploaded is not picked. -/
theorem targetsHarmless_iff_of_plain {w : World} {q : DeleteDomainVersionOption} {d : Str}
    (hq : q.domain = some d) (hd : Plain d) (hlive : ∀ d v, w.Live d v → Plain d) :
    TargetsHarmless w q ↔
      (∀ m c, q.maxReserve = some m → w.serving d = some c →
        ∀ v, w.disk.node (w.versionLoc d v) = some .dir →
          m ≤ c ∨ c.toNat + 2 ^ 32 ≤ v.toNat + m.toNat) ∧
      ∀ u, w.storage.uploadingStatus d = some u → w.disk.node (w.versionLoc d u) = some .dir →
        ¬ Doomed (w.serving d) (listedVersions w.disk (push w.storage.pathPrefix d)).max?
          q.maxReserve u := by
  have hlist : ∀ v, w.disk.node (w.versionLoc d v) = some .dir →
      v ∈ listedVersions w.disk (push w.storage.pathPrefix d) := fun v hv =>
    mem_listedVersions_of_dir (w.domainPath_ne_nil d) (by
      show w.disk.node (w.versionLoc d v) ≠ none
      rw [hv]; simp)
  have htarget : ∀ v, w.disk.node (w.versionLoc d v) = some .dir →
      Doomed (w.serving d) (listedVersions w.disk (push w.storage.pathPrefix d)).max?
        q.maxReserve v → Targets w q d v := fun v hv hdoom =>
    ⟨_, by rw [Selected, hq]; exact ⟨rfl, rfl⟩, hlist v hv, hdoom⟩
  constructor
  · intro h
    refine ⟨fun m c hm hs v hv => ?_, fun u hu hv hdoom => ?_⟩
    · by_contra hno
      rw [not_or, UInt32.not_le, not_le] at hno
      have hdoom : Doomed (w.serving d) (listedVersions w.disk (push w.storage.pathPrefix d)).max?
          q.maxReserve v := by
        rw [hm]
        exact .wrapped (by rw [hs]; rfl) hno.1 hno.2
      have hlt := (h d v (htarget v hv hdoom) hv d v hv (List.prefix_refl _)).2 m c hm
        (by rw [Covers, hq]) hs
      have := UInt32.lt_iff_toNat_lt.mp hno.1
      omega
    · exact (h d u (htarget u hv hdoom) hv d u hv (List.prefix_refl _)).1 (Or.inr hu)
  · rintro ⟨hwrap, hup⟩ d' v' ⟨path, hsel, hmem, hdoom⟩ hd' e v hv hpre
    rw [Selected, hq] at hsel
    obtain ⟨rfl, rfl⟩ := hsel
    have hsame : Plain e → d' = e ∧ v' = v := fun he =>
      w.versionLoc_prefix hd he (t := []) (by simpa using hpre)
    refine ⟨fun hl => ?_, fun m c hm hcov hs => ?_⟩
    · obtain ⟨rfl, rfl⟩ := hsame (hlive e v hl)
      rcases hl with hs | hu
      · rw [hs] at hdoom
        obtain ⟨m, hm, hlt⟩ := Doomed.serving_iff.mp hdoom
        have := UInt32.lt_iff_toNat_lt.mp hlt
        have := m.toNat_lt
        rcases hwrap m v' hm hs v' hv with h | h
        · rw [UInt32.le_iff_toNat_le] at h
          omega
        · omega
      · exact hup v' hu hv hdoom
    · rw [Covers, hq] at hcov
      obtain rfl : e = d' := hcov
      obtain ⟨_, rfl⟩ := hsame hd
      rw [hm, hs] at hdoom
      rcases hdoom with ⟨hc, h⟩ | ⟨hc, hcm, h⟩
      · obtain rfl := Option.some.inj hc
        exact h
      · obtain rfl := Option.some.inj hc
        rcases hwrap m _ hm hs v' hv with h' | h'
        · exact absurd hcm (UInt32.not_lt.mpr h')
        · omega

def firstVersion : World where
  storage := { DomainStorage.fresh "/srv".toList srv_ne_nil (.new ⟨80, [], [], none, none, .default, []⟩) with
    domainMeta := DashMap.empty.insert "www.a.com".toList ("/srv/www.a.com/1".toList, 1) }
  disk := Disk.empty.withDir "/srv/www.a.com/1".toList

/-- With the default reserve of 2 the site is deleted. -/
theorem firstVersion_deleted :
    ¬ KeepsLive Crates.simple firstVersion ⟨some "www.a.com".toList, some 2⟩ := by
  intro h
  refine h.live "www.a.com".toList 1 (Or.inl (by decide)) (by decide) ?_
  decide +kernel

end SpaServer
