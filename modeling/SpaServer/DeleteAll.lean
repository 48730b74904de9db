import Mathlib.Data.List.Dedup
import SpaServer.Delete
import SpaServer.Storage.Init

/-!
# Cleaning all domains at once

A delete request without a domain works on what `get_domain_info` finds.  It should do what the
requests for the domain directories do one after another.

* `cleanEach_spec`: these take out the versions picked for each directory as it was at first, in
  any order, since no domain's directories are another's (`clean_sameBelow`).
* `selected_none_iff`: `get_domain_info` finds the domain directories, and `file_dir` itself when
  its own name passes for a domain.  Then its numbered entries are taken for versions of a domain
  of that name.
* `cleansAll_iff`: so the two agree exactly when this last one takes out nothing more.
-/

namespace SpaServer

open Base

variable {crates : Crates} {w : World} {m : Option UInt32}

/-! ### One domain -/

def clean (crates : Crates) (m : Option UInt32) (w : World) (d : Str) : World :=
  (w.serve crates (.removeDomainVersion ⟨some d, m⟩)).2

def cleanEach (crates : Crates) (m : Option UInt32) (ds : List Str) (w : World) : World :=
  ds.foldl (clean crates m) w

def cleanAll (crates : Crates) (m : Option UInt32) (w : World) : World :=
  (w.serve crates (.removeDomainVersion ⟨none, m⟩)).2

def Picked (w : World) (m : Option UInt32) (d : Str) (v : UInt32) : Prop :=
  v ∈ listedVersions w.disk (push w.storage.pathPrefix d) ∧
    Doomed (w.serving d) (listedVersions w.disk (push w.storage.pathPrefix d)).max? m v

theorem targets_some_iff {d e : Str} {v : UInt32} :
    Targets w ⟨some d, m⟩ e v ↔ e = d ∧ Picked w m d v := by
  constructor
  · rintro ⟨path, ⟨rfl, rfl⟩, hlisted, hdoomed⟩
    exact ⟨rfl, hlisted, hdoomed⟩
  · rintro ⟨rfl, hlisted, hdoomed⟩
    exact ⟨_, ⟨rfl, rfl⟩, hlisted, hdoomed⟩

theorem clean_spec (crates : Crates) (m : Option UInt32) (w : World) (d : Str) :
    OnDisk w (clean crates m w d) fun r => ∃ v, Picked w m d v ∧ r = w.versionLoc d v := by
  obtain ⟨hst, hdk⟩ := @delete_spec crates w ⟨some d, m⟩
  refine ⟨hst, hdk.congr fun r => ?_⟩
  simp only [targets_some_iff]
  constructor
  · rintro ⟨_, v, ⟨rfl, hv⟩, rfl⟩
    exact ⟨v, hv, rfl⟩
  · rintro ⟨v, hv, rfl⟩
    exact ⟨d, v, ⟨rfl, hv⟩, rfl⟩

/-! ### Domains apart -/

theorem max?_congr {xs ys : List UInt32} (h : ∀ v, v ∈ xs ↔ v ∈ ys) : xs.max? = ys.max? := by
  cases hx : xs.max? with
  | none =>
    rw [List.max?_eq_none_iff] at hx
    subst hx
    have hys : ys = [] := List.eq_nil_iff_forall_not_mem.mpr fun v hv =>
      absurd ((h v).mpr hv) List.not_mem_nil
    rw [hys]
    rfl
  | some a =>
    cases hy : ys.max? with
    | none =>
      rw [List.max?_eq_none_iff] at hy
      subst hy
      exact absurd ((h a).mp (List.max?_mem hx)) List.not_mem_nil
    | some b =>
      have hab := (List.max?_le_iff hy).mp (UInt32.le_refl b) a ((h a).mp (List.max?_mem hx))
      have hba := (List.max?_le_iff hx).mp (UInt32.le_refl a) b ((h b).mpr (List.max?_mem hy))
      rw [UInt32.le_antisymm hab hba]

theorem Picked.congr {w' : World} {d : Str} (hst : w'.storage = w.storage)
    (hsame : w.disk.SameBelow w'.disk (push w.storage.pathPrefix d)) {v : UInt32} :
    Picked w' m d v ↔ Picked w m d v := by
  have hlisted : ∀ u, u ∈ listedVersions w'.disk (push w.storage.pathPrefix d) ↔
      u ∈ listedVersions w.disk (push w.storage.pathPrefix d) := by
    intro u
    rw [mem_listedVersions, mem_listedVersions]
    simp only [hsame.mem_walkDir]
  unfold Picked World.serving
  rw [hst, hlisted v, max?_congr hlisted]

theorem versionLoc_not_below {d e : Str} (hd : Plain d) (he : Plain e) (hne : d ≠ e) {v : UInt32}
    {l : Loc} (hl : w.domainLoc e <+: l) : ¬ w.versionLoc d v <+: l := by
  intro hpre
  obtain ⟨t, rfl⟩ := hl
  rw [w.versionLoc_plain hd, w.domainLoc_plain he, List.append_assoc,
    List.prefix_append_right_inj] at hpre
  have hhead := List.cons_prefix_cons.mp hpre
  exact hne (OsName.utf8.inj hhead.1)

/-- **Cleaning a domain leaves the directories of the others alone.** -/
theorem clean_sameBelow (crates : Crates) (m : Option UInt32) {d e : Str} (hd : Plain d)
    (he : Plain e) (hne : d ≠ e) :
    w.disk.SameBelow (clean crates m w d).disk (push w.storage.pathPrefix e) := by
  obtain ⟨_, hcwd, hnode⟩ := clean_spec crates m w d
  refine ⟨hcwd, fun l hl => ?_⟩
  rcases hnode l with ⟨_, r, ⟨v, _, rfl⟩, _, hpre⟩ | ⟨hsame, _⟩
  · exact absurd hpre (versionLoc_not_below hd he hne hl)
  · exact hsame

/-- **The requests for some domains** take out what was picked for each at first. -/
theorem cleanEach_spec (crates : Crates) (m : Option UInt32) {ds : List Str} (hnodup : ds.Nodup)
    (hplain : ∀ d ∈ ds, Plain d) (w : World) :
    OnDisk w (cleanEach crates m ds w) fun r =>
      ∃ d ∈ ds, ∃ v, Picked w m d v ∧ r = w.versionLoc d v := by
  induction ds generalizing w with
  | nil => exact ⟨rfl, (Disk.WithoutDirs.refl w.disk).congr (by simp)⟩
  | cons d ds ih =>
    obtain ⟨hnot, hnodup⟩ := List.nodup_cons.mp hnodup
    obtain ⟨hd, hds⟩ := List.forall_mem_cons.mp hplain
    have hfirst := clean_spec crates m w d
    have hpicked : ∀ e ∈ ds, ∀ v, Picked (clean crates m w d) m e v ↔ Picked w m e v :=
      fun e he v => Picked.congr hfirst.1
        (clean_sameBelow crates m hd (hds e he) fun h => hnot (h ▸ he))
    refine hfirst.trans (ih hnodup hds (clean crates m w d)) fun r => ?_
    simp only [hfirst.samePlaces.versionLoc, List.mem_cons]
    constructor
    · rintro (⟨v, hv, rfl⟩ | ⟨e, he, v, hv, rfl⟩)
      · exact ⟨d, Or.inl rfl, v, hv, rfl⟩
      · exact ⟨e, Or.inr he, v, (hpicked e he v).mp hv, rfl⟩
    · rintro ⟨e, rfl | he, v, hv, rfl⟩
      · exact Or.inl ⟨v, hv, rfl⟩
      · exact Or.inr ⟨e, he, v, (hpicked e he v).mpr hv, rfl⟩

/-! ### All domains -/

def rootName (w : World) : Str :=
  (fileName w.storage.pathPrefix).getD w.storage.pathPrefix

/-- `file_dir` itself passes for the directory of a domain. -/
def RootNamed (w : World) : Prop :=
  w.disk.node (w.disk.locate w.storage.pathPrefix) = some .dir ∧
    uriRegex.isMatch (rootName w) = true

theorem selected_none_iff {d : Str} {path : PathBuf} :
    Selected w ⟨none, m⟩ d path ↔
      DomainDir w.disk w.storage.pathPrefix d ∧ path = push w.storage.pathPrefix d ∨
      RootNamed w ∧ d = rootName w ∧ path = w.storage.pathPrefix := by
  constructor
  · rintro ⟨⟨root, rel, node⟩, hmem, hdomain⟩
    obtain ⟨hroot, _, hnode, hdepth⟩ := Disk.mem_walkDir.mp hmem
    obtain rfl : root = w.storage.pathPrefix := hroot
    have hshort : rel.length ≤ 1 := hdepth 1 rfl
    unfold domainOfEntry at hdomain
    cases rel with
    | nil =>
      right
      have hname : (Disk.Entry.fileName ⟨w.storage.pathPrefix, [], node⟩).toStr =
          some (rootName w) := rfl
      have htext : (Disk.Entry.text ⟨w.storage.pathPrefix, [], node⟩) =
          some w.storage.pathPrefix := rfl
      rw [hname, htext] at hdomain
      dsimp only at hdomain hnode
      split at hdomain
      case isTrue h =>
        obtain ⟨rfl, rfl⟩ := Prod.mk.inj (Option.some.inj hdomain)
        rw [List.append_nil, h.1] at hnode
        exact ⟨⟨hnode, h.2⟩, rfl, rfl⟩
      case isFalse => exact absurd hdomain (by simp)
    | cons c rest =>
      obtain rfl : rest = [] := List.eq_nil_of_length_eq_zero (by simpa using hshort)
      left
      cases c with
      | bytes b =>
        have hname : (Disk.Entry.fileName ⟨w.storage.pathPrefix, [.bytes b], node⟩).toStr =
            none := rfl
        rw [hname] at hdomain
        exact absurd hdomain (by simp)
      | utf8 name =>
        have hname : (Disk.Entry.fileName ⟨w.storage.pathPrefix, [.utf8 name], node⟩).toStr =
            some name := rfl
        have htext : (Disk.Entry.text ⟨w.storage.pathPrefix, [.utf8 name], node⟩) =
            some (push w.storage.pathPrefix name) := rfl
        rw [hname, htext] at hdomain
        dsimp only at hdomain hnode
        split at hdomain
        case isTrue h =>
          obtain ⟨rfl, rfl⟩ := Prod.mk.inj (Option.some.inj hdomain)
          rw [h.1] at hnode
          exact ⟨⟨hnode, h.2⟩, rfl⟩
        case isFalse => exact absurd hdomain (by simp)
  · have hfind : w.disk.node (w.disk.locate w.storage.pathPrefix) = some .dir →
        w.disk.find w.storage.pathPrefix ≠ none := by
      intro h
      rw [Disk.find_of_dir w.storage.prefixNe h]
      simp
    rintro (⟨⟨hdir, hmatch⟩, rfl⟩ | ⟨⟨hdir, hmatch⟩, rfl, rfl⟩)
    · have hroot := w.disk.closed (w.disk.locate w.storage.pathPrefix ++ [.utf8 d]) (by simp)
        (by rw [hdir]; simp)
      rw [List.dropLast_concat] at hroot
      refine ⟨⟨w.storage.pathPrefix, [.utf8 d], .dir⟩,
        Disk.mem_walkDir.mpr ⟨rfl, hfind hroot, hdir, by simp⟩, ?_⟩
      exact if_pos ⟨rfl, hmatch⟩
    · refine ⟨⟨w.storage.pathPrefix, [], .dir⟩,
        Disk.mem_walkDir.mpr ⟨rfl, hfind hdir, by rw [List.append_nil, hdir], by simp⟩, ?_⟩
      exact if_pos ⟨rfl, hmatch⟩

def PickedInRoot (w : World) (m : Option UInt32) (v : UInt32) : Prop :=
  RootNamed w ∧ v ∈ listedVersions w.disk w.storage.pathPrefix ∧
    Doomed (w.serving (rootName w)) (listedVersions w.disk w.storage.pathPrefix).max? m v

theorem targets_none_iff {d : Str} {v : UInt32} :
    Targets w ⟨none, m⟩ d v ↔
      DomainDir w.disk w.storage.pathPrefix d ∧ Picked w m d v ∨
      d = rootName w ∧ PickedInRoot w m v := by
  unfold Targets
  simp only [selected_none_iff]
  constructor
  · rintro ⟨_, ⟨hdir, rfl⟩ | ⟨hroot, rfl, rfl⟩, hlisted, hdoomed⟩
    · exact Or.inl ⟨hdir, hlisted, hdoomed⟩
    · exact Or.inr ⟨rfl, hroot, hlisted, hdoomed⟩
  · rintro (⟨hdir, hlisted, hdoomed⟩ | ⟨rfl, hroot, hlisted, hdoomed⟩)
    · exact ⟨_, Or.inl ⟨hdir, rfl⟩, hlisted, hdoomed⟩
    · exact ⟨_, Or.inr ⟨hroot, rfl, rfl⟩, hlisted, hdoomed⟩

theorem DomainDir.plain {dk : Disk} {path : PathBuf} {d : Str} (h : DomainDir dk path d) :
    Plain d := plain_of_entry (by rw [h.1]; simp)

theorem exists_domainDirs (dk : Disk) (path : PathBuf) :
    ∃ ds : List Str, ds.Nodup ∧ ∀ d, d ∈ ds ↔ DomainDir dk path d := by
  classical
  refine ⟨((dk.dom.filterMap fun l => l.getLast?.bind OsName.toStr).filter
    fun d => DomainDir dk path d).dedup, List.nodup_dedup _, fun d => ?_⟩
  rw [List.mem_dedup, List.mem_filter, decide_eq_true_iff]
  refine and_iff_right_of_imp fun h => List.mem_filterMap.mpr ?_
  refine ⟨dk.locate path ++ [.utf8 d], (dk.mem_dom _).mpr (by rw [h.1]; simp), ?_⟩
  rw [List.getLast?_concat]
  rfl

/-! ### One after another or all at once -/

/-- What a delete request without a domain should do: what those for the domain directories do in
any order, none of which gets in the way of another. -/
structure CleansAll (crates : Crates) (w : World) (m : Option UInt32) : Prop where
  all : ∀ ds : List Str, ds.Nodup →
    (∀ d, d ∈ ds ↔ DomainDir w.disk w.storage.pathPrefix d) →
    ∀ l, (cleanAll crates m w).disk.node l = (cleanEach crates m ds w).disk.node l
  files : ∀ d e, DomainDir w.disk w.storage.pathPrefix d →
    DomainDir w.disk w.storage.pathPrefix e → d ≠ e →
    w.disk.SameBelow (clean crates m w d).disk (push w.storage.pathPrefix e)
  outcome : ∀ d e, DomainDir w.disk w.storage.pathPrefix d →
    DomainDir w.disk w.storage.pathPrefix e → d ≠ e →
    (clean crates m w e).disk.SameBelow (clean crates m (clean crates m w d) e).disk
      (push w.storage.pathPrefix e)

/-- What is picked in `file_dir` itself goes with what is picked for the domain directories. -/
def RootHarmless (w : World) (m : Option UInt32) : Prop :=
  ∀ v, PickedInRoot w m v → w.disk.node (w.versionLoc (rootName w) v) = some .dir →
    ∃ d u, DomainDir w.disk w.storage.pathPrefix d ∧ Picked w m d u ∧
      w.disk.node (w.versionLoc d u) = some .dir ∧
      w.versionLoc d u <+: w.versionLoc (rootName w) v

theorem withoutDirs_node_eq {dk dk₁ dk₂ : Disk} {gone₁ gone₂ : Loc → Prop}
    (h₁ : dk.WithoutDirs dk₁ gone₁) (h₂ : dk.WithoutDirs dk₂ gone₂) {l : Loc}
    (h : (∃ r, gone₁ r ∧ dk.node r = some .dir ∧ r <+: l) ↔
      ∃ r, gone₂ r ∧ dk.node r = some .dir ∧ r <+: l) : dk₁.node l = dk₂.node l := by
  rcases h₁.2 l with ⟨hl₁, hr₁⟩ | ⟨hl₁, hr₁⟩
  · rcases h₂.2 l with ⟨hl₂, _⟩ | ⟨_, hr₂⟩
    · rw [hl₁, hl₂]
    · exact absurd (h.mp hr₁) hr₂
  · rcases h₂.2 l with ⟨_, hr₂⟩ | ⟨hl₂, _⟩
    · exact absurd (h.mpr hr₂) hr₁
    · rw [hl₁, hl₂]

/-- **The outcome of cleaning a domain** is the same after another one was cleaned. -/
theorem clean_outcome (crates : Crates) (m : Option UInt32) {d e : Str} (hd : Plain d)
    (he : Plain e) (hne : d ≠ e) :
    (clean crates m w e).disk.SameBelow (clean crates m (clean crates m w d) e).disk
      (push w.storage.pathPrefix e) := by
  have hone := (clean_spec crates m w e).2
  have hboth := (cleanEach_spec crates m (List.nodup_cons.mpr ⟨by simpa using hne,
    List.nodup_singleton e⟩) (List.forall_mem_cons.mpr ⟨hd, by simpa using he⟩) w).2
  refine ⟨hboth.1.trans hone.1.symm, fun l hl => withoutDirs_node_eq hboth hone ?_⟩
  have hbelow : w.domainLoc e <+: l := by
    have hloc : (clean crates m w e).disk.locate (push w.storage.pathPrefix e) = w.domainLoc e := by
      unfold Disk.locate
      rw [hone.1]
      rfl
    rwa [hloc] at hl
  constructor
  · rintro ⟨_, ⟨d', hd', v, hv, rfl⟩, hdir, hpre⟩
    rcases List.mem_cons.mp hd' with rfl | hd'
    · exact absurd hpre (versionLoc_not_below hd he hne hbelow)
    · obtain rfl := List.mem_singleton.mp hd'
      exact ⟨_, ⟨v, hv, rfl⟩, hdir, hpre⟩
  · rintro ⟨_, ⟨v, hv, rfl⟩, hdir, hpre⟩
    exact ⟨_, ⟨e, List.mem_cons_of_mem _ (List.mem_singleton_self e), v, hv, rfl⟩, hdir, hpre⟩

/-- **Cleaning all domains at once** is cleaning each, exactly when nothing more is lost by taking
`file_dir` for a domain. -/
theorem cleansAll_iff (crates : Crates) (w : World) (m : Option UInt32) :
    CleansAll crates w m ↔ RootHarmless w m := by
  have hall := (@delete_spec crates w ⟨none, m⟩).2
  have heach : ∀ ds : List Str, ds.Nodup →
      (∀ d, d ∈ ds ↔ DomainDir w.disk w.storage.pathPrefix d) → w.disk.WithoutDirs
        (cleanEach crates m ds w).disk fun r => ∃ d ∈ ds, ∃ v, Picked w m d v ∧ r = w.versionLoc d v :=
    fun ds hnodup hmem =>
      (cleanEach_spec crates m hnodup (fun d hd => ((hmem d).mp hd).plain) w).2
  constructor
  · intro h v hv hdir
    obtain ⟨ds, hnodup, hmem⟩ := exists_domainDirs w.disk w.storage.pathPrefix
    have hsome : w.disk.node (w.versionLoc (rootName w) v) ≠ none := by
      rw [hdir]
      simp
    have hgone := (hall.node_eq_none hsome).mpr
      ⟨_, ⟨rootName w, v, targets_none_iff.mpr (Or.inr ⟨rfl, hv⟩), rfl⟩, hdir, List.prefix_refl _⟩
    have hlost := (h.all ds hnodup hmem (w.versionLoc (rootName w) v)).symm.trans hgone
    obtain ⟨_, ⟨d, hd, u, hu, rfl⟩, hdir', hpre⟩ := ((heach ds hnodup hmem).node_eq_none hsome).mp hlost
    exact ⟨d, u, (hmem d).mp hd, hu, hdir', hpre⟩
  · intro h
    refine ⟨fun ds hnodup hmem l => withoutDirs_node_eq hall (heach ds hnodup hmem) ?_,
      fun d e hd he hne => clean_sameBelow crates m hd.plain he.plain hne,
      fun d e hd he hne => clean_outcome crates m hd.plain he.plain hne⟩
    constructor
    · rintro ⟨_, ⟨d, v, htarget, rfl⟩, hdir, hpre⟩
      rcases targets_none_iff.mp htarget with ⟨hd, hv⟩ | ⟨rfl, hv⟩
      · exact ⟨_, ⟨d, (hmem d).mpr hd, v, hv, rfl⟩, hdir, hpre⟩
      · obtain ⟨d, u, hd, hu, hdir', hpre'⟩ := h v hv hdir
        exact ⟨_, ⟨d, (hmem d).mpr hd, u, hu, rfl⟩, hdir', hpre'.trans hpre⟩
    · rintro ⟨_, ⟨d, hd, v, hv, rfl⟩, hdir, hpre⟩
      exact ⟨_, ⟨d, v, targets_none_iff.mpr (Or.inl ⟨(hmem d).mp hd, hv⟩), rfl⟩, hdir, hpre⟩

theorem www_ne_nil : "/srv/www.a.com".toList ≠ [] := by decide

def namedRoot : World where
  storage := .fresh "/srv/www.a.com".toList www_ne_nil (.new ⟨80, [], [], none, none, .default, []⟩)
  disk := ((Disk.empty.withDir "/srv/www.a.com/www.a.com/5".toList).withDir
    "/srv/www.a.com/5".toList).withDir "/srv/www.a.com/9".toList

/-- The version goes with a reserve of 2, since there is a 9 in `file_dir`. -/
theorem namedRoot_cleaned : ¬ CleansAll Crates.simple namedRoot (some 2) := by
  intro h
  have hmem : ∀ d, d ∈ ["www.a.com".toList] ↔
      DomainDir namedRoot.disk namedRoot.storage.pathPrefix d := by
    have honly : ∀ l ∈ namedRoot.disk.dom, l.length = 3 →
        (l.getLast?.bind OsName.toStr).all
          (fun d => !uriRegex.isMatch d || d = "www.a.com".toList) = true := by decide +kernel
    intro d
    constructor
    · intro hd
      obtain rfl := List.mem_singleton.mp hd
      exact ⟨by decide +kernel, by decide +kernel⟩
    · rintro ⟨hdir, hmatch⟩
      have hdom := (namedRoot.disk.mem_dom _).mpr (by rw [hdir]; simp)
      have hname := honly _ hdom (by
        rw [List.length_append, List.length_singleton]
        decide +kernel)
      rw [List.getLast?_concat] at hname
      rw [show ((some (OsName.utf8 d)).bind OsName.toStr) = some d from rfl, Option.all_some, hmatch,
        Bool.not_true, Bool.false_or, decide_eq_true_iff] at hname
      exact List.mem_singleton.mpr hname
  have hsame := h.all _ (List.nodup_singleton _) hmem
    (namedRoot.versionLoc "www.a.com".toList 5)
  exact absurd hsame (by decide +kernel)

end SpaServer
