import SpaServer.Storage.Outcome

/-!
# What `init` finds

`DomainStorage::init` scans the directories of `file_dir` that have a domain name.
Of each it takes the greatest version without a marker to serve, and a version with
a marker as the one being uploaded.  `scanDomain` is that scan of one domain;
`scanDomain_found` says what it finds in terms of the entries on the disk, and
`init_spec` that the storage holds the scans of all domains.
-/

namespace SpaServer

open Base

variable {crates : Crates}

/-! ### The scan of one domain -/

def VersionEntry (dk : Disk) (l : Loc) (name : Str) (v : UInt32) : Prop :=
  dk.node (l ++ [.utf8 name]) ≠ none ∧ parseU32 name = some v

def Marked (dk : Disk) (l : Loc) (name : Str) : Prop :=
  dk.node (l ++ [.utf8 name, .utf8 uploadingFileName]) ≠ none

theorem exists_marker_iff (dk : Disk) {path : PathBuf} {name : Str} (h : Plain name) :
    dk.exists? (push (push path name) uploadingFileName) = true ↔
      Marked dk (dk.locate path) name := by
  have hloc : dk.locate (push (push path name) uploadingFileName) =
      dk.locate path ++ [.utf8 name, .utf8 uploadingFileName] := by
    rw [Disk.locate, locate_push_plain plain_uploadingFileName, locate_push_plain h]
    simp [Disk.locate]
  rw [Marked, Disk.exists?, Disk.find_eq_node (push_ne_nil (by decide) _)
    (mustBeDir_push_plain plain_uploadingFileName _), hloc, Option.isSome_iff_ne_none]

theorem plain_of_entry {dk : Disk} {l : Loc} {name : Str} (h : dk.node (l ++ [.utf8 name]) ≠ none) :
    Plain name := dk.plain _ h (.utf8 name) (by simp)

/-- What a scan that has seen the entries `names` has found. -/
structure Scanned (dk : Disk) (path : PathBuf) (names : List OsName)
    (found : Option UInt32 × UInt32) : Prop where
  uploading : ∀ v, found.1 = some v → ∃ name, .utf8 name ∈ names ∧
    VersionEntry dk (dk.locate path) name v ∧ Marked dk (dk.locate path) name
  noUploading : found.1 = none → ∀ name v, .utf8 name ∈ names →
    VersionEntry dk (dk.locate path) name v → ¬ Marked dk (dk.locate path) name
  le : ∀ name v, .utf8 name ∈ names → VersionEntry dk (dk.locate path) name v →
    ¬ Marked dk (dk.locate path) name → v ≤ found.2
  serving : 0 < found.2 → ∃ name, .utf8 name ∈ names ∧
    VersionEntry dk (dk.locate path) name found.2 ∧ ¬ Marked dk (dk.locate path) name

theorem Scanned.skip {dk : Disk} {path : PathBuf} {names : List OsName}
    {found : Option UInt32 × UInt32} (h : Scanned dk path names found) {name : OsName}
    (hno : ∀ s v, name = .utf8 s → parseU32 s ≠ some v) :
    Scanned dk path (names ++ [name]) found := by
  have hmem : ∀ s v, .utf8 s ∈ names ++ [name] → VersionEntry dk (dk.locate path) s v →
      .utf8 s ∈ names := by
    intro s v hs hv
    rcases List.mem_append.mp hs with hs | hs
    · exact hs
    · exact absurd hv.2 (hno s v (List.mem_singleton.mp hs).symm)
  constructor
  · intro v hv
    obtain ⟨s, hs, hent, hm⟩ := h.uploading v hv
    exact ⟨s, List.mem_append_left _ hs, hent, hm⟩
  · exact fun hn s v hs hent => h.noUploading hn s v (hmem s v hs hent) hent
  · exact fun s v hs hent => h.le s v (hmem s v hs hent) hent
  · intro hpos
    obtain ⟨s, hs, hent, hm⟩ := h.serving hpos
    exact ⟨s, List.mem_append_left _ hs, hent, hm⟩

theorem scanned_step {dk : Disk} {path : PathBuf} {names : List OsName}
    {found : Option UInt32 × UInt32} (h : Scanned dk path names found) {name : OsName}
    (hn : dk.node (dk.locate path ++ [name]) ≠ none) :
    Scanned dk path (names ++ [name]) (scanVersion dk path found name) := by
  rw [scanVersion]
  cases name with
  | bytes b => exact h.skip fun s v he => by simp at he
  | utf8 t =>
  dsimp only [OsName.toStr_utf8]
  cases hv : parseU32 t with
  | none => exact h.skip fun s v he => by simp [← OsName.utf8.inj he, hv]
  | some u =>
  dsimp only
  have hent : VersionEntry dk (dk.locate path) t u := ⟨hn, hv⟩
  have hmark := @exists_marker_iff dk path t (plain_of_entry hn)
  have hlast : .utf8 t ∈ names ++ [.utf8 t] := by simp
  -- an entry seen is an earlier one, or the new one with its number
  have hmem : ∀ {s v}, .utf8 s ∈ names ++ [.utf8 t] → VersionEntry dk (dk.locate path) s v →
      .utf8 s ∈ names ∨ s = t ∧ v = u := by
    intro s v hs hsv
    rcases List.mem_append.mp hs with hs | hs
    · exact Or.inl hs
    · obtain rfl := OsName.utf8.inj (List.mem_singleton.mp hs)
      exact Or.inr ⟨rfl, Option.some.inj (hsv.2.symm.trans hv)⟩
  have hserving : 0 < found.2 → ∃ s, .utf8 s ∈ names ++ [.utf8 t] ∧
      VersionEntry dk (dk.locate path) s found.2 ∧ ¬ Marked dk (dk.locate path) s := fun hpos => by
    obtain ⟨s, hs, hsv, hm⟩ := h.serving hpos
    exact ⟨s, List.mem_append_left _ hs, hsv, hm⟩
  have huploading : ∀ v, found.1 = some v → ∃ s, .utf8 s ∈ names ++ [.utf8 t] ∧
      VersionEntry dk (dk.locate path) s v ∧ Marked dk (dk.locate path) s := fun v hf => by
    obtain ⟨s, hs, hsv, hm⟩ := h.uploading v hf
    exact ⟨s, List.mem_append_left _ hs, hsv, hm⟩
  by_cases hm : Marked dk (dk.locate path) t
  · rw [if_pos (hmark.mpr hm)]
    refine ⟨fun v he => ?_, fun he => absurd he (by simp), fun s v hs hsv hnm => ?_, hserving⟩
    · obtain rfl := Option.some.inj he
      exact ⟨t, hlast, hent, hm⟩
    · rcases hmem hs hsv with hs | ⟨rfl, _⟩
      · exact h.le s v hs hsv hnm
      · exact absurd hm hnm
  rw [if_neg (fun he => hm (hmark.mp he))]
  have hnoUploading : found.1 = none → ∀ s v, .utf8 s ∈ names ++ [.utf8 t] →
      VersionEntry dk (dk.locate path) s v → ¬ Marked dk (dk.locate path) s := by
    intro hf s v hs hsv
    rcases hmem hs hsv with hs | ⟨rfl, _⟩
    · exact h.noUploading hf s v hs hsv
    · exact hm
  by_cases hlt : found.2 < u
  · rw [if_pos hlt]
    refine ⟨huploading, hnoUploading, fun s v hs hsv hnm => ?_, fun _ => ⟨t, hlast, hent, hm⟩⟩
    rcases hmem hs hsv with hs | ⟨_, rfl⟩
    · exact UInt32.le_trans (h.le s v hs hsv hnm) (UInt32.le_of_lt hlt)
    · exact UInt32.le_refl v
  · rw [if_neg hlt]
    refine ⟨huploading, hnoUploading, fun s v hs hsv hnm => ?_, hserving⟩
    rcases hmem hs hsv with hs | ⟨_, rfl⟩
    · exact h.le s v hs hsv hnm
    · exact UInt32.not_lt.mp hlt

/-- **What the scan of the listed entries finds.** -/
theorem scanned {dk : Disk} {path : PathBuf} {names : List OsName}
    (h : ∀ name ∈ names, dk.node (dk.locate path ++ [name]) ≠ none) :
    Scanned dk path names (names.foldl (scanVersion dk path) (none, 0)) := by
  have hfold : ∀ rest seen found, Scanned dk path seen found →
      (∀ name ∈ rest, dk.node (dk.locate path ++ [name]) ≠ none) →
      Scanned dk path (seen ++ rest) (rest.foldl (scanVersion dk path) found) := by
    intro rest
    induction rest with
    | nil => intro seen found hs _; rwa [List.append_nil]
    | cons name rest ih =>
      intro seen found hs hr
      have hnext := ih (seen ++ [name]) _ (scanned_step hs (hr name List.mem_cons_self))
        fun n hn => hr n (List.mem_cons_of_mem _ hn)
      rwa [List.append_assoc, List.singleton_append] at hnext
  have := hfold names [] (none, 0) ⟨by simp, by simp, by simp, by simp⟩ h
  simpa using this

/-! ### The scan of all domains -/

def DomainDir (dk : Disk) (path : PathBuf) (d : Str) : Prop :=
  dk.node (dk.locate path ++ [.utf8 d]) = some .dir ∧ uriRegex.isMatch d = true

def scanDomain (dk : Disk) (path : PathBuf) (d : Str) : Option UInt32 × UInt32 :=
  match dk.readDir (push path d) with
  | .ok names => names.foldl (scanVersion dk (push path d)) (none, 0)
  | .error _ => (none, 0)

/-- What the scan of a domain directory finds, in terms of its entries. -/
structure Found (dk : Disk) (l : Loc) (found : Option UInt32 × UInt32) : Prop where
  uploading : ∀ v, found.1 = some v → ∃ name, VersionEntry dk l name v ∧ Marked dk l name
  noUploading : found.1 = none → ∀ name v, VersionEntry dk l name v → ¬ Marked dk l name
  le : ∀ name v, VersionEntry dk l name v → ¬ Marked dk l name → v ≤ found.2
  serving : 0 < found.2 → ∃ name, VersionEntry dk l name found.2 ∧ ¬ Marked dk l name

theorem scanDomain_found {dk : Disk} {path : PathBuf} {d : Str} (hp : path ≠ [])
    (hd : DomainDir dk path d) :
    Found dk (dk.locate path ++ [.utf8 d]) (scanDomain dk path d) := by
  have hplain : Plain d := plain_of_entry (by rw [hd.1]; simp)
  have hloc : dk.locate (push path d) = dk.locate path ++ [.utf8 d] := locate_push_plain hplain _ _
  obtain ⟨names, hnames⟩ := Disk.readDir_of_dir (Disk.find_of_dir (push_ne_nil_left hp d)
    (by rw [hloc]; exact hd.1))
  have hmem := fun c => Disk.mem_readDir hnames (c := c)
  have hs := scanned fun name hn => (hmem name).mp hn
  rw [scanDomain, hnames]
  rw [hloc] at hmem
  obtain ⟨h1, h2, h3, h4⟩ := hs
  rw [hloc] at h1 h2 h3 h4
  constructor
  · intro v hv
    obtain ⟨name, _, he⟩ := h1 v hv
    exact ⟨name, he⟩
  · exact fun hn name v he => h2 hn name v ((hmem _).mpr he.1) he
  · exact fun name v he => h3 name v ((hmem _).mpr he.1) he
  · intro hpos
    obtain ⟨name, _, he⟩ := h4 hpos
    exact ⟨name, he⟩

def markedVersion (dk : Disk) (domainPath : PathBuf) (name : OsName) : Option UInt32 :=
  name.toStr.bind fun s => (parseU32 s).filter fun _ =>
    dk.exists? (push (push domainPath s) uploadingFileName)

/-- The number of the last entry with a marker, in the order of the listing. -/
def lastMarked (dk : Disk) (domainPath : PathBuf) : Option UInt32 :=
  match dk.readDir domainPath with
  | .ok names => (names.filterMap (markedVersion dk domainPath)).getLast?
  | .error _ => none

theorem scanVersion_uploading (dk : Disk) (path : PathBuf) (acc : Option UInt32 × UInt32)
    (name : OsName) : (scanVersion dk path acc name).1 = (markedVersion dk path name).or acc.1 := by
  unfold scanVersion markedVersion
  cases name.toStr with
  | none => rfl
  | some s =>
    dsimp only [Option.bind_some]
    cases parseU32 s with
    | none => rfl
    | some v =>
      dsimp only
      cases hm : dk.exists? (push (push path s) uploadingFileName) with
      | true => simp [Option.filter]
      | false =>
        simp only [Bool.false_eq_true, if_false, Option.filter, Option.none_or]
        split <;> rfl

/-- **The scan takes the last entry with a marker** for the version being uploaded. -/
theorem scanDomain_uploading (dk : Disk) (path : PathBuf) (d : Str) :
    (scanDomain dk path d).1 = lastMarked dk (push path d) := by
  unfold scanDomain lastMarked
  cases dk.readDir (push path d) with
  | error e => rfl
  | ok names =>
    have hfold : ∀ acc, (names.foldl (scanVersion dk (push path d)) acc).1 =
        ((names.filterMap (markedVersion dk (push path d))).getLast?).or acc.1 := by
      induction names with
      | nil => exact fun _ => rfl
      | cons name names ih =>
        intro acc
        rw [List.foldl_cons, ih, scanVersion_uploading, List.filterMap_cons]
        cases markedVersion dk (push path d) name with
        | none => rfl
        | some v =>
          dsimp only
          rw [List.getLast?_cons]
          cases (names.filterMap (markedVersion dk (push path d))).getLast? <;> rfl
    rw [hfold]
    exact Option.or_none

def HoldsScan (crates : Crates) (dk : Disk) (st : DomainStorage) (d : Str) : Prop :=
  let found := scanDomain dk st.pathPrefix d
  st.uploadingStatus d = found.1 ∧
    if 0 < found.2 then
      st.domainMeta d = some (getVersionPath st.pathPrefix d found.2, found.2) ∧
        st.cache.data d = some (st.cache.conf.cacheDir crates dk d
          (getVersionPath st.pathPrefix d found.2))
    else st.domainMeta d = none

/-- What the loop of `init` has made of the domains seen so far. -/
structure InitInv (crates : Crates) (dk : Disk) (path : PathBuf) (cache : FileCache)
    (seen : List OsName) (st : DomainStorage) : Prop where
  pathPrefix : st.pathPrefix = path
  conf : st.cache.conf = cache.conf
  holds : ∀ d, .utf8 d ∈ seen → DomainDir dk path d → HoldsScan crates dk st d
  fresh : ∀ d, ¬ (.utf8 d ∈ seen ∧ DomainDir dk path d) →
    st.uploadingStatus d = none ∧ st.domainMeta d = none

theorem isDir_push_iff (dk : Disk) {path : PathBuf} (hp : path ≠ []) {d : Str} (h : Plain d) :
    dk.isDir (push path d) = true ↔ dk.node (dk.locate path ++ [.utf8 d]) = some .dir := by
  have hloc : dk.locate (push path d) = dk.locate path ++ [.utf8 d] := locate_push_plain h _ _
  rw [Disk.isDir, Disk.find_eq_node (push_ne_nil_left hp d) (mustBeDir_push_plain h _), hloc,
    decide_eq_true_eq]

/-- What one round of the loop does to the storage. -/
theorem initDomain_cases {dk : Disk} {st st' : DomainStorage} {name : OsName}
    (h : initDomain crates dk st name = .ok st')
    (hn : dk.node (dk.locate st.pathPrefix ++ [name]) ≠ none) :
    ∃ d, name = .utf8 d ∧
      (¬ DomainDir dk st.pathPrefix d ∧ st' = st ∨
      DomainDir dk st.pathPrefix d ∧
        st'.pathPrefix = st.pathPrefix ∧ st'.cache.conf = st.cache.conf ∧
        st'.uploadingStatus = (match (scanDomain dk st.pathPrefix d).1 with
          | some v => st.uploadingStatus.insert d v
          | none => st.uploadingStatus) ∧
        if 0 < (scanDomain dk st.pathPrefix d).2 then
          st'.domainMeta = st.domainMeta.insert d
            (getVersionPath st.pathPrefix d (scanDomain dk st.pathPrefix d).2,
              (scanDomain dk st.pathPrefix d).2) ∧
          st'.cache.data = st.cache.data.insert d (st.cache.conf.cacheDir crates dk d
            (getVersionPath st.pathPrefix d (scanDomain dk st.pathPrefix d).2))
        else st'.domainMeta = st.domainMeta ∧ st'.cache = st.cache) := by
  rw [initDomain] at h
  cases name with
  | bytes b => exact absurd h (by simp [OsName.toStr])
  | utf8 d =>
  refine ⟨d, rfl, ?_⟩
  have hdir := isDir_push_iff dk st.prefixNe (plain_of_entry hn)
  dsimp only [OsName.toStr_utf8] at h
  by_cases hd : DomainDir dk st.pathPrefix d
  case neg =>
    rw [if_neg (fun hc => hd ⟨hdir.mp hc.1, hc.2⟩)] at h
    exact Or.inl ⟨hd, (Except.ok.inj h).symm⟩
  refine Or.inr ⟨hd, ?_⟩
  rw [if_pos ⟨hdir.mpr hd.1, hd.2⟩] at h
  cases hr : dk.readDir (push st.pathPrefix d) with
  | error e => rw [hr] at h; exact absurd h (by simp)
  | ok names =>
  have hscan : scanDomain dk st.pathPrefix d =
      names.foldl (scanVersion dk (push st.pathPrefix d)) (none, 0) := by rw [scanDomain, hr]
  rw [hr] at h
  dsimp only at h
  rw [← hscan] at h
  generalize scanDomain dk st.pathPrefix d = found at h ⊢
  obtain ⟨u, m⟩ := found
  dsimp only at h ⊢
  by_cases hm : 0 < m
  · rw [if_pos hm] at h ⊢
    obtain rfl := Except.ok.inj h
    cases u <;> exact ⟨rfl, rfl, rfl, rfl, rfl⟩
  · rw [if_neg hm] at h ⊢
    obtain rfl := Except.ok.inj h
    cases u <;> exact ⟨rfl, rfl, rfl, rfl, rfl⟩

theorem initInv_step {dk : Disk} {path : PathBuf} {cache : FileCache} {seen : List OsName}
    {st st' : DomainStorage} {name : OsName} (hinv : InitInv crates dk path cache seen st)
    (h : initDomain crates dk st name = .ok st') (hn : dk.node (dk.locate path ++ [name]) ≠ none) :
    InitInv crates dk path cache (seen ++ [name]) st' := by
  obtain ⟨rfl, hconf, hholds, hfresh⟩ := hinv
  obtain ⟨d, rfl, ⟨hno, hst⟩ | ⟨hd, hpre, hconf', hup, hserve⟩⟩ := initDomain_cases h hn
  · rw [hst]
    have hmem : ∀ e, DomainDir dk st.pathPrefix e → .utf8 e ∈ seen ++ [.utf8 d] →
        .utf8 e ∈ seen := by
      intro e he hm
      rcases List.mem_append.mp hm with hm | hm
      · exact hm
      · obtain rfl := OsName.utf8.inj (List.mem_singleton.mp hm)
        exact absurd he hno
    exact ⟨rfl, hconf, fun e hm he => hholds e (hmem e he hm) he,
      fun e hnot => hfresh e fun hc => hnot ⟨List.mem_append_left _ hc.1, hc.2⟩⟩
  -- the domain before this round: scanned already, or not yet recorded
  have hbefore : (∀ v, (scanDomain dk st.pathPrefix d).1 ≠ some v) → st.uploadingStatus d = none := by
    intro hv
    by_cases hs : .utf8 d ∈ seen
    · rw [(hholds d hs hd).1]
      exact Option.eq_none_iff_forall_not_mem.mpr hv
    · exact (hfresh d fun hc => hs hc.1).1
  have hbefore' : ¬ 0 < (scanDomain dk st.pathPrefix d).2 → st.domainMeta d = none := by
    intro hz
    by_cases hs : .utf8 d ∈ seen
    · have := (hholds d hs hd).2
      rwa [if_neg hz] at this
    · exact (hfresh d fun hc => hs hc.1).2
  have hother : ∀ e, e ≠ d → st'.uploadingStatus e = st.uploadingStatus e ∧
      st'.domainMeta e = st.domainMeta e ∧ st'.cache.data e = st.cache.data e := by
    intro e he
    have hu : st'.uploadingStatus e = st.uploadingStatus e := by
      rw [hup]
      cases (scanDomain dk st.pathPrefix d).1 with
      | none => rfl
      | some v => exact DashMap.insert_of_ne _ he _
    refine ⟨hu, ?_⟩
    split at hserve
    · rw [hserve.1, hserve.2]
      exact ⟨DashMap.insert_of_ne _ he _, DashMap.insert_of_ne _ he _⟩
    · rw [hserve.1, hserve.2]
      exact ⟨rfl, rfl⟩
  refine ⟨hpre, hconf'.trans hconf, fun e hm he => ?_, fun e hnot => ?_⟩
  · rw [HoldsScan, hpre, hconf']
    by_cases hed : e = d
    · subst hed
      constructor
      · rw [hup]
        cases hf : (scanDomain dk st.pathPrefix e).1 with
        | none => exact hbefore (by simp [hf])
        | some v => exact DashMap.insert_self _ _ _
      · split
        · next hpos =>
          rw [if_pos hpos] at hserve
          rw [hserve.1, hserve.2]
          exact ⟨DashMap.insert_self _ _ _, DashMap.insert_self _ _ _⟩
        · next hz =>
          rw [if_neg hz] at hserve
          rw [hserve.1]
          exact hbefore' hz
    · obtain ⟨h1, h2, h3⟩ := hother e hed
      rw [h1, h2, h3]
      rcases List.mem_append.mp hm with hm | hm
      · exact hholds e hm he
      · exact absurd (OsName.utf8.inj (List.mem_singleton.mp hm)) hed
  · have hed : e ≠ d := by
      rintro rfl
      exact hnot ⟨by simp, hd⟩
    obtain ⟨h1, h2, _⟩ := hother e hed
    rw [h1, h2]
    exact hfresh e fun hc => hnot ⟨List.mem_append_left _ hc.1, hc.2⟩

/-- **What `init` makes**: a storage that holds the scan of every domain directory,
and nothing for any other domain. -/
theorem init_spec {dk : Disk} {path : PathBuf} {cache : FileCache} {st : DomainStorage}
    (h : DomainStorage.init crates dk path cache = .ok st) :
    st.pathPrefix = path ∧ st.cache.conf = cache.conf ∧
      (∀ d, DomainDir dk path d → HoldsScan crates dk st d ∧
        Found dk (dk.locate path ++ [.utf8 d]) (scanDomain dk path d)) ∧
      ∀ d, ¬ DomainDir dk path d → st.uploadingStatus d = none ∧ st.domainMeta d = none := by
  rw [DomainStorage.init] at h
  split at h
  case isFalse => exact absurd h (by simp)
  case isTrue hex =>
  cases hr : dk.readDir path with
  | error e => rw [hr] at h; exact absurd h (by simp)
  | ok names =>
  rw [hr] at h
  dsimp only at h
  have hmem := fun c => Disk.mem_readDir hr (c := c)
  have hfold : ∀ rest seen st₀, InitInv crates dk path cache seen st₀ →
      (∀ name ∈ rest, dk.node (dk.locate path ++ [name]) ≠ none) →
      rest.foldlM (initDomain crates dk) st₀ = .ok st →
      InitInv crates dk path cache (seen ++ rest) st := by
    intro rest
    induction rest with
    | nil =>
      intro seen st₀ hinv _ hok
      obtain rfl := Except.ok.inj hok
      rwa [List.append_nil]
    | cons name rest ih =>
      intro seen st₀ hinv hnodes hok
      rw [List.foldlM_cons] at hok
      cases hs : initDomain crates dk st₀ name with
      | error e => rw [hs] at hok; exact absurd hok (by simp [bind, Except.bind])
      | ok st₁ =>
        rw [hs] at hok
        have hnext := ih (seen ++ [name]) st₁
          (initInv_step hinv hs (hnodes name List.mem_cons_self))
          (fun n hn => hnodes n (List.mem_cons_of_mem _ hn)) hok
        rwa [List.append_assoc, List.singleton_append] at hnext
  obtain ⟨hpath, hconf, hholds, hfresh⟩ := hfold names [] _
    ⟨rfl, rfl, by simp, fun _ _ => ⟨rfl, rfl⟩⟩ (fun c hc => (hmem c).mp hc) h
  refine ⟨hpath, hconf, fun d hd => ⟨hholds d ?_ hd, ?_⟩, fun d hd => hfresh d fun hc => hd hc.2⟩
  · simpa using (hmem _).mpr (by rw [hd.1]; simp)
  · exact scanDomain_found (dk.ne_nil_of_exists hex) hd

theorem ne_nil_of_init {dk : Disk} {path : PathBuf} {cache : FileCache} {st : DomainStorage}
    (h : DomainStorage.init crates dk path cache = .ok st) : path ≠ [] := by
  rw [← (init_spec h).1]
  exact st.prefixNe

theorem isDir_of_init {dk : Disk} {path : PathBuf} {cache : FileCache} {st : DomainStorage}
    (h : DomainStorage.init crates dk path cache = .ok st) : dk.isDir path = true := by
  unfold DomainStorage.init at h
  split at h
  case isFalse => exact absurd h nofun
  case isTrue =>
    unfold Disk.isDir
    unfold Disk.readDir at h
    cases hf : dk.find path with
    | none => rw [hf] at h; exact absurd h nofun
    | some n =>
      cases n with
      | file f => rw [hf] at h; exact absurd h nofun
      | dir => exact decide_eq_true rfl

theorem initDomain_ok_iff (dk : Disk) (st : DomainStorage) (name : OsName) :
    (∃ st', initDomain crates dk st name = .ok st') ↔ ∃ d, name = .utf8 d := by
  unfold initDomain
  cases name with
  | bytes b => exact ⟨fun ⟨_, h⟩ => absurd h nofun, fun ⟨_, h⟩ => absurd h nofun⟩
  | utf8 d =>
    refine ⟨fun _ => ⟨d, rfl⟩, fun _ => ?_⟩
    dsimp only [OsName.toStr_utf8]
    split
    case isFalse => exact ⟨st, rfl⟩
    case isTrue hdir =>
      obtain ⟨names, hnames⟩ := Disk.readDir_of_dir (of_decide_eq_true hdir.1)
      rw [hnames]
      dsimp only
      generalize names.foldl (scanVersion dk (push st.pathPrefix d)) (none, 0) = found
      obtain ⟨u, m⟩ := found
      dsimp only
      by_cases hm : 0 < m
      · exact ⟨_, if_pos hm⟩
      · exact ⟨_, if_neg hm⟩

/-- **`init` goes through just when every name in the directory has text.** -/
theorem init_ok_iff {dk : Disk} {path : PathBuf} (cache : FileCache)
    (hdir : dk.isDir path = true) :
    (∃ st, DomainStorage.init crates dk path cache = .ok st) ↔
      ∀ c, dk.node (dk.locate path ++ [c]) ≠ none → ∃ d, c = .utf8 d := by
  have hfind : dk.find path = some .dir := of_decide_eq_true hdir
  have hex : dk.exists? path = true := by
    unfold Disk.exists?
    rw [hfind]
    rfl
  obtain ⟨names, hnames⟩ := Disk.readDir_of_dir hfind
  have hmem := fun c => Disk.mem_readDir hnames (c := c)
  have hfold : ∀ (rest : List OsName) (st : DomainStorage),
      (∃ st', rest.foldlM (initDomain crates dk) st = .ok st') ↔
        ∀ c ∈ rest, ∃ d, c = .utf8 d := by
    intro rest
    induction rest with
    | nil => exact fun st => ⟨fun _ => nofun, fun _ => ⟨st, rfl⟩⟩
    | cons name rest ih =>
      intro st
      rw [List.forall_mem_cons, ← @initDomain_ok_iff crates dk st name, List.foldlM_cons]
      cases initDomain crates dk st name with
      | error e => exact ⟨fun ⟨_, h⟩ => absurd h nofun, fun ⟨⟨_, h⟩, _⟩ => absurd h nofun⟩
      | ok st₁ => exact (ih st₁).trans ⟨fun h => ⟨⟨st₁, rfl⟩, h⟩, And.right⟩
  unfold DomainStorage.init
  rw [dif_pos hex, hnames]
  dsimp only
  rw [hfold]
  exact forall_congr' fun c => by rw [hmem]

theorem initDomain_cache {dk : Disk} {st st' : DomainStorage} {name : OsName}
    (h : initDomain crates dk st name = .ok st') (d : Str) :
    (st'.domainMeta d).isSome ∨
      st'.domainMeta d = st.domainMeta d ∧ st'.cache.data d = st.cache.data d := by
  rw [initDomain] at h
  cases name with
  | bytes b => exact absurd h nofun
  | utf8 e =>
  dsimp only [OsName.toStr_utf8] at h
  split at h
  case isFalse =>
    obtain rfl := Except.ok.inj h
    exact Or.inr ⟨rfl, rfl⟩
  cases hr : dk.readDir (push st.pathPrefix e) with
  | error err => rw [hr] at h; exact absurd h nofun
  | ok names =>
  rw [hr] at h
  dsimp only at h
  generalize names.foldl (scanVersion dk (push st.pathPrefix e)) (none, 0) = found at h
  obtain ⟨u, m⟩ := found
  dsimp only at h
  by_cases hm : 0 < m
  · rw [if_pos hm] at h
    obtain rfl := Except.ok.inj h
    by_cases hd : d = e
    · subst hd
      exact Or.inl (by cases u <;> simp)
    · refine Or.inr ?_
      cases u <;> exact ⟨DashMap.insert_of_ne _ hd _, DashMap.insert_of_ne _ hd _⟩
  · rw [if_neg hm] at h
    obtain rfl := Except.ok.inj h
    cases u <;> exact Or.inr ⟨rfl, rfl⟩

/-- **`init` caches nothing for a domain that it does not serve.** -/
theorem init_cache {dk : Disk} {path : PathBuf} {cache : FileCache} {st : DomainStorage}
    (h : DomainStorage.init crates dk path cache = .ok st) {d : Str}
    (hd : st.domainMeta d = none) : st.cache.data d = cache.data d := by
  rw [DomainStorage.init] at h
  split at h
  case isFalse => exact absurd h nofun
  cases hr : dk.readDir path with
  | error e => rw [hr] at h; exact absurd h nofun
  | ok names =>
  rw [hr] at h
  dsimp only at h
  have hfold : ∀ (rest : List OsName) (st₀ : DomainStorage),
      rest.foldlM (initDomain crates dk) st₀ = .ok st →
      st₀.domainMeta d = none ∧ st.cache.data d = st₀.cache.data d := by
    intro rest
    induction rest with
    | nil =>
      intro st₀ hok
      obtain rfl := Except.ok.inj hok
      exact ⟨hd, rfl⟩
    | cons name rest ih =>
      intro st₀ hok
      rw [List.foldlM_cons] at hok
      cases hs : initDomain crates dk st₀ name with
      | error e => rw [hs] at hok; exact absurd hok nofun
      | ok st₁ =>
        rw [hs] at hok
        obtain ⟨hnone, hcache⟩ := ih st₁ hok
        rcases initDomain_cache hs d with hsome | ⟨hmeta, hsame⟩
        · rw [hnone] at hsome
          exact absurd hsome Bool.noConfusion
        · exact ⟨hmeta ▸ hnone, hcache.trans hsame⟩
  exact (hfold names _ h).2

/-! ### What `init` serves -/

structure NewestComplete (dk : Disk) (path : PathBuf) (d : Str) (v : UInt32) : Prop where
  dir : DomainDir dk path d
  pos : 0 < v
  entry : ∃ name, VersionEntry dk (dk.locate path ++ [.utf8 d]) name v ∧
    ¬ Marked dk (dk.locate path ++ [.utf8 d]) name
  le : ∀ name u, VersionEntry dk (dk.locate path ++ [.utf8 d]) name u →
    ¬ Marked dk (dk.locate path ++ [.utf8 d]) name → u ≤ v

/-- The newest complete version is served, from the files it has now. -/
theorem init_newest {dk : Disk} {path : PathBuf} {cache : FileCache} {st : DomainStorage}
    (h : DomainStorage.init crates dk path cache = .ok st) {d : Str} {v : UInt32}
    (hv : NewestComplete dk path d v) :
    st.domainMeta d = some (getVersionPath path d v, v) ∧
      st.cache.data d = some (cache.conf.cacheDir crates dk d (getVersionPath path d v)) := by
  obtain ⟨rfl, hconf, hdirs, _⟩ := init_spec h
  obtain ⟨⟨_, hserve⟩, hfound⟩ := hdirs d hv.dir
  generalize scanDomain dk st.pathPrefix d = found at hserve hfound
  obtain ⟨name, hent, hnot⟩ := hv.entry
  have hle := hfound.le name v hent hnot
  have hpos : 0 < found.2 := UInt32.lt_of_lt_of_le hv.pos hle
  obtain ⟨name', hent', hnot'⟩ := hfound.serving hpos
  have hsame : found.2 = v := UInt32.le_antisymm (hv.le name' _ hent' hnot') hle
  rw [if_pos hpos, hsame, hconf] at hserve
  exact hserve

theorem init_serving {dk : Disk} {path : PathBuf} {cache : FileCache} {st : DomainStorage}
    (h : DomainStorage.init crates dk path cache = .ok st) (d : Str) (v : UInt32) :
    (st.domainMeta d).map (·.2) = some v ↔ NewestComplete dk path d v := by
  constructor
  · intro hserving
    obtain ⟨rfl, _, hdirs, hnone⟩ := init_spec h
    by_cases hd : DomainDir dk st.pathPrefix d
    case neg =>
      rw [(hnone d hd).2] at hserving
      exact absurd hserving nofun
    obtain ⟨⟨_, hserve⟩, hfound⟩ := hdirs d hd
    generalize scanDomain dk st.pathPrefix d = found at hserve hfound
    by_cases hpos : 0 < found.2
    · rw [if_pos hpos] at hserve
      rw [hserve.1] at hserving
      obtain rfl := Option.some.inj hserving
      exact ⟨hd, hpos, hfound.serving hpos, hfound.le⟩
    · rw [if_neg hpos] at hserve
      rw [hserve] at hserving
      exact absurd hserving nofun
  · intro hv
    rw [(init_newest h hv).1]
    rfl

end SpaServer
