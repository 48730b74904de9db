import SpaServer.Markers

/-!
# What the scan should find

`InitExact` is the purpose of `DomainStorage::init`: of every directory named by a host the
newest complete version is served and a version with a marker is recorded as being
uploaded, and nothing else counts.  The code takes more for a domain (any name with a
match of `URI_REGEX` in it) and more for a version (anything `parse::<u32>` reads, be it a
file), and less in two places (version 0, names that are not text).

`serves_iff` and `records_iff` compare the two for one domain, in terms of the entries on
the disk; `init_exact_iff` puts them together.
-/

namespace SpaServer

open Base

variable {crates : Crates}

/-! ### The specification -/

def HostDir (dk : Disk) (path : PathBuf) (d : Str) : Prop :=
  dk.node (dk.locate path ++ [.utf8 d]) = some .dir ∧ uriRegex.matchesWhole d = true

/-- The directory of version `v`, named in plain decimal, is there without a marker. -/
def CompleteDir (dk : Disk) (l : Loc) (v : UInt32) : Prop :=
  dk.node (l ++ [.utf8 (toDecimal v)]) = some .dir ∧ ¬ Marked dk l (toDecimal v)

def UploadingDir (dk : Disk) (l : Loc) (v : UInt32) : Prop :=
  dk.node (l ++ [.utf8 (toDecimal v)]) = some .dir ∧ Marked dk l (toDecimal v)

/-- The storage serves the greatest complete version of `d`, when there is one. -/
structure ServesNewest (crates : Crates) (dk : Disk) (path : PathBuf) (st : DomainStorage)
    (d : Str) : Prop where
  served : st.domainMeta d ≠ none ↔ ∃ v, CompleteDir dk (dk.locate path ++ [.utf8 d]) v
  newest : ∀ p v, st.domainMeta d = some (p, v) → p = getVersionPath path d v ∧
    CompleteDir dk (dk.locate path ++ [.utf8 d]) v ∧
    (∀ u, CompleteDir dk (dk.locate path ++ [.utf8 d]) u → u ≤ v) ∧
    st.cache.data d = some (st.cache.conf.cacheDir crates dk d p)

/-- The storage records a version of `d` with a marker, when there is one. -/
structure RecordsUpload (dk : Disk) (path : PathBuf) (st : DomainStorage) (d : Str) : Prop where
  recorded : st.uploadingStatus d ≠ none ↔
    ∃ v, UploadingDir dk (dk.locate path ++ [.utf8 d]) v
  marked : ∀ v, st.uploadingStatus d = some v → UploadingDir dk (dk.locate path ++ [.utf8 d]) v

/-- What `init` is for. -/
structure InitExact (crates : Crates) (dk : Disk) (path : PathBuf) (cache : FileCache)
    (st : DomainStorage) : Prop where
  serves : ∀ d, HostDir dk path d → ServesNewest crates dk path st d
  records : ∀ d, HostDir dk path d → RecordsUpload dk path st d
  others : ∀ d, ¬ HostDir dk path d → st.domainMeta d = none ∧ st.uploadingStatus d = none ∧
    st.cache.data d = cache.data d

/-! ### Entries and directories of versions -/

theorem HostDir.domainDir {dk : Disk} {path : PathBuf} {d : Str} (h : HostDir dk path d) :
    DomainDir dk path d := ⟨h.1, Regex.isMatch_of_matchesWhole h.2⟩

theorem CompleteDir.entry {dk : Disk} {l : Loc} {v : UInt32} (h : CompleteDir dk l v) :
    VersionEntry dk l (toDecimal v) v ∧ ¬ Marked dk l (toDecimal v) :=
  ⟨⟨by rw [h.1]; exact nofun, parseU32_toDecimal v⟩, h.2⟩

theorem UploadingDir.entry {dk : Disk} {l : Loc} {v : UInt32} (h : UploadingDir dk l v) :
    VersionEntry dk l (toDecimal v) v ∧ Marked dk l (toDecimal v) :=
  ⟨⟨by rw [h.1]; exact nofun, parseU32_toDecimal v⟩, h.2⟩

/-- A complete version above 0 leaves one that is the greatest of the entries. -/
theorem exists_newest {dk : Disk} {path : PathBuf} {d : Str} (hp : path ≠ [])
    (hd : DomainDir dk path d) {name : Str} {v : UInt32} (hv : 0 < v)
    (hent : VersionEntry dk (dk.locate path ++ [.utf8 d]) name v)
    (hm : ¬ Marked dk (dk.locate path ++ [.utf8 d]) name) : ∃ u, NewestComplete dk path d u := by
  have hfound := scanDomain_found hp hd
  have hpos : 0 < (scanDomain dk path d).2 := UInt32.lt_of_lt_of_le hv (hfound.le name v hent hm)
  exact ⟨_, hd, hpos, hfound.serving hpos, hfound.le⟩

/-! ### One domain -/

/-- The greatest version above 0 among the entries without a marker is a directory named
in plain decimal, and there is one unless no version is complete. -/
structure NewestPlain (dk : Disk) (path : PathBuf) (d : Str) : Prop where
  complete : ∀ v, NewestComplete dk path d v → CompleteDir dk (dk.locate path ++ [.utf8 d]) v
  zero : CompleteDir dk (dk.locate path ++ [.utf8 d]) 0 → ∃ v, NewestComplete dk path d v

theorem serves_iff {dk : Disk} {path : PathBuf} {cache : FileCache} {st : DomainStorage}
    (h : DomainStorage.init crates dk path cache = .ok st) {d : Str} (hd : HostDir dk path d) :
    ServesNewest crates dk path st d ↔ NewestPlain dk path d := by
  have hserving := init_serving h d
  have hp := ne_nil_of_init h
  constructor
  · intro hs
    refine ⟨fun v hv => ?_, fun hzero => ?_⟩
    · exact (hs.newest _ v (init_newest h hv).1).2.1
    · obtain ⟨⟨p, v⟩, hv⟩ := Option.ne_none_iff_exists'.mp (hs.served.mpr ⟨0, hzero⟩)
      exact ⟨v, (hserving v).mp (by rw [hv]; rfl)⟩
  · intro hn
    refine ⟨⟨fun hne => ?_, ?_⟩, fun p v hv => ?_⟩
    · obtain ⟨⟨p, v⟩, hv⟩ := Option.ne_none_iff_exists'.mp hne
      exact ⟨v, hn.complete v ((hserving v).mp (by rw [hv]; rfl))⟩
    · rintro ⟨v, hv⟩
      have hnewest : ∃ u, NewestComplete dk path d u := by
        by_cases hpos : 0 < v
        · exact exists_newest hp hd.domainDir hpos hv.entry.1 hv.entry.2
        · obtain rfl : v = 0 := UInt32.le_antisymm (UInt32.not_lt.mp hpos) (UInt32.zero_le)
          exact hn.zero hv
      obtain ⟨u, hu⟩ := hnewest
      rw [(init_newest h hu).1]
      exact nofun
    · have hnewest := (hserving v).mp (by rw [hv]; rfl)
      obtain ⟨hmeta, hcache⟩ := init_newest h hnewest
      obtain rfl : getVersionPath path d v = p :=
        congrArg Prod.fst (Option.some.inj (hmeta.symm.trans hv))
      refine ⟨rfl, hn.complete v hnewest, fun u hu => ?_, ?_⟩
      · exact hnewest.le _ u hu.entry.1 hu.entry.2
      · rw [hcache, (init_spec h).2.1]

/-- The last entry with a marker has the number of a directory with a marker. -/
def MarkedPlain (dk : Disk) (path : PathBuf) (d : Str) : Prop :=
  ∀ v, lastMarked dk (push path d) = some v → UploadingDir dk (dk.locate path ++ [.utf8 d]) v

theorem init_uploading {dk : Disk} {path : PathBuf} {cache : FileCache} {st : DomainStorage}
    (h : DomainStorage.init crates dk path cache = .ok st) {d : Str} (hd : DomainDir dk path d) :
    st.uploadingStatus d = lastMarked dk (push path d) ∧
      Found dk (dk.locate path ++ [.utf8 d]) (scanDomain dk path d) := by
  obtain ⟨rfl, _, hdirs, _⟩ := init_spec h
  obtain ⟨⟨huploading, _⟩, hfound⟩ := hdirs d hd
  exact ⟨huploading.trans (scanDomain_uploading dk _ d), hfound⟩

theorem records_iff {dk : Disk} {path : PathBuf} {cache : FileCache} {st : DomainStorage}
    (h : DomainStorage.init crates dk path cache = .ok st) {d : Str} (hd : HostDir dk path d) :
    RecordsUpload dk path st d ↔ MarkedPlain dk path d := by
  obtain ⟨huploading, hfound⟩ := init_uploading h hd.domainDir
  constructor
  · intro hr v hv
    exact hr.marked v (huploading.trans hv)
  · intro hm
    refine ⟨⟨fun hne => ?_, ?_⟩, fun v hv => hm v (huploading.symm.trans hv)⟩
    · obtain ⟨v, hv⟩ := Option.ne_none_iff_exists'.mp hne
      exact ⟨v, hm v (huploading.symm.trans hv)⟩
    · rintro ⟨v, hv⟩ hnone
      rw [huploading, ← scanDomain_uploading] at hnone
      exact hfound.noUploading hnone _ v hv.entry.1 hv.entry.2

/-! ### The whole tree -/

/-- A tree on which the scan of the code comes to what it should. -/
structure PlainTree (dk : Disk) (path : PathBuf) : Prop where
  names : ∀ c, dk.node (dk.locate path ++ [c]) ≠ none → ∃ d, c = .utf8 d
  newest : ∀ d, HostDir dk path d → NewestPlain dk path d
  marked : ∀ d, HostDir dk path d → MarkedPlain dk path d
  others : ∀ d, DomainDir dk path d → ¬ HostDir dk path d → ∀ name v,
    VersionEntry dk (dk.locate path ++ [.utf8 d]) name v →
      ¬ Marked dk (dk.locate path ++ [.utf8 d]) name ∧ v = 0

/-- A directory that is no host's influences nothing when it has no version to it. -/
theorem others_iff {dk : Disk} {path : PathBuf} {cache : FileCache} {st : DomainStorage}
    (h : DomainStorage.init crates dk path cache = .ok st) {d : Str} (hd : DomainDir dk path d) :
    (st.domainMeta d = none ∧ st.uploadingStatus d = none) ↔ ∀ name v,
      VersionEntry dk (dk.locate path ++ [.utf8 d]) name v →
        ¬ Marked dk (dk.locate path ++ [.utf8 d]) name ∧ v = 0 := by
  obtain ⟨huploading, hfound⟩ := init_uploading h hd
  have hp := ne_nil_of_init h
  constructor
  · rintro ⟨hmeta, hnone⟩ name v hent
    rw [huploading, ← scanDomain_uploading] at hnone
    have hm := hfound.noUploading hnone name v hent
    refine ⟨hm, ?_⟩
    by_contra hv
    have hpos : 0 < v := UInt32.pos_iff_ne_zero.mpr hv
    obtain ⟨u, hu⟩ := exists_newest hp hd hpos hent hm
    rw [(init_newest h hu).1] at hmeta
    exact absurd hmeta nofun
  · intro hall
    constructor
    · cases hm : st.domainMeta d with
      | none => rfl
      | some e =>
        have hnewest := (init_serving h d e.2).mp (by rw [hm]; rfl)
        obtain ⟨name, hent, _⟩ := hnewest.entry
        have hpos := hnewest.pos
        rw [(hall name _ hent).2] at hpos
        exact absurd hpos (by decide)
    · rw [huploading, ← scanDomain_uploading]
      cases hu : (scanDomain dk path d).1 with
      | none => rfl
      | some v =>
        obtain ⟨name, hent, hm⟩ := hfound.uploading v hu
        exact absurd hm (hall name v hent).1

/-- **`init` does what it is for exactly on the plain trees.** -/
theorem init_exact_iff {dk : Disk} {path : PathBuf} (cache : FileCache)
    (hdir : dk.isDir path = true) :
    (∃ st, DomainStorage.init crates dk path cache = .ok st ∧
      InitExact crates dk path cache st) ↔ PlainTree dk path := by
  constructor
  · rintro ⟨st, h, hexact⟩
    exact ⟨(init_ok_iff cache hdir).mp ⟨st, h⟩, fun d hd => (serves_iff h hd).mp (hexact.serves d hd),
      fun d hd => (records_iff h hd).mp (hexact.records d hd), fun d hd hno =>
        (others_iff h hd).mp ⟨(hexact.others d hno).1, (hexact.others d hno).2.1⟩⟩
  · intro htree
    obtain ⟨st, h⟩ := (@init_ok_iff crates _ _ cache hdir).mpr htree.names
    refine ⟨st, h, fun d hd => (serves_iff h hd).mpr (htree.newest d hd),
      fun d hd => (records_iff h hd).mpr (htree.marked d hd), fun d hno => ?_⟩
    have hnone : st.domainMeta d = none ∧ st.uploadingStatus d = none := by
      by_cases hd : DomainDir dk path d
      · exact (others_iff h hd).mpr (htree.others d hd hno)
      · exact ((init_spec h).2.2.2 d hd).symm
    exact ⟨hnone.1, hnone.2, init_cache h hnone.1⟩

def halfUploaded : Disk :=
  (bareDisk.withFile "/srv/www.a.com/1/index.html".toList [1]).withFile
    "/srv/www.a.com/2/.SPA-Processing".toList []

theorem halfUploaded_locate : halfUploaded.locate "/srv".toList = [.utf8 "srv".toList] := by
  decide +kernel

theorem halfUploaded_domain {c : OsName}
    (h : halfUploaded.node (halfUploaded.locate "/srv".toList ++ [c]) ≠ none) :
    c = .utf8 "www.a.com".toList := by
  have hdom : ∀ l ∈ halfUploaded.dom, l.length = 2 →
      l = [.utf8 "srv".toList, .utf8 "www.a.com".toList] := by decide +kernel
  rw [halfUploaded_locate] at h
  simpa using hdom _ ((halfUploaded.mem_dom _).mpr h) rfl

theorem halfUploaded_version {name : Str} (h : halfUploaded.node
      (halfUploaded.locate "/srv".toList ++ [.utf8 "www.a.com".toList] ++ [.utf8 name]) ≠ none) :
    name = toDecimal 1 ∨ name = toDecimal 2 := by
  have hdom : ∀ l ∈ halfUploaded.dom, l.length = 3 →
      l = [.utf8 "srv".toList, .utf8 "www.a.com".toList, .utf8 (toDecimal 1)] ∨
      l = [.utf8 "srv".toList, .utf8 "www.a.com".toList, .utf8 (toDecimal 2)] := by
    decide +kernel
  rw [halfUploaded_locate] at h
  simpa using hdom _ ((halfUploaded.mem_dom _).mpr h) rfl

/-- After a start version 1 is served and version 2 is recorded as being uploaded. -/
theorem init_exact_halfUploaded : ∃ st, DomainStorage.init Crates.simple halfUploaded
    "/srv".toList bareStorage.cache = .ok st ∧
    InitExact Crates.simple halfUploaded "/srv".toList bareStorage.cache st := by
  have hone : CompleteDir halfUploaded (halfUploaded.locate "/srv".toList ++
      [.utf8 "www.a.com".toList]) 1 := by
    unfold CompleteDir Marked
    decide +kernel
  have htwo : UploadingDir halfUploaded (halfUploaded.locate "/srv".toList ++
      [.utf8 "www.a.com".toList]) 2 := by
    unfold UploadingDir Marked
    decide +kernel
  have hdomain : ∀ {d : Str}, DomainDir halfUploaded "/srv".toList d → d = "www.a.com".toList :=
    fun hd => OsName.utf8.inj (halfUploaded_domain (by rw [hd.1]; exact nofun))
  refine (init_exact_iff bareStorage.cache (by decide +kernel)).mpr
    ⟨fun c hc => ⟨_, halfUploaded_domain hc⟩, fun d hd => ?_, fun d hd v hv => ?_,
      fun d hd hno => ?_⟩
  · obtain rfl := hdomain hd.domainDir
    constructor
    · intro v hv
      obtain ⟨name, hent, hm⟩ := hv.entry
      rcases halfUploaded_version hent.1 with rfl | rfl
      · obtain rfl : 1 = v := Option.some.inj ((parseU32_toDecimal 1).symm.trans hent.2)
        exact hone
      · exact absurd htwo.2 hm
    · intro hzero
      rcases halfUploaded_version (by rw [hzero.1]; exact nofun) with h | h
      · exact absurd (toDecimal_injective h) (by decide)
      · exact absurd (toDecimal_injective h) (by decide)
  · obtain rfl := hdomain hd.domainDir
    have hlast : lastMarked halfUploaded (push "/srv".toList "www.a.com".toList) = some 2 := by
      decide +kernel
    obtain rfl : 2 = v := Option.some.inj (hlast.symm.trans hv)
    exact htwo
  · obtain rfl := hdomain hd
    exact absurd ⟨hd.1, by decide +kernel⟩ hno

def numberedFile : Disk :=
  (bareDisk.withFile "/srv/www.a.com/1/index.html".toList [1]).withFile
    "/srv/www.a.com/7".toList [2]

/-- The file is taken for the newest version. -/
theorem numberedFile_served : ¬ ∀ (dk : Disk) (path : PathBuf) (cache : FileCache),
    dk.isDir path = true → ∃ st, DomainStorage.init Crates.simple dk path cache = .ok st ∧
      InitExact Crates.simple dk path cache st := by
  intro hall
  obtain ⟨st, h, hexact⟩ :=
    hall numberedFile "/srv".toList bareStorage.cache (by decide +kernel)
  have hhost : HostDir numberedFile "/srv".toList "www.a.com".toList := by
    unfold HostDir
    decide +kernel
  obtain ⟨hcomplete, _⟩ := (serves_iff h hhost).mp (hexact.serves _ hhost)
  have hseven : VersionEntry numberedFile (numberedFile.locate "/srv".toList ++
      [.utf8 "www.a.com".toList]) "7".toList 7 ∧ ¬ Marked numberedFile
        (numberedFile.locate "/srv".toList ++ [.utf8 "www.a.com".toList]) "7".toList := by
    unfold VersionEntry Marked
    decide +kernel
  obtain ⟨u, hu⟩ := exists_newest (by decide) hhost.domainDir (by decide) hseven.1 hseven.2
  -- the only directory among the versions is that of version 1
  have hdirs : ∀ l ∈ numberedFile.dom, l.length = 3 → numberedFile.node l = some .dir →
      l = [.utf8 "srv".toList, .utf8 "www.a.com".toList, .utf8 (toDecimal 1)] := by
    decide +kernel
  have hdir := (hcomplete u hu).1
  have hloc : numberedFile.locate "/srv".toList = [.utf8 "srv".toList] := by decide +kernel
  rw [hloc] at hdir
  have hone := hdirs _ ((numberedFile.mem_dom _).mpr (by rw [hdir]; exact nofun)) rfl hdir
  obtain rfl : u = 1 := by
    apply toDecimal_injective
    simpa using hone
  exact absurd (hu.le _ _ hseven.1 hseven.2) (by decide)

end SpaServer
