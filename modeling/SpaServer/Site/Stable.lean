import SpaServer.Crash
import SpaServer.Site.Replies
import SpaServer.Site.Service

/-!
# What is served stays as it is

A response for a host is made of its cached files, and some of these are read from the disk
only when they are asked for.  So the version directory that is served must be left alone.

* `ServesApart`: the cached files of a domain lie in the directory of the version that is
  serving, and that version is not being uploaded.  `servesApart_init` and `servesApart_call`
  give it for every state reached.
* `call_cases`: a call is a release that goes through, or changes nothing that is served and
  nothing below a serving version, a marker without a record apart (`Call.Unmarks`).
* `serves_alike`: so a response changes with a release of its host only, unless a call takes
  out such a marker and the marker is a cached file that is read from the disk.
-/

namespace SpaServer.Site

open Base

variable {crates : Crates}

/-! ### Calls -/

inductive Call where
  | updateUploadingStatus (domain : Str) (version : UInt32) (status : UploadingStatus)
  | saveFile (domain : Str) (version : UInt32) (path : Str) (data : List UInt8)
  | getUploadPosition (domain : Str)
  | getFilesMetadata (domain : Str) (version : UInt32)
  | uploadDomainWithVersion (domain : Str) (version : Option UInt32)

def Call.domain : Call → Str
  | updateUploadingStatus d _ _ | saveFile d _ _ _ | getUploadPosition d | getFilesMetadata d _
  | uploadDomainWithVersion d _ => d

def Call.after (crates : Crates) (c : Call) (w : World) : World :=
  match c with
  | updateUploadingStatus d v st =>
    ((SpaServer.updateUploadingStatus w.storage.pathPrefix d v st).run (meaning crates) w).2
  | saveFile d v path data =>
    ((SpaServer.saveFile w.storage.pathPrefix d v path data).run (meaning crates) w).2
  | getUploadPosition d =>
    ((SpaServer.getUploadPosition w.storage.pathPrefix d).run (meaning crates) w).2
  | getFilesMetadata d v =>
    ((SpaServer.getFilesMetadata w.storage.pathPrefix crates d v).run (meaning crates) w).2
  | uploadDomainWithVersion d version =>
    ((SpaServer.uploadDomainWithVersion w.storage.pathPrefix d version).run (meaning crates) w).2

def Call.Releases (crates : Crates) (w : World) (c : Call) (d : Str) : Prop :=
  ∃ version v, c = .uploadDomainWithVersion d version ∧
    ((SpaServer.uploadDomainWithVersion w.storage.pathPrefix d version).run (meaning crates) w).1 =
      .ok v

/-- The call takes out the marker at `l`, with no upload of the domain recorded. -/
def Call.Unmarks (w : World) (c : Call) (l : Loc) : Prop :=
  ∃ d v, c = .updateUploadingStatus d v .finish ∧ w.storage.uploadingStatus d = none ∧
    l = w.markerLoc d v

def Call.SparesServed (w : World) (c : Call) : Prop :=
  ∀ d key item, w.storage.cache.getItem d key = some item → readsDisk item = true →
    ¬ c.Unmarks w (w.disk.locate item.data.path)

def Call.Run (crates : Crates) (ok : World → Call → Prop) : World → World → Prop :=
  Relation.ReflTransGen fun w w' => ∃ c, ok w c ∧ w' = c.after crates w

/-! ### Serving and uploading -/

/-- The cached files of a domain are those of its serving version, which is not being
uploaded. -/
structure ServesApart (w : World) : Prop where
  cached : ∀ d files, w.storage.cache.data d = some files → Plain d ∧
    ∃ v, w.serving d = some v ∧ ∀ key item, files key = some item →
      w.versionLoc d v <+: w.disk.locate item.data.path
  apart : ∀ d v, w.serving d = some v → w.storage.uploadingStatus d ≠ some v

theorem cacheDir_below (w : World) {conf : CacheSettings} {d : Str} {v : UInt32} {key : Str}
    {item : CacheItem} (h : conf.cacheDir crates w.disk d
      (getVersionPath w.storage.pathPrefix d v) key = some item) :
    w.versionLoc d v <+: w.disk.locate item.data.path := by
  have hroot := isRoot_versionPath w.storage.pathPrefix d v
  obtain ⟨names, f, hfile, _, hholds⟩ := mem_cachePairs hroot (DashMap.mem_of_collect h)
  rw [hholds.path, hfile.locate hroot, w.locate_versionPath]
  exact List.prefix_append _ _

/-- **After the start nothing that is served is being uploaded.** -/
theorem servesApart_init {dk : Disk} {path : PathBuf} {settings : CacheSettings}
    {st : DomainStorage} (hinit : DomainStorage.init crates dk path ⟨settings, .empty⟩ = .ok st)
    (htree : WellFormedTree dk path) : ServesApart ⟨st, dk⟩ := by
  obtain ⟨rfl, _, hdirs, _⟩ := init_spec hinit
  constructor
  · intro d files hfiles
    show Plain d ∧ _
    cases hmeta : st.domainMeta d with
    | none =>
      have hempty := init_cache hinit hmeta
      rw [hempty] at hfiles
      exact absurd hfiles nofun
    | some pv =>
      have hserving : (st.domainMeta d).map (·.2) = some pv.2 := by rw [hmeta]; rfl
      have hnewest := (init_serving hinit d pv.2).mp hserving
      have hdata := (init_newest hinit hnewest).2
      rw [hdata] at hfiles
      obtain rfl := Option.some.inj hfiles
      refine ⟨plain_of_entry (by rw [hnewest.dir.1]; exact nofun), pv.2, hserving,
        fun key item hitem => cacheDir_below ⟨st, dk⟩ hitem⟩
  · intro d v hserving huploading
    have hnewest := (init_serving hinit d v).mp hserving
    obtain ⟨hholds, hfound⟩ := hdirs d hnewest.dir
    -- one entry is marked, one is not, and both are the directory `v`
    obtain ⟨name, hentry, hmarked⟩ := hfound.uploading v (hholds.1.symm.trans huploading)
    obtain ⟨name', hentry', hunmarked⟩ := hnewest.entry
    rw [(htree.version d name v hentry).2] at hmarked
    rw [(htree.version d name' v hentry').2] at hunmarked
    exact hunmarked hmarked

/-! ### What a call leaves alone -/

/-- What is served is the same in `w'`, and so is what lies below a serving version, but for
the places `gone`; and no serving version has come to be uploaded. -/
structure LeavesServed (w w' : World) (gone : Loc → Prop) : Prop where
  places : SamePlaces w w'
  domainMeta : w'.storage.domainMeta = w.storage.domainMeta
  cache : w'.storage.cache = w.storage.cache
  uploading : ∀ d v, w.serving d = some v → w'.storage.uploadingStatus d ≠ some v
  below : ∀ d v l, Plain d → w.serving d = some v → w.versionLoc d v <+: l →
    w'.disk.node l = w.disk.node l ∨ gone l

theorem LeavesServed.refl {w : World} (h : ServesApart w) (gone : Loc → Prop) :
    LeavesServed w w gone :=
  ⟨⟨rfl, rfl⟩, rfl, rfl, h.apart, fun _ _ _ _ _ _ => Or.inl rfl⟩

section Call

variable {w : World} {d : Str} {v : UInt32}

/-- What changes at and below one version only leaves every serving version alone, if it is
not itself serving. -/
theorem below_of_along {dk : Disk} {t : Loc} (hd : Plain d) (hv : w.serving d ≠ some v)
    (h : ∀ l, dk.node l = w.disk.node l ∨ l <+: w.versionLoc d v ++ t) {e : Str} {u : UInt32}
    {l : Loc} (he : Plain e) (hu : w.serving e = some u) (hl : w.versionLoc e u <+: l) :
    dk.node l = w.disk.node l := by
  refine (h l).resolve_right fun hpre => hv ?_
  obtain ⟨rfl, rfl⟩ := w.versionLoc_prefix he hd (hl.trans hpre)
  exact hu

theorem leaves_status {st : UploadingStatus} {res : Except StorageError Unit × World}
    (hi : ServesApart w) (hd : Plain d) (ho : StatusOutcome w d v st res)
    (hp : SamePlaces w res.2) :
    LeavesServed w res.2 (Call.Unmarks w (.updateUploadingStatus d v st)) := by
  cases ho with
  | other _ _ => exact .refl hi _
  | again _ => exact .refl hi _
  | notMarked _ _ => exact .refl hi _
  | serving _ _ => exact .refl hi _
  | blocked _ hs hnew _ =>
    refine ⟨hp, rfl, rfl, hi.apart, fun e u l he hu hl => Or.inl ?_⟩
    refine below_of_along (t := []) hd hs (fun l => ?_) he hu hl
    rw [List.append_nil]
    exact (hnew.2 l).imp_right fun hn => hn.2.2
  | @started dk hu hs hnew _ hm =>
    refine ⟨hp, rfl, rfl, fun e u he hu' => ?_, fun e u l he hu hl => Or.inl ?_⟩
    · by_cases hed : e = d
      · subst hed
        simp only [World.setUploading, DashMap.insert_self] at hu'
        obtain rfl := Option.some.inj hu'
        exact hs he
      · simp only [World.setUploading, DashMap.insert_of_ne _ hed] at hu'
        exact hi.apart e u he hu'
    · refine below_of_along (t := [.utf8 uploadingFileName]) hd hs (fun l => ?_) he hu hl
      show (dk.set _ _ hm).node l = _ ∨ _
      by_cases hloc : l = w.markerLoc d v
      · exact Or.inr (by rw [hloc]; exact List.prefix_refl _)
      · rw [dk.set_node_of_ne hm hloc]
        exact (hnew.2 l).imp_right fun hn => hn.2.2.trans (List.prefix_append _ _)
  | @finished f hu hm =>
    refine ⟨hp, rfl, rfl, fun e u he hu' => ?_, fun e u l he hserving hl => ?_⟩
    · have hkept : w.storage.uploadingStatus.removeIf d (· == v) e = some u := hu'
      exact hi.apart e u he (DashMap.of_removeIf hkept)
    · show (w.disk.removeTree _ (w.markerLoc_ne_nil d v)).node l = _ ∨ _
      rw [w.disk.removeTree_file _ (by rw [hm]; intro h; cases h)]
      by_cases hloc : l = w.markerLoc d v
      · -- the marker of a serving version is that of no recorded upload
        obtain ⟨rfl, rfl⟩ := w.versionLoc_prefix he hd (t := [.utf8 uploadingFileName])
          (by rw [hloc] at hl; exact hl)
        rcases hu with hu | hu
        · exact absurd hu (hi.apart e u hserving)
        · exact Or.inr ⟨e, u, rfl, hu, hloc⟩
      · rw [if_neg hloc]
        exact Or.inl rfl

theorem leaves_save {path : Str} {data : List UInt8} {res : Except StorageError Unit × World}
    (hi : ServesApart w) (hd : Plain d) (ho : SaveOutcome w d v path data res)
    (hp : SamePlaces w res.2) (gone : Loc → Prop) : LeavesServed w res.2 gone := by
  cases ho with
  | notUploading _ => exact .refl hi _
  | badPath _ _ => exact .refl hi _
  | present _ _ _ => exact .refl hi _
  | @blocked _ names _ hu _ hnew =>
    have hs : w.serving d ≠ some v := fun hs => hi.apart d v hs hu
    refine ⟨hp, rfl, rfl, hi.apart, fun e u l he hserving hl => Or.inl ?_⟩
    refine below_of_along (t := names.map .utf8) hd hs (fun l => ?_) he hserving hl
    exact (hnew.2 l).imp_right fun hn => hn.2.2.trans (List.dropLast_prefix _)
  | @saved names _ _ hu _ _ _ _ _ hrest =>
    have hs : w.serving d ≠ some v := fun hs => hi.apart d v hs hu
    refine ⟨hp, rfl, rfl, hi.apart, fun e u l he hserving hl => Or.inl ?_⟩
    refine below_of_along (t := names.map .utf8) hd hs (fun l => ?_) he hserving hl
    by_cases hloc : l = w.fileLoc d v names
    · exact Or.inr (by rw [hloc]; exact List.prefix_refl _)
    · exact (hrest l hloc).imp_right fun hn => hn.2.2.trans (List.dropLast_prefix _)

/-- **Every call is a release that goes through, or leaves alone what is served.** -/
theorem call_cases (hi : ServesApart w) {c : Call} (hc : Plain c.domain) :
    (∃ v, c.Releases crates w c.domain ∧ c.after crates w = w.release crates c.domain v ∧
      w.storage.uploadingStatus c.domain ≠ some v) ∨
    LeavesServed w (c.after crates w) (c.Unmarks w) := by
  cases c with
  | updateUploadingStatus d v st =>
    exact Or.inr (leaves_status hi hc (updateUploadingStatus_outcome w d v st) (run_samePlaces _ w))
  | saveFile d v path data =>
    exact Or.inr (leaves_save hi hc (saveFile_outcome w d v path data) (run_samePlaces _ w) _)
  | getUploadPosition d =>
    have hsame := @run_lookups crates _ _ (uses_getUploadPosition w.storage.pathPrefix d) w
    refine Or.inr ?_
    show LeavesServed w ((SpaServer.getUploadPosition _ d).run (meaning crates) w).2 _
    rw [hsame]
    exact .refl hi _
  | getFilesMetadata d v =>
    have hsame := @run_lookups crates _ _
      (@uses_getFilesMetadata crates w.storage.pathPrefix d v) w
    refine Or.inr ?_
    show LeavesServed w ((SpaServer.getFilesMetadata _ crates d v).run (meaning crates) w).2 _
    rw [hsame]
    exact .refl hi _
  | uploadDomainWithVersion d version =>
    have ho := @uploadDomainWithVersion_outcome crates w d version
    unfold Call.Releases Call.after Call.domain
    dsimp only
    cases hres : (SpaServer.uploadDomainWithVersion w.storage.pathPrefix d version).run
      (meaning crates) w with
    | mk result w' =>
      rw [hres] at ho
      cases ho with
      | refused => exact Or.inr (.refl hi _)
      | @released v hu _ _ => exact Or.inl ⟨v, ⟨version, v, rfl, by rw [hres]⟩, rfl, hu⟩

/-- **Every call keeps what is served apart from what is uploaded.** -/
theorem servesApart_call (hi : ServesApart w) {c : Call} (hc : Plain c.domain) :
    ServesApart (c.after crates w) := by
  rcases @call_cases crates w hi c hc with ⟨v, _, hafter, hu⟩ | hleaves
  · rw [hafter]
    constructor
    · intro e files hfiles
      rw [cache_release] at hfiles
      split at hfiles
      · next he =>
        obtain rfl := Option.some.inj hfiles
        subst he
        refine ⟨hc, v, ?_, fun key item hitem => cacheDir_below w hitem⟩
        rw [serving_release, if_pos rfl]
      · next he =>
        obtain ⟨hplain, u, hserving, hbelow⟩ := hi.cached e files hfiles
        refine ⟨hplain, u, ?_, hbelow⟩
        rw [serving_release, if_neg he, hserving]
    · intro e u hserving
      rw [serving_release] at hserving
      split at hserving
      · next he =>
        obtain rfl := Option.some.inj hserving
        subst he
        exact hu
      · exact hi.apart e u hserving
  · obtain ⟨hplaces, hmeta, hcache, huploading, _⟩ := hleaves
    constructor
    · intro e files hfiles
      rw [hcache] at hfiles
      obtain ⟨hplain, u, hserving, hbelow⟩ := hi.cached e files hfiles
      refine ⟨hplain, u, (serving_of_meta hmeta e).trans hserving, fun key item hitem => ?_⟩
      rw [hplaces.versionLoc, Disk.locate, hplaces.cwd]
      exact hbelow key item hitem
    · intro e u hserving
      rw [serving_of_meta hmeta] at hserving
      exact huploading e u hserving

end Call

/-! ### Runs -/

theorem servesApart_run {w w' : World} (h : ServesApart w)
    (hrun : Call.Run crates (fun _ c => Plain c.domain) w w') : ServesApart w' := by
  induction hrun with
  | refl => exact h
  | tail _ hstep ih =>
    obtain ⟨c, hc, rfl⟩ := hstep
    exact servesApart_call ih hc

/-- **The response for a host stays the same** over every call that is no release of it, in
every state reached from a well-formed tree, if the call takes out no file that is cached and
read from the disk. -/
theorem serves_alike (http : Http) (conf : ServiceConfig) {dk : Disk} {path : PathBuf}
    {settings : CacheSettings} {st : DomainStorage}
    (hinit : DomainStorage.init crates dk path ⟨settings, .empty⟩ = .ok st)
    (htree : WellFormedTree dk path) {w : World}
    (hrun : Call.Run crates (fun _ c => Plain c.domain) ⟨st, dk⟩ w) {c : Call}
    (hc : Plain c.domain) (hspares : c.SparesServed w) {d : Str}
    (hd : ¬ c.Releases crates w d) {req : Request} (hreq : req.host http = some d) :
    createService http conf (c.after crates w) req = createService http conf w req := by
  have hi := servesApart_run (servesApart_init hinit htree) hrun
  rcases @call_cases crates w hi c hc with ⟨v, hreleases, hafter, _⟩ | hleaves
  · -- the release is that of another domain
    have hne : d ≠ c.domain := by
      rintro rfl
      exact hd hreleases
    rw [hafter]
    refine createService_congr hreq ?_ fun _ _ _ _ => rfl
    rw [cache_release, if_neg hne]
  · refine createService_congr hreq (by rw [hleaves.cache]) fun key item hitem hreads => ?_
    cases hfiles : w.storage.cache.data d with
    | none =>
      unfold FileCache.getItem at hitem
      rw [hfiles] at hitem
      exact absurd hitem nofun
    | some files =>
      obtain ⟨hplain, v, hserving, hbelow⟩ := hi.cached d files hfiles
      have hkey : files key = some item := by
        unfold FileCache.getItem at hitem
        rw [hfiles] at hitem
        exact hitem
      refine Disk.find_congr hleaves.places.cwd ?_
      exact (hleaves.below d v _ hplain hserving (hbelow key item hkey)).resolve_right
        (hspares d key item hitem hreads)

/-! ### Two servers -/

def storageOn (dk : Disk) : DomainStorage :=
  match DomainStorage.init Crates.simple dk "/srv".toList ⟨allOnDisk, .empty⟩ with
  | .ok st => st
  | .error _ => bareStorage

theorem init_storageOn {dk : Disk} (h : (DomainStorage.init Crates.simple dk "/srv".toList
    ⟨allOnDisk, .empty⟩).isOk = true) :
    DomainStorage.init Crates.simple dk "/srv".toList ⟨allOnDisk, .empty⟩ = .ok (storageOn dk) := by
  unfold storageOn
  cases hinit : DomainStorage.init Crates.simple dk "/srv".toList ⟨allOnDisk, .empty⟩ with
  | ok st => rfl
  | error e =>
    rw [hinit] at h
    exact absurd h nofun

theorem wellFormedTree_one {dk : Disk} {path : PathBuf} {host : Str} {u : UInt32}
    (hone : ∀ l ∈ dk.dom, l.length = (dk.locate path).length + 2 →
      l = dk.locate path ++ [.utf8 host, .utf8 (toDecimal u)])
    (hdir : dk.node (dk.locate path ++ [.utf8 host, .utf8 (toDecimal u)]) = some .dir) :
    WellFormedTree dk path := by
  have hentry : ∀ d name v, VersionEntry dk (dk.locate path ++ [.utf8 d]) name v →
      dk.locate path ++ [.utf8 d] ++ [.utf8 name] =
        dk.locate path ++ [.utf8 host, .utf8 (toDecimal u)] ∧ name = toDecimal u ∧ v = u := by
    intro d name v h
    have hloc := hone _ ((dk.mem_dom _).mpr h.1) (by simp)
    have hnames := hloc
    rw [List.append_assoc, List.append_cancel_left_eq, List.singleton_append, List.cons.injEq,
      List.cons.injEq, OsName.utf8.injEq, OsName.utf8.injEq] at hnames
    obtain ⟨_, rfl, _⟩ := hnames
    exact ⟨hloc, rfl, Option.some.inj (h.2.symm.trans (parseU32_toDecimal u))⟩
  constructor
  · intro d name v h
    obtain ⟨hloc, rfl, rfl⟩ := hentry d name v h
    exact ⟨by rw [hloc, hdir], rfl⟩
  · intro d name name' v v' h h' _ _
    rw [(hentry d name v h).2.1, (hentry d name' v' h').2.1]

def secondUpload : World :=
  (Call.updateUploadingStatus "www.a.com".toList 2 .uploading).after Crates.simple
    ⟨storageOn letterDisk, letterDisk⟩

theorem serves_alike_secondUpload :
    createService .simple plainService
        ((Call.updateUploadingStatus "www.a.com".toList 2 .finish).after Crates.simple secondUpload)
        (get "www.a.com".toList "/index.html".toList) =
      createService .simple plainService secondUpload
        (get "www.a.com".toList "/index.html".toList) := by
  have htree : WellFormedTree letterDisk "/srv".toList :=
    @wellFormedTree_one _ _ "www.a.com".toList 1 (by decide +kernel) (by decide +kernel)
  have hplain : Plain "www.a.com".toList := by decide
  let finish : Call := .updateUploadingStatus "www.a.com".toList 2 .finish
  have hspares : finish.SparesServed secondUpload := by
    rintro d key item _ _ ⟨e, v, hcall, hnone, _⟩
    obtain ⟨rfl, _⟩ := Call.updateUploadingStatus.inj hcall
    exact absurd hnone (by decide +kernel)
  have hno : ¬ finish.Releases Crates.simple secondUpload "www.a.com".toList := by
    rintro ⟨_, _, hcall, _⟩
    exact absurd hcall nofun
  exact serves_alike (c := finish) .simple plainService (init_storageOn (by decide +kernel)) htree
    (.single ⟨.updateUploadingStatus "www.a.com".toList 2 .uploading, hplain, rfl⟩) hplain hspares
    hno rfl

/-- A version of a host whose name is no domain name to `init`, with a marker that is not empty. -/
def markedHost : Disk := Disk.empty.withFile "/srv/localhost/1/.SPA-Processing".toList [1]

def markerServed : World :=
  (Call.uploadDomainWithVersion "localhost".toList (some 1)).after Crates.simple
    ⟨storageOn markedHost, markedHost⟩

theorem markerServed_gone : ¬ ∀ (http : Http) (conf : ServiceConfig) (dk : Disk) (path : PathBuf)
    (settings : CacheSettings) (st : DomainStorage) (w : World) (c : Call) (d : Str) (req : Request),
    DomainStorage.init Crates.simple dk path ⟨settings, .empty⟩ = .ok st → WellFormedTree dk path →
    Call.Run Crates.simple (fun _ c => Plain c.domain) ⟨st, dk⟩ w → Plain c.domain →
    ¬ c.Releases Crates.simple w d → req.host http = some d →
    createService http conf (c.after Crates.simple w) req = createService http conf w req := by
  intro hall
  have htree : WellFormedTree markedHost "/srv".toList :=
    @wellFormedTree_one _ _ "localhost".toList 1 (by decide +kernel) (by decide +kernel)
  have hplain : Plain "localhost".toList := by decide
  have halike := hall .simple plainService markedHost "/srv".toList allOnDisk _ markerServed
    (.updateUploadingStatus "localhost".toList 1 .finish) "localhost".toList
    (get "localhost".toList "/.SPA-Processing".toList) (init_storageOn (by decide +kernel)) htree
    (.single ⟨.uploadDomainWithVersion "localhost".toList (some 1), hplain, rfl⟩) hplain
    (fun ⟨_, _, hcall, _⟩ => absurd hcall nofun) rfl
  exact absurd (congrArg Response.status halike) (by decide +kernel)

end SpaServer.Site
