import SpaServer.Refines
import SpaServer.Site.Encoding

/-!
# What a site serves

`siteReply` is the answer of a site with given files as its purpose has it: there is no cache
in it, no compression and nothing of a disk.  The service answers like it with the files that
are published (`Represents`).

* `publishes_item`: what is cached of a published version is its files, by their paths.
* `createService_published`: so the service answers with those.
* `site_of_run`: in every run of requests a host answers with what is published for it.
* `served_supplied`: and each file of that was there at the start or has been uploaded.
-/

namespace SpaServer.Site

open Base

variable {crates : Crates}

/-! ### Answering from files -/

def fileOf (c : Content) (key : Str) : Option FileData := c ((key.splitOn '/').map .utf8)

def fileItem (crates : Crates) (settings : CacheSettings) (d : Str) (root : PathBuf) (key : Str)
    (f : FileData) : CacheItem where
  fileMeta := ⟨f.bytes.length, f.modified⟩
  data := .fileBlock (root ++ '/' :: key)
  mime := crates.mimeFromPath (root ++ '/' :: key)
  expire := settings.getDomainExpireConfig d ((key.splitOn '.').getLast?.getD [])

def site (s : Deployed) (host : Str) : Option (UInt32 × Content) :=
  if h : Plain host then s.published ⟨host, h⟩ else none

def siteFile (published : Option (UInt32 × Content)) (path : Str) :
    Except Response (UInt32 × Str × FileData) :=
  match sanitizePath path with
  | .error resp => .error resp
  | .ok decoded =>
    match published.bind fun vc => (fileOf vc.2 (keyOf decoded)).map fun f => (vc.1, f) with
    | some (v, f) => .ok (v, keyOf decoded, f)
    | none => .error notFound

def siteStatic (crates : Crates) (settings : CacheSettings) (fileDir : PathBuf) (http : Http)
    (host : Str) (published : Option (UInt32 × Content)) (req : Request) : Response :=
  match siteFile published req.path with
  | .ok (v, key, f) => plainReply http.toWarp
      (fileItem crates settings host (getVersionPath fileDir host v) key f) f.bytes
      (http.conditionals req.headers)
  | .error resp => resp

/-- What goes on around the file: the check of the origin, and the redirect. -/
def answerWith (http : Http) (conf : ServiceConfig) (host : Str) (req : Request)
    (file : Response) : Response :=
  match respCorsRequest http req.method req.headers (conf.getDomainServiceConfig host).cors with
  | .error resp => resp
  | .ok validated =>
    if req.scheme = some "http".toList ∧ (conf.getDomainServiceConfig host).httpRedirectToHttps then
      ((Response.new []).insert (.location req.uri)).withStatus 301
    else withCors validated file

/-- The answer of a site with these files. -/
def siteReply (crates : Crates) (settings : CacheSettings) (fileDir : PathBuf) (http : Http)
    (conf : ServiceConfig) (host : Str) (published : Option (UInt32 × Content)) (req : Request) :
    Response :=
  answerWith http conf host req (siteStatic crates settings fileDir http host published req)

section SiteFile

variable {v : UInt32} {c : Content} {path : Str}

theorem siteFile_error {published : Option (UInt32 × Content)} {path : Str}
    {resp : Response} (h : siteFile published path = .error resp) : resp = notFound := by
  unfold siteFile at h
  cases hs : sanitizePath path with
  | error resp' =>
    rw [hs] at h
    obtain rfl := Except.error.inj h
    unfold sanitizePath at hs
    split at hs
    · split at hs
      · exact absurd hs (by simp)
      · exact (Except.error.inj hs).symm
    · exact (Except.error.inj hs).symm
  | ok p =>
    rw [hs] at h
    dsimp only at h
    split at h
    · exact absurd h (by simp)
    · exact (Except.error.inj h).symm

theorem siteFile_ok {path : Str} {u : UInt32} {key : Str} {f : FileData} :
    siteFile (some (v, c)) path = .ok (u, key, f) ↔
      ∃ p, sanitizePath path = .ok p ∧ u = v ∧ key = keyOf p ∧ fileOf c key = some f := by
  unfold siteFile
  cases sanitizePath path with
  | error resp => simp
  | ok p =>
    dsimp only [Option.bind_some]
    cases hfile : fileOf c (keyOf p) with
    | none =>
      refine iff_of_false (by simp) ?_
      rintro ⟨_, hp, _, rfl, hf⟩
      obtain rfl := Except.ok.inj hp
      exact absurd (hfile.symm.trans hf) (by simp)
    | some g =>
      constructor
      · intro h
        have hall : (v, keyOf p, g) = (u, key, f) := Except.ok.inj h
        obtain ⟨rfl, hrest⟩ := Prod.mk.inj hall
        obtain ⟨rfl, rfl⟩ := Prod.mk.inj hrest
        exact ⟨p, rfl, rfl, rfl, hfile⟩
      · rintro ⟨_, hp, rfl, rfl, hf⟩
        obtain rfl := Except.ok.inj hp
        obtain rfl := Option.some.inj (hfile.symm.trans hf)
        rfl

end SiteFile

/-! ### What is cached of a version -/

/-- The path of the version directory is in no path of its files. -/
def CleanContent (root : PathBuf) (c : Content) : Prop :=
  ∀ names f, c (names.map .utf8) = some f → ¬ root ++ ['/'] <:+: relativePath names

section Cached

variable {dk : Disk} {root : PathBuf} {conf : CacheSettings} {d : Str}

theorem keysClean_of_content (h : CleanContent root (dk.filesBelow (dk.locate root))) :
    KeysClean dk root := by
  intro names f hfile
  by_cases hmarker : names = [uploadingFileName]
  · -- the name of the marker has no separator in it
    subst hmarker
    intro hin
    have hmem : '/' ∈ relativePath [uploadingFileName] := hin.subset (by simp)
    exact absurd hmem (by decide)
  · exact h names f (filesBelow_eq_some.mpr
      ⟨fun he => hmarker (map_utf8_injective he), hfile⟩)

theorem splitOn_relativePath {names : List Str} {f : FileData}
    (hdir : dk.node (dk.locate root) = some .dir) (h : FileAt dk root names f) :
    (relativePath names).splitOn '/' = names :=
  List.splitOn_intercalate _ (fun n hn => (h.plain n hn).2.1) (h.ne_nil hdir)

theorem relativePath_splitOn (key : Str) : relativePath (key.splitOn '/') = key := by
  have h := slashed_eq (List.splitOn_ne_nil '/' key) fun _ hn => not_mem_of_mem_splitOn hn
  rw [slashed_splitOn] at h
  exact (List.cons.inj h).2.symm

/-- The item of an entry, in full. -/
theorem cacheEntry_item {e : Disk.Entry} {k : Str} {item : CacheItem}
    (h : conf.cacheEntry crates d root e = some (k, item)) :
    ∃ f x, e.node = .file f ∧ e.text = some x ∧ k = remove (root ++ ['/']) x ∧
      HoldsFile crates x f item ∧ item.mime = crates.mimeFromPath x ∧
      item.expire = conf.getDomainExpireConfig d ((k.splitOn '.').getLast?.getD []) := by
  obtain ⟨f, x, hn, hx, rfl, hholds⟩ := cacheEntry_spec h
  obtain ⟨item', hitem', hmime, hexpire⟩ := @cacheEntry_file crates conf d root e f x hn hx
  rw [h] at hitem'
  obtain ⟨_, rfl⟩ := Prod.mk.inj (Option.some.inj hitem')
  exact ⟨f, x, hn, hx, rfl, hholds, hmime, hexpire⟩

/-- **A key leads to the file whose path it is**, when the paths are clean. -/
theorem cacheDir_file (hdir : dk.node (dk.locate root) = some .dir) (hroot : IsRoot root)
    (hclean : KeysClean dk root) {key : Str} {f : FileData}
    (h : FileAt dk root (key.splitOn '/') f) :
    ∃ item, conf.cacheDir crates dk d root key = some item ∧
      SameFile crates (root ++ '/' :: key) f item (fileItem crates conf d root key f) := by
  have hexact : CacheExact crates conf dk d root := (cacheExact_iff hdir hroot).mpr hclean
  have hrel := relativePath_splitOn key
  obtain ⟨item, hitem⟩ := Option.ne_none_iff_exists'.mp
    ((hexact.keys key).mpr ⟨_, f, h, hrel.symm⟩)
  have hholds := hexact.items _ f item h (by rw [hrel]; exact hitem)
  rw [slashed_splitOn] at hholds
  obtain ⟨e, _, hentry⟩ := List.mem_filterMap.mp (DashMap.mem_of_collect hitem)
  obtain ⟨f', x, _, _, _, hholds', hmime, hexpire⟩ := cacheEntry_item hentry
  obtain rfl : root ++ '/' :: key = x := hholds.path.symm.trans hholds'.path
  exact ⟨item, hitem, hholds, ⟨rfl, rfl⟩, hmime.symm, hexpire.symm⟩

end Cached

/-! ### What the service answers -/

section Published

variable {w : World} {s : Deployed} {d : Domain} {v : UInt32} {c : Content} {http : Http}
  {conf : ServiceConfig} {req : Request}

/-- **What is cached of a published version is its files**, by their paths. -/
theorem publishes_item (h : Publishes crates w d v c)
    (hclean : CleanContent (getVersionPath w.storage.pathPrefix d v) c) {key : Str}
    (hkey : key ≠ uploadingFileName) :
    Option.Rel (fun f item => SameFile crates
        (getVersionPath w.storage.pathPrefix d v ++ '/' :: key) f item
        (fileItem crates w.storage.cache.conf d (getVersionPath w.storage.pathPrefix d v) key f))
      (fileOf c key) (w.storage.cache.getItem d key) := by
  obtain ⟨_, dk, hcwd, hdir, hfiles, hdata⟩ := h
  have hloc : dk.locate (getVersionPath w.storage.pathPrefix d v) = w.versionLoc d v := by
    rw [← w.locate_versionPath, Disk.locate, hcwd]
    rfl
  rw [← hloc] at hdir hfiles
  subst hfiles
  have hkeys := keysClean_of_content hclean
  have hroot := isRoot_versionPath w.storage.pathPrefix d v
  generalize getVersionPath w.storage.pathPrefix d v = root at hdir hdata hkeys hroot hclean ⊢
  have hitem : w.storage.cache.getItem d key = w.storage.cache.conf.cacheDir crates dk d root key := by
    rw [FileCache.getItem, hdata]
    rfl
  rw [hitem]
  cases hfile : fileOf (dk.filesBelow (dk.locate root)) key with
  | some f =>
    obtain ⟨item, hfound, hsame⟩ := cacheDir_file hdir hroot hkeys (filesBelow_eq_some.mp hfile).2
    rw [hfound]
    exact .some hsame
  | none =>
    have hnone : w.storage.cache.conf.cacheDir crates dk d root key = none := by
      by_contra hsome
      have hexact : CacheExact crates w.storage.cache.conf dk d root :=
        (cacheExact_iff hdir hroot).mpr hkeys
      obtain ⟨names, f, hat, rfl⟩ := (hexact.keys key).mp hsome
      rw [fileOf, splitOn_relativePath hdir hat] at hfile
      have hmarker : names.map OsName.utf8 ≠ [.utf8 uploadingFileName] := by
        intro he
        obtain rfl : names = [uploadingFileName] := map_utf8_injective he
        exact hkey rfl
      exact absurd (hfile.symm.trans (filesBelow_eq_some.mpr ⟨hmarker, hat⟩)) (by simp)
    rw [hnone]
    exact .none

/-- The file of a published version is still on the disk, where it was cached. -/
theorem find_published (h : w.content d v = some c) {key : Str} {f : FileData}
    (hfile : fileOf c key = some f) :
    w.disk.find (getVersionPath w.storage.pathPrefix d v ++ '/' :: key) = some (.file f) := by
  obtain ⟨_, rfl⟩ := content_eq_some.mp h
  have hat : FileAt w.disk (getVersionPath w.storage.pathPrefix d v) (key.splitOn '/') f := by
    rw [FileAt, w.locate_versionPath]
    exact (filesBelow_eq_some.mp hfile).2
  have hfind := hat.find (isRoot_versionPath _ _ _) (mustBeDir_push_plain (plain_toDecimal v) _)
  rwa [slashed_splitOn] at hfind

/-- Nobody is answered with a marker. -/
def AsksFile (req : Request) : Prop :=
  ∀ decoded, sanitizePath req.path = .ok decoded → keyOf decoded ≠ uploadingFileName

/-- The files published for a host can be told apart by their keys. -/
def CleanSite (fileDir : PathBuf) (host : Str) (published : Option (UInt32 × Content)) : Prop :=
  ∀ v c, published = some (v, c) → CleanContent (getVersionPath fileDir host v) c

def KeptAs (crates : Crates) (w : World) (host key : Str) (vf : UInt32 × FileData)
    (item : CacheItem) : Prop :=
  let root := getVersionPath w.storage.pathPrefix host vf.1
  w.disk.find (root ++ '/' :: key) = some (.file vf.2) ∧
    SameFile crates (root ++ '/' :: key) vf.2 item
      (fileItem crates w.storage.cache.conf host root key vf.2)

theorem getItem_site (h : Represents crates w s) (hcurrent : s.Current) {host : Str}
    (hclean : CleanSite w.storage.pathPrefix host (site s host)) {key : Str}
    (hkey : key ≠ uploadingFileName) :
    Option.Rel (KeptAs crates w host key)
      ((site s host).bind fun vc => (fileOf vc.2 key).map fun f => (vc.1, f))
      (w.storage.cache.getItem host key) := by
  cases hsite : site s host with
  | none =>
    have hdata : w.storage.cache.data host = none := by
      by_contra hne
      have hplain := h.plain host hne
      rw [site, dif_pos hplain] at hsite
      exact hne (h.unpublished _ hsite).2
    rw [FileCache.getItem, hdata]
    exact .none
  | some vc =>
    obtain ⟨v, c⟩ := vc
    have hsome := hsite
    unfold site at hsome
    split at hsome
    case isFalse => exact absurd hsome (by simp)
    case isTrue hplain =>
      have hrel := publishes_item (h.published _ v c hsome) (hclean v c hsite) hkey
      have hcontent := (h.content _ v).symm.trans (hcurrent _ v c hsome)
      show Option.Rel _ ((fileOf c key).map fun f => (v, f)) _
      generalize hitem : w.storage.cache.getItem host key = item at hrel ⊢
      cases hfile : fileOf c key with
      | none =>
        rw [hfile] at hrel
        cases hrel
        exact .none
      | some f =>
        rw [hfile] at hrel
        cases hrel with
        | some hsame => exact .some ⟨find_published hcontent hfile, hsame⟩

theorem createService_eq {host : Str} (hhost : req.host http = some host) :
    createService http conf w req =
      answerWith http conf host req (staticFile http w host req) := by
  unfold createService
  rw [hhost]
  rfl

theorem decoded_withCors (gunzip : List UInt8 → List UInt8) (validated : Validated)
    (resp : Response) : decoded gunzip (withCors validated resp) = decoded gunzip resp := by
  unfold decoded
  rw [withCors_body, withCors_headers _ _ (by decide)]

theorem decoded_answerWith {gunzip : List UInt8 → List UInt8} {host : Str} {file file' : Response}
    (h : decoded gunzip file = decoded gunzip file') :
    decoded gunzip (answerWith http conf host req file) =
      decoded gunzip (answerWith http conf host req file') := by
  unfold answerWith
  split
  · rfl
  · split
    · rfl
    · rw [decoded_withCors, decoded_withCors, h]

theorem cacheReply_none_status (item : CacheItem) (bytes : List UInt8)
    (modified : Option LastModified) : (cacheReply item bytes none modified).status = 200 := by
  unfold cacheReply bytesRange
  dsimp only
  rw [Nat.sub_zero, if_neg (not_not.mpr rfl), cacheItemToResponseHeader_status]
  rfl

theorem reply_whole (hwarp : http.toWarp.Documented) {gunzip : List UInt8 → List UInt8}
    (hgunzip : ∀ bytes, gunzip (crates.gzip bytes) = bytes) {x : PathBuf} {f : FileData}
    {item : CacheItem} (hfind : w.disk.find x = some (.file f)) (hitem : HoldsFile crates x f item)
    {conditionals : Conditionals} (hcheck : http.check conditionals
      (some (LastModified.ofSystemTime item.fileMeta.modified)) = .withBody none)
    (acceptEncoding : Option Str) :
    (cacheOrFileReply http.toWarp w.disk item conditionals acceptEncoding).status = 200 ∧
      decoded gunzip (cacheOrFileReply http.toWarp w.disk item conditionals acceptEncoding) =
        f.bytes := by
  cases hown : acceptsGzip acceptEncoding && item.data.isCompressed with
  | false =>
    rw [reply_own hwarp hfind hitem hown, plainReply_withBody hcheck, cacheReply_none_status,
      decoded_of_none _ (cacheReply_encoding _ _), cacheReply_whole]
    exact ⟨rfl, rfl⟩
  | true =>
    obtain ⟨hgzip, hkept⟩ := Bool.and_eq_true_iff.mp hown
    obtain ⟨path, hdata⟩ := hitem.compressed hkept
    rw [reply_compressed hdata hgzip hcheck, decoded_gzip, cacheReply_whole, hgunzip]
    exact ⟨cacheReply_none_status _ _ _, rfl⟩

/-- The file that the service answers with is that of the site, or neither has one. -/
theorem staticFile_cases (h : Represents crates w s) (hcurrent : s.Current) {host : Str}
    (hclean : CleanSite w.storage.pathPrefix host (site s host)) (hreq : AsksFile req) :
    (∃ resp, siteFile (site s host) req.path = .error resp ∧ staticFile http w host req = resp) ∨
    ∃ v key f item, siteFile (site s host) req.path = .ok (v, key, f) ∧
      KeptAs crates w host key (v, f) item ∧
      staticFile http w host req = cacheOrFileReply http.toWarp w.disk item
        (http.conditionals req.headers) (req.acceptEncoding http) := by
  unfold siteFile staticFile getCacheFile
  cases hs : sanitizePath req.path with
  | error resp => exact Or.inl ⟨resp, rfl, rfl⟩
  | ok path =>
    have hrel := getItem_site h hcurrent hclean (hreq path hs)
    have hkey : (if path = "/".toList ∨ path = [] then "index.html".toList else path.drop 1) =
      keyOf path := rfl
    dsimp only
    rw [hkey]
    generalize w.storage.cache.getItem host _ = item,
      (site s host).bind _ = file at hrel ⊢
    cases hrel with
    | none => exact Or.inl ⟨notFound, rfl, rfl⟩
    | @some vf item hkept => exact Or.inr ⟨vf.1, keyOf path, vf.2, item, rfl, hkept, rfl⟩

/-- **The service answers with the files that are published**: to a client that does not take
gzip as the site itself would, and to one that does, and that asks for no range, with a body
that decodes to the same. -/
theorem createService_published (hwarp : http.toWarp.Documented)
    {gunzip : List UInt8 → List UInt8} (hgunzip : ∀ bytes, gunzip (crates.gzip bytes) = bytes)
    (h : Represents crates w s) (hcurrent : s.Current) {host : Str}
    (hhost : req.host http = some host)
    (hclean : CleanSite w.storage.pathPrefix host (site s host)) (hreq : AsksFile req) :
    (acceptsGzip (req.acceptEncoding http) = false →
      createService http conf w req = siteReply crates w.storage.cache.conf w.storage.pathPrefix
        http conf host (site s host) req) ∧
    (acceptsGzip (req.acceptEncoding http) = true → (http.conditionals req.headers).range = none →
      decoded gunzip (createService http conf w req) = decoded gunzip (siteReply crates
        w.storage.cache.conf w.storage.pathPrefix http conf host (site s host) req)) := by
  rw [createService_eq hhost]
  unfold siteReply siteStatic
  rcases staticFile_cases h hcurrent hclean hreq with ⟨resp, hsite, hstatic⟩ |
    ⟨v, key, f, item, hsite, ⟨hfind, hsame⟩, hstatic⟩
  · rw [hsite, hstatic]
    exact ⟨fun _ => rfl, fun _ _ => rfl⟩
  · rw [hsite, hstatic]
    dsimp only
    rw [hsame.plainReply]
    refine ⟨fun hgzip => ?_, fun hgzip hrange => ?_⟩
    · rw [reply_plain hwarp hfind hsame.left hgzip]
    · exact decoded_answerWith (reply_decoded hwarp hgunzip hfind hsame.left hgzip hrange)

end Published

/-! ### Runs -/

section Run

variable {http : Http} {dk : Disk} {path : PathBuf} {settings : CacheSettings}
  {st : DomainStorage} {log : List (AdminRequest × SpaServer.Response)} {w : World}

/-- **A host answers with what is published for it.**  In every run of requests from the start
of the server that name plain domains and delete no version being uploaded or served, there is
a store that the requests lead to, and every response is that of a site with the files this
publishes, a copy of which the version still holds on the disk. -/
theorem site_of_run (conf : ServiceConfig) (hwarp : http.toWarp.Documented)
    {gunzip : List UInt8 → List UInt8} (hgunzip : ∀ bytes, gunzip (crates.gzip bytes) = bytes)
    (hinit : DomainStorage.init crates dk path ⟨settings, .empty⟩ = .ok st)
    (htree : WellFormedTree dk path)
    (hrun : World.Logged crates (fun w r => Keeps w r ∧ SparesServed w r) ⟨st, dk⟩ log w) :
    ∃ s, Beside crates (fun w r => Keeps w r ∧ SparesServed w r) ⟨st, dk⟩
        (World.deployed ⟨st, dk⟩) log w s ∧ s.Current ∧
      ∀ req host, req.host http = some host → CleanSite path host (site s host) → AsksFile req →
        (acceptsGzip (req.acceptEncoding http) = false →
          createService http conf w req =
            siteReply crates settings path http conf host (site s host) req) ∧
        (acceptsGzip (req.acceptEncoding http) = true →
          (http.conditionals req.headers).range = none →
          decoded gunzip (createService http conf w req) =
            decoded gunzip (siteReply crates settings path http conf host (site s host) req)) := by
  obtain ⟨s, hbeside⟩ :=
    exists_beside (fun _ _ h => h.1) (represents_init hinit htree) hrun
  obtain ⟨events, hevents, _⟩ := hbeside.run
  have hcurrent : s.Current := hevents.current (fun _ _ h => h fun _ _ hr => hr.2)
    (current_init hinit htree) (apart_init hinit htree)
  obtain ⟨hplaces, hconf⟩ := settled_run hrun.run
  obtain ⟨hpath, hsettings, _⟩ := init_spec hinit
  rw [← (hplaces.pathPrefix.trans hpath : w.storage.pathPrefix = path),
    ← (hconf.trans hsettings : w.storage.cache.conf = settings)]
  exact ⟨s, hbeside, hcurrent, fun req host hhost hclean hreq =>
    createService_published hwarp hgunzip hbeside.represents hcurrent hhost hclean hreq⟩

/-- The file was in the version's directory at the start, or a request that was answered with
200 has uploaded it there. -/
def Supplied (w₀ : World) (log : List (AdminRequest × SpaServer.Response)) (host : Str) (v : UInt32)
    (names : List Str) (f : FileData) : Prop :=
  w₀.disk.node (w₀.fileLoc host v names) = some (.file f) ∨
  ∃ parts path, (AdminRequest.uploadFile parts, SpaServer.Response.ok) ∈ log ∧
    formOf parts = ⟨some f.bytes, some path, some v, some host⟩ ∧ sanitizedNames path = some names

theorem supplied_of_put {w₀ : World} {log : List (AdminRequest × SpaServer.Response)} {d : Domain}
    {v : UInt32} {names : List Str} {f : FileData}
    (h : Logs log (.put d v (names.map .utf8) f)) : Supplied w₀ log d v names f := by
  obtain ⟨_, r, resp, hmem, hcauses⟩ := h
  generalize he : VersionStore.Event.put d v (names.map OsName.utf8) f = e at hcauses
  cases hcauses with
  | @put _ _ parts data path names' t hf hn =>
    obtain ⟨rfl, rfl, hnames, rfl⟩ := VersionStore.Event.put.inj he
    rw [map_utf8_injective hnames]
    exact Or.inr ⟨parts, path, hmem, hf, hn⟩
  | _ => exact absurd he (by simp)

/-- **Whatever a site answers with has been supplied**: the file a path leads to was there at
the start, or was uploaded into this version of the host. -/
theorem served_supplied (hinit : DomainStorage.init crates dk path ⟨settings, .empty⟩ = .ok st)
    (htree : WellFormedTree dk path) (hrun : World.Logged crates Keeps ⟨st, dk⟩ log w) :
    ∃ s, Beside crates Keeps ⟨st, dk⟩ (World.deployed ⟨st, dk⟩) log w s ∧
      ∀ host v c key f, site s host = some (v, c) → fileOf c key = some f →
        Supplied ⟨st, dk⟩ log host v (key.splitOn '/') f := by
  obtain ⟨s, hbeside⟩ := exists_beside (fun _ _ h => h) (represents_init hinit htree) hrun
  obtain ⟨events, hevents, hlogs⟩ := hbeside.run
  refine ⟨s, hbeside, fun host v c key f hsite hfile => ?_⟩
  unfold site at hsite
  split at hsite
  case isFalse => exact absurd hsite (by simp)
  case isTrue hplain =>
    have hold : ∀ c₀ : Content, dk.filesBelow ((World.mk st dk).versionLoc host v) = c₀ →
        c₀ ((key.splitOn '/').map .utf8) = some f →
        Supplied ⟨st, dk⟩ log host v (key.splitOn '/') f := by
      rintro _ rfl h
      exact Or.inl (filesBelow_eq_some.mp h).2
    rcases hevents.published_origin hsite hfile with ⟨c₀, hpub, hc₀⟩ | hheld | hput
    · obtain ⟨u, hserving, he⟩ := Option.map_eq_some_iff.mp hpub
      obtain ⟨rfl, rfl⟩ := Prod.mk.inj he
      exact hold _ rfl hc₀
    · cases hcontent : (World.deployed ⟨st, dk⟩).content ⟨host, hplain⟩ v with
      | none =>
        rw [VersionStore.held, hcontent] at hheld
        exact absurd hheld (by simp)
      | some c₀ =>
        rw [VersionStore.held_of_content hcontent] at hheld
        exact hold c₀ (content_eq_some.mp hcontent).2 hheld
    · exact supplied_of_put (hlogs _ hput)

end Run

theorem served_supplied_released : secondReleased.2.storage.cache.data "www.a.com".toList ≠ none ∧
    ∃ s, Beside Crates.simple Keeps letterWorld letterWorld.deployed secondReleased.1
      secondReleased.2 s ∧ ∀ host v c key f, site s host = some (v, c) → fileOf c key = some f →
        Supplied letterWorld secondReleased.1 host v (key.splitOn '/') f :=
  ⟨by decide +kernel, served_supplied (init_storageOn (by decide +kernel)) wellFormedTree_letterDisk
    (World.logged_serveAll _ _ keeps_secondRelease)⟩

theorem site_of_run_released :
    (createService .simple plainService secondReleased.2 (get "www.a.com".toList "/".toList)).body =
      [97, 98] ∧
    ∃ s, Beside Crates.simple (fun w r => Keeps w r ∧ SparesServed w r) letterWorld
        letterWorld.deployed secondReleased.1 secondReleased.2 s ∧ s.Current ∧
      ∀ req host, req.host .simple = some host → CleanSite "/srv".toList host (site s host) →
        AsksFile req →
        (acceptsGzip (req.acceptEncoding .simple) = false →
          createService .simple plainService secondReleased.2 req =
            siteReply Crates.simple allOnDisk "/srv".toList .simple plainService host
              (site s host) req) ∧
        (acceptsGzip (req.acceptEncoding .simple) = true →
          (Http.simple.conditionals req.headers).range = none →
          decoded id (createService .simple plainService secondReleased.2 req) =
            decoded id (siteReply Crates.simple allOnDisk "/srv".toList .simple plainService host
              (site s host) req)) :=
  ⟨by decide +kernel, site_of_run plainService Warp.simple_documented (fun _ => rfl)
    (init_storageOn (by decide +kernel)) wellFormedTree_letterDisk
    (World.logged_serveAll _ _ fun w r hr =>
      ⟨keeps_secondRelease w r hr, sparesServed_secondRelease w r hr⟩)⟩

end SpaServer.Site
