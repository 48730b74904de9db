import SpaServer.Serve

/-!
# The keys of the cached files

`cache_dir` and `get_files_metadata` name a file by the text of its path from which the
text of the version directory is taken out, wherever it occurs.  `fileKey_eq_iff`: that is
the relative path just when the text of the directory does not occur in it again.

`mem_cachePairs` says what is cached, file by file, `filesMetadata_eq` what is listed, and
`keys_exact_iff` that both are what they should be exactly when no relative path has such
an occurrence (`KeysClean`).
-/

namespace SpaServer

open Base Program

variable {crates : Crates}

/-! ### The files of a version directory -/

def FileAt (dk : Disk) (root : PathBuf) (names : List Str) (f : FileData) : Prop :=
  dk.node (dk.locate root ++ names.map .utf8) = some (.file f)

/-- A path that can be extended by pushing names onto it: it has text and no separator at
its end. -/
def IsRoot (root : PathBuf) : Prop := root ≠ [] ∧ root.getLast? ≠ some '/'

theorem isRoot_versionPath (p : PathBuf) (d : Str) (v : UInt32) : IsRoot (getVersionPath p d v) := by
  refine ⟨versionPath_ne_nil p d v, ?_⟩
  unfold getVersionPath
  rw [getLast?_push (toDecimal_ne_nil v)]
  intro h
  exact not_mem_toDecimal (by decide) (List.mem_of_getLast? h)

def fileKey (root : PathBuf) (names : List Str) : Str := remove (root ++ ['/']) (root ++ slashed names)

section Files

variable {dk : Disk} {root : PathBuf} {names names' : List Str} {f f' : FileData}

theorem FileAt.plain (h : FileAt dk root names f) : ∀ n ∈ names, Plain n := fun n hn =>
  dk.plain _ (by rw [h]; exact nofun) (.utf8 n)
    (List.mem_append_right _ (List.mem_map_of_mem hn))

theorem FileAt.ne_nil (hdir : dk.node (dk.locate root) = some .dir) (h : FileAt dk root names f) :
    names ≠ [] := by
  rintro rfl
  unfold FileAt at h
  rw [List.map_nil, List.append_nil, hdir] at h
  exact absurd h nofun

theorem FileAt.unique (h : FileAt dk root names f) (h' : FileAt dk root names f') : f = f' :=
  Node.file.inj (Option.some.inj (h.symm.trans h'))

theorem FileAt.slashed_inj (h : FileAt dk root names f) (h' : FileAt dk root names' f')
    (he : slashed names = slashed names') : names = names' :=
  slashed_injective (fun n hn => (h.plain n hn).2.1) (fun n hn => (h'.plain n hn).2.1) he

theorem FileAt.slashed_eq (hdir : dk.node (dk.locate root) = some .dir)
    (h : FileAt dk root names f) : slashed names = '/' :: relativePath names :=
  Base.slashed_eq (h.ne_nil hdir) fun n hn => (h.plain n hn).2.1

theorem FileAt.relativePath_inj (hdir : dk.node (dk.locate root) = some .dir)
    (h : FileAt dk root names f) (h' : FileAt dk root names' f')
    (he : relativePath names = relativePath names') : names = names' := by
  apply h.slashed_inj h'
  rw [h.slashed_eq hdir, h'.slashed_eq hdir, he]

theorem FileAt.locate (hroot : IsRoot root) (h : FileAt dk root names f) :
    dk.locate (root ++ slashed names) = dk.locate root ++ names.map .utf8 :=
  locate_append_slashed dk.cwd hroot.1 hroot.2 h.plain

theorem FileAt.find (hroot : IsRoot root) (hm : mustBeDir root = false)
    (h : FileAt dk root names f) : dk.find (root ++ slashed names) = some (.file f) := by
  rw [Disk.find_eq_node (by simp [hroot.1])
    (mustBeDir_append_slashed hroot.1 hroot.2 hm h.plain), h.locate hroot]
  exact h

/-- **The key is the relative path exactly when** the text of the directory does not occur
in it. -/
theorem FileAt.fileKey_eq_iff (hdir : dk.node (dk.locate root) = some .dir)
    (h : FileAt dk root names f) :
    fileKey root names = relativePath names ↔ ¬ root ++ ['/'] <:+: relativePath names := by
  have hne : root ++ ['/'] ≠ [] := by simp
  have htext : root ++ slashed names = (root ++ ['/']) ++ relativePath names := by
    rw [h.slashed_eq hdir, List.append_assoc]
    rfl
  unfold fileKey
  rw [htext, remove_append hne, remove_eq_self_iff hne]

theorem FileAt.entry (hdir : dk.node (dk.locate root) = some .dir) (hroot : IsRoot root)
    (h : FileAt dk root names f) : ∃ e ∈ dk.walkDir root none, e.node = .file f ∧
      e.rel = names.map .utf8 ∧ e.text = some (root ++ slashed names) :=
  ⟨⟨root, names.map .utf8, .file f⟩, Disk.mem_walkDir.mpr
    ⟨rfl, by rw [Disk.find_of_dir hroot.1 hdir]; exact nofun, h, nofun⟩, rfl, rfl,
    foldlM_push_names hroot.1 hroot.2 h.plain⟩

theorem fileAt_of_entry (hroot : IsRoot root) {e : Disk.Entry} (he : e ∈ dk.walkDir root none)
    (hf : e.node = .file f) {x : Str} (hx : e.text = some x) :
    ∃ names, FileAt dk root names f ∧ e = ⟨root, names.map .utf8, .file f⟩ ∧
      x = root ++ slashed names := by
  obtain ⟨hr, _, hnode, _⟩ := Disk.mem_walkDir.mp he
  obtain ⟨root', rel, node⟩ := e
  obtain rfl : root' = root := hr
  obtain rfl : node = .file f := hf
  have hplain : ∀ c ∈ rel, c.Plain := fun c hc =>
    dk.plain _ (by rw [hnode]; exact nofun) c (List.mem_append_right _ hc)
  obtain ⟨names, rfl, hx'⟩ := foldlM_push_slashed hroot.1 hroot.2 hplain hx
  exact ⟨names, hnode, rfl, hx'⟩

end Files

/-! ### What is cached -/

/-- The item is that of the file `f` at the path `x`: its metadata, and its bytes or its
path. -/
structure HoldsFile (crates : Crates) (x : PathBuf) (f : FileData) (item : CacheItem) : Prop where
  fileMeta : item.fileMeta = ⟨f.bytes.length, f.modified⟩
  data : match item.data with
    | .fileBlock path => path = x
    | .cacheBlock bytes compressed path =>
      path = x ∧ bytes = if compressed then crates.gzip f.bytes else f.bytes

def DataBlock.path : DataBlock → PathBuf
  | .cacheBlock _ _ path => path
  | .fileBlock path => path

theorem HoldsFile.path {x : PathBuf} {f : FileData} {item : CacheItem}
    (h : HoldsFile crates x f item) : item.data.path = x := by
  have hdata := h.data
  cases hd : item.data with
  | cacheBlock bytes compressed path => rw [hd] at hdata; exact hdata.1
  | fileBlock path => rw [hd] at hdata; exact hdata

def DataBlock.isCompressed : DataBlock → Bool
  | .cacheBlock _ compressed _ => compressed
  | .fileBlock _ => false

theorem HoldsFile.compressed {x : PathBuf} {f : FileData} {item : CacheItem}
    (h : HoldsFile crates x f item) (hkept : item.data.isCompressed = true) :
    ∃ path, item.data = .cacheBlock (crates.gzip f.bytes) true path := by
  have hdata := h.data
  cases hd : item.data with
  | fileBlock path =>
    rw [hd] at hkept
    exact absurd hkept Bool.false_ne_true
  | cacheBlock bytes compressed path =>
    rw [hd] at hkept hdata
    obtain rfl : compressed = true := hkept
    obtain ⟨_, rfl⟩ := hdata
    exact ⟨path, rfl⟩

theorem cacheEntry_spec {conf : CacheSettings} {d : Str} {root : PathBuf} {e : Disk.Entry}
    {k : Str} {item : CacheItem} (h : conf.cacheEntry crates d root e = some (k, item)) :
    ∃ f x, e.node = .file f ∧ e.text = some x ∧ k = remove (root ++ ['/']) x ∧
      HoldsFile crates x f item := by
  unfold CacheSettings.cacheEntry at h
  cases hn : e.node with
  | dir => rw [hn] at h; cases h
  | file f =>
    cases hx : e.text with
    | none => rw [hn, hx] at h; cases h
    | some x =>
      rw [hn, hx] at h
      dsimp only at h
      obtain ⟨rfl, rfl⟩ := Prod.mk.inj (Option.some.inj h)
      refine ⟨f, x, rfl, rfl, rfl, rfl, ?_⟩
      dsimp only
      split_ifs with hlarge hgzip
      · rfl
      · exact ⟨rfl, rfl⟩
      · exact ⟨rfl, rfl⟩

theorem cacheEntry_file {conf : CacheSettings} {d : Str} {root : PathBuf} {e : Disk.Entry}
    {f : FileData} {x : Str} (hn : e.node = .file f) (hx : e.text = some x) :
    ∃ item, conf.cacheEntry crates d root e = some (remove (root ++ ['/']) x, item) ∧
      item.mime = crates.mimeFromPath x ∧ item.expire = conf.getDomainExpireConfig d
        (((remove (root ++ ['/']) x).splitOn '.').getLast?.getD []) := by
  unfold CacheSettings.cacheEntry
  rw [hn, hx]
  exact ⟨_, rfl, rfl, rfl⟩

section Cached

variable {dk : Disk} {root : PathBuf} {conf : CacheSettings} {d : Str}

def cachePairs (crates : Crates) (conf : CacheSettings) (dk : Disk) (d : Str) (root : PathBuf) :
    List (Str × CacheItem) := (dk.walkDir root none).filterMap (conf.cacheEntry crates d root)

theorem mem_cachePairs (hroot : IsRoot root) {k : Str} {item : CacheItem}
    (h : (k, item) ∈ cachePairs crates conf dk d root) :
    ∃ names f, FileAt dk root names f ∧ k = fileKey root names ∧
      HoldsFile crates (root ++ slashed names) f item := by
  obtain ⟨e, he, hentry⟩ := List.mem_filterMap.mp h
  obtain ⟨f, x, hn, hx, rfl, hholds⟩ := cacheEntry_spec hentry
  obtain ⟨names, hfile, _, rfl⟩ := fileAt_of_entry hroot he hn hx
  exact ⟨names, f, hfile, rfl, hholds⟩

theorem FileAt.cached (hdir : dk.node (dk.locate root) = some .dir) (hroot : IsRoot root)
    {names : List Str} {f : FileData} (h : FileAt dk root names f) :
    ∃ item, (fileKey root names, item) ∈ cachePairs crates conf dk d root := by
  obtain ⟨e, he, hn, _, hx⟩ := h.entry hdir hroot
  obtain ⟨item, hitem, _⟩ := @cacheEntry_file crates conf d root e f _ hn hx
  exact ⟨item, List.mem_filterMap.mpr ⟨e, he, hitem⟩⟩

/-- The map has the relative paths of the files for its keys, and holds each file at its own. -/
structure CacheExact (crates : Crates) (conf : CacheSettings) (dk : Disk) (d : Str)
    (root : PathBuf) : Prop where
  keys : ∀ k, conf.cacheDir crates dk d root k ≠ none ↔
    ∃ names f, FileAt dk root names f ∧ k = relativePath names
  items : ∀ names f item, FileAt dk root names f →
    conf.cacheDir crates dk d root (relativePath names) = some item →
    HoldsFile crates (root ++ slashed names) f item

/-- The text of the directory occurs in no relative path below it. -/
def KeysClean (dk : Disk) (root : PathBuf) : Prop :=
  ∀ names f, FileAt dk root names f → ¬ root ++ ['/'] <:+: relativePath names

theorem cacheExact_iff (hdir : dk.node (dk.locate root) = some .dir) (hroot : IsRoot root) :
    CacheExact crates conf dk d root ↔ KeysClean dk root := by
  constructor
  · intro hexact names f hfile
    rw [← hfile.fileKey_eq_iff hdir]
    -- what is found at the relative path is this file's own item, so it is its key
    obtain ⟨item, hitem⟩ := Option.ne_none_iff_exists'.mp
      ((hexact.keys _).mpr ⟨names, f, hfile, rfl⟩)
    have hown := hexact.items names f item hfile hitem
    obtain ⟨names', f', hfile', hkey, hholds⟩ := mem_cachePairs hroot (DashMap.mem_of_collect hitem)
    have hsame : names = names' :=
      hfile.slashed_inj hfile' (List.append_cancel_left (hown.path.symm.trans hholds.path))
    rw [hsame] at hkey ⊢
    exact hkey.symm
  · intro hclean
    have hkey : ∀ names f, FileAt dk root names f → fileKey root names = relativePath names :=
      fun names f h => (h.fileKey_eq_iff hdir).mpr (hclean names f h)
    refine ⟨fun k => ?_, fun names f item hfile hitem => ?_⟩
    · refine DashMap.collect_ne_none_iff.trans ⟨?_, ?_⟩
      · rintro ⟨item, hmem⟩
        obtain ⟨names, f, hfile, rfl, _⟩ := mem_cachePairs hroot hmem
        exact ⟨names, f, hfile, hkey names f hfile⟩
      · rintro ⟨names, f, hfile, rfl⟩
        rw [← hkey names f hfile]
        exact hfile.cached hdir hroot
    · obtain ⟨names', f', hfile', hk, hholds⟩ :=
        mem_cachePairs hroot (DashMap.mem_of_collect hitem)
      rw [hkey names' f' hfile'] at hk
      obtain rfl := hfile.relativePath_inj hdir hfile' hk
      obtain rfl := hfile.unique hfile'
      exact hholds

end Cached

/-! ### What is listed -/

def World.filesMetadata (crates : Crates) (w : World) (d : Str) (v : UInt32) :
    List ShortMetaData :=
  ((getFilesMetadata w.storage.pathPrefix crates d v).run (meaning crates) w).1

/-- The list has every file but the markers, once, by its relative path. -/
structure ListExact (crates : Crates) (dk : Disk) (root : PathBuf) (files : List ShortMetaData) :
    Prop where
  once : (files.map (·.path)).Nodup
  files : ∀ m, m ∈ files ↔ ∃ names f, FileAt dk root names f ∧
    names.getLast? ≠ some uploadingFileName ∧
    m = ⟨relativePath names, crates.md5 f.bytes, f.bytes.length⟩

theorem getShortMetadata_spec {root : PathBuf} {e : Disk.Entry} {m : ShortMetaData} :
    getShortMetadata crates root e = some m ↔ e.fileName ≠ .utf8 uploadingFileName ∧
      ∃ f x, e.node = .file f ∧ e.text = some x ∧
        m = ⟨remove (root ++ ['/']) x, crates.md5 f.bytes, f.bytes.length⟩ := by
  unfold getShortMetadata
  by_cases hname : e.fileName = .utf8 uploadingFileName
  · rw [if_pos hname]
    exact ⟨nofun, fun h => absurd hname h.1⟩
  rw [if_neg hname]
  cases hn : e.node with
  | dir => exact ⟨nofun, fun ⟨_, f, x, h, _⟩ => absurd h nofun⟩
  | file f =>
    cases hx : e.text with
    | none => exact ⟨nofun, fun ⟨_, f, x, _, h, _⟩ => absurd h nofun⟩
    | some x =>
      constructor
      · intro h
        exact ⟨hname, f, x, rfl, rfl, (Option.some.inj h).symm⟩
      · rintro ⟨_, f', x', hf, hx', rfl⟩
        obtain rfl := Node.file.inj hf
        obtain rfl := Option.some.inj hx'
        rfl

theorem fileName_entry {root : PathBuf} {names : List Str} {n : Node} (hne : names ≠ []) :
    (Disk.Entry.mk root (names.map .utf8) n).fileName = .utf8 uploadingFileName ↔
      names.getLast? = some uploadingFileName := by
  unfold Disk.Entry.fileName
  rw [List.getLast?_map, List.getLast?_eq_some_getLast hne]
  simp

theorem filesMetadata_eq {w : World} {d : Str} {v : UInt32}
    (hdir : w.disk.node (w.versionLoc d v) = some .dir) :
    w.filesMetadata crates d v =
      (w.disk.walkDir (getVersionPath w.storage.pathPrefix d v) none).filterMap
        (getShortMetadata crates (getVersionPath w.storage.pathPrefix d v)) := by
  have hex : w.disk.exists? (getVersionPath w.storage.pathPrefix d v) = true := by
    unfold Disk.exists?
    rw [w.find_versionPath, hdir]
    rfl
  unfold World.filesMetadata getFilesMetadata
  simp only [perform_bind, run_call, meaning, hex, pure_eq, run_ret]

theorem listExact_of_clean {dk : Disk} {root : PathBuf}
    (hdir : dk.node (dk.locate root) = some .dir) (hroot : IsRoot root) (hclean : KeysClean dk root) :
    ListExact crates dk root
      ((dk.walkDir root none).filterMap (getShortMetadata crates root)) := by
  have hkey : ∀ names f, FileAt dk root names f → fileKey root names = relativePath names :=
    fun names f h => (h.fileKey_eq_iff hdir).mpr (hclean names f h)
  have hmem : ∀ e ∈ dk.walkDir root none, ∀ m, getShortMetadata crates root e = some m →
      ∃ names f, FileAt dk root names f ∧ names.getLast? ≠ some uploadingFileName ∧
        e = ⟨root, names.map .utf8, .file f⟩ ∧
        m = ⟨relativePath names, crates.md5 f.bytes, f.bytes.length⟩ := by
    intro e he m hm
    obtain ⟨hname, f, x, hn, hx, rfl⟩ := getShortMetadata_spec.mp hm
    obtain ⟨names, hfile, rfl, rfl⟩ := fileAt_of_entry hroot he hn hx
    refine ⟨names, f, hfile, fun hlast => hname ((fileName_entry (hfile.ne_nil hdir)).mpr hlast),
      rfl, ?_⟩
    rw [← hkey names f hfile]
    rfl
  constructor
  · rw [List.Nodup, List.pairwise_map, List.pairwise_filterMap]
    refine (dk.walkDir_nodup root none).imp_of_mem fun {e e'} he he' hne m hm m' hm' hpath => hne ?_
    obtain ⟨names, f, hfile, _, rfl, rfl⟩ := hmem e he m hm
    obtain ⟨names', f', hfile', _, rfl, rfl⟩ := hmem e' he' m' hm'
    obtain rfl := hfile.relativePath_inj hdir hfile' hpath
    obtain rfl := hfile.unique hfile'
    rfl
  · intro m
    rw [List.mem_filterMap]
    constructor
    · rintro ⟨e, he, hm⟩
      obtain ⟨names, f, hfile, hlast, _, hm'⟩ := hmem e he m hm
      exact ⟨names, f, hfile, hlast, hm'⟩
    · rintro ⟨names, f, hfile, hlast, rfl⟩
      obtain ⟨e, he, hn, hrel, hx⟩ := hfile.entry hdir hroot
      refine ⟨e, he, getShortMetadata_spec.mpr ⟨fun hname => hlast ?_, f, _, hn, hx, ?_⟩⟩
      · obtain ⟨_, rel, _⟩ := e
        obtain rfl : rel = names.map .utf8 := hrel
        exact (fileName_entry (hfile.ne_nil hdir)).mp hname
      · rw [← hkey names f hfile]
        rfl

/-! ### Both together -/

/-- **Both name every file by its relative path exactly when** the text of the version
directory occurs in no relative path below it. -/
theorem keys_exact_iff {w : World} {d : Str} {v : UInt32}
    (hdir : w.disk.node (w.versionLoc d v) = some .dir) :
    (CacheExact crates w.storage.cache.conf w.disk d (getVersionPath w.storage.pathPrefix d v) ∧
      ListExact crates w.disk (getVersionPath w.storage.pathPrefix d v)
        (w.filesMetadata crates d v)) ↔
      KeysClean w.disk (getVersionPath w.storage.pathPrefix d v) := by
  have hroot := isRoot_versionPath w.storage.pathPrefix d v
  have hnode : w.disk.node (w.disk.locate (getVersionPath w.storage.pathPrefix d v)) =
      some .dir := by
    rw [w.locate_versionPath]
    exact hdir
  rw [cacheExact_iff hnode hroot, filesMetadata_eq hdir]
  exact ⟨And.left, fun h => ⟨h, listExact_of_clean hnode hroot h⟩⟩

/-- One version with a page, a script below it and a page that has the name of the version. -/
def threeFiles : World :=
  ⟨bareStorage, ((bareDisk.withFile "/srv/www.a.com/1/index.html".toList [1]).withFile
    "/srv/www.a.com/1/js/app.js".toList [2, 3]).withFile "/srv/www.a.com/1/www.a.com/1".toList [4]⟩

/-- Each of them has its own key and is listed under its own path. -/
theorem keys_exact_threeFiles :
    CacheExact Crates.simple threeFiles.storage.cache.conf threeFiles.disk "www.a.com".toList
        (getVersionPath threeFiles.storage.pathPrefix "www.a.com".toList 1) ∧
      ListExact Crates.simple threeFiles.disk
        (getVersionPath threeFiles.storage.pathPrefix "www.a.com".toList 1)
        (threeFiles.filesMetadata Crates.simple "www.a.com".toList 1) := by
  refine (keys_exact_iff (by decide +kernel)).mpr fun names f hfile => ?_
  let root := threeFiles.disk.locate
    (getVersionPath threeFiles.storage.pathPrefix "www.a.com".toList 1)
  have hfiles : ∀ l ∈ threeFiles.disk.dom, (threeFiles.disk.node l).any Node.isFile = true →
      l = root ++ ["index.html".toList].map .utf8 ∨
      l = root ++ ["js".toList, "app.js".toList].map .utf8 ∨
      l = root ++ ["www.a.com".toList, "1".toList].map .utf8 := by decide +kernel
  have hnames : ∀ names', root ++ names.map .utf8 = root ++ names'.map .utf8 → names = names' :=
    fun _ h => map_utf8_injective (List.append_cancel_left h)
  rcases hfiles _ ((threeFiles.disk.mem_dom _).mpr (by rw [hfile]; exact nofun))
    (by rw [hfile]; rfl) with h | h | h
  · obtain rfl := hnames _ h
    decide
  · obtain rfl := hnames _ h
    decide
  · obtain rfl := hnames _ h
    decide

/-- One version with the file `bc.html`, and with `c.html` in a directory that has the path
of the version in its own. -/
def nestedFiles : World :=
  ⟨bareStorage, (bareDisk.withFile "/srv/www.a.com/1/bc.html".toList [1]).withFile
    "/srv/www.a.com/1/b/srv/www.a.com/1/c.html".toList [2]⟩

/-- The two files have one key, and the one is not served. -/
theorem nestedFiles_collide : ¬ ∀ (w : World) (d : Str) (v : UInt32),
    w.disk.node (w.versionLoc d v) = some .dir →
    CacheExact Crates.simple w.storage.cache.conf w.disk d
        (getVersionPath w.storage.pathPrefix d v) ∧
      ListExact Crates.simple w.disk (getVersionPath w.storage.pathPrefix d v)
        (w.filesMetadata Crates.simple d v) := by
  intro hall
  have hexact := (hall nestedFiles "www.a.com".toList 1 (by decide +kernel)).1
  let names : List Str := ["b".toList, "srv".toList, "www.a.com".toList, "1".toList,
    "c.html".toList]
  have hfile : FileAt nestedFiles.disk
      (getVersionPath nestedFiles.storage.pathPrefix "www.a.com".toList 1) names ⟨[2], 0⟩ := by
    unfold FileAt
    decide +kernel
  have hkey := (hexact.keys (relativePath names)).mpr ⟨names, _, hfile, rfl⟩
  exact hkey (by decide +kernel)

end SpaServer
