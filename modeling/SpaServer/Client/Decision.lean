import SpaServer.Client.Resume

/-!
# Which files are sent

`upload_files` leaves a file out when the server lists one of its length and digest
under its key.  `DecidesRightly` is what this is for: the list has a local file just
when the server lists no such file under its relative path, and no two files have one
key.

The key has the separator in front that the server's paths do not have (`listing_head`),
so nothing is ever left out, except where the text of the directory is found in the
relative path too (`Repeats`), or is the separator itself.  There both texts are what
they are, and `Distinguished` asks of them what is needed.

* `sent_iff`: a file is sent when it is not skipped, by its key.
* `not_skipped_of_not_repeats`: files of the usual kind are never skipped.
* `decides_rightly_iff`: when the decision is right.
-/

namespace SpaServer

open Base Program

namespace Client

variable {crates crates' : Crates} {dk : Disk} {path : PathBuf} {listed : List ShortMetaData}

/-- `uploading_files`, when the server lists these.  A path that is no text makes
`upload_files` panic. -/
def uploadingFiles (crates : Crates) (dk : Disk) (path : PathBuf) (listed : List ShortMetaData) :
    Option (List UploadingFile) :=
  (canonicalText (dk.locate path)).map fun prefixPath =>
    (dk.walkDir prefixPath none).filterMap
      (uploadingFile crates (DashMap.collect (listed.map fun x => (x.path, x))) prefixPath)

/-- The key of the file at `rel` below the directory, if its path is text. -/
def keyAt (dk : Disk) (path : PathBuf) (rel : Loc) : Option Str :=
  (canonicalText (dk.locate path)).bind fun prefixPath =>
    (rel.foldlM (fun p (c : OsName) => c.toStr.map (push p)) prefixPath).map (remove prefixPath)

def LocalFile (dk : Disk) (path : PathBuf) (rel : Loc) (f : FileData) : Prop :=
  dk.node (dk.locate path ++ rel) = some (.file f)

/-- The server lists a file under this relative path, as long as `f` and with its digest. -/
def UpToDate (crates : Crates) (listed : List ShortMetaData) (rel : Loc) (f : FileData) : Prop :=
  ∃ names x, rel = names.map .utf8 ∧ x ∈ listed ∧ x.path = relativePath names ∧
    x.length = f.bytes.length ∧ x.md5 = crates.md5 f.bytes

/-- The files to send are those that are not up to date, and each file has its own key. -/
structure DecidesRightly (crates : Crates) (dk : Disk) (path : PathBuf)
    (listed : List ShortMetaData) : Prop where
  sends : ∃ files, uploadingFiles crates dk path listed = some files ∧
    ∀ rel f, LocalFile dk path rel f →
      ((∃ file ∈ files, dk.locate file.path = dk.locate path ++ rel) ↔
        ¬ UpToDate crates listed rel f)
  keys : ∀ rel rel' f f' k, LocalFile dk path rel f → LocalFile dk path rel' f' →
    keyAt dk path rel = some k → keyAt dk path rel' = some k → rel = rel'

/-! ### What the server lists -/

theorem listing_head {w : World} {d : Str} {v : UInt32}
    (hversion : ∀ g, w.disk.node (w.versionLoc d v) ≠ some (.file g)) {x : ShortMetaData}
    (hx : x ∈ listingOf crates w d v) : x.path.head? ≠ some '/' := by
  cases hn : w.disk.node (w.versionLoc d v) with
  | none =>
    have hfind : w.disk.find (getVersionPath w.storage.pathPrefix d v) = none := by
      rw [w.find_versionPath, hn]
    simp [listingOf, getFilesMetadata, perform_bind, run_call, SpaServer.meaning, Disk.exists?,
      hfind] at hx
  | some n =>
    cases n with
    | file g => exact absurd hn (hversion g)
    | dir => exact listed_head hn hx

/-! ### What the client sends -/

namespace LocalDir

/-- The text of the directory is found in the relative path, with a separator in front. -/
def Repeats (dir : LocalDir dk) (r : List Str) : Prop := absolute dir.names <:+: slashed r

/-- Every file has a path that is text.  It is not up to date, unless it repeats the
directory: then it is just when the last file listed under the rest of its text is its
like, and no other file has the same rest. -/
structure Distinguished (dir : LocalDir dk) (crates : Crates) (listed : List ShortMetaData) :
    Prop where
  text : ∀ rel f, dk.node (dir.names.map .utf8 ++ rel) = some (.file f) →
    ∃ r : List Str, rel = r.map .utf8
  stale : ∀ r f, dir.File r f → ¬ dir.Repeats r → ¬ UpToDate crates listed (r.map .utf8) f
  repeats : ∀ r f, dir.File r f → dir.Repeats r →
    (dir.Skipped crates listed r f ↔ UpToDate crates listed (r.map .utf8) f)
  distinct : ∀ r r' f f', dir.File r f → dir.File r' f' → dir.Repeats r →
    dir.key r = dir.key r' → r = r'

variable {dir : LocalDir dk} {r : List Str} {f : FileData}

theorem uploadingFiles_eq (hpath : dk.locate path = dir.names.map .utf8) :
    uploadingFiles crates dk path listed = some (dir.uploads crates listed) := by
  rw [uploadingFiles, hpath, canonicalText_dir]
  rfl

theorem keyAt_eq (hpath : dk.locate path = dir.names.map .utf8) (hf : dir.File r f) :
    keyAt dk path (r.map .utf8) = some (dir.key r) := by
  rw [keyAt, hpath, canonicalText_dir, Option.bind_some, hf.foldlM_text]
  rfl

theorem file_iff (hpath : dk.locate path = dir.names.map .utf8) :
    LocalFile dk path (r.map .utf8) f ↔ dir.File r f := by
  rw [LocalFile, File, hpath, List.map_append]

/-- **A file is sent just when it is not skipped.** -/
theorem sent_iff (hpath : dk.locate path = dir.names.map .utf8) (hf : dir.File r f) :
    (∃ file ∈ dir.uploads crates listed, dk.locate file.path = dk.locate path ++ r.map .utf8) ↔
      ¬ dir.Skipped crates listed r f := by
  have hloc : ∀ {r' f'}, dir.File r' f' →
      dk.locate (dir.text r') = dk.locate path ++ r'.map .utf8 := fun hf' => by
    rw [hpath, ← List.map_append]
    exact locate_absolute hf'.plain _
  constructor
  · rintro ⟨file, hfile, hpl⟩
    obtain ⟨r', f', hf', hskip, rfl⟩ := mem_uploads.mp hfile
    rw [hloc hf'] at hpl
    obtain rfl : r' = r := map_utf8_injective (List.append_cancel_left hpl)
    obtain rfl := hf.unique hf'
    exact hskip
  · intro hskip
    exact ⟨_, mem_uploads.mpr ⟨r, f, hf, hskip, rfl⟩, hloc hf⟩

theorem text_of_sent (hpath : dk.locate path = dir.names.map .utf8) {rel : Loc}
    (h : ∃ file ∈ dir.uploads crates listed, dk.locate file.path = dk.locate path ++ rel) :
    ∃ r : List Str, rel = r.map .utf8 := by
  obtain ⟨file, hfile, hpl⟩ := h
  obtain ⟨r, f, hf, _, rfl⟩ := mem_uploads.mp hfile
  have hloc : dk.locate (dir.text r) = (dir.names ++ r).map .utf8 := locate_absolute hf.plain _
  rw [hloc, List.map_append, hpath] at hpl
  exact ⟨r, (List.append_cancel_left hpl).symm⟩

/-! ### Files of the usual kind -/

theorem File.names_ne_nil (hf : dir.File r f) (hr : ¬ dir.Repeats r) : dir.names ≠ [] := by
  intro hnil
  obtain ⟨n, rest, rfl⟩ := List.exists_cons_of_ne_nil hf.ne_nil
  refine hr ?_
  rw [Repeats, hnil]
  exact ⟨[], n ++ slashed rest, rfl⟩

/-- The key of a file that does not repeat the directory is its relative path, with a
separator in front. -/
theorem File.key_of_not_repeats (hf : dir.File r f) (hr : ¬ dir.Repeats r) :
    dir.key r = slashed r := by
  have hne := hf.names_ne_nil hr
  have habs : absolute dir.names = slashed dir.names := absolute_of_ne hne
  have htext : dir.text r = slashed (dir.names ++ r) := absolute_of_ne (by simp [hf.ne_nil])
  rw [Repeats, habs] at hr
  rw [key, htext, habs, slashed_append, remove_append, remove_eq_self hr]
  rw [← habs]
  exact absolute_ne_nil _

theorem File.not_skipped_of_not_repeats (hf : dir.File r f) (hr : ¬ dir.Repeats r)
    (hlisted : ∀ x ∈ listed, x.path.head? ≠ some '/') : ¬ dir.Skipped crates listed r f :=
  not_skipped_of_head hlisted (by rw [hf.key_of_not_repeats hr, head_slashed hf.ne_nil])

end LocalDir

/-! ### The decision -/

theorem exists_localDir (hpath : dk.find path = some .dir) {names : List Str}
    (hnames : dk.locate path = names.map .utf8) :
    ∃ dir : LocalDir dk, dk.locate path = dir.names.map .utf8 :=
  ⟨⟨names, hnames ▸ (Disk.find_eq_dir hpath).2⟩, hnames⟩

/-- The directory is text when anything at all is decided. -/
theorem localDir_of_decided (hpath : dk.find path = some .dir) {files : List UploadingFile}
    (h : uploadingFiles crates dk path listed = some files) :
    ∃ dir : LocalDir dk, dk.locate path = dir.names.map .utf8 := by
  obtain ⟨text, htext, _⟩ := Option.map_eq_some_iff.mp h
  obtain ⟨names, hnames, _⟩ :=
    (@foldlM_push_absolute [] (by simp) (dk.locate path) (dk.locate_plain path) text).mp htext
  exact exists_localDir hpath hnames

namespace LocalDir

variable {dir : LocalDir dk}

theorem distinguished_of_decides (hdir : dk.locate path = dir.names.map .utf8)
    (hlisted : ∀ x ∈ listed, x.path.head? ≠ some '/')
    (h : DecidesRightly crates dk path listed) : dir.Distinguished crates listed := by
  obtain ⟨⟨files, hfiles, hsends⟩, hkeys⟩ := h
  rw [uploadingFiles_eq hdir] at hfiles
  obtain rfl := Option.some.inj hfiles
  have hiff : ∀ r f, dir.File r f →
      (dir.Skipped crates listed r f ↔ UpToDate crates listed (r.map .utf8) f) := by
    intro r f hf
    rw [← not_iff_not, ← sent_iff hdir hf]
    exact hsends _ f ((file_iff hdir).mpr hf)
  refine ⟨?_, ?_, fun r f hf _ => hiff r f hf, ?_⟩
  · intro rel f hf
    by_contra htext
    refine htext (text_of_sent hdir ((hsends rel f ?_).mpr ?_))
    · rw [LocalFile, hdir]
      exact hf
    · rintro ⟨names, _, hrel, _⟩
      exact htext ⟨names, hrel⟩
  · intro r f hf hr hup
    exact hf.not_skipped_of_not_repeats hr hlisted ((hiff r f hf).mpr hup)
  · intro r r' f f' hf hf' _ hkey
    exact map_utf8_injective (hkeys _ _ f f' _ ((file_iff hdir).mpr hf) ((file_iff hdir).mpr hf')
      (keyAt_eq hdir hf) (by rw [hkey]; exact keyAt_eq hdir hf'))

theorem Distinguished.key_inj (h : dir.Distinguished crates listed) {r r' : List Str}
    {f f' : FileData} (hf : dir.File r f) (hf' : dir.File r' f') (hkey : dir.key r = dir.key r') :
    r = r' := by
  by_cases hrep : dir.Repeats r
  · exact h.distinct r r' f f' hf hf' hrep hkey
  by_cases hrep' : dir.Repeats r'
  · exact (h.distinct r' r f' f hf' hf hrep' hkey.symm).symm
  -- both keys are the relative paths, with a separator in front
  rw [hf.key_of_not_repeats hrep, hf'.key_of_not_repeats hrep'] at hkey
  exact slashed_injective (fun n hn => (hf.plain_rel n hn).2.1)
    (fun n hn => (hf'.plain_rel n hn).2.1) hkey

/-- When the files are distinguished, the decision is right. -/
theorem Distinguished.decides (hdir : dk.locate path = dir.names.map .utf8)
    (hlisted : ∀ x ∈ listed, x.path.head? ≠ some '/') (h : dir.Distinguished crates listed) :
    DecidesRightly crates dk path listed := by
  have hfile : ∀ rel f, LocalFile dk path rel f →
      ∃ r : List Str, rel = r.map .utf8 ∧ dir.File r f := by
    intro rel f hf
    obtain ⟨r, rfl⟩ := h.text rel f (by rw [← hdir]; exact hf)
    exact ⟨r, rfl, (file_iff hdir).mp hf⟩
  refine ⟨⟨_, uploadingFiles_eq hdir, fun rel f hf => ?_⟩, ?_⟩
  · obtain ⟨r, rfl, hr⟩ := hfile rel f hf
    rw [sent_iff hdir hr, not_iff_not]
    by_cases hrep : dir.Repeats r
    · exact h.repeats r f hr hrep
    · exact iff_of_false (hr.not_skipped_of_not_repeats hrep hlisted) (h.stale r f hr hrep)
  · intro rel rel' f f' k hf hf' hk hk'
    obtain ⟨r, rfl, hr⟩ := hfile rel f hf
    obtain ⟨r', rfl, hr'⟩ := hfile rel' f' hf'
    rw [keyAt_eq hdir hr] at hk
    rw [keyAt_eq hdir hr', ← hk] at hk'
    rw [h.key_inj hr hr' (Option.some.inj hk').symm]

end LocalDir

/-- **When `upload_files` decides rightly**, for every local directory and every content of
the server's version directory. -/
theorem decides_rightly_iff {w : World} {d : Str} {v : UInt32}
    (hversion : ∀ g, w.disk.node (w.versionLoc d v) ≠ some (.file g))
    (hpath : dk.find path = some .dir) :
    DecidesRightly crates dk path (listingOf crates' w d v) ↔
      ∃ dir : LocalDir dk, dk.locate path = dir.names.map .utf8 ∧
        dir.Distinguished crates (listingOf crates' w d v) := by
  have hlisted : ∀ x ∈ listingOf crates' w d v, x.path.head? ≠ some '/' :=
    fun x hx => listing_head hversion hx
  constructor
  · intro h
    obtain ⟨files, hfiles, _⟩ := h.sends
    obtain ⟨dir, hdir⟩ := localDir_of_decided hpath hfiles
    exact ⟨dir, hdir, LocalDir.distinguished_of_decides hdir hlisted h⟩
  · rintro ⟨dir, hdir, h⟩
    exact h.decides hdir hlisted

/-- A server that has an older version of the client's two files. -/
def olderSite : World where
  storage := bareStorage
  disk := (bareDisk.withFile "/srv/www.a.com/1/a.html".toList [4]).withFile
    "/srv/www.a.com/1/js/app.js".toList [2]

/-- Both files have changed, and both are sent. -/
theorem decides_rightly_older : DecidesRightly Crates.simple nestedSite "/site".toList
    (listingOf Crates.simple olderSite "www.a.com".toList 1) := by
  have hlisted : ∀ x ∈ listingOf Crates.simple olderSite "www.a.com".toList 1,
      x.md5 = Crates.simple.md5 [4] ∨ x.md5 = Crates.simple.md5 [2] := by decide +kernel
  have hversion : olderSite.disk.node (olderSite.versionLoc "www.a.com".toList 1) = some .dir := by
    decide +kernel
  have hrepeats : ∀ r f, nestedDir.File r f → ¬ nestedDir.Repeats r := by
    intro r f hf
    rcases nested_file hf with ⟨rfl, -⟩ | ⟨rfl, -⟩ <;> unfold LocalDir.Repeats <;> decide
  refine (decides_rightly_iff (by rw [hversion]; exact nofun) (by decide +kernel)).mpr
    ⟨nestedDir, by decide +kernel, fun rel f hf => ?_, fun r f hf _ => ?_,
      fun r f hf hrep => absurd hrep (hrepeats r f hf),
      fun r _ f _ hf _ hrep => absurd hrep (hrepeats r f hf)⟩
  · rcases nested_node hf with ⟨rfl, -⟩ | ⟨rfl, -⟩ <;> exact ⟨_, rfl⟩
  · rintro ⟨_, x, _, hx, _, _, hmd5⟩
    rcases nested_file hf with ⟨-, rfl⟩ | ⟨-, rfl⟩ <;> rcases hlisted x hx with h | h <;>
      exact absurd (h.symm.trans hmd5) (by decide)

def uploadedSite : World :=
  ⟨bareStorage, bareDisk.withFile "/srv/www.a.com/1/a.html".toList [1]⟩

/-- The file is on the server, and is sent again. -/
theorem uploadedSite_sent :
    ¬ ∀ (w : World) (d : Str) (v : UInt32) (dk : Disk) (path : PathBuf),
      (∀ g, w.disk.node (w.versionLoc d v) ≠ some (.file g)) → dk.find path = some .dir →
      DecidesRightly Crates.simple dk path (listingOf Crates.simple w d v) := by
  intro h
  have hversion : uploadedSite.disk.node (uploadedSite.versionLoc "www.a.com".toList 1) =
      some .dir := by decide +kernel
  obtain ⟨⟨files, hfiles, hsends⟩, _⟩ := h uploadedSite "www.a.com".toList 1
    (siteWith "a.html".toList) "/site".toList (by rw [hversion]; simp) (by decide +kernel)
  have hdecided : uploadingFiles Crates.simple (siteWith "a.html".toList) "/site".toList
      (listingOf Crates.simple uploadedSite "www.a.com".toList 1) =
        some [⟨"/a.html".toList, "/site/a.html".toList⟩] := by decide +kernel
  rw [hdecided] at hfiles
  obtain rfl := Option.some.inj hfiles
  refine (hsends [.utf8 "a.html".toList] ⟨[1], 0⟩ (by unfold LocalFile; decide +kernel)).mp
    ⟨_, List.mem_singleton_self _, by decide +kernel⟩ ?_
  exact ⟨["a.html".toList], ⟨"a.html".toList, Crates.simple.md5 [1], 1⟩, rfl, by decide +kernel,
    by decide +kernel, rfl, rfl⟩

end Client

end SpaServer
