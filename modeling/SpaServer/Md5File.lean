import SpaServer.Base.Reader
import SpaServer.Client.UploadFiles

/-!
# Digests of files read in pieces

`md5_file` reads a file into a buffer of one mebibyte until nothing more comes, and hands every
piece to the hasher.  The server calls it for each file of a version, the client for each local
file whose length the server has, and both use one buffer for all files.

The other modules take the digest of all bytes at once (`Crates.md5`).  `digests_agree` says that
this is what comes out, however the reads are cut; and where a read fails, the server lists fewer
files and the client sends more of them, never the other way round.
-/

namespace SpaServer

open Base Program Client

/-- `md5::Md5`, a `Digest`. -/
structure Md5 (H : Type) where
  new : H
  update : H → List UInt8 → H
  finalize : H → List UInt8

/-- A `Digest` does not see how its input is cut. -/
structure Md5.Documented {H : Type} (md5 : Md5 H) : Prop where
  nil : ∀ h, md5.update h [] = h
  append : ∀ h a b, md5.update (md5.update h a) b = md5.update h (a ++ b)

def lowerHex (bytes : List UInt8) : Str :=
  bytes.flatMap fun b => [Nat.digitChar (b.toNat / 16), Nat.digitChar (b.toNat % 16)]

section Md5File

variable {H : Type} (md5 : Md5 H) (opened : PathBuf → Option Turns)

def Md5.digest (bytes : List UInt8) : Str := lowerHex (md5.finalize (md5.update md5.new bytes))

/-- `md5_file`, of a file with these bytes: `opened` says whether it can be opened and how its
reads go. -/
def md5File (path : PathBuf) (bytes buf : List UInt8) : Option Str × List UInt8 :=
  match opened path with
  | none => (none, buf)
  | some turns =>
    let (hasher, buf) := feed md5.update turns 0 buf bytes md5.new
    (hasher.map fun h => lowerHex (md5.finalize h), buf)

/-- `byte_buffer`, on both sides. -/
def byteBuffer : List UInt8 := List.replicate (1024 * 1024) 0

/-- `get_short_metadata` as it reads the file, with the filter in front of it. -/
def readShortMetadata (root : PathBuf) (e : Disk.Entry) (buf : List UInt8) :
    Option ShortMetaData × List UInt8 :=
  if e.fileName = .utf8 uploadingFileName then (none, buf)
  else match e.node, e.text with
    | .file f, some x =>
      let (md5, buf) := md5File md5 opened x f.bytes buf
      (md5.map fun md5 => ⟨remove (root ++ ['/']) x, md5, f.bytes.length⟩, buf)
    | _, _ => (none, buf)

def readFilesMetadata (pathPrefix : PathBuf) (domain : Str) (version : UInt32) :
    Method (List ShortMetaData) := do
  let path := getVersionPath pathPrefix domain version
  match ← Method.pathExists path with
  | true =>
    let entries ← Method.walkDir path none
    return filterMapWith (readShortMetadata md5 opened path) entries byteBuffer
  | false => return []

/-- What `upload_files` does about one entry, as it reads the file. -/
def readUploadingFile (serverMetadata : DashMap ShortMetaData) (prefixPath : Str) (e : Disk.Entry)
    (buf : List UInt8) : Option UploadingFile × List UInt8 :=
  match e.node, e.text with
  | .file f, some path =>
    let key := remove prefixPath path
    match serverMetadata key with
    | some x =>
      if x.length = f.bytes.length then
        let (md5, buf) := md5File md5 opened path f.bytes buf
        if md5 = some x.md5 then (none, buf) else (some ⟨key, path⟩, buf)
      else (some ⟨key, path⟩, buf)
    | none => (some ⟨key, path⟩, buf)
  | _, _ => (none, buf)

/-- The files that `upload_files` sends, as it reads them. -/
def readUploadingFiles (serverMetadata : List ShortMetaData) (prefixPath : Str)
    (entries : List Disk.Entry) : List UploadingFile :=
  filterMapWith (readUploadingFile md5 opened
    (DashMap.collect (serverMetadata.map fun x => (x.path, x))) prefixPath) entries byteBuffer

def AllRead (opened : PathBuf → Option Turns) : Prop :=
  ∀ path, ∃ turns, opened path = some turns ∧ turns.NeverFail

variable {md5 opened}

/-- **The digest of the pieces is the digest of the file**, or a read has failed. -/
theorem md5File_spec (hmd5 : md5.Documented) (path : PathBuf) (bytes : List UInt8)
    {buf : List UInt8} (hbuf : buf ≠ []) :
    (md5File md5 opened path bytes buf).2.length = buf.length ∧
      ((md5File md5 opened path bytes buf).1 = some (md5.digest bytes) ∨
        (md5File md5 opened path bytes buf).1 = none ∧ ¬ AllRead opened) := by
  unfold md5File
  cases ho : opened path with
  | none =>
    refine ⟨rfl, Or.inr ⟨rfl, fun hall => ?_⟩⟩
    obtain ⟨turns, hturns, -⟩ := hall path
    exact absurd (ho.symm.trans hturns) (by simp)
  | some turns =>
    obtain ⟨hlen, hfed⟩ := @feed_spec H md5.update turns hmd5.nil hmd5.append 0 buf hbuf bytes md5.new
    refine ⟨hlen, hfed.imp (fun he => ?_) fun hfail => ?_⟩
    · simp only [he, Option.map_some, Md5.digest]
    · obtain ⟨hnone, j, hj⟩ := hfail
      refine ⟨by simp only [hnone, Option.map_none], fun hall => ?_⟩
      obtain ⟨turns', hturns, hnever⟩ := hall path
      obtain rfl := Option.some.inj (ho.symm.trans hturns)
      exact hnever j hj

theorem readShortMetadata_spec {crates : Crates} (hmd5 : md5.Documented)
    (hcrates : crates.md5 = md5.digest) (root : PathBuf) (e : Disk.Entry) {buf : List UInt8}
    (hbuf : buf ≠ []) : (readShortMetadata md5 opened root e buf).2.length = buf.length ∧
      ((readShortMetadata md5 opened root e buf).1 = getShortMetadata crates root e ∨
        (readShortMetadata md5 opened root e buf).1 = none ∧ ¬ AllRead opened) := by
  unfold readShortMetadata getShortMetadata
  split
  · exact ⟨rfl, Or.inl rfl⟩
  · cases e.node with
    | dir => exact ⟨rfl, Or.inl rfl⟩
    | file f =>
      cases e.text with
      | none => exact ⟨rfl, Or.inl rfl⟩
      | some x =>
        obtain ⟨hlen, hval⟩ := @md5File_spec H md5 opened hmd5 x f.bytes buf hbuf
        refine ⟨hlen, hval.imp (fun he => ?_) fun hfail => ?_⟩
        · simp only [he, hcrates, Option.map_some]
        · exact ⟨by simp only [hfail.1, Option.map_none], hfail.2⟩

theorem readUploadingFile_spec {crates : Crates} (hmd5 : md5.Documented)
    (hcrates : crates.md5 = md5.digest) (serverMetadata : DashMap ShortMetaData) (prefixPath : Str)
    (e : Disk.Entry) {buf : List UInt8} (hbuf : buf ≠ []) :
    (readUploadingFile md5 opened serverMetadata prefixPath e buf).2.length = buf.length ∧
      ((readUploadingFile md5 opened serverMetadata prefixPath e buf).1 =
          uploadingFile crates serverMetadata prefixPath e ∨
        uploadingFile crates serverMetadata prefixPath e = none ∧ ¬ AllRead opened) := by
  unfold readUploadingFile uploadingFile
  cases e.node with
  | dir => exact ⟨rfl, Or.inl rfl⟩
  | file f =>
    cases e.text with
    | none => exact ⟨rfl, Or.inl rfl⟩
    | some path =>
      dsimp only
      cases hx : serverMetadata (remove prefixPath path) with
      | none => exact ⟨rfl, Or.inl rfl⟩
      | some x =>
        rw [Option.any_some, hcrates]
        dsimp only
        by_cases hsize : x.length = f.bytes.length
        · -- the digest is computed for files of this length only
          obtain ⟨hlen, hval⟩ := @md5File_spec H md5 opened hmd5 path f.bytes buf hbuf
          rw [if_pos hsize]
          rcases hval with he | ⟨hnone, hfail⟩
          · rw [he]
            by_cases hsame : md5.digest f.bytes = x.md5
            · rw [if_pos (by rw [hsame]), if_pos (decide_eq_true ⟨hsize, hsame⟩)]
              exact ⟨hlen, Or.inl rfl⟩
            · rw [if_neg (by simpa using hsame), if_neg (by simp [hsame])]
              exact ⟨hlen, Or.inl rfl⟩
          · rw [hnone, if_neg (by simp)]
            refine ⟨hlen, ?_⟩
            by_cases hsame : md5.digest f.bytes = x.md5
            · exact Or.inr ⟨if_pos (decide_eq_true ⟨hsize, hsame⟩), hfail⟩
            · exact Or.inl (if_neg (by simp [hsame])).symm
        · rw [if_neg hsize, if_neg (by simp [hsize])]
          exact ⟨rfl, Or.inl rfl⟩

theorem ne_nil_of_byteBuffer {buf : List UInt8} (h : buf.length = byteBuffer.length) : buf ≠ [] := by
  rintro rfl
  rw [byteBuffer, List.length_replicate, List.length_nil] at h
  omega

variable {crates : Crates} (hmd5 : md5.Documented) (hcrates : crates.md5 = md5.digest)

include hmd5 hcrates

theorem readMetadata_sublist (root : PathBuf) (entries : List Disk.Entry) :
    (filterMapWith (readShortMetadata md5 opened root) entries byteBuffer).Sublist
      (entries.filterMap (getShortMetadata crates root)) := by
  refine filterMapWith_sublist (fun e buf hbuf => ?_) entries rfl
  obtain ⟨hlen, hval⟩ := @readShortMetadata_spec H md5 opened crates hmd5 hcrates root e buf
    (ne_nil_of_byteBuffer hbuf)
  exact ⟨hlen.trans hbuf, hval.imp_right And.left⟩

theorem readMetadata_eq (hall : AllRead opened) (root : PathBuf) (entries : List Disk.Entry) :
    filterMapWith (readShortMetadata md5 opened root) entries byteBuffer =
      entries.filterMap (getShortMetadata crates root) := by
  refine filterMapWith_eq (fun e buf hbuf => ?_) entries rfl
  obtain ⟨hlen, hval⟩ := @readShortMetadata_spec H md5 opened crates hmd5 hcrates root e buf
    (ne_nil_of_byteBuffer hbuf)
  exact ⟨hlen.trans hbuf, hval.resolve_right fun hfail => hfail.2 hall⟩

theorem readUploadingFiles_sublist (serverMetadata : List ShortMetaData) (prefixPath : Str)
    (entries : List Disk.Entry) :
    (entries.filterMap (uploadingFile crates
      (DashMap.collect (serverMetadata.map fun x => (x.path, x))) prefixPath)).Sublist
      (readUploadingFiles md5 opened serverMetadata prefixPath entries) := by
  refine sublist_filterMapWith (fun e buf hbuf => ?_) entries rfl
  obtain ⟨hlen, hval⟩ := @readUploadingFile_spec H md5 opened crates hmd5 hcrates
    (DashMap.collect (serverMetadata.map fun x => (x.path, x))) prefixPath e buf
    (ne_nil_of_byteBuffer hbuf)
  exact ⟨hlen.trans hbuf, hval.imp_right And.left⟩

theorem readUploadingFiles_eq (hall : AllRead opened) (serverMetadata : List ShortMetaData)
    (prefixPath : Str) (entries : List Disk.Entry) :
    readUploadingFiles md5 opened serverMetadata prefixPath entries =
      entries.filterMap (uploadingFile crates
        (DashMap.collect (serverMetadata.map fun x => (x.path, x))) prefixPath) := by
  refine filterMapWith_eq (fun e buf hbuf => ?_) entries rfl
  obtain ⟨hlen, hval⟩ := @readUploadingFile_spec H md5 opened crates hmd5 hcrates
    (DashMap.collect (serverMetadata.map fun x => (x.path, x))) prefixPath e buf
    (ne_nil_of_byteBuffer hbuf)
  exact ⟨hlen.trans hbuf, hval.resolve_right fun hfail => hfail.2 hall⟩

omit hmd5 hcrates in
/-- A file that is not to be sent is on the list, with its length and its digest. -/
theorem listed_of_uploadingFile_none {listed : List ShortMetaData} {prefixPath : Str}
    {e : Disk.Entry} {f : FileData} {path : Str} (hnode : e.node = .file f)
    (htext : e.text = some path)
    (h : uploadingFile crates (DashMap.collect (listed.map fun x => (x.path, x))) prefixPath e = none) :
    ⟨remove prefixPath path, crates.md5 f.bytes, f.bytes.length⟩ ∈ listed := by
  unfold uploadingFile at h
  rw [hnode, htext] at h
  dsimp only at h
  cases hx : DashMap.collect (listed.map fun x => (x.path, x)) (remove prefixPath path) with
  | none => exact absurd h (by simp [hx])
  | some x =>
    rw [hx, Option.any_some] at h
    split at h
    · next hsame =>
      obtain ⟨hlen, hdigest⟩ := of_decide_eq_true hsame
      obtain ⟨y, hy, hpair⟩ := List.mem_map.mp (DashMap.mem_of_collect hx)
      obtain ⟨hpath, rfl⟩ := Prod.mk.inj hpair
      rw [← hpath, hdigest, ← hlen]
      exact hy
    · exact absurd h (by simp)

end Md5File

/-- **Reading in pieces agrees with the digest of whole files.**  The server lists no file with
another digest than its own; a local file that the client does not send is on the server, whole;
and when no read fails, both lists are those that whole files give. -/
theorem digests_agree {H : Type} {md5 : Md5 H} {crates : Crates} (hmd5 : md5.Documented)
    (hcrates : crates.md5 = md5.digest) (opened opened' : PathBuf → Option Turns) (w : World)
    (d : Str) (v : UInt32) (prefixPath : Str) (locals : List Disk.Entry) :
    let listed := ((readFilesMetadata md5 opened w.storage.pathPrefix d v).run (meaning crates) w).1
    let whole := ((getFilesMetadata w.storage.pathPrefix crates d v).run (meaning crates) w).1
    let sent := readUploadingFiles md5 opened' listed prefixPath locals
    listed.Sublist whole ∧
      (∀ e ∈ locals, ∀ f path, e.node = .file f → e.text = some path →
        ⟨remove prefixPath path, path⟩ ∉ sent →
        ⟨remove prefixPath path, md5.digest f.bytes, f.bytes.length⟩ ∈ whole) ∧
      (AllRead opened → AllRead opened' → listed = whole ∧
        sent = locals.filterMap (uploadingFile crates
          (DashMap.collect (whole.map fun x => (x.path, x))) prefixPath)) := by
  intro listed whole sent
  have hread : ∀ root entries,
      (filterMapWith (readShortMetadata md5 opened root) entries byteBuffer).Sublist
          (entries.filterMap (getShortMetadata crates root)) ∧
        (AllRead opened → filterMapWith (readShortMetadata md5 opened root) entries byteBuffer =
          entries.filterMap (getShortMetadata crates root)) := fun root entries =>
    ⟨readMetadata_sublist hmd5 hcrates root entries,
      fun hall => readMetadata_eq hmd5 hcrates hall root entries⟩
  have hlisted : listed.Sublist whole ∧ (AllRead opened → listed = whole) := by
    simp only [listed, whole, readFilesMetadata, getFilesMetadata, Method.pathExists, perform_bind,
      run_call, meaning]
    cases w.disk.exists? (getVersionPath w.storage.pathPrefix d v) with
    | false => exact ⟨List.Sublist.refl _, fun _ => rfl⟩
    | true => exact hread _ _
  have hsent : (locals.filterMap (uploadingFile crates
      (DashMap.collect (listed.map fun x => (x.path, x))) prefixPath)).Sublist sent :=
    readUploadingFiles_sublist hmd5 hcrates listed prefixPath locals
  refine ⟨hlisted.1, fun e he f path hnode htext hnot => ?_, fun hall hall' => ⟨hlisted.2 hall, ?_⟩⟩
  · have hskip : uploadingFile crates (DashMap.collect (listed.map fun x => (x.path, x))) prefixPath e
        = none := by
      by_contra hsome
      obtain ⟨file, hfile⟩ := Option.ne_none_iff_exists'.mp hsome
      refine hnot (hsent.subset (List.mem_filterMap.mpr ⟨e, he, ?_⟩))
      rw [hfile]
      unfold uploadingFile at hfile
      rw [hnode, htext] at hfile
      dsimp only at hfile
      split at hfile
      · exact absurd hfile (by simp)
      · exact hfile.symm
    have hmem := listed_of_uploadingFile_none hnode htext hskip
    rw [hcrates] at hmem
    exact hlisted.1.subset hmem
  · rw [← hlisted.2 hall]
    exact readUploadingFiles_eq hmd5 hcrates hall' listed prefixPath locals

/-- It does to the bytes of "ab" what MD5 does to them. -/
def letterMd5 : Md5 (List UInt8) where
  new := []
  update h a := h ++ a
  finalize bytes :=
    if bytes = [97, 98] then [0x18, 0x7e, 0xf4, 0x43, 0x61, 0x22, 0xd1, 0xcc, 0x2f, 0x40, 0xdc, 0x2b,
      0x92, 0xf0, 0xeb, 0xa0]
    else bytes

/-- A local copy of a page under its own name, and under one that comes to the same when the
directory is taken out of it. -/
def letterCopies : Disk :=
  (Disk.empty.withFile "/site/index.html".toList [97, 98]).withFile
    "/site/siteindex.html".toList [97, 98]

/-- One byte comes at a time, on both sides: the first copy is sent, and the second is on the
server. -/
theorem digests_agree_bytewise :
    let crates := { Crates.simple with md5 := letterMd5.digest }
    let w : World := ⟨bareStorage, Disk.empty.withFile "/srv/www.a.com/1/index.html".toList [97, 98]⟩
    let listed := ((readFilesMetadata letterMd5 (fun _ => some fun _ => some 0) "/srv".toList
      "www.a.com".toList 1).run (meaning crates) w).1
    listed = [⟨"index.html".toList, "187ef4436122d1cc2f40dc2b92f0eba0".toList, 2⟩] ∧
    readUploadingFiles letterMd5 (fun _ => some fun _ => some 0) listed "/site".toList
        (letterCopies.walkDir "/site".toList none) =
      [⟨"/index.html".toList, "/site/index.html".toList⟩] := by
  intro crates w listed
  have hall : AllRead fun _ => some fun _ => some 0 := fun path => ⟨_, rfl, fun i => by simp⟩
  have hmd5 : letterMd5.Documented := ⟨List.append_nil, List.append_assoc⟩
  have hcrates : crates.md5 = letterMd5.digest := rfl
  have h := digests_agree hmd5 hcrates (fun _ => some fun _ => some 0)
    (fun _ => some fun _ => some 0) w "www.a.com".toList 1 "/site".toList
    (letterCopies.walkDir "/site".toList none)
  obtain ⟨hlisted, hsent⟩ := h.2.2 hall hall
  refine ⟨hlisted.trans ?_, hsent.trans ?_⟩
  · decide +kernel
  · decide +kernel

end SpaServer
