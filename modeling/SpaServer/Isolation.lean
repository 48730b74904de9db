import SpaServer.Base.Area
import SpaServer.Base.Isolation
import SpaServer.ConcurrentHandlers

/-!
# Domains do not see each other

Every handler of a request for a domain works on the entries of that domain in the maps and in
its directory, and nowhere else (`isOf_handle`), provided the domain is a plain name.  So what
concurrent requests for one domain are answered and leave behind is what they would without
those for all others (`domains_isolated`), and requests for different domains come to the same
in whatever order their steps are taken (`order_irrelevant`).
-/

namespace SpaServer

open Base Program Method

variable {crates : Crates}

/-! ### What belongs to a domain -/

def domainArea (cwd : Loc) (pathPrefix : PathBuf) (d : Str) : Loc :=
  locate cwd pathPrefix ++ [.utf8 d]

/-- The operation is on the entries of the domain in the maps, or in its directory. -/
def Op.IsOf (cwd : Loc) (pathPrefix : PathBuf) (d : Str) : Op → Prop
  | metaGet e | metaInsert e _ _ | uploadingGet e | uploadingInsert e _ | uploadingRemoveIf e _
  | cacheUpdate e _ => e = d
  | cacheDir e p => e = d ∧ domainArea cwd pathPrefix d <+: locate cwd p
  | pathExists p | isDir p | walkDir p _ | createDirAll p | createFile p | openFile p
  | removeFile p | removeDirAll p => domainArea cwd pathPrefix d <+: locate cwd p
  | writeAll h _ => domainArea cwd pathPrefix d <+: h.loc

/-- A file that is opened is where its path leads. -/
def Op.MayReply (cwd : Loc) : (op : Op) → op.Reply → Prop
  | createFile p, r => ∀ h, r = .ok h → h.loc = locate cwd p
  | openFile p, r => ∀ h, r = .ok h → h.loc = locate cwd p
  | _, _ => True

/-- The worlds are alike in what belongs to `d`. -/
structure AlikeFor (d : Str) (w w' : World) : Prop where
  pathPrefix : w'.storage.pathPrefix = w.storage.pathPrefix
  conf : w'.storage.cache.conf = w.storage.cache.conf
  domainMeta : w'.storage.domainMeta d = w.storage.domainMeta d
  cached : w'.storage.cache.data d = w.storage.cache.data d
  uploading : w'.storage.uploadingStatus d = w.storage.uploadingStatus d
  disk : w.disk.AlikeIn (domainArea w.disk.cwd w.storage.pathPrefix d) w'.disk

section Area

variable {cwd : Loc} {pathPrefix : PathBuf} {d : Str}

theorem domainArea_ne_nil : domainArea cwd pathPrefix d ≠ [] := by simp [domainArea]

theorem domainArea_domain (hd : Plain d) :
    domainArea cwd pathPrefix d = locate cwd (push pathPrefix d) :=
  (locate_push_plain hd cwd pathPrefix).symm

theorem domainArea_version (hd : Plain d) (v : UInt32) :
    domainArea cwd pathPrefix d <+: locate cwd (getVersionPath pathPrefix d v) := by
  rw [getVersionPath, locate_push_plain (plain_toDecimal v), domainArea_domain hd]
  exact List.prefix_append _ _

theorem domainArea_marker (hd : Plain d) (v : UInt32) :
    domainArea cwd pathPrefix d <+: locate cwd (markerPath pathPrefix d v) := by
  rw [markerPath, locate_push_plain plain_uploadingFileName]
  exact (domainArea_version hd v).trans (List.prefix_append _ _)

end Area

/-! ### The operations -/

/-- The operations that are not on a domain: they look, or are on another one. -/
def Op.IsBeside (cwd : Loc) (pathPrefix : PathBuf) (d : Str) (op : Op) : Prop :=
  op.isLookup = true ∨ ∃ e, e ≠ d ∧ op.IsOf cwd pathPrefix e

section Alike

variable {d : Str} {w w' : World} {op : Op}

theorem AlikeFor.refl (hdir : w.disk.node (w.disk.locate w.storage.pathPrefix) = some .dir) :
    AlikeFor d w w :=
  ⟨rfl, rfl, rfl, rfl, rfl, .refl (by rw [domainArea, List.dropLast_concat]; exact hdir)⟩

theorem AlikeFor.symm (h : AlikeFor d w w') : AlikeFor d w' w where
  pathPrefix := h.pathPrefix.symm
  conf := h.conf.symm
  domainMeta := h.domainMeta.symm
  cached := h.cached.symm
  uploading := h.uploading.symm
  disk := by
    rw [h.pathPrefix, h.disk.cwd]
    exact h.disk.symm

theorem AlikeFor.trans {w'' : World} (h : AlikeFor d w w') (h' : AlikeFor d w' w'') :
    AlikeFor d w w'' where
  pathPrefix := h'.pathPrefix.trans h.pathPrefix
  conf := h'.conf.trans h.conf
  domainMeta := h'.domainMeta.trans h.domainMeta
  cached := h'.cached.trans h.cached
  uploading := h'.uploading.trans h.uploading
  disk := by
    have hnext := h'.disk
    rw [h.pathPrefix, h.disk.cwd] at hnext
    exact h.disk.trans hnext

theorem AlikeFor.reply (h : AlikeFor d w w') (hop : op.IsOf w.disk.cwd w.storage.pathPrefix d) :
    (meaning crates op w').1 = (meaning crates op w).1 := by
  have hne := @domainArea_ne_nil w.disk.cwd w.storage.pathPrefix d
  cases op with
  | metaGet e =>
    obtain rfl : e = d := hop
    exact h.domainMeta
  | uploadingGet e =>
    obtain rfl : e = d := hop
    exact h.uploading
  | cacheDir e p =>
    obtain ⟨rfl, hp⟩ := hop
    simp only [meaning, CacheSettings.cacheDir]
    rw [h.conf, h.disk.walkDir hp]
  | pathExists p => exact h.disk.exists? hop
  | isDir p => exact h.disk.isDir hop
  | walkDir p k => exact h.disk.walkDir hop k
  | createDirAll p => exact (h.disk.createDirAll hne hop).1
  | createFile p => exact (h.disk.createFile hne hop).1
  | openFile p => exact h.disk.openFile hop
  | writeAll hd data => exact (h.disk.writeAll hne hop data).1
  | removeFile p => exact (h.disk.removeFile hne hop).1
  | removeDirAll p => exact (h.disk.removeDirAll hne hop).1
  | metaInsert | uploadingInsert | uploadingRemoveIf | cacheUpdate => rfl

theorem AlikeFor.setDisk (h : AlikeFor d w w') {dk dk' : Disk} (hcwd : dk.cwd = w.disk.cwd)
    (hdk : dk.AlikeIn (domainArea w.disk.cwd w.storage.pathPrefix d) dk') :
    AlikeFor d (w.setDisk dk) (w'.setDisk dk') := by
  refine { h with disk := ?_ }
  show dk.AlikeIn (domainArea dk.cwd w.storage.pathPrefix d) dk'
  rw [hcwd]
  exact hdk

theorem AlikeFor.setMeta (h : AlikeFor d w w') {m m' : DashMap (PathBuf × UInt32)}
    (hm : m' d = m d) : AlikeFor d (w.setMeta m) (w'.setMeta m') := { h with domainMeta := hm }

theorem AlikeFor.setUploading (h : AlikeFor d w w') {m m' : DashMap UInt32} (hm : m' d = m d) :
    AlikeFor d (w.setUploading m) (w'.setUploading m') := { h with uploading := hm }

theorem AlikeFor.setCache (h : AlikeFor d w w') {c c' : FileCache} (hconf : c'.conf = c.conf)
    (hdata : c'.data d = c.data d) : AlikeFor d (w.setCache c) (w'.setCache c') :=
  { h with conf := hconf, cached := hdata }

theorem AlikeFor.effect (h : AlikeFor d w w') (hop : op.IsOf w.disk.cwd w.storage.pathPrefix d) :
    AlikeFor d (meaning crates op w).2 (meaning crates op w').2 := by
  have hne := @domainArea_ne_nil w.disk.cwd w.storage.pathPrefix d
  have hcwd := @meaning_cwd crates op w
  cases op with
  | metaInsert e p v =>
    obtain rfl : e = d := hop
    exact h.setMeta (by simp)
  | uploadingInsert e v =>
    obtain rfl : e = d := hop
    exact h.setUploading (by simp)
  | uploadingRemoveIf e v =>
    obtain rfl : e = d := hop
    refine h.setUploading ?_
    simp only [DashMap.removeIf, h.uploading]
    split <;> simp [Function.update_self, h.uploading]
  | cacheUpdate e data =>
    obtain rfl : e = d := hop
    exact h.setCache h.conf (by simp [FileCache.update])
  | createDirAll p => exact h.setDisk hcwd (h.disk.createDirAll hne hop).2
  | createFile p => exact h.setDisk hcwd (h.disk.createFile hne hop).2
  | writeAll hd data => exact h.setDisk hcwd (h.disk.writeAll hne hop data).2
  | removeFile p => exact h.setDisk hcwd (h.disk.removeFile hne hop).2
  | removeDirAll p => exact h.setDisk hcwd (h.disk.removeDirAll hne hop).2
  | metaGet | uploadingGet | cacheDir | pathExists | isDir | walkDir | openFile => exact h

theorem AlikeFor.beside (h : AlikeFor d w w') {e : Str} (he : e ≠ d)
    (hop : op.IsOf w.disk.cwd w.storage.pathPrefix e) :
    AlikeFor d (meaning crates op w).2 w' := by
  have hcwd := @meaning_cwd crates op w
  have hapart : ∀ {l}, domainArea w.disk.cwd w.storage.pathPrefix e <+: l →
      ¬ domainArea w.disk.cwd w.storage.pathPrefix d <+: l ∧
        ¬ l <+: domainArea w.disk.cwd w.storage.pathPrefix d :=
    fun hl => Disk.not_prefix_of_beside (by simpa using he.symm) hl
  have hdisk : ∀ {dk}, dk.cwd = w.disk.cwd →
      dk.AlikeIn (domainArea w.disk.cwd w.storage.pathPrefix d) w'.disk →
      AlikeFor d (w.setDisk dk) w' := fun hcwd hdk => h.setDisk hcwd hdk
  cases op with
  | metaInsert f p v =>
    obtain rfl : f = e := hop
    show AlikeFor d (w.setMeta _) (w'.setMeta w'.storage.domainMeta)
    refine h.setMeta ?_
    rw [DashMap.insert_of_ne _ he.symm, h.domainMeta]
  | uploadingInsert f v =>
    obtain rfl : f = e := hop
    show AlikeFor d (w.setUploading _) (w'.setUploading w'.storage.uploadingStatus)
    refine h.setUploading ?_
    rw [DashMap.insert_of_ne _ he.symm, h.uploading]
  | uploadingRemoveIf f v =>
    obtain rfl : f = e := hop
    show AlikeFor d (w.setUploading _) (w'.setUploading w'.storage.uploadingStatus)
    refine h.setUploading ?_
    rw [DashMap.removeIf_of_ne _ he.symm, h.uploading]
  | cacheUpdate f data =>
    obtain rfl : f = e := hop
    show AlikeFor d (w.setCache _) (w'.setCache w'.storage.cache)
    refine h.setCache h.conf ?_
    rw [h.cached]
    exact (DashMap.insert_of_ne _ he.symm _).symm
  | createDirAll p => exact hdisk hcwd (h.disk.createDirAll_beside (hapart hop).1)
  | createFile p => exact hdisk hcwd (h.disk.createFile_beside (hapart hop).1)
  | writeAll hd data => exact hdisk hcwd (h.disk.writeAll_beside (hapart hop).1 data)
  | removeFile p => exact hdisk hcwd (h.disk.removeFile_beside (hapart hop).1 (hapart hop).2)
  | removeDirAll p => exact hdisk hcwd (h.disk.removeDirAll_beside (hapart hop).1 (hapart hop).2)
  | metaGet | uploadingGet | cacheDir | pathExists | isDir | walkDir | openFile => exact h

theorem mayReply (op : Op) (w : World) : op.MayReply w.disk.cwd (meaning crates op w).1 := by
  cases op with
  | createFile p =>
    intro h hr
    rcases w.disk.createFile_cases p with ⟨e, he⟩ | ⟨_, -, he⟩
    · simp only [meaning, he] at hr
      exact absurd hr (by simp)
    · simp only [meaning, he, Except.ok.injEq] at hr
      rw [← hr]
      rfl
  | openFile p =>
    intro h hr
    simp only [meaning, Disk.openFile] at hr
    split at hr
    · rw [← Except.ok.inj hr]
      rfl
    · exact absurd hr (by simp)
  | _ => trivial

end Alike

/-- **The operations of one domain are isolated from all others.** -/
theorem isolates_domain (cwd : Loc) (pathPrefix : PathBuf) (d : Str) :
    Isolates (meaning crates) (Op.MayReply cwd) (Op.IsOf cwd pathPrefix d)
      (Op.IsBeside cwd pathPrefix d)
      fun w w' => AlikeFor d w w' ∧ w.disk.cwd = cwd ∧ w.storage.pathPrefix = pathPrefix where
  replies := by
    rintro op w w' hop ⟨h, rfl, rfl⟩
    exact h.reply hop
  effects := by
    rintro op w w' hop ⟨h, rfl, rfl⟩
    exact ⟨h.effect hop, meaning_cwd op w, meaning_pathPrefix op w⟩
  others := by
    rintro op w w' hop ⟨h, rfl, rfl⟩
    refine ⟨?_, meaning_cwd op w, meaning_pathPrefix op w⟩
    rcases hop with hlook | ⟨e, he, hop⟩
    · rwa [lookup_world hlook]
    · exact h.beside he hop
  may := by
    rintro op w w' ⟨-, rfl, -⟩
    exact mayReply op w

/-! ### The handlers -/

/-- The domain that a request is for. -/
def AdminRequest.domain : AdminRequest → Option Str
  | getDomainInfo _ => none
  | getUploadPosition option => some option.domain
  | getFilesMetadata query => some query.domain
  | updateDomainVersion option => some option.domain
  | changeUploadStatus param => some param.domain
  | uploadFile parts => (formOf parts).domain
  | removeDomainVersion query => query.domain

section Handlers

variable {cwd : Loc} {pathPrefix : PathBuf} {d : Str}

theorem isOf_getDomainInfoByDomain (hd : Plain d) :
    (getDomainInfoByDomain pathPrefix d).Uses (Op.IsOf cwd pathPrefix d) := by
  simp only [getDomainInfoByDomain, perform_bind]
  refine ⟨?_, fun entries => ?_⟩
  · show domainArea cwd pathPrefix d <+: _
    rw [domainArea_domain hd]
  · dsimp only
    split
    · trivial
    · exact ⟨rfl, fun _ => trivial⟩

theorem isOf_getUploadPosition (hd : Plain d) :
    (getUploadPosition pathPrefix d).Uses (Op.IsOf cwd pathPrefix d) := by
  refine ⟨rfl, fun uploading => ?_⟩
  cases uploading with
  | some v => trivial
  | none =>
    refine (isOf_getDomainInfoByDomain hd).bind fun info => ?_
    cases info <;> trivial

theorem isOf_getFilesMetadata (hd : Plain d) (v : UInt32) :
    (getFilesMetadata pathPrefix crates d v).Uses (Op.IsOf cwd pathPrefix d) := by
  refine ⟨domainArea_version hd v, fun ex => ?_⟩
  cases ex with
  | true => exact ⟨domainArea_version hd v, fun _ => trivial⟩
  | false => trivial

theorem isOf_releaseVersion (hd : Plain d) (v : UInt32) :
    (releaseVersion pathPrefix d v).Uses (Op.IsOf cwd pathPrefix d) := by
  simp only [releaseVersion, perform_bind]
  refine ⟨rfl, fun uploading => ?_⟩
  beta_reduce
  split
  · trivial
  · refine ⟨domainArea_version hd v, fun isdir => ?_⟩
    cases isdir with
    | false => trivial
    | true =>
      refine ⟨rfl, fun _ => ⟨⟨rfl, domainArea_version hd v⟩, fun files => ?_⟩⟩
      cases files with
      | error e => trivial
      | ok data => exact ⟨rfl, fun _ => trivial⟩

theorem isOf_uploadDomainWithVersion (hd : Plain d) (version : Option UInt32) :
    (uploadDomainWithVersion pathPrefix d version).Uses (Op.IsOf cwd pathPrefix d) := by
  cases version with
  | some v => exact isOf_releaseVersion hd v
  | none =>
    refine (isOf_getDomainInfoByDomain hd).bind fun info => ?_
    split
    · exact isOf_releaseVersion hd _
    · trivial

theorem isOf_finishUploading (hd : Plain d) (v : UInt32) :
    (finishUploading pathPrefix d v).Uses (Op.IsOf cwd pathPrefix d) := by
  simp only [finishUploading, perform_bind]
  refine ⟨domainArea_marker hd v, fun removed => ?_⟩
  cases removed with
  | error e => trivial
  | ok u => exact ⟨rfl, fun _ => trivial⟩

theorem isOf_updateUploadingStatus (hd : Plain d) (v : UInt32) (status : UploadingStatus) :
    (updateUploadingStatus pathPrefix d v status).Uses (Op.IsOf cwd pathPrefix d) := by
  simp only [updateUploadingStatus, perform_bind]
  refine ⟨rfl, fun current => ?_⟩
  cases current with
  | some u =>
    dsimp only
    split
    · trivial
    · split
      · exact isOf_finishUploading hd v
      · trivial
  | none =>
    dsimp only
    split
    · refine ⟨rfl, fun serving => ?_⟩
      dsimp only
      split
      · trivial
      · refine ⟨domainArea_version hd v, fun made => ?_⟩
        cases made with
        | error e => trivial
        | ok _ =>
          refine ⟨domainArea_marker hd v, fun marked => ?_⟩
          cases marked with
          | error e => trivial
          | ok h => exact ⟨rfl, fun _ => trivial⟩
    · exact isOf_finishUploading hd v

/-- The handle that is written to is the one that was opened. -/
theorem isOf_writeFile {filePath : PathBuf} (data : List UInt8)
    (hfile : domainArea cwd pathPrefix d <+: locate cwd filePath) :
    (writeFile filePath data).UsesWhen (Op.MayReply cwd) (Op.IsOf cwd pathPrefix d) := by
  have hloc : ∀ h : Handle, h.loc = locate cwd filePath →
      domainArea cwd pathPrefix d <+: h.loc := fun h he => he ▸ hfile
  simp only [writeFile, perform_bind]
  refine ⟨hfile, fun ex _ => ?_⟩
  cases ex with
  | false =>
    refine ⟨hfile, fun file hmay => ?_⟩
    cases file with
    | error e => trivial
    | ok h => exact ⟨hloc h (hmay h rfl), fun written _ => by cases written <;> trivial⟩
  | true =>
    refine ⟨hfile, fun file hmay => ?_⟩
    cases file with
    | error e => trivial
    | ok h => exact ⟨hloc h (hmay h rfl), fun written _ => by cases written <;> trivial⟩

theorem isOf_removeDomainVersion (hd : Plain d) (v : UInt32) :
    (removeDomainVersion pathPrefix d (some v)).Uses (Op.IsOf cwd pathPrefix d) := by
  simp only [removeDomainVersion, perform_bind]
  refine ⟨domainArea_version hd v, fun ex => ?_⟩
  cases ex with
  | false => trivial
  | true =>
    refine ⟨domainArea_version hd v, fun removed => ?_⟩
    cases removed <;> trivial

theorem isOf_removeVersions (hd : Plain d) : ∀ vs : List UInt32,
    (Service.removeVersions pathPrefix d vs).Uses (Op.IsOf cwd pathPrefix d)
  | [] => trivial
  | v :: vs => (isOf_removeDomainVersion hd v).bind fun _ => isOf_removeVersions hd vs

end Handlers

theorem isOf_saveFile (w : World) {d : Str} (hd : Plain d) (v : UInt32) (path : Str)
    (data : List UInt8) :
    (saveFile w.storage.pathPrefix d v path data).UsesWhen (Op.MayReply w.disk.cwd)
      (Op.IsOf w.disk.cwd w.storage.pathPrefix d) := by
  simp only [saveFile, perform_bind]
  refine ⟨rfl, fun uploading _ => ?_⟩
  beta_reduce
  split
  case isFalse => trivial
  cases hn : sanitizedNames path with
  | none =>
    simp only [sanitizePath_eq_none hn]
    trivial
  | some names =>
  obtain ⟨p, q, hp, hq, hl, hlq, _, _⟩ := sanitizePath_version w d v hn
  have hfile : domainArea w.disk.cwd w.storage.pathPrefix d <+: w.disk.locate p := by
    rw [hl, World.fileLoc, ← w.locate_versionPath]
    exact (domainArea_version hd v).trans (List.prefix_append _ _)
  have hparent : domainArea w.disk.cwd w.storage.pathPrefix d <+: w.disk.locate q := by
    rw [hlq, ← hl]
    refine Disk.prefix_dropLast hfile fun he => ?_
    have hlen := congrArg List.length (he.trans hl)
    rw [domainArea_domain hd] at hlen
    simp only [World.fileLoc, World.versionLoc, World.domainLoc, Disk.locate, List.length_append,
      List.length_cons, List.length_nil] at hlen
    omega
  simp only [hp, hq]
  refine ⟨hparent, fun ex _ => ?_⟩
  cases ex with
  | true => exact isOf_writeFile data hfile
  | false =>
    refine ⟨hparent, fun made _ => ?_⟩
    cases made with
    | error e => trivial
    | ok _ => exact isOf_writeFile data hfile

/-- A request that names its domain, and names it plainly. -/
structure AdminRequest.Addressed (r : AdminRequest) : Prop where
  plain : ∀ d, r.domain = some d → Plain d
  notAll : ∀ m, r ≠ .removeDomainVersion ⟨none, m⟩

/-- **The handler of a request for a domain keeps to that domain.** -/
theorem isOf_handle (w : World) {r : AdminRequest} {d : Str} (hr : r.domain = some d)
    (hd : Plain d) : (handle crates w.storage.pathPrefix r).UsesWhen (Op.MayReply w.disk.cwd)
      (Op.IsOf w.disk.cwd w.storage.pathPrefix d) := by
  cases r with
  | getDomainInfo option => exact absurd hr (by simp [AdminRequest.domain])
  | getUploadPosition option =>
    obtain rfl := Option.some.inj hr
    simp only [handle, Service.getUploadPosition]
    split
    · refine ((isOf_getUploadPosition hd).bind fun ret => ?_).usesWhen
      cases option.format <;> trivial
    · trivial
  | getFilesMetadata query =>
    obtain rfl := Option.some.inj hr
    refine ((isOf_getFilesMetadata hd query.version).bind fun data => ?_).usesWhen
    trivial
  | updateDomainVersion option =>
    obtain rfl := Option.some.inj hr
    refine ((isOf_uploadDomainWithVersion hd option.version).bind fun released => ?_).usesWhen
    cases released <;> trivial
  | changeUploadStatus param =>
    obtain rfl := Option.some.inj hr
    refine ((isOf_updateUploadingStatus hd param.version param.status).bind fun ret => ?_).usesWhen
    cases ret <;> trivial
  | uploadFile parts =>
    change (formOf parts).domain = some d at hr
    simp only [handle, Service.updateFile]
    rw [← formOf]
    split
    · next hform =>
      rw [hform] at hr
      obtain rfl := Option.some.inj hr
      refine (isOf_saveFile w hd _ _ _).bind fun saved => ?_
      cases saved <;> trivial
    · trivial
  | removeDomainVersion query =>
    obtain ⟨domain, m⟩ := query
    obtain rfl : domain = some d := hr
    simp only [handle, Service.removeDomainVersion, Service.domainsInfo, getDomainInfoByDomain,
      perform_bind, call_bind]
    refine Uses.usesWhen ⟨?_, fun entries => ?_⟩
    · show domainArea _ _ d <+: _
      rw [domainArea_domain hd]
    · beta_reduce
      cases parseVersions entries with
      | nil => trivial
      | cons v vs =>
        refine ⟨rfl, fun current => ?_⟩
        show Uses _ ((Service.removeVersions _ d (Service.deleteVersions m
          ⟨d, current.map (·.2), v :: vs⟩) >>= fun _ => .ret ()) >>= fun _ => .ret Response.ok)
        refine Uses.bind (Uses.bind (isOf_removeVersions hd _) fun _ => ?_) fun _ => ?_
        · trivial
        · trivial

/-- The handler of any other request leaves the domain alone. -/
theorem isBeside_handle (w : World) {r : AdminRequest} (hr : r.Addressed) {d : Str}
    (hne : r.domain ≠ some d) : (handle crates w.storage.pathPrefix r).UsesWhen
      (Op.MayReply w.disk.cwd) (Op.IsBeside w.disk.cwd w.storage.pathPrefix d) := by
  cases hdomain : r.domain with
  | some e =>
    refine (isOf_handle w hdomain (hr.plain e hdomain)).mono fun op hop => Or.inr ⟨e, ?_, hop⟩
    rintro rfl
    exact hne hdomain
  | none =>
    cases r with
    | getDomainInfo option =>
      exact ((handle_lookup rfl _).mono fun op hop => Or.inl hop).usesWhen
    | uploadFile parts =>
      simp only [handle, Service.updateFile]
      rw [← formOf]
      split
      · next hform =>
        change (formOf parts).domain = none at hdomain
        rw [hform] at hdomain
        exact absurd hdomain (by simp)
      · trivial
    | removeDomainVersion query =>
      obtain ⟨domain, m⟩ := query
      obtain rfl : domain = none := hdomain
      exact absurd rfl (hr.notAll m)
    | _ => exact absurd hdomain (by simp [AdminRequest.domain])

/-! ### Runs -/

section Runs

variable {rs : List AdminRequest} {w₀ w : World} {ps : List (Method Response)}

/-- For every run of requests there is one in which those for `d` alone take steps. -/
theorem isolated_run (hrs : ∀ r ∈ rs, r.Addressed)
    (hdir : w₀.disk.node (w₀.disk.locate w₀.storage.pathPrefix) = some .dir) {d : Str} (hd : Plain d)
    (h : PoolRun (meaning crates) (fun _ _ => True)
      (rs.map (handle crates w₀.storage.pathPrefix), w₀) (ps, w)) :
    ∃ ps' w', PoolRun (meaning crates)
        (fun i _ => ∃ r, rs[i]? = some r ∧ decide (r.domain = some d) = true)
        (rs.map (handle crates w₀.storage.pathPrefix), w₀) (ps', w') ∧ AlikeFor d w w' ∧
      ∀ (i : Nat) r, rs[i]? = some r → r.domain = some d → ps'[i]? = ps[i]? := by
  have hown : ∀ (i : Nat) p, (rs.map (handle crates w₀.storage.pathPrefix))[i]? = some p →
      (∃ r, rs[i]? = some r ∧ decide (r.domain = some d) = true) →
      p.UsesWhen (Op.MayReply w₀.disk.cwd) (Op.IsOf w₀.disk.cwd w₀.storage.pathPrefix d) := by
    rintro i p hp ⟨r, hi, hr⟩
    rw [List.getElem?_map, hi, Option.map_some, Option.some.injEq] at hp
    subst hp
    exact isOf_handle w₀ (of_decide_eq_true hr) hd
  have hother : ∀ (i : Nat) p, (rs.map (handle crates w₀.storage.pathPrefix))[i]? = some p →
      (¬ ∃ r, rs[i]? = some r ∧ decide (r.domain = some d) = true) →
      p.UsesWhen (Op.MayReply w₀.disk.cwd) (Op.IsBeside w₀.disk.cwd w₀.storage.pathPrefix d) := by
    intro i p hp hmine
    rw [List.getElem?_map, Option.map_eq_some_iff] at hp
    obtain ⟨r, hi, rfl⟩ := hp
    refine isBeside_handle w₀ (hrs r (List.mem_of_getElem? hi)) fun hr => ?_
    exact hmine ⟨r, hi, decide_eq_true hr⟩
  obtain ⟨⟨ps', w'⟩, hrun, halike, hsame⟩ := PoolRun.isolated
    (isolates_domain w₀.disk.cwd w₀.storage.pathPrefix d) ⟨AlikeFor.refl hdir, rfl, rfl⟩
    hown hother h
  refine ⟨ps', w', hrun, halike.1, fun i r hi hr => hsame i ⟨r, hi, ?_⟩⟩
  exact decide_eq_true hr

/-- **No request is seen from another domain.**  However the steps of any requests are ordered,
those for `d` alone can take theirs so that each of them is where it was, with the same response
if it has one, and everything that belongs to `d` is as it was. -/
theorem domains_isolated (hrs : ∀ r ∈ rs, r.Addressed)
    (hdir : w₀.disk.node (w₀.disk.locate w₀.storage.pathPrefix) = some .dir) {d : Str} (hd : Plain d)
    (h : PoolRun (meaning crates) (fun _ _ => True)
      (rs.map (handle crates w₀.storage.pathPrefix), w₀) (ps, w)) :
    ∃ w', PoolRun (meaning crates) (fun _ _ => True)
        ((rs.filter fun r => r.domain = some d).map (handle crates w₀.storage.pathPrefix), w₀)
        (picked (fun r => decide (r.domain = some d)) rs ps, w') ∧ AlikeFor d w w' := by
  obtain ⟨ps', w', hrun, halike, hsame⟩ := isolated_run hrs hdir hd h
  have hpicked := hrun.picked
  rw [picked_map] at hpicked
  refine ⟨w', ?_, halike⟩
  rwa [picked_congr (fun i r hi hr => hsame i r hi (of_decide_eq_true hr))
    (hrun.length_eq.trans h.length_eq.symm)] at hpicked

/-- **Requests for different domains come to the same in every order.**  When they are all done,
each has the response that it gets alone, and what belongs to its domain is what it leaves
alone; what belongs to any other domain has not changed. -/
theorem order_irrelevant (hrs : ∀ r ∈ rs, r.Addressed)
    (hdir : w₀.disk.node (w₀.disk.locate w₀.storage.pathPrefix) = some .dir)
    (hdistinct : rs.Pairwise fun r r' => ∀ d, r.domain = some d → r'.domain ≠ some d)
    {resps : List Response} (h : PoolRun (meaning crates) (fun _ _ => True)
      (rs.map (handle crates w₀.storage.pathPrefix), w₀) (resps.map .ret, w)) {d : Str} (hd : Plain d) :
    (∀ (i : Nat) r, rs[i]? = some r → r.domain = some d →
        resps[i]? = some (w₀.serve crates r).1 ∧ AlikeFor d (w₀.serve crates r).2 w) ∧
      ((∀ r ∈ rs, r.domain ≠ some d) → AlikeFor d w₀ w) := by
  obtain ⟨ps', w', hrun, halike, hsame⟩ := isolated_run hrs hdir hd h
  have honly : ∀ {i j : Nat} {r r' : AdminRequest}, rs[i]? = some r → rs[j]? = some r' →
      r.domain = some d → r'.domain = some d → ¬ i < j := by
    intro i j r r' hi hj hr hr' hlt
    obtain ⟨hilt, rfl⟩ := List.getElem?_eq_some_iff.mp hi
    obtain ⟨hjlt, rfl⟩ := List.getElem?_eq_some_iff.mp hj
    exact List.pairwise_iff_getElem.mp hdistinct i j hilt hjlt hlt d hr hr'
  constructor
  · intro i r hi hr
    have halone : PoolRun (meaning crates) (fun j _ => j = i)
        (rs.map (handle crates w₀.storage.pathPrefix), w₀) (ps', w') := by
      refine Relation.ReflTransGen.mono (fun c c' hstep => ?_) _ _ hrun
      obtain ⟨j, ⟨r', hj, hr'⟩, hstep⟩ := hstep
      have hr' : r'.domain = some d := of_decide_eq_true hr'
      have hle := honly hi hj hr hr'
      have hge := honly hj hi hr' hr
      exact ⟨j, by omega, hstep⟩
    have hlen : resps.length = rs.length := by simpa using h.length_eq
    have hlt : i < resps.length := by
      rw [hlen]
      exact (List.getElem?_eq_some_iff.mp hi).1
    have hdone : ps'[i]? = some (.ret resps[i]) := by
      rw [hsame i r hi hr, List.getElem?_map, List.getElem?_eq_getElem hlt]
      rfl
    have hserve : w₀.serve crates r = (resps[i], w') := by
      refine run_of_alone halone ?_ hdone
      rw [List.getElem?_map, hi]
      rfl
    rw [hserve, List.getElem?_eq_getElem hlt]
    exact ⟨rfl, halike.symm⟩
  · intro hnone
    have hstill : (ps', w') = (rs.map (handle crates w₀.storage.pathPrefix), w₀) := by
      rcases Relation.ReflTransGen.cases_head hrun with he | ⟨_, ⟨_, ⟨r, hj, hr⟩, _⟩, _⟩
      · exact he.symm
      · exact absurd (of_decide_eq_true hr) (hnone r (List.mem_of_getElem? hj))
    obtain ⟨-, rfl⟩ := Prod.mk.inj hstill
    exact halike.symm

end Runs

def twoDomains : List AdminRequest :=
  [.updateDomainVersion ⟨"www.a.com".toList, some 1⟩,
    .changeUploadStatus ⟨"www.b.com".toList, 3, .uploading⟩]

theorem addressed_twoDomains : ∀ r ∈ twoDomains, r.Addressed := by
  intro r hr
  have hr : r = .updateDomainVersion ⟨"www.a.com".toList, some 1⟩ ∨
      r = .changeUploadStatus ⟨"www.b.com".toList, 3, .uploading⟩ := by
    simpa [twoDomains] using hr
  rcases hr with rfl | rfl
  · refine ⟨fun d hd => ?_, fun m h => by simp at h⟩
    rw [← Option.some.inj hd]
    decide
  · refine ⟨fun d hd => ?_, fun m h => by simp at h⟩
    rw [← Option.some.inj hd]
    decide

def turns (sched : List Nat) : List (Method Response) × World :=
  follow (meaning Crates.simple) sched
    (twoDomains.map (handle Crates.simple twoVersions.storage.pathPrefix), twoVersions)

theorem turns_run (sched : List Nat) : PoolRun (meaning Crates.simple) (fun _ _ => True)
    (twoDomains.map (handle Crates.simple twoVersions.storage.pathPrefix), twoVersions)
    ((turns sched).1, (turns sched).2) :=
  follow_run (meaning Crates.simple) sched _

/-- The release has not stored its files when it is looked at. -/
theorem domains_isolated_twoDomains :
    ∃ w', PoolRun (meaning Crates.simple) (fun _ _ => True)
        ((twoDomains.filter fun r => r.domain = some "www.b.com".toList).map
          (handle Crates.simple twoVersions.storage.pathPrefix), twoVersions)
        (picked (fun r => decide (r.domain = some "www.b.com".toList)) twoDomains
          (turns [0, 1, 1, 0, 1, 0, 1]).1, w') ∧
      AlikeFor "www.b.com".toList (turns [0, 1, 1, 0, 1, 0, 1]).2 w' :=
  domains_isolated addressed_twoDomains (by decide) (by decide) (turns_run _)

theorem order_irrelevant_twoDomains :
    let w := (turns [0, 1, 1, 0, 1, 0, 1, 1, 0, 0]).2
    let release : AdminRequest := .updateDomainVersion ⟨"www.a.com".toList, some 1⟩
    (twoVersions.serve Crates.simple release).1 =
        ⟨200, .text "domain:www.a.com has changed to 1".toList⟩ ∧
      AlikeFor "www.a.com".toList (twoVersions.serve Crates.simple release).2 w := by
  intro w release
  have hdone : (turns [0, 1, 1, 0, 1, 0, 1, 1, 0, 0]).1 =
      [(⟨200, .text "domain:www.a.com has changed to 1".toList⟩ : Response), .ok].map .ret := rfl
  have hrun := turns_run [0, 1, 1, 0, 1, 0, 1, 1, 0, 0]
  rw [hdone] at hrun
  have hdistinct : twoDomains.Pairwise fun r r' => ∀ d, r.domain = some d → r'.domain ≠ some d := by
    refine List.pairwise_pair.mpr fun d hd hd' => ?_
    exact absurd (hd.trans hd'.symm) (by decide)
  have h := (order_irrelevant addressed_twoDomains (by decide) hdistinct hrun
    (d := "www.a.com".toList) (by decide)).1 0 release rfl rfl
  exact ⟨(Option.some.inj h.1).symm, h.2⟩

end SpaServer
