import SpaServer.DeleteAll
import SpaServer.Serve

/-!
# Where the requests reach

`Touches` says which places of the disk an operation touches, and how; that it
leaves nothing out is `touches_of_changed`.  A request stays `Within` a version
of a domain when whatever it reads, writes or deletes is at or below `file_dir/D/V`,
with `D` the domain itself, a plain directory name, and whatever it makes or looks for
is there or on the way there.

`save_file` sanitizes the path of the file, and every method pushes the version
in decimal, but none looks at the domain.  So `confined_iff` comes to this: the
requests that name a domain behave just when the name is plain.  A delete request
that names none looks for its domains in `file_dir`, and these are plain unless
`file_dir` itself ends in `..`.
-/

namespace SpaServer

open Base Program

variable {crates : Crates}

/-! ### What an operation touches -/

inductive Access where
  | look
  | make
  | read
  | write
  | delete
  deriving DecidableEq

/-- The places an operation touches.  To ask for a path and to list the names in a
directory is to look at the one place; a walk of any depth reads all that is below. -/
def Touches (w : World) (op : Op) (a : Access) (l : Loc) : Prop :=
  match op with
  | .pathExists p | .isDir p | .walkDir p (some _) => a = .look ∧ l = w.disk.locate p
  | .walkDir p none | .cacheDir _ p =>
    a = .read ∧ w.disk.locate p <+: l ∧ w.disk.node l ≠ none
  | .createDirAll p =>
    a = .make ∧ w.disk.node l = none ∧ (w.disk.createDirAll p).2.node l ≠ none
  | .createFile p => a = .write ∧ l = w.disk.locate p
  | .openFile p => a = .read ∧ l = w.disk.locate p
  | .writeAll h data => a = .write ∧ data ≠ [] ∧ l = h.loc
  | .removeFile p => a = .delete ∧ l = w.disk.locate p
  | .removeDirAll p =>
    a = .delete ∧ w.disk.find p = some .dir ∧ w.disk.locate p <+: l ∧ w.disk.node l ≠ none
  | _ => False

/-- **Whatever an operation changes, it touches**: to make or to write what is there
afterwards, to delete what is not. -/
theorem touches_of_changed {w : World} {op : Op} {l : Loc}
    (h : (meaning crates op w).2.disk.node l ≠ w.disk.node l) :
    if (meaning crates op w).2.disk.node l = none then Touches w op .delete l
    else Touches w op .make l ∨ Touches w op .write l := by
  cases op with
  | createDirAll p =>
    rcases (w.disk.createDirAll_spec p).1.2 l with he | ⟨hn, hd, _⟩
    · exact absurd he h
    · have hsome : (w.disk.createDirAll p).2.node l ≠ none := by rw [hd]; simp
      exact (if_neg hsome).mpr (Or.inl ⟨rfl, hn, hsome⟩)
  | createFile p =>
    change (w.disk.createFile p).2.node l ≠ _ at h
    show if (w.disk.createFile p).2.node l = none then _ else _
    rcases w.disk.createFile_cases p with ⟨e, he⟩ | ⟨hc, _, he⟩
    · rw [he] at h; exact absurd rfl h
    · rw [he] at h ⊢
      have hl : l = w.disk.locate p := by
        by_contra hl
        exact h (w.disk.set_node_of_ne hc hl)
      subst hl
      rw [w.disk.set_node_self hc, if_neg (by simp)]
      exact Or.inr ⟨rfl, rfl⟩
  | writeAll hd data =>
    change (w.disk.writeAll hd data).2.node l ≠ _ at h
    show if (w.disk.writeAll hd data).2.node l = none then _ else _
    rcases w.disk.writeAll_cases hd data with he | ⟨f, _, _, hne, hc, he⟩
    · rw [he] at h; exact absurd rfl h
    · rw [he] at h ⊢
      have hl : l = hd.loc := by
        by_contra hl
        exact h (w.disk.set_node_of_ne hc hl)
      subst hl
      rw [w.disk.set_node_self hc, if_neg (by simp)]
      exact Or.inr ⟨rfl, hne, rfl⟩
  | removeFile p =>
    change (w.disk.removeFile p).2.node l ≠ _ at h
    show if (w.disk.removeFile p).2.node l = none then _ else _
    rcases w.disk.removeFile_cases p with ⟨e, he⟩ | ⟨f, hf, hne, he⟩
    · rw [he] at h; exact absurd rfl h
    · rw [he] at h ⊢
      rw [w.disk.removeTree_file hne (by rw [(Disk.find_eq_file hf).2.2]; simp)] at h ⊢
      split at h
      · next hl => rw [if_pos hl, if_pos rfl]; exact ⟨rfl, hl⟩
      · exact absurd rfl h
  | removeDirAll p =>
    change (w.disk.removeDirAll p).2.node l ≠ _ at h
    show if (w.disk.removeDirAll p).2.node l = none then _ else _
    rcases w.disk.removeDirAll_cases p with ⟨⟨e, he⟩, _⟩ | ⟨hd, hne, he⟩
    · rw [he] at h; exact absurd rfl h
    · rw [he] at h ⊢
      rw [w.disk.removeTree_node] at h ⊢
      split at h
      · next hl => rw [if_pos hl, if_pos rfl]; exact ⟨rfl, hd, hl, fun hn => h hn.symm⟩
      · exact absurd rfl h
  | _ => exact absurd rfl h

def Reaches (crates : Crates) (Q : Access → Loc → Prop) {α : Type} (p : Method α)
    (w : World) : Prop :=
  p.Along (meaning crates) (fun op s => ∀ a l, Touches s op a l → Q a l) w

theorem Reaches.of_gone {Q : Access → Loc → Prop} {α : Type} {p : Method α} {w : World}
    (h : Reaches crates Q p w) {l : Loc} (hl : w.disk.node l ≠ none)
    (hgone : (p.run (meaning crates) w).2.disk.node l = none) : Q .delete l := by
  induction p generalizing w with
  | ret a => exact absurd hgone hl
  | call op next ih =>
    by_cases hop : (meaning crates op w).2.disk.node l = none
    · have ht := @touches_of_changed crates w op l (by rw [hop]; exact hl.symm)
      rw [if_pos hop] at ht
      exact h.1 _ _ ht
    · exact ih _ h.2 hop hgone

/-! ### Where a request may reach -/

/-- At or below `file_dir/D/V`, with `D` plain, and the given domain and version if
there are any.  A request that names a domain may look and make directories also on the
way there, and one that names none may look at what is in `file_dir`. -/
def Within (w : World) (domain : Option Str) (version : Option UInt32) (a : Access)
    (l : Loc) : Prop :=
  (∃ D V, Plain D ∧ (∀ d ∈ domain, D = d) ∧ (∀ v ∈ version, V = v) ∧
    w.disk.locate w.storage.pathPrefix ++ [.utf8 D, .utf8 (toDecimal V)] <+: l) ∨
  match domain with
  | some d => (a = .look ∨ a = .make) ∧ Plain d ∧
      l <+: w.disk.locate w.storage.pathPrefix ++ [.utf8 d]
  | none => a = .look ∧ w.disk.locate w.storage.pathPrefix <+: l

section Within

variable {w : World} {d : Str} {v : UInt32}

theorem within_below (hd : Plain d) {domain : Option Str} {version : Option UInt32}
    (hdom : ∀ e ∈ domain, d = e) (hver : ∀ u ∈ version, v = u) (a : Access) {l : Loc}
    (h : w.versionLoc d v <+: l) : Within w domain version a l := by
  rw [w.versionLoc_plain hd] at h
  exact Or.inl ⟨d, v, hd, hdom, hver, h⟩

theorem within_along (hd : Plain d) {a : Access} (ha : a = .look ∨ a = .make) {l t : Loc}
    (h : l <+: w.versionLoc d v ++ t) : Within w (some d) (some v) a l := by
  have hbelow : w.versionLoc d v <+: l → Within w (some d) (some v) a l :=
    within_below hd (fun _ he => Option.some.inj he) (fun _ he => Option.some.inj he) a
  rcases List.prefix_or_prefix_of_prefix h (List.prefix_append (w.versionLoc d v) t) with hl | hl
  · rcases List.prefix_concat_iff.mp hl with rfl | hl
    · exact hbelow (List.prefix_refl _)
    · rw [w.domainLoc_plain hd] at hl
      exact Or.inr ⟨ha, hd, hl⟩
  · exact hbelow hl

end Within

/-! ### The paths of the operations -/

def Stays (cwd : Loc) (Q : Access → Loc → Prop) : Op → Prop
  | .pathExists p | .isDir p | .walkDir p (some _) => Q .look (locate cwd p)
  | .walkDir p none | .cacheDir _ p => ∀ l, locate cwd p <+: l → Q .read l
  | .createDirAll p => ∀ l, l <+: locate cwd p → Q .make l
  | .createFile p => Q .write (locate cwd p)
  | .openFile p => Q .read (locate cwd p)
  | .writeAll h _ => Q .write h.loc
  | .removeFile p => Q .delete (locate cwd p)
  | .removeDirAll p => ∀ l, locate cwd p <+: l → Q .delete l
  | _ => True

theorem touches_of_stays {w : World} {Q : Access → Loc → Prop} (op : Op)
    (h : Stays w.disk.cwd Q op) : ∀ a l, Touches w op a l → Q a l := by
  intro a l ht
  cases op with
  | pathExists p => obtain ⟨rfl, rfl⟩ := ht; exact h
  | isDir p => obtain ⟨rfl, rfl⟩ := ht; exact h
  | walkDir p k =>
    cases k with
    | none => obtain ⟨rfl, hl, _⟩ := ht; exact h l hl
    | some k => obtain ⟨rfl, rfl⟩ := ht; exact h
  | cacheDir d p => obtain ⟨rfl, hl, _⟩ := ht; exact h l hl
  | createDirAll p =>
    obtain ⟨rfl, hn, hnew⟩ := ht
    rcases (w.disk.createDirAll_spec p).1.2 l with he | ⟨_, _, hl⟩
    · exact absurd (he.trans hn) hnew
    · exact h l hl
  | createFile p => obtain ⟨rfl, rfl⟩ := ht; exact h
  | openFile p => obtain ⟨rfl, rfl⟩ := ht; exact h
  | writeAll hd data => obtain ⟨rfl, _, rfl⟩ := ht; exact h
  | removeFile p => obtain ⟨rfl, rfl⟩ := ht; exact h
  | removeDirAll p => obtain ⟨rfl, _, hl, _⟩ := ht; exact h l hl
  | _ => exact ht.elim

theorem reaches_of_stays {Q : Access → Loc → Prop} {α : Type} {p : Method α} {w : World}
    (h : p.Uses (Stays w.disk.cwd Q)) : Reaches crates Q p w :=
  h.along (fun op s _ hs => (meaning_cwd op s).trans hs)
    (fun op s hop (hs : s.disk.cwd = w.disk.cwd) => touches_of_stays op (by rwa [hs])) rfl

/-! ### The requests that name a plain domain -/

section Plain

variable {w : World} {d : Str} {v : UInt32}

theorem within_marker (hd : Plain d) (a : Access) :
    Within w (some d) (some v) a (w.markerLoc d v) :=
  within_below hd (fun _ he => Option.some.inj he) (fun _ he => Option.some.inj he) a
    (List.prefix_append _ _)

theorem stays_finishUploading (hd : Plain d) :
    (finishUploading w.storage.pathPrefix d v).Uses
      (Stays w.disk.cwd (Within w (some d) (some v))) := by
  refine ⟨?_, fun r => ?_⟩
  · have := @within_marker w d v hd .delete
    rwa [← w.locate_markerPath] at this
  · cases r with
    | error e => trivial
    | ok _ => exact ⟨trivial, fun _ => trivial⟩

theorem stays_updateUploadingStatus (hd : Plain d) (st : UploadingStatus) :
    (updateUploadingStatus w.storage.pathPrefix d v st).Uses
      (Stays w.disk.cwd (Within w (some d) (some v))) := by
  simp only [updateUploadingStatus, perform_bind]
  refine ⟨trivial, fun u => ?_⟩
  cases u with
  | some u =>
    dsimp only
    split
    · trivial
    · split
      · exact stays_finishUploading hd
      · trivial
  | none =>
    dsimp only
    split
    · refine ⟨trivial, fun serving => ?_⟩
      dsimp only
      split
      · trivial
      refine ⟨fun l hl => ?_, fun r => ?_⟩
      · refine within_along hd (Or.inr rfl) (t := []) ?_
        rw [List.append_nil, ← w.locate_versionPath]
        exact hl
      cases r with
      | error e => trivial
      | ok _ =>
        refine ⟨?_, fun r => ?_⟩
        · have := @within_marker w d v hd .write
          rwa [← w.locate_markerPath] at this
        · cases r with
          | error e => trivial
          | ok _ => exact ⟨trivial, fun _ => trivial⟩
    · exact stays_finishUploading hd

theorem reaches_status (hd : Plain d) (st : UploadingStatus) :
    Reaches crates (Within w (some d) (some v))
      (handle crates w.storage.pathPrefix (.changeUploadStatus ⟨d, v, st⟩)) w :=
  reaches_of_stays ((stays_updateUploadingStatus hd st).bind fun r => by cases r <;> trivial)

theorem reaches_files (hd : Plain d) :
    Reaches crates (Within w (some d) (some v))
      (handle crates w.storage.pathPrefix (.getFilesMetadata ⟨d, v⟩)) w := by
  refine reaches_of_stays (Program.Uses.bind ⟨?_, fun ex => ?_⟩ fun _ => trivial)
  · refine within_along hd (Or.inl rfl) (t := []) ?_
    rw [List.append_nil, ← w.locate_versionPath]
    exact List.prefix_refl _
  · cases ex with
    | false => trivial
    | true =>
      refine ⟨fun l hl => ?_, fun _ => trivial⟩
      refine within_below hd (fun _ he => Option.some.inj he) (fun _ he => Option.some.inj he) _ ?_
      rw [← w.locate_versionPath]
      exact hl

theorem reaches_writeAll {Q : Access → Loc → Prop} {hd : Handle} (data : List UInt8)
    (h : Q .write hd.loc) :
    Reaches crates Q (do
      match ← Method.writeAll hd data with
      | .error e => return .error (.io e)
      | .ok _ => return .ok () : Method (Except StorageError Unit)) w := by
  refine reaches_of_stays ⟨h, fun r => ?_⟩
  cases r <;> trivial

theorem reaches_writeFile {Q : Access → Loc → Prop} {p : PathBuf} (data : List UInt8)
    (h : ∀ a, a ≠ .delete → Q a (w.disk.locate p)) : Reaches crates Q (writeFile p data) w := by
  simp only [writeFile, perform_bind]
  refine ⟨touches_of_stays (.pathExists p) (h _ (by simp)), ?_⟩
  simp only [meaning]
  cases w.disk.exists? p with
  | true =>
    refine ⟨touches_of_stays (.openFile p) (h _ (by simp)), ?_⟩
    simp only [meaning, Disk.openFile]
    split
    · trivial
    · next hd hopen =>
      split at hopen
      · obtain rfl := Except.ok.inj hopen
        exact reaches_writeAll _ (h _ (by simp))
      · exact absurd hopen (by simp)
  | false =>
    refine ⟨touches_of_stays (.createFile p) (h _ (by simp)), ?_⟩
    simp only [meaning]
    rcases w.disk.createFile_cases p with ⟨e, he⟩ | ⟨hc, _, he⟩
    · simp only [he]
      trivial
    · simp only [he]
      exact reaches_writeAll _ (h _ (by simp))

theorem reaches_save (hd : Plain d) (path : Str) (data : List UInt8) :
    Reaches crates (Within w (some d) (some v)) (saveFile w.storage.pathPrefix d v path data)
      w := by
  simp only [saveFile, perform_bind]
  refine along_call.mpr ⟨fun _ _ ht => ht.elim, ?_⟩
  split
  case isFalse => trivial
  cases hn : sanitizedNames path with
  | none =>
    simp only [sanitizePath_eq_none hn]
    trivial
  | some names =>
  obtain ⟨p, q, hp, hq, hl, hlq, _, _⟩ := sanitizePath_version w d v hn
  have hparent : ∀ a, a = .look ∨ a = .make → ∀ l, l <+: w.disk.locate q →
      Within w (some d) (some v) a l := by
    intro a ha l hl
    rw [hlq] at hl
    exact within_along hd ha (hl.trans (List.dropLast_prefix _))
  have hfile : ∀ a, a ≠ .delete → Within w (some d) (some v) a (w.disk.locate p) := by
    intro a _
    rw [hl]
    exact within_below hd (fun _ he => Option.some.inj he) (fun _ he => Option.some.inj he) a
      (List.prefix_append _ _)
  simp only [hp, hq]
  refine ⟨touches_of_stays (.pathExists q) (hparent _ (Or.inl rfl) _ (List.prefix_refl _)), ?_⟩
  simp only [meaning]
  cases w.disk.exists? q with
  | true => exact reaches_writeFile data hfile
  | false =>
    refine ⟨touches_of_stays (.createDirAll q) (hparent _ (Or.inr rfl)), ?_⟩
    simp only [meaning]
    cases (w.disk.createDirAll q).1 with
    | error e => trivial
    | ok _ =>
      refine reaches_writeFile data ?_
      show ∀ a, a ≠ .delete → Within w _ _ a ((w.disk.createDirAll q).2.locate p)
      rw [createDirAll_locate]
      exact hfile

end Plain

/-! ### Deleting -/

section Delete

variable {w : World} {Q : Access → Loc → Prop}

def Removes (w : World) (Q : Access → Loc → Prop) : Op → Prop
  | .pathExists p => Q .look (w.disk.locate p)
  | .removeDirAll p =>
    w.disk.node (w.disk.locate p) = some .dir → ∀ l, w.disk.locate p <+: l → Q .delete l
  | _ => False

def LeftOf (w s : World) : Prop :=
  s.disk.cwd = w.disk.cwd ∧ ∀ l, s.disk.node l ≠ none → s.disk.node l = w.disk.node l

theorem reaches_of_removes {α : Type} {p : Method α} (h : p.Uses (Removes w Q)) :
    Reaches crates Q p w := by
  refine Uses.along (I := LeftOf w) h (fun op s hop hs => ?_) (fun op s hop hs a l ht => ?_)
    ⟨rfl, fun _ _ => rfl⟩
  · refine ⟨(meaning_cwd op s).trans hs.1, fun l hl => ?_⟩
    cases op with
    | pathExists p => exact hs.2 l hl
    | removeDirAll p =>
      change (s.disk.removeDirAll p).2.node l ≠ none at hl
      show (s.disk.removeDirAll p).2.node l = _
      rcases s.disk.removeDirAll_cases p with ⟨⟨e, he⟩, _⟩ | ⟨_, hne, he⟩
      · rw [he] at hl ⊢
        exact hs.2 l hl
      · rw [he] at hl ⊢
        rw [s.disk.removeTree_node] at hl ⊢
        split at hl
        · exact absurd rfl hl
        · next hpre => rw [if_neg hpre]; exact hs.2 l hl
    | _ => exact hop.elim
  · cases op with
    | pathExists p =>
      obtain ⟨rfl, rfl⟩ := ht
      rw [Disk.locate, hs.1]
      exact hop
    | removeDirAll p =>
      obtain ⟨rfl, hd, hl, _⟩ := ht
      have hnode := (Disk.find_eq_dir hd).2
      have hw := hs.2 _ (by rw [hnode]; simp)
      rw [hnode, Disk.locate, hs.1] at hw
      rw [Disk.locate, hs.1] at hl
      exact hop hw.symm l hl
    | _ => exact hop.elim

def Deletable (w : World) (Q : Access → Loc → Prop) (d : Str) (v : UInt32) : Prop :=
  Q .look (w.versionLoc d v) ∧
    (w.disk.node (w.versionLoc d v) = some .dir → ∀ l, w.versionLoc d v <+: l → Q .delete l)

theorem removes_versions {d : Str} : ∀ {vs : List UInt32}, (∀ v ∈ vs, Deletable w Q d v) →
    (Service.removeVersions w.storage.pathPrefix d vs).Uses (Removes w Q)
  | [], _ => trivial
  | v :: vs, h => by
    obtain ⟨hlook, hdel⟩ := h v List.mem_cons_self
    rw [← w.locate_versionPath] at hlook hdel
    refine Program.Uses.bind ⟨hlook, fun ex => ?_⟩ fun _ =>
      removes_versions fun u hu => h u (List.mem_cons_of_mem _ hu)
    cases ex with
    | false => trivial
    | true =>
      refine ⟨hdel, fun r => ?_⟩
      cases r <;> trivial

theorem removes_domains {m : Option UInt32} : ∀ {infos : List DomainInfo},
    (∀ i ∈ infos, ∀ v ∈ Service.deleteVersions m i, Deletable w Q i.domain v) →
    (Service.removeDomains w.storage.pathPrefix m infos).Uses (Removes w Q)
  | [], _ => trivial
  | i :: _, h =>
    (removes_versions (h i List.mem_cons_self)).bind fun _ =>
      removes_domains fun j hj => h j (List.mem_cons_of_mem _ hj)

theorem reaches_delete {q : DeleteDomainVersionOption}
    (hinfo : Reaches crates Q (Service.domainsInfo w.storage.pathPrefix q) w)
    (h : ∀ d v, Targets w q d v → Deletable w Q d v) :
    Reaches crates Q (handle crates w.storage.pathPrefix (.removeDomainVersion q)) w := by
  refine along_bind.mpr ⟨hinfo, ?_⟩
  rw [domainsInfo_run]
  refine along_bind.mpr ⟨reaches_of_removes (removes_domains fun i hi v hv => ?_), trivial⟩
  exact h _ _ ((targets_iff w q i.domain v).mpr ⟨i, hi, rfl, hv⟩)

theorem looked_versions {root : PathBuf} {d : Str} {vs : List UInt32} {s : World}
    (h : Reaches crates Q (Service.removeVersions root d vs) s) :
    ∀ v ∈ vs, Q .look (locate s.disk.cwd (getVersionPath root d v)) := by
  induction vs generalizing s with
  | nil => exact fun _ hv => absurd hv List.not_mem_nil
  | cons u us ih =>
    obtain ⟨hfirst, hrest⟩ := along_bind.mp h
    intro v hv
    rcases List.mem_cons.mp hv with rfl | hv
    · exact hfirst.1 _ _ ⟨rfl, rfl⟩
    · have := ih hrest v hv
      rwa [run_cwd] at this

theorem looked_domains {root : PathBuf} {m : Option UInt32} {infos : List DomainInfo} {s : World}
    (h : Reaches crates Q (Service.removeDomains root m infos) s) :
    ∀ i ∈ infos, ∀ v ∈ Service.deleteVersions m i,
      Q .look (locate s.disk.cwd (getVersionPath root i.domain v)) := by
  induction infos generalizing s with
  | nil => exact fun _ hi => absurd hi List.not_mem_nil
  | cons j js ih =>
    obtain ⟨hfirst, hrest⟩ := along_bind.mp h
    intro i hi v hv
    rcases List.mem_cons.mp hi with rfl | hi
    · exact looked_versions hfirst v hv
    · have := ih hrest i hi v hv
      rwa [run_cwd] at this

theorem Reaches.looked {q : DeleteDomainVersionOption}
    (h : Reaches crates Q (handle crates w.storage.pathPrefix (.removeDomainVersion q)) w)
    {d : Str} {v : UInt32} (ht : Targets w q d v) : Q .look (w.versionLoc d v) := by
  have hrest := (along_bind.mp h).2
  rw [domainsInfo_run] at hrest
  obtain ⟨i, hi, rfl, hv⟩ := (targets_iff w q d v).mp ht
  have := looked_domains (along_bind.mp hrest).1 i hi v hv
  rwa [← w.locate_versionPath]

end Delete

/-! ### Which requests behave -/

inductive AdminRequest.Names : AdminRequest → Option Str → Option UInt32 → Prop
  | status (d : Str) (v : UInt32) (st : UploadingStatus) :
      Names (.changeUploadStatus ⟨d, v, st⟩) (some d) (some v)
  | upload {parts : List Part} {data : List UInt8} {path d : Str} {v : UInt32}
      (h : formOf parts = ⟨some data, some path, some v, some d⟩) :
      Names (.uploadFile parts) (some d) (some v)
  | files (d : Str) (v : UInt32) : Names (.getFilesMetadata ⟨d, v⟩) (some d) (some v)
  | delete (d : Option Str) (m : Option UInt32) : Names (.removeDomainVersion ⟨d, m⟩) d none

/-- The request stays where it may reach, and one for a domain that is no plain name
is refused and leaves the disk alone. -/
structure Behaves (crates : Crates) (w : World) (r : AdminRequest) (domain : Option Str)
    (version : Option UInt32) : Prop where
  confined : Reaches crates (Within w domain version) (handle crates w.storage.pathPrefix r) w
  refuses : ∀ d ∈ domain, ¬ Plain d →
    (w.serve crates r).1.status ≠ 200 ∧ (w.serve crates r).2.disk = w.disk

/-- Every version that a query without a domain picks is in `file_dir`, and its directory, if
it has one, in a plainly named directory there. -/
def PicksPlain (w : World) : Prop :=
  ∀ m d v, Targets w ⟨none, m⟩ d v →
    w.disk.locate w.storage.pathPrefix <+: w.versionLoc d v ∧
    (w.disk.node (w.versionLoc d v) = some .dir → ∃ D V, Plain D ∧
      w.disk.locate w.storage.pathPrefix ++ [.utf8 D, .utf8 (toDecimal V)] <+: w.versionLoc d v)

theorem plain_of_fileName {p : PathBuf} {c : Str} (h : fileName p = some c) : Plain c := by
  rw [fileName] at h
  split at h
  · next c' hlast =>
    split at h
    · exact absurd h (by simp)
    · next hdots =>
      obtain rfl := Option.some.inj h
      have hmem := List.mem_of_getLast? hlast
      have hcomp := (List.mem_filter.mp hmem).2
      simp only [isComponent, decide_eq_true_eq] at hcomp
      exact ⟨hcomp.1, (mem_components hmem).2, hcomp.2, hdots⟩
  · exact absurd h (by simp)

theorem picksPlain_of_fileName {w : World} {c : Str} (h : fileName w.storage.pathPrefix = some c) :
    PicksPlain w := by
  rintro m d v ⟨path, ⟨e, he, hd⟩, -⟩
  have hplain : Plain d := by
    rw [domainOfEntry] at hd
    split at hd
    · next name text hname _ =>
      split at hd
      · next hcond =>
        obtain ⟨rfl, -⟩ := Prod.mk.inj (Option.some.inj hd)
        obtain ⟨hroot, -, hnode, -⟩ := Disk.mem_walkDir.mp he
        rw [Disk.Entry.fileName, OsName.toStr_eq_some] at hname
        rcases List.eq_nil_or_concat' e.rel with hrel | ⟨rel, n, hrel⟩
        · rw [hrel, hroot, h] at hname
          cases hname
          exact plain_of_fileName h
        · rw [hrel, List.getLast?_concat, Option.getD_some] at hname
          exact w.disk.plain _ (by rw [hnode]; simp) (.utf8 name) (by rw [hrel, hname]; simp)
      · exact absurd hd (by simp)
    · exact absurd hd (by simp)
  rw [w.versionLoc_plain hplain]
  exact ⟨List.prefix_append _ _, fun _ => ⟨d, v, hplain, List.prefix_refl _⟩⟩

theorem reaches_domainInfos {w : World} {Q : Access → Loc → Prop} {entries : List Disk.Entry}
    (h : ∀ e ∈ entries, ∀ d path, domainOfEntry e = some (d, path) →
      Q .look (w.disk.locate path)) : Reaches crates Q (domainInfos entries) w := by
  induction entries with
  | nil => trivial
  | cons e es ih =>
    have hrest := ih fun e' he' => h e' (List.mem_cons_of_mem _ he')
    rw [domainInfos]
    split
    · exact hrest
    · next d path hdomain =>
      refine ⟨fun _ _ ht => ht.elim, ?_⟩
      have hlook := touches_of_stays (.walkDir path (some 1)) (h e List.mem_cons_self d path hdomain)
      exact ⟨hlook, along_bind.mpr ⟨trivial, along_bind.mpr ⟨hrest, trivial⟩⟩⟩

theorem reaches_getDomainInfo {w : World} {Q : Access → Loc → Prop}
    (h : ∀ l, w.disk.locate w.storage.pathPrefix <+: l → Q .look l) :
    Reaches crates Q (getDomainInfo w.storage.pathPrefix) w := by
  refine ⟨touches_of_stays (.walkDir _ (some 1)) (h _ (List.prefix_refl _)), ?_⟩
  refine reaches_domainInfos fun e he d path hdomain => h _ ?_
  have hselected : Selected w ⟨none, none⟩ d path := ⟨e, he, hdomain⟩
  rcases (selected_none_iff (m := none)).mp hselected with ⟨hdir, rfl⟩ | ⟨_, _, rfl⟩
  · have hplain : Plain d := w.disk.plain _ (by rw [hdir.1]; simp) (.utf8 d) (by simp)
    show _ <+: locate w.disk.cwd (push w.storage.pathPrefix d)
    rw [locate_push_plain hplain]
    exact List.prefix_append _ _
  · exact List.prefix_refl _

theorem stays_getDomainInfoByDomain {w : World} {Q : Access → Loc → Prop} {d : Str}
    (h : Q .look (w.domainLoc d)) :
    (getDomainInfoByDomain w.storage.pathPrefix d).Uses (Stays w.disk.cwd Q) := by
  simp only [getDomainInfoByDomain, perform_bind]
  refine ⟨h, fun entries => ?_⟩
  dsimp only
  split
  · trivial
  · exact ⟨trivial, fun _ => trivial⟩

/-- A request that names a plain domain stays where it may reach. -/
theorem confined_of_plain {w : World} {d : Str} (hd : Plain d) {r : AdminRequest}
    {version : Option UInt32} (hr : r.Names (some d) version) :
    Reaches crates (Within w (some d) version) (handle crates w.storage.pathPrefix r) w := by
  cases hr with
  | status _ v st => exact reaches_status hd st
  | files _ v => exact reaches_files hd
  | upload hf =>
    rename_i parts data path v
    show Reaches crates _ (Service.updateFile w.storage.pathPrefix parts) w
    rw [Service.updateFile, ← formOf, hf]
    refine along_bind.mpr ⟨reaches_save hd path data, ?_⟩
    split <;> trivial
  | delete _ m =>
    have hlook : Within w (some d) none .look (w.domainLoc d) :=
      Or.inr ⟨Or.inl rfl, hd, by rw [w.domainLoc_plain hd]⟩
    refine reaches_delete ?_ fun e v ht => ?_
    · exact reaches_of_stays ((stays_getDomainInfoByDomain hlook).bind fun _ => trivial)
    · obtain ⟨path, ⟨rfl, -⟩, -⟩ := ht
      have hbelow : ∀ a l, w.versionLoc e v <+: l → Within w (some e) none a l :=
        fun a l => within_below hd (fun _ he => Option.some.inj he) (by simp) a
      exact ⟨hbelow _ _ (List.prefix_refl _), fun _ l hl => hbelow _ l hl⟩

/-- **The requests that name a domain behave just when the name is plain**, and those
that name none just when the versions they pick are in plainly named directories. -/
theorem confined_iff (w : World) (domain : Option Str) :
    (∀ r version, r.Names domain version → Behaves crates w r domain version) ↔
      match domain with
      | some d => Plain d
      | none => PicksPlain w := by
  cases domain with
  | some d =>
    constructor
    · intro h
      by_contra hd
      -- the metadata of the files of a version are given out for any domain
      refine ((h _ _ (.files d 0)).refuses d rfl hd).1 ?_
      simp only [World.serve, handle, Service.getFilesMetadata, run_bind]
      rfl
    · intro hd r version hr
      exact ⟨confined_of_plain hd hr, fun e he hne => absurd (Option.some.inj he ▸ hd) hne⟩
  | none =>
    constructor
    · intro h m d v ht
      have hconfined := (h _ _ (.delete none m)).confined
      refine ⟨?_, fun hv => ?_⟩
      · rcases hconfined.looked ht with ⟨D, V, -, -, -, hpre⟩ | ⟨-, hpre⟩
        · exact (List.prefix_append _ _).trans hpre
        · exact hpre
      have hgone := ((@delete_spec crates w ⟨none, m⟩).2.node_eq_none (by rw [hv]; simp)).mpr
        ⟨_, ⟨d, v, ht, rfl⟩, hv, List.prefix_refl _⟩
      rcases hconfined.of_gone (by rw [hv]; simp) hgone with ⟨D, V, hD, -, -, hpre⟩ | ⟨ha, -⟩
      · exact ⟨D, V, hD, hpre⟩
      · exact absurd ha (by simp)
    · intro h r version hr
      cases hr with
      | delete _ m =>
      refine ⟨?_, fun d hd => absurd hd (by simp)⟩
      have hlook : ∀ l, w.disk.locate w.storage.pathPrefix <+: l → Within w none none .look l :=
        fun l hl => Or.inr ⟨rfl, hl⟩
      refine reaches_delete (reaches_getDomainInfo hlook) fun d v ht => ?_
      obtain ⟨hin, hpicks⟩ := h m d v ht
      refine ⟨hlook _ hin, fun hv l hl => ?_⟩
      obtain ⟨D, V, hD, hpre⟩ := hpicks hv
      exact Or.inl ⟨D, V, hD, by simp, by simp, hpre.trans hl⟩

/-- An upload to the domain `..` is accepted, and begun outside `file_dir`. -/
theorem dotDot_accepted :
    ¬ ∀ (w : World) (r : AdminRequest) (domain : Option Str) (version : Option UInt32),
      r.Names domain version → Behaves Crates.simple w r domain version := by
  intro h
  refine ((h ⟨bareStorage, bareDisk⟩ _ _ _ (.status "..".toList 1 .uploading)).refuses
    "..".toList rfl (by decide)).1 ?_
  decide +kernel

end SpaServer
