import SpaServer.Client.Keys

/-!
# What an upload does to the server

How the host answers the requests of `upload_files` (`answer_uploadFile` and so on),
what concurrent uploads of files leave behind (`uploads_run`), and what a run of
`uploadFiles` that returns `Ok` has gone through (`uploadFiles_ok`).

`Saved` relates the server before and after: whatever was there stays, and what is
new is one of the files at the place its key leads to, or a directory on the way.
-/

namespace SpaServer

open Base Program

namespace Client

/-! ### How the host answers -/

section Answers

variable {host : Host} {api : API} {w : World} {req : HttpRequest}

theorem answer_getUploadPosition {d : Str} (h : api.getUploadPosition d = .ok req) :
    host.answer w req = if api.authToken = host.conf.token then
      w.serve host.crates (.getUploadPosition ⟨d, .json⟩) else (.notFound, w) := by
  rw [Host.answer, routes_getUploadPosition h]
  split_ifs <;> rfl

theorem answer_getFileMetadata {d : Str} {v : UInt32} (h : api.getFileMetadata d v = .ok req) :
    host.answer w req = if api.authToken = host.conf.token then
      w.serve host.crates (.getFilesMetadata ⟨d, v⟩) else (.notFound, w) := by
  rw [Host.answer, routes_getFileMetadata h]
  split_ifs <;> rfl

theorem answer_changeUploadingStatus {param : UpdateUploadingStatusOption}
    (h : api.changeUploadingStatus param = .ok req) :
    host.answer w req =
      if api.authToken = host.conf.token ∧ jsonLength param.toJson ≤ 1024 * 16 then
        w.serve host.crates (.changeUploadStatus param)
      else (.notFound, w) := by
  rw [Host.answer, routes_changeUploadingStatus h]
  split_ifs <;> rfl

def Host.Takes (host : Host) (api : API) (domain version key : Str) (path : PathBuf)
    (content : List UInt8) : Prop :=
  api.authToken = host.conf.token ∧ ∀ name, fileName path = some name →
    host.formLength (API.uploadForm domain version key name content) ≤ host.conf.maxUploadSize

theorem answer_uploadFile {dk : Disk} {d key : Str} {v : UInt32} {path : PathBuf} {f : FileData}
    (hf : dk.find path = some (.file f))
    (h : api.uploadFile dk d (toDecimal v) key path = .ok req) :
    (¬ host.Takes api d (toDecimal v) key path f.bytes ∧ host.answer w req = (.notFound, w)) ∨
    host.Takes api d (toDecimal v) key path f.bytes ∧
      ∃ res, SaveOutcome w d v key f.bytes res ∧
        host.answer w req = (resultResponse res.1, res.2) := by
  obtain ⟨name, f', hname, hf', rfl⟩ := uploadFile_eq_ok.mp h
  cases hf.symm.trans hf'
  have htakes : host.Takes api d (toDecimal v) key path f.bytes ↔
      api.authToken = host.conf.token ∧
        host.formLength (API.uploadForm d (toDecimal v) key name f.bytes) ≤
          host.conf.maxUploadSize := by
    refine and_congr_right fun _ => ⟨fun hall => hall name hname, fun hle n hn => ?_⟩
    obtain rfl := Option.some.inj (hname.symm.trans hn)
    exact hle
  rw [htakes, Host.answer, routes_uploadForm]
  split
  · next r hr =>
    split at hr
    · next hfits =>
      obtain rfl := AdminCall.service.inj (Option.some.inj hr)
      refine Or.inr ⟨hfits, ?_⟩
      have ho := @serve_outcome host.crates w (.uploadFile
        ((API.uploadForm d (toDecimal v) key name f.bytes).map (·.toPart)))
      have hform := formOf_uploadForm d (toDecimal v) key name f.bytes
      rw [parseU32_toDecimal] at hform
      generalize w.serve host.crates (.uploadFile
        ((API.uploadForm d (toDecimal v) key name f.bytes).map (·.toPart))) = res at ho ⊢
      cases ho with
      | looks hl => exact absurd hl (by simp [AdminRequest.isLookup])
      | badForm hbad => exact absurd hform (hbad _ _ _ _)
      | save hf' ho =>
        rw [hform] at hf'
        cases hf'
        exact ⟨_, ho, rfl⟩
    · exact absurd hr (by simp)
  · next hr =>
    refine Or.inl ⟨fun hfits => ?_, rfl⟩
    rw [if_pos hfits] at hr
    exact hr _ rfl

/-- A request is answered, or handled without an answer, or nothing happens. -/
theorem meaning_cases (host : Host) (req : HttpRequest) (n : Net) :
    (host.meaning req n).1 = some (host.answer n.world req).1 ∧
      (host.meaning req n).2.world = (host.answer n.world req).2 ∨
    (host.meaning req n).1 = none ∧
      ((host.meaning req n).2.world = (host.answer n.world req).2 ∨
        (host.meaning req n).2.world = n.world) := by
  obtain ⟨w, deliveries⟩ := n
  rw [Host.meaning]
  split
  · exact Or.inl ⟨rfl, rfl⟩
  · exact Or.inr ⟨rfl, Or.inl rfl⟩
  · exact Or.inr ⟨rfl, Or.inr rfl⟩

theorem call_ok {r : Except ApiError HttpRequest} {n : Net} {reply : Option Response} {n' : Net}
    (h : (call r).run host.meaning n = (reply, n')) (hok : reply ≠ none) :
    ∃ req, r = .ok req ∧ reply = some (host.answer n.world req).1 ∧
      n'.world = (host.answer n.world req).2 := by
  cases r with
  | error e =>
    obtain ⟨rfl, -⟩ := Prod.mk.inj h
    exact absurd rfl hok
  | ok req =>
    have hcases := meaning_cases host req n
    rw [show host.meaning req n = (reply, n') from h] at hcases
    rcases hcases with ⟨hr, hw⟩ | ⟨hr, -⟩
    · exact ⟨req, rfl, hr, hw⟩
    · exact absurd hr hok

end Answers

/-! ### What is saved -/

section Saved

variable {dk : Disk} {dir : LocalDir dk} {d : Str} {v : UInt32} {who : List Str → Prop}

/-- The server with some uploads more: what was there stays, and what is new is one of
these files where its key leads, or a directory on the way. -/
structure Saved (dir : LocalDir dk) (d : Str) (v : UInt32) (who : List Str → Prop)
    (w w' : World) : Prop where
  places : SamePlaces w w'
  uploading : w'.storage.uploadingStatus = w.storage.uploadingStatus
  keeps : ∀ l n, w.disk.node l = some n → w'.disk.node l = some n
  adds : ∀ l n, w'.disk.node l = some n → w.disk.node l = some n ∨
    ∃ r f names, who r ∧ dir.File r f ∧ sanitizedNames (dir.key r) = some names ∧
      ((l = w.fileLoc d v names ∧ ∃ t, n = .file ⟨f.bytes, t⟩) ∨
        n = .dir ∧ l <+: (w.fileLoc d v names).dropLast)

theorem Saved.refl (w : World) : Saved dir d v who w w :=
  ⟨⟨rfl, rfl⟩, rfl, fun _ _ h => h, fun _ _ h => Or.inl h⟩

theorem Saved.mono {who' : List Str → Prop} {w w' : World} (h : Saved dir d v who w w')
    (hwho : ∀ r f, dir.File r f → who r → who' r) : Saved dir d v who' w w' := by
  refine ⟨h.places, h.uploading, h.keeps, fun l n hn => ?_⟩
  rcases h.adds l n hn with ho | ⟨r, f, names, hr, hf, hnew⟩
  · exact Or.inl ho
  · exact Or.inr ⟨r, f, names, hwho r f hf hr, hf, hnew⟩

theorem Saved.trans {w w₁ w₂ : World} (h : Saved dir d v who w w₁)
    (h' : Saved dir d v who w₁ w₂) : Saved dir d v who w w₂ := by
  refine ⟨⟨h'.places.1.trans h.places.1, h'.places.2.trans h.places.2⟩,
    h'.uploading.trans h.uploading, fun l n hn => h'.keeps l n (h.keeps l n hn),
    fun l n hn => ?_⟩
  rcases h'.adds l n hn with ho | hnew
  · exact h.adds l n ho
  · refine Or.inr ?_
    simpa only [h.places.fileLoc] using hnew

/-- With faithful keys, what is new at the place of a file is that file. -/
theorem Saved.file_new {w w' : World} (h : Saved dir d v who w w') (hfaith : dir.Faithful)
    {r : List Str} {f : FileData} (hf : dir.File r f)
    (hnone : w.disk.node (w.fileLoc d v r) = none)
    (hsome : w'.disk.node (w.fileLoc d v r) ≠ none) :
    who r ∧ ∃ t, w'.disk.node (w.fileLoc d v r) = some (.file ⟨f.bytes, t⟩) := by
  obtain ⟨n, hn⟩ := Option.ne_none_iff_exists'.mp hsome
  rcases h.adds _ n hn with ho | ⟨r', f', names, hr', hf', hs, hnew⟩
  · exact absurd (hnone.symm.trans ho) (by simp)
  obtain rfl := Option.some.inj ((hfaith r' f' hf').1.symm.trans hs)
  rcases hnew with ⟨he, t, rfl⟩ | ⟨-, hpre⟩
  · obtain rfl := World.fileLoc_injective he
    obtain rfl := hf.unique hf'
    exact ⟨hr', t, hn⟩
  · exact absurd hpre (hf.not_onWay hf' w d v)

/-- The upload of a file succeeded: it is where its key leads, where nothing was
before, or it is empty and something is there. -/
def Done (dir : LocalDir dk) (d : Str) (v : UInt32) (w w' : World) (r : List Str)
    (f : FileData) : Prop :=
  ∃ names, sanitizedNames (dir.key r) = some names ∧
    ((∃ t, w'.disk.node (w.fileLoc d v names) = some (.file ⟨f.bytes, t⟩)) ∧
        w.disk.node (w.fileLoc d v names) = none ∨
      f.bytes = [] ∧ w'.disk.node (w.fileLoc d v names) ≠ none)

theorem Done.mono {w w₁ w₂ : World} {r : List Str} {f : FileData} (h : Done dir d v w w₁ r f)
    (hkeeps : ∀ l n, w₁.disk.node l = some n → w₂.disk.node l = some n) :
    Done dir d v w w₂ r f := by
  obtain ⟨names, hn, ⟨⟨t, ht⟩, hnone⟩ | ⟨hempty, hsome⟩⟩ := h
  · exact ⟨names, hn, Or.inl ⟨⟨t, hkeeps _ _ ht⟩, hnone⟩⟩
  · obtain ⟨n, hnode⟩ := Option.ne_none_iff_exists'.mp hsome
    exact ⟨names, hn, Or.inr ⟨hempty, by rw [hkeeps _ _ hnode]; simp⟩⟩

theorem saved_of_outcome {w w₁ : World} (h : Saved dir d v who w w₁) {r : List Str}
    {f : FileData} (hf : dir.File r f) (hr : who r) {res : Except StorageError Unit × World}
    (ho : SaveOutcome w₁ d v (dir.key r) f.bytes res) :
    Saved dir d v who w₁ res.2 ∧ (res.1 = .ok () → Done dir d v w res.2 r f) := by
  have hdirs : ∀ {dk' : Disk} {names : List Str}, sanitizedNames (dir.key r) = some names →
      w₁.disk.NewDirs dk' (w₁.fileLoc d v names).dropLast →
      Saved dir d v who w₁ (w₁.setDisk dk') := by
    intro dk' names hn hnew
    refine ⟨⟨rfl, hnew.1⟩, rfl, fun l n hl => ?_, fun l n hl => ?_⟩
    · rcases hnew.2 l with he | ⟨hnone, -, -⟩
      · exact he.trans hl
      · rw [hnone] at hl; exact absurd hl (by simp)
    · rcases hnew.2 l with he | ⟨-, hdir, hpre⟩
      · exact Or.inl (he.symm.trans hl)
      · exact Or.inr ⟨r, f, names, hr, hf, hn, Or.inr ⟨Option.some.inj (hl.symm.trans hdir), hpre⟩⟩
  cases ho with
  | notUploading _ => exact ⟨.refl w₁, fun he => absurd he (by simp)⟩
  | badPath _ _ => exact ⟨.refl w₁, fun he => absurd he (by simp)⟩
  | blocked _ hn hnew => exact ⟨hdirs hn hnew, fun he => absurd he (by simp)⟩
  | present _ hn hnode =>
    refine ⟨.refl w₁, fun he => ⟨_, hn, Or.inr ⟨?_, ?_⟩⟩⟩
    · by_contra hne
      rw [if_neg hne] at he
      exact absurd he (by simp)
    · rw [← h.places.fileLoc, hnode]; simp
  | @saved names dk' t _ hn _ hnone hcwd hself hrest =>
    refine ⟨⟨⟨rfl, hcwd⟩, rfl, fun l n hl => ?_, fun l n hl => ?_⟩, fun _ => ?_⟩
    · by_cases hloc : l = w₁.fileLoc d v names
      · rw [hloc, hnone] at hl; exact absurd hl (by simp)
      · rcases hrest l hloc with he | ⟨hnew, -, -⟩
        · exact he.trans hl
        · rw [hnew] at hl; exact absurd hl (by simp)
    · by_cases hloc : l = w₁.fileLoc d v names
      · rw [hloc] at hl
        exact Or.inr ⟨r, f, names, hr, hf, hn,
          Or.inl ⟨hloc, t, Option.some.inj (hl.symm.trans hself)⟩⟩
      · rcases hrest l hloc with he | ⟨-, hdir, hpre⟩
        · exact Or.inl (he.symm.trans hl)
        · exact Or.inr ⟨r, f, names, hr, hf, hn,
            Or.inr ⟨Option.some.inj (hl.symm.trans hdir), hpre⟩⟩
    · refine ⟨names, hn, Or.inl ⟨⟨t, by rw [← h.places.fileLoc]; exact hself⟩, ?_⟩⟩
      rw [← h.places.fileLoc]
      by_contra hne
      obtain ⟨n, hnode⟩ := Option.ne_none_iff_exists'.mp hne
      rw [h.keeps _ _ hnode] at hnone
      exact absurd hnone (by simp)

end Saved

/-! ### Uploads side by side -/

section Uploads

variable {host : Host} {api : API} {dk : Disk} {dir : LocalDir dk} {d : Str} {v : UInt32}

def Sending (host : Host) (api : API) (dir : LocalDir dk) (d : Str) (v : UInt32) (w w' : World)
    (r : List Str) (f : FileData) (p : ClientM Bool) : Prop :=
  (∃ n, p = retryUpload api dk d (toDecimal v) ⟨dir.key r, dir.text r⟩ n) ∨
    p = ret true ∧ Done dir d v w w' r f ∧
      host.Takes api d (toDecimal v) (dir.key r) (dir.text r) f.bytes

theorem retryUpload_succ {r : List Str} {f : FileData} (hf : dir.File r f) (k : Nat) :
    ∃ req, api.uploadFile dk d (toDecimal v) (dir.key r) (dir.text r) = .ok req ∧
      retryUpload api dk d (toDecimal v) ⟨dir.key r, dir.text r⟩ (k + 1) =
        .call req fun reply => if handleResp reply then ret true
          else retryUpload api dk d (toDecimal v) ⟨dir.key r, dir.text r⟩ k := by
  obtain ⟨name, hname⟩ := hf.fileName
  have hreq := (@uploadFile_eq_ok api _ dk d (toDecimal v) (dir.key r) (dir.text r)).mpr
    ⟨name, f, hname, hf.find, rfl⟩
  refine ⟨_, hreq, ?_⟩
  rw [retryUpload, hreq, call_ok_bind]
  refine congrArg (Program.call _) (funext fun reply => ?_)
  cases handleResp reply <;> rfl

theorem retryUpload_eq_call {r : List Str} {f : FileData} (hf : dir.File r f) {n : Nat}
    {req : HttpRequest} {next : Option Response → ClientM Bool}
    (h : retryUpload api dk d (toDecimal v) ⟨dir.key r, dir.text r⟩ n = .call req next) :
    ∃ k, n = k + 1 ∧ api.uploadFile dk d (toDecimal v) (dir.key r) (dir.text r) = .ok req ∧
      ∀ reply, next reply = if handleResp reply then ret true
        else retryUpload api dk d (toDecimal v) ⟨dir.key r, dir.text r⟩ k := by
  cases n with
  | zero => exact absurd h (by simp [retryUpload])
  | succ k =>
    obtain ⟨req', hreq, hstep⟩ := @retryUpload_succ api dk dir d v r f hf k
    rw [hstep] at h
    obtain ⟨rfl, rfl⟩ := Program.call.inj h
    exact ⟨k, rfl, hreq, fun reply => rfl⟩

theorem retryUpload_ne_true {r : List Str} {f : FileData} (hf : dir.File r f) (n : Nat) :
    retryUpload api dk d (toDecimal v) ⟨dir.key r, dir.text r⟩ n ≠ ret true := by
  cases n with
  | zero => simp [retryUpload]
  | succ k =>
    obtain ⟨_, -, hstep⟩ := @retryUpload_succ api dk dir d v r f hf k
    rw [hstep]
    simp

/-- One request of an upload: what it saves, and how the upload goes on. -/
theorem sending_step {who : List Str → Prop} {w : World} {n : Net}
    (h : Saved dir d v who w n.world) {r : List Str} {f : FileData} (hf : dir.File r f)
    (hr : who r) {req : HttpRequest} {next : Option Response → ClientM Bool}
    (hsend : Sending host api dir d v w n.world r f (.call req next)) :
    Saved dir d v who n.world (host.meaning req n).2.world ∧
      Sending host api dir d v w (host.meaning req n).2.world r f
        (next (host.meaning req n).1) := by
  rcases hsend with ⟨m, hm⟩ | ⟨hret, -⟩
  · obtain ⟨k, rfl, hreq, hnext⟩ := retryUpload_eq_call hf hm.symm
    have hanswer := @answer_uploadFile host api n.world req dk d (dir.key r) v (dir.text r) f
      hf.find hreq
    have hsaved : Saved dir d v who n.world (host.answer n.world req).2 ∧
        ((host.answer n.world req).1.status = 200 →
          Done dir d v w (host.answer n.world req).2 r f ∧
            host.Takes api d (toDecimal v) (dir.key r) (dir.text r) f.bytes) := by
      rcases hanswer with ⟨-, he⟩ | ⟨htakes, res, ho, he⟩
      · rw [he]
        exact ⟨.refl _, fun hs => absurd hs (by simp [Response.notFound])⟩
      · obtain ⟨hsaved, hdone⟩ := saved_of_outcome h hf hr ho
        rw [he]
        refine ⟨hsaved, fun hs => ⟨hdone ?_, htakes⟩⟩
        cases hres : res.1 with
        | ok u => rfl
        | error e => rw [hres] at hs; exact absurd hs (by simp [resultResponse, Response.badRequest])
    rw [hnext]
    rcases meaning_cases host req n with ⟨hreply, hw⟩ | ⟨hreply, hw⟩
    · rw [hreply, hw]
      refine ⟨hsaved.1, ?_⟩
      by_cases hok : handleResp (some (host.answer n.world req).1) = true
      · rw [if_pos hok]
        exact Or.inr ⟨rfl, hsaved.2 (by simpa [handleResp] using hok)⟩
      · rw [if_neg hok]
        exact Or.inl ⟨k, rfl⟩
    · rw [hreply, if_neg (by simp [handleResp])]
      refine ⟨?_, Or.inl ⟨k, rfl⟩⟩
      rcases hw with hw | hw
      · rw [hw]; exact hsaved.1
      · rw [hw]; exact .refl _
  · exact absurd hret (by simp)

/-- **Concurrent uploads** save files where their keys lead, and those that succeed
are done. -/
theorem uploads_run {files : List UploadingFile}
    (hfiles : ∀ file ∈ files, ∃ r f, dir.File r f ∧ file = ⟨dir.key r, dir.text r⟩)
    (sched : List Nat) (n : Net) {res : List Bool × Net}
    (hres : (interleave sched (files.map fun file =>
      retryUpload api dk d (toDecimal v) file 3)).run host.meaning n = res) :
    Saved dir d v (fun r => ⟨dir.key r, dir.text r⟩ ∈ files) n.world res.2.world ∧
      (res.1.all id = true → ∀ file ∈ files, ∃ r f, dir.File r f ∧
        file = ⟨dir.key r, dir.text r⟩ ∧ Done dir d v n.world res.2.world r f ∧
        host.Takes api d (toDecimal v) (dir.key r) (dir.text r) f.bytes) := by
  -- every upload is on its way, in the world so far
  have hrule := fun hstep => interleave_rule
    (I := fun n' : Net => Saved dir d v (fun r => ⟨dir.key r, dir.text r⟩ ∈ files) n.world n'.world)
    (P := fun file p n' => ∃ r f, dir.File r f ∧ file = ⟨dir.key r, dir.text r⟩ ∧
      Sending host api dir d v n.world n'.world r f p) hstep (.refl _)
    (fun file hfile => by
      obtain ⟨r, f, hf, he⟩ := hfiles file hfile
      exact ⟨r, f, hf, he, Or.inl ⟨3, by rw [he]⟩⟩) sched hres
  obtain ⟨hsaved, hall, -⟩ := hrule <| by
    rintro i file req next n' hfile hsaved ⟨r, f, hf, rfl, hsend⟩
    obtain ⟨hstep, hnext⟩ := sending_step hsaved hf (List.mem_of_getElem? hfile) hsend
    refine ⟨hsaved.trans hstep, ⟨r, f, hf, rfl, hnext⟩, ?_⟩
    rintro j file' p - - ⟨r', f', hf', he', hsend'⟩
    refine ⟨r', f', hf', he', hsend'.imp_right fun ⟨hret, hdone, htakes⟩ => ?_⟩
    exact ⟨hret, hdone.mono hstep.keeps, htakes⟩
  refine ⟨hsaved, fun htrue file hfile => ?_⟩
  obtain ⟨b, hb, r, f, hf, he, hsend⟩ := hall file hfile
  obtain rfl : b = true := by simpa using List.all_eq_true.mp htrue b hb
  rcases hsend with ⟨k, hk⟩ | ⟨-, hdone⟩
  · exact absurd hk.symm (retryUpload_ne_true hf k)
  · exact ⟨r, f, hf, he, hdone⟩

end Uploads

/-! ### A run that returns `Ok` -/

section Ok

variable {host : Host} {api : API} {d : Str} {v : UInt32} {n n' : Net}
  {reply : Option Response}

def positionOf (crates : Crates) (w : World) (d : Str) : UploadDomainPosition :=
  ((getUploadPosition w.storage.pathPrefix d).run (SpaServer.meaning crates) w).1

def listingOf (crates : Crates) (w : World) (d : Str) (v : UInt32) : List ShortMetaData :=
  ((getFilesMetadata w.storage.pathPrefix crates d v).run (SpaServer.meaning crates) w).1

theorem serve_getUploadPosition (w : World) (d : Str) :
    w.serve host.crates (.getUploadPosition ⟨d, .json⟩) =
      (if uriRegex.isMatch d then ⟨200, .position (positionOf host.crates w d)⟩
        else .badRequest .empty, w) := by
  refine Prod.ext ?_ (run_lookups (handle_lookup rfl _) w)
  simp only [World.serve, handle, Service.getUploadPosition]
  split
  · rw [run_bind]; rfl
  · rfl

theorem serve_getFilesMetadata (w : World) (d : Str) (v : UInt32) :
    w.serve host.crates (.getFilesMetadata ⟨d, v⟩) =
      (⟨200, .filesMetadata (listingOf host.crates w d v)⟩, w) := by
  refine Prod.ext ?_ (run_lookups (handle_lookup rfl _) w)
  simp only [World.serve, handle, Service.getFilesMetadata, run_bind]
  rfl

theorem position_ok (h : (call (api.getUploadPosition d)).run host.meaning n = (reply, n'))
    {p : UploadDomainPosition} (hok : positionResp reply = some p) :
    p = positionOf host.crates n.world d ∧ n'.world = n.world := by
  obtain ⟨req, hreq, rfl, hw⟩ := call_ok h (by rintro rfl; simp [positionResp] at hok)
  rw [hw]
  rw [answer_getUploadPosition hreq] at hok ⊢
  split at hok
  · rw [serve_getUploadPosition] at hok
    rw [if_pos ‹_›, serve_getUploadPosition]
    refine ⟨?_, rfl⟩
    split at hok
    · exact (Option.some.inj hok).symm
    · exact absurd hok (by simp [positionResp, Response.badRequest])
  · exact absurd hok (by simp [positionResp, Response.notFound])

theorem metadata_ok (h : (call (api.getFileMetadata d v)).run host.meaning n = (reply, n'))
    {files : List ShortMetaData} (hok : metadataResp reply = some files) :
    files = listingOf host.crates n.world d v ∧ n'.world = n.world := by
  obtain ⟨req, hreq, rfl, hw⟩ := call_ok h (by rintro rfl; simp [metadataResp] at hok)
  rw [hw]
  rw [answer_getFileMetadata hreq] at hok ⊢
  split at hok
  · rw [serve_getFilesMetadata] at hok
    rw [if_pos ‹_›, serve_getFilesMetadata]
    exact ⟨(Option.some.inj hok).symm, rfl⟩
  · exact absurd hok (by simp [metadataResp, Response.notFound])

theorem answer_status {w : World} {req : HttpRequest} {st : UploadingStatus}
    (hreq : api.changeUploadingStatus ⟨d, v, st⟩ = .ok req) :
    (¬ (api.authToken = host.conf.token ∧
        jsonLength (UpdateUploadingStatusOption.mk d v st).toJson ≤ 1024 * 16) ∧
      host.answer w req = (.notFound, w)) ∨
    (api.authToken = host.conf.token ∧
        jsonLength (UpdateUploadingStatusOption.mk d v st).toJson ≤ 1024 * 16) ∧
      ∃ res, StatusOutcome w d v st res ∧ host.answer w req = (resultResponse res.1, res.2) := by
  rw [answer_changeUploadingStatus hreq]
  split
  · next hfits =>
    refine Or.inr ⟨hfits, ?_⟩
    have ho := @serve_outcome host.crates w (.changeUploadStatus ⟨d, v, st⟩)
    generalize w.serve host.crates (.changeUploadStatus ⟨d, v, st⟩) = res at ho ⊢
    cases ho with
    | looks hl => exact absurd hl (by simp [AdminRequest.isLookup])
    | status ho => exact ⟨_, ho, rfl⟩
  · next hfits => exact Or.inl ⟨hfits, rfl⟩

theorem resultResponse_ok {res : Except StorageError Unit} (h : (resultResponse res).status = 200) :
    res = .ok () := by
  cases res with
  | ok u => rfl
  | error e => exact absurd h (by simp [resultResponse, Response.badRequest])

theorem status_ok {st : UploadingStatus}
    (h : (call (api.changeUploadingStatus ⟨d, v, st⟩)).run host.meaning n = (reply, n'))
    (hok : handleResp reply = true) : StatusOutcome n.world d v st (.ok (), n'.world) := by
  obtain ⟨resp, hresp, hstatus⟩ := handleResp_some hok
  obtain ⟨req, hreq, rfl, hw⟩ := call_ok h (by rw [hresp]; simp)
  obtain rfl := Option.some.inj hresp
  rcases @answer_status host api d v n.world req st hreq with ⟨-, he⟩ | ⟨-, res, ho, he⟩
  · rw [he] at hstatus
    exact absurd hstatus (by simp [Response.notFound])
  · rw [he] at hstatus hw
    rw [hw, ← resultResponse_ok hstatus]
    exact ho

theorem getUploadVersion_ok {version : Option UInt32} {ov : Option UInt32}
    (h : (getUploadVersion api d version).run host.meaning n = (ov, n')) (hok : ov = some v) :
    (version = some v ∨ version = none ∧ (positionOf host.crates n.world d).version = v) ∧
      n'.world = n.world := by
  subst hok
  cases version with
  | some u =>
    obtain ⟨hu, rfl⟩ := Prod.mk.inj h
    exact ⟨Or.inl hu, rfl⟩
  | none =>
    rw [getUploadVersion, run_bind] at h
    obtain ⟨hv, rfl⟩ := Prod.mk.inj h
    obtain ⟨p, hp, rfl⟩ := Option.map_eq_some_iff.mp hv
    obtain ⟨rfl, hw⟩ := position_ok rfl hp
    exact ⟨Or.inr ⟨rfl, rfl⟩, hw⟩

theorem canonicalText_dir {dk : Disk} (dir : LocalDir dk) :
    canonicalText (dir.names.map .utf8) = some (absolute dir.names) := by
  rw [canonicalText, foldlM_push_absolute (by simp) (plain_map_utf8 dir.plain_names)]
  exact ⟨dir.names, rfl, rfl⟩

def LocalDir.uploads {dk : Disk} (dir : LocalDir dk) (crates : Crates)
    (listed : List ShortMetaData) : List UploadingFile :=
  (dk.walkDir (absolute dir.names) none).filterMap
    (uploadingFile crates (DashMap.collect (listed.map fun x => (x.path, x))) (absolute dir.names))

/-- The server lists a file under the key of `r`, as long as `f` and with its digest. -/
def LocalDir.Skipped {dk : Disk} (dir : LocalDir dk) (crates : Crates)
    (listed : List ShortMetaData) (r : List Str) (f : FileData) : Prop :=
  ∃ x, DashMap.collect (listed.map fun x => (x.path, x)) (dir.key r) = some x ∧
    x.length = f.bytes.length ∧ crates.md5 f.bytes = x.md5

theorem uploadingFile_eq_some {dk : Disk} {dir : LocalDir dk} {crates : Crates}
    {listed : List ShortMetaData} {e : Disk.Entry} {file : UploadingFile}
    (he : e ∈ dk.walkDir (absolute dir.names) none)
    (h : uploadingFile crates (DashMap.collect (listed.map fun x => (x.path, x)))
      (absolute dir.names) e = some file) :
    ∃ r f, e = ⟨absolute dir.names, r.map .utf8, .file f⟩ ∧ dir.File r f ∧
      ¬ dir.Skipped crates listed r f ∧ file = ⟨dir.key r, dir.text r⟩ := by
  have hloc : dk.locate (absolute dir.names) = dir.names.map .utf8 :=
    locate_absolute dir.plain_names _
  obtain ⟨hroot, -, hnode, -⟩ := Disk.mem_walkDir.mp he
  obtain ⟨root, rel, node⟩ := e
  obtain rfl : root = absolute dir.names := hroot
  rw [uploadingFile] at h
  split at h
  next f text hf htext =>
    obtain rfl : node = .file f := hf
    rw [hloc] at hnode
    have hrel : ∀ c ∈ rel, c.Plain := fun c hc =>
      dk.plain _ (by rw [hnode]; simp) c (List.mem_append_right _ hc)
    rw [Disk.Entry.text, foldlM_push_absolute dir.plain_names hrel] at htext
    obtain ⟨r, rfl, rfl⟩ := htext
    rw [← List.map_append] at hnode
    dsimp only at h
    split at h
    · exact absurd h (by simp)
    · next hskip =>
      refine ⟨r, f, rfl, hnode, ?_, (Option.some.inj h).symm⟩
      rintro ⟨x, hx, hlen, hmd5⟩
      refine hskip ?_
      show (DashMap.collect _ (dir.key r)).any _ = true
      rw [hx]
      simp [hlen, hmd5]
  · exact absurd h (by simp)

theorem mem_uploads {dk : Disk} {dir : LocalDir dk} {crates : Crates}
    {listed : List ShortMetaData} {file : UploadingFile} :
    file ∈ dir.uploads crates listed ↔ ∃ r f, dir.File r f ∧
      ¬ dir.Skipped crates listed r f ∧ file = ⟨dir.key r, dir.text r⟩ := by
  have hloc : dk.locate (absolute dir.names) = dir.names.map .utf8 :=
    locate_absolute dir.plain_names _
  have hfind : dk.find (absolute dir.names) = some .dir :=
    Disk.find_of_dir (absolute_ne_nil _) (by rw [hloc]; exact dir.dir)
  rw [LocalDir.uploads, List.mem_filterMap]
  constructor
  · rintro ⟨e, he, hfile⟩
    obtain ⟨r, f, -, hrest⟩ := uploadingFile_eq_some he hfile
    exact ⟨r, f, hrest⟩
  · rintro ⟨r, f, hf, hskip, rfl⟩
    refine ⟨⟨absolute dir.names, r.map .utf8, .file f⟩, Disk.mem_walkDir.mpr
      ⟨rfl, by rw [hfind]; simp, by rw [hloc, ← List.map_append]; exact hf, by simp⟩, ?_⟩
    have htext : (⟨absolute dir.names, r.map .utf8, .file f⟩ : Disk.Entry).text =
        some (dir.text r) := hf.foldlM_text
    rw [uploadingFile]
    simp only [htext]
    rw [if_neg]
    · rfl
    · intro hany
      refine hskip ?_
      change (DashMap.collect _ (dir.key r)).any _ = true at hany
      obtain ⟨x, hx, hcond⟩ := (Option.any_eq_true _ _).mp hany
      exact ⟨x, hx, by simpa using hcond⟩

theorem uploads_nodup {dk : Disk} (dir : LocalDir dk) (crates : Crates)
    (listed : List ShortMetaData) : (dir.uploads crates listed).Nodup := by
  rw [LocalDir.uploads, List.Nodup, List.pairwise_filterMap]
  refine (List.Pairwise.and_mem.mp (dk.walkDir_nodup _ _)).imp ?_
  rintro e e' ⟨he, he', hne⟩ file hfile file' hfile' rfl
  obtain ⟨r, f, rfl, hf, -, heq⟩ := uploadingFile_eq_some he hfile
  obtain ⟨r', f', rfl, hf', -, heq'⟩ := uploadingFile_eq_some he' hfile'
  obtain rfl := hf.text_injective hf' (UploadingFile.mk.inj (heq.symm.trans heq')).2
  obtain rfl := hf.unique hf'
  exact hne rfl

/-- **Uploading a directory** saves those of its files that the server does not list, and
when all goes well each of them is done. -/
theorem uploads_dir {dk : Disk} {dir : LocalDir dk} {crates : Crates}
    {listed : List ShortMetaData} {sched : List Nat} {results : List Bool}
    (h : (interleave sched ((dir.uploads crates listed).map fun file =>
      retryUpload api dk d (toDecimal v) file 3)).run host.meaning n = (results, n')) :
    Saved dir d v (fun r => ∃ f, dir.File r f ∧ ¬ dir.Skipped crates listed r f) n.world n'.world ∧
      (results.all id = true → ∀ r f, dir.File r f → ¬ dir.Skipped crates listed r f →
        Done dir d v n.world n'.world r f ∧
          host.Takes api d (toDecimal v) (dir.key r) (dir.text r) f.bytes) := by
  obtain ⟨hsaved, hdone⟩ := uploads_run (fun file hfile => by
    obtain ⟨r, f, hf, -, he⟩ := mem_uploads.mp hfile
    exact ⟨r, f, hf, he⟩) sched n h
  refine ⟨?_, fun hall r f hf hskip => ?_⟩
  · -- only one file has this text
    refine hsaved.mono fun r f hf hr => ?_
    obtain ⟨r', f', hf', hskip, he⟩ := mem_uploads.mp hr
    obtain rfl := hf.text_injective hf' (UploadingFile.mk.inj he).2
    exact ⟨f', hf', hskip⟩
  · obtain ⟨r', f', hf', he, hrest⟩ :=
      hdone hall _ (mem_uploads.mpr ⟨r, f, hf, hskip, rfl⟩)
    obtain rfl := hf.text_injective hf' (UploadingFile.mk.inj he).2
    obtain rfl := hf.unique hf'
    exact hrest

theorem finished_ok {w : World} {res : Except StorageError Unit × World}
    (h : StatusOutcome w d v .finish res) (hok : res.1 = .ok ()) :
    SamePlaces w res.2 ∧ res.2.storage.uploadingStatus d = none ∧
      ∀ l, res.2.disk.node l = if l = w.markerLoc d v then none else w.disk.node l := by
  cases h with
  | other => exact absurd hok (by simp)
  | notMarked => exact absurd hok (by simp)
  | finished hu hm =>
    refine ⟨⟨rfl, rfl⟩, ?_, fun l => w.disk.removeTree_file (w.markerLoc_ne_nil d v) (by rw [hm]; simp) l⟩
    show w.storage.uploadingStatus.removeIf d (· == v) d = none
    rcases hu with hu | hu
    · exact DashMap.removeIf_self _ hu (by simp)
    · rw [DashMap.removeIf_none _ hu, hu]

theorem Saved.finished {dk : Disk} {dir : LocalDir dk} {who : List Str → Prop} {w w₁ : World}
    (h : Saved dir d v who w w₁) {res : Except StorageError Unit × World}
    (hfinish : StatusOutcome w₁ d v .finish res) (hok : res.1 = .ok ()) :
    SamePlaces w res.2 ∧ res.2.storage.uploadingStatus d = none ∧
      ∀ l, res.2.disk.node l =
        if l = w.fileLoc d v [uploadingFileName] then none else w₁.disk.node l := by
  obtain ⟨hplaces, hfree, hfinal⟩ := finished_ok hfinish hok
  have hmark : w₁.markerLoc d v = w.fileLoc d v [uploadingFileName] := h.places.markerLoc d v
  rw [hmark] at hfinal
  exact ⟨⟨hplaces.1.trans h.places.1, hplaces.2.trans h.places.2⟩, hfree, hfinal⟩

/-- What `sendFiles` has gone through when it returns `Ok`. -/
theorem sendFiles_ok {dk : Disk} {sched : List Nat} {parallel : UInt32}
    {files : List UploadingFile}
    (h : (sendFiles api dk sched d v parallel files).run host.meaning n = (.ok (), n')) :
    parallel ≠ 0 ∧ ∃ n₁ results n₂, StatusOutcome n.world d v .uploading (.ok (), n₁.world) ∧
      (interleave sched (files.map fun file =>
        retryUpload api dk d (toDecimal v) file 3)).run host.meaning n₁ = (results, n₂) ∧
      results.all id = true ∧ StatusOutcome n₂.world d v .finish (.ok (), n'.world) := by
  rw [sendFiles, run_bind] at h
  generalize hcall : (call (api.changeUploadingStatus ⟨d, v, .uploading⟩)).run host.meaning n =
    res at h
  obtain ⟨reply, n₁⟩ := res
  dsimp only at h
  cases hreply : handleResp reply with
  | false =>
    rw [hreply] at h
    exact absurd (Prod.mk.inj h).1 (by simp)
  | true =>
  rw [hreply] at h
  dsimp only at h
  split at h
  · exact absurd (Prod.mk.inj h).1 (by simp)
  next hpar =>
  rw [run_bind] at h
  generalize hups : (interleave sched (files.map fun file =>
    retryUpload api dk d (toDecimal v) file 3)).run host.meaning n₁ = res at h
  obtain ⟨results, n₂⟩ := res
  dsimp only at h
  split at h
  · next hall =>
    rw [run_bind] at h
    generalize hcall' : (call (api.changeUploadingStatus ⟨d, v, .finish⟩)).run host.meaning n₂ =
      res at h
    obtain ⟨reply', n₃⟩ := res
    dsimp only at h
    cases hreply' : handleResp reply' with
    | false =>
      rw [hreply'] at h
      exact absurd (Prod.mk.inj h).1 (by simp)
    | true =>
      rw [hreply'] at h
      obtain ⟨-, rfl⟩ := Prod.mk.inj h
      exact ⟨hpar, n₁, results, n₂, status_ok hcall hreply, hups, hall, status_ok hcall' hreply'⟩
  · exact absurd (Prod.mk.inj h).1 (by simp)

/-- **What `uploadFiles` has gone through when it returns `Ok`.** -/
theorem uploadFiles_ok {crates : Crates} {dk : Disk} {dir : LocalDir dk} {sched : List Nat}
    {version : Option UInt32} {path : PathBuf} {parallel : UInt32}
    (hpath : dk.locate path = dir.names.map .utf8)
    (h : (uploadFiles crates api dk sched d version path parallel).run host.meaning n =
      (.ok (), n')) :
    ∃ v, (version = some v ∨
        version = none ∧ (positionOf host.crates n.world d).version = v) ∧
      parallel ≠ 0 ∧ dir.uploads crates (listingOf host.crates n.world d v) ≠ [] ∧
      ∃ n₁ results n₂, StatusOutcome n.world d v .uploading (.ok (), n₁.world) ∧
        (interleave sched ((dir.uploads crates (listingOf host.crates n.world d v)).map
          fun file => retryUpload api dk d (toDecimal v) file 3)).run host.meaning n₁ =
            (results, n₂) ∧
        results.all id = true ∧ StatusOutcome n₂.world d v .finish (.ok (), n'.world) := by
  rw [uploadFiles] at h
  split at h
  · exact absurd (Prod.mk.inj h).1 (by simp)
  · exact absurd (Prod.mk.inj h).1 (by simp)
  rw [hpath, canonicalText_dir] at h
  dsimp only at h
  rw [run_bind] at h
  generalize hversion : (getUploadVersion api d version).run host.meaning n = res at h
  obtain ⟨ov, n₀⟩ := res
  dsimp only at h
  cases hv : ov with
  | none =>
    rw [hv] at h
    exact absurd (Prod.mk.inj h).1 (by simp)
  | some v =>
  obtain ⟨hwhich, hw₀⟩ := getUploadVersion_ok hversion hv
  rw [hv] at h
  dsimp only at h
  rw [run_bind] at h
  generalize hmeta : (call (api.getFileMetadata d v)).run host.meaning n₀ = res at h
  obtain ⟨reply, n₁⟩ := res
  dsimp only at h
  cases hlisted : metadataResp reply with
  | none =>
    rw [hlisted] at h
    exact absurd (Prod.mk.inj h).1 (by simp)
  | some listed =>
  obtain ⟨rfl, hw₁⟩ := metadata_ok hmeta hlisted
  rw [hw₀] at hw₁
  rw [hlisted, hw₀] at h
  dsimp only at h
  split at h
  · exact absurd (Prod.mk.inj h).1 (by simp)
  · next hne =>
    obtain ⟨hpar, n₂, results, n₃, hstart, hups, hall, hfinish⟩ := sendFiles_ok h
    rw [hw₁] at hstart
    exact ⟨v, hwhich, hpar, hne, n₂, results, n₃, hstart, hups, hall, hfinish⟩

end Ok

end Client

end SpaServer
