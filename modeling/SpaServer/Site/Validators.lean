import SpaServer.Deploy
import SpaServer.Site.Headers

/-!
# Asking again

A browser that keeps a copy of a file asks for it again with the time it was last modified: it
revalidates the whole of it (`If-Modified-Since`), or has the rest of a broken off download sent
(`Range`, `If-Range`).  Meanwhile time passes, and other versions may have been released.  That
time is all the server tells one content from another by.

* `Serves.timedRun`: what is published stays so while time passes.
* `revalidated_iff`: what the browser shows is what is published, exactly when no other content
  that is published now is as old as the copy or older.
* `continued_iff`: the same of a download that is resumed, which needs the part that is kept only.
-/

namespace SpaServer

open Base

variable {crates : Crates}

/-! ### Time passes -/

def World.later (w : World) (t : Nat) : World := w.setDisk { w.disk with now := t }

/-- Some requests, one after the other, while time passes. -/
def World.TimedRun (crates : Crates) (ok : World → AdminRequest → Prop) : World → World → Prop :=
  Relation.ReflTransGen fun w w' =>
    (∃ r, ok w r ∧ w' = (w.serve crates r).2) ∨ ∃ t, w.disk.now ≤ t ∧ w' = w.later t

section TimedRun

variable {w w' : World} {s : Deployed} {ok : World → AdminRequest → Prop}

theorem Serves.later (h : Serves crates w s) (t : Nat) : Serves crates (w.later t) s :=
  ⟨⟨h.represents.content, h.represents.staged, h.represents.present, h.represents.unpublished,
    fun d v c hc => ⟨(h.represents.published d v c hc).serving,
      (h.represents.published d v c hc).cached⟩, h.represents.plain⟩, h.apart, h.current⟩

/-- **What is published stays**, as long as no request releases another version of its name,
however long it takes. -/
theorem Serves.timedRun (h : Serves crates w s) (hok : ∀ w r, ok w r → SparesLive w r)
    (hrun : World.TimedRun crates ok w w') : ∃ s', Serves crates w' s' ∧ ∀ d : Domain,
      (∀ w version, ¬ ok w (.updateDomainVersion ⟨d, version⟩)) →
        s'.published d = s.published d := by
  induction hrun with
  | refl => exact ⟨s, h, fun _ _ => rfl⟩
  | tail _ hstep ih =>
    obtain ⟨s₁, h₁, hsame₁⟩ := ih
    rcases hstep with ⟨r, hr, rfl⟩ | ⟨t, -, rfl⟩
    · obtain ⟨s₂, h₂, hsame₂⟩ := h₁.run hok (.single ⟨r, hr, rfl⟩)
      exact ⟨s₂, h₂, fun d hno => (hsame₂ d hno).trans (hsame₁ d hno)⟩
    · exact ⟨s₁, h₁.later t, hsame₁⟩

theorem settled_timedRun (hrun : World.TimedRun crates ok w w') :
    SamePlaces w w' ∧ w'.storage.cache.conf = w.storage.cache.conf := by
  induction hrun with
  | refl => exact ⟨⟨rfl, rfl⟩, rfl⟩
  | tail _ hstep ih =>
    obtain ⟨hplaces, hconf⟩ := ih
    rcases hstep with ⟨r, hr, rfl⟩ | ⟨t, -, rfl⟩
    · obtain ⟨hplaces', hconf'⟩ := settled_run (.single ⟨r, hr, rfl⟩)
      exact ⟨⟨hplaces'.pathPrefix.trans hplaces.pathPrefix, hplaces'.cwd.trans hplaces.cwd⟩,
        hconf'.trans hconf⟩
    · exact ⟨⟨hplaces.pathPrefix, hplaces.cwd⟩, hconf⟩

end TimedRun

theorem HoldsFile.modified {x : PathBuf} {f : FileData} {item : CacheItem}
    (h : HoldsFile crates x f item) : item.fileMeta.modified = f.modified := by
  rw [h.fileMeta]

namespace Site

/-! ### What is published -/

def served (w : World) (d : Str) : Option (UInt32 × Content) :=
  (w.serving d).map fun v => (v, w.disk.filesBelow (w.versionLoc d v))

theorem site_eq_served {w : World} {s : Deployed} (h : Serves crates w s) {d : Str} (hd : Plain d) :
    site s d = served w d := by
  rw [site, dif_pos hd, served]
  cases hpub : s.published ⟨d, hd⟩ with
  | none =>
    rw [(h.represents.unpublished _ hpub).1]
    rfl
  | some vc =>
    obtain ⟨v, c⟩ := vc
    have hcontent := (h.represents.content _ _).symm.trans (h.current _ _ c hpub)
    rw [(h.represents.published _ v c hpub).serving, ← (content_eq_some.mp hcontent).2]
    rfl

def servedFile (w : World) (d path : Str) : Option FileData :=
  (siteFile (served w d) path).toOption.map fun found => found.2.2

/-! ### What `warp` does with dates -/

/-- What is documented of `Conditionals::check` without `If-Unmodified-Since`: a file that is not
newer than `If-Modified-Since` is not sent, and of one that is newer than `If-Range` no range
is. -/
structure Warp.ChecksDates (warp : Warp) : Prop where
  notModified : ∀ c t m, c.ifUnmodifiedSince = none → c.ifModifiedSince = some t → m ≤ t →
    warp.check c (some m) = .noBody ((Response.new []).withStatus 304)
  modified : ∀ c m, c.ifUnmodifiedSince = none → (∀ t, c.ifModifiedSince = some t → t < m) →
    c.ifRange = none → warp.check c (some m) = .withBody c.range
  ifRange : ∀ c t m, c.ifUnmodifiedSince = none → c.ifModifiedSince = none →
    c.ifRange = some (.date t) → warp.check c (some m) = .withBody (if m ≤ t then c.range else none)

/-- A request for `d` from its own origin that is not redirected, with these conditions. -/
structure SiteRequest (http : Http) (conf : ServiceConfig) (d : Str) (c : Conditionals)
    (req : Request) : Prop where
  host : req.host http = some d
  origin : req.headers "origin".toList = none
  scheme : ¬ (req.scheme = some "http".toList ∧
    (conf.getDomainServiceConfig d).httpRedirectToHttps = true)
  conditionals : http.conditionals req.headers = c

section Request

variable {http : Http} {conf : ServiceConfig} {d : Str} {c : Conditionals} {req : Request}
  {w : World}

theorem SiteRequest.service (h : SiteRequest http conf d c req) :
    createService http conf w req = staticFile http w d req := by
  rw [createService_eq h.host, answerWith, respCorsRequest, h.origin]
  dsimp only
  rw [if_neg h.scheme]
  rfl

theorem SiteRequest.answered (h : SiteRequest http conf d c req) {s : Deployed}
    (hs : Serves crates w s) (hd : Plain d)
    (hclean : CleanSite w.storage.pathPrefix d (served w d)) (hreq : AsksFile req) :
    (servedFile w d req.path = none ∧ createService http conf w req = notFound) ∨
    ∃ x f item, servedFile w d req.path = some f ∧ w.disk.find x = some (.file f) ∧
      HoldsFile crates x f item ∧ createService http conf w req =
        cacheOrFileReply http.toWarp w.disk item c (req.acceptEncoding http) := by
  rw [h.service, servedFile, ← site_eq_served hs hd]
  rw [← site_eq_served hs hd] at hclean
  rcases staticFile_cases hs.represents hs.current hclean hreq with ⟨resp, herror, hstatic⟩ |
    ⟨v, key, f, item, hok, ⟨hfind, hsame⟩, hstatic⟩
  · obtain rfl := siteFile_error herror
    rw [herror]
    exact Or.inl ⟨rfl, hstatic⟩
  · rw [hok]
    refine Or.inr ⟨_, f, item, rfl, hfind, hsame.left, ?_⟩
    rw [hstatic, h.conditionals]

end Request

/-! ### Copies -/

/-- What a browser keeps of a file. -/
structure Copy where
  bytes : List UInt8
  modified : LastModified
  deriving DecidableEq

def Copy.keep (gunzip : List UInt8 → List UInt8) (resp : Response) : Option Copy :=
  match resp.status, resp.headers .lastModified with
  | 200, some (.lastModified t) => some ⟨decoded gunzip resp, t⟩
  | _, _ => none

/-- What it shows when it has asked whether the copy is still good. -/
def Copy.shown (gunzip : List UInt8 → List UInt8) (copy : Copy) (resp : Response) :
    Option (List UInt8) :=
  if resp.status = 304 then some copy.bytes
  else if resp.status = 200 then some (decoded gunzip resp) else none

/-- What it puts together when it had `k` bytes of the copy and has asked for the others. -/
def Copy.completed (copy : Copy) (k : Nat) (resp : Response) : Option (List UInt8) :=
  if resp.status = 206 then some (copy.bytes.take k ++ resp.body)
  else if resp.status = 200 then some resp.body else none

def Copy.IsOf (copy : Copy) (f : FileData) : Prop :=
  copy = ⟨f.bytes, LastModified.ofSystemTime f.modified⟩

section Copies

variable {http : Http} {conf : ServiceConfig} {d : Str} {req : Request} {w : World} {s : Deployed}
  {copy : Copy} {gunzip : List UInt8 → List UInt8}

/-- **A copy is one of the file that was served**, with its time. -/
theorem copy_isOf (hwarp : http.toWarp.Documented) (hdates : http.toWarp.ChecksDates)
    (hgunzip : ∀ bytes, gunzip (crates.gzip bytes) = bytes) (hs : Serves crates w s) (hd : Plain d)
    (hclean : CleanSite w.storage.pathPrefix d (served w d)) (hasks : AsksFile req)
    (hreq : SiteRequest http conf d ⟨none, none, none, none⟩ req)
    (hcopy : Copy.keep gunzip (createService http conf w req) = some copy) :
    ∃ f, servedFile w d req.path = some f ∧ copy.IsOf f := by
  rcases hreq.answered hs hd hclean hasks with ⟨-, hanswer⟩ |
    ⟨x, f, item, hf, hfind, hitem, hanswer⟩
  · rw [hanswer] at hcopy
    exact absurd hcopy nofun
  have hcheck := hdates.modified ⟨none, none, none, none⟩
    (LastModified.ofSystemTime item.fileMeta.modified) rfl nofun rfl
  obtain ⟨hstatus, hbody⟩ := reply_whole (w := w) hwarp hgunzip hfind hitem hcheck
    (req.acceptEncoding http)
  have hshape := @reply_shape item http.toWarp w.disk _ _ hcheck (req.acceptEncoding http)
  rw [hanswer] at hcopy
  generalize cacheOrFileReply http.toWarp w.disk item ⟨none, none, none, none⟩
    (req.acceptEncoding http) = reply at hstatus hbody hshape hcopy
  have hmodified : reply.headers .lastModified =
      some (.lastModified (LastModified.ofSystemTime f.modified)) := by
    cases hshape with
    | bare hbare _ =>
      rw [hstatus] at hbare
      exact absurd hbare (by decide)
    | file _ hheaders =>
      rw [hheaders _ (by decide), (cacheItemToResponseHeader_values item _).2.2, hitem.modified]
  rw [Copy.keep, hstatus, hmodified, hbody] at hcopy
  exact ⟨f, hf, (Option.some.inj hcopy).symm⟩

/-- **Revalidating**: what is shown is what is served, unless that is other content and no newer
than the copy. -/
theorem shown_iff (hwarp : http.toWarp.Documented) (hdates : http.toWarp.ChecksDates)
    (hgunzip : ∀ bytes, gunzip (crates.gzip bytes) = bytes) (hs : Serves crates w s) (hd : Plain d)
    (hclean : CleanSite w.storage.pathPrefix d (served w d)) (hasks : AsksFile req)
    (hreq : SiteRequest http conf d ⟨some copy.modified, none, none, none⟩ req) :
    (copy.shown gunzip (createService http conf w req) = (servedFile w d req.path).map (·.bytes) ↔
      ∀ f, servedFile w d req.path = some f →
        LastModified.ofSystemTime f.modified ≤ copy.modified → f.bytes = copy.bytes) ∧
    ∀ f, servedFile w d req.path = some f → LastModified.ofSystemTime f.modified ≤ copy.modified →
      (createService http conf w req).status = 304 := by
  rcases hreq.answered hs hd hclean hasks with ⟨hf, hanswer⟩ |
    ⟨x, f, item, hf, hfind, hitem, hanswer⟩
  · rw [hf, hanswer]
    exact ⟨iff_of_true rfl nofun, nofun⟩
  rw [hf, hanswer]
  by_cases hle : LastModified.ofSystemTime f.modified ≤ copy.modified
  · have hcheck := hdates.notModified ⟨some copy.modified, none, none, none⟩ copy.modified
      (LastModified.ofSystemTime item.fileMeta.modified) rfl rfl (by rw [hitem.modified]; exact hle)
    rw [reply_noBody hcheck]
    refine ⟨?_, fun _ _ _ => rfl⟩
    show some copy.bytes = some f.bytes ↔ _
    constructor
    · intro h g hg _
      obtain rfl := Option.some.inj hg
      exact (Option.some.inj h).symm
    · intro h
      rw [h f rfl hle]
  · have hcheck := hdates.modified ⟨some copy.modified, none, none, none⟩
      (LastModified.ofSystemTime item.fileMeta.modified) rfl
      (fun t ht => by
        obtain rfl := Option.some.inj ht
        rw [hitem.modified]
        exact Nat.lt_of_not_le hle) rfl
    obtain ⟨hstatus, hbody⟩ := reply_whole (w := w) hwarp hgunzip hfind hitem hcheck
      (req.acceptEncoding http)
    have hnewer : ∀ g, some f = some g →
        ¬ LastModified.ofSystemTime g.modified ≤ copy.modified := by
      intro g hg
      obtain rfl := Option.some.inj hg
      exact hle
    refine ⟨iff_of_true ?_ fun g hg hold => absurd hold (hnewer g hg),
      fun g hg hold => absurd hold (hnewer g hg)⟩
    rw [Copy.shown, hstatus, if_neg (by decide), if_pos rfl, hbody]
    rfl

def restFrom (k : Nat) : Range := [(.included k, .unbounded)]

theorem bytesRange_rest (k len : Nat) :
    bytesRange (some (restFrom k)) len = if k < len then .ok (k, len) else .error .badRange := by
  show (if k < len ∧ len ≤ len then Except.ok (k, len) else Except.error BadRange.badRange) = _
  by_cases hk : k < len
  · rw [if_pos hk, if_pos (And.intro hk (Nat.le_refl len))]
  · rw [if_neg hk, if_neg fun h => hk (And.left h)]

theorem completed_rest (k : Nat) (bytes : List UInt8) (item : CacheItem)
    (modified : Option LastModified) :
    copy.completed k (cacheReply item bytes (some (restFrom k)) modified) = some bytes ↔
      k < bytes.length ∧ copy.bytes.take k = bytes.take k := by
  unfold cacheReply
  dsimp only
  rw [bytesRange_rest]
  by_cases hk : k < bytes.length
  · rw [if_pos hk]
    dsimp only
    have hrest : (bytes.drop k).take (bytes.length - k) = bytes.drop k :=
      List.take_of_length_le (by rw [List.length_drop])
    by_cases hzero : k = 0
    · subst hzero
      rw [if_neg (by omega), Copy.completed, cacheItemToResponseHeader_status,
        cacheItemToResponseHeader_body]
      refine iff_of_true ?_ ⟨hk, rfl⟩
      show some ((bytes.drop 0).take (bytes.length - 0)) = some bytes
      rw [hrest, List.drop_zero]
    · rw [if_pos (by omega), Copy.completed, cacheItemToResponseHeader_status,
        cacheItemToResponseHeader_body]
      show some (copy.bytes.take k ++ (bytes.drop k).take (bytes.length - k)) = some bytes ↔ _
      rw [hrest]
      constructor
      · intro h
        have happ : copy.bytes.take k ++ bytes.drop k = bytes.take k ++ bytes.drop k := by
          rw [Option.some.inj h, List.take_append_drop]
        exact ⟨hk, List.append_cancel_right happ⟩
      · rintro ⟨-, htake⟩
        rw [htake, List.take_append_drop]
  · rw [if_neg hk]
    exact iff_of_false nofun fun h => hk h.1

/-- **Resuming**: what is put together is what is served, unless that is no newer than the copy and
begins otherwise. -/
theorem completed_iff (hwarp : http.toWarp.Documented) (hdates : http.toWarp.ChecksDates)
    (hs : Serves crates w s) (hd : Plain d)
    (hclean : CleanSite w.storage.pathPrefix d (served w d)) (hasks : AsksFile req) {k : Nat}
    (hreq : SiteRequest http conf d ⟨none, none, some (.date copy.modified), some (restFrom k)⟩ req)
    (hgzip : acceptsGzip (req.acceptEncoding http) = false) :
    copy.completed k (createService http conf w req) = (servedFile w d req.path).map (·.bytes) ↔
      ∀ f, servedFile w d req.path = some f →
        LastModified.ofSystemTime f.modified ≤ copy.modified →
          k < f.bytes.length ∧ copy.bytes.take k = f.bytes.take k := by
  rcases hreq.answered hs hd hclean hasks with ⟨hf, hanswer⟩ |
    ⟨x, f, item, hf, hfind, hitem, hanswer⟩
  · rw [hf, hanswer]
    exact iff_of_true rfl nofun
  have hcheck := hdates.ifRange ⟨none, none, some (.date copy.modified), some (restFrom k)⟩
    copy.modified (LastModified.ofSystemTime item.fileMeta.modified) rfl rfl rfl
  rw [hf, hanswer, reply_plain hwarp hfind hitem hgzip, plainReply_withBody hcheck, hitem.modified]
  show copy.completed k _ = some f.bytes ↔ _
  by_cases hle : LastModified.ofSystemTime f.modified ≤ copy.modified
  · rw [if_pos hle, completed_rest]
    constructor
    · intro h g hg _
      obtain rfl := Option.some.inj hg
      exact h
    · exact fun h => h f rfl hle
  · rw [if_neg hle, Copy.completed, cacheReply_none_status, if_neg (by decide), if_pos rfl,
      cacheReply_whole]
    refine iff_of_true rfl fun g hg hnot => ?_
    obtain rfl := Option.some.inj hg
    exact absurd hnot hle

end Copies

/-! ### Runs -/

section Runs

variable {http : Http} {conf : ServiceConfig} {d : Str} {req again : Request} {copy : Copy}
  {gunzip : List UInt8 → List UInt8} {dk : Disk} {fileDir : PathBuf} {settings : CacheSettings}
  {st : DomainStorage} {w w' : World} {s : Deployed}

theorem AsksFile.congr (h : AsksFile req) (hpath : again.path = req.path) : AsksFile again := by
  unfold AsksFile
  rw [hpath]
  exact h

/-- It spares what is live, and releases no version of `d`. -/
def Quiet (d : Str) (w : World) (r : AdminRequest) : Prop :=
  SparesLive w r ∧ ∀ version, r ≠ .updateDomainVersion ⟨d, version⟩

theorem serves_timedRun (hinit : DomainStorage.init crates dk fileDir ⟨settings, .empty⟩ = .ok st)
    (htree : WellFormedTree dk fileDir) (hrun : World.TimedRun crates SparesLive ⟨st, dk⟩ w) :
    (∃ s, Serves crates w s) ∧ w.storage.pathPrefix = fileDir := by
  obtain ⟨s, hs, -⟩ := (serves_init hinit htree).timedRun (fun _ _ h => h) hrun
  exact ⟨⟨s, hs⟩, (settled_timedRun hrun).1.pathPrefix.trans (init_spec hinit).1⟩

theorem served_quiet (hs : Serves crates w s) (hd : Plain d)
    (hquiet : World.TimedRun crates (Quiet d) w w') : served w' d = served w d := by
  obtain ⟨s', hs', hstays⟩ := hs.timedRun (fun _ _ h => h.1) hquiet
  rw [← site_eq_served hs hd, ← site_eq_served hs' hd, site, site, dif_pos hd, dif_pos hd]
  exact hstays ⟨d, hd⟩ fun _ version h => h.2 version rfl

/-- **Asking whether a copy is still good.**  A copy is of the file that was served when it was
taken.  When the browser asks again, later and after any requests, it shows what is served then
exactly if that is not at once other content than the copy and no newer; and until a version of the
domain is released, it need not be sent again. -/
theorem revalidated_iff (hwarp : http.toWarp.Documented) (hdates : http.toWarp.ChecksDates)
    (hgunzip : ∀ bytes, gunzip (crates.gzip bytes) = bytes)
    (hinit : DomainStorage.init crates dk fileDir ⟨settings, .empty⟩ = .ok st)
    (htree : WellFormedTree dk fileDir) (hd : Plain d)
    (hbefore : World.TimedRun crates SparesLive ⟨st, dk⟩ w)
    (hmeantime : World.TimedRun crates SparesLive w w')
    (hclean : CleanSite fileDir d (served w d)) (hclean' : CleanSite fileDir d (served w' d))
    (hasks : AsksFile req) (hreq : SiteRequest http conf d ⟨none, none, none, none⟩ req)
    (hcopy : Copy.keep gunzip (createService http conf w req) = some copy)
    (hpath : again.path = req.path)
    (hagain : SiteRequest http conf d ⟨some copy.modified, none, none, none⟩ again) :
    (∃ f, servedFile w d req.path = some f ∧ copy.IsOf f) ∧
    (copy.shown gunzip (createService http conf w' again) =
        (servedFile w' d req.path).map (·.bytes) ↔
      ∀ f, servedFile w' d req.path = some f →
        LastModified.ofSystemTime f.modified ≤ copy.modified → f.bytes = copy.bytes) ∧
    (World.TimedRun crates (Quiet d) w w' → (createService http conf w' again).status = 304) := by
  obtain ⟨⟨s, hs⟩, hdir⟩ := serves_timedRun hinit htree hbefore
  obtain ⟨⟨s', hs'⟩, hdir'⟩ := serves_timedRun hinit htree (hbefore.trans hmeantime)
  have hasks' := AsksFile.congr hasks hpath
  obtain ⟨f, hf, hof⟩ := copy_isOf hwarp hdates hgunzip hs hd (by rw [hdir]; exact hclean) hasks
    hreq hcopy
  obtain ⟨hshown, hbare⟩ := shown_iff hwarp hdates hgunzip hs' hd (by rw [hdir']; exact hclean')
    hasks' hagain
  rw [hpath] at hshown hbare
  refine ⟨⟨f, hf, hof⟩, hshown, fun hquiet => hbare f ?_ ?_⟩
  · rw [servedFile, served_quiet hs hd hquiet]
    exact hf
  · rw [hof]

/-- **Resuming a download.**  A browser that has the first `k` bytes of a copy and asks for the
others, later and after any requests, ends up with what is served then exactly if that is newer, or
longer than the part and begins with it; and until a version of the domain is released, with its
copy. -/
theorem continued_iff (hwarp : http.toWarp.Documented) (hdates : http.toWarp.ChecksDates)
    (hgunzip : ∀ bytes, gunzip (crates.gzip bytes) = bytes)
    (hinit : DomainStorage.init crates dk fileDir ⟨settings, .empty⟩ = .ok st)
    (htree : WellFormedTree dk fileDir) (hd : Plain d)
    (hbefore : World.TimedRun crates SparesLive ⟨st, dk⟩ w)
    (hmeantime : World.TimedRun crates SparesLive w w')
    (hclean : CleanSite fileDir d (served w d)) (hclean' : CleanSite fileDir d (served w' d))
    (hasks : AsksFile req) (hreq : SiteRequest http conf d ⟨none, none, none, none⟩ req)
    (hcopy : Copy.keep gunzip (createService http conf w req) = some copy)
    (hpath : again.path = req.path) {k : Nat}
    (hagain : SiteRequest http conf d ⟨none, none, some (.date copy.modified), some (restFrom k)⟩
      again)
    (hgzip : acceptsGzip (again.acceptEncoding http) = false) :
    (copy.completed k (createService http conf w' again) =
        (servedFile w' d req.path).map (·.bytes) ↔
      ∀ f, servedFile w' d req.path = some f →
        LastModified.ofSystemTime f.modified ≤ copy.modified →
          k < f.bytes.length ∧ copy.bytes.take k = f.bytes.take k) ∧
    (World.TimedRun crates (Quiet d) w w' → k < copy.bytes.length →
      copy.completed k (createService http conf w' again) = some copy.bytes) := by
  obtain ⟨⟨s, hs⟩, hdir⟩ := serves_timedRun hinit htree hbefore
  obtain ⟨⟨s', hs'⟩, hdir'⟩ := serves_timedRun hinit htree (hbefore.trans hmeantime)
  have hasks' := AsksFile.congr hasks hpath
  obtain ⟨f, hf, hof⟩ := copy_isOf hwarp hdates hgunzip hs hd (by rw [hdir]; exact hclean) hasks
    hreq hcopy
  have hcompleted := completed_iff hwarp hdates hs' hd (by rw [hdir']; exact hclean') hasks' hagain
    hgzip
  rw [hpath] at hcompleted
  refine ⟨hcompleted, fun hquiet hk => ?_⟩
  have hf' : servedFile w' d req.path = some f := by
    rw [servedFile, served_quiet hs hd hquiet]
    exact hf
  have hbytes : copy.bytes = f.bytes := by rw [hof]
  rw [hcompleted.mpr fun g hg _ => ?_, hf', hbytes]
  · rfl
  · obtain rfl := Option.some.inj (hf'.symm.trans hg)
    rw [← hbytes]
    exact ⟨hk, rfl⟩

end Runs

/-! ### Back to an older version -/

theorem cleanSite_of_dom {w : World} {fileDir : PathBuf} {d : Str} {v : UInt32}
    (hserving : w.serving d = some v)
    (h : ∀ l ∈ w.disk.dom, ¬ getVersionPath fileDir d v ++ ['/'] <:+:
      relativePath ((l.drop (w.versionLoc d v).length).filterMap OsName.toStr)) :
    CleanSite fileDir d (served w d) := by
  intro u c hserved names f hfile hin
  rw [served, hserving] at hserved
  obtain ⟨rfl, rfl⟩ := Prod.mk.inj (Option.some.inj hserved)
  have hnode := (filesBelow_eq_some.mp hfile).2
  refine h (w.versionLoc d v ++ names.map .utf8) ((w.disk.mem_dom _).mpr ?_) ?_
  · rw [hnode]
    exact nofun
  · rw [List.drop_left, List.filterMap_map]
    simpa [Function.comp_def] using hin

theorem timedRun_serve {w : World} (rs : List AdminRequest)
    (h : ∀ r ∈ rs, r.PlainDomain ∧ ∀ q, r ≠ .removeDomainVersion q) :
    World.TimedRun crates SparesLive w (rs.foldl (fun w r => (w.serve crates r).2) w) := by
  induction rs generalizing w with
  | nil => exact .refl
  | cons r rs ih =>
    obtain ⟨hr, hrs⟩ := List.forall_mem_cons.mp h
    exact .head (Or.inl ⟨r, sparesLive_of_plain hr.1 hr.2 w, rfl⟩) (ih hrs)

theorem Warp.dated_checksDates : Warp.dated.ChecksDates where
  notModified c t m hun hmod hle := by
    unfold Warp.dated
    simp [hun, hmod, hle]
  modified c m hun hmod hif := by
    unfold Warp.dated
    cases hsince : c.ifModifiedSince with
    | none => simp [hun, hsince, hif]
    | some t =>
      have hnot : ¬ m ≤ t := Nat.not_le_of_lt (hmod t hsince)
      simp [hun, hsince, hif, hnot]
  ifRange c t m hun hmod hif := by
    unfold Warp.dated
    simp [hun, hmod, hif]

def headerText (s : String) : HeaderValue := s.toList.map fun c => UInt8.ofNat c.toNat

def someDate (value : HeaderValue) : Option LastModified :=
  if value = headerText "Thu, 01 Jan 1970 00:00:00 GMT" then some 0
  else if value = headerText "Thu, 01 Jan 1970 00:00:05 GMT" then some 5 else none

/-- The conditional headers are read, as far as they are one of these dates and one range. -/
def Http.dated : Http :=
  { Http.simple with
    toWarp := .dated
    conditionals headers :=
      ⟨(headers "if-modified-since".toList).bind someDate, none,
        ((headers "if-range".toList).bind someDate).map .date,
        (headers "range".toList).bind fun value =>
          if value = headerText "bytes=1-" then some (restFrom 1) else none⟩ }

def getPage (headers : List (String × String)) : Request :=
  { get "www.a.com".toList "/index.html".toList with
    headers name := (headers.find? fun h => h.1.toList = name).map fun h => headerText h.2 }

def upgraded : World :=
  secondRelease.foldl (fun w r => (w.serve Crates.simple r).2) (letterWorld.later (5 * 10 ^ 9))

def rolledBack : World :=
  (upgraded.serve Crates.simple (.updateDomainVersion ⟨"www.a.com".toList, some 1⟩)).2

theorem timedRun_upgraded :
    World.TimedRun Crates.simple SparesLive letterWorld upgraded :=
  .head (Or.inr ⟨5 * 10 ^ 9, by decide +kernel, rfl⟩) (timedRun_serve _ plainDomain_secondRelease)

theorem timedRun_rolledBack : World.TimedRun Crates.simple SparesLive upgraded rolledBack := by
  refine timedRun_serve [.updateDomainVersion ⟨"www.a.com".toList, some 1⟩]
    (List.forall_mem_singleton.mpr ⟨?_, nofun⟩)
  show Plain "www.a.com".toList
  decide

theorem cleanSite_upgraded : CleanSite "/srv".toList "www.a.com".toList
    (served upgraded "www.a.com".toList) :=
  @cleanSite_of_dom _ _ _ 2 (by decide +kernel) (by decide +kernel)

theorem cleanSite_rolledBack : CleanSite "/srv".toList "www.a.com".toList
    (served rolledBack "www.a.com".toList) :=
  @cleanSite_of_dom _ _ _ 1 (by decide +kernel) (by decide +kernel)

theorem siteRequest_getPage (headers : List (String × String)) {since : Option LastModified}
    {ifRange : Option IfRange} {range : Option Range}
    (horigin : (getPage headers).headers "origin".toList = none)
    (hsince : ((getPage headers).headers "if-modified-since".toList).bind someDate = since)
    (hifRange : (((getPage headers).headers "if-range".toList).bind someDate).map .date = ifRange)
    (hrange : (((getPage headers).headers "range".toList).bind fun value =>
        if value = headerText "bytes=1-" then some (restFrom 1) else none) = range) :
    SiteRequest .dated plainService "www.a.com".toList ⟨since, none, ifRange, range⟩
      (getPage headers) := by
  refine ⟨rfl, horigin, fun h => absurd h.1 nofun, ?_⟩
  rw [← hsince, ← hifRange, ← hrange]
  rfl

theorem asksFile_getPage (headers : List (String × String)) : AsksFile (getPage headers) := by
  intro decoded h
  have hpath : (sanitizePath (getPage headers).path).toOption = some "/index.html".toList := by
    show (sanitizePath "/index.html".toList).toOption = _
    decide +kernel
  rw [h] at hpath
  obtain rfl := Option.some.inj hpath
  decide +kernel

theorem keep_upgraded : Copy.keep id (createService .dated plainService upgraded (getPage [])) =
    some ⟨[97, 98], 5⟩ := by
  decide +kernel

theorem servedFile_rolledBack :
    servedFile rolledBack "www.a.com".toList "/index.html".toList = some ⟨[97], 0⟩ := by
  decide +kernel

/-- The page of the second version goes on being shown. -/
theorem revalidated_iff_rolledBack :
    (createService .dated plainService rolledBack
      (getPage [("if-modified-since", "Thu, 01 Jan 1970 00:00:05 GMT")])).status = 304 ∧
    Copy.shown id ⟨[97, 98], 5⟩ (createService .dated plainService rolledBack
        (getPage [("if-modified-since", "Thu, 01 Jan 1970 00:00:05 GMT")])) ≠
      (servedFile rolledBack "www.a.com".toList "/index.html".toList).map (·.bytes) := by
  refine ⟨by decide +kernel, fun hshown => ?_⟩
  have hagain : SiteRequest .dated plainService "www.a.com".toList ⟨some 5, none, none, none⟩
      (getPage [("if-modified-since", "Thu, 01 Jan 1970 00:00:05 GMT")]) :=
    siteRequest_getPage _ (by decide +kernel) (by decide +kernel) (by decide +kernel)
      (by decide +kernel)
  have hiff := (@revalidated_iff Crates.simple .dated plainService "www.a.com".toList (getPage [])
    (getPage [("if-modified-since", "Thu, 01 Jan 1970 00:00:05 GMT")]) ⟨[97, 98], 5⟩ id letterDisk
    "/srv".toList allOnDisk (storageOn letterDisk) upgraded rolledBack Warp.dated_documented
    Warp.dated_checksDates (fun _ => rfl)
    (init_storageOn (by decide +kernel)) wellFormedTree_letterDisk (by decide) timedRun_upgraded
    timedRun_rolledBack cleanSite_upgraded cleanSite_rolledBack (asksFile_getPage [])
    (siteRequest_getPage [] rfl rfl rfl rfl) keep_upgraded rfl hagain).2.1
  exact absurd (hiff.mp hshown _ servedFile_rolledBack (by decide)) (by decide)

/-- The rest of the second version is not in the first. -/
theorem continued_iff_rolledBack :
    (createService .dated plainService rolledBack (getPage
      [("if-range", "Thu, 01 Jan 1970 00:00:05 GMT"), ("range", "bytes=1-")])).status = 416 ∧
    Copy.completed ⟨[97, 98], 5⟩ 1 (createService .dated plainService rolledBack (getPage
        [("if-range", "Thu, 01 Jan 1970 00:00:05 GMT"), ("range", "bytes=1-")])) ≠
      (servedFile rolledBack "www.a.com".toList "/index.html".toList).map (·.bytes) := by
  refine ⟨by decide +kernel, fun hcompleted => ?_⟩
  have hagain : SiteRequest .dated plainService "www.a.com".toList
      ⟨none, none, some (.date 5), some (restFrom 1)⟩
      (getPage [("if-range", "Thu, 01 Jan 1970 00:00:05 GMT"), ("range", "bytes=1-")]) :=
    siteRequest_getPage _ (by decide +kernel) (by decide +kernel) (by decide +kernel)
      (by decide +kernel)
  have hiff := (@continued_iff Crates.simple .dated plainService "www.a.com".toList (getPage [])
    (getPage [("if-range", "Thu, 01 Jan 1970 00:00:05 GMT"), ("range", "bytes=1-")])
    ⟨[97, 98], 5⟩ id letterDisk "/srv".toList allOnDisk (storageOn letterDisk) upgraded rolledBack
    Warp.dated_documented Warp.dated_checksDates (fun _ => rfl)
    (init_storageOn (by decide +kernel)) wellFormedTree_letterDisk (by decide) timedRun_upgraded
    timedRun_rolledBack cleanSite_upgraded cleanSite_rolledBack (asksFile_getPage [])
    (siteRequest_getPage [] rfl rfl rfl rfl) keep_upgraded rfl 1
    hagain (by decide +kernel)).1
  exact absurd (hiff.mp hcompleted _ servedFile_rolledBack (by decide)).1 (by decide)

end Site

end SpaServer
