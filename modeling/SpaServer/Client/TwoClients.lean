import SpaServer.Client.Traffic

/-!
# Clients that upload side by side

Several clients run `upload_files` for one server, their requests in any order.
`Exclusive` says that no version of two of them gets finished with files of both.

A version is told by its number alone, so the server admits a second upload of it
(`secondUpload_mixes`).  `uploads_exclusive` says that nothing else goes wrong: as long
as it admits none after the first, no files are mixed.  A client saves files only
after its own upload was accepted (`saved_started`), and of two accepted ones the
later was admitted after the earlier.
-/

namespace SpaServer

open Base Program

namespace Client

variable {host : Host} {ps₀ : List (ClientM (Except UploadError Unit))} {n₀ : Net}
  {log : List Exchange}

/-- The server has accepted a file of the version from client `i`. -/
def SavedBy (log : List Exchange) (i : Nat) (d : Str) (v : UInt32) : Prop :=
  ∃ parts data path, Accepted log i (.uploadFile parts) ∧
    formOf parts = ⟨some data, some path, some v, some d⟩

/-- Clients `i` and `j` do not mix their files. -/
structure Exclusive (log : List Exchange) (i j : Nat) (d : Str) (v : UInt32) : Prop where
  finished : ∀ k, Accepted log k (.changeUploadStatus ⟨d, v, .finish⟩) →
    ¬ (SavedBy log i d v ∧ SavedBy log j d v)
  once : ∀ later e earlier, log = later ++ e :: earlier →
    e.client = i → e.request = .changeUploadStatus ⟨d, v, .uploading⟩ → e.response.status = 200 →
    ¬ Accepted later i (.changeUploadStatus ⟨d, v, .finish⟩) → ¬ SavedBy later j d v

/-- No upload of a version is admitted after that of another client was accepted. -/
def Apart (host : Host) (log : List Exchange) (n : Net) (i : Nat) (req : HttpRequest) : Prop :=
  ∀ d v, AdminServer.routes host.conf host.formLength req =
      some (.service (.changeUploadStatus ⟨d, v, .uploading⟩)) →
    n.deliveries.headD .answered ≠ .lost → Admits n.world d v →
    ∀ j, Accepted log j (.changeUploadStatus ⟨d, v, .uploading⟩) → j = i

instance (w : World) (d : Str) (v : UInt32) : Decidable (Admits w d v) :=
  inferInstanceAs (Decidable (_ ∨ _))

def begins : Option AdminCall → Option (Str × UInt32)
  | some (.service (.changeUploadStatus ⟨d, v, .uploading⟩)) => some (d, v)
  | _ => none

theorem begins_eq_some {call : Option AdminCall} {d : Str} {v : UInt32} :
    begins call = some (d, v) ↔
      call = some (.service (.changeUploadStatus ⟨d, v, .uploading⟩)) := by
  unfold begins
  split
  · simp
  · next h => exact ⟨nofun, fun he => absurd he (h d v)⟩

theorem apart_iff {n : Net} {i : Nat} {req : HttpRequest} : Apart host log n i req ↔
    ∀ x ∈ begins (AdminServer.routes host.conf host.formLength req),
      n.deliveries.headD .answered ≠ .lost → Admits n.world x.1 x.2 →
        ∀ e ∈ log, e.request = .changeUploadStatus ⟨x.1, x.2, .uploading⟩ →
          e.response.status = 200 → e.client = i := by
  constructor
  · rintro h ⟨d, v⟩ hbegins hlost hadmits e he hreq hstatus
    exact h d v (begins_eq_some.mp hbegins) hlost hadmits _ ⟨e, he, rfl, hreq, hstatus⟩
  · rintro h d v hroutes hlost hadmits j ⟨e, he, rfl, hreq, hstatus⟩
    exact h (d, v) (begins_eq_some.mpr hroutes) hlost hadmits e he hreq hstatus

instance (host : Host) (log : List Exchange) (n : Net) (i : Nat) (req : HttpRequest) :
    Decidable (Apart host log n i req) :=
  decidable_of_iff _ apart_iff.symm

def AllUpload (ps₀ : List (ClientM (Except UploadError Unit))) : Prop :=
  ∀ p ∈ ps₀, ∃ crates api dk sched d version path parallel,
    p = uploadFiles crates api dk sched d version path parallel

theorem saved_started {ok : List Exchange → Net → Nat → HttpRequest → Prop}
    {c : List (ClientM (Except UploadError Unit)) × Net} (hps : AllUpload ps₀)
    (h : Traffic host ok ps₀ n₀ log c) {i : Nat} {d : Str} {v : UInt32} (hs : SavedBy log i d v) :
    Accepted log i (.changeUploadStatus ⟨d, v, .uploading⟩) := by
  obtain ⟨parts, data, path, ⟨e, he, rfl, hreq, hstatus⟩, hform⟩ := hs
  have hguarded := h.guarded (fun hist req => ∃ api version, Orderly host api version hist req)
    fun p hp => by
      obtain ⟨crates, api, dk, sched, d, version, path, parallel, rfl⟩ := hps p hp
      exact guarded_uploadFiles.mono fun _ _ ho => ⟨api, version, ho⟩
  obtain ⟨hist, req, ⟨api, version, horderly⟩, hseen, hroutes⟩ := hguarded.2 e he
  rw [hreq] at hroutes
  exact (horderly.started parts data path v d hroutes hform).accepted hseen

theorem started_unique {c : List (ClientM (Except UploadError Unit)) × Net}
    (h : Traffic host (Apart host) ps₀ n₀ log c) {i j : Nat} {d : Str} {v : UInt32}
    (hi : Accepted log i (.changeUploadStatus ⟨d, v, .uploading⟩))
    (hj : Accepted log j (.changeUploadStatus ⟨d, v, .uploading⟩)) : i = j := by
  induction h generalizing i j with
  | start =>
    obtain ⟨e, he, -⟩ := hi
    exact absurd he List.not_mem_nil
  | @send log ps n k req next _ _ hapart ih =>
    rcases handled_cases host n k req with ⟨hlog, -⟩ | ⟨r, hroutes, hlost, hlog, -⟩
    · rw [hlog] at hi hj
      exact ih hi hj
    · rw [hlog] at hi hj
      rcases accepted_cons.mp hi with ⟨rfl, rfl, hstatus⟩ | hi'
      · rcases accepted_cons.mp hj with ⟨hij, -⟩ | hj'
        · exact hij
        · exact (hapart d v hroutes hlost (serve_uploading hstatus).1 j hj').symm
      · rcases accepted_cons.mp hj with ⟨rfl, rfl, hstatus⟩ | hj'
        · exact hapart d v hroutes hlost (serve_uploading hstatus).1 i hi'
        · exact ih hi' hj'

/-- **Clients whose uploads are kept apart do not mix their files.** -/
theorem uploads_exclusive {c : List (ClientM (Except UploadError Unit)) × Net}
    (hps : AllUpload ps₀) (h : Traffic host (Apart host) ps₀ n₀ log c) {i j : Nat} (hij : i ≠ j)
    (d : Str) (v : UInt32) : Exclusive log i j d v := by
  constructor
  · rintro k - ⟨hi, hj⟩
    exact hij (started_unique h (saved_started hps h hi) (saved_started hps h hj))
  · intro later e earlier hlog hi hr hstatus _ hj
    have hstarted : Accepted log i (.changeUploadStatus ⟨d, v, .uploading⟩) :=
      ⟨e, by rw [hlog]; simp, hi, hr, hstatus⟩
    have hsaved : SavedBy log j d v := by
      obtain ⟨parts, data, path, hacc, hform⟩ := hj
      exact ⟨parts, data, path, hacc.mono (by rw [hlog]; exact List.subset_append_left _ _), hform⟩
    exact hij (started_unique h hstarted (saved_started hps h hsaved))

/-! ### Two clients of a server with nothing on it -/

def twoUploads : List (ClientM (Except UploadError Unit)) :=
  [uploadOf "a.html".toList, uploadOf "b.html".toList]

theorem twoUploads_all : AllUpload twoUploads := by
  intro p hp
  rcases List.mem_pair.mp hp with rfl | rfl
  · exact ⟨_, _, _, _, _, _, _, _, rfl⟩
  · exact ⟨_, _, _, _, _, _, _, _, rfl⟩

/-- One client uploads version 1, another one is told version 2, and a third comes when the
first has finished. -/
def apartUploads : List (ClientM (Except UploadError Unit)) :=
  [uploadOf "a.html".toList,
    uploadFiles Crates.simple bareApi (siteWith "b.html".toList) [] "www.a.com".toList (some 2)
      "/site".toList 1,
    uploadOf "c.html".toList]

theorem apartUploads_all : AllUpload apartUploads := by
  intro p hp
  simp only [apartUploads, List.mem_cons, List.not_mem_nil, or_false] at hp
  rcases hp with rfl | rfl | rfl <;> exact ⟨_, _, _, _, _, _, _, _, rfl⟩

def apartUpload : List Exchange × List (ClientM (Except UploadError Unit)) × Net :=
  bareHost.follow [0, 1, 0, 0, 1, 0, 0, 2, 2, 2, 2, 2] [] (apartUploads, bareNet)

/-- The second client's upload is refused, and the third one's is of a version of its own. -/
theorem uploads_exclusive_apart :
    (∃ e ∈ apartUpload.1, e.client = 1 ∧ e.request =
      .changeUploadStatus ⟨"www.a.com".toList, 2, .uploading⟩ ∧ e.response.status = 400) ∧
    Accepted apartUpload.1 0 (.changeUploadStatus ⟨"www.a.com".toList, 1, .finish⟩) ∧
    Accepted apartUpload.1 2 (.changeUploadStatus ⟨"www.a.com".toList, 2, .finish⟩) ∧
    Exclusive apartUpload.1 0 1 "www.a.com".toList 1 ∧
    Exclusive apartUpload.1 1 2 "www.a.com".toList 2 := by
  have htraffic : Traffic bareHost (Apart bareHost) apartUploads bareNet apartUpload.1
      apartUpload.2 := Traffic.follow (by decide +kernel) .start
  exact ⟨by decide +kernel, by decide +kernel, by decide +kernel,
    uploads_exclusive apartUploads_all htraffic (by decide) _ _,
    uploads_exclusive apartUploads_all htraffic (by decide) _ _⟩

def mixedUpload : List Exchange × List (ClientM (Except UploadError Unit)) × Net :=
  bareHost.follow [0, 1, 0, 1, 0, 1, 0, 1, 0] [] (twoUploads, bareNet)

def savedParts (name : Str) : List Part :=
  (API.uploadForm "www.a.com".toList "1".toList ('/' :: name) name [1]).map (·.toPart)

/-- Two clients upload the same version of a domain, and it is finished with both
their files. -/
theorem secondUpload_mixes :
    ¬ ∀ (host : Host) (ps₀ : List (ClientM (Except UploadError Unit))) (n₀ : Net)
      (log : List Exchange) (c : List (ClientM (Except UploadError Unit)) × Net),
      AllUpload ps₀ → Traffic host (fun _ _ _ _ => True) ps₀ n₀ log c →
      ∀ i j, i ≠ j → ∀ d v, Exclusive log i j d v := by
  intro h
  have htraffic : Traffic bareHost (fun _ _ _ _ => True) twoUploads bareNet mixedUpload.1
      mixedUpload.2 :=
    Traffic.follow (Host.allows_of_forall (fun _ _ _ _ => trivial) _ _ _) .start
  have hexclusive := h _ _ _ _ _ twoUploads_all htraffic 0 1 (by decide) "www.a.com".toList 1
  have hfinish : Accepted mixedUpload.1 0
      (.changeUploadStatus ⟨"www.a.com".toList, 1, .finish⟩) := by decide +kernel
  refine hexclusive.finished 0 hfinish ⟨?_, ?_⟩
  · exact ⟨savedParts "a.html".toList, [1], "/a.html".toList, by decide +kernel,
      by decide +kernel⟩
  · exact ⟨savedParts "b.html".toList, [1], "/b.html".toList, by decide +kernel,
      by decide +kernel⟩

end Client

end SpaServer
