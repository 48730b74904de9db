import Mathlib.Data.List.Range
import SpaServer.Base.BufferUnordered
import SpaServer.Client.UploadFiles

/-!
# Finishing an upload

`upload_files` from its Uploading request on, when the futures of `retry_upload` are polled
as `buffer_unordered` does it and share the counter `process_count`.  A `Sender` is where
the client has got to, with a log of what has happened, the last in front: the requests,
their replies, and the numbers that the counter has given.  What the replies are, and in
which order they come, is left open.

* `Position.step`: what has happened to one file is a number of failed attempts, fewer than
  three, then perhaps a success or a third failure, and then its number.
* `Inv.step`: the log, the counter and the pool fit together, in every state of every run.
* `publishes`: the Finish request is sent when every file has been uploaded, and only then;
  the numbers are 1, 2, … in their order; and every run ends.
-/

namespace SpaServer

open Base Program

namespace Client

/-! ### One file -/

/-- What `retry_upload` waits for or does: an attempt is made, its response is there, the
counter is read and increased. -/
inductive UploadOp where
  | request (file : UploadingFile)
  | response (file : UploadingFile)
  | fetchAdd

/-- The response to an attempt is `none` when the request could not be sent, or got none. -/
abbrev UploadOp.Res : UploadOp → Type
  | request _ => Unit
  | response _ => Option Response
  | fetchAdd => Nat

abbrev UploadM (α : Type) := Program UploadOp UploadOp.Res α

/-- `Either<(String, u64), (String, u64)>`, where the left is a failure. -/
inductive UploadResult where
  | left (key : Str) (count : Nat)
  | right (key : Str) (count : Nat)
  deriving DecidableEq

/-- `retry_upload`, with the tries that are left. -/
def retryUploadCounted (file : UploadingFile) : Nat → UploadM UploadResult
  | 0 => do
    let count ← perform UploadOp.fetchAdd
    return .left file.key count
  | n + 1 => do
    perform (UploadOp.request file)
    let resp ← perform (UploadOp.response file)
    match handleResp resp with
    | true => do
      let count ← perform UploadOp.fetchAdd
      return .right file.key count
    | false => retryUploadCounted file n

inductive FileEvent where
  | requested
  | answered (reply : Option Response)
  | numbered (count : Nat)

def FileEvent.isRequested : FileEvent → Bool
  | .requested => true
  | _ => false

def FileEvent.number : FileEvent → Option Nat
  | .numbered count => some count
  | _ => none

@[simp] theorem FileEvent.isRequested_requested : FileEvent.requested.isRequested = true := rfl

@[simp] theorem FileEvent.isRequested_answered (reply : Option Response) :
    (FileEvent.answered reply).isRequested = false := rfl

@[simp] theorem FileEvent.isRequested_numbered (count : Nat) :
    (FileEvent.numbered count).isRequested = false := rfl

@[simp] theorem FileEvent.number_requested : FileEvent.requested.number = none := rfl

@[simp] theorem FileEvent.number_answered (reply : Option Response) :
    (FileEvent.answered reply).number = none := rfl

@[simp] theorem FileEvent.number_numbered (count : Nat) :
    (FileEvent.numbered count).number = some count := rfl

inductive Event where
  | started (reply : Option Response)
  | file (i : Nat) (e : FileEvent)
  | finishSent
  | finished (reply : Option Response)

/-- What the uploads share: the counter `process_count`, and the log. -/
structure Shared where
  count : Nat
  log : List Event

def Shared.note (s : Shared) (e : Event) : Shared := { s with log := e :: s.log }

/-- What an operation for the file number `i` answers and leaves. -/
inductive UploadWay (i : Nat) : (op : UploadOp) → Shared → op.Res × Shared → Prop
  | request {file : UploadingFile} {s : Shared} :
      UploadWay i (.request file) s ((), s.note (.file i .requested))
  | response {file : UploadingFile} {s : Shared} (reply : Option Response) :
      UploadWay i (.response file) s (reply, s.note (.file i (.answered reply)))
  | fetchAdd {s : Shared} :
      UploadWay i .fetchAdd s
        (s.count, { count := s.count + 1, log := .file i (.numbered s.count) :: s.log })

/-! ### The client -/

abbrev UploadPool := Pool UploadOp UploadOp.Res UploadResult Nat

inductive Phase where
  | starting
  | uploading
  | finishing
  | returned (res : Except UploadError Unit)

structure Sender where
  phase : Phase
  pool : UploadPool
  shared : Shared

def Sender.start (files : List UploadingFile) : Sender :=
  ⟨.starting, ⟨files.zipIdx.map fun x => (x.2, retryUploadCounted x.1 3), [], []⟩, ⟨1, []⟩⟩

def failKeys (outputs : List (Nat × UploadResult)) : List Str :=
  outputs.filterMap fun o => match o.2 with
    | .left key _ => some key
    | .right _ _ => none

/-- One step of `upload_files`: the reply to the Uploading request, a step of the pool, the
end of the pool, the reply to the Finish request. -/
inductive Sender.Step (parallel : UInt32) : Sender → Sender → Prop
  | start {pool : UploadPool} {s : Shared} (reply : Option Response) :
      Step parallel ⟨.starting, pool, s⟩
        ⟨if handleResp reply then
            if parallel = 0 then .returned (.error .panic) else .uploading
          else .returned (.error .request), pool, s.note (.started reply)⟩
  | upload {pool pool' : UploadPool} {s s' : Shared}
      (h : Pool.Step UploadWay parallel.toNat (pool, s) (pool', s')) :
      Step parallel ⟨.uploading, pool, s⟩ ⟨.uploading, pool', s'⟩
  | fail {pool : UploadPool} {s : Shared} (hall : pool.Finished)
      (hkeys : failKeys pool.outputs ≠ []) :
      Step parallel ⟨.uploading, pool, s⟩ ⟨.returned (.error .uploadFail), pool, s⟩
  | publish {pool : UploadPool} {s : Shared} (hall : pool.Finished)
      (hkeys : failKeys pool.outputs = []) :
      Step parallel ⟨.uploading, pool, s⟩ ⟨.finishing, pool, s.note .finishSent⟩
  | finish {pool : UploadPool} {s : Shared} (reply : Option Response) :
      Step parallel ⟨.finishing, pool, s⟩
        ⟨.returned (if handleResp reply then .ok () else .error .request), pool,
          s.note (.finished reply)⟩

def Sender.Run (parallel : UInt32) : Sender → Sender → Prop :=
  Relation.ReflTransGen (Sender.Step parallel)

/-! ### What the log says -/

def Event.about (i : Nat) : Event → Option FileEvent
  | .file j e => if j = i then some e else none
  | _ => none

def Event.number : Event → Option Nat
  | .file _ e => e.number
  | _ => none

def history (i : Nat) (log : List Event) : List FileEvent := log.filterMap (Event.about i)

def numbers (log : List Event) : List Nat := log.filterMap Event.number

/-- The request was answered, with status 200. -/
def IsOk (reply : Option Response) : Prop := ∃ resp, reply = some resp ∧ resp.status = 200

theorem isOk_iff {reply : Option Response} : IsOk reply ↔ handleResp reply = true := by
  constructor
  · rintro ⟨resp, rfl, hstatus⟩
    simpa [handleResp] using hstatus
  · exact handleResp_some

def Started (log : List Event) : Prop := ∃ reply, .started reply ∈ log ∧ IsOk reply

def Uploaded (log : List Event) (i : Nat) : Prop :=
  ∃ reply, .file i (.answered reply) ∈ log ∧ IsOk reply

theorem history_cons_self (i : Nat) (e : FileEvent) (log : List Event) :
    history i (.file i e :: log) = e :: history i log :=
  List.filterMap_cons_some (if_pos rfl)

theorem history_cons_of_ne {i j : Nat} (h : j ≠ i) (e : FileEvent) (log : List Event) :
    history i (.file j e :: log) = history i log :=
  List.filterMap_cons_none (if_neg h)

theorem mem_history {i : Nat} {e : FileEvent} {log : List Event} :
    e ∈ history i log ↔ .file i e ∈ log := by
  rw [history, List.mem_filterMap]
  constructor
  · rintro ⟨e', he', h⟩
    cases e' with
    | file j e' =>
      rw [Event.about] at h
      split at h
      · next hj =>
        obtain rfl := hj
        obtain rfl := Option.some.inj h
        exact he'
      · exact absurd h (by simp)
    | started => exact absurd h (by simp [Event.about])
    | finishSent => exact absurd h (by simp [Event.about])
    | finished => exact absurd h (by simp [Event.about])
  · exact fun h => ⟨_, h, if_pos rfl⟩

theorem uploaded_iff {log : List Event} {i : Nat} :
    Uploaded log i ↔ ∃ reply, .answered reply ∈ history i log ∧ IsOk reply := by
  simp only [Uploaded, mem_history]

theorem Uploaded.mono {log log' : List Event} {i : Nat} (h : Uploaded log i) (hsub : log ⊆ log') :
    Uploaded log' i := by
  obtain ⟨reply, hmem, hr⟩ := h
  exact ⟨reply, hsub hmem, hr⟩

/-! ### The way of one file -/

section OneFile

variable {file : UploadingFile}

inductive Failed : Nat → List FileEvent → Prop
  | none : Failed 0 []
  | more {k : Nat} {h : List FileEvent} {reply : Option Response} (hf : Failed k h)
      (hr : handleResp reply = false) : Failed (k + 1) (.answered reply :: .requested :: h)

/-- How `retry_upload` goes on from a response, with the tries that are left then. -/
def afterResponse (file : UploadingFile) (n : Nat) (resp : Option Response) :
    UploadM UploadResult :=
  match handleResp resp with
  | true => .call .fetchAdd fun count => .ret (.right file.key count)
  | false => retryUploadCounted file n

theorem retryUploadCounted_succ (file : UploadingFile) (n : Nat) :
    retryUploadCounted file (n + 1) =
      .call (.request file) fun _ => .call (.response file) (afterResponse file n) := rfl

def UploadOp.send (api : API) (dk : Disk) (domain version : Str) :
    (op : UploadOp) → ClientM op.Res
  | .request _ => return ()
  | .response file => call (api.uploadFile dk domain version file.key file.path)
  | .fetchAdd => return 0

def UploadResult.isRight : UploadResult → Bool
  | .left _ _ => false
  | .right _ _ => true

/-- But for the counter, this is `retryUpload`. -/
theorem retryUpload_eq (api : API) (dk : Disk) (domain version : Str) (file : UploadingFile)
    (n : Nat) : retryUpload api dk domain version file n =
      (retryUploadCounted file n).through (UploadOp.send api dk domain version) >>= fun res =>
        ret res.isRight := by
  induction n with
  | zero => rfl
  | succ n ih =>
    rw [retryUploadCounted_succ]
    show (call _ >>= _) = (call _ >>= fun resp => (afterResponse file n resp).through _) >>= _
    rw [bind_assoc]
    refine congrArg (call _ >>= ·) (funext fun resp => ?_)
    rw [afterResponse]
    cases handleResp resp with
    | true => rfl
    | false => exact ih

inductive Position (file : UploadingFile) : List FileEvent → UploadM UploadResult → Prop
  | trying {n k : Nat} {h : List FileEvent} (hf : Failed k h) (hk : k + n = 3) :
      Position file h (retryUploadCounted file n)
  | waiting {n k : Nat} {h : List FileEvent} (hf : Failed k h) (hk : k + (n + 1) = 3) :
      Position file (.requested :: h) (.call (.response file) (afterResponse file n))
  | succeeded {k : Nat} {h : List FileEvent} {reply : Option Response} (hf : Failed k h)
      (hk : k < 3) (hr : handleResp reply = true) :
      Position file (.answered reply :: .requested :: h)
        (.call .fetchAdd fun count => .ret (.right file.key count))
  | right {k : Nat} {h : List FileEvent} {reply : Option Response} (hf : Failed k h)
      (hk : k < 3) (hr : handleResp reply = true) (count : Nat) :
      Position file (.numbered count :: .answered reply :: .requested :: h)
        (.ret (.right file.key count))
  | left {h : List FileEvent} (hf : Failed 3 h) (count : Nat) :
      Position file (.numbered count :: h) (.ret (.left file.key count))

def isReturned : UploadM UploadResult → Bool
  | .ret _ => true
  | .call _ _ => false

@[simp] theorem isReturned_ret (a : UploadResult) : isReturned (.ret a) = true := rfl

@[simp] theorem isReturned_call (op : UploadOp) (next : op.Res → UploadM UploadResult) :
    isReturned (.call op next) = false := rfl

theorem isReturned_retry (n : Nat) : isReturned (retryUploadCounted file n) = false := by
  cases n <;> rfl

/-- **An operation for a file adds one event to its history**, and the file goes on as it
should.  The last operation takes the number, and returns. -/
theorem Position.step {h : List FileEvent} {i : Nat} {op : UploadOp}
    {next : op.Res → UploadM UploadResult} {s s' : Shared} {r : op.Res}
    (hp : Position file h (.call op next)) (hway : UploadWay i op s (r, s')) :
    ∃ e, s'.log = .file i e :: s.log ∧ Position file (e :: h) (next r) ∧
      (e = .numbered s.count ∧ s'.count = s.count + 1 ∧ isReturned (next r) = true ∨
        e.number = none ∧ s'.count = s.count ∧ isReturned (next r) = false) := by
  generalize hq : (Program.call op next : UploadM UploadResult) = q at hp
  cases hp with
  | @trying n k h hf hk =>
    cases n with
    | zero =>
      obtain rfl : k = 3 := by omega
      obtain ⟨rfl, hnext⟩ := Program.call.inj hq
      obtain rfl := eq_of_heq hnext
      cases hway
      exact ⟨_, rfl, .left hf _, Or.inl ⟨rfl, rfl, rfl⟩⟩
    | succ n =>
      rw [retryUploadCounted_succ] at hq
      obtain ⟨rfl, hnext⟩ := Program.call.inj hq
      obtain rfl := eq_of_heq hnext
      cases hway
      exact ⟨_, rfl, .waiting hf hk, Or.inr ⟨rfl, rfl, rfl⟩⟩
  | @waiting n k h hf hk =>
    obtain ⟨rfl, hnext⟩ := Program.call.inj hq
    obtain rfl := eq_of_heq hnext
    cases hway
    refine ⟨_, rfl, ?_⟩
    rw [afterResponse]
    cases hr : handleResp r with
    | true => exact ⟨.succeeded hf (by omega) hr, Or.inr ⟨rfl, rfl, rfl⟩⟩
    | false =>
      exact ⟨.trying (.more hf hr) (by omega), Or.inr ⟨rfl, rfl, isReturned_retry n⟩⟩
  | succeeded hf hk hr =>
    obtain ⟨rfl, hnext⟩ := Program.call.inj hq
    obtain rfl := eq_of_heq hnext
    cases hway
    exact ⟨_, rfl, .right hf hk hr _, Or.inl ⟨rfl, rfl, rfl⟩⟩
  | right => exact absurd hq (by simp)
  | left => exact absurd hq (by simp)

/-- No attempt has been made since one succeeded. -/
def NoRetry (h : List FileEvent) : Prop :=
  ∀ since reply before, h = since ++ .answered reply :: before → IsOk reply → .requested ∉ since

theorem noRetry_of_none {h : List FileEvent} (hno : ∀ reply, .answered reply ∈ h → ¬ IsOk reply) :
    NoRetry h := by
  rintro since reply before rfl hr
  exact absurd hr (hno reply (by simp))

theorem NoRetry.cons {h : List FileEvent} (hh : NoRetry h) {e : FileEvent} (he : e ≠ .requested) :
    NoRetry (e :: h) := by
  intro since reply before heq hr
  cases since with
  | nil => simp
  | cons e' since =>
    obtain ⟨rfl, rfl⟩ := List.cons.inj heq
    simp only [List.mem_cons, not_or]
    exact ⟨he.symm, hh since reply before rfl hr⟩

theorem Failed.spec {k : Nat} {h : List FileEvent} (hf : Failed k h) :
    h.countP FileEvent.isRequested = k ∧
      (∀ reply, .answered reply ∈ h → ¬ IsOk reply) ∧
      h.filterMap FileEvent.number = [] := by
  induction hf with
  | none => simp
  | @more k h reply hf hr ih =>
    obtain ⟨hcount, hreplies, hnumber⟩ := ih
    refine ⟨by simp [List.countP_cons, hcount], fun reply' hmem => ?_, by simp [List.filterMap_cons, hnumber]⟩
    rcases List.mem_cons.mp hmem with he | hmem
    · rw [FileEvent.answered.inj he, isOk_iff, hr]
      exact Bool.false_ne_true
    · exact hreplies reply' (by simpa using hmem)

/-- A file is tried at most three times, not again once it is uploaded, and has one number
at most. -/
theorem Position.wellTried {h : List FileEvent} {p : UploadM UploadResult}
    (hp : Position file h p) : h.countP FileEvent.isRequested ≤ 3 ∧ NoRetry h ∧
      (h.filterMap FileEvent.number).length ≤ 1 := by
  cases hp with
  | trying hf hk =>
    obtain ⟨hcount, hreplies, hnumber⟩ := hf.spec
    exact ⟨by omega, noRetry_of_none hreplies, by simp [hnumber]⟩
  | waiting hf hk =>
    obtain ⟨hcount, hreplies, hnumber⟩ := hf.spec
    exact ⟨by simp [List.countP_cons, hcount]; omega,
      noRetry_of_none (by simpa using hreplies), by simp [List.filterMap_cons, hnumber]⟩
  | succeeded hf hk hr =>
    obtain ⟨hcount, hreplies, hnumber⟩ := hf.spec
    exact ⟨by simp [List.countP_cons, hcount]; omega,
      (noRetry_of_none (by simpa using hreplies)).cons (by simp), by simp [List.filterMap_cons, hnumber]⟩
  | right hf hk hr count =>
    obtain ⟨hcount, hreplies, hnumber⟩ := hf.spec
    exact ⟨by simp [List.countP_cons, hcount]; omega,
      ((noRetry_of_none (by simpa using hreplies)).cons (by simp)).cons (by simp),
      by simp [List.filterMap_cons, hnumber]⟩
  | left hf count =>
    obtain ⟨hcount, hreplies, hnumber⟩ := hf.spec
    exact ⟨by simp [hcount], (noRetry_of_none hreplies).cons (by simp),
      by simp [hnumber]⟩

/-- A file whose upload has returned has its number, and is a success if an attempt was
answered 200. -/
theorem Position.returned {h : List FileEvent} {a : UploadResult} (hp : Position file h (.ret a)) :
    (∃ count, h.filterMap FileEvent.number = [count]) ∧
      ((∃ reply, .answered reply ∈ h ∧ IsOk reply) ↔
        ∃ key count, a = .right key count) := by
  generalize hq : (Program.ret a : UploadM UploadResult) = q at hp
  cases hp with
  | @trying n =>
    have hret := @isReturned_retry file n
    rw [← hq] at hret
    exact absurd hret (by simp)
  | waiting => exact absurd hq (by simp)
  | succeeded => exact absurd hq (by simp)
  | @right k h reply hf hk hr count =>
    obtain rfl := Program.ret.inj hq
    exact ⟨⟨count, by simp [List.filterMap_cons, hf.spec.2.2]⟩,
      iff_of_true ⟨reply, by simp, isOk_iff.mpr hr⟩ ⟨_, _, rfl⟩⟩
  | @left h hf count =>
    obtain rfl := Program.ret.inj hq
    refine ⟨⟨count, by simp [hf.spec.2.2]⟩, iff_of_false ?_ ?_⟩
    · rintro ⟨reply, hmem, hr⟩
      exact hf.spec.2.1 reply (by simpa using hmem) hr
    · rintro ⟨_, _, he⟩
      exact absurd he (by simp)

end OneFile

/-! ### The whole client -/

section Run

variable {files : List UploadingFile} {parallel : UInt32}

/-- The pool, the counter and the log fit together. -/
structure PoolInv (files : List UploadingFile) (pool : UploadPool) (s : Shared) : Prop where
  names : pool.tasks.map Prod.fst = Multiset.range files.length
  position : ∀ x ∈ pool.tasks, ∃ file, files[x.1]? = some file ∧
    Position file (history x.1 s.log) x.2
  count : s.count = (pool.tasks.countP fun x => isReturned x.2) + 1
  given : numbers s.log = (List.range' 1 (s.count - 1)).reverse

theorem start_poolInv (files : List UploadingFile) :
    PoolInv files (Sender.start files).pool (Sender.start files).shared := by
  have htasks : (Sender.start files).pool.tasks =
      ((files.zipIdx.map fun x => (x.2, retryUploadCounted x.1 3) : List _) : Multiset _) := by
    simp [Sender.start, Pool.tasks]
  constructor
  · rw [htasks, Multiset.map_coe, List.map_map]
    exact congrArg _ ((List.zipIdx_map_snd 0 files).trans List.range_eq_range'.symm)
  · intro x hx
    rw [htasks, Multiset.mem_coe, List.mem_map] at hx
    obtain ⟨⟨file, i⟩, hmem, rfl⟩ := hx
    exact ⟨file, List.mem_zipIdx_iff_getElem?.mp hmem, .trying .none rfl⟩
  · rw [htasks, Multiset.coe_countP, List.countP_map, List.countP_eq_zero.mpr]
    · rfl
    · intro x _
      simp [isReturned_retry]
  · rfl

theorem PoolInv.note {pool : UploadPool} {s : Shared} (h : PoolInv files pool s) {e : Event}
    (habout : ∀ i, e.about i = none) (hnumber : e.number = none) :
    PoolInv files pool (s.note e) := by
  have hhistory : ∀ i, history i (s.note e).log = history i s.log := fun i =>
    List.filterMap_cons_none (habout i)
  have hnumbers : numbers (s.note e).log = numbers s.log := List.filterMap_cons_none hnumber
  refine ⟨h.names, fun x hx => ?_, h.count, hnumbers.trans h.given⟩
  rw [hhistory]
  exact h.position x hx

/-- **A step of the pool keeps the invariant.** -/
theorem PoolInv.step {pool pool' : UploadPool} {s s' : Shared} (h : PoolInv files pool s)
    (hstep : Pool.Step UploadWay parallel.toNat (pool, s) (pool', s')) : PoolInv files pool' s' := by
  have hnames : (pool.tasks.map Prod.fst).Nodup := by
    rw [h.names]
    exact Multiset.nodup_range _
  have hposition := hstep.keeps
    (P := fun i p s => ∃ file, files[i]? = some file ∧ Position file (history i s.log) p) hnames
    (fun {i _ _ _ _} hway hp => by
      obtain ⟨file, hfile, hp⟩ := hp
      obtain ⟨e, hlog, hp', _⟩ := hp.step hway
      rw [hlog]
      exact ⟨file, hfile, by rwa [history_cons_self]⟩)
    (fun {i op _ _ j _} hway hji hp => by
      cases hway with
      | request => rwa [Shared.note, history_cons_of_ne (Ne.symm hji)]
      | response => rwa [Shared.note, history_cons_of_ne (Ne.symm hji)]
      | fetchAdd => rwa [history_cons_of_ne (Ne.symm hji)])
    h.position
  obtain ⟨hcount, hgiven⟩ : s'.count = (pool'.tasks.countP fun x => isReturned x.2) + 1 ∧
      numbers s'.log = (List.range' 1 (s'.count - 1)).reverse := by
    rcases hstep.tasks with ⟨htasks, hs, _⟩ | ⟨i, op, next, r, rest, hway, htasks, htasks'⟩
    · obtain rfl : s' = s := hs
      exact ⟨h.count.trans (by rw [show pool'.tasks = pool.tasks from htasks]), h.given⟩
    · change pool.tasks = _ at htasks
      change pool'.tasks = _ at htasks'
      change UploadWay i op s (r, s') at hway
      obtain ⟨file, _, hp⟩ := h.position (i, .call op next) (by rw [htasks]; simp)
      obtain ⟨e, hlog, _, hnext⟩ := hp.step hway
      have hcount := h.count
      rw [htasks, Multiset.countP_cons_of_neg _ (by simp)] at hcount
      rw [htasks', hlog]
      rcases hnext with ⟨rfl, hs, hret⟩ | ⟨he, hs, hret⟩
      · rw [Multiset.countP_cons_of_pos (p := fun x => isReturned x.2) rest hret, hs]
        refine ⟨by rw [hcount], ?_⟩
        show s.count :: numbers s.log = _
        rw [h.given, hcount, Nat.add_sub_cancel, Nat.add_sub_cancel, List.range'_1_concat,
          List.reverse_append, Nat.add_comm]
        rfl
      · rw [Multiset.countP_cons_of_neg _ (by simp [hret]), hs]
        exact ⟨hcount, (List.filterMap_cons_none (show Event.number (.file i e) = none from he)).trans
          h.given⟩
  exact ⟨hstep.names.trans h.names, hposition, hcount, hgiven⟩

def AllUploaded (files : List UploadingFile) (log : List Event) : Prop :=
  ∀ i, i < files.length → Uploaded log i

theorem PoolInv.output_names {pool : UploadPool} {s : Shared} (h : PoolInv files pool s)
    (hall : pool.Finished) : (pool.outputs : Multiset (Nat × UploadResult)).map Prod.fst =
      Multiset.range files.length := by
  rw [← h.names, Pool.finished_iff.mp hall, Multiset.map_map]
  rfl

theorem PoolInv.exists_output {pool : UploadPool} {s : Shared} (h : PoolInv files pool s)
    (hall : pool.Finished) {i : Nat} (hi : i < files.length) : ∃ o ∈ pool.outputs, o.1 = i := by
  rw [← Multiset.mem_range, ← h.output_names hall, Multiset.mem_map] at hi
  exact hi

theorem PoolInv.output_lt {pool : UploadPool} {s : Shared} (h : PoolInv files pool s)
    (hall : pool.Finished) {o : Nat × UploadResult} (ho : o ∈ pool.outputs) :
    o.1 < files.length := by
  rw [← Multiset.mem_range, ← h.output_names hall]
  exact Multiset.mem_map_of_mem _ (Multiset.mem_coe.mpr ho)

theorem PoolInv.output_position {pool : UploadPool} {s : Shared} (h : PoolInv files pool s)
    (hall : pool.Finished) {o : Nat × UploadResult} (ho : o ∈ pool.outputs) :
    ∃ file, Position file (history o.1 s.log) (.ret o.2) := by
  obtain ⟨file, _, hp⟩ := h.position (o.1, .ret o.2) (by
    rw [Pool.finished_iff.mp hall]
    exact Multiset.mem_map_of_mem _ (Multiset.mem_coe.mpr ho))
  exact ⟨file, hp⟩

theorem PoolInv.final_count {pool : UploadPool} {s : Shared} (h : PoolInv files pool s)
    (hall : pool.Finished) : s.count = files.length + 1 := by
  have hlength : pool.outputs.length = files.length := by
    have hcard := congrArg Multiset.card (h.output_names hall)
    simpa using hcard
  rw [h.count, Pool.finished_iff.mp hall, Multiset.countP_map, ← hlength]
  simp

theorem failKeys_eq_nil {outputs : List (Nat × UploadResult)} :
    failKeys outputs = [] ↔ ∀ o ∈ outputs, ∃ key count, o.2 = .right key count := by
  rw [failKeys, List.filterMap_eq_nil_iff]
  refine forall₂_congr fun o _ => ?_
  cases o.2 with
  | left key count => simp
  | right key count => simp

/-- **What is known when all uploads have returned.** -/
theorem PoolInv.finished {pool : UploadPool} {s : Shared} (h : PoolInv files pool s)
    (hall : pool.Finished) :
    (failKeys pool.outputs = [] ↔ AllUploaded files s.log) ∧
      numbers s.log = (List.range' 1 files.length).reverse ∧
      ∀ i, i < files.length → ∃ count, (history i s.log).filterMap FileEvent.number = [count] := by
  refine ⟨?_, ?_, fun i hi => ?_⟩
  · rw [failKeys_eq_nil]
    constructor
    · intro hright i hi
      obtain ⟨o, ho, rfl⟩ := h.exists_output hall hi
      obtain ⟨file, hp⟩ := h.output_position hall ho
      exact uploaded_iff.mpr (hp.returned.2.mpr (hright o ho))
    · intro hup o ho
      obtain ⟨file, hp⟩ := h.output_position hall ho
      exact hp.returned.2.mp (uploaded_iff.mp (hup _ (h.output_lt hall ho)))
  · rw [h.given, h.final_count hall, Nat.add_sub_cancel]
  · obtain ⟨o, ho, rfl⟩ := h.exists_output hall hi
    obtain ⟨file, hp⟩ := h.output_position hall ho
    exact hp.returned.1

theorem poolStep_log {pool pool' : UploadPool} {s s' : Shared}
    (h : Pool.Step UploadWay parallel.toNat (pool, s) (pool', s')) :
    s'.log = s.log ∨ ∃ i e, s'.log = .file i e :: s.log := by
  rcases h.tasks with ⟨_, hs, _⟩ | ⟨i, op, next, r, rest, hway, _⟩
  · exact Or.inl (congrArg Shared.log hs)
  · change UploadWay i op s (r, s') at hway
    cases hway with
    | request => exact Or.inr ⟨_, _, rfl⟩
    | response => exact Or.inr ⟨_, _, rfl⟩
    | fetchAdd => exact Or.inr ⟨_, _, rfl⟩

/-- Where the client is, and what it has sent. -/
inductive Stage (files : List UploadingFile) : Sender → Prop
  | starting {pool : UploadPool} {s : Shared} (hs : ¬ Started s.log) (hno : .finishSent ∉ s.log) :
      Stage files ⟨.starting, pool, s⟩
  | stopped {pool : UploadPool} {s : Shared} {res : Except UploadError Unit}
      (hs : ¬ Started s.log) (hno : .finishSent ∉ s.log) : Stage files ⟨.returned res, pool, s⟩
  | uploading {pool : UploadPool} {s : Shared} (hno : .finishSent ∉ s.log) :
      Stage files ⟨.uploading, pool, s⟩
  | failed {pool : UploadPool} {s : Shared} (hall : pool.Finished) (hno : .finishSent ∉ s.log)
      (hup : ¬ AllUploaded files s.log) : Stage files ⟨.returned (.error .uploadFail), pool, s⟩
  | finishing {pool : UploadPool} {s : Shared} {phase : Phase}
      (hphase : phase = .finishing ∨ ∃ res, phase = .returned res) (hall : pool.Finished)
      (hsent : .finishSent ∈ s.log) (hup : AllUploaded files s.log) : Stage files ⟨phase, pool, s⟩

/-- Every file had been uploaded when the Finish request was sent. -/
def FinishLast (files : List UploadingFile) (log : List Event) : Prop :=
  ∀ since before, log = since ++ .finishSent :: before → AllUploaded files before

theorem FinishLast.cons {log : List Event} (h : FinishLast files log) {e : Event}
    (he : e = .finishSent → AllUploaded files log) : FinishLast files (e :: log) := by
  intro since before heq
  cases since with
  | nil =>
    obtain ⟨rfl, rfl⟩ := List.cons.inj heq
    exact he rfl
  | cons e' since =>
    obtain ⟨rfl, rfl⟩ := List.cons.inj heq
    exact h since before rfl

/-- What holds in every state of a run. -/
structure Inv (files : List UploadingFile) (s : Sender) : Prop where
  pool : PoolInv files s.pool s.shared
  stage : Stage files s
  last : FinishLast files s.shared.log

theorem start_inv (files : List UploadingFile) : Inv files (Sender.start files) := by
  refine ⟨start_poolInv files, .starting ?_ (by simp), ?_⟩
  · rintro ⟨reply, hmem, _⟩
    exact absurd hmem (by simp)
  · intro since before h
    exact absurd h (by simp [Sender.start])

/-- **Every step of the client keeps the invariant.** -/
theorem Inv.step (hparallel : parallel ≠ 0) {s s' : Sender} (h : Inv files s)
    (hstep : Sender.Step parallel s s') : Inv files s' := by
  obtain ⟨hpool, hstage, hlast⟩ := h
  cases hstep with
  | @start pool s reply =>
    refine ⟨hpool.note (fun _ => rfl) rfl, ?_, hlast.cons (by simp)⟩
    cases hstage with
    | finishing hphase => exact absurd hphase (by simp)
    | starting hs hno =>
      have hno' : .finishSent ∉ (s.note (.started reply)).log := by
        simpa [Shared.note] using hno
      cases hr : handleResp reply with
      | true =>
        simp only [if_true, if_neg hparallel]
        exact .uploading hno'
      | false =>
        simp only [Bool.false_eq_true, if_false]
        refine .stopped ?_ hno'
        rintro ⟨reply', hmem, hr'⟩
        rcases List.mem_cons.mp hmem with he | hmem
        · rw [Event.started.inj he, isOk_iff, hr] at hr'
          exact absurd hr' (by simp)
        · exact hs ⟨reply', hmem, hr'⟩
  | @upload pool pool' s s' hstep =>
    have hno : .finishSent ∉ s.log := by
      cases hstage with
      | uploading hno => exact hno
      | finishing hphase => exact absurd hphase (by simp)
    refine ⟨hpool.step hstep, .uploading ?_, ?_⟩
    · rcases poolStep_log hstep with hlog | ⟨i, e, hlog⟩
      · rwa [hlog]
      · rw [hlog]
        simpa using hno
    · rcases poolStep_log hstep with hlog | ⟨i, e, hlog⟩
      · show FinishLast files s'.log
        rwa [hlog]
      · show FinishLast files s'.log
        rw [hlog]
        exact hlast.cons (by simp)
  | @fail pool s hall hkeys =>
    cases hstage with
    | finishing hphase => exact absurd hphase (by simp)
    | uploading hno =>
      exact ⟨hpool, .failed hall hno fun hup => hkeys ((hpool.finished hall).1.mpr hup), hlast⟩
  | @publish pool s hall hkeys =>
    have hup : AllUploaded files s.log := (hpool.finished hall).1.mp hkeys
    have hup' : AllUploaded files (s.note .finishSent).log := fun i hi =>
      (hup i hi).mono (List.subset_cons_self _ _)
    exact ⟨hpool.note (fun _ => rfl) rfl, .finishing (Or.inl rfl) hall List.mem_cons_self hup',
      hlast.cons fun _ => hup⟩
  | @finish pool s reply =>
    cases hstage with
    | finishing _ hall hsent hup =>
      exact ⟨hpool.note (fun _ => rfl) rfl,
        .finishing (Or.inr ⟨_, rfl⟩) hall (List.mem_cons_of_mem _ hsent)
          (fun i hi => (hup i hi).mono (List.subset_cons_self _ _)), hlast.cons (by simp)⟩

theorem Sender.Run.inv (hparallel : parallel ≠ 0) {s : Sender}
    (h : Sender.Run parallel (Sender.start files) s) : Inv files s := by
  induction h with
  | refl => exact start_inv files
  | tail _ hstep ih => exact ih.step hparallel hstep

/-! ### Going on, and ending -/

def Phase.rest : Phase → Nat
  | .starting => 3
  | .uploading => 2
  | .finishing => 1
  | .returned _ => 0

/-- **Every run ends**, since the runs of the pool do. -/
theorem Sender.step_wellFounded : WellFounded fun s' s => Sender.Step parallel s s' := by
  refine Subrelation.wf (r := InvImage (Prod.Lex (· < ·) fun c' c : UploadPool × Shared =>
      Pool.Step UploadWay parallel.toNat c c') fun s : Sender => (s.phase.rest, s.pool, s.shared)) ?_
    (InvImage.wf _ (Nat.lt_wfRel.wf.prod_lex Pool.step_wellFounded))
  intro s' s h
  cases h with
  | start reply =>
    refine Prod.Lex.left _ _ ?_
    dsimp only
    split_ifs <;> simp [Phase.rest]
  | upload hstep => exact Prod.Lex.right _ hstep
  | fail => exact Prod.Lex.left _ _ (by simp [Phase.rest])
  | publish => exact Prod.Lex.left _ _ (by simp [Phase.rest])
  | finish reply => exact Prod.Lex.left _ _ (by simp [Phase.rest])

theorem exists_way (i : Nat) (op : UploadOp) (s : Shared) : ∃ res, UploadWay i op s res := by
  cases op with
  | request => exact ⟨_, .request⟩
  | response => exact ⟨_, .response none⟩
  | fetchAdd => exact ⟨_, .fetchAdd⟩

theorem Sender.exists_step (hparallel : parallel ≠ 0) {s : Sender} (h : ∀ res, s.phase ≠ .returned res) :
    ∃ s', Sender.Step parallel s s' := by
  obtain ⟨phase, pool, s⟩ := s
  cases phase with
  | starting => exact ⟨_, .start none⟩
  | finishing => exact ⟨_, .finish none⟩
  | returned res => exact absurd rfl (h res)
  | uploading =>
    by_cases hall : pool.Finished
    · by_cases hkeys : failKeys pool.outputs = []
      · exact ⟨_, .publish hall hkeys⟩
      · exact ⟨_, .fail hall hkeys⟩
    · have hlimit : 0 < parallel.toNat := by
        have hne : parallel.toNat ≠ 0 := fun h0 => hparallel (UInt32.toNat_inj.mp (by simpa using h0))
        omega
      obtain ⟨⟨pool', s'⟩, hstep⟩ := Pool.exists_step hlimit exists_way hall
      exact ⟨_, .upload hstep⟩

/-- What is right in a state of a run.  In the end the Finish request has been sent if every
file was uploaded and not otherwise, and the files have the numbers from 1 on, one each. -/
structure Publishes (files : List UploadingFile) (parallel : UInt32) (s : Sender) : Prop where
  tries : ∀ i, i < files.length →
    (history i s.shared.log).countP FileEvent.isRequested ≤ 3 ∧ NoRetry (history i s.shared.log)
  last : FinishLast files s.shared.log
  counted : numbers s.shared.log = (List.range' 1 (s.shared.count - 1)).reverse
  oneNumber : ∀ i, i < files.length →
    ((history i s.shared.log).filterMap FileEvent.number).length ≤ 1
  goesOn : (∀ res, s.phase ≠ .returned res) → ∃ s', Sender.Step parallel s s'
  ends : ∀ res, s.phase = .returned res → Started s.shared.log →
    (.finishSent ∈ s.shared.log ↔ AllUploaded files s.shared.log) ∧
    numbers s.shared.log = (List.range' 1 files.length).reverse ∧
    ∀ i, i < files.length →
      ∃ count, (history i s.shared.log).filterMap FileEvent.number = [count]

theorem PoolInv.wellTried {pool : UploadPool} {s : Shared} (h : PoolInv files pool s) {i : Nat}
    (hi : i < files.length) : (history i s.log).countP FileEvent.isRequested ≤ 3 ∧
      NoRetry (history i s.log) ∧ ((history i s.log).filterMap FileEvent.number).length ≤ 1 := by
  rw [← Multiset.mem_range, ← h.names, Multiset.mem_map] at hi
  obtain ⟨x, hx, rfl⟩ := hi
  obtain ⟨file, _, hp⟩ := h.position x hx
  exact hp.wellTried

/-- **The Finish request follows the last success**, for every list of files, every number of
uploads at a time, all replies and every order in which they come; and every run ends. -/
theorem publishes (hparallel : parallel ≠ 0) (files : List UploadingFile) :
    (WellFounded fun s' s => Sender.Step parallel s s') ∧
      ∀ s, Sender.Run parallel (Sender.start files) s → Publishes files parallel s := by
  refine ⟨Sender.step_wellFounded, fun s hrun => ?_⟩
  obtain ⟨hpool, hstage, hlast⟩ := hrun.inv hparallel
  refine ⟨fun i hi => ?_, hlast, hpool.given, fun i hi => (hpool.wellTried hi).2.2,
    Sender.exists_step hparallel, ?_⟩
  · obtain ⟨hcount, hretry, _⟩ := hpool.wellTried hi
    exact ⟨hcount, hretry⟩
  · intro res hres hstarted
    cases hstage with
    | starting => exact absurd hres (by simp)
    | stopped hs => exact absurd hstarted hs
    | uploading => exact absurd hres (by simp)
    | failed hall hno hup => exact ⟨iff_of_false hno hup, (hpool.finished hall).2⟩
    | finishing _ hall hsent hup => exact ⟨iff_of_true hsent hup, (hpool.finished hall).2⟩

end Run

/-! ### A run to the end -/

/-- Two files are uploaded at a time.  The first attempt for the first gets no response, and the
second file is there before the next one. -/
def pairUploaded : Sender :=
  ⟨.returned (.ok ()),
    ⟨[], [], [(1, .right "/b.html".toList 1), (0, .right "/a.html".toList 2)]⟩,
    ⟨3, [.finished (some .ok), .finishSent, .file 0 (.numbered 2), .file 0 (.answered (some .ok)),
      .file 0 .requested, .file 1 (.numbered 1), .file 1 (.answered (some .ok)),
      .file 0 (.answered none), .file 1 .requested, .file 0 .requested, .started (some .ok)]⟩⟩

theorem publishes_pairUploaded :
    Publishes [⟨"/a.html".toList, "/site/a.html".toList⟩, ⟨"/b.html".toList, "/site/b.html".toList⟩]
      2 pairUploaded := by
  refine (publishes (by decide) _).2 _ ?_
  exact .head (.start (some .ok)) <|
    .head (.upload (.take (by decide))) <| .head (.upload (.take (by decide))) <|
    .head (.upload (.advance [] .request)) <| .head (.upload (.advance [_] .request)) <|
    .head (.upload (.advance [] (.response none))) <|
    .head (.upload (.advance [_] (.response (some .ok)))) <|
    .head (.upload (.advance [_] .fetchAdd)) <|
    .head (.upload (.advance [] .request)) <|
    .head (.upload (.give [_])) <|
    .head (.upload (.advance [] (.response (some .ok)))) <|
    .head (.upload (.advance [] .fetchAdd)) <| .head (.upload (.give [])) <|
    .head (.publish ⟨rfl, rfl⟩ rfl) <| .single (.finish (some .ok))

end Client

end SpaServer
