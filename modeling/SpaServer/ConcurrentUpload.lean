import SpaServer.Serve

/-!
# Uploads and releases at the same time

Any number of `update_uploading_status` and `upload_domain_with_version` handlers on
one storage, one step of one of them at a time.  Both check a map first and write the
other one later.  In between a handler is `Releasing`, `Free` or `Clear`: it can get to
its write without another check.

`Checked` says which checks lie in front of the writes of a program.  `valid_step` and
`valid_other` keep, for each handler, what its last check has found, as long as no other
handler writes against it (`Undisturbed`).  `uploads_exclude_releases` is what a run of
such steps comes to.
-/

namespace SpaServer

open Base Program

variable {crates : Crates}

/-! ### Between the check and the write -/

section Between

variable {α : Type}

/-- The program may write that `d` serves `v`, and will not look at the upload of `d`
again before it does. -/
def Releasing (d : Str) (v : UInt32) (p : Method α) : Prop :=
  p.Reaches (· = .uploadingGet d) fun op => ∃ path, op = .metaInsert d path v

/-- The program may record `v` as the upload of `d`, and will not look at the upload of
`d` again before it does. -/
def Free (d : Str) (v : UInt32) (p : Method α) : Prop :=
  p.Reaches (· = .uploadingGet d) (· = .uploadingInsert d v)

/-- The program may record `v` as the upload of `d`, and will not look at the serving
version of `d` again before it does. -/
def Clear (d : Str) (v : UInt32) (p : Method α) : Prop :=
  p.Reaches (· = .metaGet d) (· = .uploadingInsert d v)

def Op.isAct : Op → Bool
  | .metaInsert .. | .uploadingInsert .. => true
  | _ => false

theorem lookup_isAct {op : Op} (h : op.isLookup = true) : op.isAct = false := by
  cases op <;> first | rfl | exact absurd h (by simp [Op.isLookup])

/-- The checks of a program stand in front of its acts, and it acts once. -/
def Checked : Method α → Prop
  | .ret _ => True
  | .call (.uploadingGet d) next => ∀ r, Checked (next r) ∧
      (∀ v, Releasing d v (next r) → r ≠ some v) ∧ ∀ v, Free d v (next r) → r = none
  | .call (.metaGet d) next => ∀ r, Checked (next r) ∧
      ∀ v, Clear d v (next r) → r.map (·.2) ≠ some v
  | .call (.metaInsert ..) next => (next ()).Uses fun op => op.isAct = false
  | .call (.uploadingInsert ..) next => (next ()).Uses fun op => op.isAct = false
  | .call _ next => ∀ r, Checked (next r)

theorem not_releasing {d : Str} {v : UInt32} {p : Method α}
    (h : p.Uses fun op => op.isAct = false) : ¬ Releasing d v p :=
  Uses.not_reaches <| h.mono fun op hop => by
    rintro ⟨path, rfl⟩
    exact absurd hop (by simp [Op.isAct])

theorem not_reaches_insert {d : Str} {v : UInt32} {check : Op → Prop} {p : Method α}
    (h : p.Uses fun op => op.isAct = false) : ¬ p.Reaches check (· = .uploadingInsert d v) :=
  Uses.not_reaches <| h.mono fun op hop => by
    rintro rfl
    exact absurd hop (by simp [Op.isAct])

theorem checked_of_uses {p : Method α} (h : p.Uses fun op => op.isAct = false) : Checked p := by
  induction p with
  | ret a => trivial
  | call op next ih =>
    cases op with
    | uploadingGet d =>
      exact fun r => ⟨ih r (h.2 r), fun v hv => absurd hv (not_releasing (h.2 r)),
        fun v hv => absurd hv (not_reaches_insert (h.2 r))⟩
    | metaGet d => exact fun r => ⟨ih r (h.2 r), fun v hv => absurd hv (not_reaches_insert (h.2 r))⟩
    | metaInsert d p v => exact absurd h.1 (by simp [Op.isAct])
    | uploadingInsert d v => exact absurd h.1 (by simp [Op.isAct])
    | _ => exact fun r => ih r (h.2 r)

end Between

/-! ### What the last check of a handler has found -/

section Valid

variable {α : Type} {w : World} {p q : Method α} {op : Op} {next : op.Reply → Method α}

/-- Where the program is between a check and a write, what the check has found is still
so.  A domain found free may meanwhile be recorded with the very version. -/
structure Valid (w : World) (p : Method α) : Prop where
  checked : Checked p
  releasing : ∀ d v, Releasing d v p → w.storage.uploadingStatus d ≠ some v
  free : ∀ d v, Free d v p →
    w.storage.uploadingStatus d = none ∨ w.storage.uploadingStatus d = some v
  clear : ∀ d v, Clear d v p → w.serving d ≠ some v

def Harmless (op : Op) (q : Method α) : Prop :=
  match op with
  | .uploadingInsert d v => ¬ Releasing d v q ∧ ∀ u, u ≠ v → ¬ Free d u q
  | .metaInsert d _ v => ¬ Clear d v q
  | _ => True

theorem meaning_maps (op : Op) (w : World) :
    ((∃ d p v, op = .metaInsert d p v) ∨
      ∀ e, (meaning crates op w).2.serving e = w.serving e) ∧
    ((∃ d v, op = .uploadingInsert d v) ∨ ∀ e,
      (meaning crates op w).2.storage.uploadingStatus e = w.storage.uploadingStatus e ∨
        (meaning crates op w).2.storage.uploadingStatus e = none) := by
  cases op with
  | metaInsert d p v => exact ⟨Or.inl ⟨d, p, v, rfl⟩, Or.inr fun e => Or.inl rfl⟩
  | uploadingInsert d v => exact ⟨Or.inr fun e => rfl, Or.inl ⟨d, v, rfl⟩⟩
  | uploadingRemoveIf d v =>
    refine ⟨Or.inr fun e => rfl, Or.inr fun e => ?_⟩
    show w.storage.uploadingStatus.removeIf d (· == v) e = _ ∨
      w.storage.uploadingStatus.removeIf d (· == v) e = _
    rw [DashMap.removeIf]
    split
    · by_cases he : e = d
      · rw [he]
        exact Or.inr (Function.update_self ..)
      · exact Or.inl (Function.update_of_ne he ..)
    · exact Or.inl rfl
  | _ => exact ⟨Or.inr fun e => rfl, Or.inr fun e => Or.inl rfl⟩

theorem serving_metaInsert (w : World) (d : Str) (path : PathBuf) (v : UInt32) (e : Str) :
    (meaning crates (.metaInsert d path v) w).2.serving e =
      if e = d then some v else w.serving e := by
  show ((w.storage.domainMeta.insert d (path, v)) e).map (·.2) = _
  split
  · next h => rw [h, DashMap.insert_self]; rfl
  · next h => rw [DashMap.insert_of_ne _ h]; rfl

theorem uploading_insert (w : World) (d : Str) (v : UInt32) (e : Str) :
    (meaning crates (.uploadingInsert d v) w).2.storage.uploadingStatus e =
      if e = d then some v else w.storage.uploadingStatus e := by
  show (w.storage.uploadingStatus.insert d v) e = _
  split
  · next h => rw [h, DashMap.insert_self]
  · next h => rw [DashMap.insert_of_ne _ h]

/-- **The other handlers keep what they have found**, when the step is harmless. -/
theorem valid_other (hq : Valid w q) (h : Harmless op q) : Valid (meaning crates op w).2 q := by
  obtain ⟨hserving, huploading⟩ := @meaning_maps crates op w
  constructor
  · exact hq.checked
  · intro d v hr
    rcases huploading with ⟨e, u, rfl⟩ | hu
    · rw [uploading_insert]
      split
      · next he =>
        subst he
        intro hv
        obtain rfl := Option.some.inj hv
        exact h.1 hr
      · exact hq.releasing d v hr
    · rcases hu d with hu | hu
      · rw [hu]
        exact hq.releasing d v hr
      · rw [hu]
        exact (Option.some_ne_none v).symm
  · intro d v hf
    rcases huploading with ⟨e, u, rfl⟩ | hu
    · rw [uploading_insert]
      split
      · next he =>
        subst he
        by_cases huv : v = u
        · exact Or.inr (by rw [huv])
        · exact absurd hf (h.2 v huv)
      · exact hq.free d v hf
    · rcases hu d with hu | hu
      · rw [hu]
        exact hq.free d v hf
      · exact Or.inl hu
  · intro d v hc
    rcases hserving with ⟨e, path, u, rfl⟩ | hs
    · rw [serving_metaInsert]
      split
      · next he =>
        subst he
        intro hv
        obtain rfl := Option.some.inj hv
        exact h hc
      · exact hq.clear d v hc
    · rw [hs]
      exact hq.clear d v hc

theorem valid_of_uses (h : p.Uses fun op => op.isAct = false) : Valid w p where
  checked := checked_of_uses h
  releasing _ _ hr := absurd hr (not_releasing h)
  free _ _ hf := absurd hf (not_reaches_insert h)
  clear _ _ hc := absurd hc (not_reaches_insert h)

/-- **The handler itself goes on with what it has found**, or finds it anew. -/
theorem valid_step (h : Valid w (.call op next)) :
    Valid (meaning crates op w).2 (next (meaning crates op w).1) := by
  have hsame : Harmless op (.call op next) → Valid (meaning crates op w).2 (.call op next) :=
    valid_other h
  cases op with
  | metaInsert d path v => exact valid_of_uses h.checked
  | uploadingInsert d v => exact valid_of_uses h.checked
  | uploadingGet e =>
    have hnext := h.checked (w.storage.uploadingStatus e)
    refine ⟨hnext.1, fun d v hr => ?_, fun d v hf => ?_, fun d v hc => ?_⟩
    · by_cases hd : d = e
      · subst hd
        exact hnext.2.1 v hr
      · exact h.releasing d v (hr.of_next fun he => hd (Op.uploadingGet.inj he).symm)
    · by_cases hd : d = e
      · subst hd
        exact Or.inl (hnext.2.2 v hf)
      · exact h.free d v (hf.of_next fun he => hd (Op.uploadingGet.inj he).symm)
    · exact h.clear d v (hc.of_next fun he => Op.noConfusion he)
  | metaGet e =>
    have hnext := h.checked (w.storage.domainMeta e)
    refine ⟨hnext.1, fun d v hr => ?_, fun d v hf => ?_, fun d v hc => ?_⟩
    · exact h.releasing d v (hr.of_next fun he => Op.noConfusion he)
    · exact h.free d v (hf.of_next fun he => Op.noConfusion he)
    · by_cases hd : d = e
      · subst hd
        exact hnext.2 v hc
      · exact h.clear d v (hc.of_next fun he => hd (Op.metaGet.inj he).symm)
  | _ =>
    -- a step that neither checks nor acts
    have hv := hsame trivial
    exact ⟨h.checked _,
      fun d v hr => hv.releasing d v (hr.of_next fun he => Op.noConfusion he),
      fun d v hf => hv.free d v (hf.of_next fun he => Op.noConfusion he),
      fun d v hc => hv.clear d v (hc.of_next fun he => Op.noConfusion he)⟩

end Valid

/-! ### The two handlers -/

theorem checked_bind {α β : Type} {p : Method α} {f : α → Method β} (hp : Checked p)
    (hf : ∀ a, (f a).Uses fun op => op.isAct = false) : Checked (p >>= f) := by
  induction p with
  | ret a => exact checked_of_uses (hf a)
  | call op next ih =>
    have hreleasing : ∀ r d v, Releasing d v (next r >>= f) → Releasing d v (next r) :=
      fun r d v h => (reaches_bind h).resolve_right fun ⟨a, ha⟩ => not_releasing (hf a) ha
    have hinsert : ∀ check r d v, (next r >>= f).Reaches check (· = .uploadingInsert d v) →
        (next r).Reaches check (· = .uploadingInsert d v) :=
      fun check r d v h => (reaches_bind h).resolve_right fun ⟨a, ha⟩ =>
        not_reaches_insert (hf a) ha
    cases op with
    | uploadingGet d =>
      intro r
      obtain ⟨h1, h2, h3⟩ := hp r
      exact ⟨ih r h1, fun v hv => h2 v (hreleasing r d v hv), fun v hv => h3 v (hinsert _ r d v hv)⟩
    | metaGet d =>
      intro r
      obtain ⟨h1, h2⟩ := hp r
      exact ⟨ih r h1, fun v hv => h2 v (hinsert _ r d v hv)⟩
    | metaInsert d path v => exact Uses.bind hp hf
    | uploadingInsert d v => exact Uses.bind hp hf
    | _ => exact fun r => ih r (hp r)

theorem cached_acts (d : Str) (v : UInt32) (r : Except StorageError FileMap) :
    (match r with
      | .error e => return .error e
      | .ok data => do Method.cacheUpdate d data; return .ok v :
        Method (Except StorageError UInt32)).Uses fun op => op.isAct = false := by
  cases r with
  | error e => trivial
  | ok data => exact ⟨rfl, fun _ => trivial⟩

theorem releaseVersion_acts (pathPrefix : PathBuf) (d : Str) (v : UInt32) :
    (releaseVersion pathPrefix d v).Uses fun op =>
      op.isAct = true → ∃ path u, op = .metaInsert d path u := by
  simp only [releaseVersion, perform_bind]
  refine ⟨(absurd · Bool.false_ne_true), fun uploading => ?_⟩
  beta_reduce
  split
  · trivial
  refine ⟨(absurd · Bool.false_ne_true), fun b => ?_⟩
  cases b with
  | false => trivial
  | true =>
    refine ⟨fun _ => ⟨_, _, rfl⟩, fun _ => ⟨(absurd · Bool.false_ne_true), fun r => ?_⟩⟩
    exact (cached_acts d v r).mono fun op hop hact => absurd hact (by simp [hop])

theorem not_reaches_of_release {α : Type} {d e : Str} {u : UInt32} {check : Op → Prop}
    {p : Method α} (h : p.Uses fun op => op.isAct = true → ∃ path u, op = .metaInsert d path u) :
    ¬ p.Reaches check (· = .uploadingInsert e u) :=
  Uses.not_reaches <| h.mono fun op hop => by
    rintro rfl
    obtain ⟨_, _, he⟩ := hop rfl
    exact Op.noConfusion he

theorem checked_releaseVersion (pathPrefix : PathBuf) (d : Str) (v : UInt32) :
    Checked (releaseVersion pathPrefix d v) := by
  have hnever := releaseVersion_acts pathPrefix d v
  simp only [releaseVersion, perform_bind] at hnever ⊢
  intro uploading
  refine ⟨?_, fun u h => ?_, fun u h => absurd h (not_reaches_of_release (hnever.2 uploading))⟩
  · beta_reduce
    split
    · trivial
    intro b
    cases b with
    | true => exact ⟨rfl, cached_acts d v⟩
    | false => trivial
  · -- the one write ahead is that of `v`
    beta_reduce at h
    by_cases hu : uploading = some v
    · rw [if_pos hu] at h
      exact h.elim
    rw [if_neg hu] at h
    rcases h with ⟨path, h⟩ | ⟨_, b, h⟩
    · exact Op.noConfusion h
    cases b with
    | false => exact h.elim
    | true =>
      rcases h with ⟨path, h⟩ | ⟨_, _, h⟩
      · rw [← (Op.metaInsert.inj h).2.2]
        exact hu
      · exact absurd h (not_releasing ⟨rfl, cached_acts d v⟩)

theorem uploadDomainWithVersion_acts (pathPrefix : PathBuf) (d : Str) (version : Option UInt32) :
    (uploadDomainWithVersion pathPrefix d version).Uses fun op =>
      op.isAct = true → ∃ path u, op = .metaInsert d path u := by
  cases version with
  | some v => exact releaseVersion_acts pathPrefix d v
  | none =>
    refine ((uses_getDomainInfoByDomain pathPrefix d).mono fun op hop hact =>
      absurd hact (by simp [lookup_isAct hop])).bind fun info => ?_
    · split
      · exact releaseVersion_acts pathPrefix d _
      · trivial

theorem checked_uploadDomainWithVersion (pathPrefix : PathBuf) (d : Str)
    (version : Option UInt32) : Checked (uploadDomainWithVersion pathPrefix d version) := by
  cases version with
  | some v => exact checked_releaseVersion pathPrefix d v
  | none =>
    simp only [uploadDomainWithVersion, getDomainInfoByDomain, perform_bind, call_bind]
    intro entries
    beta_reduce
    cases parseVersions entries with
    | nil => trivial
    | cons v vs =>
      dsimp only [perform_bind, call_bind, pure_eq, ret_bind, Option.map_some, Option.getD_some]
      refine fun current => ⟨?_, fun u h => ?_⟩
      · split
        · exact checked_releaseVersion pathPrefix d _
        · trivial
      · split at h
        · exact absurd h (not_reaches_of_release (releaseVersion_acts pathPrefix d _))
        · exact h.elim

theorem finishUploading_acts (pathPrefix : PathBuf) (d : Str) (v : UInt32) :
    (finishUploading pathPrefix d v).Uses fun op => op.isAct = false := by
  refine ⟨rfl, fun r => ?_⟩
  cases r with
  | error e => trivial
  | ok _ => exact ⟨rfl, fun _ => trivial⟩

theorem recorded_acts (pathPrefix : PathBuf) (d : Str) (u v : UInt32) (st : UploadingStatus) :
    (if u ≠ v then (return .error (.otherUploading d u) : Method (Except StorageError Unit))
      else if st = .finish then finishUploading pathPrefix d v
      else return .ok ()).Uses fun op => op.isAct = false := by
  split
  · trivial
  split
  · exact finishUploading_acts pathPrefix d v
  · trivial

theorem checked_updateUploadingStatus (pathPrefix : PathBuf) (d : Str) (v : UInt32)
    (st : UploadingStatus) : Checked (updateUploadingStatus pathPrefix d v st) := by
  have hfinish := finishUploading_acts pathPrefix d v
  simp only [updateUploadingStatus, perform_bind]
  rintro (_ | u)
  · refine ⟨?_, fun u _ => (Option.some_ne_none u).symm, fun _ _ => rfl⟩
    beta_reduce
    dsimp only
    split
    case isFalse => exact checked_of_uses hfinish
    intro serving
    refine ⟨?_, fun u h => ?_⟩
    · beta_reduce
      split
      · trivial
      rintro (e | _)
      · trivial
      rintro (e | _)
      · trivial
      · trivial
    · -- the one write ahead is that of `v`
      beta_reduce at h
      by_cases hs : serving.map (·.2) = some v
      · rw [if_pos hs] at h
        exact h.elim
      rw [if_neg hs] at h
      obtain h | ⟨_, e | _, h⟩ := h
      · exact Op.noConfusion h
      · exact h.elim
      obtain h | ⟨_, e | _, h⟩ := h
      · exact Op.noConfusion h
      · exact h.elim
      obtain h | ⟨_, _, h⟩ := h
      · rw [← (Op.uploadingInsert.inj h).2]
        exact hs
      · exact h.elim
  · have huses := recorded_acts pathPrefix d u v st
    exact ⟨checked_of_uses huses, fun _ h => absurd h (not_releasing huses),
      fun _ h => absurd h (not_reaches_insert huses)⟩

/-! ### When an upload is accepted -/

def AnswersWhen (d : Str) (v : UInt32) : Method Response → Prop
  | .ret _ => True
  | .call (.uploadingGet e) next => ∀ r, AnswersWhen d v (next r) ∧
      (next r = .ret .ok → e = d ∧ r = some v)
  | .call (.uploadingInsert e u) next => AnswersWhen d v (next ()) ∧
      (next () = .ret .ok → e = d ∧ u = v)
  | .call _ next => ∀ r, AnswersWhen d v (next r) ∧ next r ≠ .ret .ok

theorem answersWhen_changeUploadStatus (pathPrefix : PathBuf) (d : Str) (v : UInt32) :
    AnswersWhen d v (Service.changeUploadStatus pathPrefix ⟨d, v, .uploading⟩) := by
  have hbad : ∀ e, (Program.ret (.badRequest (.error e)) : Method Response) ≠ .ret .ok := by
    intro e h
    exact absurd (Program.ret.inj h) (by simp [Response.badRequest, Response.ok])
  have hcall : ∀ (op : Op) (next : op.Reply → Method Response),
      Program.call op next ≠ .ret Response.ok :=
    fun op next h => by cases h
  simp only [Service.changeUploadStatus, updateUploadingStatus, perform_bind, call_bind]
  rintro (_ | u)
  · refine ⟨fun serving => ?_, fun h => absurd h (hcall _ _)⟩
    beta_reduce
    split
    · exact ⟨trivial, hbad _⟩
    refine ⟨?_, hcall _ _⟩
    rintro (e | _)
    · exact ⟨trivial, hbad _⟩
    refine ⟨?_, hcall _ _⟩
    rintro (e | _)
    · exact ⟨trivial, hbad _⟩
    · exact ⟨⟨trivial, fun _ => ⟨rfl, rfl⟩⟩, hcall _ _⟩
  · beta_reduce
    dsimp only
    by_cases hu : u = v
    · rw [if_neg (by simpa using hu), if_neg (by simp)]
      exact ⟨trivial, fun _ => ⟨rfl, by rw [hu]⟩⟩
    · rw [if_pos hu]
      exact ⟨trivial, fun h => absurd h (hbad _)⟩

section Answered

variable {w : World} {d : Str} {v : UInt32} {op : Op} {next : op.Reply → Method Response}

theorem AnswersWhen.step (h : AnswersWhen d v (.call op next)) (r : op.Reply) :
    AnswersWhen d v (next r) := by
  cases op with
  | uploadingInsert e u => exact h.1
  | _ => exact (h r).1

/-- At the step that answers Ok the upload is recorded: it has been before, or the step
is the one that records it. -/
theorem AnswersWhen.answered (h : AnswersWhen d v (.call op next))
    (hok : next (meaning crates op w).1 = .ret .ok) :
    (meaning crates op w).2.storage.uploadingStatus d = some v ∧
      (w.storage.uploadingStatus d = some v ∨ op = .uploadingInsert d v) := by
  cases op with
  | uploadingGet e =>
    obtain ⟨rfl, hr⟩ := (h _).2 hok
    exact ⟨hr, Or.inl hr⟩
  | uploadingInsert e u =>
    obtain ⟨rfl, rfl⟩ := h.2 hok
    refine ⟨?_, Or.inr rfl⟩
    rw [uploading_insert, if_pos rfl]
  | _ => exact absurd hok (h _).2

end Answered

/-! ### Handlers together -/

inductive StorageCall where
  | status (param : UpdateUploadingStatusOption)
  | release (option : DomainWithOptVersionOption)

def StorageCall.handler (pathPrefix : PathBuf) : StorageCall → Method Response
  | .status param => Service.changeUploadStatus pathPrefix param
  | .release option => Service.updateDomainVersion pathPrefix option

def StorageCall.handlers (pathPrefix : PathBuf) (calls : List StorageCall) :
    List (Method Response) := calls.map (·.handler pathPrefix)

/-- No domain serves the version it records as uploading. -/
def Exclusive (w : World) : Prop :=
  ∀ d v, w.serving d = some v → w.storage.uploadingStatus d ≠ some v

/-- What the `i`-th handler is about to do goes against no check that another handler has
made and not yet acted on. -/
def Undisturbed (i : Nat) (c : List (Method Response) × World) : Prop :=
  ∀ op next, c.1[i]? = some (.call op next) →
    ∀ (j : Nat) q, j ≠ i → c.1[j]? = some q → Harmless op q

def Finishes (d : Str) (u : UInt32) (k : Nat) (c : List (Method Response) × World) : Prop :=
  ∃ next, c.1[k]? = some (.call (.uploadingRemoveIf d u) next)

/-- What holds of the pool at any time. -/
structure UploadPool (calls : List StorageCall) (c : List (Method Response) × World) : Prop where
  valid : ∀ (i : Nat) q, c.1[i]? = some q → Valid c.2 q
  answers : ∀ (i : Nat) d v q, calls[i]? = some (.status ⟨d, v, .uploading⟩) →
    c.1[i]? = some q → AnswersWhen d v q
  exclusive : Exclusive c.2

structure Fresh {α : Type} (p : Method α) : Prop where
  releasing : ∀ d v, ¬ Releasing d v p
  free : ∀ d v, ¬ Free d v p
  clear : ∀ d v, ¬ Clear d v p

theorem fresh_releaseVersion (pathPrefix : PathBuf) (d : Str) (v : UInt32) :
    Fresh (releaseVersion pathPrefix d v) := by
  have huses := releaseVersion_acts pathPrefix d v
  refine ⟨fun e u h => ?_, fun _ _ => not_reaches_of_release huses,
    fun _ _ => not_reaches_of_release huses⟩
  by_cases he : e = d
  · subst he
    obtain ⟨_, h⟩ | ⟨hcheck, _⟩ := h
    · exact Op.noConfusion h
    · exact hcheck rfl
  · refine Uses.not_reaches (huses.mono fun op hop => ?_) h
    rintro ⟨_, rfl⟩
    obtain ⟨_, _, h⟩ := hop rfl
    exact he (Op.metaInsert.inj h).1

theorem fresh_uploadDomainWithVersion (pathPrefix : PathBuf) (d : Str)
    (version : Option UInt32) : Fresh (uploadDomainWithVersion pathPrefix d version) := by
  cases version with
  | some v => exact fresh_releaseVersion pathPrefix d v
  | none =>
    have huses := uploadDomainWithVersion_acts pathPrefix d none
    refine ⟨fun e u h => ?_, fun _ _ => not_reaches_of_release huses,
      fun _ _ => not_reaches_of_release huses⟩
    obtain h | ⟨info, h⟩ := reaches_bind h
    · exact not_releasing ((uses_getDomainInfoByDomain pathPrefix d).mono fun _ => lookup_isAct) h
    · split at h
      · exact (fresh_releaseVersion pathPrefix d _).releasing e u h
      · exact h.elim

theorem updateUploadingStatus_acts (pathPrefix : PathBuf) (d : Str) (v : UInt32)
    (st : UploadingStatus) : (updateUploadingStatus pathPrefix d v st).Uses fun op =>
      op.isAct = true → op = .uploadingInsert d v := by
  have hno : ∀ {p : Method (Except StorageError Unit)}, (p.Uses fun op => op.isAct = false) →
      p.Uses fun op => op.isAct = true → op = .uploadingInsert d v :=
    fun h => h.mono fun op hop hact => absurd hact (by simp [hop])
  simp only [updateUploadingStatus, perform_bind]
  refine ⟨(absurd · Bool.false_ne_true), ?_⟩
  rintro (_ | u)
  · dsimp only
    split
    case isFalse => exact hno (finishUploading_acts pathPrefix d v)
    refine ⟨(absurd · Bool.false_ne_true), fun serving => ?_⟩
    beta_reduce
    split
    · trivial
    refine ⟨(absurd · Bool.false_ne_true), ?_⟩
    rintro (e | _)
    · trivial
    refine ⟨(absurd · Bool.false_ne_true), ?_⟩
    rintro (e | _)
    · trivial
    · exact ⟨fun _ => rfl, fun _ => trivial⟩
  · exact hno (recorded_acts pathPrefix d u v st)

theorem fresh_updateUploadingStatus (pathPrefix : PathBuf) (d : Str) (v : UInt32)
    (st : UploadingStatus) : Fresh (updateUploadingStatus pathPrefix d v st) := by
  have huses := updateUploadingStatus_acts pathPrefix d v st
  have hother : ∀ check e u, e ≠ d → ¬ (updateUploadingStatus pathPrefix d v st).Reaches check
      (· = .uploadingInsert e u) := by
    intro check e u he
    refine Uses.not_reaches (huses.mono fun op hop => ?_)
    rintro rfl
    exact he (Op.uploadingInsert.inj (hop rfl)).1
  refine ⟨fun e u => Uses.not_reaches (huses.mono fun op hop => ?_), fun e u h => ?_,
    fun e u h => ?_⟩
  · rintro ⟨_, rfl⟩
    exact Op.noConfusion (hop rfl)
  · by_cases he : e = d
    · subst he
      obtain h | ⟨hcheck, _⟩ := h
      · exact Op.noConfusion h
      · exact hcheck rfl
    · exact hother _ e u he h
  · by_cases he : e = d
    · subst he
      simp only [updateUploadingStatus, perform_bind] at h
      obtain h | ⟨_, _ | v', h⟩ := h
      · exact Op.noConfusion h
      · beta_reduce at h
        dsimp only at h
        split at h
        · obtain h | ⟨hcheck, _⟩ := h
          · exact Op.noConfusion h
          · exact hcheck rfl
        · exact not_reaches_insert (finishUploading_acts pathPrefix e v) h
      · exact not_reaches_insert (recorded_acts pathPrefix e v' v st) h
    · exact hother _ e u he h

theorem Fresh.bind {α β : Type} {p : Method α} {f : α → Method β} (hp : Fresh p)
    (hf : ∀ a, (f a).Uses fun op => op.isAct = false) : Fresh (p >>= f) where
  releasing d v h := (reaches_bind h).elim (hp.releasing d v) fun ⟨a, ha⟩ => not_releasing (hf a) ha
  free d v h := (reaches_bind h).elim (hp.free d v) fun ⟨a, ha⟩ => not_reaches_insert (hf a) ha
  clear d v h := (reaches_bind h).elim (hp.clear d v) fun ⟨a, ha⟩ => not_reaches_insert (hf a) ha

theorem start_bind {α β : Type} {p : Method α} {f : α → Method β} (hc : Checked p) (hp : Fresh p)
    (hf : ∀ a, (f a).Uses fun op => op.isAct = false) : Checked (p >>= f) ∧ Fresh (p >>= f) :=
  ⟨checked_bind hc hf, hp.bind hf⟩

theorem handler_start (pathPrefix : PathBuf) (call : StorageCall) :
    Checked (call.handler pathPrefix) ∧ Fresh (call.handler pathPrefix) := by
  cases call with
  | status param =>
    refine start_bind (checked_updateUploadingStatus pathPrefix _ _ _)
      (fresh_updateUploadingStatus pathPrefix _ _ _) ?_
    rintro (e | _) <;> trivial
  | release option =>
    refine start_bind (checked_uploadDomainWithVersion pathPrefix _ _)
      (fresh_uploadDomainWithVersion pathPrefix _ _) ?_
    rintro (e | _) <;> trivial

theorem uploadPool_start {calls : List StorageCall} {w : World} (h : Exclusive w) :
    UploadPool calls (StorageCall.handlers w.storage.pathPrefix calls, w) := by
  have hat : ∀ (i : Nat) q, (StorageCall.handlers w.storage.pathPrefix calls)[i]? = some q →
      ∃ call, calls[i]? = some call ∧ q = call.handler w.storage.pathPrefix := by
    intro i q hq
    rw [StorageCall.handlers, List.getElem?_map, Option.map_eq_some_iff] at hq
    obtain ⟨call, hcall, rfl⟩ := hq
    exact ⟨call, hcall, rfl⟩
  refine ⟨fun i q hq => ?_, fun i d v q hcall hq => ?_, h⟩
  · obtain ⟨call, _, rfl⟩ := hat i q hq
    obtain ⟨hchecked, hfresh⟩ := handler_start w.storage.pathPrefix call
    exact ⟨hchecked, fun d v hr => absurd hr (hfresh.releasing d v),
      fun d v hf => absurd hf (hfresh.free d v), fun d v hc => absurd hc (hfresh.clear d v)⟩
  · obtain ⟨call, hcall', rfl⟩ := hat i q hq
    obtain rfl := Option.some.inj (hcall.symm.trans hcall')
    exact answersWhen_changeUploadStatus _ d v

/-- An act of a valid handler keeps the two maps apart. -/
theorem exclusive_step {w : World} {op : Op} {next : op.Reply → Method Response}
    (hw : Exclusive w) (h : Valid w (.call op next)) : Exclusive (meaning crates op w).2 := by
  obtain ⟨hserving, huploading⟩ := @meaning_maps crates op w
  intro e u hs
  rcases hserving with ⟨d, path, v, rfl⟩ | hsame
  · rw [serving_metaInsert] at hs
    split at hs
    · next he =>
      subst he
      obtain rfl := Option.some.inj hs
      exact h.releasing e v (Or.inl ⟨path, rfl⟩)
    · exact hw e u hs
  rw [hsame] at hs
  rcases huploading with ⟨d, v, rfl⟩ | hu
  · rw [uploading_insert]
    split
    · next he =>
      subst he
      intro hv
      obtain rfl := Option.some.inj hv
      exact h.clear e v (Or.inl rfl) hs
    · exact hw e u hs
  · rcases hu e with hu | hu
    · rw [hu]
      exact hw e u hs
    · rw [hu]
      exact (Option.some_ne_none u).symm

/-- **One undisturbed step keeps the invariant.** -/
theorem uploadPool_step {calls : List StorageCall} {i : Nat}
    {c c' : List (Method Response) × World} (hinv : UploadPool calls c) (hok : Undisturbed i c)
    (hstep : PoolStep (meaning crates) i c c') : UploadPool calls c' := by
  obtain @⟨ps, w, op, next, hi⟩ := hstep
  have hself := hinv.valid i _ hi
  have hlt := (List.getElem?_eq_some_iff.mp hi).1
  refine ⟨fun j q hq => ?_, fun j d v q hcall hq => ?_, exclusive_step hinv.exclusive hself⟩
  · by_cases hj : i = j
    · subst hj
      rw [List.getElem?_set_self hlt] at hq
      obtain rfl := Option.some.inj hq
      exact valid_step hself
    · rw [List.getElem?_set_ne hj] at hq
      exact valid_other (hinv.valid j q hq) (hok op next hi j q (Ne.symm hj) hq)
  · by_cases hj : i = j
    · subst hj
      rw [List.getElem?_set_self hlt] at hq
      obtain rfl := Option.some.inj hq
      exact (hinv.answers i d v _ hcall hi).step _
    · rw [List.getElem?_set_ne hj] at hq
      exact hinv.answers j d v q hcall hq

theorem uploadPool_run {calls : List StorageCall} {c c' : List (Method Response) × World}
    (hinv : UploadPool calls c) (hrun : PoolRun (meaning crates) Undisturbed c c') :
    UploadPool calls c' := by
  induction hrun with
  | refl => exact hinv
  | tail _ hstep ih =>
    obtain ⟨i, hok, hstep⟩ := hstep
    exact uploadPool_step ih hok hstep

/-- As long as nobody ends it, the upload of `u` stays recorded. -/
theorem uploading_step {calls : List StorageCall} {i : Nat} {d : Str} {u : UInt32}
    {c c' : List (Method Response) × World} (hinv : UploadPool calls c)
    (hu : c.2.storage.uploadingStatus d = some u) (hno : ¬ Finishes d u i c)
    (hstep : PoolStep (meaning crates) i c c') : c'.2.storage.uploadingStatus d = some u := by
  obtain @⟨ps, w, op, next, hi⟩ := hstep
  dsimp only at hu ⊢
  cases op with
  | uploadingInsert e v =>
    rw [uploading_insert]
    split
    · next he =>
      subst he
      -- the handler has found the domain free, or its own version in it
      rcases (hinv.valid i _ hi).free d v (Or.inl rfl) with hf | hf
      · exact absurd (hu.symm.trans hf) (Option.some_ne_none u)
      · rw [← hf]
        exact hu
    · exact hu
  | uploadingRemoveIf e v =>
    show w.storage.uploadingStatus.removeIf e (· == v) d = some u
    by_cases he : d = e
    · subst he
      have hv : v ≠ u := by
        rintro rfl
        exact hno ⟨next, hi⟩
      rw [DashMap.removeIf, if_neg]
      · exact hu
      · simpa [hu] using hv.symm
    · rw [DashMap.removeIf_of_ne _ he]
      exact hu
  | _ => exact hu

/-- While the upload of `u` is recorded, none of another version is answered Ok. -/
theorem not_answered_step {calls : List StorageCall} {i j : Nat} {d : Str} {u v : UInt32}
    {c c' : List (Method Response) × World} (hinv : UploadPool calls c)
    (hu : c.2.storage.uploadingStatus d = some u) (huv : u ≠ v)
    (hj : calls[j]? = some (.status ⟨d, v, .uploading⟩))
    (hstep : PoolStep (meaning crates) i c c') (hok : c'.1[j]? = some (.ret .ok)) :
    c.1[j]? = some (.ret .ok) := by
  obtain @⟨ps, w, op, next, hi⟩ := hstep
  dsimp only at hu hok ⊢
  by_cases hij : i = j
  case neg => rwa [List.getElem?_set_ne hij] at hok
  subst hij
  have hlt := (List.getElem?_eq_some_iff.mp hi).1
  rw [List.getElem?_set_self hlt] at hok
  obtain ⟨_, hv | rfl⟩ := (hinv.answers i d v _ hj hi).answered (Option.some.inj hok)
  · exact absurd (Option.some.inj (hu.symm.trans hv)) huv
  · rcases (hinv.valid i _ hi).free d v (Or.inl rfl) with hf | hf
    · exact absurd (hu.symm.trans hf) (Option.some_ne_none u)
    · exact absurd (Option.some.inj (hu.symm.trans hf)) huv

/-- What concurrent calls, each step of which `ok` allows, keep apart: the version a
domain serves and the one it records as uploading; and the uploads of two versions of a
domain, where the second is answered Ok only after the first has been ended. -/
structure Exclusion (crates : Crates) (ok : Nat → List (Method Response) × World → Prop)
    (calls : List StorageCall) (w₀ : World) : Prop where
  serving : ∀ c, PoolRun (meaning crates) ok
    (StorageCall.handlers w₀.storage.pathPrefix calls, w₀) c → Exclusive c.2
  uploading : ∀ (i j : Nat) d u v c c' c'', calls[i]? = some (.status ⟨d, u, .uploading⟩) →
    calls[j]? = some (.status ⟨d, v, .uploading⟩) → u ≠ v →
    PoolRun (meaning crates) ok (StorageCall.handlers w₀.storage.pathPrefix calls, w₀) c →
    ok i c → PoolStep (meaning crates) i c c' → c'.1[i]? = some (.ret .ok) →
    PoolRun (meaning crates) (fun k e => ok k e ∧ ¬ Finishes d u k e) c' c'' →
    c''.1[j]? = some (.ret .ok) → c'.1[j]? = some (.ret .ok)

/-- **Uploads exclude releases and each other.**  When no handler writes against a check
that another one has made and not yet acted on, no state of the run serves a version that
it records as uploading, and no upload is answered Ok after that of another version unless
that one was ended in between. -/
theorem uploads_exclude_releases (calls : List StorageCall) (w₀ : World) (hw : Exclusive w₀) :
    Exclusion crates Undisturbed calls w₀ := by
  have hpool := fun c (hrun : PoolRun (meaning crates) Undisturbed
    (StorageCall.handlers w₀.storage.pathPrefix calls, w₀) c) =>
    uploadPool_run (uploadPool_start hw) hrun
  refine ⟨fun c hrun => (hpool c hrun).exclusive, ?_⟩
  intro i j d u v c c' c'' hi hj huv hrun hok hstep hanswer hrest hend
  have hinv := uploadPool_step (hpool c hrun) hok hstep
  have hu : c'.2.storage.uploadingStatus d = some u := by
    obtain @⟨ps, w, op, next, hp⟩ := hstep
    have hlt := (List.getElem?_eq_some_iff.mp hp).1
    rw [List.getElem?_set_self hlt] at hanswer
    exact ((hpool _ hrun).answers i d u _ hi hp).answered (Option.some.inj hanswer) |>.1
  have hall : UploadPool calls c'' ∧ c''.2.storage.uploadingStatus d = some u ∧
      (c''.1[j]? = some (.ret .ok) → c'.1[j]? = some (.ret .ok)) := by
    clear hend
    induction hrest with
    | refl => exact ⟨hinv, hu, id⟩
    | tail _ hstep ih =>
      obtain ⟨k, ⟨hok, hno⟩, hstep⟩ := hstep
      obtain ⟨hinv, hu, hanswered⟩ := ih
      exact ⟨uploadPool_step hinv hok hstep, uploading_step hinv hu hno hstep,
        fun h => hanswered (not_answered_step hinv hu huv hj hstep h)⟩
  exact hall.2.2 hend

/-! ### An upload and a release of one version -/

def racingCalls : List StorageCall :=
  [.status ⟨"www.a.com".toList, 1, .uploading⟩, .release ⟨"www.a.com".toList, some 1⟩]

def racing (steps : List Nat) : List (Method Response) × World :=
  follow (meaning Crates.simple) steps
    (StorageCall.handlers "/srv".toList racingCalls, ⟨bareStorage, bareDisk⟩)

theorem exclusive_bare : Exclusive ⟨bareStorage, bareDisk⟩ :=
  fun _ v h => absurd h.symm (Option.some_ne_none v)

theorem undisturbed_of_not_act {i : Nat} {ps : List (Method Response)} {w : World} {op : Op}
    {next : op.Reply → Method Response} (hi : ps[i]? = some (.call op next))
    (hop : op.isAct = false) : Undisturbed i (ps, w) := by
  intro op' next' hi' j q _ _
  rw [hi] at hi'
  obtain ⟨rfl, _⟩ := (Program.call.injEq ..).mp (Option.some.inj hi')
  cases op <;> trivial

theorem Fresh.harmless {α : Type} {q : Method α} (h : Fresh q) (op : Op) : Harmless op q := by
  cases op with
  | uploadingInsert d v => exact ⟨h.releasing d v, fun u _ => h.free d u⟩
  | metaInsert d path v => exact h.clear d v
  | _ => trivial

theorem undisturbed_first {p q : Method Response} {w : World} (h : Fresh q) :
    Undisturbed 0 ([p, q], w) := by
  intro op next _ j q' hj hq
  rcases j with _ | _ | j
  · exact absurd rfl hj
  · obtain rfl := Option.some.inj hq
    exact h.harmless op
  · exact absurd hq (by simp)

/-- The upload goes first; the release then finds it recorded. -/
theorem uploads_exclude_releases_inTurn : Exclusive (racing [0, 0, 0, 0, 0, 1]).2 := by
  have hfresh := (handler_start "/srv".toList (.release ⟨"www.a.com".toList, some 1⟩)).2
  refine (@uploads_exclude_releases Crates.simple racingCalls ⟨bareStorage, bareDisk⟩
    exclusive_bare).serving (racing [0, 0, 0, 0, 0, 1]) ?_
  exact .head ⟨0, undisturbed_first hfresh, .step rfl⟩ (.head ⟨0, undisturbed_first hfresh,
    .step rfl⟩ (.head ⟨0, undisturbed_first hfresh, .step rfl⟩ (.head ⟨0,
    undisturbed_first hfresh, .step rfl⟩ (.head ⟨0, undisturbed_first hfresh, .step rfl⟩
    (.head ⟨1, undisturbed_of_not_act rfl rfl, .step rfl⟩ .refl)))))

/-- The race: the upload has made its marker and not recorded itself when the release
checks and writes. -/
theorem racing_serves_upload : ¬ ∀ (calls : List StorageCall) (w₀ : World), Exclusive w₀ →
    Exclusion Crates.simple (fun _ _ => True) calls w₀ := by
  intro h
  have hend := (h racingCalls ⟨bareStorage, bareDisk⟩ exclusive_bare).serving
    (racing [0, 0, 0, 0, 1, 1, 1, 0]) (follow_run _ _ _)
  exact hend "www.a.com".toList 1 (by decide +kernel) (by decide +kernel)

end SpaServer
