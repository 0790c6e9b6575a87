import JobProvenance.Common.QueryRec
import JobProvenance.Common.Soap
import JobProvenance.Lib.Stateful
import JobProvenance.Lib.Table
import JobProvenance.Primary.Backend

/-!
# Sending to index servers

A primary storage sends the jobs of a feed in `UpdateJobs` messages, one job or
many in each, and keeps in the table `fed_jobs` which jobs a feed has got. What
the index servers answer is not known: `answers` tells, for every message by its
number, whether it is accepted.

* `singleFeed` sends a message until it is accepted, at most `MAX_RETRY` times;
* `multiFeed` sends it once, as its error is lost (`multiFeed_eq_ok`);
* `setFed_apply`, `checkFed_eq_ok`: the marks, by the unique parts of the jobs.
-/

namespace JobProvenance

/-- A message, and whether the index server accepted it. -/
structure Sent where
  destination : Bytes
  msg : UpdateJobs
  accepted : Bool
  deriving DecidableEq

/-- A row of the table `fed_jobs`, all of it its key. -/
structure FedRow where
  feedid : Bytes
  jobid : Bytes
  deriving DecidableEq

/-- What was sent, and the table `fed_jobs`. -/
@[ext]
structure Outbox where
  sent : List Sent
  fed : Table FedRow (· = ·)

/-- A call that sends messages: they are sent also when it ends early. -/
abbrev Sending := EStateM Stop Outbox

def MAX_RETRY : ℕ := 10

/-! ## Messages -/

/-- The origin of a value that is sent; there has to be one. -/
def jp2sOrigin : AttrOrig → Exec SoapAttrOrig
  | .any => .error .fault
  | .system => .ok .SYSTEM
  | .user => .ok .USER
  | .file => .ok .FILE

/-- A value as it is sent. -/
def jp2sAttrValue (attr : Attrval) : Exec AttrValue := do
  let copy ← attr.copy
  let origin ← jp2sOrigin attr.origin
  return {
    name := attr.name
    value := some (if attr.binary then .blob copy.value else .string copy.value)
    timestamp := attr.timestamp
    origin
    originDetail := attr.originDetail }

/-- The record of a job. -/
def jobRecord (job owner : Bytes) (attrs : List Attrval) : Exec JobRecord := do
  let attributes ← attrs.mapM jp2sAttrValue
  return { jobid := some job, owner := some owner, attributes, remove := some false }

/-- The records of the first `njobs` jobs of the arrays. -/
def jobRecords (njobs : ℕ) (jobs owners : List Bytes) (attrs : List (List Attrval)) :
    Exec (List JobRecord) :=
  (List.range njobs).mapM fun i => do
    let job ← Exec.deref jobs[i]?
    let owner ← Exec.deref owners[i]?
    let attrs ← Exec.deref attrs[i]?
    jobRecord job owner attrs

section Send

variable (answers : ℕ → Bool)

/-- Sends a message: whether it is accepted. -/
def sendUpdateJobs (destination : Bytes) (msg : UpdateJobs) : Sending Bool := fun s =>
  .ok (answers s.sent.length)
    { s with sent := s.sent ++ [⟨destination, msg, answers s.sent.length⟩] }

/-- Attempts until one succeeds, one and some more. -/
def attempts (attempt : Sending Ret) : ℕ → Sending Ret
  | 0 => attempt
  | more + 1 => do
    match ← attempt with
    | none => return none
    | some _ => attempts attempt more

def singleFeedWrapped (feed : Bytes) (done : Bool) (destination job owner : Bytes)
    (attrs : List Attrval) : Sending Ret := do
  let jr ← jobRecord job owner attrs
  if ← sendUpdateJobs answers destination ⟨feed, done, [jr]⟩ then return none
  else return some Errno.EIO

/-- Sends a job; there has to be an owner. -/
def singleFeed (feed : Bytes) (done : Bool) (destination job : Bytes) (owner : Option Bytes)
    (attrs : List Attrval) : Sending Ret := do
  let owner ← Exec.deref owner
  attempts (singleFeedWrapped answers feed done destination job owner attrs) (MAX_RETRY - 1)

/-- The error code of the message is looked at, but not returned. -/
def multiFeedWrapped (feed : Bytes) (done : Bool) (njobs : ℕ) (destination : Bytes)
    (jobs owners : List Bytes) (attrs : List (List Attrval)) : Sending Ret := do
  let jobAttributes ← jobRecords njobs jobs owners attrs
  let _ ← sendUpdateJobs answers destination ⟨feed, done, jobAttributes⟩
  return none

/-- Sends the first `njobs` jobs of the arrays. -/
def multiFeed (feed : Bytes) (done : Bool) (njobs : ℕ) (destination : Bytes)
    (jobs owners : List Bytes) (attrs : List (List Attrval)) : Sending Ret :=
  attempts (multiFeedWrapped answers feed done njobs destination jobs owners attrs) (MAX_RETRY - 1)

/-- The box behind a message. -/
def Outbox.push (s : Outbox) (destination : Bytes) (msg : UpdateJobs) : Outbox :=
  { s with sent := s.sent ++ [⟨destination, msg, answers s.sent.length⟩] }

variable {answers} {feed destination job : Bytes} {done : Bool} {njobs : ℕ} {jobs owners : List Bytes}
  {attrs : List (List Attrval)} {s s' : Outbox} {attempt : Sending Ret} {more : ℕ}

theorem attempts_of_none (h : attempt s = .ok none s') : attempts attempt more s = .ok none s' := by
  cases more with
  | zero => exact h
  | succ more => exact Stateful.bind_of_ok h

theorem attempts_of_error {e : Stop} (h : attempt s = .error e s') :
    attempts attempt more s = .error e s' := by
  cases more with
  | zero => exact h
  | succ more => exact Stateful.bind_of_error h

/-- Many jobs are sent in one message, whatever the answer is. -/
theorem multiFeed_of_ok {records : List JobRecord}
    (h : jobRecords njobs jobs owners attrs = .ok records) :
    multiFeed answers feed done njobs destination jobs owners attrs s =
      .ok none (s.push answers destination ⟨feed, done, records⟩) := by
  refine attempts_of_none ?_
  rw [multiFeedWrapped, h]
  rfl

theorem multiFeed_of_error {e : Stop} (h : jobRecords njobs jobs owners attrs = .error e) :
    multiFeed answers feed done njobs destination jobs owners attrs s = .error e s := by
  refine attempts_of_error ?_
  rw [multiFeedWrapped, h]
  rfl

theorem multiFeed_eq_ok {ret : Ret} :
    multiFeed answers feed done njobs destination jobs owners attrs s = .ok ret s' ↔
      ret = none ∧ ∃ records, jobRecords njobs jobs owners attrs = .ok records ∧
        s' = s.push answers destination ⟨feed, done, records⟩ := by
  cases h : jobRecords njobs jobs owners attrs with
  | ok records =>
    rw [multiFeed_of_ok h, EStateM.Result.ok.injEq]
    constructor
    · rintro ⟨rfl, rfl⟩
      exact ⟨rfl, records, rfl, rfl⟩
    · rintro ⟨rfl, _, hr, rfl⟩
      rw [Except.ok.inj hr]
      exact ⟨rfl, rfl⟩
  | error e =>
    rw [multiFeed_of_error h]
    exact iff_of_false (by simp) (by simp)

/-- What attempts to send a message leave behind: one message or more, the same each time,
    and it succeeds when one is accepted. -/
structure Attempted (answers : ℕ → Bool) (destination : Bytes) (msg : UpdateJobs) (ret : Ret)
    (s s' : Outbox) (msgs : List Sent) : Prop where
  box_eq : s' = { s with sent := s.sent ++ msgs }
  ne_nil : msgs ≠ []
  same : ∀ m ∈ msgs, m.destination = destination ∧ m.msg = msg ∧ ∃ n, m.accepted = answers n
  ret_iff : ret = none ↔ ∃ m ∈ msgs, m.accepted = true

theorem singleFeedWrapped_eq_ok {owner : Bytes} {attrs : List Attrval} {ret : Ret}
    (h : singleFeedWrapped answers feed done destination job owner attrs s = .ok ret s') :
    ∃ jr, jobRecord job owner attrs = .ok jr ∧ ∃ msgs,
      Attempted answers destination ⟨feed, done, [jr]⟩ ret s s' msgs := by
  obtain ⟨jr, t, ht, h⟩ := Stateful.bind_eq_ok.1 h
  obtain ⟨hjr, rfl⟩ := Stateful.liftM_eq_ok.1 ht
  obtain ⟨accepted, t, ht, h⟩ := Stateful.bind_eq_ok.1 h
  obtain ⟨rfl, rfl⟩ := EStateM.Result.ok.inj ht
  refine ⟨jr, hjr, [⟨destination, ⟨feed, done, [jr]⟩, answers s.sent.length⟩], ?_⟩
  have hsame : ∀ m ∈ [(⟨destination, ⟨feed, done, [jr]⟩, answers s.sent.length⟩ : Sent)],
      m.destination = destination ∧ m.msg = ⟨feed, done, [jr]⟩ ∧ ∃ n, m.accepted = answers n := by
    intro m hm
    rw [List.mem_singleton.1 hm]
    exact ⟨rfl, rfl, _, rfl⟩
  split_ifs at h with ha
  · obtain ⟨rfl, rfl⟩ := Stateful.pure_eq_ok.1 h
    exact ⟨rfl, List.cons_ne_nil _ _, hsame, iff_of_true rfl ⟨_, List.mem_singleton_self _, ha⟩⟩
  · obtain ⟨rfl, rfl⟩ := Stateful.pure_eq_ok.1 h
    refine ⟨rfl, List.cons_ne_nil _ _, hsame, iff_of_false (by simp) ?_⟩
    rintro ⟨m, hm, hacc⟩
    rw [List.mem_singleton.1 hm] at hacc
    exact ha hacc

theorem attempts_singleFeed {owner : Bytes} {attrs : List Attrval} {ret : Ret}
    (h : attempts (singleFeedWrapped answers feed done destination job owner attrs) more s =
      .ok ret s') :
    ∃ jr, jobRecord job owner attrs = .ok jr ∧ ∃ msgs,
      Attempted answers destination ⟨feed, done, [jr]⟩ ret s s' msgs := by
  induction more generalizing s with
  | zero => exact singleFeedWrapped_eq_ok h
  | succ more ih =>
    obtain ⟨ret₁, t, ht, h⟩ := Stateful.bind_eq_ok.1 h
    obtain ⟨jr, hjr, msgs, h₁⟩ := singleFeedWrapped_eq_ok ht
    cases ret₁ with
    | none =>
      obtain ⟨rfl, rfl⟩ := Stateful.pure_eq_ok.1 h
      exact ⟨jr, hjr, msgs, h₁⟩
    | some e =>
      -- the next attempts send the same record behind the messages of this one
      obtain ⟨jr', hjr', msgs', h₂⟩ := ih h
      obtain rfl := Except.ok.inj (hjr.symm.trans hjr')
      refine ⟨jr, hjr, msgs ++ msgs', ?_, ?_, ?_, ?_⟩
      · rw [h₂.box_eq, h₁.box_eq, List.append_assoc]
      · exact List.append_ne_nil_of_left_ne_nil h₁.ne_nil _
      · exact List.forall_mem_append.2 ⟨h₁.same, h₂.same⟩
      · have hrej : ¬∃ m ∈ msgs, m.accepted = true := fun hm => by cases h₁.ret_iff.2 hm
        simp only [h₂.ret_iff, List.mem_append, or_and_right, exists_or, or_iff_right hrej]

/-- One job is sent until it is accepted. -/
theorem singleFeed_eq_ok {owner : Option Bytes} {attrs : List Attrval} {ret : Ret}
    (h : singleFeed answers feed done destination job owner attrs s = .ok ret s') :
    ∃ o jr msgs, owner = some o ∧ jobRecord job o attrs = .ok jr ∧
      Attempted answers destination ⟨feed, done, [jr]⟩ ret s s' msgs := by
  obtain ⟨o, t, ht, h⟩ := Stateful.bind_eq_ok.1 h
  obtain ⟨ho, rfl⟩ := Stateful.liftM_eq_ok.1 ht
  obtain ⟨jr, hjr, msgs, hm⟩ := attempts_singleFeed h
  exact ⟨o, jr, msgs, Exec.deref_eq_ok.1 ho, hjr, hm⟩

end Send

/-! ## Marks -/

/-- The mark of a job; other jobs with the same unique part have the same. -/
def fedRow (feed job : Bytes) : Exec FedRow := do
  let u ← jobidUniquePathname job false
  return ⟨feed, u⟩

/-- Marks a job. -/
def setFed (feed job : Bytes) : Sending Ret := fun s =>
  match fedRow feed job with
  | .ok row =>
    match s.fed.insert row with
    | some fed => .ok none { s with fed }
    | none => .ok (some Errno.EIO) s
  | .error (.errno e) => .ok (some e) s
  | .error e => .error e s

/-- The number of marks of a job. -/
def checkFed (fed : Table FedRow (· = ·)) (feed job : Bytes) : Exec ℕ := do
  let row ← fedRow feed job
  return fed.rows.countP (· = row)

/-- A job that can be marked is marked, whether it was before or not. -/
theorem setFed_of_row {feed job : Bytes} {row : FedRow} (h : fedRow feed job = .ok row) (s : Outbox) :
    ∃ ret box, setFed feed job s = .ok ret box ∧ box.sent = s.sent ∧
      ∀ r, r ∈ box.fed.rows ↔ r ∈ s.fed.rows ∨ r = row := by
  cases hi : s.fed.insert row with
  | some fed =>
    refine ⟨none, { s with fed }, by simp only [setFed, h, hi], rfl, fun r => ?_⟩
    simp [(Table.insert_eq_some.1 hi).2]
  | none =>
    obtain ⟨r, hr, rfl⟩ := Table.insert_eq_none.1 hi
    refine ⟨some Errno.EIO, s, by simp only [setFed, h, hi], rfl, fun r' => ?_⟩
    exact (or_iff_left_of_imp fun h => h ▸ hr).symm

/-- Of others nothing is marked. -/
theorem setFed_of_no_row {feed job : Bytes} {e : Stop} (h : fedRow feed job = .error e) (s : Outbox) :
    (∃ e, setFed feed job s = .ok (some e) s) ∨ setFed feed job s = .error e s := by
  cases e with
  | errno e => exact .inl ⟨e, by simp only [setFed, h]⟩
  | fault | hang => exact .inr (by simp only [setFed, h])

theorem jobid_of_jobRecord {job owner : Bytes} {attrs : List Attrval} {r : JobRecord}
    (h : jobRecord job owner attrs = .ok r) : r.jobid = some job := by
  obtain ⟨attributes, -, h⟩ := Exec.bind_eq_ok.1 h
  rw [← Except.ok.inj h]

/-- The record of a job has the values of the job. -/
theorem attributes_of_jobRecord {job owner : Bytes} {attrs : List Attrval} {r : JobRecord}
    (h : jobRecord job owner attrs = .ok r) : ∀ a ∈ r.attributes, ∃ v ∈ attrs, a.name = v.name := by
  obtain ⟨attributes, hattrs, h⟩ := Exec.bind_eq_ok.1 h
  obtain rfl := Except.ok.inj h
  intro a ha
  obtain ⟨v, hv, hva⟩ := (Exec.mem_of_mapM hattrs).2 a ha
  refine ⟨v, hv, ?_⟩
  obtain ⟨copy, -, hva⟩ := Exec.bind_eq_ok.1 hva
  obtain ⟨origin, -, hva⟩ := Exec.bind_eq_ok.1 hva
  exact Except.ok.inj hva ▸ rfl

/-- A record of many is that of one of the jobs. -/
theorem mem_of_jobRecords {njobs : ℕ} {jobs owners : List Bytes} {attrs : List (List Attrval)}
    {records : List JobRecord} (h : jobRecords njobs jobs owners attrs = .ok records) :
    ∀ r ∈ records, ∃ job ∈ jobs, ∃ owner ∈ owners, ∃ as ∈ attrs, jobRecord job owner as = .ok r := by
  intro r hr
  obtain ⟨i, -, hi⟩ := (Exec.mem_of_mapM h).2 r hr
  obtain ⟨job, hjob, hi⟩ := Exec.bind_eq_ok.1 hi
  obtain ⟨owner, howner, hi⟩ := Exec.bind_eq_ok.1 hi
  obtain ⟨as, has, hi⟩ := Exec.bind_eq_ok.1 hi
  exact ⟨job, List.mem_of_getElem? (Exec.deref_eq_ok.1 hjob), owner,
    List.mem_of_getElem? (Exec.deref_eq_ok.1 howner), as,
    List.mem_of_getElem? (Exec.deref_eq_ok.1 has), hi⟩

/-! ## What all messages have -/

/-- A call sends only messages that meet `C`. -/
def Sends {α : Type} (C : Sent → Prop) (x : Sending α) : Prop :=
  Stateful.Keeps (fun box : Outbox => ∀ m ∈ box.sent, C m) x

section Sends

variable {answers : ℕ → Bool} {C : Sent → Prop} {feed destination job : Bytes} {done : Bool}

theorem sends_sendUpdateJobs {msg : UpdateJobs} (h : ∀ accepted, C ⟨destination, msg, accepted⟩) :
    Sends C (sendUpdateJobs answers destination msg) := fun _ hs =>
  List.forall_mem_append.2 ⟨hs, List.forall_mem_singleton.2 (h _)⟩

/-- Attempts keep what each of them does. -/
theorem keeps_attempts {I : Outbox → Prop} {attempt : Sending Ret} (h : Stateful.Keeps I attempt)
    (more : ℕ) : Stateful.Keeps I (attempts attempt more) := by
  induction more with
  | zero => exact h
  | succ more ih =>
    refine Stateful.Keeps.bind h fun ret => ?_
    cases ret with
    | none => exact .pure _
    | some e => exact ih

theorem sends_attempts {attempt : Sending Ret} (h : Sends C attempt) (more : ℕ) :
    Sends C (attempts attempt more) := keeps_attempts h more

/-- One job is sent in messages alone, and keeps what they keep. -/
theorem keeps_singleFeed {I : Outbox → Prop} {owner : Option Bytes} {attrs : List Attrval}
    (h : ∀ records, Stateful.Keeps I (sendUpdateJobs answers destination ⟨feed, done, records⟩)) :
    Stateful.Keeps I (singleFeed answers feed done destination job owner attrs) := by
  refine (Stateful.Keeps.liftM _).bind fun o => keeps_attempts ?_ _
  refine (Stateful.Keeps.liftM _).bind fun jr => (h [jr]).bind fun acc => ?_
  split_ifs <;> exact .pure _

/-- So are many. -/
theorem keeps_multiFeed {I : Outbox → Prop} {njobs : ℕ} {jobs owners : List Bytes}
    {attrs : List (List Attrval)}
    (h : ∀ records, Stateful.Keeps I (sendUpdateJobs answers destination ⟨feed, done, records⟩)) :
    Stateful.Keeps I (multiFeed answers feed done njobs destination jobs owners attrs) :=
  keeps_attempts ((Stateful.Keeps.liftM _).bind fun records =>
    (h records).bind fun _ => .pure _) _

theorem sends_singleFeedWrapped {owner : Bytes} {attrs : List Attrval}
    (h : ∀ jr accepted, jobRecord job owner attrs = .ok jr →
      C ⟨destination, ⟨feed, done, [jr]⟩, accepted⟩) :
    Sends C (singleFeedWrapped answers feed done destination job owner attrs) := by
  refine .liftM_bind fun jr hjr =>
    .bind (sends_sendUpdateJobs fun accepted => h jr accepted hjr) fun accepted => ?_
  split_ifs <;> exact .pure _

/-- What one job is sent in. -/
theorem sends_singleFeed {owner : Option Bytes} {attrs : List Attrval}
    (h : ∀ o jr accepted, owner = some o → jobRecord job o attrs = .ok jr →
      C ⟨destination, ⟨feed, done, [jr]⟩, accepted⟩) :
    Sends C (singleFeed answers feed done destination job owner attrs) := by
  cases owner with
  | none => exact fun _ hs => hs
  | some o => exact sends_attempts (sends_singleFeedWrapped fun jr accepted => h o jr accepted rfl) _

theorem sends_multiFeedWrapped {njobs : ℕ} {jobs owners : List Bytes} {attrs : List (List Attrval)}
    (h : ∀ records accepted, jobRecords njobs jobs owners attrs = .ok records →
      C ⟨destination, ⟨feed, done, records⟩, accepted⟩) :
    Sends C (multiFeedWrapped answers feed done njobs destination jobs owners attrs) :=
  .liftM_bind fun records hr =>
    .bind (sends_sendUpdateJobs fun accepted => h records accepted hr) fun _ => .pure _

/-- What many jobs are sent in. -/
theorem sends_multiFeed {njobs : ℕ} {jobs owners : List Bytes} {attrs : List (List Attrval)}
    (h : ∀ records accepted, jobRecords njobs jobs owners attrs = .ok records →
      C ⟨destination, ⟨feed, done, records⟩, accepted⟩) :
    Sends C (multiFeed answers feed done njobs destination jobs owners attrs) :=
  sends_attempts (sends_multiFeedWrapped h) _

end Sends

/-- Marking sends nothing. -/
theorem setFed_keeps_sent (sent : List Sent) (feed job : Bytes) :
    Stateful.Keeps (·.sent = sent) (setFed feed job) := by
  intro s h
  unfold setFed
  split
  · split <;> exact h
  · exact h
  · exact h

theorem sends_setFed {C : Sent → Prop} (feed job : Bytes) : Sends C (setFed feed job) := by
  intro s hs
  have hsent := setFed_keeps_sent s.sent feed job s rfl
  exact fun m hm => hs m (hsent ▸ hm)

end JobProvenance
