import JobProvenance.Client.Fault
import JobProvenance.Client.Message
import JobProvenance.Lib.Trace

/-!
# The importers

Daemons that take messages about files from a queue and upload the files to a primary
storage: `dumpImporter` those of the records of jobs, which are registered when the
storage does not know them and are removed here afterwards, and `sandboxImporter` those
of their sandboxes. A message is acknowledged, or left to be tried again.

* `Committed`: an upload was begun, sent and committed, to one destination;
* `dump_committed`: a dump is acknowledged, and its file removed, only when it was
  committed, and an upload is begun twice at most;
* `sandbox_iff`: a sandbox may be sent to a destination that nobody has returned, which
  happens exactly when the upload cannot be begun and the file can be opened.

What the calls return may depend on whatever was done before.
-/

namespace JobProvenance

/-! ## What importers do -/

/-- What an importer does: it takes a message, calls a storage, opens a file and sends it,
    moves it away, and ends with the message. -/
inductive ImportEvent
  | transStart (msg : Bytes)
  | startUpload (server : Bytes) (job : Option Bytes) (cls : Bytes) (destination : Option (Option Bytes))
  | getJobAttributes (server : Bytes) (job : Option Bytes)
  | registerJob (server : Bytes) (job : Option Bytes) (owner : Bytes)
  | openFile (file : Option Bytes) (opened : Bool)
  | putFile (destination : Option Bytes) (sent : Bool)
  | commitUpload (server : Bytes) (destination : Option Bytes) (committed : Bool)
  | moveFile (file : Option Bytes) (store : Bytes)
  | unlinkFile (file : Option Bytes)
  | transEnd (ok : Bool)
  deriving DecidableEq

/-- What is found in a queue of messages. -/
inductive MaildirStart
  | nothing
  | failed
  | message (msg : Bytes)
  deriving DecidableEq

/-- How whatever an importer does ends, after what was done before: looking for a message,
    among those that are tried again or the new ones; calls; opening and sending files.
    There is something in a response also where nothing was written to it. -/
structure ImportOutcomes where
  transStart : Bool → List ImportEvent → MaildirStart
  startUpload : List ImportEvent → SoapReply (Option Bytes)
  getJobAttributes : List ImportEvent → SoapReply Unit
  registerJob : List ImportEvent → SoapReply Unit
  commitUpload : List ImportEvent → SoapReply Unit
  openFile : List ImportEvent → Bool
  putFile : List ImportEvent → Bool
  indeterminate : List ImportEvent → Option Bytes

/-- An importer: the storage it uploads to unless a message names another, where it moves
    the dumps to, and who it is. -/
structure Importer where
  jpps : Bytes
  store : Option Bytes
  credName : Bytes

/-- What an importer goes through. -/
abbrev Importing := Tracing Stop ImportEvent

open Tracing

/-- What may stand in a message. -/
def msgPattern : MsgPattern :=
  [(ascii "jobid", none), (ascii "file", none), (ascii "jpps", none), (ascii "proxy", none)]

/-- The destination a call has returned, if it has succeeded. -/
def SoapReply.returned {α : Type} (reply : SoapReply α) : Option α :=
  if reply.err = .SOAP_OK then some reply.response else none

section Importers

variable (o : ImportOutcomes) (c : Importer)

/-- Takes a message from the queue, a new one or one to be tried again, and what is not
    found in turn from the others. -/
def findMessage (readnew : Bool) : Importing (MaildirStart × Bool) := do
  let found ← ask (o.transStart readnew)
  if found = .nothing then
    let found ← ask (o.transStart !readnew)
    return (found, if found = .nothing then readnew else !readnew)
  else return (found, readnew)

/-- Takes a message, does something about it, and ends with it. -/
def transaction (readnew : Bool) (body : Bytes → Importing ℤ) : Importing (ℤ × Bool) := do
  let (found, readnew) ← findMessage o readnew
  match found with
  | .nothing => return (0, readnew)
  | .failed => return (-1, readnew)
  | .message msg => do
    emit (.transStart msg)
    let ret ← body msg
    emit (.transEnd (ret = 0))
    return (1, readnew)

/-- Sends a file to a destination, and commits the upload. -/
def putAndCommit (server : Bytes) (file destination : Option Bytes) : Importing ℤ := do
  let opened ← ask o.openFile
  emit (.openFile file (file.isSome && opened))
  if (file.isSome && opened) = false then return 1
  else
    let sent ← ask o.putFile
    emit (.putFile destination sent)
    if sent = false then return 1
    else
      let reply ← ask o.commitUpload
      emit (.commitUpload server destination (reply.err = .SOAP_OK))
      clientCheckFault reply.err reply.detail

/-- The class of the dumps. -/
def DUMP_CLASS : Bytes := ascii "urn:org.glite.jp.primary:lb"

/-- The class of the sandboxes. -/
def SANDBOX_CLASS : Bytes := ascii "urn:org.glite.jp.primary:isb"

/-- Begins the upload of a dump; a job that is not known is registered, and the upload
    tried again. The second number is the response, if one was written. -/
def startDump (server : Bytes) (job : Option Bytes) :
    ℕ → Option (Option Bytes) → Importing (ℤ × Option (Option Bytes))
  | 0, su => return (1, su)
  | retry + 1, su => do
    let reply ← ask o.startUpload
    emit (.startUpload server job DUMP_CLASS reply.returned)
    let ret ← clientCheckFault reply.err reply.detail
    if ret = 0 then return (0, some reply.response)
    else
      let reply ← ask o.getJobAttributes
      emit (.getJobAttributes c.jpps job)
      let jperrno ← clientGetErrno reply.err reply.detail
      -- the job is there, so it is something else that has failed
      if jperrno = 0 then return (-1, su)
      else if jperrno ≠ Errno.ENOENT.code ∧ jperrno ≠ -2 then
        let ret ← clientCheckFault reply.err reply.detail
        return (ret, su)
      else
        let reply ← ask o.registerJob
        emit (.registerJob server job c.credName)
        let ret ← clientCheckFault reply.err reply.detail
        if ret ≠ 0 then return (ret, su) else startDump server job retry su

/-- Uploads the dump of a message, and moves it away. -/
def importDump (server : Bytes) (job file : Option Bytes) : Importing ℤ := do
  let (ret, su) ← startDump o c server job 2 none
  if ret ≠ 0 then return ret
  else
    match ← Exec.deref su with
    | none => return 1
    | some destination => do
      let ret ← putAndCommit o server file (some destination)
      if ret ≠ 0 then return ret
      else
        match c.store with
        | some (b :: bs) => emit (.moveFile file (b :: bs))
        | _ => emit (.unlinkFile file)
        return 0

/-- Uploads the sandbox of a message. Whether the upload was begun is not looked at. -/
def importSandbox (server : Bytes) (job file : Option Bytes) : Importing ℤ := do
  let reply ← ask o.startUpload
  emit (.startUpload server job SANDBOX_CLASS reply.returned)
  let _ ← clientCheckFault reply.err reply.detail
  let indeterminate ← ask o.indeterminate
  putAndCommit o server file (reply.returned.getD indeterminate)

/-- Does something about what a message says; there is nothing to be done about one that
    does not parse. -/
def withMessage (upload : Bytes → Option Bytes → Option Bytes → Importing ℤ) (msg : Bytes) :
    Importing ℤ := do
  match ← parseMsg msg msgPattern with
  | none => return 0
  | some (buf, tab) =>
    let server := (msgValue buf tab (ascii "jpps")).getD c.jpps
    upload server (msgValue buf tab (ascii "jobid")) (msgValue buf tab (ascii "file"))

/-- Imports a dump, if there is one. -/
def dumpImporter (readnew : Bool) : Importing (ℤ × Bool) :=
  transaction o readnew (withMessage c (importDump o c))

/-- Imports a sandbox, if there is one. -/
def sandboxImporter (readnew : Bool) : Importing (ℤ × Bool) :=
  transaction o readnew (withMessage c (importSandbox o))

end Importers

/-! ## What may stand in a trace -/

/-- A call that begins an upload. -/
def ImportEvent.isStartUpload : ImportEvent → Bool
  | .startUpload .. => true
  | _ => false

/-- A call that registers a job. -/
def ImportEvent.isRegisterJob : ImportEvent → Bool
  | .registerJob .. => true
  | _ => false

/-- An upload was begun. -/
def ImportEvent.Starts : ImportEvent → Prop
  | .startUpload _ _ _ destination => destination.isSome
  | _ => False

/-- A file is moved away or removed. -/
def ImportEvent.Removes : ImportEvent → Prop
  | .moveFile .. => True
  | .unlinkFile _ => True
  | _ => False

/-- The upload that was begun last was sent to its destination and then committed. -/
def Committed (trace : List ImportEvent) : Prop :=
  ∃ before between sent after server job cls destination,
    trace = before ++ .startUpload server job cls (some destination) :: (between ++
      .putFile destination true :: (sent ++ .commitUpload server destination true :: after)) ∧
    ∀ e ∈ between ++ sent ++ after, ¬e.Starts

/-- The call of an importer: it begins an upload, or prepares for it. -/
def ImportEvent.Calls : ImportEvent → Prop
  | .startUpload .. => True
  | .getJobAttributes .. => True
  | .registerJob .. => True
  | _ => False

section Traces

variable {o : ImportOutcomes} {c : Importer} {server : Bytes} {job file destination : Option Bytes}
  {su : Option (Option Bytes)} {retry : ℕ}

/-- How sending and committing may go: what is returned, and what was done. -/
inductive PutEnds (server : Bytes) (file destination : Option Bytes) :
    Option ℤ → List ImportEvent → Prop
  | notOpened : PutEnds server file destination (some 1) [.openFile file false]
  | notSent : PutEnds server file destination (some 1)
      [.openFile file true, .putFile destination false]
  | notCommitted {ret : Option ℤ} (hret : ret ≠ some 0) : PutEnds server file destination ret
      [.openFile file true, .putFile destination true, .commitUpload server destination false]
  | committed : PutEnds server file destination (some 0)
      [.openFile file true, .putFile destination true, .commitUpload server destination true]

theorem leaves_putAndCommit : Leaves (PutEnds server file destination)
    (putAndCommit o server file destination) := by
  refine Leaves.ask_bind fun t => Leaves.emit_bind ?_
  cases file.isSome && o.openFile t with
  | false => exact Leaves.pure .notOpened
  | true =>
    rw [if_neg (by decide)]
    refine Leaves.ask_bind fun t' => Leaves.emit_bind ?_
    cases o.putFile t' with
    | false => exact Leaves.pure .notSent
    | true =>
      rw [if_neg (by decide)]
      refine Leaves.ask_bind fun t'' => Leaves.emit_bind ?_
      generalize o.commitUpload t'' = reply
      by_cases herr : reply.err = .SOAP_OK
      · have hret : clientCheckFault reply.err reply.detail = .ok 0 := by rw [herr]; rfl
        rw [decide_eq_true herr, hret]
        exact Leaves.pure .committed
      · rw [decide_eq_false herr]
        refine Leaves.liftM (fun ret hret => .notCommitted ?_) fun _ => .notCommitted nofun
        rw [Ne, Option.some_inj, clientCheckFault_eq_ok hret]
        exact herr

/-- How the upload of a dump begins: with calls, not too many of each kind, and when it has
    begun, then with the last of them. -/
structure StartEnds (server : Bytes) (job : Option Bytes) (retry : ℕ)
    (r : Option (ℤ × Option (Option Bytes))) (evs : List ImportEvent) : Prop where
  starts : evs.countP (·.isStartUpload) ≤ retry
  registers : evs.countP (·.isRegisterJob) ≤ retry
  calls : ∀ e ∈ evs, e.Calls
  last : ∀ su, r = some (0, su) → ∃ calls destination, su = some destination ∧
    evs = calls ++ [.startUpload server job DUMP_CLASS (some destination)]

/-- The calls of one attempt. -/
def attemptCalls (server : Bytes) (job : Option Bytes) (c : Importer)
    (returned : Option (Option Bytes)) : List ImportEvent :=
  [.startUpload server job DUMP_CLASS returned, .getJobAttributes c.jpps job,
    .registerJob server job c.credName]

theorem calls_attemptCalls {returned : Option (Option Bytes)} :
    ∀ e ∈ attemptCalls server job c returned, e.Calls := by
  simp [attemptCalls, ImportEvent.Calls]

/-- An attempt that has failed at one of its calls. -/
theorem StartEnds.of_failed {returned : Option (Option Bytes)}
    {r : Option (ℤ × Option (Option Bytes))} (n : ℕ) (hr : ∀ su, r ≠ some (0, su)) :
    StartEnds server job (retry + 1) r ((attemptCalls server job c returned).take n) where
  starts := (List.take_sublist n _).countP_le.trans (Nat.le_add_left 1 retry)
  registers := (List.take_sublist n _).countP_le.trans (Nat.le_add_left 1 retry)
  calls e he := calls_attemptCalls e (List.mem_of_mem_take he)
  last su h := absurd h (hr su)

/-- An attempt after one that has failed. -/
theorem StartEnds.attempt {returned : Option (Option Bytes)}
    {r : Option (ℤ × Option (Option Bytes))} {evs : List ImportEvent}
    (h : StartEnds server job retry r evs) :
    StartEnds server job (retry + 1) r (attemptCalls server job c returned ++ evs) where
  starts := by
    rw [List.countP_append, add_comm]
    exact Nat.add_le_add_right h.starts 1
  registers := by
    rw [List.countP_append, add_comm]
    exact Nat.add_le_add_right h.registers 1
  calls e he := (List.mem_append.1 he).elim (calls_attemptCalls e) (h.calls e)
  last su hr := by
    obtain ⟨calls, destination, hsu, hevs⟩ := h.last su hr
    exact ⟨attemptCalls server job c returned ++ calls, destination, hsu, by
      rw [hevs, List.append_assoc]⟩

theorem leaves_startDump : Leaves (StartEnds server job retry) (startDump o c server job retry su) := by
  induction retry with
  | zero =>
    exact Leaves.pure ⟨le_rfl, le_rfl, fun _ h => absurd h List.not_mem_nil, fun _ h => by cases h⟩
  | succ retry ih =>
    refine Leaves.ask_bind fun t => Leaves.emit_bind ?_
    generalize o.startUpload t = reply
    refine Leaves.liftM_bind (fun ret hret => ?_) fun _ => .of_failed (c := c) 1 nofun
    by_cases hzero : ret = 0
    · rw [if_pos hzero]
      have hreturned : reply.returned = some reply.response :=
        if_pos ((clientCheckFault_eq_ok hret).1 hzero)
      refine Leaves.pure ⟨Nat.le_add_left 1 retry, Nat.zero_le _, ?_, fun su' h => ?_⟩
      · simp [ImportEvent.Calls]
      · obtain rfl : some reply.response = su' := congrArg Prod.snd (Option.some.inj h)
        exact ⟨[], reply.response, rfl, by rw [hreturned]; rfl⟩
    · rw [if_neg hzero]
      refine Leaves.ask_bind fun t' => Leaves.emit_bind ?_
      generalize o.getJobAttributes t' = reply'
      refine Leaves.liftM_bind (fun jperrno hjperrno => ?_) fun _ => .of_failed (c := c) 2 nofun
      by_cases hnone : jperrno = 0
      · rw [if_pos hnone]
        exact Leaves.pure (.of_failed (c := c) 2 fun su h => by cases h)
      · rw [if_neg hnone]
        by_cases hother : jperrno ≠ Errno.ENOENT.code ∧ jperrno ≠ -2
        · rw [if_pos hother]
          refine Leaves.liftM_bind (fun ret' hret' => ?_) fun _ => .of_failed (c := c) 2 nofun
          refine Leaves.pure (.of_failed (c := c) 2 fun su h => ?_)
          obtain rfl : ret' = 0 := congrArg Prod.fst (Option.some.inj h)
          exact clientGetErrno_eq_ok hjperrno hnone ((clientCheckFault_eq_ok hret').1 rfl)
        · rw [if_neg hother]
          refine Leaves.ask_bind fun t'' => Leaves.emit_bind ?_
          generalize o.registerJob t'' = reply''
          refine Leaves.liftM_bind (fun ret' hret' => ?_) fun _ => .of_failed (c := c) 3 nofun
          by_cases hfailed : ret' ≠ 0
          · rw [if_pos hfailed]
            refine Leaves.pure (.of_failed (c := c) 3 fun su h => hfailed ?_)
            exact congrArg Prod.fst (Option.some.inj h)
          · rw [if_neg hfailed]
            exact ih.mono fun r evs h => h.attempt

/-- Neither is a file removed, nor the end of a transaction reached. -/
def ImportEvent.Inner (e : ImportEvent) : Prop := ¬e.Removes ∧ ∀ ok, e ≠ .transEnd ok

theorem ImportEvent.Calls.inner {e : ImportEvent} (h : e.Calls) : e.Inner := by
  cases e <;> simp_all [ImportEvent.Calls, ImportEvent.Inner, ImportEvent.Removes]

theorem PutEnds.inner {r : Option ℤ} {evs : List ImportEvent}
    (h : PutEnds server file destination r evs) : ∀ e ∈ evs, e.Inner := by
  cases h <;> simp [ImportEvent.Inner, ImportEvent.Removes]

theorem PutEnds.countP_eq_zero {r : Option ℤ} {evs : List ImportEvent}
    (h : PutEnds server file destination r evs) :
    evs.countP (·.isStartUpload) = 0 ∧ evs.countP (·.isRegisterJob) = 0 := by
  cases h <;> exact ⟨rfl, rfl⟩

/-- What the import of a dump promises: few calls, and a file that is removed, or what is
    returned to acknowledge the message, after a commit only. -/
structure DumpKept (r : Option ℤ) (evs : List ImportEvent) : Prop where
  starts : evs.countP (·.isStartUpload) ≤ 2
  registers : evs.countP (·.isRegisterJob) ≤ 2
  goesOn : ∀ ok, .transEnd ok ∉ evs
  removes : ∀ before e after, evs = before ++ e :: after → e.Removes → Committed before
  committed : r = some 0 → Committed evs

/-- Where no file is removed, only the return value is left to be seen about. -/
theorem DumpKept.of_inner {r : Option ℤ} {evs : List ImportEvent}
    (hs : evs.countP (·.isStartUpload) ≤ 2) (hr : evs.countP (·.isRegisterJob) ≤ 2)
    (hinner : ∀ e ∈ evs, e.Inner) (h : r = some 0 → Committed evs) : DumpKept r evs where
  starts := hs
  registers := hr
  goesOn ok hok := (hinner _ hok).2 ok rfl
  removes before e after hevs he :=
    absurd he (hinner e (by rw [hevs]; exact List.mem_append_right _ List.mem_cons_self)).1
  committed := h

/-- What was committed is, whatever follows that begins no upload. -/
theorem Committed.append {trace evs : List ImportEvent} (h : Committed trace)
    (hevs : ∀ e ∈ evs, ¬e.Starts) : Committed (trace ++ evs) := by
  obtain ⟨before, between, sent, after, server, job, cls, destination, rfl, hno⟩ := h
  refine ⟨before, between, sent, after ++ evs, server, job, cls, destination, by simp, ?_⟩
  intro e he
  rw [← List.append_assoc] at he
  exact (List.mem_append.1 he).elim (hno e) (hevs e)

theorem Committed.cons {trace : List ImportEvent} (h : Committed trace) (e : ImportEvent) :
    Committed (e :: trace) := by
  obtain ⟨before, between, sent, after, server, job, cls, destination, rfl, hno⟩ := h
  exact ⟨e :: before, between, sent, after, server, job, cls, destination, rfl, hno⟩

/-- Only the last of some events removes a file. -/
theorem eq_of_removes {evs before after : List ImportEvent} {x e : ImportEvent}
    (hinner : ∀ e ∈ evs, e.Inner) (hevs : evs ++ [x] = before ++ e :: after) (he : e.Removes) :
    before = evs := by
  rcases List.eq_nil_or_concat after with rfl | ⟨after, y, rfl⟩
  · exact (List.append_inj' hevs rfl).1.symm
  · rw [List.concat_eq_append, ← List.cons_append, ← List.append_assoc] at hevs
    obtain ⟨rfl, -⟩ := List.append_inj' hevs rfl
    exact absurd he (hinner e (List.mem_append_right _ List.mem_cons_self)).1

/-- A file is removed behind a commit. -/
theorem DumpKept.concat {evs : List ImportEvent} (h : DumpKept (some 0) evs)
    (hinner : ∀ e ∈ evs, e.Inner) {x : ImportEvent} (hx : x.Removes) :
    DumpKept (some 0) (evs ++ [x]) := by
  have hlast : x.isStartUpload = false ∧ x.isRegisterJob = false ∧ ¬x.Starts ∧
      ∀ ok, x ≠ .transEnd ok := by
    cases x <;> simp_all [ImportEvent.Removes, ImportEvent.isStartUpload, ImportEvent.isRegisterJob,
      ImportEvent.Starts]
  refine ⟨?_, ?_, fun ok hok => ?_, fun before e after hevs he => ?_, fun _ => ?_⟩
  · rw [List.countP_append, List.countP_singleton, hlast.1]
    exact h.starts
  · rw [List.countP_append, List.countP_singleton, hlast.2.1]
    exact h.registers
  · exact (List.mem_append.1 hok).elim (h.goesOn ok)
      fun hok => hlast.2.2.2 ok (List.mem_singleton.1 hok).symm
  · rw [eq_of_removes hinner hevs he]
    exact h.committed rfl
  · exact (h.committed rfl).append fun e he => List.mem_singleton.1 he ▸ hlast.2.2.1

/-- What begins an upload, and sends and commits it, keeps the promise. -/
theorem DumpKept.of_ends {r' : Option (ℤ × Option (Option Bytes))} {r : Option ℤ}
    {evs evs' calls : List ImportEvent} (hstart : StartEnds server job 2 r' evs)
    (hlast : evs = calls ++ [.startUpload server job DUMP_CLASS (some destination)])
    (hput : PutEnds server file destination r evs') :
    DumpKept r (evs ++ evs') ∧ ∀ e ∈ evs ++ evs', e.Inner := by
  have hinner : ∀ e ∈ evs ++ evs', e.Inner := by
    intro e he
    rcases List.mem_append.1 he with he | he
    · exact (hstart.calls e he).inner
    · exact hput.inner e he
  refine ⟨.of_inner ?_ ?_ hinner fun hr => ?_, hinner⟩
  · rw [List.countP_append, hput.countP_eq_zero.1]
    exact hstart.starts
  · rw [List.countP_append, hput.countP_eq_zero.2]
    exact hstart.registers
  · cases hput with
    | notOpened => cases hr
    | notSent => cases hr
    | notCommitted hret => exact absurd hr hret
    | committed =>
      refine ⟨calls, [.openFile file true], [], [], server, job, DUMP_CLASS, destination, ?_, ?_⟩
      · rw [hlast, List.append_assoc]
        rfl
      · simp [ImportEvent.Starts]

theorem leaves_importDump : Leaves DumpKept (importDump o c server job file) := by
  have hcalls : ∀ {r evs}, r ≠ some 0 → (∃ r', StartEnds server job 2 r' evs) → DumpKept r evs := by
    rintro r evs hr ⟨r', hstart⟩
    exact .of_inner hstart.starts hstart.registers (fun e he => (hstart.calls e he).inner)
      fun h => absurd h hr
  refine Leaves.bind leaves_startDump (fun a evs hstart => ?_) fun evs hstart => ?_
  · obtain ⟨ret, su⟩ := a
    dsimp only
    by_cases hret : ret = 0
    · rw [if_neg (not_not.2 hret)]
      obtain ⟨calls, destination, rfl, hlast⟩ := hstart.last su (by rw [hret])
      refine Leaves.liftM_bind (fun destination' h => ?_) fun _ => hcalls nofun ⟨_, by simpa using hstart⟩
      obtain rfl : destination = destination' := Option.some.inj (Exec.deref_eq_ok.1 h)
      cases destination with
      | none => exact Leaves.pure (hcalls (by decide) ⟨_, by simpa using hstart⟩)
      | some destination =>
        refine Leaves.bind leaves_putAndCommit (fun ret' evs' hput => ?_) fun evs' hput => ?_
        · obtain ⟨hkept, hinner⟩ := DumpKept.of_ends hstart hlast hput
          by_cases hret' : ret' = 0
          · rw [if_neg (not_not.2 hret')]
            rw [hret'] at hkept
            have hmoved : ∀ e : ImportEvent, e.Removes → DumpKept (some 0) (evs ++ (evs' ++ [e])) := by
              intro e he
              rw [← List.append_assoc]
              exact hkept.concat hinner he
            split
            · exact Leaves.emit_bind (Leaves.pure (hmoved _ trivial))
            · exact Leaves.emit_bind (Leaves.pure (hmoved _ trivial))
          · rw [if_pos hret']
            exact Leaves.pure (by rw [List.append_nil]; exact hkept)
        · exact (DumpKept.of_ends hstart hlast hput).1
    · rw [if_pos hret]
      refine Leaves.pure (hcalls ?_ ⟨_, by simpa using hstart⟩)
      rw [Ne, Option.some_inj]
      exact hret
  · exact hcalls nofun ⟨_, hstart⟩

/-! ## Transactions -/

/-- What a transaction does, when what is done about a message is known. -/
def TransEnds (Q : Bytes → Option ℤ → List ImportEvent → Prop) (evs : List ImportEvent) : Prop :=
  evs = [] ∨ ∃ msg ret done, Q msg ret done ∧
    evs = .transStart msg :: (done ++ (ret.map fun ret => .transEnd (decide (ret = 0))).toList)

/-- A transaction takes a message, if there is one, does something about it, and ends with
    it, unless this leaves the language. -/
theorem leaves_transaction {Q : Bytes → Option ℤ → List ImportEvent → Prop}
    {body : Bytes → Importing ℤ} {readnew : Bool} (hbody : ∀ msg, Leaves (Q msg) (body msg)) :
    Leaves (fun _ => TransEnds Q) (transaction o readnew body) := by
  have hfind : Leaves (fun r evs => r.isSome ∧ evs = []) (findMessage o readnew) := by
    refine Leaves.ask_bind fun t => ?_
    split
    · exact Leaves.ask_bind fun t' => Leaves.pure ⟨rfl, rfl⟩
    · exact Leaves.pure ⟨rfl, rfl⟩
  refine Leaves.bind hfind (fun a evs h => ?_) fun _ h => absurd h.1 Bool.false_ne_true
  obtain ⟨found, readnew⟩ := a
  rw [h.2]
  cases found with
  | nothing => exact Leaves.pure (.inl rfl)
  | failed => exact Leaves.pure (.inl rfl)
  | message msg =>
    refine Leaves.emit_bind (Leaves.bind (hbody msg) (fun ret done hQ => ?_) fun done hQ => ?_)
    · exact Leaves.emit_bind (Leaves.pure (.inr ⟨msg, some ret, done, hQ, rfl⟩))
    · exact .inr ⟨msg, none, done, hQ, by simp⟩

/-- A message is parsed first. -/
theorem leaves_withMessage {Q : Option ℤ → List ImportEvent → Prop}
    {upload : Bytes → Option Bytes → Option Bytes → Importing ℤ}
    (hupload : ∀ server job file, Leaves Q (upload server job file)) (msg : Bytes) :
    Leaves (fun r evs => parseMsg msg msgPattern = .ok none ∧ r = some 0 ∧ evs = [] ∨
      (∃ e, parseMsg msg msgPattern = .error e) ∧ r = none ∧ evs = [] ∨
      (∃ found, parseMsg msg msgPattern = .ok (some found)) ∧ Q r evs) (withMessage c upload msg) := by
  refine Leaves.liftM_bind (fun found hfound => ?_) fun h => .inr (.inl ⟨h, rfl, rfl⟩)
  cases found with
  | none => exact Leaves.pure (.inl ⟨hfound, rfl, rfl⟩)
  | some found => exact (hupload _ _ _).mono fun r evs h => .inr (.inr ⟨⟨found, hfound⟩, h⟩)

/-- What a transaction that keeps the promise does: it may have ended with the message, too. -/
theorem DumpKept.trans {r ret : Option ℤ} {done trace : List ImportEvent} {msg : Bytes}
    (h : DumpKept r done) (htrace : trace = .transStart msg ::
      (done ++ (ret.map fun ret => .transEnd (decide (ret = 0))).toList)) :
    (.transEnd true ∈ trace → ret = some 0) ∧ (r = some 0 → Committed trace) ∧
    (∀ before e after, trace = before ++ e :: after → e.Removes → Committed before) ∧
    trace.countP (·.isStartUpload) ≤ 2 ∧ trace.countP (·.isRegisterJob) ≤ 2 := by
  obtain ⟨last, hlast⟩ : ∃ last : List ImportEvent, last =
      (ret.map fun ret => .transEnd (decide (ret = 0))).toList := ⟨_, rfl⟩
  have hends : ∀ e ∈ last, ∃ ok, e = .transEnd ok ∧ (ok = true → ret = some 0) := by
    intro e he
    rw [hlast, Option.mem_toList] at he
    obtain ⟨ret', hret', rfl⟩ := Option.map_eq_some_iff.1 he
    exact ⟨_, rfl, fun hok => by rw [hret', of_decide_eq_true hok]⟩
  have hcount : last.countP (·.isStartUpload) = 0 ∧ last.countP (·.isRegisterJob) = 0 := by
    constructor <;>
    · refine List.countP_eq_zero.2 fun e he => ?_
      obtain ⟨ok, rfl, -⟩ := hends e he
      exact Bool.false_ne_true
  rw [← hlast] at htrace
  subst htrace
  refine ⟨fun hok => ?_, fun hr => ?_, fun before e after hevs he => ?_, ?_, ?_⟩
  · rcases List.mem_cons.1 hok with hok | hok
    · cases hok
    · rcases List.mem_append.1 hok with hok | hok
      · exact absurd hok (h.goesOn true)
      · obtain ⟨ok, hok, hret⟩ := hends _ hok
        exact hret (ImportEvent.transEnd.inj hok).symm
  · refine ((h.committed hr).append fun e he => ?_).cons _
    obtain ⟨ok, rfl, -⟩ := hends e he
    exact id
  · have hnot : e ∉ last := fun hmem => by
      obtain ⟨ok, rfl, -⟩ := hends e hmem
      exact he
    cases before with
    | nil =>
      cases hevs
      exact he.elim
    | cons b before =>
      obtain ⟨rfl, hdone'⟩ := List.cons.inj hevs
      rcases List.append_eq_append_iff.1 hdone' with ⟨rest, -, hrest⟩ | ⟨rest, hdone, hrest⟩
      · exact absurd (by rw [hrest]; exact List.mem_append_right _ List.mem_cons_self) hnot
      · cases rest with
        | nil => exact absurd (by rw [← List.nil_append last, ← hrest]; exact List.mem_cons_self) hnot
        | cons x rest =>
          obtain ⟨rfl, -⟩ := List.cons.inj hrest
          exact (h.removes before e rest hdone he).cons _
  · rw [List.countP_cons_of_neg Bool.false_ne_true, List.countP_append, hcount.1]
    exact h.starts
  · rw [List.countP_cons_of_neg Bool.false_ne_true, List.countP_append, hcount.2]
    exact h.registers

/-- Whatever the calls return, a message that parses is acknowledged, and the file of a
    dump removed, only when the upload that was begun last was sent and committed, and no
    more than two uploads are begun and jobs registered. -/
theorem dump_committed (o : ImportOutcomes) (c : Importer) (readnew : Bool) :
    (.transEnd true ∈ Stateful.left (dumpImporter o c readnew []) →
      (∃ msg, .transStart msg ∈ Stateful.left (dumpImporter o c readnew []) ∧
        parseMsg msg msgPattern = .ok none) ∨
      Committed (Stateful.left (dumpImporter o c readnew []))) ∧
    (∀ before e after, Stateful.left (dumpImporter o c readnew []) = before ++ e :: after →
      e.Removes → Committed before) ∧
    (Stateful.left (dumpImporter o c readnew [])).countP (·.isStartUpload) ≤ 2 ∧
    (Stateful.left (dumpImporter o c readnew [])).countP (·.isRegisterJob) ≤ 2 := by
  obtain ⟨r, evs, hleft, h⟩ := (@leaves_transaction o _ _ readnew
    (leaves_withMessage (c := c) fun server job file =>
      leaves_importDump (o := o))).exists_left []
  rw [dumpImporter, hleft, List.nil_append]
  rcases h with rfl | ⟨msg, ret, done, h, htrace⟩
  · exact ⟨fun h => absurd h List.not_mem_nil, fun _ _ _ h => by simp at h, Nat.zero_le _, Nat.zero_le _⟩
  · have hnil : DumpKept none [] := .of_inner (Nat.zero_le _) (Nat.zero_le _)
      (fun _ h => absurd h List.not_mem_nil) nofun
    rcases h with ⟨hparse, rfl, rfl⟩ | ⟨-, rfl, rfl⟩ | ⟨-, h⟩
    · obtain ⟨-, -, hrest⟩ := hnil.trans htrace
      exact ⟨fun _ => .inl ⟨msg, by rw [htrace]; exact List.mem_cons_self, hparse⟩, hrest⟩
    · obtain ⟨hret, -, hrest⟩ := hnil.trans htrace
      exact ⟨fun hok => absurd (hret hok) nofun, hrest⟩
    · obtain ⟨hret, hcommitted, hrest⟩ := h.trans htrace
      exact ⟨fun hok => .inr (hcommitted (hret hok)), hrest⟩

end Traces

/-! ## Sandboxes -/

/-- Files are sent to destinations only that were returned before, and only such uploads
    are committed. -/
def OnlyReturned (returned : List (Option Bytes)) : List ImportEvent → Prop
  | [] => True
  | .startUpload _ _ _ (some destination) :: trace => OnlyReturned (destination :: returned) trace
  | .putFile destination _ :: trace => destination ∈ returned ∧ OnlyReturned returned trace
  | .commitUpload _ destination _ :: trace => destination ∈ returned ∧ OnlyReturned returned trace
  | _ :: trace => OnlyReturned returned trace

/-- The upload protocol is followed, and a message that parses acknowledged after a commit
    only. -/
def UploadKept (trace : List ImportEvent) : Prop :=
  OnlyReturned [] trace ∧ (.transEnd true ∈ trace →
    (∃ msg, .transStart msg ∈ trace ∧ parseMsg msg msgPattern = .ok none) ∨ Committed trace)

section Sandbox

variable (o : ImportOutcomes) (c : Importer)

/-- The message a transaction finds. -/
def foundMessage (readnew : Bool) : MaildirStart :=
  if o.transStart readnew [] = .nothing then o.transStart (!readnew) [] else o.transStart readnew []

/-- When a sandbox is imported, either its upload is begun, or it is seen no more of it: the
    client ends at the fault, or the file cannot be opened. -/
def BeginsOrStops (msg server : Bytes) (job file : Option Bytes) : Prop :=
  let reply := o.startUpload [.transStart msg]
  reply.err = .SOAP_OK ∨ (∃ e, clientCheckFault reply.err reply.detail = .error e) ∨
    (file.isSome && o.openFile [.transStart msg,
      .startUpload server job SANDBOX_CLASS reply.returned]) = false

variable {o c} {server : Bytes} {job file destination : Option Bytes} {msg : Bytes}

/-- What a transaction leaves, by what is done about the message it finds. -/
theorem left_transaction {readnew : Bool} {body : Bytes → Importing ℤ} :
    Stateful.left (transaction o readnew body []) = match foundMessage o readnew with
      | .message msg =>
        match body msg [.transStart msg] with
        | .ok ret t => t ++ [.transEnd (ret = 0)]
        | .error _ t => t
      | _ => [] := by
  have hfind : ∃ b, findMessage o readnew [] = .ok (foundMessage o readnew, b) [] := by
    rw [findMessage, foundMessage, ask_bind_apply]
    split
    · exact ⟨_, rfl⟩
    · exact ⟨_, rfl⟩
  obtain ⟨b, hb⟩ := hfind
  rw [transaction, Stateful.bind_of_ok hb]
  cases foundMessage o readnew with
  | nothing => rfl
  | failed => rfl
  | message msg =>
    dsimp only
    rw [emit_bind_apply, List.nil_append, Stateful.bind_eq]
    cases body msg [.transStart msg] <;> rfl

/-- A file that is opened is sent. -/
theorem putAndCommit_opened {t : List ImportEvent} (h : (file.isSome && o.openFile t) = true) :
    ∃ sent rest, Stateful.left (putAndCommit o server file destination t) =
      t ++ .openFile file true :: .putFile destination sent :: rest := by
  rw [putAndCommit, ask_bind_apply, h, emit_bind_apply, if_neg (by decide), ask_bind_apply,
    emit_bind_apply]
  cases o.putFile (t ++ [.openFile file true]) with
  | false => exact ⟨false, [], by simp⟩
  | true =>
    rw [if_neg (by decide), ask_bind_apply, emit_bind_apply]
    generalize o.commitUpload _ = reply
    refine ⟨true, [.commitUpload server destination (reply.err = .SOAP_OK)], ?_⟩
    cases clientCheckFault reply.err reply.detail <;> simp

theorem putAndCommit_notOpened {t : List ImportEvent} (h : (file.isSome && o.openFile t) = false) :
    putAndCommit o server file destination t = .ok 1 (t ++ [.openFile file false]) := by
  rw [putAndCommit, ask_bind_apply, h, emit_bind_apply]
  rfl

/-- What the import of a sandbox is after the call that begins it. -/
theorem importSandbox_apply : importSandbox o server job file [.transStart msg] =
    let reply := o.startUpload [.transStart msg]
    let t := [.transStart msg, .startUpload server job SANDBOX_CLASS reply.returned]
    match clientCheckFault reply.err reply.detail with
    | .ok _ => putAndCommit o server file (reply.returned.getD (o.indeterminate t)) t
    | .error e => .error e t := by
  rw [importSandbox, ask_bind_apply, emit_bind_apply, Stateful.liftM_bind]
  dsimp only
  cases clientCheckFault _ _ <;> rfl

/-- A sandbox that is sent to the destination that was returned for it follows the protocol. -/
theorem uploadKept_putAndCommit :
    UploadKept (match putAndCommit o server file destination
        [.transStart msg, .startUpload server job SANDBOX_CLASS (some destination)] with
      | .ok ret t => t ++ [.transEnd (ret = 0)]
      | .error _ t => t) := by
  rcases @leaves_putAndCommit o server file destination
      [.transStart msg, .startUpload server job SANDBOX_CLASS (some destination)] with
    ⟨ret, evs, hput, hends⟩ | ⟨e, evs, hput, hends⟩
  · rw [hput]
    dsimp only
    cases hends with
    | notOpened => exact ⟨trivial, fun h => by simp at h⟩
    | notSent => exact ⟨⟨List.mem_singleton_self _, trivial⟩, fun h => by simp at h⟩
    | notCommitted hret =>
      refine ⟨⟨List.mem_singleton_self _, List.mem_singleton_self _, trivial⟩, fun h => ?_⟩
      have hzero : ret = 0 := by simpa using h
      exact absurd (congrArg some hzero) hret
    | committed =>
      refine ⟨⟨List.mem_singleton_self _, List.mem_singleton_self _, trivial⟩, fun _ => .inr ?_⟩
      exact ⟨[.transStart msg], [.openFile file true], [], [.transEnd true], server, job,
        SANDBOX_CLASS, destination, rfl, by simp [ImportEvent.Starts]⟩
  · rw [hput]
    dsimp only
    cases hends with
    | notCommitted =>
      exact ⟨⟨List.mem_singleton_self _, List.mem_singleton_self _, trivial⟩, fun h => by simp at h⟩

/-- A file that can be opened is sent, also when no destination was returned for it. -/
theorem not_uploadKept_putAndCommit (hopen : (file.isSome && o.openFile
      [.transStart msg, .startUpload server job SANDBOX_CLASS none]) = true) :
    ¬UploadKept (match putAndCommit o server file destination
        [.transStart msg, .startUpload server job SANDBOX_CLASS none] with
      | .ok ret t => t ++ [.transEnd (ret = 0)]
      | .error _ t => t) := by
  intro h
  obtain ⟨sent, rest, hleft⟩ := @putAndCommit_opened o server file destination _ hopen
  have htrace : ∀ last, OnlyReturned [] ([.transStart msg,
      .startUpload server job SANDBOX_CLASS none] ++ .openFile file true ::
        .putFile destination sent :: rest ++ last) → False :=
    fun last hlast => List.not_mem_nil hlast.1
  cases hput : putAndCommit o server file destination
      [.transStart msg, .startUpload server job SANDBOX_CLASS none] with
  | ok ret t =>
    rw [hput] at h hleft
    rw [Stateful.left_ok] at hleft
    rw [hleft] at h
    exact htrace _ h.1
  | error e t =>
    rw [hput] at h hleft
    rw [Stateful.left_error] at hleft
    rw [hleft] at h
    exact htrace [] (by rw [List.append_nil]; exact h.1)

/-- The import of a sandbox follows the protocol exactly when it begins the upload or stops. -/
theorem uploadKept_importSandbox :
    UploadKept (match importSandbox o server job file [.transStart msg] with
      | .ok ret t => t ++ [.transEnd (ret = 0)]
      | .error _ t => t) ↔ BeginsOrStops o msg server job file := by
  rw [importSandbox_apply, BeginsOrStops]
  dsimp only
  generalize o.startUpload [.transStart msg] = reply
  cases hcheck : clientCheckFault reply.err reply.detail with
  | error e =>
    refine iff_of_true ⟨?_, fun h => ?_⟩ (.inr (.inl ⟨e, rfl⟩))
    · cases reply.returned <;> trivial
    · simp at h
  | ok ret =>
    dsimp only
    cases hopen : file.isSome && o.openFile
        [.transStart msg, .startUpload server job SANDBOX_CLASS reply.returned] with
    | false =>
      rw [putAndCommit_notOpened hopen]
      refine iff_of_true ⟨?_, fun h => ?_⟩ (.inr (.inr rfl))
      · cases reply.returned <;> trivial
      · simp at h
    | true =>
      by_cases herr : reply.err = .SOAP_OK
      · have hreturned : reply.returned = some reply.response := if_pos herr
        rw [hreturned]
        exact iff_of_true uploadKept_putAndCommit (.inl herr)
      · -- the fault is taken for a success, and there is no destination
        have hreturned : reply.returned = none := if_neg herr
        rw [hreturned] at hopen ⊢
        refine iff_of_false (not_uploadKept_putAndCommit hopen) ?_
        rintro (hok | ⟨e, he⟩ | hno)
        · exact herr hok
        · cases he
        · cases hno

/-- The import of sandboxes follows the upload protocol exactly when for each message that
    parses the upload is begun, or the client ends, or the file cannot be opened. -/
theorem sandbox_iff (o : ImportOutcomes) (c : Importer) (readnew : Bool) :
    UploadKept (Stateful.left (sandboxImporter o c readnew [])) ↔
      ∀ msg, foundMessage o readnew = .message msg →
        ∀ buf tab, parseMsg msg msgPattern = .ok (some (buf, tab)) →
          BeginsOrStops o msg ((msgValue buf tab (ascii "jpps")).getD c.jpps)
            (msgValue buf tab (ascii "jobid")) (msgValue buf tab (ascii "file")) := by
  rw [sandboxImporter, left_transaction]
  cases foundMessage o readnew with
  | nothing => exact iff_of_true ⟨trivial, fun h => absurd h List.not_mem_nil⟩ nofun
  | failed => exact iff_of_true ⟨trivial, fun h => absurd h List.not_mem_nil⟩ nofun
  | message msg =>
    dsimp only
    rw [withMessage, Stateful.liftM_bind]
    cases hparse : parseMsg msg msgPattern with
    | error e =>
      refine iff_of_true ⟨trivial, fun h => by simp at h⟩ ?_
      rintro _ ⟨rfl⟩ _ _ h
      rw [hparse] at h
      cases h
    | ok found =>
      cases found with
      | none =>
        refine iff_of_true ⟨trivial, fun _ => .inl ⟨msg, List.mem_cons_self, hparse⟩⟩ ?_
        rintro _ ⟨rfl⟩ _ _ h
        rw [hparse] at h
        cases h
      | some found =>
        obtain ⟨buf, tab⟩ := found
        refine uploadKept_importSandbox.trans ⟨?_, fun h => h msg rfl buf tab hparse⟩
        rintro h _ ⟨rfl⟩ _ _ h'
        rw [hparse] at h'
        cases h'
        exact h

end Sandbox

/-! ## A sandbox that goes astray -/

/-- The storage cannot be reached, and what is in the response is left over from before. -/
def unreachable : ImportOutcomes where
  transStart _ _ := .message (ascii "file sandbox.tar")
  startUpload _ := ⟨.other, none, none⟩
  getJobAttributes _ := ⟨.other, none, ()⟩
  registerJob _ := ⟨.other, none, ()⟩
  commitUpload _ := ⟨.SOAP_OK, none, ()⟩
  openFile _ := true
  putFile _ := true
  indeterminate _ := some (ascii "gsiftp://jpps/old")

def sampleImporter : Importer := ⟨ascii "https://jpps", none, ascii "/CN=importer"⟩

/-- The sandbox is sent to a destination that was returned for another one, and the message
    acknowledged. -/
theorem not_uploadKept_unreachable :
    .transEnd true ∈ Stateful.left (sandboxImporter unreachable sampleImporter true []) ∧
      ¬UploadKept (Stateful.left (sandboxImporter unreachable sampleImporter true [])) := by
  have htrace : Stateful.left (sandboxImporter unreachable sampleImporter true []) =
      [.transStart (ascii "file sandbox.tar"),
        .startUpload (ascii "https://jpps") none SANDBOX_CLASS none,
        .openFile (some (ascii "sandbox.tar")) true, .putFile (some (ascii "gsiftp://jpps/old")) true,
        .commitUpload (ascii "https://jpps") (some (ascii "gsiftp://jpps/old")) true,
        .transEnd true] := by
    decide +kernel
  rw [htrace]
  exact ⟨by simp, fun h => List.not_mem_nil h.1.1⟩

end JobProvenance
