import JobProvenance.Client.Importer
import JobProvenance.Primary.Provenance

/-!
# Registrations by way of a queue

Jobs are registered by messages in a queue as well: slaves of a daemon take the messages,
each a job and its owner, and call the primary storage (`regImporter`). A message is
acknowledged, which removes it from the queue, or left to be tried again. A slave ends with
every five hundred messages and whenever the queue cannot be read; the daemon starts
another one in its place.

* `daemonStep`: one step of the daemon and the storage: a call of an importer is served like
  any other request, and its answer may be lost;
* `registered_of_acknowledged`: whatever is lost, and whoever ends when, a job is registered
  when the message about it is acknowledged, and from then on, unless there is no newline in
  the message.
-/

namespace JobProvenance

open Tracing

/-! ## The importer -/

section Importer

variable (o : ImportOutcomes) (c : Importer)

/-- The job and the owner of a message: what is in front of the first newline, and behind
    it. -/
def splitRegistration (msg : Bytes) : Option (Bytes × Bytes) :=
  (afterFirst (ch '\n') msg).map fun owner => (msg.takeWhile (· ≠ ch '\n'), owner)

/-- Registers the job of a message; there is nothing to be done about one without a newline. -/
def importRegistration (msg : Bytes) : Importing ℤ :=
  match splitRegistration msg with
  | none => return 0
  | some (job, owner) => do
    let reply ← Tracing.ask o.registerJob
    emit (.registerJob c.jpps (some job) owner)
    clientCheckFault reply.err reply.detail

/-- Registers a job, if there is a message. -/
def regImporter (readnew : Bool) : Importing (ℤ × Bool) :=
  transaction o readnew (importRegistration o c)

end Importer

/-! ## Slaves -/

/-- How many messages a slave handles. -/
def MAX_REG_CONNS : ℕ := 500

/-- A slave of the daemon: whether it looks for new messages first, and how many it has
    handled. -/
structure ImportSlave where
  readnew : Bool
  connCnt : ℕ
  deriving DecidableEq

/-- What a slave is when its importer has returned: with a message it has handled it ends
    when it was the last one; it waits when there was none, and ends when it has failed. -/
def ImportSlave.next (s : ImportSlave) (ret : ℤ) (readnew : Bool) : Option ImportSlave :=
  if 0 < ret then
    if s.connCnt + 1 < MAX_REG_CONNS then some ⟨readnew, s.connCnt + 1⟩ else none
  else if ret < 0 then none
  else some ⟨readnew, s.connCnt⟩

/-- What a slave is when it has called its importer, which it may not outlive. -/
def ImportSlave.after (s : ImportSlave) :
    EStateM.Result Stop (List ImportEvent) (ℤ × Bool) → Option ImportSlave
  | .ok (ret, readnew) _ => s.next ret readnew
  | .error _ _ => none

/-! ## The daemon and the storage -/

/-- The storage, the slaves of the daemon, and the messages that were acknowledged. -/
structure DaemonState where
  server : ServerState
  slaves : ℕ → Option ImportSlave
  acknowledged : List Bytes

/-- A step: of the storage, or of a slave, which starts, ends, or calls its importer. What the
    importer asks of the storage is served by a slave of it at some time, if it gets there. -/
inductive DaemonAction
  | server (a : ServerAction)
  | fork (p : ℕ)
  | exit (p : ℕ)
  | importer (p : ℕ) (o : ImportOutcomes) (call : Option (ℕ × ℤ))

/-- The registration that is asked for. -/
def askedFor (trace : List ImportEvent) : Option (Bytes × Bytes) :=
  trace.findSome? fun
    | .registerJob _ (some job) owner => some (job, owner)
    | _ => none

/-- The messages of a trace that were acknowledged. -/
def acknowledgedIn (trace : List ImportEvent) : List Bytes :=
  if .transEnd true ∈ trace then trace.filterMap fun
    | .transStart msg => some msg
    | _ => none
  else []

section Daemon

variable {H : Type} (env : Env) (plugins : List (FilePlugin H)) (ctx : PsContext) (c : Importer)

/-- Whether a slave of the storage serves a registration. -/
def ServerState.registers (s : ServerState) (i : ℕ) (now : ℤ) (job owner : Bytes) : Bool :=
  match s.slaves i with
  | some ⟨feeds, _, false⟩ =>
    match (ServerRequest.registerJob ctx job owner).serve env feeds now s.ps with
    | .ok (some _) _ => true
    | _ => false
  | _ => false

/-- The storage when it was asked for a registration, if the answer may be the one that
    arrives: success is told only of one that was served. -/
def callStorage (s : ServerState) (call : Option (ℕ × ℤ)) (succeeds : Bool) (job owner : Bytes) :
    Option ServerState :=
  match call with
  | none => if succeeds then none else some s
  | some (i, now) =>
    if succeeds && !s.registers env ctx i now job owner then none
    else serverStep env plugins s (.request i now (.registerJob ctx job owner))

/-- The storage behind what an importer has done. -/
def askStorage (s : ServerState) (o : ImportOutcomes) (call : Option (ℕ × ℤ))
    (trace : List ImportEvent) : Option ServerState :=
  match askedFor trace with
  | none => some s
  | some (job, owner) =>
    callStorage env plugins ctx s call ((o.registerJob (trace.take 1)).err = .SOAP_OK) job owner

/-- The step of an action, if it can be taken. -/
def daemonStep (s : DaemonState) : DaemonAction → Option DaemonState
  | .server a => do
    let server ← serverStep env plugins s.server a
    return { s with server }
  | .fork p =>
    if s.slaves p = none then
      some { s with slaves := Function.update s.slaves p (some ⟨true, 0⟩) }
    else none
  | .exit p => some { s with slaves := Function.update s.slaves p none }
  | .importer p o call => do
    let slave ← s.slaves p
    let r := regImporter o c slave.readnew []
    let server ← askStorage env plugins ctx s.server o call (Stateful.left r)
    return {
      server
      slaves := Function.update s.slaves p (slave.after r)
      acknowledged := s.acknowledged ++ acknowledgedIn (Stateful.left r) }

/-- A storage with empty tables, and a daemon that has no slaves yet. -/
def daemonSystem : System DaemonState DaemonAction where
  init s := s.server.ps.tables = ⟨.empty, .empty, .empty⟩ ∧ (∀ i, s.server.slaves i = none) ∧
    (∀ p, s.slaves p = none) ∧ s.acknowledged = []
  step s a t := daemonStep env plugins ctx c s a = some t

end Daemon

/-! ## What the importer does -/

/-- How an importer goes: there is no message, or one that is of no use, or a job is asked to be
    registered and the message acknowledged exactly when this succeeds. -/
inductive RegEnds (o : ImportOutcomes) (jpps : Bytes) : List ImportEvent → Prop
  | nothing : RegEnds o jpps []
  | malformed {msg : Bytes} : splitRegistration msg = none →
      RegEnds o jpps [.transStart msg, .transEnd true]
  | registers {msg job owner : Bytes} : splitRegistration msg = some (job, owner) →
      RegEnds o jpps [.transStart msg, .registerJob jpps (some job) owner,
        .transEnd ((o.registerJob [.transStart msg]).err = .SOAP_OK)]
  | breaks {msg job owner : Bytes} : splitRegistration msg = some (job, owner) →
      RegEnds o jpps [.transStart msg, .registerJob jpps (some job) owner]

theorem regEnds (o : ImportOutcomes) (c : Importer) (readnew : Bool) :
    RegEnds o c.jpps (Stateful.left (regImporter o c readnew [])) := by
  rw [regImporter, left_transaction]
  cases foundMessage o readnew with
  | nothing => exact .nothing
  | failed => exact .nothing
  | message msg =>
    dsimp only
    cases hsplit : splitRegistration msg with
    | none =>
      rw [importRegistration, hsplit]
      exact .malformed hsplit
    | some r =>
      obtain ⟨job, owner⟩ := r
      rw [importRegistration, hsplit]
      dsimp only
      rw [ask_bind_apply, emit_bind_apply]
      cases hcheck : clientCheckFault (o.registerJob [.transStart msg]).err
          (o.registerJob [.transStart msg]).detail with
      | ok ret =>
        have hends : RegEnds o c.jpps _ := .registers hsplit
        rwa [← decide_eq_decide.2 (clientCheckFault_eq_ok hcheck)] at hends
      | error e => exact .breaks hsplit

/-! ## What the storage does -/

section Storage

variable {H : Type} {env : Env} {plugins : List (FilePlugin H)} {ctx : PsContext} {c : Importer}
  {s t : ServerState} {job owner : Bytes}

/-- A job is registered for an owner, as far as its hash tells. -/
def RegisteredBy (md5 : Bytes → Bytes) (t : Tables) (job owner : Bytes) : Prop :=
  ∃ o regTime, JobInfoIs t job o regTime ∧ md5 o = md5 owner

/-- The users are found under the hashes of their names. -/
def UsersHashed (md5 : Bytes → Bytes) (t : Tables) : Prop :=
  ∀ u ∈ t.users.rows, u.userid = md5 u.certSubj

theorem RegisteredBy.mono {md5 : Bytes → Bytes} {t t' : Tables} (h : RegisteredBy md5 t job owner)
    (ht : t.Grows t') : RegisteredBy md5 t' job owner :=
  let ⟨o, regTime, ⟨j, hj, u, hu, hinfo⟩, ho⟩ := h
  ⟨o, regTime, ⟨j, ht.1 j hj, u, ht.2 u hu, hinfo⟩, ho⟩

theorem UsersHashed.inserting (md5 : Bytes → Bytes) : Tables.Inserting md5 (UsersHashed md5) where
  user t owner h u hu := by
    rcases mem_storeUser hu with hu | rfl
    · exact h u hu
    · rfl
  job t row jobs h _ := h

theorem MatchStep.exec_keeps_tables (T : Tables) (feed : Jpfeed) (step : MatchStep) :
    Stateful.Keeps (·.tables = T) (step.exec env feed job) := by
  cases step with
  | «matching» attrs =>
    refine keeps_get.bind fun u => (Stateful.Keeps.liftM _).bind fun b => ?_
    split_ifs <;> exact .pure _
  | checkFed attrs =>
    refine keeps_get.bind fun u => (Stateful.Keeps.liftM _).bind fun fed => ?_
    split_ifs <;> exact .pure _
  | fullFeed => exact keeps_get.bind fun u => (Stateful.Keeps.liftM _).bind fun a => .pure _
  | sendFull a =>
    refine (keeps_tables_sending T _).bind fun ret => ?_
    split_ifs <;> exact .pure _
  | setFed => exact (keeps_tables_sending T _).bind fun _ => .pure _
  | increment attrs =>
    exact keeps_get.bind fun u => (Stateful.Keeps.liftM _).bind fun owner =>
      (keeps_tables_sending T _).bind fun _ => .pure _

/-- Deferred actions leave the tables alone. -/
theorem Task.exec_keeps_tables (T : Tables) (now : ℤ) (task : Task) :
    Stateful.Keeps (·.tables = T) (task.exec env plugins now) := by
  cases task with
  | runFeed feed =>
    refine keeps_get.bind fun u => ?_
    split
    · exact .pure _
    · exact .throw _
    · split
      · exact .pure _
      · exact .pure _
      · exact .throw _
      · exact .pure _
  | feedRows f stack rows =>
    cases rows with
    | nil =>
      refine (keeps_tables_sending T _).bind fun r => ?_
      obtain ⟨ret, stack'⟩ := r
      cases ret <;> exact .pure _
    | cons row rows =>
      refine keeps_get.bind fun u => (keeps_tables_sending T _).bind fun r => ?_
      obtain ⟨ret, stack'⟩ := r
      cases ret <;> exact .pure _
  | registerFeed feed => exact (registerFeedDeferred_keeps_tables T feed).bind fun _ => .pure _
  | matchAttr feeds job attrs =>
    cases feeds with
    | nil => exact .pure _
    | cons f feeds =>
      refine (Stateful.Keeps.liftM _).bind fun names => ?_
      split_ifs <;> exact .pure _
  | matchAttrMulti feeds jobs =>
    cases feeds with
    | nil => exact .pure _
    | cons f feeds =>
      refine (Stateful.Keeps.liftM _).bind fun names => ?_
      split_ifs <;> exact .pure _
  | matchFile feeds job cls name =>
    refine keeps_get.bind fun u => ?_
    split_ifs
    · exact .pure _
    · split
      · exact .pure _
      · exact .pure _
      · exact .throw _
  | matchVals feeds job vals => cases feeds <;> exact .pure _
  | matchFeed feed job file step =>
    refine (step.exec_keeps_tables T feed).bind fun next => ?_
    cases next <;> exact .pure _
  | matchJobs feed jobs found =>
    cases jobs with
    | nil =>
      refine (keeps_tables_sending T _).bind fun ret => ?_
      split_ifs <;> exact .pure _
    | cons j jobs =>
      refine keeps_get.bind fun u => (Stateful.Keeps.liftM _).bind fun b => ?_
      split_ifs
      · exact (Stateful.Keeps.liftM _).bind fun owner =>
          (Stateful.Keeps.liftM _).bind fun _ => .pure _
      · exact .pure _
  | markJobs feed found =>
    cases found with
    | nil => exact .pure _
    | cons m found =>
      refine (Stateful.Keeps.liftM _).bind fun fed => ?_
      split_ifs
      · exact (keeps_tables_sending T _).bind fun _ => .pure _
      · exact .pure _
  | freed => exact .throw _

/-- What a step does to the tables of jobs and users is to register a job. -/
theorem serverStep_keeps {I : Tables → Prop} (hI : Tables.Inserting env.md5 I)
    (hfiles : ∀ t files, I t → I { t with files }) {a : ServerAction}
    (h : serverStep env plugins s a = some t) (hs : I s.ps.tables) : I t.ps.tables := by
  cases serverStep_effect h with
  | starts hload => exact hs
  | startsNot => exact hs
  | @serves i now r feeds tasks new ps hslave hserve =>
    have hkeeps := @ServerRequest.serve_keeps env now _ hI feeds r s.ps hs
    rwa [hserve] at hkeeps
  | @refuses i now r slave slave' ps hslave hslave' hserve =>
    have hkeeps := @ServerRequest.serve_keeps env now _ hI slave.feeds r s.ps hs
    rwa [hserve] at hkeeps
  | @execs i now feeds task tasks p ps busy hslave hexec =>
    have htables := @Task.exec_keeps_tables _ env plugins s.ps.tables now task s.ps rfl
    rw [hexec] at htables
    exact (show ps.tables = s.ps.tables from htables) ▸ hs
  | @execsNot i now feeds task tasks e ps hslave hexec =>
    have htables := @Task.exec_keeps_tables _ env plugins s.ps.tables now task s.ps rfl
    rw [hexec] at htables
    exact (show ps.tables = s.ps.tables from htables) ▸ hs
  | finishes hslave => exact hs
  | uploads => exact hfiles _ _ hs
  | refreshes => exact hs
  | purges => exact hs

/-- A job that was registered is. -/
theorem registeredBy_of_registers {now : ℤ} {ps ps' : PsState}
    (h : jppsbeRegisterJob env now job owner ps = .ok none ps')
    (hu : UsersHashed env.md5 ps.tables) : RegisteredBy env.md5 ps'.tables job owner := by
  unfold jppsbeRegisterJob at h
  split at h
  · cases h
  · cases h
  · rename_i ju _
    dsimp only at h
    split at h
    · rename_i jobs hins
      obtain ⟨-, rfl⟩ := EStateM.Result.ok.inj h
      have hstored := @exists_storeUser env.md5 ps.tables owner hu
      obtain ⟨u, hmem, hid⟩ := hstored
      have hrow : (⟨ju, job, env.md5 owner, now⟩ : JobRow) ∈ jobs.rows := by
        rw [(Table.insert_eq_some.1 hins).2]
        exact List.mem_append_right _ List.mem_cons_self
      have hhash := (UsersHashed.inserting env.md5).user _ owner hu u hmem
      exact ⟨u.certSubj, now, ⟨_, hrow, u, hmem, rfl, hid, rfl, rfl⟩, hhash.symm.trans hid⟩
    · cases h

theorem registeredBy_of_step {i : ℕ} {now : ℤ} (hu : UsersHashed env.md5 s.ps.tables)
    (hreg : s.registers env ctx i now job owner = true)
    (h : serverStep env plugins s (.request i now (.registerJob ctx job owner)) = some t) :
    RegisteredBy env.md5 t.ps.tables job owner := by
  unfold ServerState.registers at hreg
  split at hreg
  · rename_i feeds tasks hslave
    split at hreg
    · rename_i new ps hserve
      simp only [serverStep, hslave, hserve] at h
      obtain rfl := Option.some.inj h
      obtain ⟨ds, ps₁, hds, hret⟩ := Stateful.bind_eq_ok.1 hserve
      obtain ⟨hnew, rfl⟩ := Stateful.pure_eq_ok.1 hret
      obtain ⟨trusted, ps₂, htrusted, hds⟩ := Stateful.bind_eq_ok.1 hds
      obtain ⟨-, rfl⟩ := Stateful.liftM_eq_ok.1 htrusted
      cases trusted with
      | false =>
        obtain ⟨hnone, -⟩ := Stateful.pure_eq_ok.1 hds
        rw [← hnone] at hnew
        cases hnew
      | true =>
        obtain ⟨ret, ps₃, hreg, hds⟩ := Stateful.bind_eq_ok.1 hds
        cases ret with
        | some e =>
          obtain ⟨hnone, -⟩ := Stateful.pure_eq_ok.1 hds
          rw [← hnone] at hnew
          cases hnew
        | none =>
          obtain ⟨attrs, ps₄, hattrs, hds⟩ := Stateful.bind_eq_ok.1 hds
          obtain ⟨-, rfl⟩ := Stateful.liftM_eq_ok.1 hattrs
          obtain ⟨-, rfl⟩ := Stateful.pure_eq_ok.1 hds
          exact registeredBy_of_registers hreg hu
    · cases hreg
  · cases hreg

/-- What a call does to the storage, if success is told. -/
theorem callStorage_eq_some {call : Option (ℕ × ℤ)} {succeeds : Bool}
    (h : callStorage env plugins ctx s call succeeds job owner = some t) :
    (t = s ∨ ∃ a, serverStep env plugins s a = some t) ∧
      (succeeds = true → UsersHashed env.md5 s.ps.tables →
        RegisteredBy env.md5 t.ps.tables job owner) := by
  cases call with
  | none =>
    simp only [callStorage] at h
    cases succeeds with
    | true => cases h
    | false =>
      obtain rfl := Option.some.inj h
      exact ⟨.inl rfl, fun hs => absurd hs Bool.false_ne_true⟩
  | some call =>
    obtain ⟨i, now⟩ := call
    simp only [callStorage] at h
    split_ifs at h with hreg
    refine ⟨.inr ⟨_, h⟩, fun hs hu => registeredBy_of_step hu ?_ h⟩
    simpa [hs] using hreg

/-! ## Runs -/

/-- The users are found under their hashes, what was acknowledged is registered, and no
    slave has handled too many messages. -/
structure DaemonSound (env : Env) (s : DaemonState) : Prop where
  users : UsersHashed env.md5 s.server.ps.tables
  registered : ∀ msg ∈ s.acknowledged, ∀ job owner, splitRegistration msg = some (job, owner) →
    RegisteredBy env.md5 s.server.ps.tables job owner
  conns : ∀ p slave, s.slaves p = some slave → slave.connCnt < MAX_REG_CONNS

/-- What the storage does keeps it. -/
theorem DaemonSound.server {s : DaemonState} {a : ServerAction} (h : DaemonSound env s)
    (hstep : serverStep env plugins s.server a = some t) :
    DaemonSound env { s with server := t } where
  users := serverStep_keeps (UsersHashed.inserting env.md5) (fun _ _ h => h) hstep h.users
  registered msg hmsg job owner hsplit :=
    (h.registered msg hmsg job owner hsplit).mono (serverStep_keeps
      (Tables.Grows.inserting env.md5 _) (fun _ _ h => h) hstep (.refl _))
  conns := h.conns

/-- A slave handles a message only as long as it may. -/
theorem ImportSlave.next_lt {slave next : ImportSlave} {ret : ℤ} {readnew : Bool}
    (h : slave.next ret readnew = some next) (hs : slave.connCnt < MAX_REG_CONNS) :
    next.connCnt < MAX_REG_CONNS := by
  unfold ImportSlave.next at h
  split_ifs at h <;> obtain rfl := Option.some.inj h <;> assumption

theorem conns_update {slaves : ℕ → Option ImportSlave} {p : ℕ} {next : Option ImportSlave}
    (h : ∀ p slave, slaves p = some slave → slave.connCnt < MAX_REG_CONNS)
    (hnext : ∀ slave, next = some slave → slave.connCnt < MAX_REG_CONNS) (q : ℕ)
    (slave : ImportSlave) (hq : Function.update slaves p next q = some slave) :
    slave.connCnt < MAX_REG_CONNS := by
  rcases eq_or_ne q p with rfl | hne
  · rw [Function.update_self] at hq
    exact hnext slave hq
  · rw [Function.update_of_ne hne] at hq
    exact h q slave hq

/-- What was acknowledged in a call of the importer is of no use, or was asked for, and
    success was told. -/
theorem RegEnds.acknowledged {o : ImportOutcomes} {jpps : Bytes} {trace : List ImportEvent}
    (h : RegEnds o jpps trace) {msg : Bytes} (hmsg : msg ∈ acknowledgedIn trace)
    (hsplit : splitRegistration msg = some (job, owner)) : askedFor trace = some (job, owner) ∧
      (o.registerJob (trace.take 1)).err = .SOAP_OK := by
  cases h with
  | nothing => simp [acknowledgedIn] at hmsg
  | malformed hnone =>
    obtain rfl : msg = _ := by simpa [acknowledgedIn] using hmsg
    rw [hnone] at hsplit
    cases hsplit
  | registers hsome =>
    simp only [acknowledgedIn, List.mem_cons, reduceCtorEq, ImportEvent.transEnd.injEq, false_or,
      List.not_mem_nil, or_false, eq_comm (a := true), decide_eq_true_eq] at hmsg
    split_ifs at hmsg with hok
    · obtain rfl : msg = _ := by simpa using hmsg
      rw [hsome] at hsplit
      obtain ⟨rfl, rfl⟩ := Prod.mk.inj (Option.some.inj hsplit)
      exact ⟨rfl, hok⟩
    · cases hmsg
  | breaks hsome => simp [acknowledgedIn] at hmsg

theorem DaemonSound.step {s u : DaemonState} {a : DaemonAction} (h : DaemonSound env s)
    (hstep : daemonStep env plugins ctx c s a = some u) : DaemonSound env u := by
  cases a with
  | server a =>
    obtain ⟨server, hserver, hu⟩ := Option.bind_eq_some_iff.1 hstep
    obtain rfl := Option.some.inj hu
    exact h.server hserver
  | fork p =>
    simp only [daemonStep] at hstep
    split_ifs at hstep
    obtain rfl := Option.some.inj hstep
    refine ⟨h.users, h.registered, conns_update h.conns ?_⟩
    rintro slave ⟨⟩
    exact Nat.succ_pos 499
  | exit p =>
    obtain rfl := Option.some.inj hstep
    exact ⟨h.users, h.registered, conns_update h.conns nofun⟩
  | importer p o call =>
    obtain ⟨slave, hslave, hstep⟩ := Option.bind_eq_some_iff.1 hstep
    obtain ⟨server, hserver, hu⟩ := Option.bind_eq_some_iff.1 hstep
    obtain rfl := Option.some.inj hu
    have hends := regEnds o c slave.readnew
    -- the call, if there is one, keeps what was acknowledged before
    have hcall : DaemonSound env { s with server } ∧ ∀ job owner,
        askedFor (Stateful.left (regImporter o c slave.readnew [])) = some (job, owner) →
        (o.registerJob ((Stateful.left (regImporter o c slave.readnew [])).take 1)).err = .SOAP_OK →
        RegisteredBy env.md5 server.ps.tables job owner := by
      unfold askStorage at hserver
      split at hserver
      · rename_i hasked
        obtain rfl := Option.some.inj hserver
        refine ⟨h, fun job owner hsome => ?_⟩
        rw [hasked] at hsome
        cases hsome
      · rename_i job owner hasked
        obtain ⟨hsteps, hreg⟩ := callStorage_eq_some hserver
        refine ⟨?_, fun job' owner' hsome hok => ?_⟩
        · rcases hsteps with rfl | ⟨a, hstep⟩
          · exact h
          · exact h.server hstep
        · rw [hasked] at hsome
          obtain ⟨rfl, rfl⟩ := Prod.mk.inj (Option.some.inj hsome)
          exact hreg (decide_eq_true hok) h.users
    refine ⟨hcall.1.users, fun msg hmsg job owner hsplit => ?_,
      conns_update h.conns fun next hnext => ?_⟩
    · rcases List.mem_append.1 hmsg with hmsg | hmsg
      · exact hcall.1.registered msg hmsg job owner hsplit
      · obtain ⟨hasked, hok⟩ := hends.acknowledged hmsg hsplit
        exact hcall.2 job owner hasked hok
    · unfold ImportSlave.after at hnext
      split at hnext
      · exact ImportSlave.next_lt hnext (h.conns p slave hslave)
      · cases hnext

/-- In every run, whatever answers are lost and whoever ends when: a job is registered, for an
    owner of the right hash, when a message about it was acknowledged, and no slave has handled
    five hundred messages. -/
theorem registered_of_acknowledged {s : DaemonState}
    (h : (daemonSystem env plugins ctx c).Reachable System.Always s) :
    (∀ msg ∈ s.acknowledged, ∀ job owner, splitRegistration msg = some (job, owner) →
      ∃ o regTime, JobInfoIs s.server.ps.tables job o regTime ∧ env.md5 o = env.md5 owner) ∧
    ∀ p slave, s.slaves p = some slave → slave.connCnt < MAX_REG_CONNS := by
  have hsound : DaemonSound env s := by
    refine h.invariant (fun s hs => ?_) fun s a t hs _ hstep => hs.step hstep
    obtain ⟨htables, -, hslaves, hack⟩ := hs
    refine ⟨fun u hu => ?_, fun msg hmsg => ?_, fun p slave hp => ?_⟩
    · rw [htables] at hu
      cases hu
    · rw [hack] at hmsg
      cases hmsg
    · rw [hslaves] at hp
      cases hp
  exact ⟨hsound.registered, hsound.conns⟩

end Storage

/-! ## A job of alice -/

/-- A queue with one message, and calls that succeed. -/
def aliceOutcomes : ImportOutcomes where
  transStart readnew _ :=
    if readnew then .message (ascii "https://jp.example.org/abcdefghijk\n/CN=alice") else .nothing
  startUpload _ := ⟨.other, none, none⟩
  getJobAttributes _ := ⟨.other, none, ()⟩
  registerJob _ := ⟨.SOAP_OK, none, ()⟩
  commitUpload _ := ⟨.other, none, ()⟩
  openFile _ := false
  putFile _ := false
  indeterminate _ := none

/-- The importer of the daemon, as the storage knows it. -/
def importerContext : PsContext := ⟨some (ascii "/CN=importer"), false, [ascii "/CN=importer"]⟩

def daemonStart : DaemonState where
  server := ⟨{ oneJobState .empty with tables := ⟨.empty, .empty, .empty⟩ }, fun _ => none, []⟩
  slaves _ := none
  acknowledged := []

/-- A slave of the storage starts and one of the daemon, which registers the job. -/
theorem registers_run : ([.server (.start 0 100 true), .fork 0,
    .importer 0 aliceOutcomes (some (0, 101))].foldlM (fun s a =>
      if System.Always s a then
        daemonStep sampleEnv ([] : List (FilePlugin Unit)) importerContext sampleImporter s a
      else none) daemonStart).any (fun s => s.acknowledged.length = 1) = true := by
  decide +kernel

theorem registered_of_acknowledged_sample : ∃ s : DaemonState, s.acknowledged.length = 1 ∧
    (∀ msg ∈ s.acknowledged, ∀ job owner, splitRegistration msg = some (job, owner) →
      ∃ o regTime, JobInfoIs s.server.ps.tables job o regTime ∧
        sampleEnv.md5 o = sampleEnv.md5 owner) ∧
    ∀ p slave, s.slaves p = some slave → slave.connCnt < MAX_REG_CONNS := by
  obtain ⟨s, hrun, hs⟩ := Option.any_eq_true _ _ |>.1 registers_run
  have hreach : (daemonSystem sampleEnv ([] : List (FilePlugin Unit)) importerContext
      sampleImporter).Reachable System.Always s :=
    ⟨daemonStart, ⟨rfl, fun _ => rfl, fun _ => rfl, rfl⟩, .of_foldlM (fun _ _ _ h => h) hrun⟩
  exact ⟨s, of_decide_eq_true hs, registered_of_acknowledged hreach⟩

end JobProvenance
