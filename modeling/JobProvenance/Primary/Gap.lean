import JobProvenance.Primary.Due

/-!
# Between the past and the future

A slave feeds the past of a feed, then registers the feed. Meanwhile another slave
registers a job, and feeds it to the feeds it has loaded when it started. In some
orders of their steps neither of them sees the job.

* `gapSystem`: the two slaves, `gapStep_serverStep`: they are slaves of a server;
* `GapKept.due_step`: once the job is registered, whether it is due does not change;
* `GapKept.due_registered`: whether it is when it is registered;
* `noGap_iff`: whether a job that the feed should get was delivered in the end.
-/

namespace JobProvenance

/-! ## Two slaves -/

section Slaves

variable {H : Type} (env : Env) (plugins : List (FilePlugin H))

/-- A slave that is not busy serves a request, which is not refused. -/
def Slave.serves (ps : PsState) (now : ℤ) (r : ServerRequest) : Slave → Option (PsState × Slave)
  | ⟨feeds, tasks, false⟩ =>
    match r.serve env feeds now ps with
    | .ok (some new) ps => some (ps, ⟨feeds, tasks ++ new, true⟩)
    | _ => none
  | ⟨_, _, true⟩ => none

/-- A slave does the next part of a deferred action, which does not fail. -/
def Slave.execs (ps : PsState) (now : ℤ) : Slave → Option (PsState × Slave)
  | ⟨feeds, task :: tasks, true⟩ =>
    match task.exec env plugins now ps with
    | .ok (.goes new) ps => some (ps, ⟨feeds, new ++ tasks, true⟩)
    | _ => none
  | ⟨feeds, [], true⟩ => some (ps, ⟨feeds, [], false⟩)
  | ⟨_, _, false⟩ => none

/-- A slave that has nothing to do starts again. -/
def Slave.restarts (ps : PsState) (now : ℤ) (purged : Bool) : Slave → Option Slave
  | ⟨_, [], false⟩ =>
    match loadedFeeds env now purged ps with
    | .ok feeds => some ⟨feeds, [], false⟩
    | .error _ => none
  | _ => none

/-- The requests: one for a feed, of the past and from then on, with the text its
    identifier is made from, and one that registers a job. -/
structure GapRequests where
  buf : Bytes
  request : FeedRequest
  history : request.history = true
  continuous : request.continuous = true
  ctx : PsContext
  job : Bytes
  owner : Bytes

/-- The slave that is asked for the feed, the one that registers the job, and whether
    they have been asked. -/
structure GapState where
  ps : PsState
  feeder : Slave
  registrar : Slave
  asked : Bool
  registered : Bool

/-- A step of one of the slaves. -/
inductive GapAction
  | feedIndex (now : ℤ)
  | registerJob (now : ℤ)
  | feederExec (now : ℤ)
  | registrarExec (now : ℤ)
  | feederStart (now : ℤ) (purged : Bool)
  | registrarStart (now : ℤ) (purged : Bool)

variable (q : GapRequests)

/-- The step of an action, if it can be taken; each request is made once. -/
def gapStep (s : GapState) : GapAction → Option GapState
  | .feedIndex now =>
    if s.asked then none
    else (s.feeder.serves env s.ps now (.feedIndex q.buf q.request)).map fun (ps, feeder) =>
      { s with ps, feeder, asked := true }
  | .registerJob now =>
    if s.registered then none
    else (s.registrar.serves env s.ps now (.registerJob q.ctx q.job q.owner)).map
      fun (ps, registrar) => { s with ps, registrar, registered := true }
  | .feederExec now =>
    (s.feeder.execs env plugins s.ps now).map fun (ps, feeder) => { s with ps, feeder }
  | .registrarExec now =>
    (s.registrar.execs env plugins s.ps now).map fun (ps, registrar) => { s with ps, registrar }
  | .feederStart now purged =>
    (s.feeder.restarts env s.ps now purged).map fun feeder => { s with feeder }
  | .registrarStart now purged =>
    (s.registrar.restarts env s.ps now purged).map fun registrar => { s with registrar }

/-- The two slaves, before they are asked; nothing was sent yet. -/
def gapSystem : System GapState GapAction where
  init s := s.ps.sent = [] ∧ s.feeder.tasks = [] ∧ s.registrar.tasks = [] ∧ s.asked = false ∧
    s.registered = false
  step s a t := gapStep env plugins q s a = some t

/-- The slaves have been asked, and have nothing left to do. -/
structure GapState.Finished (s : GapState) : Prop where
  asked : s.asked = true
  registered : s.registered = true
  feeder : s.feeder.tasks = []
  registrar : s.registrar.tasks = []

/-- The slaves of a server that are two. -/
def twoSlaves (feeder registrar : Slave) : ℕ → Option Slave
  | 0 => some feeder
  | 1 => some registrar
  | _ => none

/-- A server with these slaves. -/
def GapState.server (s : GapState) (promised : List (Bytes × FeedRequest)) : ServerState :=
  ⟨s.ps, twoSlaves s.feeder s.registrar, promised⟩

variable {env plugins q} {ps ps' : PsState} {slave slave' : Slave} {now : ℤ}

theorem Slave.serves_eq_some {r : ServerRequest} : slave.serves env ps now r = some (ps', slave') ↔
    slave.busy = false ∧ ∃ new, r.serve env slave.feeds now ps = .ok (some new) ps' ∧
      slave' = ⟨slave.feeds, slave.tasks ++ new, true⟩ := by
  obtain ⟨feeds, tasks, busy⟩ := slave
  cases busy with
  | true => exact iff_of_false nofun nofun
  | false =>
    rw [Slave.serves]
    split
    · rename_i new ps₁ hserve
      simp only [hserve, Option.some.injEq, Prod.mk.injEq, EStateM.Result.ok.injEq, true_and]
      constructor
      · rintro ⟨rfl, rfl⟩
        exact ⟨new, ⟨rfl, rfl⟩, rfl⟩
      · rintro ⟨_, ⟨rfl, rfl⟩, rfl⟩
        exact ⟨rfl, rfl⟩
    · rename_i hserve
      exact iff_of_false nofun fun ⟨_, new, h, _⟩ => hserve new ps' h

theorem Slave.execs_eq_some : slave.execs env plugins ps now = some (ps', slave') ↔
    slave.busy = true ∧ (slave.tasks = [] ∧ ps' = ps ∧ slave' = ⟨slave.feeds, [], false⟩ ∨
      ∃ task tasks new, slave.tasks = task :: tasks ∧
        task.exec env plugins now ps = .ok (.goes new) ps' ∧
        slave' = ⟨slave.feeds, new ++ tasks, true⟩) := by
  obtain ⟨feeds, tasks, busy⟩ := slave
  cases busy with
  | false => exact iff_of_false (by cases tasks <;> nofun) nofun
  | true =>
    cases tasks with
    | nil =>
      simp only [Slave.execs, Option.some.injEq, Prod.mk.injEq, true_and]
      constructor
      · rintro ⟨rfl, rfl⟩
        exact .inl ⟨rfl, rfl⟩
      · rintro (⟨rfl, rfl⟩ | ⟨_, _, _, h, -⟩)
        · exact ⟨rfl, rfl⟩
        · cases h
    | cons task tasks =>
      rw [Slave.execs]
      constructor
      · intro h
        split at h
        · rename_i new ps₁ hexec
          obtain ⟨rfl, rfl⟩ := Prod.mk.inj (Option.some.inj h)
          exact ⟨rfl, .inr ⟨task, tasks, new, rfl, hexec, rfl⟩⟩
        · cases h
      · rintro ⟨-, ⟨h, -⟩ | ⟨_, _, new, h, hexec, rfl⟩⟩
        · cases h
        · obtain ⟨rfl, rfl⟩ := List.cons.inj h
          rw [hexec]

theorem Slave.restarts_eq_some {purged : Bool} : slave.restarts env ps now purged = some slave' ↔
    slave.busy = false ∧ slave.tasks = [] ∧ ∃ feeds, loadedFeeds env now purged ps = .ok feeds ∧
      slave' = ⟨feeds, [], false⟩ := by
  obtain ⟨feeds, tasks, busy⟩ := slave
  rw [Slave.restarts.eq_def]
  split
  · rename_i heq
    obtain ⟨rfl, rfl, rfl⟩ := Slave.mk.inj heq
    cases hload : loadedFeeds env now purged ps with
    | ok feeds => simp [eq_comm]
    | error e => simp
  · rename_i hne
    refine iff_of_false nofun ?_
    rintro ⟨rfl, rfl, -⟩
    exact hne _ rfl

section Server

variable {st : ServerState} {i : ℕ}

theorem serverStep_of_serves {r : ServerRequest} (hi : st.slaves i = some slave)
    (h : slave.serves env st.ps now r = some (ps', slave')) :
    serverStep env plugins st (.request i now r) =
      some { st.set ps' i (some slave') with promised := st.promised ++ r.promise env } := by
  obtain ⟨feeds, tasks, busy⟩ := slave
  obtain ⟨rfl, new, hserve, rfl⟩ := Slave.serves_eq_some.1 h
  simp only [serverStep, hi, hserve]

theorem serverStep_of_execs (hi : st.slaves i = some slave)
    (h : slave.execs env plugins st.ps now = some (ps', slave')) :
    serverStep env plugins st (.exec i now) = some (st.set ps' i (some slave')) := by
  obtain ⟨feeds, tasks, busy⟩ := slave
  obtain ⟨rfl, ⟨rfl, rfl, rfl⟩ | ⟨task, tasks, new, rfl, hexec, rfl⟩⟩ := Slave.execs_eq_some.1 h
  · simp only [serverStep, hi]
  · simp only [serverStep, hi, hexec]

theorem serverStep_of_restarts {purged : Bool}
    (h : slave.restarts env st.ps now purged = some slave') :
    serverStep env plugins st (.start i now purged) = some (st.set st.ps i (some slave')) := by
  obtain ⟨-, -, feeds, hload, rfl⟩ := Slave.restarts_eq_some.1 h
  simp only [serverStep, hload]

end Server

theorem update_twoSlaves_zero (a a' b : Slave) :
    Function.update (twoSlaves a b) 0 (some a') = twoSlaves a' b := by
  funext i
  match i with
  | 0 => rfl
  | 1 => rfl
  | _ + 2 => rfl

theorem update_twoSlaves_one (a b b' : Slave) :
    Function.update (twoSlaves a b) 1 (some b') = twoSlaves a b' := by
  funext i
  match i with
  | 0 => rfl
  | 1 => rfl
  | _ + 2 => rfl

/-- Every step of the two slaves is a step of a server with them. -/
theorem gapStep_serverStep {s t : GapState} {a : GapAction} (h : gapStep env plugins q s a = some t)
    (promised : List (Bytes × FeedRequest)) :
    ∃ a' promised', serverStep env plugins (s.server promised) a' = some (t.server promised') := by
  cases a with
  | feedIndex now =>
    rw [gapStep] at h
    split_ifs at h
    obtain ⟨⟨ps', feeder⟩, hserve, rfl⟩ := Option.map_eq_some_iff.1 h
    refine ⟨_, promised ++ [(env.md5 q.buf, q.request)],
      (serverStep_of_serves (i := 0) rfl hserve).trans ?_⟩
    rw [ServerState.set, GapState.server, update_twoSlaves_zero]
    rfl
  | registerJob now =>
    rw [gapStep] at h
    split_ifs at h
    obtain ⟨⟨ps', registrar⟩, hserve, rfl⟩ := Option.map_eq_some_iff.1 h
    refine ⟨_, promised ++ [], (serverStep_of_serves (i := 1) rfl hserve).trans ?_⟩
    rw [ServerState.set, GapState.server, update_twoSlaves_one]
    rfl
  | feederExec now =>
    obtain ⟨⟨ps', feeder⟩, hexec, rfl⟩ := Option.map_eq_some_iff.1 h
    refine ⟨_, promised, (serverStep_of_execs (i := 0) rfl hexec).trans ?_⟩
    rw [ServerState.set, GapState.server, update_twoSlaves_zero]
    rfl
  | registrarExec now =>
    obtain ⟨⟨ps', registrar⟩, hexec, rfl⟩ := Option.map_eq_some_iff.1 h
    refine ⟨_, promised, (serverStep_of_execs (i := 1) rfl hexec).trans ?_⟩
    rw [ServerState.set, GapState.server, update_twoSlaves_one]
    rfl
  | feederStart now purged =>
    obtain ⟨feeder, hstart, rfl⟩ := Option.map_eq_some_iff.1 h
    refine ⟨_, promised, (serverStep_of_restarts (i := 0) hstart).trans ?_⟩
    rw [ServerState.set, GapState.server, update_twoSlaves_zero]
    rfl
  | registrarStart now purged =>
    obtain ⟨registrar, hstart, rfl⟩ := Option.map_eq_some_iff.1 h
    refine ⟨_, promised, (serverStep_of_restarts (i := 1) hstart).trans ?_⟩
    rw [ServerState.set, GapState.server, update_twoSlaves_one]
    rfl

end Slaves

/-! ## Requests -/

section Requests

variable {env : Env} {feeds : List Jpfeed} {now : ℤ} {s s' : PsState} {new : List Task}

/-- The feed that is asked for, as its past is fed. -/
def GapRequests.feed (env : Env) (q : GapRequests) : Exec Jpfeed := do
  let destination ← Exec.deref q.request.destination
  let qry ← q.request.conditions.mapM s2jpQuery
  let past ← makeJpfeed destination q.request.attributes qry (env.md5 q.buf) 0
  return { past with continuous := true }

/-- The past is fed, and then the feed is registered. -/
theorem serve_feedIndex {q : GapRequests}
    (h : (ServerRequest.feedIndex q.buf q.request).serve env feeds now s = .ok (some new) s') :
    s' = s ∧ ∃ feed future, q.feed env = .ok feed ∧
      new = [.runFeed feed, .registerFeed future] := by
  obtain ⟨ds, t, ht, h⟩ := Stateful.bind_eq_ok.1 h
  obtain ⟨hds, rfl⟩ := Stateful.liftM_eq_ok.1 ht
  obtain ⟨hnew, rfl⟩ := Stateful.pure_eq_ok.1 h
  refine ⟨rfl, ?_⟩
  rw [serveFeedIndex] at hds
  split at hds
  · obtain rfl := Except.ok.inj hds
    cases hnew
  · rename_i destination hdest
    obtain ⟨qry, hqry, hds⟩ := Exec.bind_eq_ok.1 hds
    obtain ⟨past, hpast, hds⟩ := Exec.bind_eq_ok.1 hds
    obtain ⟨future, -, hds⟩ := Exec.bind_eq_ok.1 hds
    rw [q.history, q.continuous] at hds
    obtain rfl := Except.ok.inj hds
    refine ⟨_, future, ?_, (Option.some.inj hnew).symm⟩
    rw [GapRequests.feed, hdest, Exec.deref, Exec.ok_bind, hqry, Exec.ok_bind, hpast]
    rfl

/-- A job that is registered was not known; what arrives of it is its owner. -/
theorem serve_registerJob {ctx : PsContext} {job owner : Bytes}
    (h : (ServerRequest.registerJob ctx job owner).serve env feeds now s = .ok (some new) s') :
    s'.toOutbox = s.toOutbox ∧ (∀ row ∈ s.tables.jobs.rows, row.dgJobid ≠ job) ∧
      ∃ attrs, matchAttr [systemValue GLITE_JP_ATTR_OWNER owner now] = .ok attrs ∧
        new = [.matchAttr feeds job attrs] := by
  obtain ⟨ds, t, hserve, h⟩ := Stateful.bind_eq_ok.1 h
  obtain ⟨hnew, rfl⟩ := Stateful.pure_eq_ok.1 h
  obtain ⟨trusted, t', ht, hserve⟩ := Stateful.bind_eq_ok.1 hserve
  obtain ⟨-, rfl⟩ := Stateful.liftM_eq_ok.1 ht
  cases trusted with
  | false =>
    obtain ⟨rfl, -⟩ := Stateful.pure_eq_ok.1 hserve
    cases hnew
  | true =>
    obtain ⟨ret, t', hreg, hserve⟩ := Stateful.bind_eq_ok.1 hserve
    cases ret with
    | some e =>
      obtain ⟨rfl, -⟩ := Stateful.pure_eq_ok.1 hserve
      cases hnew
    | none =>
      obtain ⟨attrs, t'', ht, hserve⟩ := Stateful.bind_eq_ok.1 hserve
      obtain ⟨hattrs, rfl⟩ := Stateful.liftM_eq_ok.1 ht
      obtain ⟨rfl, rfl⟩ := Stateful.pure_eq_ok.1 hserve
      obtain ⟨hjobs, tables, rfl⟩ := jppsbeRegisterJob_eq_ok hreg
      exact ⟨rfl, hjobs, attrs, hattrs, (Option.some.inj hnew).symm⟩

end Requests

/-! ## Runs -/

/-- A job that a feed should get: it meets the conditions, and has a value of an attribute
    that is asked for. -/
structure WantedJob (env : Env) (s : PsState) (feed : Jpfeed) (job : Bytes) : Prop where
  meets : MeetsQuery env s feed job
  requested : ∃ name ∈ feed.attrs, valuesOf env s job name ≠ []

/-- What a run keeps. -/
structure GapKept (feed : Jpfeed) (job : Bytes) (s : GapState) : Prop where
  accepted : AllAccepted s.ps.toOutbox
  feeder : ∀ t ∈ s.feeder.tasks, t.OfGap feed job
  registrar : ∀ t ∈ s.registrar.tasks, t.OfGap feed job
  unasked : s.asked = false → s.feeder.tasks = []
  unregistered : s.registered = false → s.registrar.tasks = []

/-- The job was handed to the feed, or is going to be: when the past is fed, or when one
    of the slaves does what it has left to do. -/
def GapState.Due (env : Env) (feed : Jpfeed) (job : Bytes) (s : GapState) : Prop :=
  HandedTo feed job s.ps.sent ∨ (s.asked = false ∧ InHistory env s.ps feed job) ∨
    (∃ t ∈ s.feeder.tasks, t.Due env s.ps feed job) ∨
    ∃ t ∈ s.registrar.tasks, t.Due env s.ps feed job

/-- Nothing of a job is known before it is registered. -/
structure GapState.Fresh (env : Env) (feed : Jpfeed) (job : Bytes) (s : GapState) : Prop where
  handed : ¬HandedTo feed job s.ps.sent
  avoids : ∀ t ∈ s.feeder.tasks, t.Avoids job
  due : ¬∃ t ∈ s.feeder.tasks, t.Due env s.ps feed job

/-- The past has not been looked at yet. -/
def GapState.Unqueried (s : GapState) : Prop :=
  s.asked = false ∨ ∃ g, .runFeed g ∈ s.feeder.tasks

section Runs

variable {H : Type} {env : Env} {plugins : List (FilePlugin H)} {q : GapRequests} {feed : Jpfeed}
  {s t : GapState} {a : GapAction}

/-- What a slave does. -/
theorem Slave.execs_advances {job : Bytes} {slave slave' : Slave} {ps ps' : PsState} {now : ℤ}
    (hans : ∀ n, env.answers n = true) (hgap : ∀ t ∈ slave.tasks, t.OfGap feed job)
    (h : slave.execs env plugins ps now = some (ps', slave')) :
    ps'.tables = ps.tables ∧ ps'.disk = ps.disk ∧
      (AllAccepted ps.toOutbox → AllAccepted ps'.toOutbox) ∧
      (∀ t ∈ slave'.tasks, t.OfGap feed job) ∧
      ((∀ row ∈ ps.tables.jobs.rows, row.dgJobid ≠ job) → (∀ t ∈ slave.tasks, t.Avoids job) →
        ∀ t ∈ slave'.tasks, t.Avoids job) ∧
      (HandedTo feed job ps'.sent ∨ (∃ t ∈ slave'.tasks, t.Due env ps' feed job) ↔
        HandedTo feed job ps.sent ∨ ∃ t ∈ slave.tasks, t.Due env ps feed job) := by
  obtain ⟨-, ⟨hnil, rfl, rfl⟩ | ⟨task, tasks, new, htasks, hexec, rfl⟩⟩ := Slave.execs_eq_some.1 h
  · rw [hnil]
    exact ⟨rfl, rfl, id, nofun, fun _ _ => nofun, Iff.rfl⟩
  · rw [htasks] at hgap
    obtain ⟨htask, hrest⟩ := List.forall_mem_cons.1 hgap
    have hadv := advances_of_exec hans htask hexec
    have hdue : (∃ t ∈ tasks, t.Due env ps' feed job) ↔ ∃ t ∈ tasks, t.Due env ps feed job :=
      exists_congr fun t => and_congr_right fun _ => t.due_congr hadv.tables_eq hadv.disk_eq
    refine ⟨hadv.tables_eq, hadv.disk_eq, hadv.accepted,
      List.forall_mem_append.2 ⟨hadv.ofGap, hrest⟩, fun hjobs havoids => ?_, ?_⟩
    · rw [htasks] at havoids
      obtain ⟨havoid, havoids⟩ := List.forall_mem_cons.1 havoids
      exact List.forall_mem_append.2 ⟨hadv.avoids hjobs havoid, havoids⟩
    · rw [htasks, List.exists_mem_cons_iff, ← or_assoc, ← hadv.due_iff, ← hdue]
      simp only [List.mem_append, or_and_right, exists_or, or_assoc]

variable (env plugins q) in
/-- What a step does. -/
inductive GapEffect (s : GapState) : GapAction → GapState → Prop
  | asks {now : ℤ} {feed future : Jpfeed} : s.asked = false → q.feed env = .ok feed →
      GapEffect s (.feedIndex now) { s with
        feeder := ⟨s.feeder.feeds, s.feeder.tasks ++ [.runFeed feed, .registerFeed future], true⟩
        asked := true }
  | registers {now : ℤ} {ps : PsState} {attrs : List Attrval} : s.registered = false →
      ps.toOutbox = s.ps.toOutbox → (∀ row ∈ s.ps.tables.jobs.rows, row.dgJobid ≠ q.job) →
      matchAttr [systemValue GLITE_JP_ATTR_OWNER q.owner now] = .ok attrs →
      GapEffect s (.registerJob now) { s with
        ps
        registrar := ⟨s.registrar.feeds,
          s.registrar.tasks ++ [.matchAttr s.registrar.feeds q.job attrs], true⟩
        registered := true }
  | feederExecs {now : ℤ} {ps : PsState} {feeder : Slave} :
      s.feeder.execs env plugins s.ps now = some (ps, feeder) →
      GapEffect s (.feederExec now) { s with ps, feeder }
  | registrarExecs {now : ℤ} {ps : PsState} {registrar : Slave} :
      s.registrar.execs env plugins s.ps now = some (ps, registrar) →
      GapEffect s (.registrarExec now) { s with ps, registrar }
  | feederStarts {now : ℤ} {purged : Bool} {feeder : Slave} :
      s.feeder.tasks = [] → feeder.tasks = [] →
      GapEffect s (.feederStart now purged) { s with feeder }
  | registrarStarts {now : ℤ} {purged : Bool} {registrar : Slave} :
      s.registrar.tasks = [] → registrar.tasks = [] →
      GapEffect s (.registrarStart now purged) { s with registrar }

theorem gapStep_effect (h : gapStep env plugins q s a = some t) :
    GapEffect env plugins q s a t := by
  cases a with
  | feedIndex now =>
    rw [gapStep] at h
    split_ifs at h with hasked
    obtain ⟨⟨ps, feeder⟩, hslave, rfl⟩ := Option.map_eq_some_iff.1 h
    obtain ⟨-, new, hserve, rfl⟩ := Slave.serves_eq_some.1 hslave
    obtain ⟨rfl, feed, future, hfeed, rfl⟩ := serve_feedIndex hserve
    exact .asks (Bool.eq_false_iff.2 hasked) hfeed
  | registerJob now =>
    rw [gapStep] at h
    split_ifs at h with hregistered
    obtain ⟨⟨ps, registrar⟩, hslave, rfl⟩ := Option.map_eq_some_iff.1 h
    obtain ⟨-, new, hserve, rfl⟩ := Slave.serves_eq_some.1 hslave
    obtain ⟨hbox, hjobs, attrs, hattrs, rfl⟩ := serve_registerJob hserve
    exact .registers (Bool.eq_false_iff.2 hregistered) hbox hjobs hattrs
  | feederExec now =>
    obtain ⟨⟨ps, feeder⟩, hexec, rfl⟩ := Option.map_eq_some_iff.1 h
    exact .feederExecs hexec
  | registrarExec now =>
    obtain ⟨⟨ps, registrar⟩, hexec, rfl⟩ := Option.map_eq_some_iff.1 h
    exact .registrarExecs hexec
  | feederStart now purged =>
    obtain ⟨feeder, hstart, rfl⟩ := Option.map_eq_some_iff.1 h
    obtain ⟨-, hnil, feeds, -, rfl⟩ := Slave.restarts_eq_some.1 hstart
    exact .feederStarts hnil rfl
  | registrarStart now purged =>
    obtain ⟨registrar, hstart, rfl⟩ := Option.map_eq_some_iff.1 h
    obtain ⟨-, hnil, feeds, -, rfl⟩ := Slave.restarts_eq_some.1 hstart
    exact .registrarStarts hnil rfl

theorem GapKept.step (hfeed : q.feed env = .ok feed) (hans : ∀ n, env.answers n = true)
    (hs : GapKept feed q.job s) (h : gapStep env plugins q s a = some t) :
    GapKept feed q.job t := by
  cases gapStep_effect h with
  | asks hasked hfeed' =>
    obtain rfl := Except.ok.inj (hfeed.symm.trans hfeed')
    refine { hs with feeder := ?_, unasked := nofun }
    exact List.forall_mem_append.2 ⟨hs.feeder,
      List.forall_mem_cons.2 ⟨rfl, List.forall_mem_singleton.2 trivial⟩⟩
  | registers hregistered hbox =>
    refine { hs with accepted := hbox ▸ hs.accepted, registrar := ?_, unregistered := nofun }
    exact List.forall_mem_append.2 ⟨hs.registrar, List.forall_mem_singleton.2 rfl⟩
  | feederExecs hexec =>
    obtain ⟨-, -, hacc, hgap, -⟩ := Slave.execs_advances hans hs.feeder hexec
    refine { hs with accepted := hacc hs.accepted, feeder := hgap, unasked := fun hasked => ?_ }
    obtain ⟨-, ⟨-, -, rfl⟩ | ⟨task, tasks, new, htasks, -⟩⟩ := Slave.execs_eq_some.1 hexec
    · rfl
    · cases htasks.symm.trans (hs.unasked hasked)
  | registrarExecs hexec =>
    obtain ⟨-, -, hacc, hgap, -⟩ := Slave.execs_advances hans hs.registrar hexec
    refine { hs with
      accepted := hacc hs.accepted, registrar := hgap, unregistered := fun hreg => ?_ }
    obtain ⟨-, ⟨-, -, rfl⟩ | ⟨task, tasks, new, htasks, -⟩⟩ := Slave.execs_eq_some.1 hexec
    · rfl
    · cases htasks.symm.trans (hs.unregistered hreg)
  | feederStarts _ hnil =>
    exact { hs with feeder := by rw [hnil]; exact nofun, unasked := fun _ => hnil }
  | registrarStarts _ hnil =>
    exact { hs with registrar := by rw [hnil]; exact nofun, unregistered := fun _ => hnil }

theorem GapState.due_iff_feeder {job : Bytes} : s.Due env feed job ↔
    (HandedTo feed job s.ps.sent ∨ ∃ t ∈ s.feeder.tasks, t.Due env s.ps feed job) ∨
      (s.asked = false ∧ InHistory env s.ps feed job) ∨
        ∃ t ∈ s.registrar.tasks, t.Due env s.ps feed job := by
  rw [GapState.Due, or_assoc, or_left_comm (a := s.asked = false ∧ _)]

theorem GapState.due_iff_registrar {job : Bytes} : s.Due env feed job ↔
    (HandedTo feed job s.ps.sent ∨ ∃ t ∈ s.registrar.tasks, t.Due env s.ps feed job) ∨
      (s.asked = false ∧ InHistory env s.ps feed job) ∨
        ∃ t ∈ s.feeder.tasks, t.Due env s.ps feed job := by
  rw [GapState.Due, or_assoc, ← or_assoc (a := s.asked = false ∧ _),
    or_comm (b := ∃ t ∈ s.registrar.tasks, _)]

/-- Once the job is registered, what is due stays so, and nothing else becomes due. -/
theorem GapKept.due_step (hfeed : q.feed env = .ok feed) (hans : ∀ n, env.answers n = true)
    (hs : GapKept feed q.job s) (hreg : s.registered = true)
    (h : gapStep env plugins q s a = some t) :
    t.registered = true ∧ t.ps.tables = s.ps.tables ∧ t.ps.disk = s.ps.disk ∧
      (t.Due env feed q.job ↔ s.Due env feed q.job) := by
  cases gapStep_effect h with
  | asks hasked hfeed' =>
    obtain rfl := Except.ok.inj (hfeed.symm.trans hfeed')
    refine ⟨hreg, rfl, rfl, ?_⟩
    -- the feed of the past is due as the past was
    simp [GapState.Due, hasked, hs.unasked hasked, Task.Due]
  | registers hregistered => cases hreg.symm.trans hregistered
  | @feederExecs now ps feeder hexec =>
    obtain ⟨htables, hdisk, -, -, -, hdue⟩ := Slave.execs_advances hans hs.feeder hexec
    refine ⟨hreg, htables, hdisk, ?_⟩
    have hhistory : InHistory env ps feed q.job ↔ InHistory env s.ps feed q.job :=
      Task.due_congr htables hdisk (.runFeed feed)
    have hrest : (∃ t ∈ s.registrar.tasks, t.Due env ps feed q.job) ↔
        ∃ t ∈ s.registrar.tasks, t.Due env s.ps feed q.job :=
      exists_congr fun t => and_congr_right fun _ => t.due_congr htables hdisk
    rw [GapState.due_iff_feeder, GapState.due_iff_feeder]
    exact or_congr hdue (or_congr (and_congr_right fun _ => hhistory) hrest)
  | @registrarExecs now ps registrar hexec =>
    obtain ⟨htables, hdisk, -, -, -, hdue⟩ := Slave.execs_advances hans hs.registrar hexec
    refine ⟨hreg, htables, hdisk, ?_⟩
    have hhistory : InHistory env ps feed q.job ↔ InHistory env s.ps feed q.job :=
      Task.due_congr htables hdisk (.runFeed feed)
    have hrest : (∃ t ∈ s.feeder.tasks, t.Due env ps feed q.job) ↔
        ∃ t ∈ s.feeder.tasks, t.Due env s.ps feed q.job :=
      exists_congr fun t => and_congr_right fun _ => t.due_congr htables hdisk
    rw [GapState.due_iff_registrar, GapState.due_iff_registrar]
    exact or_congr hdue (or_congr (and_congr_right fun _ => hhistory) hrest)
  | feederStarts hnil hnil' =>
    refine ⟨hreg, rfl, rfl, ?_⟩
    simp only [GapState.Due, hnil, hnil']
  | registrarStarts hnil hnil' =>
    refine ⟨hreg, rfl, rfl, ?_⟩
    simp only [GapState.Due, hnil, hnil']

/-- Before that, nothing of it is known. -/
theorem GapKept.fresh_step (hfeed : q.feed env = .ok feed) (hans : ∀ n, env.answers n = true)
    (hs : GapKept feed q.job s) (hreg : t.registered = false)
    (h : gapStep env plugins q s a = some t) :
    s.registered = false ∧ t.ps.tables = s.ps.tables ∧
      ((∀ row ∈ s.ps.tables.jobs.rows, row.dgJobid ≠ q.job) → s.Fresh env feed q.job →
        t.Fresh env feed q.job) := by
  cases gapStep_effect h with
  | asks hasked hfeed' =>
    obtain rfl := Except.ok.inj (hfeed.symm.trans hfeed')
    refine ⟨hreg, rfl, fun hjobs hfresh => ⟨hfresh.handed, ?_, ?_⟩⟩
    · exact List.forall_mem_append.2 ⟨hfresh.avoids,
        List.forall_mem_cons.2 ⟨trivial, List.forall_mem_singleton.2 trivial⟩⟩
    · rw [hs.unasked hasked, List.nil_append]
      rintro ⟨t, ht, hdue⟩
      rcases List.mem_cons.1 ht with rfl | ht
      · obtain ⟨_, -, row, hrow, hjob, -⟩ := hdue
        exact hjobs row hrow hjob
      · obtain rfl := List.mem_singleton.1 ht
        exact hdue
  | registers => cases hreg
  | @feederExecs now ps feeder hexec =>
    obtain ⟨htables, -, -, -, havoids, hdue⟩ := Slave.execs_advances hans hs.feeder hexec
    refine ⟨hreg, htables, fun hjobs hfresh => ?_⟩
    obtain ⟨hhanded, hnot⟩ := not_or.1 (hdue.not.2 (not_or.2 ⟨hfresh.handed, hfresh.due⟩))
    exact ⟨hhanded, havoids hjobs hfresh.avoids, hnot⟩
  | @registrarExecs now ps registrar hexec =>
    obtain ⟨-, ⟨-, rfl, rfl⟩ | ⟨task, tasks, new, htasks, -⟩⟩ := Slave.execs_eq_some.1 hexec
    · exact ⟨hreg, rfl, fun _ hfresh => ⟨hfresh.handed, hfresh.avoids, hfresh.due⟩⟩
    · cases htasks.symm.trans (hs.unregistered hreg)
  | feederStarts hnil hnil' =>
    refine ⟨hreg, rfl, fun _ hfresh => ⟨hfresh.handed, ?_, ?_⟩⟩
    · rw [hnil']
      exact nofun
    · rw [hnil']
      rintro ⟨t, ht, -⟩
      cases ht
  | registrarStarts hnil hnil' =>
    exact ⟨hreg, rfl, fun _ hfresh => ⟨hfresh.handed, hfresh.avoids, hfresh.due⟩⟩

/-- What a run has kept before the job is registered. -/
theorem kept_of_reachable (hfeed : q.feed env = .ok feed) (hans : ∀ n, env.answers n = true)
    (h : (gapSystem env plugins q).Reachable System.Always s) : GapKept feed q.job s ∧
      (s.registered = false → (∀ row ∈ s.ps.tables.jobs.rows, row.dgJobid ≠ q.job) →
        s.Fresh env feed q.job) := by
  refine h.invariant (I := fun s => GapKept feed q.job s ∧ (s.registered = false →
    (∀ row ∈ s.ps.tables.jobs.rows, row.dgJobid ≠ q.job) → s.Fresh env feed q.job)) ?_
      fun s a t hs _ hstep => ⟨hs.1.step hfeed hans hstep, fun hreg hjobs => ?_⟩
  · rintro s ⟨hsent, hfeeder, hregistrar, -, -⟩
    have hhanded : ¬HandedTo feed q.job s.ps.sent := by
      rw [hsent]
      rintro ⟨m, hm, -⟩
      cases hm
    refine ⟨⟨?_, ?_, ?_, fun _ => hfeeder, fun _ => hregistrar⟩, fun _ _ => ⟨hhanded, ?_, ?_⟩⟩
    · rw [AllAccepted, hsent]
      exact List.forall_mem_nil _
    · rw [hfeeder]
      exact List.forall_mem_nil _
    · rw [hregistrar]
      exact List.forall_mem_nil _
    · rw [hfeeder]
      exact List.forall_mem_nil _
    · rw [hfeeder]
      rintro ⟨t, ht, -⟩
      cases ht
  · obtain ⟨hreg, htables, hfresh⟩ := hs.1.fresh_step hfeed hans hreg hstep
    rw [htables] at hjobs
    exact hfresh hjobs (hs.2 hreg hjobs)

/-- When a job is registered, it is due when the past is still to be looked at, and has
    it, or when the slave has loaded the feed and matches it. -/
theorem GapKept.due_registered {s₁ : GapState} {now : ℤ} (hs : GapKept feed q.job s)
    (hfresh : s.registered = false → (∀ row ∈ s.ps.tables.jobs.rows, row.dgJobid ≠ q.job) →
      s.Fresh env feed q.job)
    (h : gapStep env plugins q s (.registerJob now) = some s₁) :
    s₁.registered = true ∧ (s₁.Due env feed q.job ↔
      s.Unqueried ∧ InHistory env s₁.ps feed q.job ∨
        ∃ attrs, matchAttr [systemValue GLITE_JP_ATTR_OWNER q.owner now] = .ok attrs ∧
          MatchedLoaded env s₁.ps s.registrar.feeds feed q.job attrs) := by
  cases gapStep_effect h with
  | @registers now ps attrs hreg hbox hjobs hattrs =>
    obtain ⟨hhanded, havoids, hdue⟩ := hfresh hreg hjobs
    refine ⟨rfl, ?_⟩
    have hfeeder : (∃ t ∈ s.feeder.tasks, t.Due env ps feed q.job) ↔
        (∃ g, .runFeed g ∈ s.feeder.tasks) ∧ InHistory env ps feed q.job := by
      constructor
      · rintro ⟨t, ht, htdue⟩
        cases t with
        | runFeed g => exact ⟨⟨g, ht⟩, htdue⟩
        | feedRows f stack rows =>
          -- the job is not stacked, and not in the rows
          rcases htdue with hstack | ⟨⟨row, hrow, hjob⟩, -⟩
          · exact absurd ⟨_, ht, .inl hstack⟩ hdue
          · exact absurd hjob (havoids _ ht row hrow)
        | matchAttr | matchFeed => exact (havoids _ ht).elim
        | registerFeed | matchAttrMulti | matchFile | matchVals | matchJobs | markJobs | freed =>
          exact htdue.elim
      · rintro ⟨⟨g, hg⟩, hhistory⟩
        exact ⟨_, hg, hhistory⟩
    have hloaded : MatchedLoaded env ps s.registrar.feeds feed q.job attrs ↔
        ∃ attrs, matchAttr [systemValue GLITE_JP_ATTR_OWNER q.owner now] = .ok attrs ∧
          MatchedLoaded env ps s.registrar.feeds feed q.job attrs := by
      constructor
      · exact fun h => ⟨attrs, hattrs, h⟩
      · rintro ⟨attrs', hattrs', h⟩
        rwa [Except.ok.inj (hattrs.symm.trans hattrs')] at *
    have hbox' : ¬HandedTo feed q.job ps.sent := by rwa [hbox]
    have hregistrar : (∃ t ∈ s.registrar.tasks ++ [.matchAttr s.registrar.feeds q.job attrs],
        t.Due env ps feed q.job) ↔ MatchedLoaded env ps s.registrar.feeds feed q.job attrs := by
      rw [hs.unregistered hreg, List.nil_append]
      simp only [List.mem_singleton, exists_eq_left]
      exact Iff.rfl
    rw [GapState.Due, or_iff_right hbox', GapState.Unqueried, or_and_right, or_assoc, ← hloaded,
      ← hfeeder, ← hregistrar]

variable (env) in
/-- The slaves see a job that is registered: the past, in which it is found, is still to be
    fed, or the slave that registers it has loaded the feed, and matches it. -/
def Seen (q : GapRequests) (feed : Jpfeed) (now : ℤ) (s s₁ : GapState) : Prop :=
  s.Unqueried ∧ InHistory env s₁.ps feed q.job ∨
    ∃ attrs, matchAttr [systemValue GLITE_JP_ATTR_OWNER q.owner now] = .ok attrs ∧
      MatchedLoaded env s₁.ps s.registrar.feeds feed q.job attrs

/-- A run in which the job is registered. -/
structure GapRun (env : Env) (plugins : List (FilePlugin H)) (q : GapRequests) (now : ℤ)
    (s s₁ t : GapState) : Prop where
  before : (gapSystem env plugins q).Reachable System.Always s
  registers : gapStep env plugins q s (.registerJob now) = some s₁
  after : (gapSystem env plugins q).Steps System.Always s₁ t

variable {now : ℤ} {s₁ : GapState}

/-- What a run has delivered in the end. -/
theorem delivered_iff_seen (hfeed : q.feed env = .ok feed) (hans : ∀ n, env.answers n = true)
    (hrun : GapRun env plugins q now s s₁ t) (hfin : t.Finished) :
    (t.ps.tables = s₁.ps.tables ∧ t.ps.disk = s₁.ps.disk) ∧
      (Delivered t.ps.sent feed q.job ↔ Seen env q feed now s s₁) := by
  obtain ⟨hk, hfresh⟩ := kept_of_reachable hfeed hans hrun.before
  obtain ⟨hreg, hdue⟩ := hk.due_registered hfresh hrun.registers
  obtain ⟨hkt, -, htables, hdisk, hdue'⟩ := hrun.after.preserves
    (I := fun u => GapKept feed q.job u ∧ u.registered = true ∧ u.ps.tables = s₁.ps.tables ∧
      u.ps.disk = s₁.ps.disk ∧ (u.Due env feed q.job ↔ s₁.Due env feed q.job))
    (fun u a v ⟨hku, hregu, htables, hdisk, hdueu⟩ _ hstep => by
      obtain ⟨hregv, htables', hdisk', hduev⟩ := hku.due_step hfeed hans hregu hstep
      exact ⟨hku.step hfeed hans hstep, hregv, htables'.trans htables, hdisk'.trans hdisk,
        hduev.trans hdueu⟩)
    ⟨hk.step hfeed hans hrun.registers, hreg, rfl, rfl, Iff.rfl⟩
  refine ⟨⟨htables, hdisk⟩, ?_⟩
  rw [Seen, ← hdue, ← hdue', GapState.Due, hfin.asked, hfin.feeder, hfin.registrar]
  constructor
  · rintro ⟨m, hm, hdel, -⟩
    exact .inl ⟨m, hm, hdel⟩
  · rintro (⟨m, hm, hdel⟩ | ⟨h, -⟩ | ⟨t, ht, -⟩ | ⟨t, ht, -⟩)
    · exact ⟨m, hm, hdel, hkt.accepted m hm⟩
    · cases h
    · cases ht
    · cases ht

/-- In the end, a job that a feed should get was delivered to it exactly when it was seen. -/
theorem noGap_iff (hfeed : q.feed env = .ok feed) (hans : ∀ n, env.answers n = true)
    (hrun : GapRun env plugins q now s s₁ t) (hfin : t.Finished) :
    (WantedJob env t.ps feed q.job → Delivered t.ps.sent feed q.job) ↔
      (WantedJob env s₁.ps feed q.job → Seen env q feed now s s₁) := by
  obtain ⟨⟨htables, hdisk⟩, hdel⟩ := delivered_iff_seen hfeed hans hrun hfin
  have hget := @getAttrs_congr env _ _ htables hdisk
  have hwanted : WantedJob env t.ps feed q.job ↔ WantedJob env s₁.ps feed q.job := by
    have hvalues : ∀ name, valuesOf env t.ps q.job name = valuesOf env s₁.ps q.job name := by
      intro name
      rw [valuesOf, valuesOf, hget]
    constructor
    · rintro ⟨hmeets, hreq⟩
      simp only [MeetsQuery, hvalues] at hmeets hreq
      exact ⟨hmeets, hreq⟩
    · rintro ⟨hmeets, hreq⟩
      simp only [MeetsQuery, ← hvalues] at hmeets hreq
      exact ⟨hmeets, hreq⟩
  rw [hwanted, hdel]

end Runs

/-! ## Two orders -/

/-- The owners and the times of registration of the jobs of alice are asked for, and a job
    of hers is registered. -/
def aliceRequests : GapRequests where
  buf := ascii "feed"
  request := {
    destination := some (ascii "https://jpis")
    attributes := [GLITE_JP_ATTR_OWNER, GLITE_JP_ATTR_REGTIME]
    conditions := [⟨GLITE_JP_ATTR_OWNER, .EQUAL, none, some (.string (ascii "/CN=alice")), none⟩]
    history := true
    continuous := true }
  history := rfl
  continuous := rfl
  ctx := lbServer
  job := sampleJob.dgJobid
  owner := ascii "/CN=alice"

/-- Two slaves of a storage without jobs and feeds. -/
def gapStart : GapState := ⟨emptyState .empty, ⟨[], [], false⟩, ⟨[], [], false⟩, false, false⟩

/-- Steps of theirs. -/
def gapSteps (s : GapState) (actions : List GapAction) : Option GapState :=
  actions.foldlM (fun s a => if System.Always s a then
    gapStep sampleEnv ([] : List (FilePlugin Unit)) aliceRequests s a else none) s

theorem gapRun_of_gapSteps {before after : List GapAction} {s s₁ t : GapState}
    (hs : gapSteps gapStart before = some s)
    (hreg : gapStep sampleEnv ([] : List (FilePlugin Unit)) aliceRequests s (.registerJob 100) =
      some s₁) (ht : gapSteps s₁ after = some t) :
    GapRun sampleEnv ([] : List (FilePlugin Unit)) aliceRequests 100 s s₁ t where
  before := ⟨gapStart, ⟨rfl, rfl, rfl, rfl, rfl⟩, .of_foldlM (fun _ _ _ h => h) hs⟩
  registers := hreg
  after := .of_foldlM (fun _ _ _ h => h) ht

/-- When the job is registered before the past of the feed is looked at, it is sent. -/
theorem earlySteps_run : ((gapSteps gapStart [.feedIndex 100]).bind fun s =>
    (gapStep sampleEnv ([] : List (FilePlugin Unit)) aliceRequests s (.registerJob 100)).bind
      fun s₁ => gapSteps s₁ [.feederExec 100, .registrarExec 100, .feederExec 100,
        .feederExec 100, .feederExec 100]).any (fun t => t.asked && t.registered &&
          t.feeder.tasks.isEmpty && t.registrar.tasks.isEmpty && t.ps.sent.length = 1) = true := by
  decide +kernel

theorem noGap_iff_early : ∃ feed s s₁ t, aliceRequests.feed sampleEnv = .ok feed ∧
    GapRun sampleEnv ([] : List (FilePlugin Unit)) aliceRequests 100 s s₁ t ∧ t.Finished ∧
    t.ps.sent.length = 1 ∧
    ((WantedJob sampleEnv t.ps feed aliceRequests.job →
        Delivered t.ps.sent feed aliceRequests.job) ↔
      (WantedJob sampleEnv s₁.ps feed aliceRequests.job →
        Seen sampleEnv aliceRequests feed 100 s s₁)) := by
  obtain ⟨t, ht, hend⟩ := (Option.any_eq_true _ _).1 earlySteps_run
  obtain ⟨s, hs, ht⟩ := Option.bind_eq_some_iff.1 ht
  obtain ⟨s₁, hreg, ht⟩ := Option.bind_eq_some_iff.1 ht
  simp only [Bool.and_eq_true, List.isEmpty_iff, decide_eq_true_eq] at hend
  obtain ⟨⟨⟨⟨hasked, hregistered⟩, hfeeder⟩, hregistrar⟩, hsent⟩ := hend
  have hgap := gapRun_of_gapSteps hs hreg ht
  have hfin : t.Finished := ⟨hasked, hregistered, hfeeder, hregistrar⟩
  exact ⟨_, s, s₁, t, rfl, hgap, hfin, hsent, noGap_iff rfl (fun _ => rfl) hgap hfin⟩

/-- The job is registered between the two actions that are deferred for the feed, by a
    slave that has not loaded it. -/
theorem not_noGap_late : ∃ feed s s₁ t, aliceRequests.feed sampleEnv = .ok feed ∧
    GapRun sampleEnv ([] : List (FilePlugin Unit)) aliceRequests 100 s s₁ t ∧ t.Finished ∧
    WantedJob sampleEnv t.ps feed aliceRequests.job ∧
    ¬Delivered t.ps.sent feed aliceRequests.job := by
  have hrun : ∃ feed s s₁ t, aliceRequests.feed sampleEnv = .ok feed ∧
      gapSteps gapStart [.feedIndex 100, .feederExec 100] = some s ∧
      gapStep sampleEnv ([] : List (FilePlugin Unit)) aliceRequests s (.registerJob 100) = some s₁ ∧
      gapSteps s₁ [.registrarExec 100, .feederExec 100] = some t ∧
      t.Finished ∧ WantedJob sampleEnv t.ps feed aliceRequests.job ∧ t.ps.sent = [] := by
    refine ⟨_, _, _, _, rfl, rfl, rfl, rfl, ⟨rfl, rfl, rfl, rfl⟩, ⟨fun qr hqr => ?_, ?_⟩, rfl⟩
    · rw [List.mem_singleton.1 hqr]
      exact ⟨systemValue GLITE_JP_ATTR_OWNER (ascii "/CN=alice") 100,
        List.mem_singleton_self _, rfl⟩
    · exact ⟨GLITE_JP_ATTR_OWNER, List.mem_cons_self, List.cons_ne_nil _ _⟩
  obtain ⟨feed, s, s₁, t, hfeed, hs, hreg, ht, hfin, hwanted, hsent⟩ := hrun
  refine ⟨feed, s, s₁, t, hfeed, gapRun_of_gapSteps hs hreg ht, hfin, hwanted, ?_⟩
  rw [hsent]
  rintro ⟨m, hm, -⟩
  cases hm

end JobProvenance
