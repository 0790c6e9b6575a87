import JobProvenance.Primary.Begun
import JobProvenance.Primary.Continuous
import JobProvenance.Primary.HistoryExact

/-!
# What is due

A job is handed to a feed by a message. Before that it is due: what is left of some
deferred action is going to send it, as long as the storage stays as it is. Each part
of an action that is done leaves what is due so, whatever other slaves do meanwhile,
and makes nothing else due.

* `Task.Due`: what is left of an action is going to send a job to a feed;
* `MatchStep.exec_due`, `due_of_callback`: the steps of `match_feed`, and the rows of
  the past;
* `advances_of_exec`: what the next part of an action does.
-/

namespace JobProvenance

/-! ## What is due -/

/-- A job that is sent when the past of a feed is fed. -/
def InHistory (env : Env) (s : PsState) (feed : Jpfeed) (job : Bytes) : Prop :=
  ∃ f, splitFeed feed = .ok f ∧ ∃ row ∈ s.tables.jobs.rows, row.dgJobid = job ∧
    Satisfies s.tables.users.rows (getAttrs env s) f row ∧ HasRequested (getAttrs env s) feed f row

/-- A job of which the owner has arrived is sent to one of the loaded feeds, which is this
    one. -/
def MatchedLoaded (env : Env) (s : PsState) (feeds : List Jpfeed) (feed : Jpfeed) (job : Bytes)
    (attrs : List Attrval) : Prop :=
  ∃ g ∈ feeds, g.id = feed.id ∧ g.destination = feed.destination ∧ Feeds env s job attrs g

/-- A job was handed to a feed. -/
def HandedTo (feed : Jpfeed) (job : Bytes) (sent : List Sent) : Prop :=
  ∃ m ∈ sent, IsDelivery feed job m

/-- What it takes of the other values of a job to be stacked. -/
def Stackable (env : Env) (s : PsState) (feed : Jpfeed) (f : HistoryFeed) (job : Bytes) : Prop :=
  ∃ row : JobRow, row.dgJobid = job ∧ MeetsOther (getAttrs env s) f row ∧
    HasRequested (getAttrs env s) feed f row

/-- A call of `match_feed` is going to send the job. -/
def MatchStep.Due (env : Env) (s : PsState) (feed : Jpfeed) (job : Bytes) : MatchStep → Prop
  | .matching attrs => isFeedMatching (getAttrs env s) feed job attrs = .ok true
  | .checkFed _ | .fullFeed | .sendFull _ | .increment _ => True
  | .setFed => False

/-- What is left of a deferred action is going to send a job to a feed. -/
def Task.Due (env : Env) (s : PsState) (feed : Jpfeed) (job : Bytes) : Task → Prop
  | .runFeed _ => InHistory env s feed job
  | .feedRows f stack rows =>
    job ∈ stack.jobs ∨ (∃ row ∈ rows, row.1 = job) ∧ Stackable env s feed f job
  | .matchAttr feeds _ attrs => MatchedLoaded env s feeds feed job attrs
  | .matchFeed g _ _ step =>
    g.id = feed.id ∧ g.destination = feed.destination ∧ step.Due env s g job
  | _ => False

/-- The job is not among those that are still to be gone through for the past. -/
def Task.Avoids (job : Bytes) : Task → Prop
  | .feedRows _ _ rows => ∀ row ∈ rows, row.1 ≠ job
  | .runFeed _ | .registerFeed _ => True
  | _ => False

/-- What is left of the actions that are deferred here: the past is that of the feed, and
    the job is the one that was registered. -/
def Task.OfGap (feed : Jpfeed) (job : Bytes) : Task → Prop
  | .runFeed g => g = feed
  | .feedRows f stack rows => splitFeed feed = .ok f ∧
      (∃ items, stack.Holds items ∧ items.length < BATCH_FEED_SIZE) ∧
      ∀ row ∈ rows, ∃ (j : JobRow) (u : UserRow),
        row = (j.dgJobid, beValues (GLITE_JP_ATTR_OWNER :: f.metaAttr) j u)
  | .registerFeed _ => True
  | .matchAttr _ j _ | .matchFeed _ j _ _ => j = job
  | _ => False

/-! ## Parts of deferred actions -/

section Parts

variable {H : Type} {env : Env} {plugins : List (FilePlugin H)} {feed g : Jpfeed} {job : Bytes}
  {f : HistoryFeed} {sent msgs : List Sent} {items : List StackedJob} {stack stack' : Stack}
  {box box' : Outbox} {m : Sent} {done : Bool}

theorem handedTo_append : HandedTo feed job (sent ++ msgs) ↔
    HandedTo feed job sent ∨ HandedTo feed job msgs := by
  simp only [HandedTo, List.mem_append, or_and_right, exists_or]

/-- The jobs of a batch are handed to its feed. -/
theorem isDelivery_iff (hid : f.id = feed.id) (hdest : f.destination = feed.destination)
    (hm : IsMessage f done items m) : IsDelivery feed job m ↔ ∃ j ∈ items, j.job = job := by
  constructor
  · intro h
    obtain ⟨r, hr, hjob⟩ := h.jobid
    obtain ⟨j, hj, hrec⟩ := (Exec.mem_of_mapM hm.records).2 r hr
    exact ⟨j, hj, Option.some.inj ((jobid_of_jobRecord hrec).symm.trans hjob)⟩
  · rintro ⟨j, hj, rfl⟩
    obtain ⟨r, hr, hrec⟩ := (Exec.mem_of_mapM hm.records).1 j hj
    exact ⟨hm.destination_eq.trans hdest, hm.feedId_eq.trans hid, r, hr, jobid_of_jobRecord hrec⟩

theorem handedTo_batches (hid : f.id = feed.id) (hdest : f.destination = feed.destination)
    {batches : List (List StackedJob)} (hm : List.Forall₂ (IsMessage f done) batches msgs) :
    HandedTo feed job msgs ↔ ∃ j ∈ batches.flatten, j.job = job := by
  induction hm with
  | nil => simp [HandedTo]
  | cons hb _ ih =>
    rw [List.flatten_cons, HandedTo, List.exists_mem_cons_iff, isDelivery_iff hid hdest hb]
    simp only [List.mem_append, or_and_right, exists_or]
    exact or_congr_right ih

theorem Stack.Holds.mem_jobs (h : stack.Holds items) :
    job ∈ stack.jobs ↔ ∃ j ∈ items, j.job = job := by
  rw [h.jobs_eq, List.mem_map]

/-- A row is gone through: its job is stacked, or sent, when it should be. -/
theorem due_of_callback {getAttrs : Bytes → List Bytes → Exec (List Attrval)}
    {answers : ℕ → Bool} {row : Bytes × List Attrval}
    (hid : f.id = feed.id) (hdest : f.destination = feed.destination)
    (hs : stack.Holds items) (hlen : items.length < BATCH_FEED_SIZE)
    (h : feedQueryCallback answers getAttrs f stack row.1 row.2 box = .ok (none, stack') box') :
    ∃ r, stackedJob getAttrs f row = .ok r ∧
      (∃ items', stack'.Holds items' ∧ items'.length < BATCH_FEED_SIZE) ∧
      (HandedTo feed job box'.sent ∨ job ∈ stack'.jobs ↔
        (HandedTo feed job box.sent ∨ job ∈ stack.jobs) ∨ ∃ j, r = some j ∧ j.job = job) := by
  have hfed : Fed f box.sent items stack box :=
    ⟨[], items, [], ⟨rfl, nofun, hlen⟩, hs, (List.append_nil _).symm, .nil⟩
  obtain ⟨r, hr, batches, rest, msgs, hb, hs', hsent, hm⟩ := hfed.callback h
  refine ⟨r, hr, ⟨rest, hs', hb.length_rest⟩, ?_⟩
  rw [hsent, handedTo_append, handedTo_batches hid hdest hm, hs'.mem_jobs, hs.mem_jobs, or_assoc,
    or_assoc]
  refine or_congr_right ?_
  have hflat : (∃ j ∈ batches.flatten ++ rest, j.job = job) ↔
      ∃ j ∈ items ++ r.toList, j.job = job := by rw [hb.flatten]
  simpa only [List.mem_append, or_and_right, exists_or, Option.mem_toList, Option.mem_def]
    using hflat

/-- What the other values of a job are depends on the tables and the files. -/
theorem getAttrs_congr {s t : PsState} (htables : t.tables = s.tables) (hdisk : t.disk = s.disk) :
    getAttrs env t = getAttrs env s := by
  funext job names
  simp only [getAttrs, tagsNamed, htables, hdisk]

/-- What is sent, and what is left to be sent, when a call of `match_feed` takes a step. -/
theorem MatchStep.exec_due {step : MatchStep} {next : Option MatchStep} {s s' : PsState}
    (hans : ∀ n, env.answers n = true) (h : step.exec env g job s = .ok next s') :
    ∃ msgs, s' = { s with toOutbox := s'.toOutbox } ∧ s'.sent = s.sent ++ msgs ∧
      (∀ m ∈ msgs, IsDelivery g job m ∧ m.accepted = true) ∧
      ((msgs ≠ [] ∨ ∃ p, next = some p ∧ p.Due env s' g job) ↔ step.Due env s g job) := by
  cases step with
  | «matching» attrs =>
    obtain ⟨t, t', ht, h⟩ := Stateful.bind_eq_ok.1 h
    obtain ⟨rfl, rfl⟩ := EStateM.Result.ok.inj ht
    obtain ⟨b, t', ht, h⟩ := Stateful.bind_eq_ok.1 h
    obtain ⟨hb, rfl⟩ := Stateful.liftM_eq_ok.1 ht
    refine ⟨[], ?_⟩
    cases b with
    | true =>
      -- nothing is sent yet, but the next step is due
      obtain ⟨rfl, rfl⟩ := Stateful.pure_eq_ok.1 h
      exact ⟨rfl, (List.append_nil _).symm, nofun, iff_of_true (.inr ⟨_, rfl, trivial⟩) hb⟩
    | false =>
      -- the job does not match, and it ends here
      obtain ⟨rfl, rfl⟩ := Stateful.pure_eq_ok.1 h
      refine ⟨rfl, (List.append_nil _).symm, nofun, iff_of_false ?_ fun hd => ?_⟩
      · rintro (h | ⟨p, h, -⟩)
        · exact h rfl
        · cases h
      · cases hb.symm.trans hd
  | checkFed attrs =>
    obtain ⟨t, t', ht, h⟩ := Stateful.bind_eq_ok.1 h
    obtain ⟨rfl, rfl⟩ := EStateM.Result.ok.inj ht
    obtain ⟨fed, t', ht, h⟩ := Stateful.bind_eq_ok.1 h
    obtain ⟨-, rfl⟩ := Stateful.liftM_eq_ok.1 ht
    refine ⟨[], ?_⟩
    split_ifs at h
    all_goals
      obtain ⟨rfl, rfl⟩ := Stateful.pure_eq_ok.1 h
      exact ⟨rfl, (List.append_nil _).symm, nofun, iff_of_true (.inr ⟨_, rfl, trivial⟩) trivial⟩
  | fullFeed =>
    obtain ⟨t, t', ht, h⟩ := Stateful.bind_eq_ok.1 h
    obtain ⟨rfl, rfl⟩ := EStateM.Result.ok.inj ht
    obtain ⟨a, t', ht, h⟩ := Stateful.bind_eq_ok.1 h
    obtain ⟨-, rfl⟩ := Stateful.liftM_eq_ok.1 ht
    obtain ⟨rfl, rfl⟩ := Stateful.pure_eq_ok.1 h
    exact ⟨[], rfl, (List.append_nil _).symm, nofun, iff_of_true (.inr ⟨_, rfl, trivial⟩) trivial⟩
  | sendFull a =>
    obtain ⟨ret, t, ht, h⟩ := Stateful.bind_eq_ok.1 h
    obtain ⟨box, hbox, rfl⟩ := sending_eq_ok.1 ht
    obtain ⟨owner, jr, msgs, -, hjr, hatt⟩ := singleFeed_eq_ok hbox
    -- whether the mark is set next depends on the return value, the message does not
    have hs' : s' = { s with toOutbox := box } := by
      split_ifs at h <;> exact (Stateful.pure_eq_ok.1 h).2.symm
    subst hs'
    refine ⟨msgs, rfl, by rw [hatt.box_eq], fun m hm => ?_, iff_of_true (.inl hatt.ne_nil) trivial⟩
    obtain ⟨hdel, n, hacc⟩ := hatt.isDelivery hjr m hm
    exact ⟨hdel, hacc.trans (hans n)⟩
  | setFed =>
    obtain ⟨ret, t, ht, h⟩ := Stateful.bind_eq_ok.1 h
    obtain ⟨box, hbox, rfl⟩ := sending_eq_ok.1 ht
    obtain ⟨rfl, rfl⟩ := Stateful.pure_eq_ok.1 h
    have hsent := setFed_keeps_sent s.sent g.id job s.toOutbox rfl
    rw [hbox, Stateful.left_ok] at hsent
    refine ⟨[], rfl, by rw [List.append_nil, hsent], nofun, iff_of_false ?_ id⟩
    rintro (h | ⟨p, h, -⟩)
    · exact h rfl
    · cases h
  | increment attrs =>
    obtain ⟨t, t', ht, h⟩ := Stateful.bind_eq_ok.1 h
    obtain ⟨rfl, rfl⟩ := EStateM.Result.ok.inj ht
    obtain ⟨owner, t', ht, h⟩ := Stateful.bind_eq_ok.1 h
    obtain ⟨-, rfl⟩ := Stateful.liftM_eq_ok.1 ht
    obtain ⟨ret, t', ht, h⟩ := Stateful.bind_eq_ok.1 h
    obtain ⟨box, hbox, rfl⟩ := sending_eq_ok.1 ht
    obtain ⟨rfl, rfl⟩ := Stateful.pure_eq_ok.1 h
    obtain ⟨owner, jr, msgs, -, hjr, hatt⟩ := singleFeed_eq_ok hbox
    refine ⟨msgs, rfl, by rw [hatt.box_eq], fun m hm => ?_, iff_of_true (.inl hatt.ne_nil) trivial⟩
    obtain ⟨hdel, n, hacc⟩ := hatt.isDelivery hjr m hm
    exact ⟨hdel, hacc.trans (hans n)⟩

/-- A job of the past is one that is found by the query, and can be stacked. -/
theorem inHistory_iff {s : PsState} {rows : List (Bytes × List Attrval)}
    (hf : splitFeed feed = .ok f)
    (hrows : queryRows (beQuery s.tables.jobs.rows s.tables.users.rows) f = .ok rows) :
    InHistory env s feed job ↔ (∃ row ∈ rows, row.1 = job) ∧ Stackable env s feed f job := by
  constructor
  · rintro ⟨f', hf', row, hrow, rfl, ⟨⟨user, hu, hid, hmeta⟩, hother⟩, hreq⟩
    obtain rfl := Except.ok.inj (hf.symm.trans hf')
    exact ⟨⟨_, (mem_queryRows hrows).2 ⟨row, hrow, user, hu, hid, hmeta, rfl⟩, rfl⟩,
      row, rfl, hother, hreq⟩
  · rintro ⟨⟨_, hmem, rfl⟩, row', hid', hother, hreq⟩
    obtain ⟨row, hrow, user, hu, hid, hmeta, rfl⟩ := (mem_queryRows hrows).1 hmem
    -- of the other values only the identifier counts
    simp only [MeetsOther, HasRequested, hid'] at hother hreq
    exact ⟨f, hf, row, hrow, rfl, ⟨⟨user, hu, hid, hmeta⟩, hother⟩, hreq⟩

/-- All messages were accepted. -/
def AllAccepted (box : Outbox) : Prop := ∀ m ∈ box.sent, m.accepted = true

/-- What the next part of a deferred action does: what is due stays so. -/
structure Advances (env : Env) (feed : Jpfeed) (job : Bytes) (task : Task) (new : List Task)
    (s s' : PsState) : Prop where
  tables_eq : s'.tables = s.tables
  disk_eq : s'.disk = s.disk
  accepted : AllAccepted s.toOutbox → AllAccepted s'.toOutbox
  ofGap : ∀ t ∈ new, t.OfGap feed job
  avoids : (∀ row ∈ s.tables.jobs.rows, row.dgJobid ≠ job) → task.Avoids job →
    ∀ t ∈ new, t.Avoids job
  due_iff : HandedTo feed job s'.sent ∨ (∃ t ∈ new, t.Due env s' feed job) ↔
    HandedTo feed job s.sent ∨ task.Due env s feed job

/-- A part that sends nothing. -/
theorem Advances.of_eq {task : Task} {new : List Task} {s : PsState}
    (hgap : ∀ t ∈ new, t.OfGap feed job)
    (havoids : (∀ row ∈ s.tables.jobs.rows, row.dgJobid ≠ job) → task.Avoids job →
      ∀ t ∈ new, t.Avoids job)
    (hdue : (∃ t ∈ new, t.Due env s feed job) ↔ task.Due env s feed job) :
    Advances env feed job task new s s :=
  ⟨rfl, rfl, id, hgap, havoids, or_congr_right hdue⟩

variable {now : ℤ} {s s' : PsState} {new : List Task}

theorem advances_runFeed (h : (Task.runFeed feed).exec env plugins now s = .ok (.goes new) s') :
    Advances env feed job (.runFeed feed) new s s' := by
  obtain ⟨t, t', ht, h⟩ := Stateful.bind_eq_ok.1 h
  obtain ⟨rfl, rfl⟩ := EStateM.Result.ok.inj ht
  cases hf : splitFeed feed with
  | error e =>
    rw [hf] at h
    cases e <;> cases h
  | ok f =>
    rw [hf] at h
    dsimp only at h
    cases hq : beQuery s.tables.jobs.rows s.tables.users.rows f.metaQry
        (GLITE_JP_ATTR_OWNER :: f.metaAttr) with
    | error e =>
      rw [hq] at h
      -- the only error that is none is that there are no jobs
      match e with
      | .errno .ENOENT =>
        obtain ⟨hnew, rfl⟩ := Stateful.pure_eq_ok.1 h
        obtain rfl := Progress.goes.inj hnew
        have hrows : queryRows (beQuery s.tables.jobs.rows s.tables.users.rows) f = .ok [] := by
          rw [queryRows, hq]
        refine .of_eq nofun (fun _ _ => nofun) (iff_of_false nofun fun hdue => ?_)
        obtain ⟨⟨row, hrow, -⟩, -⟩ := (inHistory_iff hf hrows).1 hdue
        cases hrow
    | ok rows =>
      rw [hq] at h
      obtain ⟨hnew, rfl⟩ := Stateful.pure_eq_ok.1 h
      obtain rfl := Progress.goes.inj hnew
      have hrows : queryRows (beQuery s.tables.jobs.rows s.tables.users.rows) f = .ok rows := by
        rw [queryRows, hq]
      refine .of_eq (List.forall_mem_singleton.2 ⟨hf, ⟨[], .empty, Nat.zero_lt_succ _⟩, ?_⟩)
        (fun hjobs _ => List.forall_mem_singleton.2 ?_) ?_
      · intro row hrow
        obtain ⟨j, -, u, -, -, -, rfl⟩ := (mem_queryRows hrows).1 hrow
        exact ⟨j, u, rfl⟩
      · intro row hrow
        obtain ⟨j, hj, u, -, -, -, rfl⟩ := (mem_queryRows hrows).1 hrow
        exact hjobs j hj
      · simp only [List.mem_singleton, exists_eq_left, Task.Due, Stack.empty, List.not_mem_nil,
          false_or]
        exact (inHistory_iff hf hrows).symm

/-- A call that only sends. -/
theorem Advances.of_sending {task : Task} {new : List Task} {box : Outbox}
    (hacc : AllAccepted s.toOutbox → AllAccepted box)
    (hgap : ∀ t ∈ new, t.OfGap feed job) (havoids : task.Avoids job → ∀ t ∈ new, t.Avoids job)
    (hdue : HandedTo feed job box.sent ∨
        (∃ t ∈ new, t.Due env { s with toOutbox := box } feed job) ↔
      HandedTo feed job s.sent ∨ task.Due env s feed job) :
    Advances env feed job task new s { s with toOutbox := box } :=
  ⟨rfl, rfl, hacc, hgap, fun _ => havoids, hdue⟩

/-- They are when every answer says so. -/
theorem keeps_accepted_send {answers : ℕ → Bool} {destination : Bytes} {msg : UpdateJobs}
    (hans : ∀ n, answers n = true) :
    Stateful.Keeps AllAccepted (sendUpdateJobs answers destination msg) := fun _ h =>
  List.forall_mem_append.2 ⟨h, List.forall_mem_singleton.2 (hans _)⟩

theorem advances_feedRows_nil (hans : ∀ n, env.answers n = true) {f : HistoryFeed} {stack : Stack}
    (hgap : (Task.feedRows f stack []).OfGap feed job)
    (h : (Task.feedRows f stack []).exec env plugins now s = .ok (.goes new) s') :
    Advances env feed job (.feedRows f stack []) new s s' := by
  obtain ⟨hf, ⟨items, hs, -⟩, -⟩ := hgap
  obtain ⟨hid, hdest, -⟩ := splitFeed_asked hf
  obtain ⟨⟨ret, stack'⟩, t, ht, h⟩ := Stateful.bind_eq_ok.1 h
  obtain ⟨box, hbox, rfl⟩ := sending_eq_ok.1 ht
  have hkeeps : Stateful.Keeps AllAccepted (drainFeed env.answers f stack true) :=
    keeps_drainFeed (fun _ _ => keeps_accepted_send hans) fun _ => sends_setFed _ _
  have hacc := hkeeps s.toOutbox
  rw [hbox] at hacc
  have hhanded : HandedTo feed job box.sent ↔
      HandedTo feed job s.sent ∨ ∃ j ∈ items, j.job = job := by
    by_cases hnil : items = []
    · subst hnil
      rw [drainFeed_nil hs] at hbox
      obtain ⟨-, rfl⟩ := EStateM.Result.ok.inj hbox
      simp
    · obtain ⟨-, -, m, hsent, hm⟩ := drainFeed_eq_ok hs hnil hbox
      rw [hsent, handedTo_append, ← isDelivery_iff hid hdest hm]
      simp [HandedTo]
  cases ret with
  | some e => cases h
  | none =>
    obtain ⟨hnew, rfl⟩ := Stateful.pure_eq_ok.1 h
    obtain rfl := Progress.goes.inj hnew
    refine .of_sending hacc nofun (fun _ => nofun) ?_
    simp only [List.not_mem_nil, false_and, exists_false, or_false, Task.Due, hs.mem_jobs]
    exact hhanded

/-- What else a job needs does not change when only messages are sent. -/
theorem stackable_congr {f : HistoryFeed} (htables : s'.tables = s.tables)
    (hdisk : s'.disk = s.disk) : Stackable env s' feed f job ↔ Stackable env s feed f job := by
  rw [Stackable, Stackable, getAttrs_congr htables hdisk]

theorem advances_feedRows_cons (hans : ∀ n, env.answers n = true) {f : HistoryFeed} {stack : Stack}
    {row : Bytes × List Attrval} {rows : List (Bytes × List Attrval)}
    (hgap : (Task.feedRows f stack (row :: rows)).OfGap feed job)
    (h : (Task.feedRows f stack (row :: rows)).exec env plugins now s = .ok (.goes new) s') :
    Advances env feed job (.feedRows f stack (row :: rows)) new s s' := by
  obtain ⟨hf, ⟨items, hs, hlen⟩, hrows⟩ := hgap
  obtain ⟨⟨j, u, hrow⟩, hrows⟩ := List.forall_mem_cons.1 hrows
  obtain ⟨hid, hdest, -⟩ := splitFeed_asked hf
  obtain ⟨t, t', ht, h⟩ := Stateful.bind_eq_ok.1 h
  obtain ⟨rfl, rfl⟩ := EStateM.Result.ok.inj ht
  obtain ⟨⟨ret, stack'⟩, t, ht, h⟩ := Stateful.bind_eq_ok.1 h
  obtain ⟨box, hbox, rfl⟩ := sending_eq_ok.1 ht
  have hkeeps : Stateful.Keeps AllAccepted
      (feedQueryCallback env.answers (getAttrs env s) f stack row.1 row.2) :=
    keeps_feedQueryCallback (fun _ _ => keeps_accepted_send hans) fun _ => sends_setFed _ _
  have hacc := hkeeps s.toOutbox
  rw [hbox] at hacc
  cases ret with
  | some e => cases h
  | none =>
    obtain ⟨hnew, rfl⟩ := Stateful.pure_eq_ok.1 h
    obtain rfl := Progress.goes.inj hnew
    obtain ⟨r, hr, hs', hdue⟩ := @due_of_callback feed job f _ _ _ _ _ _ _ _ hid hdest hs hlen hbox
    refine .of_sending hacc (List.forall_mem_singleton.2 ⟨hf, hs', hrows⟩)
      (fun havoids => List.forall_mem_singleton.2 (List.forall_mem_cons.1 havoids).2) ?_
    -- the job of the row is stacked when it can be
    have hstacked : (∃ j, r = some j ∧ j.job = job) ↔ row.1 = job ∧ Stackable env s feed f job := by
      rw [hrow] at hr
      obtain ⟨hjob, hsome⟩ := stackedJob_eq_some hf hr
      rw [hrow]
      constructor
      · rintro ⟨k, rfl, rfl⟩
        exact ⟨(hjob k rfl).symm, j, (hjob k rfl).symm, hsome.1 rfl⟩
      · rintro ⟨rfl, j', hid', hother, hreq⟩
        simp only [MeetsOther, HasRequested, hid'] at hother hreq
        obtain ⟨k, rfl⟩ := Option.isSome_iff_exists.1 (hsome.2 ⟨hother, hreq⟩)
        exact ⟨k, rfl, hjob k rfl⟩
    simp only [List.mem_singleton, exists_eq_left, Task.Due, List.exists_mem_cons_iff]
    have hsame : Stackable env { s with toOutbox := box } feed f job ↔ Stackable env s feed f job :=
      stackable_congr rfl rfl
    rw [hsame, ← or_assoc, hdue, hstacked, or_and_right, or_assoc, or_assoc]

theorem advances_registerFeed {g : Jpfeed}
    (h : (Task.registerFeed g).exec env plugins now s = .ok (.goes new) s') :
    Advances env feed job (.registerFeed g) new s s' := by
  obtain ⟨⟨⟩, t, ht, h⟩ := Stateful.bind_eq_ok.1 h
  obtain ⟨hnew, rfl⟩ := Stateful.pure_eq_ok.1 h
  obtain rfl := Progress.goes.inj hnew
  have hsame : t.tables = s.tables ∧ t.disk = s.disk ∧ t.toOutbox = s.toOutbox := by
    unfold registerFeedDeferred at ht
    split at ht
    · obtain ⟨-, rfl⟩ := EStateM.Result.ok.inj ht
      exact ⟨rfl, rfl, rfl⟩
    · obtain ⟨-, rfl⟩ := EStateM.Result.ok.inj ht
      exact ⟨rfl, rfl, rfl⟩
    · cases ht
  obtain ⟨htables, hdisk, hbox⟩ := hsame
  refine ⟨htables, hdisk, fun hacc => hbox ▸ hacc, nofun, fun _ _ => nofun, ?_⟩
  rw [hbox]
  simp [Task.Due]

theorem advances_matchAttr {feeds : List Jpfeed} {attrs : List Attrval}
    (h : (Task.matchAttr feeds job attrs).exec env plugins now s = .ok (.goes new) s') :
    Advances env feed job (.matchAttr feeds job attrs) new s s' := by
  cases feeds with
  | nil =>
    obtain ⟨hnew, rfl⟩ := Stateful.pure_eq_ok.1 h
    obtain rfl := Progress.goes.inj hnew
    exact .of_eq (List.forall_mem_nil _) (fun _ h => h.elim) (by simp [Task.Due, MatchedLoaded])
  | cons g feeds =>
    obtain ⟨names, t, ht, h⟩ := Stateful.bind_eq_ok.1 h
    obtain ⟨hnames, rfl⟩ := Stateful.liftM_eq_ok.1 ht
    obtain ⟨-, rfl⟩ := elements_eq_ok.1 hnames
    split_ifs at h with hasks
    · obtain ⟨hnew, rfl⟩ := Stateful.pure_eq_ok.1 h
      obtain rfl := Progress.goes.inj hnew
      refine .of_eq (List.forall_mem_cons.2 ⟨rfl, List.forall_mem_singleton.2 rfl⟩)
        (fun _ h => h.elim) ?_
      simp [Task.Due, MatchStep.Due, MatchedLoaded, Feeds, hasks]
    · obtain ⟨hnew, rfl⟩ := Stateful.pure_eq_ok.1 h
      obtain rfl := Progress.goes.inj hnew
      refine .of_eq (List.forall_mem_singleton.2 rfl) (fun _ h => h.elim) ?_
      simp [Task.Due, MatchedLoaded, Feeds, hasks]

theorem advances_matchFeed (hans : ∀ n, env.answers n = true) {g : Jpfeed} {file : Bool}
    {step : MatchStep} (h : (Task.matchFeed g job file step).exec env plugins now s =
      .ok (.goes new) s') : Advances env feed job (.matchFeed g job file step) new s s' := by
  obtain ⟨next, t, ht, h⟩ := Stateful.bind_eq_ok.1 h
  obtain ⟨msgs, heq, hsent, hmsgs, hdue⟩ := MatchStep.exec_due hans ht
  have hstate : t = s' ∧ new = next.toList.map fun p => .matchFeed g job file p := by
    cases next with
    | none =>
      obtain ⟨hnew, rfl⟩ := Stateful.pure_eq_ok.1 h
      exact ⟨rfl, (Progress.goes.inj hnew).symm⟩
    | some p =>
      obtain ⟨hnew, rfl⟩ := Stateful.pure_eq_ok.1 h
      exact ⟨rfl, (Progress.goes.inj hnew).symm⟩
  obtain ⟨rfl, rfl⟩ := hstate
  refine ⟨by rw [heq], by rw [heq], fun hacc => ?_, ?_, fun _ => nofun, ?_⟩
  · rw [AllAccepted, hsent]
    exact List.forall_mem_append.2 ⟨hacc, fun m hm => (hmsgs m hm).2⟩
  · rintro t ht
    obtain ⟨p, -, rfl⟩ := List.mem_map.1 ht
    exact rfl
  · have hhanded : HandedTo feed job msgs ↔
        msgs ≠ [] ∧ g.id = feed.id ∧ g.destination = feed.destination := by
      constructor
      · rintro ⟨m, hm, hdel⟩
        obtain ⟨hdel', -⟩ := hmsgs m hm
        exact ⟨List.ne_nil_of_mem hm, hdel'.feedId.symm.trans hdel.feedId,
          hdel'.destination.symm.trans hdel.destination⟩
      · rintro ⟨hne, hid, hdest⟩
        obtain ⟨m, hm⟩ := List.exists_mem_of_ne_nil _ hne
        obtain ⟨hdel, -⟩ := hmsgs m hm
        exact ⟨m, hm, hdel.destination.trans hdest, hdel.feedId.trans hid, hdel.jobid⟩
    rw [hsent, handedTo_append, hhanded, Task.Due, ← hdue]
    simp only [List.mem_map, Option.mem_toList, exists_exists_and_eq_and, Task.Due]
    tauto

/-- What is due stays due when the next part of an action is done. -/
theorem advances_of_exec {task : Task} (hans : ∀ n, env.answers n = true)
    (hgap : task.OfGap feed job) (h : task.exec env plugins now s = .ok (.goes new) s') :
    Advances env feed job task new s s' := by
  cases task with
  | runFeed g =>
    obtain rfl : g = feed := hgap
    exact advances_runFeed h
  | feedRows f stack rows =>
    cases rows with
    | nil => exact advances_feedRows_nil hans hgap h
    | cons row rows => exact advances_feedRows_cons hans hgap h
  | registerFeed g => exact advances_registerFeed h
  | matchAttr feeds j attrs =>
    obtain rfl : j = job := hgap
    exact advances_matchAttr h
  | matchFeed g j file step =>
    obtain rfl : j = job := hgap
    exact advances_matchFeed hans h
  | matchAttrMulti | matchFile | matchVals | matchJobs | markJobs | freed => exact hgap.elim

/-- What is due is so as long as the tables and the files are the same. -/
theorem Task.due_congr (htables : s'.tables = s.tables) (hdisk : s'.disk = s.disk) (t : Task) :
    t.Due env s' feed job ↔ t.Due env s feed job := by
  have hget := @getAttrs_congr env _ _ htables hdisk
  cases t with
  | runFeed g => simp only [Task.Due, InHistory, htables, hget]
  | feedRows f stack rows => simp only [Task.Due, Stackable, hget]
  | matchAttr feeds j attrs => simp only [Task.Due, MatchedLoaded, Feeds, hget]
  | matchFeed g j file step => cases step <;> simp only [Task.Due, MatchStep.Due, hget]
  | registerFeed | matchAttrMulti | matchFile | matchVals | matchJobs | markJobs | freed =>
    exact Iff.rfl

end Parts

end JobProvenance
