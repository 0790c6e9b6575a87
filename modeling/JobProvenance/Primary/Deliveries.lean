import JobProvenance.Primary.Begun

/-!
# Marks and deliveries

A mark of a job of a feed stands for a message: one with the job was accepted by the
index server the feed is for. Three places set marks. Two of them send the job before,
or find it marked, but a batch of the past of a feed that is to be continued is marked
whatever the answer to its message was, as the error of a message of many jobs is lost.

* `Got`: what a mark stands for;
* `Task.Honest`: what is left of a deferred action will only set such marks;
* `got_of_reachable`: when the batches of the past of feeds that are to be continued are
  accepted, every mark stands for a message, in every state of a run;
* `not_got_rejected`: a batch that is rejected is marked.
-/

namespace JobProvenance

/-! ## What marks stand for -/

section Got

/-- The job of a mark was in a message for the feed that its index server accepted. -/
def Got (promised : List (Bytes × FeedRequest)) (sent : List Sent) (row : FedRow) : Prop :=
  ∃ m ∈ sent, m.accepted = true ∧ m.msg.feedId = row.feedid ∧
    Promised promised row.feedid m.destination [] ∧
      ∃ jr ∈ m.msg.jobAttributes, ∃ job, jr.jobid = some job ∧
        jobidUniquePathname job false = .ok row.jobid

/-- The mark of a job would stand for a message. -/
def MayMark (promised : List (Bytes × FeedRequest)) (sent : List Sent) (feed job : Bytes) : Prop :=
  ∀ row, fedRow feed job = .ok row → Got promised sent row

/-- All marks stand for messages, of which some were sent before. -/
structure BoxTrue (promised : List (Bytes × FeedRequest)) (sent : List Sent) (box : Outbox) :
    Prop where
  fed : ∀ row ∈ box.fed.rows, Got promised box.sent row
  sent : ∀ m ∈ sent, m ∈ box.sent

variable {promised promised' : List (Bytes × FeedRequest)} {sent sent' : List Sent} {row : FedRow}
  {box box' : Outbox} {answers : ℕ → Bool} {feed destination job : Bytes} {done : Bool}

theorem Got.mono (h : Got promised sent row) (hp : ∀ p ∈ promised, p ∈ promised')
    (hs : ∀ m ∈ sent, m ∈ sent') : Got promised' sent' row :=
  let ⟨m, hm, hacc, hid, hpr, hjob⟩ := h
  ⟨m, hs m hm, hacc, hid, hpr.mono hp, hjob⟩

theorem MayMark.mono (h : MayMark promised sent feed job) (hp : ∀ p ∈ promised, p ∈ promised')
    (hs : ∀ m ∈ sent, m ∈ sent') : MayMark promised' sent' feed job :=
  fun row hrow => (h row hrow).mono hp hs

/-- A message with a job, that is accepted where it should be. -/
theorem mayMark_of_message {m : Sent} {jr : JobRecord} (hp : Promised promised feed m.destination [])
    (hm : m ∈ sent) (hacc : m.accepted = true) (hid : m.msg.feedId = feed)
    (hjr : jr ∈ m.msg.jobAttributes) (hjob : jr.jobid = some job) :
    MayMark promised sent feed job := by
  intro row hrow
  obtain ⟨ju, hju, hrow⟩ := Exec.bind_eq_ok.1 hrow
  obtain rfl := Except.ok.inj hrow
  exact ⟨m, hm, hacc, hid, hp, jr, hjr, job, hjob, hju⟩

/-- More messages do no harm. -/
theorem BoxTrue.push (h : BoxTrue promised sent box) (destination : Bytes) (msg : UpdateJobs) :
    BoxTrue promised sent (box.push answers destination msg) where
  fed row hrow := (h.fed row hrow).mono (fun _ => id) fun _ => List.mem_append_left _
  sent m hm := List.mem_append_left _ (h.sent m hm)

theorem keeps_true_sendUpdateJobs (msg : UpdateJobs) :
    Stateful.Keeps (BoxTrue promised sent) (sendUpdateJobs answers destination msg) :=
  fun _ h => h.push destination msg

theorem keeps_true_singleFeed {owner : Option Bytes} {attrs : List Attrval} :
    Stateful.Keeps (BoxTrue promised sent)
      (singleFeed answers feed done destination job owner attrs) :=
  keeps_singleFeed fun _ => keeps_true_sendUpdateJobs _

theorem keeps_true_multiFeed {njobs : ℕ} {jobs owners : List Bytes} {attrs : List (List Attrval)} :
    Stateful.Keeps (BoxTrue promised sent)
      (multiFeed answers feed done njobs destination jobs owners attrs) :=
  keeps_multiFeed fun _ => keeps_true_sendUpdateJobs _

/-- A mark is set that stands for a message. -/
theorem MayMark.keeps_setFed (h : MayMark promised sent feed job) :
    Stateful.Keeps (BoxTrue promised sent) (setFed feed job) := by
  intro box hbox
  cases hrow : fedRow feed job with
  | ok row =>
    obtain ⟨ret, box', hset, hsent, hfed⟩ := setFed_of_row hrow box
    rw [hset]
    refine ⟨fun r hr => ?_, fun m hm => hsent ▸ hbox.sent m hm⟩
    rw [Stateful.left_ok, hsent]
    obtain hr | rfl := (hfed r).1 hr
    · exact hbox.fed r hr
    · exact (h r hrow).mono (fun _ => id) hbox.sent
  | error e =>
    obtain ⟨e', hset⟩ | hset := setFed_of_no_row hrow box
    · rw [hset]
      exact hbox
    · rw [hset]
      exact hbox

/-- A job that was sent on its own until it was accepted may be marked. -/
theorem mayMark_of_singleFeed {owner : Option Bytes} {attrs : List Attrval}
    (hp : Promised promised feed destination [])
    (h : singleFeed answers feed done destination job owner attrs box = .ok none box') :
    MayMark promised box'.sent feed job := by
  obtain ⟨o, jr, msgs, -, hjr, hatt⟩ := singleFeed_eq_ok h
  obtain ⟨m, hm, hacc⟩ := hatt.ret_iff.1 rfl
  obtain ⟨rfl, hmsg, -⟩ := hatt.same m hm
  have hsent : m ∈ box'.sent := hatt.box_eq ▸ List.mem_append_right _ hm
  refine mayMark_of_message hp hsent hacc ?_ ?_ (jobid_of_jobRecord hjr)
  · rw [hmsg]
  · rw [hmsg]
    exact List.mem_singleton_self _

/-- The jobs of a message that is accepted may be marked. -/
theorem mayMark_of_multiFeed {njobs i : ℕ} {jobs owners : List Bytes} {attrs : List (List Attrval)}
    {ret : Ret} (hp : Promised promised feed destination [])
    (hacc : answers box.sent.length = true)
    (h : multiFeed answers feed done njobs destination jobs owners attrs box = .ok ret box')
    (hi : i < njobs) (hjob : jobs[i]? = some job) : MayMark promised box'.sent feed job := by
  obtain ⟨-, records, hrec, rfl⟩ := multiFeed_eq_ok.1 h
  obtain ⟨jr, hjr, hrec⟩ := (Exec.mem_of_mapM hrec).1 i (List.mem_range.2 hi)
  rw [hjob] at hrec
  obtain ⟨job', hjob', hrec⟩ := Exec.bind_eq_ok.1 hrec
  obtain rfl := Option.some.inj (Exec.deref_eq_ok.1 hjob')
  obtain ⟨owner, -, hrec⟩ := Exec.bind_eq_ok.1 hrec
  obtain ⟨as, -, hrec⟩ := Exec.bind_eq_ok.1 hrec
  exact mayMark_of_message (m := ⟨destination, ⟨feed, done, records⟩, answers box.sent.length⟩) hp
    (List.mem_append_right _ (List.mem_singleton_self _)) hacc rfl hjr (jobid_of_jobRecord hrec)

end Got

/-! ## The past of a feed -/

section History

variable {promised : List (Bytes × FeedRequest)} {sent : List Sent} {answers : ℕ → Bool}
  {f : HistoryFeed} {stack : Stack} {box : Outbox} {done : Bool}
  {getAttrs : Bytes → List Bytes → Exec (List Attrval)} {job : Bytes} {metadata : List Attrval}

/-- The stacked jobs are marked, if at all, when their message was accepted. -/
theorem drainFeed_true (hp : Promised promised f.id f.destination [])
    (hacc : f.continuous = true → stack.njobs ≠ 0 → answers box.sent.length = true)
    (hbox : BoxTrue promised sent box) :
    BoxTrue promised sent (Stateful.left (drainFeed answers f stack done box)) := by
  unfold drainFeed
  split_ifs with hn
  · exact hbox
  · have hkeep : BoxTrue promised sent (Stateful.left (multiFeed answers f.id done stack.njobs
        f.destination stack.jobs stack.owners stack.jobAttrs box)) := keeps_true_multiFeed box hbox
    rw [Stateful.bind_eq]
    cases hm : multiFeed answers f.id done stack.njobs f.destination stack.jobs stack.owners
      stack.jobAttrs box with
    | error e t =>
      rw [hm] at hkeep
      exact hkeep
    | ok ret t =>
      rw [hm] at hkeep
      dsimp only
      split_ifs with hc
      · -- what is marked now was accepted just before
        have hmark : Stateful.Keeps (BoxTrue promised t.sent)
            ((List.range stack.njobs).forM fun i => (do
              let job ← Exec.deref stack.jobs[i]?
              let _ ← setFed f.id job : Sending PUnit)) := by
          refine .forM_mem fun i hi => .liftM_bind fun job hjob => ?_
          have hmay := mayMark_of_multiFeed hp (hacc hc.2 hn) hm (List.mem_range.1 hi)
            (Exec.deref_eq_ok.1 hjob)
          exact hmay.keeps_setFed.bind fun _ => .pure _
        have hend := hmark.bind (fun _ => .pure (ret, Stack.empty)) t ⟨hkeep.fed, fun _ => id⟩
        exact ⟨hend.fed, fun m hm => hend.sent m (hkeep.sent m hm)⟩
      · exact hkeep

/-- How many jobs are stacked behind a row. -/
theorem njobs_stackJob {out : List Attrval} {stack' : Stack}
    {other : Option (List Attrval)} (ho : otherValues getAttrs f job = .ok other)
    (hpass : passes f other = .ok true) (hout : extract f metadata other = .ok out)
    (h : stackJob stack job metadata out = .ok stack') :
    ∃ j, stackedJob getAttrs f (job, metadata) = .ok j ∧
      stack'.njobs = stack.njobs + j.toList.length := by
  have hstacked : stackedJob getAttrs f (job, metadata) = (do
      if out = [] then return none
      let owner ← rowOwner metadata
      return some ⟨job, owner, out⟩) := by
    rw [stackedJob, ho, Exec.ok_bind, hpass, Exec.ok_bind, if_pos rfl, hout, Exec.ok_bind]
  rw [hstacked]
  unfold stackJob at h
  split_ifs at h ⊢ with hnil
  · exact ⟨none, rfl, (Except.ok.inj h) ▸ rfl⟩
  · obtain ⟨owner, howner, h⟩ := Exec.bind_eq_ok.1 h
    rw [howner]
    exact ⟨some ⟨job, owner, out⟩, rfl, (Except.ok.inj h) ▸ rfl⟩

/-- So they are when a row makes them a batch. -/
theorem feedQueryCallback_true (hp : Promised promised f.id f.destination [])
    (hacc : f.continuous = true → ∀ j, stackedJob getAttrs f (job, metadata) = .ok j →
      BATCH_FEED_SIZE ≤ stack.njobs + j.toList.length → answers box.sent.length = true)
    (hbox : BoxTrue promised sent box) : BoxTrue promised sent
      (Stateful.left (feedQueryCallback answers getAttrs f stack job metadata box)) := by
  unfold feedQueryCallback
  cases ho : otherValues getAttrs f job with
  | error e => cases e <;> exact hbox
  | ok other =>
    dsimp only
    rw [Stateful.liftM_bind]
    cases hpass : passes f other with
    | error e => exact hbox
    | ok pass =>
      cases pass with
      | false => exact hbox
      | true =>
        simp only [if_true]
        rw [Stateful.liftM_bind]
        cases hout : extract f metadata other with
        | error e => exact hbox
        | ok out =>
          dsimp only
          rw [Stateful.liftM_bind]
          cases hstack : stackJob stack job metadata out with
          | error e => exact hbox
          | ok stack' =>
            obtain ⟨j, hj, hn⟩ := njobs_stackJob ho hpass hout hstack
            dsimp only
            unfold drainFull
            split_ifs with hbatch
            · have hdrain : BoxTrue promised sent
                  (Stateful.left (drainFeed answers f stack' false box)) :=
                drainFeed_true hp (fun hc _ => hacc hc j hj (hn ▸ hbatch)) hbox
              rw [Stateful.bind_eq]
              cases hd : drainFeed answers f stack' false box with
              | error e t =>
                rw [hd] at hdrain
                exact hdrain
              | ok r t =>
                rw [hd] at hdrain
                exact hdrain
            · exact hbox

end History

/-! ## Parts of deferred actions -/

/-- The feeds are known under their identifiers. -/
def KnownFeeds (promised : List (Bytes × FeedRequest)) (feeds : List Jpfeed) : Prop :=
  ∀ f ∈ feeds, Promised promised f.id f.destination []

/-- The jobs that will be marked again may be. -/
def MatchedTrue (promised : List (Bytes × FeedRequest)) (sent : List Sent) (feed : Jpfeed)
    (matched : List MatchedJob) : Prop :=
  ∀ m ∈ matched, ∀ k, m.fed = some k → k ≠ 0 → MayMark promised sent feed.id m.job

/-- What is left of a deferred action is about feeds that were promised, and will mark only
    what may be marked, now or once it is sent. -/
def Task.Honest (promised : List (Bytes × FeedRequest)) (sent : List Sent) : Task → Prop
  | .runFeed feed | .registerFeed feed => Promised promised feed.id feed.destination []
  | .feedRows f _ _ => Promised promised f.id f.destination []
  | .matchAttr feeds _ _ | .matchAttrMulti feeds _ | .matchFile feeds _ _ _
  | .matchVals feeds _ _ => KnownFeeds promised feeds
  | .matchFeed feed job _ step => Promised promised feed.id feed.destination [] ∧
      (step = .setFed → MayMark promised sent feed.id job)
  | .matchJobs feed _ matched => Promised promised feed.id feed.destination [] ∧
      MatchedTrue promised sent feed matched
  | .markJobs feed matched => MatchedTrue promised sent feed matched
  | .freed => True

/-- The marks stand for messages, and the feeds in the table are known. -/
structure StateTrue (promised : List (Bytes × FeedRequest)) (sent : List Sent) (s : PsState) :
    Prop where
  box : BoxTrue promised sent s.toOutbox
  feeds : ∀ row ∈ s.feeds.rows, Promised promised row.feedid row.destination []

/-- The part sends a batch of the past of a feed that is to be continued. -/
def Task.SendsPast (env : Env) (s : PsState) : Task → Prop
  | .feedRows f stack [] => f.continuous = true ∧ stack.njobs ≠ 0
  | .feedRows f stack (row :: _) => f.continuous = true ∧
      ∃ j, stackedJob (getAttrs env s) f row = .ok j ∧
        BATCH_FEED_SIZE ≤ stack.njobs + j.toList.length
  | _ => False

section Tasks

variable {H : Type} {env : Env} {plugins : List (FilePlugin H)}
  {promised promised' : List (Bytes × FeedRequest)} {sent sent' : List Sent} {feed : Jpfeed}
  {job : Bytes} {file : Bool} {now : ℤ} {s : PsState} {t : Task}

theorem Task.Honest.mono (h : t.Honest promised sent) (hp : ∀ p ∈ promised, p ∈ promised')
    (hs : ∀ m ∈ sent, m ∈ sent') : t.Honest promised' sent' := by
  have hmatched : ∀ {feed : Jpfeed} {matched : List MatchedJob},
      MatchedTrue promised sent feed matched → MatchedTrue promised' sent' feed matched :=
    fun h m hm k hk h0 => (h m hm k hk h0).mono hp hs
  cases t with
  | runFeed feed | registerFeed feed => exact Promised.mono h hp
  | feedRows f stack rows => exact Promised.mono h hp
  | matchAttr feeds job attrs => exact fun f hf => (h f hf).mono hp
  | matchAttrMulti feeds jobs => exact fun f hf => (h f hf).mono hp
  | matchFile feeds job cls name => exact fun f hf => (h f hf).mono hp
  | matchVals feeds job vals => exact fun f hf => (h f hf).mono hp
  | matchFeed feed job file step => exact ⟨h.1.mono hp, fun hst => (h.2 hst).mono hp hs⟩
  | matchJobs feed jobs matched => exact ⟨h.1.mono hp, hmatched h.2⟩
  | markJobs feed matched => exact hmatched h
  | freed => trivial

/-- A call that only sends leaves the feeds alone. -/
theorem stateTrue_sending {α : Type} {x : Sending α} (hs : StateTrue promised sent s)
    (h : BoxTrue promised sent (Stateful.left (x s.toOutbox))) :
    StateTrue promised sent (Stateful.left ((liftM x : Serving α) s)) := by
  rw [sending_apply]
  split <;> rename_i hx <;> rw [hx] at h <;> exact ⟨h, hs.feeds⟩

theorem keeps_stateTrue {α : Type} {x : Sending α}
    (h : Stateful.Keeps (BoxTrue promised sent) x) :
    Stateful.Keeps (StateTrue promised sent) (liftM x : Serving α) :=
  fun s hs => stateTrue_sending hs (h s.toOutbox hs.box)

theorem registerFeedDeferred_true (hf : Promised promised feed.id feed.destination []) :
    Stateful.Keeps (StateTrue promised sent) (registerFeedDeferred env now feed) := by
  intro s hs
  obtain ⟨hbox, hfeeds⟩ := @keeps_keys_registerFeed env (fun id dest => Promised promised id dest [])
    feed now s.toOutbox hf s ⟨rfl, hs.feeds⟩
  exact ⟨hbox ▸ hs.box, hfeeds⟩

/-- A step of a call of `match_feed`, but the one that sends a job for the first time. -/
theorem MatchStep.exec_true {step : MatchStep} (hmay : step = .setFed →
      MayMark promised sent feed.id job) (hstep : ∀ a, step ≠ .sendFull a) :
    Stateful.Yields (StateTrue promised sent) (fun next => next ≠ some .setFed)
      (step.exec env feed job) := by
  cases step with
  | «matching» attrs =>
    refine Stateful.Yields.get.bind fun s _ => (Stateful.Keeps.liftM _).yields.bind fun m _ => ?_
    split_ifs <;> exact .pure nofun
  | checkFed attrs =>
    refine Stateful.Yields.get.bind fun s _ => (Stateful.Keeps.liftM _).yields.bind fun n _ => ?_
    split_ifs <;> exact .pure nofun
  | fullFeed =>
    exact Stateful.Yields.get.bind fun s _ => (Stateful.Keeps.liftM _).yields.bind fun a _ =>
      .pure nofun
  | sendFull a => exact absurd rfl (hstep a)
  | setFed => exact (keeps_stateTrue (hmay rfl).keeps_setFed).yields.bind fun _ _ => .pure nofun
  | increment attrs =>
    exact Stateful.Yields.get.bind fun s _ => (Stateful.Keeps.liftM _).yields.bind fun owner _ =>
      (keeps_stateTrue keeps_true_singleFeed).yields.bind fun _ _ => .pure nofun

/-- A part that only chooses leaves what is honest. -/
theorem Task.Honest.choice {t t' : Task} (ht : t.Honest promised sent) (h : t.Choice t') :
    t'.Honest promised sent := by
  cases h with
  | rows hsplit =>
    obtain ⟨hid, hdest, -⟩ := splitFeed_asked hsplit
    rw [Task.Honest, hid, hdest]
    exact ht
  | failed => trivial
  | attr | jobs | val => exact ⟨(List.forall_mem_cons.1 ht).1, nofun⟩
  | attrs | multi | vals => exact (List.forall_mem_cons.1 ht).2
  | file | again => exact ht

/-- The parts that neither send the past, nor a job for the first time, nor look for marks of
    several jobs. -/
theorem Task.exec_true (ht : t.Honest promised sent)
    (hrows : ∀ f stack rows, t ≠ .feedRows f stack rows)
    (hfull : ∀ feed job file a, t ≠ .matchFeed feed job file (.sendFull a))
    (hjobs : ∀ feed j jobs matched, t ≠ .matchJobs feed (j :: jobs) matched) :
    Stateful.Yields (StateTrue promised sent) (fun p => ∀ t ∈ p.tasks, t.Honest promised sent)
      (t.exec env plugins now) := by
  have hnil : ∀ t ∈ (Progress.goes []).tasks, Task.Honest promised sent t := nofun
  cases t with
  | runFeed | matchAttr | matchAttrMulti | matchFile | matchVals =>
    exact Task.exec_choice trivial fun t => ht.choice
  | feedRows f stack rows => exact absurd rfl (hrows f stack rows)
  | registerFeed feed => exact (registerFeedDeferred_true ht).yields.bind fun _ _ => .pure hnil
  | matchFeed feed job file step =>
    refine (MatchStep.exec_true ht.2 ?_).bind fun next hnext => ?_
    · rintro a rfl
      exact hfull feed job file a rfl
    · cases next with
      | none => exact .pure hnil
      | some step' =>
        refine .pure (List.forall_mem_singleton.2 ⟨ht.1, ?_⟩)
        rintro rfl
        exact absurd rfl hnext
  | matchJobs feed jobs matched =>
    cases jobs with
    | nil =>
      refine (keeps_stateTrue keeps_true_multiFeed).yields.bind fun ret _ => ?_
      split_ifs
      · exact .pure (List.forall_mem_singleton.2 ht.2)
      · exact .pure hnil
    | cons j jobs => exact absurd rfl (hjobs feed j jobs matched)
  | markJobs feed matched =>
    cases matched with
    | nil => exact .pure hnil
    | cons m matched =>
      obtain ⟨hm, hrest⟩ := List.forall_mem_cons.1 ht
      refine (Stateful.Yields.liftM fun k hk => Exec.deref_eq_ok.1 hk).bind fun k hk => ?_
      have hgo : Stateful.Yields (StateTrue promised sent)
          (fun p => ∀ t ∈ p.tasks, t.Honest promised sent)
          (pure (.goes [.markJobs feed matched]) : Serving Progress) :=
        .pure (List.forall_mem_singleton.2 hrest)
      split_ifs with h0
      · exact (keeps_stateTrue (hm k hk h0).keeps_setFed).yields.bind fun _ _ => hgo
      · exact hgo
  | freed => exact .throw _

/-- What a part leaves when what is returned by a call that only sends decides what is left
    to do. -/
theorem exec_sending {α : Type} {x : Sending α} {g : α → Progress} (hs : StateTrue promised sent s)
    (h : BoxTrue promised sent (Stateful.left (x s.toOutbox)))
    (hg : ∀ a box, x s.toOutbox = .ok a box → ∀ t ∈ (g a).tasks, t.Honest promised box.sent) :
    StateTrue promised sent (Stateful.left
        (((liftM x : Serving α) >>= fun a => pure (g a)) s)) ∧
      ∀ p ps, ((liftM x : Serving α) >>= fun a => pure (g a)) s = .ok p ps →
        ∀ t ∈ p.tasks, t.Honest promised ps.sent := by
  have hstate := stateTrue_sending hs h
  constructor
  · rw [Stateful.bind_eq]
    cases hx : (liftM x : Serving α) s with
    | ok a u =>
      rw [hx] at hstate
      exact hstate
    | error e u =>
      rw [hx] at hstate
      exact hstate
  · intro p ps hp
    obtain ⟨a, u, hx, hp⟩ := Stateful.bind_eq_ok.1 hp
    obtain ⟨rfl, rfl⟩ := Stateful.pure_eq_ok.1 hp
    obtain ⟨box, hbox, rfl⟩ := sending_eq_ok.1 hx
    exact hg a box hbox

/-- The part that sends a job for the first time. -/
theorem sendFull_honest {a : List Attrval} (hs : StateTrue promised sent s)
    (hf : Promised promised feed.id feed.destination []) :
    StateTrue promised sent (Stateful.left
        ((Task.matchFeed feed job file (.sendFull a)).exec env plugins now s)) ∧
      ∀ p ps, (Task.matchFeed feed job file (.sendFull a)).exec env plugins now s = .ok p ps →
        ∀ t ∈ p.tasks, t.Honest promised ps.sent := by
  let owner := (a.find? (·.name = GLITE_JP_ATTR_OWNER)).map (·.value)
  have hexec : (Task.matchFeed feed job file (.sendFull a)).exec env plugins now =
      ((liftM (singleFeed env.answers feed.id false feed.destination job owner a) : Serving Ret) >>=
        fun ret => pure (if ret = none then .goes [.matchFeed feed job file .setFed] else .goes [])) := by
    rw [Task.exec, MatchStep.exec, bind_assoc]
    congr 1
    funext ret
    split_ifs <;> rfl
  rw [hexec]
  refine exec_sending hs (keeps_true_singleFeed _ hs.box) fun ret box hret t ht => ?_
  split_ifs at ht with hnone
  · subst hnone
    obtain rfl := List.mem_singleton.1 ht
    exact ⟨hf, fun _ => mayMark_of_singleFeed hf hret⟩
  · cases ht

/-- The part that looks for the mark of a job of several: a mark that is there stands for a
    message. -/
theorem matchJobs_honest {attrs : List Attrval} {jobs : List (Bytes × List Attrval)}
    {matched : List MatchedJob} (hs : StateTrue promised s.sent s)
    (hf : Promised promised feed.id feed.destination [])
    (hm : MatchedTrue promised s.sent feed matched) :
    Stateful.Yields (· = s) (fun p => ∀ t ∈ p.tasks, t.Honest promised s.sent)
      ((Task.matchJobs feed ((job, attrs) :: jobs) matched).exec env plugins now) := by
  refine Stateful.Yields.get.bind fun u hu => ?_
  subst hu
  refine (Stateful.Keeps.liftM _).yields.bind fun m _ => ?_
  split_ifs
  · refine (Stateful.Keeps.liftM _).yields.bind fun owner _ =>
      (Stateful.Keeps.liftM _).yields.bind fun o _ => .pure (List.forall_mem_singleton.2 ⟨hf, ?_⟩)
    refine List.forall_mem_append.2 ⟨hm, List.forall_mem_singleton.2 fun k hk h0 row hrow => ?_⟩
    cases hcheck : checkFed u.fed feed.id job with
    | error e =>
      rw [hcheck] at hk
      cases hk
    | ok n =>
      rw [hcheck] at hk
      obtain rfl := Option.some.inj hk
      obtain ⟨row', hrow', hn⟩ := Exec.bind_eq_ok.1 hcheck
      obtain rfl := Except.ok.inj (hrow.symm.trans hrow')
      obtain rfl := Except.ok.inj hn
      obtain ⟨r, hr, hrr⟩ := List.countP_pos_iff.1 (Nat.pos_of_ne_zero h0)
      exact hs.box.fed row (of_decide_eq_true hrr ▸ hr)
  · exact .pure (List.forall_mem_singleton.2 ⟨hf, hm⟩)

/-- The parts that send the past. -/
theorem feedRows_honest {f : HistoryFeed} {stack : Stack} {rows : List (Bytes × List Attrval)}
    (hs : StateTrue promised sent s) (hf : Promised promised f.id f.destination [])
    (hacc : (Task.feedRows f stack rows).SendsPast env s → env.answers s.sent.length = true) :
    StateTrue promised sent (Stateful.left
        ((Task.feedRows f stack rows).exec env plugins now s)) ∧
      ∀ p ps, (Task.feedRows f stack rows).exec env plugins now s = .ok p ps →
        ∀ t ∈ p.tasks, t.Honest promised ps.sent := by
  cases rows with
  | nil =>
    have hexec : (Task.feedRows f stack []).exec env plugins now =
        ((liftM (drainFeed env.answers f stack true) : Serving (Ret × Stack)) >>= fun r =>
          pure (r.1.elim (.goes []) fun _ => .fails .freed)) := by
      rw [Task.exec]
      congr 1
      funext r
      obtain ⟨ret, stack'⟩ := r
      cases ret <;> rfl
    rw [hexec]
    refine exec_sending hs (drainFeed_true hf (fun hc hn => hacc ⟨hc, hn⟩) hs.box)
      fun r box _ t ht => ?_
    obtain ⟨ret, stack'⟩ := r
    cases ret with
    | none => cases ht
    | some e =>
      obtain rfl := List.mem_singleton.1 ht
      trivial
  | cons row rows =>
    obtain ⟨job, metadata⟩ := row
    have hexec : (Task.feedRows f stack ((job, metadata) :: rows)).exec env plugins now s =
        ((liftM (feedQueryCallback env.answers (getAttrs env s) f stack job metadata) :
          Serving (Ret × Stack)) >>= fun r =>
            pure (r.1.elim (.goes [.feedRows f r.2 rows]) fun _ => .fails .freed)) s := by
      rw [Task.exec, Stateful.get_bind]
      refine congrFun (bind_congr fun r => ?_) s
      obtain ⟨ret, stack'⟩ := r
      cases ret <;> rfl
    rw [hexec]
    refine exec_sending hs (feedQueryCallback_true hf (fun hc j hj hn => hacc ⟨hc, j, hj, hn⟩) hs.box)
      fun r box _ t ht => ?_
    obtain ⟨ret, stack'⟩ := r
    cases ret with
    | none =>
      obtain rfl := List.mem_singleton.1 ht
      exact hf
    | some e =>
      obtain rfl := List.mem_singleton.1 ht
      trivial

/-- A part of a deferred action marks what may be marked, and so will what is left of it. -/
theorem Task.exec_honest (hs : StateTrue promised s.sent s) (ht : t.Honest promised s.sent)
    (hacc : t.SendsPast env s → env.answers s.sent.length = true) :
    StateTrue promised s.sent (Stateful.left (t.exec env plugins now s)) ∧
      ∀ p ps, t.exec env plugins now s = .ok p ps → ∀ t' ∈ p.tasks, t'.Honest promised ps.sent := by
  by_cases hrows : ∃ f stack rows, t = .feedRows f stack rows
  · obtain ⟨f, stack, rows, rfl⟩ := hrows
    exact feedRows_honest hs ht hacc
  by_cases hfull : ∃ feed job file a, t = .matchFeed feed job file (.sendFull a)
  · obtain ⟨feed, job, file, a, rfl⟩ := hfull
    exact sendFull_honest hs ht.1
  by_cases hjobs : ∃ feed j jobs matched, t = .matchJobs feed (j :: jobs) matched
  · obtain ⟨feed, ⟨job, attrs⟩, jobs, matched, rfl⟩ := hjobs
    have hyields := @matchJobs_honest H env plugins promised feed job now s attrs jobs matched hs
      ht.1 ht.2
    have hstay := hyields.1 s rfl
    refine ⟨hstay.symm ▸ hs, fun p ps h t' ht' => ?_⟩
    rw [h] at hstay
    obtain rfl : ps = s := hstay
    exact hyields.2 ps rfl p ps h t' ht'
  · have hyields := @Task.exec_true H env plugins promised s.sent now t ht
      (fun f stack rows h => hrows ⟨f, stack, rows, h⟩)
      (fun feed job file a h => hfull ⟨feed, job, file, a, h⟩)
      fun feed j jobs matched h => hjobs ⟨feed, j, jobs, matched, h⟩
    have hstate := hyields.1 s hs
    refine ⟨hstate, fun p ps h t' ht' => ?_⟩
    rw [h] at hstate
    exact (hyields.2 s hs p ps h t' ht').mono (fun _ => id) hstate.box.sent

end Tasks

/-! ## Runs -/

section Runs

variable {H : Type} {env : Env} {plugins : List (FilePlugin H)} {s t : ServerState}
  {a : ServerAction}

/-- A batch of the past of a feed that is to be continued is accepted, if one is sent. -/
def PastAccepted (env : Env) (s : ServerState) (a : ServerAction) : Prop :=
  ∀ i now feeds task tasks, a = .exec i now → s.slaves i = some ⟨feeds, task :: tasks, true⟩ →
    task.SendsPast env s.ps → env.answers s.ps.sent.length = true

/-- What a run keeps when these are accepted. -/
structure AllTrue (s : ServerState) : Prop where
  state : StateTrue s.promised s.ps.sent s.ps
  slaves : s.All (fun f => Promised s.promised f.id f.destination [])
    (Task.Honest s.promised s.ps.sent)

/-- What a request defers is about feeds that are known. -/
theorem DeferredBy.honest {promised : List (Bytes × FeedRequest)} {sent : List Sent}
    {feeds : List Jpfeed} {now : ℤ} {r : ServerRequest} {task : Task}
    (h : DeferredBy env feeds now r task) (hfeeds : KnownFeeds promised feeds)
    (hr : ∀ p ∈ r.promise env, p ∈ promised) : task.Honest promised sent := by
  have hmade : ∀ {destination : Bytes} {attrs : List Bytes} {qry : List QueryRec} {expires : ℤ}
      {feed : Jpfeed} {buf : Bytes} {fr : FeedRequest}, (env.md5 buf, fr) ∈ promised →
      fr.destination = some destination →
      makeJpfeed destination attrs qry (env.md5 buf) expires = .ok feed →
        Promised promised feed.id feed.destination [] := by
    intro destination attrs qry expires feed buf fr hmem hd hmake
    obtain ⟨_, -, hmake⟩ := Exec.bind_eq_ok.1 hmake
    obtain rfl := Except.ok.inj hmake
    exact ⟨fr, hmem, hd, nofun⟩
  cases h with
  | registerJob => exact hfeeds
  | recordTag => exact hfeeds
  | recordMultiTags => exact hfeeds
  | commitUpload => exact hfeeds
  | history hd _ hmake =>
    have hpromised := hmade (hr _ (List.mem_singleton_self _)) hd hmake
    exact hpromised
  | continuous hd _ hmake => exact hmade (hr _ (List.mem_singleton_self _)) hd hmake

/-- The slaves when more was sent, and one of them has changed. -/
theorem AllTrue.of_slave (hs : AllTrue s) {ps : PsState} {i : ℕ} {slave : Option Slave}
    (hstate : StateTrue s.promised s.ps.sent ps)
    (hslave : ∀ sl, slave = some sl → KnownFeeds s.promised sl.feeds ∧
      ∀ t ∈ sl.tasks, t.Honest s.promised ps.sent) :
    AllTrue (s.set ps i slave) where
  state := ⟨⟨hstate.box.fed, fun _ => id⟩, hstate.feeds⟩
  slaves := ServerState.All.set
    (hs.slaves.mono (fun _ => id) fun _ ht => ht.mono (fun _ => id) hstate.box.sent) hslave

/-- Every step in which they are keeps it. -/
theorem AllTrue.step (hs : AllTrue s) (hacc : PastAccepted env s a)
    (h : serverStep env plugins s a = some t) : AllTrue t := by
  cases serverStep_effect h with
  | @starts i now purged feeds hload =>
    have hfeeds : KnownFeeds s.promised feeds :=
      @begun_of_loadedFeeds env (fun id dest => Promised s.promised id dest []) now s.ps feeds purged
        hs.state.feeds hload
    exact hs.of_slave hs.state fun sl hsl => Option.some.inj hsl ▸ ⟨hfeeds, nofun⟩
  | startsNot => exact hs.of_slave hs.state nofun
  | @serves i now r feeds tasks new ps hslave hserve =>
    obtain ⟨⟨hbox, htable⟩, hnew⟩ := ServerRequest.serve_eq_ok hserve
    obtain ⟨hfeeds, htasks⟩ := hs.slaves i _ hslave
    have hold : ∀ p ∈ s.promised, p ∈ s.promised ++ r.promise env :=
      fun p => List.mem_append_left _
    -- the requests that were made before are still known
    have hmore : AllTrue { s with promised := s.promised ++ r.promise env } :=
      ⟨⟨⟨fun row hrow => (hs.state.box.fed row hrow).mono hold fun _ => id, fun _ => id⟩,
        fun row hrow => (hs.state.feeds row hrow).mono hold⟩,
        hs.slaves.mono (fun f hf => hf.mono hold) fun t ht => ht.mono hold fun _ => id⟩
    have hsent : ps.sent = s.ps.sent := congrArg Outbox.sent hbox
    have hstate : StateTrue (s.promised ++ r.promise env) s.ps.sent ps :=
      ⟨hbox ▸ hmore.state.box, htable ▸ hmore.state.feeds⟩
    refine hmore.of_slave hstate fun sl hsl => ?_
    obtain rfl := Option.some.inj hsl
    have hfeeds' : KnownFeeds (s.promised ++ r.promise env) feeds :=
      fun f hf => (hfeeds f hf).mono hold
    refine ⟨hfeeds', List.forall_mem_append.2 ⟨fun t ht => ?_, fun t ht => ?_⟩⟩
    · exact (htasks t ht).mono hold fun m hm => hsent ▸ hm
    · exact (hnew t ht).honest hfeeds' fun p => List.mem_append_right _
  | @refuses i now r slave slave' ps hslave hslave' hserve =>
    -- a request that fails may have registered a job or tagged one, but it sends nothing
    have hleft := @ServerRequest.serve_left env slave.feeds now r s.ps
    rw [hserve] at hleft
    obtain ⟨hbox, htable⟩ := hleft
    refine hs.of_slave ⟨hbox ▸ hs.state.box, htable ▸ hs.state.feeds⟩ fun sl hsl => ?_
    obtain rfl | rfl := hslave'
    · cases hsl
    · obtain ⟨hfeeds, htasks⟩ := Option.some.inj hsl ▸ hs.slaves i slave hslave
      exact ⟨hfeeds, (congrArg Outbox.sent hbox) ▸ htasks⟩
  | @execs i now feeds task tasks p ps busy hslave hexec =>
    obtain ⟨hfeeds, htasks⟩ := hs.slaves i _ hslave
    obtain ⟨htask, hrest⟩ := List.forall_mem_cons.1 htasks
    obtain ⟨hleft, hnew⟩ := @Task.exec_honest H env plugins s.promised now s.ps task hs.state htask
      (hacc i now feeds task tasks rfl hslave)
    rw [hexec] at hleft
    refine hs.of_slave hleft fun sl hsl => ?_
    obtain rfl := Option.some.inj hsl
    exact ⟨hfeeds, List.forall_mem_append.2 ⟨hnew p ps hexec, fun t ht =>
      (hrest t ht).mono (fun _ => id) hleft.box.sent⟩⟩
  | @execsNot i now feeds task tasks e ps hslave hexec =>
    -- the slave ends, and with it what it had left to do
    obtain ⟨htask, -⟩ := List.forall_mem_cons.1 (hs.slaves i _ hslave).2
    have hleft := (@Task.exec_honest H env plugins s.promised now s.ps task hs.state htask
      (hacc i now feeds task tasks rfl hslave)).1
    rw [hexec] at hleft
    exact hs.of_slave hleft nofun
  | @finishes i now feeds hslave =>
    refine hs.of_slave hs.state fun sl hsl => ?_
    obtain rfl := Option.some.inj hsl
    exact ⟨(hs.slaves i _ hslave).1, nofun⟩
  | uploads => exact ⟨⟨hs.state.box, hs.state.feeds⟩, hs.slaves⟩
  | @refreshes cond expires =>
    refine ⟨⟨hs.state.box, fun r' hr' => ?_⟩, hs.slaves⟩
    obtain ⟨r, hr, rfl⟩ := mem_refreshRows.1 hr'
    unfold refreshRow
    split_ifs <;> exact hs.state.feeds r hr
  | purges =>
    exact ⟨⟨⟨fun row hrow => hs.state.box.fed row (Table.mem_delete.1 hrow).1, hs.state.box.sent⟩,
      fun row hrow => hs.state.feeds row (Table.mem_delete.1 hrow).1⟩, hs.slaves⟩

/-- Every mark stands for a message that was accepted, when the batches of the past of feeds
    that are to be continued are. -/
theorem got_of_reachable (h : (serverSystem env plugins).Reachable (PastAccepted env) s) :
    ∀ row ∈ s.ps.fed.rows, Got s.promised s.ps.sent row := by
  refine (h.invariant (I := AllTrue) ?_ fun s a t hs hacc hstep =>
    hs.step hacc hstep).state.box.fed
  rintro s ⟨hsent, hfed, hfeeds, hslaves, -⟩
  refine ⟨⟨⟨?_, fun _ => id⟩, ?_⟩, fun i slave hslave => nomatch (hslaves i).symm.trans hslave⟩
  · rw [hfed]
    exact nofun
  · rw [hfeeds]
    exact nofun

end Runs

/-! ## A feed with a past -/

/-- A request for the times of registration of the jobs of alice, of the past and from
    now on. -/
def pastRequest : FeedRequest where
  destination := some (ascii "https://jpis")
  attributes := [GLITE_JP_ATTR_REGTIME]
  conditions := [⟨GLITE_JP_ATTR_OWNER, .EQUAL, none, some (.string (ascii "/CN=alice")), none⟩]
  history := true
  continuous := true

/-- Messages are all answered alike. -/
def answersEnv (accepts : Bool) : Env := { sampleEnv with answers := fun _ => accepts }

/-- A slave looks for the jobs of the feed, stacks the one there is and sends it. -/
def pastActions : List ServerAction :=
  [.start 0 100 true, .request 0 100 (.feedIndex (ascii "feed") pastRequest)] ++
    List.replicate 3 (.exec 0 100)

/-- The job is marked, whatever the answer was. -/
theorem pastRequest_run (accepts : Bool) :
    (pastActions.foldlM
      (fun s a => if System.Always s a then
        serverStep (answersEnv accepts) ([] : List (FilePlugin Unit)) s a else none)
          serverStart).any (fun s => s.ps.fed.rows.length = 1 ∧
            s.ps.sent.map (·.accepted) = [accepts]) = true := by
  cases accepts <;> decide +kernel

theorem exists_reachable_past (accepts : Bool) : ∃ s : ServerState,
    (serverSystem (answersEnv accepts) ([] : List (FilePlugin Unit))).Reachable System.Always s ∧
      s.ps.fed.rows.length = 1 ∧ s.ps.sent.map (·.accepted) = [accepts] := by
  obtain ⟨s, hrun, hs⟩ := Option.any_eq_true _ _ |>.1 (pastRequest_run accepts)
  exact ⟨s, ⟨_, serverStart_init, .of_foldlM (fun _ _ _ h => h) hrun⟩, of_decide_eq_true hs⟩

/-- The mark of the job stands for its message when that was accepted. -/
theorem got_of_reachable_sample : ∃ s : ServerState, s.ps.fed.rows.length = 1 ∧
    ∀ row ∈ s.ps.fed.rows, Got s.promised s.ps.sent row := by
  obtain ⟨s, hreach, hrows, -⟩ := exists_reachable_past true
  exact ⟨s, hrows, got_of_reachable (hreach.mono fun _ _ _ _ _ _ _ _ _ _ _ => rfl)⟩

/-- And it stands for none when it was not. -/
theorem not_got_rejected : ∃ s,
    (serverSystem (answersEnv false) ([] : List (FilePlugin Unit))).Reachable System.Always s ∧
      ∃ row ∈ s.ps.fed.rows, ¬Got s.promised s.ps.sent row := by
  obtain ⟨s, hreach, hrows, hsent⟩ := exists_reachable_past false
  obtain ⟨row, hrow⟩ := List.exists_mem_of_length_pos (hrows.symm ▸ Nat.one_pos)
  refine ⟨s, hreach, row, hrow, ?_⟩
  rintro ⟨m, hm, hacc, -⟩
  have hmem : m.accepted ∈ s.ps.sent.map (·.accepted) := List.mem_map_of_mem hm
  rw [hsent] at hmem
  exact Bool.false_ne_true ((List.mem_singleton.1 hmem).symm.trans hacc)

end JobProvenance
