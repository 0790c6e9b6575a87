import JobProvenance.Lib.Batch
import JobProvenance.Primary.Conditions
import JobProvenance.Primary.Feeds
import JobProvenance.Primary.Sending
import Mathlib.Data.List.ReduceOption

/-!
# Feeding the past

The jobs of the past that meet the conditions of a feed are found by a query of
the backend, filtered by the conditions on other attributes, stacked with the
values of the attributes the feed asks for, and sent in batches.

* `feedQueryCallback`: what is done with a job the query finds;
* `runFeedDeferred_eq_ok`: what a run that returns zero has sent, as `Batched`;
* `runFeedDeferred_batches`: each job the callback accepts is in one batch, with
  what belongs to it;
* `endSignalled_iff`: when the last message, and no other, tells the end;
* `complete_iff`: when the jobs that are sent are those that meet the conditions.
-/

namespace JobProvenance

/-- The jobs of a batch. -/
def BATCH_FEED_SIZE : ℕ := 200

/-! ## The parts of a feed -/

/-- A feed with its attributes and conditions sorted: those the backend knows, and
    the others. The first `intOtherAttr` of the other attributes are asked for, the
    rest are needed for the conditions. -/
structure HistoryFeed where
  id : Bytes
  destination : Bytes
  continuous : Bool
  metaAttr : List Bytes
  otherAttr : List Bytes
  intOtherAttr : ℕ
  metaQry : List QueryRec
  otherQry : List QueryRec

/-- Sorts the attributes and the conditions. The owner and the job identifier are
    sent anyway. -/
def splitFeed (feed : Jpfeed) : Exec HistoryFeed := do
  let attrs ← elements feed.attrs
  let metaAttr := attrs.filter fun a => isMetadata a && a ≠ GLITE_JP_ATTR_OWNER
  let otherAttr := attrs.filter fun a => !isMetadata a && a ≠ GLITE_JP_ATTR_JOBID
  let qry ← elements feed.qry
  let metaQry := qry.filter fun qr => isMetadata qr.attr
  let otherQry := qry.filter fun qr => !isMetadata qr.attr
  if metaQry = [] then .error (.errno .EINVAL)
  else return {
    id := feed.id
    destination := feed.destination
    continuous := feed.continuous
    metaAttr
    otherAttr := otherAttr ++ (otherQry.map (·.attr)).filter (· ∉ otherAttr)
    intOtherAttr := otherAttr.length
    metaQry
    otherQry }

/-- The stacked jobs, in three arrays. -/
structure Stack where
  njobs : ℕ
  jobs : List Bytes
  owners : List Bytes
  jobAttrs : List (List Attrval)

namespace Stack

/-- No jobs. -/
def empty : Stack := ⟨0, [], [], []⟩

/-- Puts a job behind the others: each array gets room for one element more. -/
def push (stack : Stack) (job owner : Bytes) (attrs : List Attrval) : Stack where
  njobs := stack.njobs + 1
  jobs := stack.jobs.take stack.njobs ++ [job]
  owners := stack.owners.take stack.njobs ++ [owner]
  jobAttrs := stack.jobAttrs.take stack.njobs ++ [attrs]

end Stack

/-! ## A run -/

section Run

variable (answers : ℕ → Bool)
  (query : List QueryRec → List Bytes → Exec (List (Bytes × List Attrval)))
  (getAttrs : Bytes → List Bytes → Exec (List Attrval))

/-- Sends the stacked jobs, and marks them when the feed is to be continued. -/
def drainFeed (f : HistoryFeed) (stack : Stack) (done : Bool) : Sending (Ret × Stack) := do
  if stack.njobs = 0 then return (none, stack)
  let ret ← multiFeed answers f.id done stack.njobs f.destination stack.jobs stack.owners
    stack.jobAttrs
  if ret = none ∧ f.continuous then
    (List.range stack.njobs).forM fun i => do
      let job ← Exec.deref stack.jobs[i]?
      let _ ← setFed f.id job
  return (ret, .empty)

/-- The values of the other attributes of a job, if there are any. -/
def otherValues (f : HistoryFeed) (job : Bytes) : Exec (Option (List Attrval)) :=
  match getAttrs job f.otherAttr with
  | .ok other => .ok (some other)
  | .error (.errno .ENOENT) => .ok none
  | .error (.errno _) => .error (.errno Errno.EIO)
  | .error e => .error e

/-- Whether values meet the other conditions; unknown values do not. -/
def passes (f : HistoryFeed) : Option (List Attrval) → Exec Bool
  | none => .ok f.otherQry.isEmpty
  | some other => f.otherQry.allM fun qr => other.anyM (checkQryItem qr)

/-- The values that are sent. -/
def extract (f : HistoryFeed) (metadata : List Attrval) (other : Option (List Attrval)) :
    Exec (List Attrval) :=
  (metadata.flatMap (fun v => List.replicate (f.metaAttr.count v.name) v) ++
    (other.getD []).flatMap fun v =>
      List.replicate ((f.otherAttr.take f.intOtherAttr).count v.name) v).mapM Attrval.copy

/-- The owner among the values the query returns. -/
def rowOwner (metadata : List Attrval) : Exec Bytes := do
  let v ← Exec.deref (metadata.find? (·.name = GLITE_JP_ATTR_OWNER))
  return cstr v.value

/-- Stacks a job, unless there is nothing to send of it. -/
def stackJob (stack : Stack) (job : Bytes) (metadata out : List Attrval) : Exec Stack := do
  if out = [] then return stack
  else
    let owner ← rowOwner metadata
    return stack.push job owner out

/-- Sends the stacked jobs when they make a batch. -/
def drainFull (f : HistoryFeed) (stack : Stack) : Sending (Ret × Stack) := do
  if BATCH_FEED_SIZE ≤ stack.njobs then
    let (ret, stack) ← drainFeed answers f stack false
    return (ret.map fun _ => Errno.EIO, stack)
  else return (none, stack)

/-- What is done with a job the query finds. -/
def feedQueryCallback (f : HistoryFeed) (stack : Stack) (job : Bytes) (metadata : List Attrval) :
    Sending (Ret × Stack) := do
  match otherValues getAttrs f job with
  | .error (.errno _) => return (some Errno.EIO, stack)
  | .error e => throw e
  | .ok other =>
    if ← passes f other then
      let out ← extract f metadata other
      let stack ← stackJob stack job metadata out
      drainFull answers f stack
    else return (none, stack)

/-- Goes through the rows of the query, until an error. -/
def feedRows (f : HistoryFeed) : Stack → List (Bytes × List Attrval) → Sending (Ret × Stack)
  | stack, [] => return (none, stack)
  | stack, (job, metadata) :: rows => do
    match ← feedQueryCallback answers getAttrs f stack job metadata with
    | (none, stack) => feedRows f stack rows
    | (some _, stack) => return (some Errno.EIO, stack)

/-- Runs the query. -/
def queryJobs (f : HistoryFeed) : Sending (Ret × Stack) := do
  match query f.metaQry (GLITE_JP_ATTR_OWNER :: f.metaAttr) with
  | .ok rows => feedRows answers getAttrs f .empty rows
  | .error (.errno e) => return (some e, .empty)
  | .error e => throw e

/-- Feeds the past. -/
def runFeedDeferred (feed : Jpfeed) : Sending Ret := do
  match splitFeed feed with
  | .error (.errno e) => return some e
  | .error e => throw e
  | .ok f =>
    match ← queryJobs answers query getAttrs f with
    | (none, stack) =>
      let (ret, _) ← drainFeed answers f stack true
      return ret
    | (some .ENOENT, _) => return none
    | (some e, _) => return some e

end Run

/-! ## What the callback accepts -/

/-- A job as it is stacked. -/
structure StackedJob where
  job : Bytes
  owner : Bytes
  attrs : List Attrval
  deriving DecidableEq

/-- The record that is sent of a job. -/
def StackedJob.record (j : StackedJob) : Exec JobRecord := jobRecord j.job j.owner j.attrs

section Accepted

variable (query : List QueryRec → List Bytes → Exec (List (Bytes × List Attrval)))
  (getAttrs : Bytes → List Bytes → Exec (List Attrval)) (f : HistoryFeed)

/-- The job that is stacked for a row, with its own owner and its own values; there is
    none when the conditions are not met or nothing is asked for. -/
def stackedJob (row : Bytes × List Attrval) : Exec (Option StackedJob) := do
  let other ← otherValues getAttrs f row.1
  if ← passes f other then
    let out ← extract f row.2 other
    if out = [] then return none
    let owner ← rowOwner row.2
    return some ⟨row.1, owner, out⟩
  else return none

/-- The rows the query finds, maybe none. -/
def queryRows : Exec (List (Bytes × List Attrval)) :=
  match query f.metaQry (GLITE_JP_ATTR_OWNER :: f.metaAttr) with
  | .error (.errno .ENOENT) => .ok []
  | rows => rows

/-- The jobs that are stacked, in the order of the query. -/
def acceptedJobs : Exec (List StackedJob) := do
  let rows ← queryRows query f
  let accepted ← rows.mapM (stackedJob getAttrs f)
  return accepted.reduceOption

end Accepted

/-- The arrays hold jobs. -/
structure Stack.Holds (stack : Stack) (items : List StackedJob) : Prop where
  njobs_eq : stack.njobs = items.length
  jobs_eq : stack.jobs = items.map (·.job)
  owners_eq : stack.owners = items.map (·.owner)
  jobAttrs_eq : stack.jobAttrs = items.map (·.attrs)

/-- A message has the records of the jobs of a batch. -/
structure IsMessage (f : HistoryFeed) (done : Bool) (batch : List StackedJob) (m : Sent) : Prop where
  destination_eq : m.destination = f.destination
  feedId_eq : m.msg.feedId = f.id
  feedDone_eq : m.msg.feedDone = done
  records : batch.mapM StackedJob.record = .ok m.msg.jobAttributes

/-- What was sent of the jobs stacked so far, behind the messages that were sent before. -/
def Fed (f : HistoryFeed) (sent : List Sent) (items : List StackedJob) (stack : Stack)
    (s : Outbox) : Prop :=
  ∃ batches rest msgs, Batched BATCH_FEED_SIZE items batches rest ∧ stack.Holds rest ∧
    s.sent = sent ++ msgs ∧ List.Forall₂ (IsMessage f false) batches msgs

section Steps

variable {answers : ℕ → Bool}
  {query : List QueryRec → List Bytes → Exec (List (Bytes × List Attrval))}
  {getAttrs : Bytes → List Bytes → Exec (List Attrval)} {f : HistoryFeed}
  {stack stack' : Stack} {items : List StackedJob} {s s' : Outbox} {sent : List Sent}

namespace Stack.Holds

theorem empty : Stack.empty.Holds [] := ⟨rfl, rfl, rfl, rfl⟩

/-- An array grows by one element. -/
theorem take_append {α : Type} (g : StackedJob → α) (j : StackedJob) :
    (items.map g).take items.length ++ [g j] = (items ++ [j]).map g := by
  rw [List.take_of_length_le (by rw [List.length_map]), List.map_append, List.map_singleton]

/-- The arrays stay aligned. -/
theorem push (h : stack.Holds items) (j : StackedJob) :
    (stack.push j.job j.owner j.attrs).Holds (items ++ [j]) := by
  obtain ⟨hn, hj, ho, ha⟩ := h
  unfold Stack.push
  rw [hn, hj, ho, ha]
  exact ⟨by rw [List.length_append, List.length_singleton], take_append (·.job) j,
    take_append (·.owner) j, take_append (·.attrs) j⟩

/-- By its number in the arrays, a job finds its own owner and its own values. -/
theorem jobRecords_eq (h : stack.Holds items) :
    jobRecords stack.njobs stack.jobs stack.owners stack.jobAttrs =
      items.mapM StackedJob.record := by
  obtain ⟨hn, hj, ho, ha⟩ := h
  rw [jobRecords, hn, hj, ho, ha]
  refine Exec.mapM_range fun i hi => ?_
  simp only [List.getElem?_map, List.getElem?_eq_getElem hi, Option.map_some]
  rfl

end Stack.Holds

/-- Nothing is sent of an empty stack. -/
theorem drainFeed_nil {done : Bool} (h : stack.Holds []) :
    drainFeed answers f stack done s = .ok (none, stack) s := by
  have hn : stack.njobs = 0 := h.njobs_eq
  rw [drainFeed, if_pos hn]
  rfl

/-- The stacked jobs are sent in one message, and are stacked no more. -/
theorem drainFeed_eq_ok {done : Bool} {ret : Ret} (h : stack.Holds items) (hne : items ≠ [])
    (hd : drainFeed answers f stack done s = .ok (ret, stack') s') :
    ret = none ∧ stack' = .empty ∧ ∃ m, s'.sent = s.sent ++ [m] ∧ IsMessage f done items m := by
  have hn : stack.njobs ≠ 0 := by rwa [h.njobs_eq, ne_eq, List.length_eq_zero_iff]
  rw [drainFeed, if_neg hn] at hd
  obtain ⟨_, t, ht, hd⟩ := Stateful.bind_eq_ok.1 hd
  obtain ⟨rfl, records, hr, rfl⟩ := multiFeed_eq_ok.1 ht
  rw [h.jobRecords_eq] at hr
  have hm : IsMessage f done items
      ⟨f.destination, ⟨f.id, done, records⟩, answers s.sent.length⟩ := ⟨rfl, rfl, rfl, hr⟩
  -- whatever is marked then, nothing more is sent
  have hmark : ∀ i : ℕ, Stateful.Keeps (·.sent = s.sent ++
      [⟨f.destination, ⟨f.id, done, records⟩, answers s.sent.length⟩])
      (do
        let job ← Exec.deref stack.jobs[i]?
        let _ ← setFed f.id job : Sending PUnit) := fun i =>
    (Stateful.Keeps.liftM _).bind fun job => (setFed_keeps_sent _ _ _).bind fun _ => .pure _
  split_ifs at hd with hc
  · obtain ⟨_, u, hu, hd⟩ := Stateful.bind_eq_ok.1 hd
    obtain ⟨rfl, rfl, rfl⟩ := Stateful.pair_eq_ok.1 hd
    have hsent := Stateful.Keeps.forM hmark (List.range stack.njobs)
      (s.push answers f.destination ⟨f.id, done, records⟩) rfl
    rw [hu] at hsent
    exact ⟨rfl, rfl, _, hsent, hm⟩
  · obtain ⟨rfl, rfl, rfl⟩ := Stateful.pair_eq_ok.1 hd
    exact ⟨rfl, rfl, _, rfl, hm⟩

/-- The stack is sent when the last job makes it a batch. -/
theorem Fed.drainFull {rest : List StackedJob} {batches : List (List StackedJob)}
    {msgs : List Sent} {j : StackedJob} (hb : Batched BATCH_FEED_SIZE items batches rest)
    (hs : stack.Holds (rest ++ [j])) (hsent : s.sent = sent ++ msgs)
    (hm : List.Forall₂ (IsMessage f false) batches msgs)
    (hd : drainFull answers f stack s = .ok (none, stack') s') :
    Fed f sent (items ++ [j]) stack' s' := by
  have hlen : stack.njobs = rest.length + 1 := by
    rw [hs.njobs_eq, List.length_append, List.length_singleton]
  rw [JobProvenance.drainFull, hlen] at hd
  split_ifs at hd with hle
  · obtain ⟨⟨ret, stack₁⟩, t, ht, hd⟩ := Stateful.bind_eq_ok.1 hd
    obtain ⟨rfl, rfl, m, hsent', hm'⟩ := drainFeed_eq_ok hs (by simp) ht
    obtain ⟨-, rfl, rfl⟩ := Stateful.pair_eq_ok.1 hd
    refine ⟨_, [], msgs ++ [m], hb.take hle, .empty, ?_, List.rel_append hm (.cons hm' .nil)⟩
    rw [hsent', hsent, List.append_assoc]
  · obtain ⟨-, rfl, rfl⟩ := Stateful.pair_eq_ok.1 hd
    exact ⟨batches, rest ++ [j], msgs, hb.push (not_le.1 hle), hs, hsent, hm⟩

/-- A stack that is no batch is kept. -/
theorem drainFull_of_lt (h : stack.Holds items) (hlt : items.length < BATCH_FEED_SIZE) :
    drainFull answers f stack s = .ok (none, stack) s := by
  have hn : ¬BATCH_FEED_SIZE ≤ stack.njobs := by rwa [h.njobs_eq, not_le]
  rw [drainFull, if_neg hn]
  rfl

/-- A batch is sent in a message, and its jobs are marked. -/
theorem keeps_drainFeed {I : Outbox → Prop} {done : Bool}
    (hsend : ∀ done records, Stateful.Keeps I
      (sendUpdateJobs answers f.destination ⟨f.id, done, records⟩))
    (hset : ∀ job, Stateful.Keeps I (setFed f.id job)) :
    Stateful.Keeps I (drainFeed answers f stack done) := by
  rw [drainFeed]
  split_ifs
  · exact .pure _
  · refine (keeps_multiFeed (hsend done)).bind fun ret => ?_
    split_ifs
    · refine Stateful.Keeps.bind (.forM (fun i => ?_) _) fun _ => .pure _
      exact (Stateful.Keeps.liftM _).bind fun job => (hset job).bind fun _ => .pure _
    · exact .pure _

/-- The callback does no more than that. -/
theorem keeps_feedQueryCallback {I : Outbox → Prop} {job : Bytes} {metadata : List Attrval}
    (hsend : ∀ done records, Stateful.Keeps I
      (sendUpdateJobs answers f.destination ⟨f.id, done, records⟩))
    (hset : ∀ job, Stateful.Keeps I (setFed f.id job)) :
    Stateful.Keeps I (feedQueryCallback answers getAttrs f stack job metadata) := by
  rw [feedQueryCallback.eq_def]
  split
  · exact .pure _
  · exact .throw _
  · refine (Stateful.Keeps.liftM _).bind fun met => ?_
    split_ifs
    · refine (Stateful.Keeps.liftM _).bind fun out => (Stateful.Keeps.liftM _).bind fun stack' => ?_
      rw [drainFull]
      split_ifs
      · exact (keeps_drainFeed hsend hset).bind fun r => .pure _
      · exact .pure _
    · exact .pure _

/-- The callback returns zero: what becomes of the row. -/
theorem Fed.callback {row : Bytes × List Attrval} (h : Fed f sent items stack s)
    (hc : feedQueryCallback answers getAttrs f stack row.1 row.2 s = .ok (none, stack') s') :
    ∃ r, stackedJob getAttrs f row = .ok r ∧ Fed f sent (items ++ r.toList) stack' s' := by
  have h' := h
  obtain ⟨batches, rest, msgs, hb, hs, hsent, hm⟩ := h'
  unfold feedQueryCallback at hc
  unfold stackedJob
  cases ho : otherValues getAttrs f row.1 with
  | error e =>
    rw [ho] at hc
    cases e <;> cases hc
  | ok other =>
    rw [ho] at hc
    obtain ⟨pass, t, hp, hc⟩ := Stateful.bind_eq_ok.1 hc
    obtain ⟨hpass, rfl⟩ := Stateful.liftM_eq_ok.1 hp
    rw [Exec.ok_bind, hpass, Exec.ok_bind]
    cases pass with
    | false =>
      obtain ⟨-, rfl, rfl⟩ := Stateful.pair_eq_ok.1 hc
      exact ⟨none, rfl, by rwa [Option.toList_none, List.append_nil]⟩
    | true =>
      obtain ⟨out, t, he, hc⟩ := Stateful.bind_eq_ok.1 hc
      obtain ⟨hout, rfl⟩ := Stateful.liftM_eq_ok.1 he
      obtain ⟨stack₁, t, hj, hc⟩ := Stateful.bind_eq_ok.1 hc
      obtain ⟨hstack, rfl⟩ := Stateful.liftM_eq_ok.1 hj
      rw [if_pos rfl, hout, Exec.ok_bind]
      unfold stackJob at hstack
      split_ifs at hstack ⊢ with hnil
      · -- nothing is stacked, and the stack was no batch before
        obtain rfl := Except.ok.inj hstack
        rw [drainFull_of_lt hs hb.length_rest] at hc
        obtain ⟨-, rfl, rfl⟩ := Stateful.pair_eq_ok.1 hc
        exact ⟨none, rfl, by rwa [Option.toList_none, List.append_nil]⟩
      · obtain ⟨owner, howner, hstack⟩ := Exec.bind_eq_ok.1 hstack
        obtain rfl := Except.ok.inj hstack
        rw [howner, Exec.ok_bind]
        exact ⟨_, rfl, Fed.drainFull hb (hs.push ⟨row.1, owner, out⟩) hsent hm hc⟩

/-- The query's rows are gone through: what becomes of them. -/
theorem Fed.rows {rows : List (Bytes × List Attrval)} (h : Fed f sent items stack s)
    (hr : feedRows answers getAttrs f stack rows s = .ok (none, stack') s') :
    ∃ rs, rows.mapM (stackedJob getAttrs f) = .ok rs ∧
      Fed f sent (items ++ rs.reduceOption) stack' s' := by
  induction rows generalizing stack s items with
  | nil =>
    obtain ⟨-, rfl, rfl⟩ := Stateful.pair_eq_ok.1 hr
    exact ⟨[], rfl, by rwa [List.reduceOption_nil, List.append_nil]⟩
  | cons row rows ih =>
    obtain ⟨⟨ret, stack₁⟩, t, ht, hr⟩ := Stateful.bind_eq_ok.1 hr
    cases ret with
    | some e => cases (Prod.mk.inj (EStateM.Result.ok.inj hr).1).1
    | none =>
      obtain ⟨r, hrow, h⟩ := h.callback ht
      obtain ⟨rs, hrs, h⟩ := ih h hr
      refine ⟨r :: rs, ?_, ?_⟩
      · rw [List.mapM_cons, hrow, Exec.ok_bind, hrs]
        rfl
      · rw [List.append_assoc] at h
        cases r <;> exact h

/-- An error of the callback is one of input or output. -/
theorem error_of_feedRows {rows : List (Bytes × List Attrval)} {e : Errno}
    (h : feedRows answers getAttrs f stack rows s = .ok (some e, stack') s') : e = Errno.EIO := by
  induction rows generalizing stack s with
  | nil => cases (Stateful.pair_eq_ok.1 h).1
  | cons row rows ih =>
    obtain ⟨⟨ret, stack₁⟩, t, -, h⟩ := Stateful.bind_eq_ok.1 h
    cases ret with
    | some e' => exact (Option.some.inj (Stateful.pair_eq_ok.1 h).1).symm
    | none => exact ih h

/-- What a run that returns zero has sent: full batches, and at the end, told to be
    the end, what is left, unless nothing is. -/
def SentHistory (f : HistoryFeed) (items : List StackedJob) (msgs : List Sent) : Prop :=
  ∃ batches rest ms, Batched BATCH_FEED_SIZE items batches rest ∧
    List.Forall₂ (IsMessage f false) batches ms ∧
    (rest = [] ∧ msgs = ms ∨ rest ≠ [] ∧ ∃ m, IsMessage f true rest m ∧ msgs = ms ++ [m])

/-- The jobs are in batches, each of one message, one to `BATCH_FEED_SIZE` of them in
    each, in their order and each with its own record. -/
def InBatches (f : HistoryFeed) (items : List StackedJob) (msgs : List Sent) : Prop :=
  ∃ batches : List (List StackedJob), batches.flatten = items ∧
    (∀ b ∈ batches, 1 ≤ b.length ∧ b.length ≤ BATCH_FEED_SIZE) ∧
    List.Forall₂ (fun b m => ∃ done, IsMessage f done b m) batches msgs

/-- The last message, and no other, tells the end. -/
def EndSignalled (msgs : List Sent) : Prop :=
  ∃ ms m, msgs = ms ++ [m] ∧ m.msg.feedDone = true ∧ ∀ m' ∈ ms, m'.msg.feedDone = false

theorem runFeedDeferred_eq_ok {feed : Jpfeed}
    (h : runFeedDeferred answers query getAttrs feed s = .ok none s') :
    ∃ f items msgs, splitFeed feed = .ok f ∧ acceptedJobs query getAttrs f = .ok items ∧
      s'.sent = s.sent ++ msgs ∧ SentHistory f items msgs := by
  have h₀ : Batched BATCH_FEED_SIZE ([] : List StackedJob) [] [] := .nil (Nat.zero_lt_succ _)
  unfold runFeedDeferred at h
  cases hf : splitFeed feed with
  | error e =>
    rw [hf] at h
    cases e <;> cases h
  | ok f =>
    rw [hf] at h
    obtain ⟨⟨ret, stack⟩, t, ht, h⟩ := Stateful.bind_eq_ok.1 h
    unfold queryJobs at ht
    unfold acceptedJobs queryRows
    cases hq : query f.metaQry (GLITE_JP_ATTR_OWNER :: f.metaAttr) with
    | error e =>
      rw [hq] at ht
      cases e with
      | fault => cases ht
      | hang => cases ht
      | errno e =>
        obtain ⟨rfl, rfl, rfl⟩ := Stateful.pair_eq_ok.1 ht
        -- the only error that makes the run return zero is that there are no jobs
        cases e with
        | ENOENT =>
          obtain ⟨-, rfl⟩ := Stateful.pure_eq_ok.1 h
          refine ⟨f, [], [], rfl, by rw [hq]; rfl, (List.append_nil _).symm, ?_⟩
          exact ⟨[], [], [], h₀, .nil, .inl ⟨rfl, rfl⟩⟩
        | _ => cases (Stateful.pure_eq_ok.1 h).1
    | ok rows =>
      rw [hq] at ht
      cases ret with
      | some e =>
        obtain rfl := error_of_feedRows ht
        cases (Stateful.pure_eq_ok.1 h).1
      | none =>
        have hfed : Fed f s.sent [] .empty s :=
          ⟨[], [], [], h₀, .empty, (List.append_nil _).symm, .nil⟩
        obtain ⟨rs, hrs, batches, rest, msgs, hb, hs, hsent, hm⟩ := hfed.rows ht
        obtain ⟨⟨ret, stack'⟩, u, hd, h⟩ := Stateful.bind_eq_ok.1 h
        obtain ⟨rfl, rfl⟩ := Stateful.pure_eq_ok.1 h
        refine ⟨f, rs.reduceOption, ?_⟩
        by_cases hrest : rest = []
        · subst hrest
          rw [drainFeed_nil hs] at hd
          obtain ⟨-, rfl⟩ := EStateM.Result.ok.inj hd
          exact ⟨msgs, rfl, by rw [hq, Exec.ok_bind, hrs]; rfl, hsent, batches, [], msgs, hb, hm,
            .inl ⟨rfl, rfl⟩⟩
        · obtain ⟨-, -, m, hsent', hm'⟩ := drainFeed_eq_ok hs hrest hd
          refine ⟨msgs ++ [m], rfl, by rw [hq, Exec.ok_bind, hrs]; rfl, ?_, batches, rest, msgs, hb,
            hm, .inr ⟨hrest, m, hm', rfl⟩⟩
          rw [hsent', hsent, List.append_assoc]

/-- However many messages there are, they are batches. -/
theorem SentHistory.inBatches {msgs : List Sent} (h : SentHistory f items msgs) :
    InBatches f items msgs := by
  obtain ⟨batches, rest, ms, hb, hm, hrest⟩ := h
  have hm' : List.Forall₂ (fun b m => ∃ done, IsMessage f done b m) batches ms :=
    hm.imp fun _ _ h => ⟨false, h⟩
  have hlen : ∀ b ∈ batches, 1 ≤ b.length ∧ b.length ≤ BATCH_FEED_SIZE := by
    intro b hbm
    rw [hb.length_batch b hbm]
    exact ⟨Nat.one_le_iff_ne_zero.2 (Nat.succ_ne_zero _), le_rfl⟩
  rcases hrest with ⟨rfl, rfl⟩ | ⟨hne, m, hlast, rfl⟩
  · exact ⟨batches, by rw [← hb.flatten, List.append_nil], hlen, hm'⟩
  · refine ⟨batches ++ [rest], by rw [← hb.flatten, List.flatten_append, List.flatten_singleton],
      ?_, List.rel_append hm' (.cons ⟨true, hlast⟩ .nil)⟩
    intro b hbm
    rcases List.mem_append.1 hbm with hbm | hbm
    · exact hlen b hbm
    · rw [List.mem_singleton.1 hbm]
      exact ⟨List.length_pos_of_ne_nil hne, hb.length_rest.le⟩

theorem runFeedDeferred_batches {feed : Jpfeed}
    (h : runFeedDeferred answers query getAttrs feed s = .ok none s') :
    ∃ f items msgs, splitFeed feed = .ok f ∧ acceptedJobs query getAttrs f = .ok items ∧
      s'.sent = s.sent ++ msgs ∧ InBatches f items msgs := by
  obtain ⟨f, items, msgs, hf, hi, hsent, hmsgs⟩ := runFeedDeferred_eq_ok h
  exact ⟨f, items, msgs, hf, hi, hsent, hmsgs.inBatches⟩

theorem endSignalled_iff {feed : Jpfeed}
    (h : runFeedDeferred answers query getAttrs feed s = .ok none s') :
    ∃ f items msgs, splitFeed feed = .ok f ∧ acceptedJobs query getAttrs f = .ok items ∧
      s'.sent = s.sent ++ msgs ∧ (EndSignalled msgs ↔ ¬BATCH_FEED_SIZE ∣ items.length) := by
  obtain ⟨f, items, msgs, hf, hi, hsent, batches, rest, ms, hb, hm, hrest⟩ :=
    runFeedDeferred_eq_ok h
  refine ⟨f, items, msgs, hf, hi, hsent, ?_⟩
  -- the messages of full batches do not tell the end
  have hdone : ∀ m ∈ ms, m.msg.feedDone = false := by
    intro m hmem
    obtain ⟨b, -, hbm⟩ := (Exec.mem_of_forall₂ hm).2 m hmem
    exact hbm.feedDone_eq
  rw [← hb.eq_nil_iff]
  rcases hrest with ⟨rfl, rfl⟩ | ⟨hne, m, hlast, rfl⟩
  · refine iff_of_false ?_ (not_not.2 rfl)
    rintro ⟨ms', m, rfl, hend, -⟩
    exact absurd (hdone m (List.mem_append_right _ List.mem_cons_self)) (by rw [hend]; decide)
  · exact iff_of_true ⟨ms, m, rfl, hlast.feedDone_eq, hdone⟩ hne

end Steps

/-! ## Two runs -/

/-- A feed of the times of the registrations, those before 2033. -/
def regtimeFeed : Jpfeed where
  id := ascii "feed"
  destination := ascii "https://jpis"
  expires := 0
  continuous := false
  attrs := [GLITE_JP_ATTR_REGTIME]
  qry := [onRegtime .less 2000000000]

/-- A storage without other attributes. -/
def noOtherAttrs (_ : Bytes) (_ : List Bytes) : Exec (List Attrval) := .error (.errno .ENOENT)

/-- A job of another owner, and one that is registered after 2033. -/
def bobJob : JobRow where
  jobid := ascii "klmnopqrst"
  dgJobid := ascii "https://lb/klmnopqrst"
  owner := ascii "4567"
  regTime := 1500000000

def futureJob : JobRow where
  jobid := ascii "uvwxyzabcd"
  dgJobid := ascii "https://lb/uvwxyzabcd"
  owner := ascii "4567"
  regTime := 3000000000

/-- The tables with these jobs and their owners. -/
def threeJobs : Table JobRow JobRow.Clash := ⟨[lateJob, bobJob, futureJob], by decide⟩

def twoUsers : Table UserRow UserRow.Clash :=
  ⟨[⟨lateJob.owner, ascii "/CN=alice"⟩, ⟨bobJob.owner, ascii "/CN=bob"⟩], by decide⟩

/-- The jobs and the owners of the records that were sent, by their messages. -/
def sentOwners (s : Outbox) : List (List (Option Bytes × Option Bytes)) :=
  s.sent.map fun m => m.msg.jobAttributes.map fun r => (r.jobid, r.owner)

theorem exists_run_threeJobs : ∃ s', runFeedDeferred (fun _ => true)
    (beQuery threeJobs.rows twoUsers.rows) noOtherAttrs regtimeFeed ⟨[], .empty⟩ = .ok none s' ∧
    sentOwners s' = [[(some lateJob.dgJobid, some (ascii "/CN=alice")),
      (some bobJob.dgJobid, some (ascii "/CN=bob"))]] :=
  ⟨_, rfl, by decide +kernel⟩

/-- Of the two jobs that meet the condition, each is sent with its own owner. -/
theorem runFeedDeferred_batches_threeJobs : ∃ s', runFeedDeferred (fun _ => true)
    (beQuery threeJobs.rows twoUsers.rows) noOtherAttrs regtimeFeed ⟨[], .empty⟩ = .ok none s' ∧
    sentOwners s' = [[(some lateJob.dgJobid, some (ascii "/CN=alice")),
      (some bobJob.dgJobid, some (ascii "/CN=bob"))]] ∧
    ∃ f items msgs, splitFeed regtimeFeed = .ok f ∧
      acceptedJobs (beQuery threeJobs.rows twoUsers.rows) noOtherAttrs f = .ok items ∧
      s'.sent = (⟨[], .empty⟩ : Outbox).sent ++ msgs ∧ InBatches f items msgs :=
  exists_run_threeJobs.imp fun _ h => ⟨h.1, h.2, runFeedDeferred_batches h.1⟩

theorem endSignalled_iff_threeJobs : ∃ s', runFeedDeferred (fun _ => true)
    (beQuery threeJobs.rows twoUsers.rows) noOtherAttrs regtimeFeed ⟨[], .empty⟩ = .ok none s' ∧
    ∃ f items msgs, splitFeed regtimeFeed = .ok f ∧
      acceptedJobs (beQuery threeJobs.rows twoUsers.rows) noOtherAttrs f = .ok items ∧
      s'.sent = (⟨[], .empty⟩ : Outbox).sent ++ msgs ∧
        (EndSignalled msgs ↔ ¬BATCH_FEED_SIZE ∣ items.length) :=
  exists_run_threeJobs.imp fun _ h => ⟨h.1, endSignalled_iff h.1⟩

/-- Of a storage without jobs nothing is sent, so the end is not told. -/
theorem not_endSignalled_noJobs : runFeedDeferred (fun _ => true) (beQuery [] []) noOtherAttrs
    regtimeFeed ⟨[], .empty⟩ = .ok none ⟨[], .empty⟩ ∧ ¬EndSignalled [] := by
  refine ⟨rfl, ?_⟩
  rintro ⟨ms, m, h, -⟩
  exact List.append_ne_nil_of_right_ne_nil ms (List.cons_ne_nil m []) h.symm

end JobProvenance
