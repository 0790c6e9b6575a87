import JobProvenance.Index.FeedCaller
import JobProvenance.Lib.Guards
import JobProvenance.Lib.System

/-!
# Feeds and their locks

Any number of processes ask for feeds at the same time. Between the statements
of one, and while it waits for the primary storage, the others go on: the steps
here are the statements and the calls.

* `feederStep`: one step of one process;
* `steps_handleFeed`: what a process does for a feed when the others wait is
  `handleFeed`;
* `exclusive_of_reachable`: as long as no call of the primary storage fails, a
  process calls it for a feed, and changes the feed's row, while it holds the
  feed's lock, and nobody else does;
* `not_exclusive_sample`: a call that fails gives the lock away, and the process
  goes on as if it had it.
-/

namespace JobProvenance

/-- Where a process is: what it does next, with the kind of feed it asks for,
    the feed as it found it, and the number of the attempt. -/
inductive FeederPhase
  | idle
  | search (initialized : Bool)
  | lock (initialized : Bool) (row : FeedRow)
  | prepare (initialized : Bool) (row : FeedRow) (i : ℕ)
  | call (initialized : Bool) (row : FeedRow) (i : ℕ) (call : PsCall)
  | init (initialized : Bool) (row : FeedRow) (feedId : Bytes) (expires : ℤ) (status : ℕ)
  | unlock (initialized : Bool) (row : FeedRow) (failed : Option ℕ)
  | giveUp (initialized : Bool) (row : FeedRow)

/-- After a feed: those to refresh come after those without an identifier. -/
def FeederPhase.afterFeed (initialized : Bool) : FeederPhase :=
  if initialized then .idle else .search true

/-- Before the attempt of a number, and after the last one. -/
def FeederPhase.attempt (initialized : Bool) (row : FeedRow) (i : ℕ) : FeederPhase :=
  if i < 10 then .prepare initialized row i else .giveUp initialized row

/-- The feed a process has locked, as far as it knows. -/
def FeederPhase.feed : FeederPhase → Option ℕ
  | .prepare _ row _ | .call _ row _ _ | .init _ row _ _ _ | .unlock _ row _ | .giveUp _ row =>
    some row.uniqueid
  | _ => none

/-- The feed a process asks the primary storage for in its next step, or whose
    identifier, expiration or state it writes. -/
def FeederPhase.touches : FeederPhase → Option ℕ
  | .call _ row _ _ | .init _ row _ _ _ | .giveUp _ row => some row.uniqueid
  | _ => none

/-- A process: where it is, and the feeds it has locked and not unlocked. -/
structure Feeder where
  phase : FeederPhase
  held : Finset ℕ

/-- The feeds, and the processes by number. -/
structure FeedersState where
  feeds : FeedsTable
  procs : ℕ → Feeder

/-- A step of a process, with what it finds: whether the statement fails, which
    of several rows comes first, the time, what the primary storage answers.
    `serve` is the statement of an `UpdateJobs` message. -/
inductive FeederAction
  | start
  | select (fails : Bool) (now : ℤ) (k : ℕ)
  | lock (fails : Bool)
  | prepare (o : AttemptOutcome)
  | call (answer : Option (Bytes × ℤ)) (now : ℤ)
  | init (fails : Bool) (tnow : ℤ)
  | unlock (fails : Bool)
  | giveUp (fails : Bool) (now : ℤ)
  | serve (fails : Bool) (state uniqueid : ℕ)

variable (conf : FeedingConf)

/-- The feeds and the process after a step; `none` when it is not its next, or
    the process leaves the language. -/
def Feeder.step (feeds : FeedsTable) (p : Feeder) (a : FeederAction) : Option (FeedsTable × Feeder) :=
  match a, p.phase with
  | .start, .idle => some (feeds, { p with phase := .search false })
  | .select fails now k, .search initialized =>
    if fails then some (feeds, { p with phase := .idle })
    else match feeds.rows.filter (·.wanted initialized now) with
      | [] => some (feeds, { p with phase := .afterFeed initialized })
      | rows => rows[k]?.map fun row => (feeds, { p with phase := .lock initialized row })
  | .lock fails, .lock initialized row =>
    match updateFeeds fails (.lock row.uniqueid) feeds with
    | some (1, feeds) => some (feeds, ⟨.prepare initialized row 0, insert row.uniqueid p.held⟩)
    | some (_, feeds) => some (feeds, { p with phase := .search initialized })
    | none => some (feeds, { p with phase := .search initialized })
  | .prepare o, .prepare initialized row i =>
    match attemptCall conf initialized row o with
    | .ok (some call) => some (feeds, { p with phase := .call initialized row i call })
    | .ok none => some (feeds, { p with phase := .attempt initialized row (i + 1) })
    | .error _ => none
  | .call answer now, .call initialized row i call =>
    match answer with
    | none => some (feeds, { p with phase := .unlock initialized row (some i) })
    | some (answered, feedExpires) =>
      let (feedId, status) := call.stored answered
      some (feeds, { p with phase := .init initialized row feedId (halfway now feedExpires) status })
  | .init fails tnow, .init initialized row feedId expires status =>
    some (initFeed fails row.uniqueid feedId expires tnow status feeds,
      { p with phase := .unlock initialized row none })
  | .unlock fails, .unlock initialized row failed =>
    some (afterUpdate fails (.unlock row.uniqueid) feeds,
      { phase := match failed with
          | some i => .attempt initialized row (i + 1)
          | none => .afterFeed initialized
        held := if fails then p.held else p.held.erase row.uniqueid })
  | .giveUp fails now, .giveUp initialized row =>
    some (afterUpdate fails (giveUpRow initialized row now) feeds,
      { p with phase := .afterFeed initialized })
  | .serve fails state uniqueid, .idle =>
    some (afterUpdate fails (.setState state uniqueid) feeds, p)
  | _, _ => none

/-- A step of the process of a number. -/
def feederStep (s : FeedersState) (a : ℕ × FeederAction) : Option FeedersState :=
  ((s.procs a.1).step conf s.feeds a.2).map fun (feeds, p) =>
    ⟨feeds, Function.update s.procs a.1 p⟩

/-- The processes, none of which has locked a feed at first. -/
def feederSystem : System FeedersState (ℕ × FeederAction) where
  init s := ∀ pid, s.procs pid = ⟨.idle, ∅⟩
  step s a t := feederStep conf s a = some t

/-- A call of the primary storage that fails. -/
def FeederAction.isFault : FeederAction → Bool
  | .call none _ => true
  | _ => false

/-- No call of the primary storage fails. -/
def NoFault (_ : FeedersState) (a : ℕ × FeederAction) : Prop := a.2.isFault = false

instance (s : FeedersState) (a : ℕ × FeederAction) : Decidable (NoFault s a) :=
  inferInstanceAs (Decidable (_ = _))

/-- What a process touches in its next step it has locked, and nobody else. -/
def Exclusive (s : FeedersState) : Prop :=
  ∀ pid, ∀ u ∈ (s.procs pid).phase.touches, u ∈ (s.procs pid).held ∧ LockedIs u 1 s.feeds ∧
    ∀ qid ≠ pid, u ∉ (s.procs qid).held

/-- The locks are as the processes that hold them left them, and a process that
    is about to do something for a feed holds its lock. -/
structure FeedersState.Guarded (s : FeedersState) : Prop where
  guards : Guards (fun u => LockedIs u 1 s.feeds) fun pid => (s.procs pid).held
  feed : ∀ pid, ∀ u ∈ (s.procs pid).phase.feed, u ∈ (s.procs pid).held
  answered : ∀ pid initialized row i, (s.procs pid).phase ≠ .unlock initialized row (some i)

section Exclusive

variable {conf} {feeds feeds' : FeedsTable} {p p' : Feeder} {a : FeederAction}
  {s t : FeedersState} {initialized : Bool} {row : FeedRow} {i : ℕ} {failed : Option ℕ}
  {now : ℤ}

theorem FeederPhase.feed_of_touches {phase : FeederPhase} {u : ℕ} (h : u ∈ phase.touches) :
    u ∈ phase.feed := by
  cases phase <;> first | exact h | cases h

@[simp]
theorem FeederPhase.feed_afterFeed : (afterFeed initialized).feed = none := by
  cases initialized <;> rfl

@[simp]
theorem FeederPhase.feed_attempt : (attempt initialized row i).feed = some row.uniqueid := by
  rw [attempt]
  split_ifs <;> rfl

theorem FeederPhase.afterFeed_ne {init' : Bool} :
    afterFeed initialized ≠ .unlock init' row failed := by
  cases initialized <;> exact fun h => nomatch h

theorem FeederPhase.attempt_ne {init' : Bool} {row' : FeedRow} :
    attempt initialized row i ≠ .unlock init' row' failed := by
  rw [attempt]
  split_ifs <;> exact fun h => nomatch h

/-- A step that leaves the locks alone: the process has a feed in hand only if
    it had it before, and waits to give the lock away after a fault only. -/
structure Quiet (feeds : FeedsTable) (p : Feeder) (a : FeederAction) (feeds' : FeedsTable)
    (p' : Feeder) : Prop where
  locked : ∀ u, LockedIs u 1 feeds → LockedIs u 1 feeds'
  held : p'.held = p.held
  feed : ∀ u ∈ p'.phase.feed, u ∈ p.phase.feed
  answered : ∀ initialized row i, p'.phase = .unlock initialized row (some i) →
    ∃ now, a = .call none now

/-- A step that takes the lock of a feed. -/
structure Takes (feeds : FeedsTable) (p : Feeder) (u : ℕ) (feeds' : FeedsTable) (p' : Feeder) :
    Prop where
  lock : ∃ fails, updateFeeds fails (.lock u) feeds = some (1, feeds')
  held : p'.held = insert u p.held
  phase : ∃ initialized row, p'.phase = .prepare initialized row 0 ∧ row.uniqueid = u

/-- A step that gives the lock of a feed away. -/
structure Gives (feeds : FeedsTable) (p : Feeder) (u : ℕ) (feeds' : FeedsTable) (p' : Feeder) :
    Prop where
  feed : u ∈ p.phase.feed
  unlock : feeds' = afterUpdate false (.unlock u) feeds
  held : p'.held = p.held.erase u
  phase : (∃ initialized row i, p.phase = .unlock initialized row (some i)) ∨ p'.phase.feed = none
  answered : ∀ initialized row i, p'.phase ≠ .unlock initialized row (some i)

/-- A process that only moves on leaves the locks alone. -/
theorem Quiet.moves {phase : FeederPhase} (hfeed : ∀ u ∈ phase.feed, u ∈ p.phase.feed)
    (hans : ∀ initialized row i, phase ≠ .unlock initialized row (some i)) :
    Quiet feeds p a feeds { p with phase } where
  locked _ h := h
  held := rfl
  feed := hfeed
  answered initialized row i h := absurd h (hans initialized row i)

/-- The search finds a feed, or none, or fails. -/
theorem Feeder.quiet_select {fails : Bool} {now : ℤ} {k : ℕ}
    (hphase : p.phase = .search initialized)
    (h : p.step conf feeds (.select fails now k) = some (feeds', p')) :
    Quiet feeds p (.select fails now k) feeds' p' := by
  simp only [Feeder.step, hphase] at h
  split_ifs at h
  · obtain ⟨rfl, rfl⟩ := Prod.mk.inj (Option.some.inj h)
    exact .moves (fun _ hu => nomatch hu) fun _ _ _ => nofun
  · split at h
    · obtain ⟨rfl, rfl⟩ := Prod.mk.inj (Option.some.inj h)
      exact .moves (fun u hu => by simp at hu) fun _ _ _ => FeederPhase.afterFeed_ne
    · obtain ⟨row, -, h⟩ := Option.map_eq_some_iff.1 h
      obtain ⟨rfl, rfl⟩ := Prod.mk.inj h
      exact .moves (fun _ hu => nomatch hu) fun _ _ _ => nofun

/-- The lock is taken, or somebody else has it. -/
theorem Feeder.lock_cases {fails : Bool} (hphase : p.phase = .lock initialized row)
    (h : p.step conf feeds (.lock fails) = some (feeds', p')) :
    Quiet feeds p (.lock fails) feeds' p' ∨ Takes feeds p row.uniqueid feeds' p' := by
  simp only [Feeder.step, hphase] at h
  split at h
  · rename_i feeds₁ hlock
    obtain ⟨rfl, rfl⟩ := Prod.mk.inj (Option.some.inj h)
    exact .inr ⟨⟨fails, hlock⟩, rfl, initialized, row, rfl, rfl⟩
  · rename_i feeds₁ _ hlock
    obtain ⟨rfl, rfl⟩ := Prod.mk.inj (Option.some.inj h)
    exact .inl ⟨fun u hu => hu.lock hlock, rfl, fun _ hu => (nomatch hu),
      fun _ _ _ h => (nomatch h)⟩
  · obtain ⟨rfl, rfl⟩ := Prod.mk.inj (Option.some.inj h)
    exact .inl (.moves (fun _ hu => nomatch hu) fun _ _ _ => nofun)

/-- An attempt comes to its call, or is over. -/
theorem Feeder.quiet_prepare {o : AttemptOutcome} (hphase : p.phase = .prepare initialized row i)
    (h : p.step conf feeds (.prepare o) = some (feeds', p')) :
    Quiet feeds p (.prepare o) feeds' p' := by
  simp only [Feeder.step, hphase] at h
  split at h
  · obtain ⟨rfl, rfl⟩ := Prod.mk.inj (Option.some.inj h)
    exact .moves (fun u hu => hphase ▸ hu) fun _ _ _ => nofun
  · obtain ⟨rfl, rfl⟩ := Prod.mk.inj (Option.some.inj h)
    refine .moves (fun u hu => ?_) fun _ _ _ => FeederPhase.attempt_ne
    rw [FeederPhase.feed_attempt] at hu
    rw [hphase]
    exact hu
  · cases h

/-- The call is answered, or fails. -/
theorem Feeder.quiet_call {answer : Option (Bytes × ℤ)} {call : PsCall}
    (hphase : p.phase = .call initialized row i call)
    (h : p.step conf feeds (.call answer now) = some (feeds', p')) :
    Quiet feeds p (.call answer now) feeds' p' := by
  simp only [Feeder.step, hphase] at h
  split at h
  · obtain ⟨rfl, rfl⟩ := Prod.mk.inj (Option.some.inj h)
    exact ⟨fun _ h => h, rfl, fun u hu => hphase ▸ hu, fun _ _ _ _ => ⟨now, rfl⟩⟩
  · obtain ⟨rfl, rfl⟩ := Prod.mk.inj (Option.some.inj h)
    exact .moves (fun u hu => hphase ▸ hu) fun _ _ _ => nofun

/-- The lock is given away, unless the statement fails. -/
theorem Feeder.unlock_cases {fails : Bool} (hphase : p.phase = .unlock initialized row failed)
    (h : p.step conf feeds (.unlock fails) = some (feeds', p')) :
    Quiet feeds p (.unlock fails) feeds' p' ∨ Gives feeds p row.uniqueid feeds' p' := by
  simp only [Feeder.step, hphase] at h
  obtain ⟨rfl, rfl⟩ := Prod.mk.inj (Option.some.inj h)
  have hfeed : row.uniqueid ∈ p.phase.feed := by
    rw [hphase]
    exact rfl
  have hans : ∀ init' row' i, (match failed with
      | some i => FeederPhase.attempt initialized row (i + 1)
      | none => .afterFeed initialized) ≠ .unlock init' row' (some i) := by
    intro init' row' i
    cases failed
    · exact FeederPhase.afterFeed_ne
    · exact FeederPhase.attempt_ne
  cases fails with
  | true =>
    refine .inl ⟨fun u hu => hu, rfl, fun u hu => ?_, fun _ _ _ h => absurd h (hans _ _ _)⟩
    cases failed with
    | none => simp at hu
    | some i =>
      obtain rfl : row.uniqueid = u := by simpa using hu
      exact hfeed
  | false =>
    refine .inr ⟨hfeed, rfl, rfl, ?_, hans⟩
    cases failed with
    | none => exact .inr FeederPhase.feed_afterFeed
    | some i => exact .inl ⟨initialized, row, i, hphase⟩

/-- What a step does to the locks. -/
theorem Feeder.step_cases (h : p.step conf feeds a = some (feeds', p')) :
    Quiet feeds p a feeds' p' ∨ (∃ u, Takes feeds p u feeds' p') ∨ ∃ u, Gives feeds p u feeds' p' := by
  have hstep := h
  unfold Feeder.step at h
  split at h <;> rename_i hphase
  · obtain ⟨rfl, rfl⟩ := Prod.mk.inj (Option.some.inj h)
    exact .inl (.moves (fun _ hu => nomatch hu) fun _ _ _ => nofun)
  · exact .inl (quiet_select hphase hstep)
  · exact (lock_cases hphase hstep).imp_right fun ht => .inl ⟨_, ht⟩
  · exact .inl (quiet_prepare hphase hstep)
  · exact .inl (quiet_call hphase hstep)
  · -- the identifier and the state are written
    obtain ⟨rfl, rfl⟩ := Prod.mk.inj (Option.some.inj h)
    exact .inl ⟨fun u hu => hu.afterUpdate keepsLocks_init, rfl, fun u hu => hphase ▸ hu,
      fun _ _ _ h => (nomatch h)⟩
  · exact (unlock_cases hphase hstep).imp_right fun hg => .inr ⟨_, hg⟩
  · obtain ⟨rfl, rfl⟩ := Prod.mk.inj (Option.some.inj h)
    exact .inl ⟨fun u hu => hu.afterUpdate keepsLocks_giveUpRow, rfl, fun u hu => by simp at hu,
      fun _ _ _ h => absurd h FeederPhase.afterFeed_ne⟩
  · obtain ⟨rfl, rfl⟩ := Prod.mk.inj (Option.some.inj h)
    exact .inl ⟨fun u hu => hu.afterUpdate keepsLocks_setState, rfl, fun u hu => hu,
      fun _ _ _ h => by rw [hphase] at h; cases h⟩
  · cases h

theorem feederStep_eq_some {pid : ℕ} (h : feederStep conf s (pid, a) = some t) :
    ∃ p', (s.procs pid).step conf s.feeds a = some (t.feeds, p') ∧
      t.procs = Function.update s.procs pid p' := by
  obtain ⟨⟨feeds', p'⟩, hstep, rfl⟩ := Option.map_eq_some_iff.1 h
  exact ⟨p', hstep, rfl⟩

/-- What is locked by the processes when one of them changes. -/
theorem held_update {procs : ℕ → Feeder} {pid : ℕ} {p : Feeder} {held : Finset ℕ}
    (h : p.held = held) : (fun qid => (Function.update procs pid p qid).held) =
      Function.update (fun qid => (procs qid).held) pid held := by
  funext qid
  by_cases hq : qid = pid
  · subst hq
    rw [Function.update_self, Function.update_self, h]
  · rw [Function.update_of_ne hq, Function.update_of_ne hq]

/-- Every step keeps the locks, unless a call of the primary storage fails. -/
theorem FeedersState.Guarded.step {pid : ℕ} (hs : s.Guarded) (ha : NoFault s (pid, a))
    (h : feederStep conf s (pid, a) = some t) : t.Guarded := by
  obtain ⟨p', hstep, hprocs⟩ := feederStep_eq_some h
  -- of the other processes nothing changes
  have hfeed : (∀ u ∈ p'.phase.feed, u ∈ p'.held) →
      ∀ qid, ∀ u ∈ (t.procs qid).phase.feed, u ∈ (t.procs qid).held := by
    intro hp qid u hu
    rw [hprocs] at hu ⊢
    by_cases hq : qid = pid
    · subst hq
      rw [Function.update_self] at hu ⊢
      exact hp u hu
    · rw [Function.update_of_ne hq] at hu ⊢
      exact hs.feed qid u hu
  have hans : (∀ initialized row i, p'.phase ≠ .unlock initialized row (some i)) →
      ∀ qid initialized row i, (t.procs qid).phase ≠ .unlock initialized row (some i) := by
    intro hp qid
    rw [hprocs]
    by_cases hq : qid = pid
    · subst hq
      rw [Function.update_self]
      exact hp
    · rw [Function.update_of_ne hq]
      exact hs.answered qid
  rcases Feeder.step_cases hstep with hq | ⟨u, ht⟩ | ⟨u, hg⟩
  · refine ⟨?_, hfeed fun u hu => hq.held ▸ hs.feed pid u (hq.feed u hu), hans fun i r n hp => ?_⟩
    · rw [hprocs, held_update hq.held, Function.update_eq_self]
      exact hs.guards.mono hq.locked
    · obtain ⟨now, rfl⟩ := hq.answered i r n hp
      cases ha
  · obtain ⟨fails, hlock⟩ := ht.lock
    obtain ⟨⟨r, hr, hu, hfree⟩, hlocked⟩ := lock_eq_some hlock
    obtain ⟨i, row, hp, hrow⟩ := ht.phase
    refine ⟨?_, hfeed fun v hv => ?_, hans fun i r n hp' => ?_⟩
    · rw [hprocs, held_update ht.held]
      refine hs.guards.acquire pid (fun h => ?_) hlocked fun v hv => hv.lock hlock
      exact absurd ((h.2 r hr hu).symm.trans hfree) one_ne_zero
    · rw [hp] at hv
      obtain rfl : row.uniqueid = v := Option.some.inj hv
      rw [ht.held, hrow]
      exact Finset.mem_insert_self u _
    · rw [hp] at hp'
      cases hp'
  · refine ⟨?_, hfeed fun v hv => ?_, hans hg.answered⟩
    · rw [hprocs, held_update hg.held]
      refine hs.guards.release (hs.feed pid u hg.feed) fun v hne hv => ?_
      rw [hg.unlock]
      exact hv.unlock_of_ne hne
    · -- it was not after a fault that the process gave the lock away
      rcases hg.phase with ⟨i, r, n, hp⟩ | hnone
      · exact absurd hp (hs.answered pid i r n)
      · rw [hnone] at hv
        cases hv

/-- As long as no call of the primary storage fails, a process calls it for a
    feed, and changes its row, only while it holds the lock of the feed, and no
    other process does. -/
theorem exclusive_of_reachable (h : (feederSystem conf).Reachable NoFault s) : Exclusive s := by
  have hs : s.Guarded := by
    refine h.invariant (fun s h₀ => ?_) fun s a t hs ha hst => hs.step ha hst
    have hproc : ∀ pid, s.procs pid = ⟨.idle, ∅⟩ := h₀
    refine ⟨⟨fun pid u hu => ?_, fun pid qid u hu => ?_⟩, fun pid u hu => ?_, fun pid i r n hp => ?_⟩
    · simp [hproc] at hu
    · simp [hproc] at hu
    · rw [hproc] at hu
      cases hu
    · rw [hproc] at hp
      cases hp
  intro pid u hu
  have hheld := hs.feed pid u (FeederPhase.feed_of_touches hu)
  exact ⟨hheld, hs.guards.taken pid u hheld, fun qid hne hq => hne (hs.guards.unique qid pid u hq hheld)⟩

end Exclusive

/-! ## A process alone -/

section Alone

variable {conf} {feeds feeds' : FeedsTable} {p p' : Feeder} {a : FeederAction} {pid : ℕ}
  {procs : ℕ → Feeder} {s : FeedersState} {initialized ok : Bool} {row : FeedRow}
  {os : List AttemptOutcome} {i : ℕ} {held : Finset ℕ} {now : ℤ}

/-- A run goes on with a step of the process it ended with. -/
theorem steps_tail
    (h : (feederSystem conf).Steps System.Always s ⟨feeds, Function.update procs pid p⟩)
    (hstep : p.step conf feeds a = some (feeds', p')) :
    (feederSystem conf).Steps System.Always s ⟨feeds', Function.update procs pid p'⟩ := by
  refine h.tail (a := (pid, a)) trivial ?_
  change feederStep conf _ (pid, a) = _
  simp only [feederStep, Function.update_self, hstep, Option.map_some, Function.update_idem]

/-- The attempts of a process, when the others wait. -/
theorem steps_feedAttempts
    (h : feedAttempts conf initialized row os feeds = .ok (ok, feeds')) (hi : i + os.length = 10)
    (hs : (feederSystem conf).Steps System.Always s
      ⟨feeds, Function.update procs pid ⟨.attempt initialized row i, held⟩⟩) :
    ∃ held', (feederSystem conf).Steps System.Always s
      ⟨feeds', Function.update procs pid
        ⟨if ok then .afterFeed initialized else .giveUp initialized row, held'⟩⟩ := by
  induction os generalizing feeds i held with
  | nil =>
    obtain ⟨rfl, rfl⟩ := Prod.mk.inj (Except.ok.inj h)
    obtain rfl : i = 10 := hi
    exact ⟨held, hs⟩
  | cons o os ih =>
    rw [List.length_cons] at hi
    rw [FeederPhase.attempt, if_pos (by omega)] at hs
    obtain ⟨⟨ok₁, feeds₁⟩, hatt, hrest⟩ := Exec.bind_eq_ok.1 h
    rcases feedAttempt_eq_ok.1 hatt with ⟨hnone, rfl, rfl⟩ | ⟨call, hcall, hmade⟩
    · have hstep : Feeder.step conf feeds₁ ⟨.prepare initialized row i, held⟩ (.prepare o) =
          some (feeds₁, ⟨.attempt initialized row (i + 1), held⟩) := by
        simp only [Feeder.step, hnone]
      exact ih (i := i + 1) hrest (by omega) (steps_tail hs hstep)
    · have hstep : Feeder.step conf feeds ⟨.prepare initialized row i, held⟩ (.prepare o) =
          some (feeds, ⟨.call initialized row i call, held⟩) := by
        simp only [Feeder.step, hcall]
      have hs := steps_tail hs hstep
      cases hans : o.answer with
      | none =>
        simp only [makeCall, hans] at hmade
        obtain ⟨rfl, rfl⟩ := Prod.mk.inj hmade
        have hfault : Feeder.step conf feeds ⟨.call initialized row i call, held⟩ (.call none o.now) =
          some (feeds, ⟨.unlock initialized row (some i), held⟩) := rfl
        exact ih (i := i + 1) hrest (by omega)
          (steps_tail (a := .unlock false) (steps_tail hs hfault) rfl)
      | some answer =>
        simp only [makeCall, hans] at hmade
        obtain ⟨rfl, rfl⟩ := Prod.mk.inj hmade
        obtain ⟨rfl, rfl⟩ := Prod.mk.inj (Except.ok.inj hrest)
        exact ⟨_, steps_tail (a := .unlock false) (steps_tail (a := .init o.initFails o.tnow)
          (steps_tail (a := .call (some answer) o.now) hs rfl) rfl) rfl⟩

/-- What a process does for a feed it has locked, when the others wait. -/
theorem steps_handleFeed {os : Fin 10 → AttemptOutcome}
    (h : handleFeed conf initialized row os now feeds = .ok feeds') :
    ∃ held', (feederSystem conf).Steps System.Always
      ⟨feeds, Function.update procs pid ⟨.prepare initialized row 0, held⟩⟩
      ⟨feeds', Function.update procs pid ⟨.afterFeed initialized, held'⟩⟩ := by
  obtain ⟨ok, feeds₁, hatt, rfl⟩ := handleFeed_eq_ok h
  obtain ⟨held', hs⟩ := @steps_feedAttempts conf _ _ pid procs _ initialized ok row _ 0 held hatt
    (by rw [List.length_ofFn]) (.refl _)
  cases ok with
  | true => exact ⟨held', hs⟩
  | false => exact ⟨held', steps_tail (a := .giveUp false now) hs rfl⟩

end Alone

/-! ## A lock that is given away -/

/-- A process that has not begun. -/
def idleFeeders : FeedersState := ⟨sampleFeeds 0, fun _ => ⟨.idle, ∅⟩⟩

/-- A process gets as far as to call the primary storage. -/
def firstCall (pid : ℕ) : List (ℕ × FeederAction) :=
  [(pid, .start), (pid, .select false 0 0), (pid, .lock false), (pid, .prepare (sampleOutcome true))]

/-- The call of the first process fails; it unlocks the feed, the second one
    locks it, and both are about to call the primary storage for it. -/
def lockGivenAway : List (ℕ × FeederAction) :=
  firstCall 0 ++ [(0, .call none 0), (0, .unlock false)] ++ firstCall 1 ++
    [(0, .prepare (sampleOutcome true))]

/-- Both processes find the feed; the first one locks it, and the second one cannot. -/
def lockContended : List (ℕ × FeederAction) :=
  [(1, .start), (1, .select false 0 0)] ++ firstCall 0 ++ [(1, .lock false)]

/-- The first process has the feed initialised and unlocks it; when the feed is to be
    refreshed, the second one locks it. -/
def lockHandedOver : List (ℕ × FeederAction) :=
  [(1, .select false 0 0), (0, .call (some (ascii "feed", 360)) 0), (0, .init false 0),
    (0, .unlock false), (1, .select false 400 0), (1, .lock false),
    (1, .prepare (sampleOutcome true))]

theorem exists_lockContended : ∃ s, lockContended.foldlM
      (fun s a => if NoFault s a then feederStep sampleFeeding s a else none) idleFeeders = some s ∧
    (s.procs 0).phase.touches = some 1 ∧ s.procs 1 = ⟨.search false, ∅⟩ := ⟨_, rfl, rfl, rfl⟩

theorem exists_lockHandedOver : ∃ s, (lockContended ++ lockHandedOver).foldlM
      (fun s a => if NoFault s a then feederStep sampleFeeding s a else none) idleFeeders = some s ∧
    (s.procs 1).phase.touches = some 1 := ⟨_, rfl, rfl⟩

/-- Each of two processes has the lock when it calls the primary storage, first the one
    and then the other. -/
theorem exclusive_of_reachable_sample : ∃ s t, (feederSystem sampleFeeding).Reachable NoFault s ∧
    (s.procs 0).phase.touches = some 1 ∧ s.procs 1 = ⟨.search false, ∅⟩ ∧ Exclusive s ∧
    (feederSystem sampleFeeding).Reachable NoFault t ∧ (t.procs 1).phase.touches = some 1 ∧
    Exclusive t := by
  obtain ⟨s, hs, htouches, hwaits⟩ := exists_lockContended
  obtain ⟨t, ht, htouches'⟩ := exists_lockHandedOver
  have hreach : (feederSystem sampleFeeding).Reachable NoFault s :=
    ⟨idleFeeders, fun _ => rfl, .of_foldlM (fun _ _ _ h => h) hs⟩
  have hreach' : (feederSystem sampleFeeding).Reachable NoFault t :=
    ⟨idleFeeders, fun _ => rfl, .of_foldlM (fun _ _ _ h => h) ht⟩
  exact ⟨s, t, hreach, htouches, hwaits, exclusive_of_reachable hreach, hreach', htouches',
    exclusive_of_reachable hreach'⟩

theorem exists_lockGivenAway : ∃ s, lockGivenAway.foldlM (fun s a =>
      if System.Always s a then feederStep sampleFeeding s a else none) idleFeeders = some s ∧
    (s.procs 0).phase.touches = some 1 ∧ (s.procs 1).held = {1} := ⟨_, rfl, rfl, rfl⟩

/-- After a call that failed the process calls the primary storage again, for a
    feed another process has locked by then. -/
theorem not_exclusive_sample :
    ∃ s, (feederSystem sampleFeeding).Reachable System.Always s ∧ ¬Exclusive s := by
  obtain ⟨s, hs, htouches, hheld⟩ := exists_lockGivenAway
  refine ⟨s, ⟨idleFeeders, fun _ => rfl, .of_foldlM (fun _ _ _ h => h) hs⟩, fun h => ?_⟩
  refine (h 0 1 htouches).2.2 1 one_ne_zero ?_
  rw [hheld]
  exact Finset.mem_singleton_self 1

end JobProvenance
