import JobProvenance.Index.Server
import JobProvenance.Index.UpdateRetry

/-!
# The flags of a feed

The state of a feed is a word of flags in which the slaves set one bit, that the
history has been delivered, and the feeders another, that the last call failed.
Both read the word, and write all of it at a later time.

The record beside the processes (`FlagRecord`) says of which feeds a slave has
set the first flag, which feeders have searched before that, and for which slaves
the second flag is no longer what they have read.

* `doneKept_and_errorKept`: as long as no feeder writes the state of a feed it has
  read before a slave set its flag, and no slave a state in which a feeder has
  turned its flag since, neither flag is lost;
* `not_doneKept_sample`: otherwise both can be.
-/

namespace JobProvenance

/-- Whether the state of a feed has a flag. -/
def hasFlag (flag : ℕ) (feeds : FeedsTable) (uniqueid : ℕ) : Bool :=
  feeds.rows.any fun r => r.uniqueid = uniqueid ∧ r.state &&& flag ≠ 0

/-- What is recorded of the flags: the feeds of which a slave has set the flag
    `DONE`, unless they were initialised anew or given up, the feeders that have
    searched before, and the slaves that have read another flag `ERROR`. -/
structure FlagRecord where
  done : ℕ → Bool
  missed : ℕ → ℕ → Bool
  turned : ℕ → Bool

/-- No flag was set. -/
def FlagRecord.empty : FlagRecord := ⟨fun _ => false, fun _ _ => false, fun _ => false⟩

/-- Whether a feed that could not be refreshed keeps its identifier. -/
def keepsFeed (initialized : Bool) (row : FeedRow) : Bool :=
  initialized = false ∨ row.state &&& GLITE_JP_IS_STATE_ERROR = 0

/-- The feed that a feeder initialises anew or gives up in its next step. -/
def FeederPhase.resets : FeederPhase → Option ℕ
  | .init false row _ _ _ => some row.uniqueid
  | .giveUp initialized row => if keepsFeed initialized row then none else some row.uniqueid
  | _ => none

/-- The feed whose state a feeder writes in a step as it has read it, but for the flag
    `ERROR`. -/
def FeederPhase.writes : FeederPhase → FeederAction → Option FeedRow
  | .init true row _ _ _, .init false _ => some row
  | .giveUp initialized row, .giveUp false _ => if keepsFeed initialized row then some row else none
  | _, _ => none

/-- Whether a step turns a flag of a feed on. -/
def turnsOn (flag : ℕ) (s t : IndexState) (uniqueid : ℕ) : Bool :=
  !hasFlag flag s.db.feeds uniqueid && hasFlag flag t.db.feeds uniqueid

/-- Whether a step turns a flag of a feed on or off. -/
def turnsFlag (flag : ℕ) (s t : IndexState) (uniqueid : ℕ) : Bool :=
  hasFlag flag s.db.feeds uniqueid ^^ hasFlag flag t.db.feeds uniqueid

/-- The feeds whose flag `DONE` a slave has set, after a step. -/
def FlagRecord.doneAfter (g : FlagRecord) (s : IndexState) (a : IndexAction) (t : IndexState)
    (u : ℕ) : Bool :=
  match a with
  | .slave _ _ => g.done u || turnsOn GLITE_JP_IS_STATE_DONE s t u
  | .feeder pid _ =>
    g.done u && ((s.feeders pid).phase.resets ≠ some u ||
      hasFlag GLITE_JP_IS_STATE_DONE t.db.feeds u)

/-- The feeders that have searched before a slave set the flag `DONE` of a feed,
    after a step. -/
def FlagRecord.missedAfter (g : FlagRecord) (s : IndexState) (a : IndexAction) (t : IndexState)
    (pid u : ℕ) : Bool :=
  match a with
  | .slave _ _ => g.missed pid u || turnsOn GLITE_JP_IS_STATE_DONE s t u
  | .feeder qid (.select ..) => pid ≠ qid && g.missed pid u
  | .feeder _ _ => g.missed pid u

/-- The slaves that have read another flag `ERROR`, after a step. -/
def FlagRecord.turnedAfter (g : FlagRecord) (s t : IndexState) (sid : ℕ) : Bool :=
  match s.slaves sid with
  | .mark feed _ => g.turned sid ^^ turnsFlag GLITE_JP_IS_STATE_ERROR s t feed.uniqueid
  | _ => false

/-- The record after a step. -/
def FlagRecord.next (s : IndexState) (a : IndexAction) (t : IndexState) (g : FlagRecord) :
    FlagRecord :=
  ⟨g.doneAfter s a t, g.missedAfter s a t, g.turnedAfter s t⟩

/-- The processes, and the record of the flags. -/
abbrev FlagsState := IndexState × FlagRecord

/-- The flag `DONE` of a feed stays set once a slave has set it, unless the feed is
    initialised anew or given up. -/
def DoneKept (s : FlagsState) : Prop :=
  ∀ u, s.2.done u = true → hasFlag GLITE_JP_IS_STATE_DONE s.1.db.feeds u = true

/-- A step neither clears the flag `ERROR` of a feed nor restores it. -/
def ErrorKept (s t : FlagsState) : Prop := ∀ u,
  hasFlag GLITE_JP_IS_STATE_ERROR t.1.db.feeds u = hasFlag GLITE_JP_IS_STATE_ERROR s.1.db.feeds u

/-- No slave has set the flag `DONE` of a feed to be kept since a feeder has read its
    state, unless the state had the flag then. -/
def SawDone (s : FlagsState) (pid : ℕ) (row : FeedRow) : Prop :=
  s.2.done row.uniqueid = true → s.2.missed pid row.uniqueid = true →
    row.state &&& GLITE_JP_IS_STATE_DONE ≠ 0

instance (s : FlagsState) (pid : ℕ) (row : FeedRow) : Decidable (SawDone s pid row) :=
  inferInstanceAs (Decidable (_ → _))

/-- A feeder that writes the state of a feed it has found has not missed that a slave
    set a flag, and a slave that marks a feed has read the flag `ERROR` it has. -/
def WritesFresh (s : FlagsState) (a : IndexAction) : Prop :=
  match a with
  | .feeder pid b =>
    match (s.1.feeders pid).phase.writes b with
    | some row => SawDone s pid row
    | none => True
  | .slave sid (.mark fails) =>
    match s.1.slaves sid with
    | .mark feed msg => msg.feedDone = true → feed.state &&& GLITE_JP_IS_STATE_DONE = 0 →
      fails .updateStateFeed = false → s.2.turned sid = false
    | _ => True
  | _ => True

instance (s : FlagsState) (a : IndexAction) : Decidable (WritesFresh s a) := by
  unfold WritesFresh
  split
  · split <;> exact inferInstance
  · split <;> exact inferInstance
  · exact inferInstance

variable (conf : FeedingConf) (ctx : IndexContext)

/-- The processes and the record. -/
def flagSystem : System FlagsState IndexAction :=
  (indexSystem conf ctx).recorded .empty FlagRecord.next

/-- The record leaves the processes to their runs. -/
theorem reachable_iff_flags {s : IndexState} :
    (indexSystem conf ctx).Reachable System.Always s ↔
      ∃ g, (flagSystem conf ctx).Reachable System.Always (s, g) :=
  System.reachable_iff_recorded

/-! ## Flags in a word -/

section Words

variable {state : ℕ}

theorem done_or : (state ||| GLITE_JP_IS_STATE_DONE) &&& GLITE_JP_IS_STATE_DONE ≠ 0 := by
  rw [Nat.and_or_distrib_right, Nat.and_self]
  exact fun h => absurd (Nat.or_eq_zero_iff.1 h).2 (by decide)

theorem error_or_done : (state ||| GLITE_JP_IS_STATE_DONE) &&& GLITE_JP_IS_STATE_ERROR =
    state &&& GLITE_JP_IS_STATE_ERROR := by
  rw [Nat.and_or_distrib_right]
  exact Nat.or_zero _

theorem done_setError : setError state &&& GLITE_JP_IS_STATE_DONE =
    state &&& GLITE_JP_IS_STATE_DONE := by
  rw [setError, Nat.and_or_distrib_right]
  exact Nat.or_zero _

theorem done_clearError : clearError state &&& GLITE_JP_IS_STATE_DONE =
    state &&& GLITE_JP_IS_STATE_DONE := by
  rw [clearError, Nat.and_xor_distrib_right, Nat.and_assoc]
  change _ ^^^ (state &&& 0) = _
  rw [Nat.and_zero, Nat.xor_zero]

end Words

/-! ## Flags in the table -/

section Flags

variable {flag u : ℕ} {feeds feeds' : FeedsTable} {f : FeedRow → FeedRow} {row : FeedRow}

theorem hasFlag_iff : hasFlag flag feeds u = true ↔
    ∃ r ∈ feeds.rows, r.uniqueid = u ∧ r.state &&& flag ≠ 0 := by
  simp [hasFlag]

/-- A flag is the flag of the row. -/
theorem hasFlag_of_mem (h : row ∈ feeds.rows) :
    hasFlag flag feeds row.uniqueid = true ↔ row.state &&& flag ≠ 0 := by
  rw [hasFlag_iff]
  constructor
  · rintro ⟨r, hr, hu, hflag⟩
    exact Table.eq_of_clash hr h (.inl hu) ▸ hflag
  · exact fun hflag => ⟨row, h, rfl, hflag⟩

/-- A flag stays that no row of the feed loses. -/
theorem hasFlag_map (hrows : feeds'.rows = feeds.rows.map f)
    (hu : ∀ r, (f r).uniqueid = r.uniqueid) (h : hasFlag flag feeds u = true)
    (hf : ∀ r ∈ feeds.rows, r.uniqueid = u → r.state &&& flag ≠ 0 → (f r).state &&& flag ≠ 0) :
    hasFlag flag feeds' u = true := by
  obtain ⟨r, hr, hru, hflag⟩ := hasFlag_iff.1 h
  rw [hasFlag_iff, hrows]
  exact ⟨f r, List.mem_map_of_mem hr, (hu r).trans hru, hf r hr hru hflag⟩

/-- A flag is as before when it is so in the row of the feed. -/
theorem hasFlag_map_eq (hrows : feeds'.rows = feeds.rows.map f)
    (hu : ∀ r, (f r).uniqueid = r.uniqueid)
    (hf : ∀ r ∈ feeds.rows, r.uniqueid = u → ((f r).state &&& flag ≠ 0 ↔ r.state &&& flag ≠ 0)) :
    hasFlag flag feeds' u = hasFlag flag feeds u := by
  rw [Bool.eq_iff_iff]
  constructor
  · intro h
    rw [hasFlag_iff, hrows] at h
    obtain ⟨_, hmem, hru, hflag⟩ := h
    obtain ⟨r, hr, rfl⟩ := List.mem_map.1 hmem
    rw [hu] at hru
    exact hasFlag_iff.2 ⟨r, hr, hru, (hf r hr hru).1 hflag⟩
  · exact fun h => hasFlag_map hrows hu h fun r hr hru => (hf r hr hru).2

theorem FeedRow.state_lock {v : ℕ} (r : FeedRow) : (r.lock v).state = r.state := by
  unfold lock
  split_ifs <;> rfl

theorem FeedRow.state_unlock {v : ℕ} (r : FeedRow) : (r.unlock v).state = r.state := by
  unfold unlock FeedRow.at
  split_ifs <;> rfl

theorem FeedRow.state_at_of_ne {v : ℕ} {r : FeedRow} (h : r.uniqueid ≠ v) :
    (FeedRow.at v f r).state = r.state := by
  rw [FeedRow.at, if_neg h]

/-- Who locks a feed leaves its flags. -/
theorem hasFlag_lock {v : ℕ} (hrows : feeds'.rows = feeds.rows.map (.lock v))
    (h : hasFlag flag feeds u = true) : hasFlag flag feeds' u = true := by
  refine hasFlag_map hrows (fun r => r.uniqueid_lock) h fun r _ _ hr => ?_
  rwa [FeedRow.state_lock]

/-- Who unlocks a feed leaves its flags. -/
theorem hasFlag_unlock {v : ℕ} {fails : Bool} (h : hasFlag flag feeds u = true) :
    hasFlag flag (afterUpdate fails (.unlock v) feeds) u = true := by
  rcases @afterUpdate_rows (FeedRow.unlock v) feeds fails with hrows | heq
  · refine hasFlag_map hrows (fun r => r.uniqueid_unlock) h fun r _ _ hr => ?_
    rwa [FeedRow.state_unlock]
  · rwa [heq]

/-- A flag stays when the row of one feed is changed, unless it is the feed of the flag and
    its new state has no such flag. -/
theorem hasFlag_at {v : ℕ} {fails : Bool} (hu : ∀ r, (f r).uniqueid = r.uniqueid)
    (hstate : v = u → fails = false → ∀ r, (f r).state &&& flag ≠ 0)
    (h : hasFlag flag feeds u = true) :
    hasFlag flag (afterUpdate fails (FeedRow.at v f) feeds) u = true := by
  cases fails with
  | true => exact h
  | false =>
    rcases @afterUpdate_rows (FeedRow.at v f) feeds false with hrows | heq
    · refine hasFlag_map hrows (fun r => ?_) h fun r _ hru hr => ?_
      · rw [FeedRow.at]
        split_ifs
        · exact hu r
        · rfl
      · by_cases hv : v = u
        · rw [FeedRow.at, if_pos (hru.trans hv.symm)]
          exact hstate hv rfl r
        · rwa [FeedRow.state_at_of_ne fun h => hv (h.symm.trans hru)]
    · rwa [heq]

end Flags

/-! ## What the steps keep -/

/-- The feed a feeder is at, as its search has found it. -/
def FeederPhase.found : FeederPhase → Option FeedRow
  | .lock _ row | .prepare _ row _ | .call _ row _ _ | .init _ row _ _ _ | .unlock _ row _
  | .giveUp _ row => some row
  | _ => none

/-- A feeder that refreshes a feed is about to store the state it has found, without
    the flag `ERROR`. -/
def FeederPhase.Refreshes : FeederPhase → Prop
  | .call true row _ psCall => ∃ dest feedId, psCall = .feedIndexRefresh dest feedId row.state
  | .init true row _ _ status => status = clearError row.state
  | _ => True

section Steps

variable {conf} {ctx} {feeds feeds' : FeedsTable} {phase phase' : FeederPhase} {a : FeederAction}
  {u : ℕ} {s t : FlagsState} {row : FeedRow} {initialized : Bool} {i : ℕ}

@[simp]
theorem FeederPhase.found_afterFeed : (afterFeed initialized).found = none := by
  cases initialized <;> rfl

@[simp]
theorem FeederPhase.found_attempt : (attempt initialized row i).found = some row := by
  rw [attempt]
  split_ifs <;> rfl

theorem FeederPhase.refreshes_afterFeed : (afterFeed initialized).Refreshes := by
  cases initialized <;> trivial

theorem FeederPhase.refreshes_attempt : (attempt initialized row i).Refreshes := by
  rw [attempt]
  split_ifs <;> trivial

/-- The call that refreshes a feed has the state that was found. -/
theorem attemptCall_refresh {o : AttemptOutcome} {call : PsCall}
    (h : attemptCall conf true row o = .ok (some call)) :
    ∃ dest feedId, call = .feedIndexRefresh dest feedId row.state := by
  change feedRefreshCall o row.source row.state row.feedid = _ at h
  unfold feedRefreshCall at h
  split_ifs at h
  · obtain ⟨feedId, -, h⟩ := Exec.bind_eq_ok.1 h
    exact ⟨_, feedId, (Option.some.inj (Except.ok.inj h)).symm⟩
  · cases h

theorem FeederEffect.refreshes (h : FeederEffect conf feeds phase a feeds' phase')
    (hp : phase.Refreshes) : phase'.Refreshes := by
  cases h with
  | nothing | unlockDone | giveUp => exact FeederPhase.refreshes_afterFeed
  | noCall | unlockFailed => exact FeederPhase.refreshes_attempt
  | @calls initialized row i o call hcall =>
    cases initialized with
    | true => exact attemptCall_refresh hcall
    | false => trivial
  | @answered initialized row i call answered expires now =>
    cases initialized with
    | true =>
      obtain ⟨dest, feedId, rfl⟩ := hp
      rfl
    | false => trivial
  | _ => trivial

/-- A feed a feeder is at after a step it was at before, or it has found it in the
    step. -/
theorem FeederEffect.mem_found (h : FeederEffect conf feeds phase a feeds' phase')
    (hrow : phase'.found = some row) :
    (phase.found = some row ∧ ∀ fails now k, a ≠ .select fails now k) ∨ row ∈ feeds.rows := by
  cases h with
  | found hr hw => exact .inr (Option.some.inj hrow ▸ hr)
  | nothing | unlockDone | giveUp =>
    rw [FeederPhase.found_afterFeed] at hrow
    cases hrow
  | noCall | unlockFailed =>
    rw [FeederPhase.found_attempt] at hrow
    exact .inl ⟨hrow, fun _ _ _ h => nomatch h⟩
  | start | searchFails | notLocked | serve => cases hrow
  | _ => exact .inl ⟨hrow, fun _ _ _ h => nomatch h⟩

/-- What a feeder does to a feed leaves the flag `DONE` set, when the feeder does not
    reset the feed, and writes only states that have the flag. -/
theorem FeederEffect.keepsDone (h : FeederEffect conf feeds phase a feeds' phase')
    (hp : phase.Refreshes) (hserve : ∀ fails state uniqueid, a ≠ .serve fails state uniqueid)
    (hsaw : ∀ row, phase.writes a = some row → row.uniqueid = u →
      row.state &&& GLITE_JP_IS_STATE_DONE ≠ 0)
    (hflag : hasFlag GLITE_JP_IS_STATE_DONE feeds u = true) :
    phase.resets = some u ∨ hasFlag GLITE_JP_IS_STATE_DONE feeds' u = true := by
  cases h with
  | locked h => exact .inr (hasFlag_lock (updateFeeds_eq_some h).2.2 hflag)
  | notLocked h =>
    rcases h with rfl | hrows
    · exact .inr hflag
    · exact .inr (hasFlag_lock hrows hflag)
  | @init initialized row feedId expires status fails tnow =>
    cases initialized with
    | false =>
      -- a feed that is initialised anew loses what it had
      by_cases hu : row.uniqueid = u
      · exact .inl (congrArg some hu)
      · exact .inr (hasFlag_at (fun _ => rfl) (fun h => absurd h hu) hflag)
    | true =>
      -- the state that was found is written back, without the flag of errors
      refine .inr (hasFlag_at (fun _ => rfl) (fun hu hfails _ => ?_) hflag)
      obtain rfl : status = clearError row.state := hp
      subst hfails
      rw [done_clearError]
      exact hsaw row rfl hu
  | unlockFailed => exact .inr (hasFlag_unlock hflag)
  | unlockDone => exact .inr (hasFlag_unlock hflag)
  | @giveUp initialized row fails now =>
    unfold giveUpRow
    by_cases hkeep : initialized = false ∨ row.state &&& GLITE_JP_IS_STATE_ERROR = 0
    · rw [if_pos hkeep]
      refine .inr (hasFlag_at (fun _ => rfl) (fun hu hfails _ => ?_) hflag)
      subst hfails
      change setError row.state &&& GLITE_JP_IS_STATE_DONE ≠ 0
      rw [done_setError]
      exact hsaw row (if_pos (decide_eq_true hkeep)) hu
    · rw [if_neg hkeep]
      by_cases hu : row.uniqueid = u
      · refine .inl ?_
        rw [FeederPhase.resets, keepsFeed, if_neg (by simpa using hkeep), hu]
      · exact .inr (hasFlag_at (fun _ => rfl) (fun h => absurd h hu) hflag)
  | serve => exact absurd rfl (hserve _ _ _)
  | _ => exact .inr hflag

theorem FeederPhase.found_of_writes (h : phase.writes a = some row) : phase.found = some row := by
  unfold FeederPhase.writes at h
  split at h
  · exact h
  · split_ifs at h
    exact h
  · cases h

/-- What a slave that marks a feed does to the flags: it sets `DONE` there, and
    leaves `ERROR` as it was when the slave has read it so. -/
theorem hasFlag_mark {feed : FeedRow}
    (hrows : feeds'.rows = feeds.rows.map
      (.setState (feed.state ||| GLITE_JP_IS_STATE_DONE) feed.uniqueid)) :
    (hasFlag GLITE_JP_IS_STATE_DONE feeds u = true →
      hasFlag GLITE_JP_IS_STATE_DONE feeds' u = true) ∧
    (hasFlag GLITE_JP_IS_STATE_ERROR feeds feed.uniqueid =
        decide (feed.state &&& GLITE_JP_IS_STATE_ERROR ≠ 0) →
      hasFlag GLITE_JP_IS_STATE_ERROR feeds' u = hasFlag GLITE_JP_IS_STATE_ERROR feeds u) := by
  constructor
  · refine fun h => hasFlag_map hrows (FeedRow.uniqueid_setState _ _) h fun r _ _ hr => ?_
    rw [FeedRow.setState]
    split_ifs
    · exact done_or
    · exact hr
  · refine fun h => hasFlag_map_eq hrows (FeedRow.uniqueid_setState _ _) fun r hr _ => ?_
    rw [FeedRow.setState]
    split_ifs with hu
    · change (feed.state ||| GLITE_JP_IS_STATE_DONE) &&& GLITE_JP_IS_STATE_ERROR ≠ 0 ↔ _
      rw [error_or_done, ← hasFlag_of_mem hr, hu, h, decide_eq_true_iff]
    · exact Iff.rfl

/-- What holds as long as nothing is written that is out of date: besides the flag
    `DONE`, which state the feeders are about to write, and what the slaves know of the
    flag `ERROR`. -/
structure FlagsKept (s : FlagsState) : Prop where
  done : DoneKept s
  saw : ∀ pid row, (s.1.feeders pid).phase.found = some row → s.2.done row.uniqueid = true →
    s.2.missed pid row.uniqueid = false → row.state &&& GLITE_JP_IS_STATE_DONE ≠ 0
  refreshes : ∀ pid, (s.1.feeders pid).phase.Refreshes
  turned : ∀ sid feed msg, s.1.slaves sid = .mark feed msg →
    (hasFlag GLITE_JP_IS_STATE_ERROR s.1.db.feeds feed.uniqueid ^^ s.2.turned sid) =
      decide (feed.state &&& GLITE_JP_IS_STATE_ERROR ≠ 0)

/-- What is known of the flag `ERROR` is known after a step that is recorded. -/
theorem turned_after {s t : IndexState} {g : FlagRecord} {sid : ℕ} {feed : FeedRow}
    {msg : UpdateJobs} (hs : s.slaves sid = .mark feed msg)
    (h : (hasFlag GLITE_JP_IS_STATE_ERROR s.db.feeds feed.uniqueid ^^ g.turned sid) =
      decide (feed.state &&& GLITE_JP_IS_STATE_ERROR ≠ 0)) :
    (hasFlag GLITE_JP_IS_STATE_ERROR t.db.feeds feed.uniqueid ^^ g.turnedAfter s t sid) =
      decide (feed.state &&& GLITE_JP_IS_STATE_ERROR ≠ 0) := by
  rw [← h, FlagRecord.turnedAfter, hs]
  change (_ ^^ (_ ^^ (_ ^^ _))) = _
  cases hasFlag GLITE_JP_IS_STATE_ERROR s.db.feeds feed.uniqueid <;>
    cases hasFlag GLITE_JP_IS_STATE_ERROR t.db.feeds feed.uniqueid <;> cases g.turned sid <;> rfl

theorem missed_feeder {s t : IndexState} {g : FlagRecord} {pid qid : ℕ} {b : FeederAction}
    (h : g.missedAfter s (.feeder pid b) t qid u = false)
    (hb : qid ≠ pid ∨ ∀ fails now k, b ≠ .select fails now k) : g.missed qid u = false := by
  cases b with
  | select fails now k =>
    have hne : qid ≠ pid := hb.resolve_right fun h => h fails now k rfl
    simpa [FlagRecord.missedAfter, hne] using h
  | _ => exact h

theorem FlagsKept.step_feeder {pid : ℕ} {b : FeederAction} (hs : FlagsKept s)
    (ha : WritesFresh s (.feeder pid b)) (hst : (flagSystem conf ctx).step s (.feeder pid b) t) :
    FlagsKept t := by
  obtain ⟨feeds, p, hstep, hserve, ht⟩ := indexStep_feeder hst.1
  have hrec : t.2 = FlagRecord.next s.1 (.feeder pid b) t.1 s.2 := hst.2
  have heff := Feeder.step_effect hstep
  have hdone : ∀ u, t.2.done u = true → s.2.done u = true := by
    intro u h
    rw [hrec] at h
    exact (Bool.and_eq_true_iff.1 h).1
  refine ⟨fun u h => ?_, fun qid row hq h hm => ?_, fun qid => ?_, fun sid feed msg h => ?_⟩
  · have hold := hdone u h
    rw [hrec] at h
    rcases Bool.or_eq_true_iff.1 (Bool.and_eq_true_iff.1 h).2 with hreset | hflag
    · have hfeeds : t.1.db.feeds = feeds := by rw [ht]
      rw [hfeeds]
      refine (heff.keepsDone (hs.refreshes pid) hserve (fun row hw hu => ?_)
        (hs.done u hold)).resolve_left (by simpa using hreset)
      rw [← hu] at hold
      have hsaw : SawDone s pid row := by
        change match (s.1.feeders pid).phase.writes b with
          | some row => SawDone s pid row
          | none => True at ha
        rwa [hw] at ha
      cases hm : s.2.missed pid row.uniqueid with
      | true => exact hsaw hold hm
      | false => exact hs.saw pid row (FeederPhase.found_of_writes hw) hold hm
    · exact hflag
  · have hold := hdone _ h
    have hproc : t.1.feeders = Function.update s.1.feeders pid p := by rw [ht]
    rw [hproc] at hq
    by_cases hne : qid = pid
    · subst hne
      rw [Function.update_self] at hq
      rcases heff.mem_found hq with ⟨hfound, hselect⟩ | hrow
      · rw [hrec] at hm
        exact hs.saw qid row hfound hold (missed_feeder hm (.inr hselect))
      · exact (hasFlag_of_mem hrow).1 (hs.done _ hold)
    · rw [Function.update_of_ne hne] at hq
      rw [hrec] at hm
      exact hs.saw qid row hq hold (missed_feeder hm (.inl hne))
  · have hproc : t.1.feeders = Function.update s.1.feeders pid p := by rw [ht]
    rw [hproc]
    by_cases hne : qid = pid
    · subst hne
      rw [Function.update_self]
      exact heff.refreshes (hs.refreshes qid)
    · rw [Function.update_of_ne hne]
      exact hs.refreshes qid
  · have hslave : s.1.slaves sid = .mark feed msg := by rwa [ht] at h
    rw [hrec]
    exact turned_after hslave (hs.turned sid feed msg hslave)

/-- A slave that marks a feed knows the flag `ERROR` of it. -/
theorem FlagsKept.knowsError {sid : ℕ} {b : SlaveAction} (hs : FlagsKept s)
    (ha : WritesFresh s (.slave sid b)) {db : IndexDb} {phase : UpdatePhase} {feed : FeedRow}
    {msg : UpdateJobs} (hstep : slaveStep ctx s.1.db b (s.1.slaves sid) = some (db, phase))
    (hphase : s.1.slaves sid = .mark feed msg) (hdone : msg.feedDone = true)
    (hstate : feed.state &&& GLITE_JP_IS_STATE_DONE = 0) :
    db.feeds = s.1.db.feeds ∨ hasFlag GLITE_JP_IS_STATE_ERROR s.1.db.feeds feed.uniqueid =
      decide (feed.state &&& GLITE_JP_IS_STATE_ERROR ≠ 0) := by
  rw [hphase] at hstep
  cases b with
  | select fails msg => cases hstep
  | store fails => cases hstep
  | mark fails =>
    cases hf : fails .updateStateFeed with
    | true =>
      refine .inl ?_
      rw [(followedBy_eq hstep).1, markDone, if_pos ⟨hdone, hstate⟩, expectOne_eq, hf]
      rfl
    | false =>
      have hturned : s.2.turned sid = false := by
        simp only [WritesFresh, hphase] at ha
        exact ha hdone hstate hf
      have h := hs.turned sid feed msg hphase
      rw [hturned, Bool.xor_false] at h
      exact .inr h

theorem FlagsKept.step_slave {sid : ℕ} {b : SlaveAction} (hs : FlagsKept s)
    (ha : WritesFresh s (.slave sid b)) (hst : (flagSystem conf ctx).step s (.slave sid b) t) :
    FlagsKept t ∧ ErrorKept s t := by
  obtain ⟨db, phase, hstep, ht⟩ := indexStep_slave hst.1
  have hrec : t.2 = FlagRecord.next s.1 (.slave sid b) t.1 s.2 := hst.2
  have hfeeds : t.1.db.feeds = db.feeds := by rw [ht]
  have hfeeders : t.1.feeders = s.1.feeders := by rw [ht]
  have hslaves : t.1.slaves = Function.update s.1.slaves sid phase := by rw [ht]
  -- the flag that is set stays set, and the other one is as it was
  have hflags : (∀ u, hasFlag GLITE_JP_IS_STATE_DONE s.1.db.feeds u = true →
      hasFlag GLITE_JP_IS_STATE_DONE t.1.db.feeds u = true) ∧ ErrorKept s t := by
    unfold ErrorKept
    rw [hfeeds]
    rcases slaveStep_feeds hstep with hsame | ⟨feed, msg, hphase, hdone, hstate, hrows⟩
    · rw [hsame]
      exact ⟨fun _ h => h, fun _ => rfl⟩
    · rcases hs.knowsError ha hstep hphase hdone hstate with hsame | hknows
      · rw [hsame]
        exact ⟨fun _ h => h, fun _ => rfl⟩
      · exact ⟨fun u => (hasFlag_mark hrows).1, fun u => (hasFlag_mark hrows).2 hknows⟩
  refine ⟨⟨fun u h => ?_, fun pid row hp h hm => ?_, fun pid => hfeeders ▸ hs.refreshes pid,
    fun qid feed msg hq => ?_⟩, hflags.2⟩
  · rw [hrec] at h
    rcases Bool.or_eq_true_iff.1 h with hold | hon
    · exact hflags.1 u (hs.done u hold)
    · exact (Bool.and_eq_true_iff.1 hon).2
  · rw [hrec] at h hm
    obtain ⟨hmissed, hon⟩ := Bool.or_eq_false_iff.1 hm
    rw [hfeeders] at hp
    exact hs.saw pid row hp ((Bool.or_eq_true_iff.1 h).resolve_right (by simp [hon])) hmissed
  · rw [hrec]
    rw [hslaves] at hq
    by_cases hne : qid = sid
    · -- the slave has just read the state
      subst hne
      rw [Function.update_self] at hq
      subst hq
      obtain ⟨rfl, hidle, -, hfeed⟩ := slaveStep_to_mark hstep
      have hturned : s.2.turnedAfter s.1 t.1 qid = false := by
        rw [FlagRecord.turnedAfter, hidle]
      change (_ ^^ s.2.turnedAfter s.1 t.1 qid) = _
      rw [hturned, Bool.xor_false, hfeeds, Bool.eq_iff_iff,
        hasFlag_of_mem (List.mem_of_find?_eq_some hfeed), decide_eq_true_iff]
    · rw [Function.update_of_ne hne] at hq
      exact turned_after hq (hs.turned qid feed msg hq)

theorem flagsKept_of_reachable (h : (flagSystem conf ctx).Reachable WritesFresh s) :
    FlagsKept s := by
  refine h.invariant (fun s ⟨⟨hfeeders, hslaves⟩, hrec⟩ => ?_) fun s a t hs ha hst => ?_
  · refine ⟨fun u h => ?_, fun pid row hp => ?_, fun pid => ?_, fun sid feed msg h => ?_⟩
    · rw [hrec] at h
      cases h
    · rw [hfeeders] at hp
      cases hp
    · rw [hfeeders]
      trivial
    · rw [hslaves] at h
      cases h
  · cases a with
    | feeder pid b => exact hs.step_feeder ha hst
    | slave sid b => exact (hs.step_slave ha hst).1

/-- As long as nothing is written that is out of date, the flag `DONE` of a feed stays
    set, and no slave clears the flag `ERROR` of a feed, or restores it. -/
theorem doneKept_and_errorKept (h : (flagSystem conf ctx).Reachable WritesFresh s) :
    DoneKept s ∧ ∀ sid b t, WritesFresh s (.slave sid b) →
      (flagSystem conf ctx).step s (.slave sid b) t → ErrorKept s t :=
  have hs := flagsKept_of_reachable h
  ⟨hs.done, fun _ _ _ ha hst => (hs.step_slave ha hst).2⟩

end Steps

/-! ## Flags that are lost -/

/-- A server with a feed that is to be refreshed. -/
def sampleRefreshing : IndexState where
  db := { sampleIndexDb with
    feeds := ⟨[{ sampleFeedRow with feedid := some (ascii "feed"), expires := some 0 }],
      List.pairwise_singleton _ _⟩ }
  feeders _ := ⟨.idle, ∅⟩
  slaves _ := .idle

/-- The last message of the history. -/
def lastMessage : UpdateJobs := ⟨ascii "feed", true, []⟩

/-- A feeder finds the feed and locks it. -/
def lockToRefresh : List IndexAction :=
  [.feeder 0 .start, .feeder 0 (.select false 0 0), .feeder 0 (.select false 0 0),
    .feeder 0 (.lock false)]

/-- The feeder calls the primary storage, which answers and sends the last message of
    the history; then the feeder stores the answer. -/
def doneLost : List IndexAction :=
  lockToRefresh ++ [.feeder 0 (.prepare (sampleOutcome true)), .slave 0 (.select never lastMessage),
    .slave 0 (.mark never), .feeder 0 (.call (some (ascii "feed", 360)) 0), .feeder 0 (.init false 0)]

/-- A slave looks up the feed, and the feeder, all of whose attempts fail, marks it
    for that. -/
def errorLost : List IndexAction :=
  lockToRefresh ++ [.slave 0 (.select never lastMessage)] ++
    List.replicate 10 (.feeder 0 (.prepare (sampleOutcome false))) ++ [.feeder 0 (.giveUp false 0)]

/-- A run of the server that is recorded. -/
def runFlags (ok : FlagsState → IndexAction → Prop) [∀ s a, Decidable (ok s a)]
    (actions : List IndexAction) : Option FlagsState :=
  actions.foldlM (fun s a => if ok s a then
    System.recordedStep FlagRecord.next (indexStep sampleFeeding (sampleServer true)) s a else none)
    (sampleRefreshing, .empty)

theorem reachable_of_runFlags {ok : FlagsState → IndexAction → Prop} [∀ s a, Decidable (ok s a)]
    {actions : List IndexAction} {s : FlagsState} (h : runFlags ok actions = some s) :
    (flagSystem sampleFeeding (sampleServer true)).Reachable ok s :=
  ⟨_, ⟨⟨fun _ => rfl, fun _ => rfl⟩, rfl⟩,
    .of_foldlM (fun _ _ _ h => System.recordedStep_eq_some.1 h) h⟩

theorem exists_doneLost : ∃ s, runFlags System.Always doneLost = some s ∧ s.2.done 1 = true ∧
    hasFlag GLITE_JP_IS_STATE_DONE s.1.db.feeds 1 = false :=
  ⟨_, rfl, rfl, rfl⟩

theorem exists_errorLost : ∃ s t, runFlags System.Always errorLost = some s ∧
    System.recordedStep FlagRecord.next (indexStep sampleFeeding (sampleServer true)) s
      (.slave 0 (.mark never)) = some t ∧
    hasFlag GLITE_JP_IS_STATE_ERROR s.1.db.feeds 1 = true ∧
    hasFlag GLITE_JP_IS_STATE_ERROR t.1.db.feeds 1 = false :=
  ⟨_, _, rfl, rfl, rfl, rfl⟩

/-- The message comes before the feeder has searched. -/
theorem exists_doneFirst : ∃ s, runFlags WritesFresh
      ([.slave 0 (.select never lastMessage), .slave 0 (.mark never)] ++ lockToRefresh ++
        [.feeder 0 (.prepare (sampleOutcome true)), .feeder 0 (.call (some (ascii "feed", 360)) 0),
          .feeder 0 (.init false 0)]) = some s ∧ s.2.done 1 = true :=
  ⟨_, rfl, rfl⟩

theorem doneKept_and_errorKept_sample : ∃ s,
    (flagSystem sampleFeeding (sampleServer true)).Reachable WritesFresh s ∧ s.2.done 1 = true ∧
      DoneKept s ∧ ∀ sid b t, WritesFresh s (.slave sid b) →
        (flagSystem sampleFeeding (sampleServer true)).step s (.slave sid b) t → ErrorKept s t := by
  obtain ⟨s, hs, hdone⟩ := exists_doneFirst
  have hreach := reachable_of_runFlags hs
  exact ⟨s, hreach, hdone, doneKept_and_errorKept hreach⟩

/-- The flag `DONE` is lost when a feeder writes the state it has read before, and the
    flag `ERROR` when a slave does. -/
theorem not_doneKept_sample :
    (∃ s, (flagSystem sampleFeeding (sampleServer true)).Reachable System.Always s ∧ ¬DoneKept s) ∧
    ∃ s sid b t, (flagSystem sampleFeeding (sampleServer true)).Reachable System.Always s ∧
      (flagSystem sampleFeeding (sampleServer true)).step s (.slave sid b) t ∧ ¬ErrorKept s t := by
  constructor
  · obtain ⟨s, hs, hdone, hflag⟩ := exists_doneLost
    exact ⟨s, reachable_of_runFlags hs, fun h => absurd (hflag.symm.trans (h 1 hdone)) nofun⟩
  · obtain ⟨s, t, hs, ht, hbefore, hafter⟩ := exists_errorLost
    refine ⟨s, 0, _, t, reachable_of_runFlags hs, System.recordedStep_eq_some.1 ht, fun h => ?_⟩
    exact absurd ((hafter.symm.trans (h 1)).trans hbefore) nofun

end JobProvenance
