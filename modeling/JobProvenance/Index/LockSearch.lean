import JobProvenance.Index.FeedLock

/-!
# The feed that is locked

`glite_jpis_lockSearchFeed` finds a feed with one statement and locks it with
another, which looks only at the lock. In between, other processes may lock the
feed, change it and unlock it.

The record beside the processes (`SearchRecord`) has the time of the last search
of each process, and whether the feed it has found has changed since.

* `lockedAsFound_of_reachable`: as long as no feed is locked that has changed
  since it was found, what a call returns is what the feed is when it is locked,
  and the feed meets the condition of the search;
* `not_lockedAsFound_sample`: a process locks a feed another one has initialised
  in between, to initialise it once more.
-/

namespace JobProvenance

/-- The row of a feed, as if it was not locked. -/
def unlockedRow (feeds : FeedsTable) (uniqueid : ℕ) : Option FeedRow :=
  (feeds.rows.find? fun r => r.uniqueid = uniqueid).map fun r => { r with locked := 0 }

/-- What is recorded of the searches: for each process, the time of the last one,
    and whether the feed it has found has changed since, its lock apart. -/
structure SearchRecord where
  asked : ℕ → ℤ
  changed : ℕ → Bool

/-- Nothing was searched for. -/
def SearchRecord.empty : SearchRecord := ⟨fun _ => 0, fun _ => false⟩

/-- The times of the searches after a step. -/
def SearchRecord.askedAfter (g : SearchRecord) : ℕ × FeederAction → ℕ → ℤ
  | (pid, .select _ now _) => Function.update g.asked pid now
  | _ => g.asked

/-- Whether a feed that a process has found, and not locked yet, has changed
    after a step. -/
def SearchRecord.changedAfter (g : SearchRecord) (s t : FeedersState) (pid : ℕ) : Bool :=
  match (s.procs pid).phase with
  | .lock _ row =>
    g.changed pid || unlockedRow s.feeds row.uniqueid ≠ unlockedRow t.feeds row.uniqueid
  | _ => false

/-- The record after a step. -/
def SearchRecord.next (s : FeedersState) (a : ℕ × FeederAction) (t : FeedersState)
    (g : SearchRecord) : SearchRecord :=
  ⟨g.askedAfter a, g.changedAfter s t⟩

/-- The processes, and the record of their searches. -/
abbrev SearchesState := FeedersState × SearchRecord

/-- The call of a process returns the feed it has found: it has locked it. -/
def ReturnsFeed (s t : SearchesState) (pid : ℕ) (initialized : Bool) (row : FeedRow) : Prop :=
  (s.1.procs pid).phase = .lock initialized row ∧ (t.1.procs pid).phase = .prepare initialized row 0

/-- What a call returns is the feed as it is when it is locked, and that meets the
    condition of the search, at the time of the search and ever after. -/
def LockedAsFound (s t : SearchesState) (pid : ℕ) (initialized : Bool) (row : FeedRow) : Prop :=
  ∃ r ∈ s.1.feeds.rows, r.uniqueid = row.uniqueid ∧
    (∀ now ≥ s.2.asked pid, r.wanted initialized now = true) ∧
    r.source = row.source ∧ r.state = row.state ∧ r.feedid = row.feedid ∧
    { r with locked := 1 } ∈ t.1.feeds.rows

/-- A feed that nobody has locked has not changed since the process found it that
    is about to lock it. -/
def Unchanged (s : SearchesState) (a : ℕ × FeederAction) : Prop :=
  match a.2, (s.1.procs a.1).phase with
  | .lock false, .lock _ row =>
    (∃ r ∈ s.1.feeds.rows, r.uniqueid = row.uniqueid ∧ r.locked = 0) → s.2.changed a.1 = false
  | _, _ => True

instance (s : SearchesState) (a : ℕ × FeederAction) : Decidable (Unchanged s a) := by
  unfold Unchanged
  split
  · exact inferInstance
  · exact inferInstance

variable (conf : FeedingConf)

/-- The processes and the record. -/
def searchSystem : System SearchesState (ℕ × FeederAction) :=
  (feederSystem conf).recorded .empty SearchRecord.next

/-- The record leaves the processes to their runs. -/
theorem reachable_iff_searches {s : FeedersState} :
    (feederSystem conf).Reachable System.Always s ↔
      ∃ g, (searchSystem conf).Reachable System.Always (s, g) :=
  System.reachable_iff_recorded

section Search

variable {conf} {feeds feeds' : FeedsTable} {p p' : Feeder} {a : FeederAction} {s t : SearchesState}
  {initialized : Bool} {row : FeedRow} {pid : ℕ}

theorem wanted_unlocked {now : ℤ} (h : row.wanted initialized now = true) : row.locked = 0 := by
  unfold FeedRow.wanted at h
  split_ifs at h
  · exact (of_decide_eq_true h).1
  · exact (of_decide_eq_true h).1

/-- What a search found stays wanted as time goes by. -/
theorem wanted_later {now later : ℤ} (h : row.wanted initialized now = true) (hle : now ≤ later) :
    row.wanted initialized later = true := by
  unfold FeedRow.wanted at h ⊢
  split_ifs at h ⊢
  · obtain ⟨hlocked, hid, e, he, hnow⟩ := of_decide_eq_true h
    exact decide_eq_true ⟨hlocked, hid, e, he, hnow.trans hle⟩
  · obtain ⟨hlocked, hid, hstate⟩ := of_decide_eq_true h
    exact decide_eq_true ⟨hlocked, hid, hstate.imp id fun ⟨e, he, hnow⟩ => ⟨e, he, hnow.trans hle⟩⟩

theorem unlockedRow_of_mem (h : row ∈ feeds.rows) :
    unlockedRow feeds row.uniqueid = some { row with locked := 0 } := by
  rw [unlockedRow, Table.find?_eq_some h (by simp) fun b _ hb => .inl (of_decide_eq_true hb).symm]
  rfl

/-- The row of a feed in whose place another was found, its lock apart. -/
theorem eq_of_unlockedRow {r : FeedRow} (h : unlockedRow feeds row.uniqueid = some row)
    (hr : r ∈ feeds.rows) (hu : r.uniqueid = row.uniqueid) (hfree : r.locked = 0) : r = row := by
  have hrow : some row = some { r with locked := 0 } :=
    h.symm.trans (hu ▸ unlockedRow_of_mem hr)
  rw [Option.some.inj hrow, ← hfree]

theorem FeederPhase.afterFeed_ne_lock {init' : Bool} :
    afterFeed init' ≠ .lock initialized row := by
  cases init' <;> exact fun h => nomatch h

theorem FeederPhase.attempt_ne_lock {init' : Bool} {row' : FeedRow} {i : ℕ} :
    attempt init' row' i ≠ .lock initialized row := by
  rw [attempt]
  split_ifs <;> rintro ⟨⟩

/-- A process is about to lock a feed after its search has found it. -/
theorem Feeder.step_to_lock (h : p.step conf feeds a = some (feeds', p'))
    (hp : p'.phase = .lock initialized row) :
    ∃ now k, a = .select false now k ∧ feeds' = feeds ∧ row ∈ feeds.rows ∧
      row.wanted initialized now = true := by
  have hnot : ∀ {feeds₁ : FeedsTable} {phase : FeederPhase} {held : Finset ℕ},
      some (feeds₁, (⟨phase, held⟩ : Feeder)) = some (feeds', p') →
        phase ≠ .lock initialized row → False := by
    intro feeds₁ phase held h hne
    obtain ⟨-, rfl⟩ := Prod.mk.inj (Option.some.inj h)
    exact hne hp
  unfold Feeder.step at h
  split at h
  case h_2 fails now k init' hphase =>
    split_ifs at h with hfails
    · exact (hnot h fun h => nomatch h).elim
    · obtain rfl : fails = false := by simpa using hfails
      split at h
      · exact (hnot h FeederPhase.afterFeed_ne_lock).elim
      · obtain ⟨r, hr, h⟩ := Option.map_eq_some_iff.1 h
        obtain ⟨rfl, rfl⟩ := Prod.mk.inj h
        cases hp
        exact ⟨now, k, rfl, rfl, List.mem_filter.1 (List.mem_of_getElem? hr)⟩
  -- no other step ends there
  case h_1 => exact (hnot h fun h => nomatch h).elim
  case h_3 => split at h <;> exact (hnot h fun h => nomatch h).elim
  case h_4 =>
    split at h
    · exact (hnot h fun h => nomatch h).elim
    · exact (hnot h FeederPhase.attempt_ne_lock).elim
    · cases h
  case h_5 => split at h <;> exact (hnot h fun h => nomatch h).elim
  case h_6 => exact (hnot h fun h => nomatch h).elim
  case h_7 fails init' row' failed hphase =>
    cases failed with
    | none => exact (hnot h FeederPhase.afterFeed_ne_lock).elim
    | some i => exact (hnot h FeederPhase.attempt_ne_lock).elim
  case h_8 => exact (hnot h FeederPhase.afterFeed_ne_lock).elim
  case h_9 hphase =>
    obtain ⟨-, rfl⟩ := Prod.mk.inj (Option.some.inj h)
    rw [hphase] at hp
    cases hp
  case h_10 => cases h

/-- What a process does that is about to lock a feed. -/
theorem Feeder.step_of_lock (h : p.step conf feeds a = some (feeds', p'))
    (hp : p.phase = .lock initialized row) (hp' : p'.phase = .prepare initialized row 0) :
    a = .lock false ∧ updateFeeds false (.lock row.uniqueid) feeds = some (1, feeds') := by
  unfold Feeder.step at h
  rw [hp] at h
  split at h <;> try contradiction
  rename_i fails init' row' hphase
  cases hphase
  split at h
  · rename_i hlock
    obtain ⟨rfl, rfl⟩ := Prod.mk.inj (Option.some.inj h)
    obtain rfl := (updateFeeds_eq_some hlock).1
    exact ⟨rfl, hlock⟩
  · obtain ⟨-, rfl⟩ := Prod.mk.inj (Option.some.inj h)
    cases hp'
  · obtain ⟨-, rfl⟩ := Prod.mk.inj (Option.some.inj h)
    cases hp'

/-- A process that is about to lock a feed has found it wanted, and if it has not
    changed since, it is as it was found. -/
def Remembers (s : SearchesState) : Prop :=
  ∀ pid initialized row, (s.1.procs pid).phase = .lock initialized row →
    row.wanted initialized (s.2.asked pid) = true ∧
      (s.2.changed pid = false → unlockedRow s.1.feeds row.uniqueid = some row)

theorem Remembers.step {a : ℕ × FeederAction} (hs : Remembers s) (h : (searchSystem conf).step s a t) :
    Remembers t := by
  obtain ⟨hstep, hrec⟩ := h
  obtain ⟨pid, b⟩ := a
  obtain ⟨p', hp', hprocs⟩ := feederStep_eq_some hstep
  intro qid initialized row hq
  by_cases hne : qid = pid
  · subst hne
    rw [hprocs, Function.update_self] at hq
    obtain ⟨now, k, rfl, hfeeds, hrow, hwanted⟩ := Feeder.step_to_lock hp' hq
    have hasked : t.2.asked qid = now := by
      rw [hrec]
      exact Function.update_self ..
    rw [hasked, hfeeds, unlockedRow_of_mem hrow]
    refine ⟨hwanted, fun _ => ?_⟩
    rw [← wanted_unlocked hwanted]
  · -- the process waits, and what the other one does is recorded
    rw [hprocs, Function.update_of_ne hne] at hq
    obtain ⟨hwanted, hsame⟩ := hs qid initialized row hq
    have hasked : t.2.asked qid = s.2.asked qid := by
      rw [hrec]
      cases b with
      | select => exact Function.update_of_ne hne ..
      | _ => rfl
    rw [hasked]
    refine ⟨hwanted, fun hchanged => ?_⟩
    rw [hrec] at hchanged
    change s.2.changedAfter s.1 t.1 qid = false at hchanged
    simp only [SearchRecord.changedAfter, hq, Bool.or_eq_false_iff, decide_eq_false_iff_not,
      ne_eq, not_not] at hchanged
    rw [← hchanged.2]
    exact hsame hchanged.1

theorem remembers_of_reachable {ok : SearchesState → ℕ × FeederAction → Prop}
    (h : (searchSystem conf).Reachable ok s) : Remembers s := by
  refine h.invariant (fun s h₀ pid initialized row hp => ?_) fun s a t hs _ hst => hs.step hst
  have hidle : s.1.procs pid = ⟨.idle, ∅⟩ := h₀.1 pid
  rw [hidle] at hp
  cases hp

/-- As long as no feed is locked that has changed since it was found, a call
    returns the feed as it is when it locks it, and the feed is still one the
    call has asked for. -/
theorem lockedAsFound_of_reachable {a : ℕ × FeederAction}
    (hs : (searchSystem conf).Reachable Unchanged s) (ha : Unchanged s a)
    (hst : (searchSystem conf).step s a t) (hret : ReturnsFeed s t pid initialized row) :
    LockedAsFound s t pid initialized row := by
  obtain ⟨qid, b⟩ := a
  obtain ⟨p', hp', hprocs⟩ := feederStep_eq_some hst.1
  obtain ⟨hp, hq⟩ := hret
  obtain rfl : pid = qid := by
    by_contra hne
    rw [hprocs, Function.update_of_ne hne, hp] at hq
    cases hq
  rw [hprocs, Function.update_self] at hq
  obtain ⟨rfl, hlock⟩ := Feeder.step_of_lock hp' hp hq
  obtain ⟨r, hr, hu, hfree⟩ := (lock_eq_some hlock).1
  obtain ⟨hwanted, hsame⟩ := remembers_of_reachable hs pid initialized row hp
  have hchanged : s.2.changed pid = false := by
    simp only [Unchanged, hp] at ha
    exact ha ⟨r, hr, hu, hfree⟩
  obtain rfl := eq_of_unlockedRow (hsame hchanged) hr hu hfree
  refine ⟨r, hr, rfl, fun _ hle => wanted_later hwanted hle, rfl, rfl, rfl, ?_⟩
  rw [(updateFeeds_eq_some hlock).2.2, List.mem_map]
  exact ⟨r, hr, if_pos ⟨hfree, rfl⟩⟩

end Search

/-! ## A feed that is initialised twice -/

/-- Two processes find the feed; the first one has it initialised and unlocked
    before the second one locks it. -/
def initialisedTwice : List (ℕ × FeederAction) :=
  [(1, .start), (1, .select false 0 0)] ++ firstCall 0 ++
    [(0, .call (some (ascii "feed", 360)) 0), (0, .init false 0), (0, .unlock false)]

/-- The second process locks the feed then. -/
theorem exists_initialisedTwice : ∃ s t, initialisedTwice.foldlM
      (fun s a => if System.Always s a then
        System.recordedStep SearchRecord.next (feederStep sampleFeeding) s a else none)
      (idleFeeders, SearchRecord.empty) = some s ∧
    System.recordedStep SearchRecord.next (feederStep sampleFeeding) s (1, .lock false) = some t ∧
    ReturnsFeed s t 1 false sampleFeedRow ∧ ∀ r ∈ s.1.feeds.rows, r.feedid = some (ascii "feed") := by
  refine ⟨_, _, rfl, rfl, ⟨rfl, rfl⟩, ?_⟩
  decide

/-- The feed that the second process finds, to refresh it. -/
def refreshedFeedRow : FeedRow :=
  { sampleFeedRow with feedid := some (ascii "feed"), expires := some 90 }

/-- Two processes find a feed, and the second one cannot lock it; it finds it once more
    when the first one has it initialised, and locks it. -/
theorem exists_lockedInTurn : ∃ s t, (lockContended ++ lockHandedOver.take 5).foldlM
      (fun s a => if Unchanged s a then
        System.recordedStep SearchRecord.next (feederStep sampleFeeding) s a else none)
      (idleFeeders, SearchRecord.empty) = some s ∧
    System.recordedStep SearchRecord.next (feederStep sampleFeeding) s (1, .lock false) = some t ∧
    Unchanged s (1, .lock false) ∧ ReturnsFeed s t 1 true refreshedFeedRow :=
  ⟨_, _, rfl, rfl, fun _ => rfl, rfl, rfl⟩

theorem lockedAsFound_of_reachable_sample : ∃ s t,
    (searchSystem sampleFeeding).Reachable Unchanged s ∧
      (searchSystem sampleFeeding).step s (1, .lock false) t ∧
      ReturnsFeed s t 1 true refreshedFeedRow ∧ LockedAsFound s t 1 true refreshedFeedRow := by
  obtain ⟨s, t, hs, ht, hsame, hret⟩ := exists_lockedInTurn
  have hreach : (searchSystem sampleFeeding).Reachable Unchanged s :=
    ⟨_, ⟨fun _ => rfl, rfl⟩, .of_foldlM (fun _ _ _ h => System.recordedStep_eq_some.1 h) hs⟩
  have hst : (searchSystem sampleFeeding).step s (1, .lock false) t :=
    System.recordedStep_eq_some.1 ht
  exact ⟨s, t, hreach, hst, hret, lockedAsFound_of_reachable hreach hsame hst hret⟩

/-- The second process returns a feed without an identifier, and the one it has
    locked has one. -/
theorem not_lockedAsFound_sample : ∃ s t a,
    (searchSystem sampleFeeding).Reachable System.Always s ∧
      (searchSystem sampleFeeding).step s a t ∧ ReturnsFeed s t 1 false sampleFeedRow ∧
      ¬LockedAsFound s t 1 false sampleFeedRow := by
  obtain ⟨s, t, hs, ht, hret, hfeeds⟩ := exists_initialisedTwice
  have hreach : (searchSystem sampleFeeding).Reachable System.Always s :=
    ⟨_, ⟨fun _ => rfl, rfl⟩, .of_foldlM (fun _ _ _ h => System.recordedStep_eq_some.1 h) hs⟩
  refine ⟨s, t, _, hreach, System.recordedStep_eq_some.1 ht, hret, ?_⟩
  rintro ⟨r, hr, -, -, -, -, hid, -⟩
  cases (hfeeds r hr).symm.trans hid

end JobProvenance
