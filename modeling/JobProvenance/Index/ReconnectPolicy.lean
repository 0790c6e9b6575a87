import JobProvenance.Index.FeedFlags

/-!
# When feeds are asked for again

After a round of attempts for a feed has failed, the feeder sets the flag `ERROR`
of the feed, and a time before which the search does not find it. A feed that has
an identifier, and the flag already, loses its identifier instead.

One feeder is at work, whose clock does not go back and whose statements do not
fail, and the calls of `UpdateJobs` come whole between its statements
(`Uncontended`). The record beside the processes has the time and the rounds.

* `FeederEffect.frame`: a feeder changes only the feed it is at;
* `WaitsUntil`: no search finds a feed before a time;
* `policyKept_of_reachable`: what holds in every state reached, and
  `policy_of_reachable`: how long the feeder waits after a failure, when an
  identifier is dropped, and that success clears the flag.
-/

namespace JobProvenance

/-- A round of attempts for a feed: whether the feed had an identifier, and the flag
    `ERROR`, when the search found it, when the round ended, and how. -/
structure Round where
  uniqueid : ℕ
  initialized : Bool
  error : Bool
  ended : ℤ
  ok : Bool

/-- What is recorded of the feeder: the last time it has read, and its rounds, the
    last one first. -/
structure PolicyRecord where
  clock : ℤ
  rounds : List Round

/-- The time that is read in a step. -/
def FeederAction.time : FeederAction → Option ℤ
  | .select _ now _ | .call _ now | .init _ now | .giveUp _ now => some now
  | _ => none

/-- The round that ends in a step. -/
def FeederPhase.ends (clock : ℤ) : FeederPhase → Option Round
  | .unlock initialized row none => some
    ⟨row.uniqueid, initialized, row.state &&& GLITE_JP_IS_STATE_ERROR ≠ 0, clock, true⟩
  | .giveUp initialized row => some
    ⟨row.uniqueid, initialized, row.state &&& GLITE_JP_IS_STATE_ERROR ≠ 0, clock, false⟩
  | _ => none

/-- The record after a step. -/
def PolicyRecord.next (s : IndexState) (a : IndexAction) (_ : IndexState) (g : PolicyRecord) :
    PolicyRecord :=
  match a with
  | .feeder pid b =>
    let clock := b.time.getD g.clock
    ⟨clock, ((s.feeders pid).phase.ends clock).toList ++ g.rounds⟩
  | .slave _ _ => g

/-- The last round for a feed. -/
def PolicyRecord.last (g : PolicyRecord) (uniqueid : ℕ) : Option Round :=
  g.rounds.find? fun r => r.uniqueid = uniqueid

/-- The processes, and the record of the feeder. -/
abbrev PolicyState := IndexState × PolicyRecord

/-- The statement of a step succeeds; that of `init` does unless another feed has the
    identifier. -/
def Succeeds (feeds : FeedsTable) : FeederPhase → FeederAction → Prop
  | _, .select fails _ _ | _, .lock fails | _, .unlock fails | _, .giveUp fails _ => fails = false
  | .init _ row feedId expires status, .init fails tnow => fails = false ∧
    (feeds.modify (.init feedId (halfway tnow expires) status row.uniqueid)).isSome
  | _, _ => True

/-- One feeder is at work, whose clock does not go back and whose statements succeed;
    no call of `UpdateJobs` is under way then, or when another one goes on. -/
def Uncontended (s : PolicyState) (a : IndexAction) : Prop :=
  match a with
  | .feeder pid b => pid = 0 ∧ (∀ sid, s.1.slaves sid = .idle) ∧ (∀ now ∈ b.time, s.2.clock ≤ now) ∧
    Succeeds s.1.db.feeds (s.1.feeders pid).phase b
  | .slave sid _ => ∀ sid', sid' ≠ sid → s.1.slaves sid' = .idle

variable (conf : FeedingConf) (ctx : IndexContext)

/-- The processes and the record, from a time on. -/
def policySystem (start : ℤ) : System PolicyState IndexAction :=
  (indexSystem conf ctx).recorded ⟨start, []⟩ PolicyRecord.next

/-- How long a feed is left alone after a round. -/
def Round.wait (r : Round) : Option ℤ :=
  if r.ok then none
  else if r.initialized then if r.error then none else some 600
  else some 1200

/-- A feed whose primary storage the feeder is about to call was left alone after each
    of the rounds before. -/
def WaitsToReconnect (s : PolicyState) : Prop :=
  ∀ initialized row i call, (s.1.feeders 0).phase = .call initialized row i call →
    ∀ r ∈ s.2.rounds, r.uniqueid = row.uniqueid → ∀ wait ∈ r.wait, r.ended + wait ≤ s.2.clock

/-- When a feed loses its identifier, a round ends that has failed, at whose start the
    flag `ERROR` was set; the round before, if there is one, has failed as well. -/
def DropsAfterErrors (s t : PolicyState) : Prop :=
  ∀ row ∈ s.1.db.feeds.rows, ∀ row' ∈ t.1.db.feeds.rows, row'.uniqueid = row.uniqueid →
    row.feedid ≠ none → row'.feedid = none →
      (∃ r, t.2.rounds = r :: s.2.rounds ∧ r.uniqueid = row.uniqueid ∧ r.initialized = true ∧
        r.error = true ∧ r.ok = false) ∧
      ∀ r ∈ s.2.last row.uniqueid, r.ok = false

/-- After a round that has succeeded the flag `ERROR` is clear. -/
def ClearAfterSuccess (s : PolicyState) : Prop := ∀ u, ∀ r ∈ s.2.last u, r.ok = true →
  hasFlag GLITE_JP_IS_STATE_ERROR s.1.db.feeds u = false

/-! ## What a feeder leaves alone -/

/-- The rows of a feed, of which there is one at most. -/
def rowsOfFeed (feeds : FeedsTable) (uniqueid : ℕ) : List FeedRow :=
  feeds.rows.filter fun r => r.uniqueid = uniqueid

section Frame

variable {conf} {feeds feeds' : FeedsTable} {phase phase' : FeederPhase} {a : FeederAction}
  {u v : ℕ} {flag : ℕ} {f : FeedRow → FeedRow} {row : FeedRow}

theorem mem_rowsOfFeed : row ∈ rowsOfFeed feeds u ↔ row ∈ feeds.rows ∧ row.uniqueid = u := by
  simp [rowsOfFeed]

theorem hasFlag_rowsOfFeed : hasFlag flag feeds u =
    (rowsOfFeed feeds u).any fun r => r.state &&& flag ≠ 0 := by
  rw [hasFlag, rowsOfFeed, List.any_filter]
  congr 1
  funext r
  rw [Bool.decide_and]

theorem rowsOfFeed_map (hrows : feeds'.rows = feeds.rows.map f)
    (hu : ∀ r, (f r).uniqueid = r.uniqueid) (hf : ∀ r, r.uniqueid = u → f r = r) :
    rowsOfFeed feeds' u = rowsOfFeed feeds u := by
  rw [rowsOfFeed, hrows, List.filter_map, rowsOfFeed]
  have hcomp : (fun r : FeedRow => decide (r.uniqueid = u)) ∘ f = fun r => decide (r.uniqueid = u) := by
    funext r
    rw [Function.comp_apply, hu]
  rw [hcomp]
  refine (List.map_congr_left fun r hr => ?_).trans (List.map_id _)
  exact hf r (by simpa using (List.mem_filter.1 hr).2)

theorem rowsOfFeed_at {fails : Bool} (hne : v ≠ u) (hu : ∀ r, (f r).uniqueid = r.uniqueid) :
    rowsOfFeed (afterUpdate fails (FeedRow.at v f) feeds) u = rowsOfFeed feeds u := by
  rcases @afterUpdate_rows (FeedRow.at v f) feeds fails with hrows | heq
  · refine rowsOfFeed_map hrows (fun r => ?_) fun r hr => ?_
    · rw [FeedRow.at]
      split_ifs
      · exact hu r
      · rfl
    · rw [FeedRow.at, if_neg fun h => hne (h.symm.trans hr)]
  · rw [heq]

theorem rowsOfFeed_lock (hne : v ≠ u) (hrows : feeds'.rows = feeds.rows.map (.lock v)) :
    rowsOfFeed feeds' u = rowsOfFeed feeds u := by
  refine rowsOfFeed_map hrows (fun r => r.uniqueid_lock) fun r hr => ?_
  rw [FeedRow.lock, if_neg fun h => hne (h.2.symm.trans hr)]

/-- A feeder changes only the feed it is at. -/
theorem FeederEffect.frame (h : FeederEffect conf feeds phase a feeds' phase')
    (hserve : ∀ fails state uniqueid, a ≠ .serve fails state uniqueid)
    (hu : ∀ row, phase.found = some row → row.uniqueid ≠ u) :
    rowsOfFeed feeds' u = rowsOfFeed feeds u := by
  cases h with
  | locked h => exact rowsOfFeed_lock (hu _ rfl) (updateFeeds_eq_some h).2.2
  | notLocked h =>
    rcases h with rfl | hrows
    · rfl
    · exact rowsOfFeed_lock (hu _ rfl) hrows
  | init => exact rowsOfFeed_at (hu _ rfl) fun _ => rfl
  | unlockFailed => exact rowsOfFeed_at (hu _ rfl) fun _ => rfl
  | unlockDone => exact rowsOfFeed_at (hu _ rfl) fun _ => rfl
  | giveUp =>
    unfold giveUpRow
    split_ifs
    · exact rowsOfFeed_at (hu _ rfl) fun _ => rfl
    · exact rowsOfFeed_at (hu _ rfl) fun _ => rfl
  | serve => exact absurd rfl (hserve _ _ _)
  | _ => rfl

/-- The states of the feeds change only when an answer is stored, or the feeder gives
    up. -/
theorem FeederEffect.hasFlag_eq (h : FeederEffect conf feeds phase a feeds' phase')
    (hserve : ∀ fails state uniqueid, a ≠ .serve fails state uniqueid)
    (hinit : ∀ initialized row feedId expires status,
      phase ≠ .init initialized row feedId expires status)
    (hgive : ∀ initialized row, phase ≠ .giveUp initialized row) :
    hasFlag flag feeds' u = hasFlag flag feeds u := by
  have hlock : ∀ {v : ℕ} {feeds' : FeedsTable}, feeds'.rows = feeds.rows.map (.lock v) →
      hasFlag flag feeds' u = hasFlag flag feeds u := fun hrows =>
    hasFlag_map_eq hrows (fun r => r.uniqueid_lock) fun r _ _ => by rw [FeedRow.state_lock]
  have hunlock : ∀ {fails : Bool} {v : ℕ},
      hasFlag flag (afterUpdate fails (.unlock v) feeds) u = hasFlag flag feeds u := by
    intro fails v
    rcases @afterUpdate_rows (FeedRow.unlock v) feeds fails with hrows | heq
    · exact hasFlag_map_eq hrows (fun r => r.uniqueid_unlock) fun r _ _ => by
        rw [FeedRow.state_unlock]
    · rw [heq]
  cases h with
  | locked h => exact hlock (updateFeeds_eq_some h).2.2
  | notLocked h =>
    rcases h with rfl | hrows
    · rfl
    · exact hlock hrows
  | init => exact absurd rfl (hinit _ _ _ _ _)
  | unlockFailed => exact hunlock
  | unlockDone => exact hunlock
  | giveUp => exact absurd rfl (hgive _ _)
  | serve => exact absurd rfl (hserve _ _ _)
  | _ => rfl

/-- A feed a feeder is at after a step it was at before, or it has found it. -/
theorem FeederEffect.found_cases (h : FeederEffect conf feeds phase a feeds' phase')
    (hrow : phase'.found = some row) : phase.found = some row ∨
      ∃ initialized now k, a = .select false now k ∧ row ∈ feeds.rows ∧
        row.wanted initialized now = true := by
  cases h with
  | found hr hw => exact .inr ⟨_, _, _, rfl, Option.some.inj hrow ▸ hr, Option.some.inj hrow ▸ hw⟩
  | nothing | unlockDone | giveUp =>
    rw [FeederPhase.found_afterFeed] at hrow
    cases hrow
  | noCall | unlockFailed =>
    rw [FeederPhase.found_attempt] at hrow
    exact .inl hrow
  | start | searchFails | notLocked | serve => cases hrow
  | _ => exact .inl hrow

end Frame

/-! ## What a feeder knows of the flag -/

/-- What a feeder knows of the flag `ERROR` of the feed it is at: it is as the search
    has found it, the state that is about to be stored does not have it, and once that
    is stored it is clear. -/
def FeederPhase.KnowsError (feeds : FeedsTable) : FeederPhase → Prop
  | .lock _ row | .prepare _ row _ | .call _ row _ _ | .unlock _ row (some _) | .giveUp _ row =>
    hasFlag GLITE_JP_IS_STATE_ERROR feeds row.uniqueid =
      decide (row.state &&& GLITE_JP_IS_STATE_ERROR ≠ 0)
  | .init _ _ _ _ status => status &&& GLITE_JP_IS_STATE_ERROR = 0
  | .unlock _ row none => hasFlag GLITE_JP_IS_STATE_ERROR feeds row.uniqueid = false
  | .idle | .search _ => True

section Knows

variable {conf} {feeds feeds' : FeedsTable} {phase phase' : FeederPhase} {a : FeederAction}
  {u : ℕ} {row : FeedRow} {initialized : Bool} {i : ℕ}

theorem error_clearError {state : ℕ} : clearError state &&& GLITE_JP_IS_STATE_ERROR = 0 := by
  rw [clearError, Nat.and_xor_distrib_right, Nat.and_assoc, Nat.and_self, Nat.xor_self]

/-- The state that is stored after a call does not have the flag. -/
theorem error_stored {call : PsCall} {answered : Bytes} :
    (call.stored answered).2 &&& GLITE_JP_IS_STATE_ERROR = 0 := by
  cases call with
  | feedIndex dest req =>
    change ((if req.history then GLITE_JP_IS_STATE_HIST else 0) |||
      (if req.continuous then GLITE_JP_IS_STATE_CONT else 0)) &&& GLITE_JP_IS_STATE_ERROR = 0
    split_ifs <;> rfl
  | feedIndexRefresh dest feedId status => exact error_clearError

theorem knowsError_afterFeed : (FeederPhase.afterFeed initialized).KnowsError feeds := by
  cases initialized <;> trivial

theorem knowsError_attempt (h : hasFlag GLITE_JP_IS_STATE_ERROR feeds row.uniqueid =
      decide (row.state &&& GLITE_JP_IS_STATE_ERROR ≠ 0)) :
    (FeederPhase.attempt initialized row i).KnowsError feeds := by
  rw [FeederPhase.attempt]
  split_ifs <;> exact h

/-- Once the answer is stored, the flag is clear. -/
theorem hasFlag_initFeed {feedId : Bytes} {expires tnow : ℤ} {status : ℕ}
    (hstatus : status &&& GLITE_JP_IS_STATE_ERROR = 0)
    (h : (feeds.modify (.init feedId (halfway tnow expires) status row.uniqueid)).isSome) :
    hasFlag GLITE_JP_IS_STATE_ERROR
      (initFeed false row.uniqueid feedId expires tnow status feeds) row.uniqueid = false := by
  obtain ⟨feeds', hmodify⟩ := Option.isSome_iff_exists.1 h
  have hinit : initFeed false row.uniqueid feedId expires tnow status feeds = feeds' := by
    rw [initFeed, afterUpdate, updateFeeds, hmodify]
    rfl
  rw [hinit, Bool.eq_false_iff]
  intro hflag
  obtain ⟨r', hr', hu, hbit⟩ := hasFlag_iff.1 hflag
  rw [(Table.modify_eq_some.1 hmodify).2] at hr'
  obtain ⟨r, -, rfl⟩ := List.mem_map.1 hr'
  have hru : r.uniqueid = row.uniqueid := by
    rw [← hu, FeedRow.init, FeedRow.at]
    split_ifs <;> rfl
  rw [FeedRow.init, FeedRow.at, if_pos hru] at hbit
  exact hbit hstatus

/-- What the feeder knows of the flag it knows after a step. -/
theorem FeederEffect.knowsError (h : FeederEffect conf feeds phase a feeds' phase')
    (hserve : ∀ fails state uniqueid, a ≠ .serve fails state uniqueid)
    (hok : Succeeds feeds phase a) (hp : phase.KnowsError feeds) : phase'.KnowsError feeds' := by
  have hsame : (∀ initialized row feedId expires status,
      phase ≠ .init initialized row feedId expires status) →
      (∀ initialized row, phase ≠ .giveUp initialized row) → ∀ u,
      hasFlag GLITE_JP_IS_STATE_ERROR feeds' u = hasFlag GLITE_JP_IS_STATE_ERROR feeds u :=
    fun hinit hgive _ => h.hasFlag_eq hserve hinit hgive
  cases h with
  | found hr hw =>
    rw [FeederPhase.KnowsError, Bool.eq_iff_iff, hasFlag_of_mem hr, decide_eq_true_iff]
  | nothing | unlockDone | giveUp => exact knowsError_afterFeed
  | noCall => exact knowsError_attempt hp
  | unlockFailed =>
    exact knowsError_attempt ((hsame (by exact nofun) (by exact nofun) _).trans hp)
  | locked | fault => exact (hsame (by exact nofun) (by exact nofun) _).trans hp
  | calls => exact hp
  | answered => exact error_stored
  | init =>
    obtain ⟨rfl, hsome⟩ := hok
    exact hasFlag_initFeed hp hsome
  | _ => trivial

/-- A flag `ERROR` that is clear stays so, unless the feeder gives up. -/
theorem FeederEffect.staysClear (h : FeederEffect conf feeds phase a feeds' phase')
    (hserve : ∀ fails state uniqueid, a ≠ .serve fails state uniqueid)
    (hok : Succeeds feeds phase a) (hp : phase.KnowsError feeds)
    (hu : hasFlag GLITE_JP_IS_STATE_ERROR feeds u = false) :
    hasFlag GLITE_JP_IS_STATE_ERROR feeds' u = false ∨
      ∃ initialized row, phase = .giveUp initialized row ∧ row.uniqueid = u := by
  by_cases hfound : ∀ row, phase.found = some row → row.uniqueid ≠ u
  · rw [hasFlag_rowsOfFeed, h.frame hserve hfound, ← hasFlag_rowsOfFeed]
    exact .inl hu
  · push Not at hfound
    obtain ⟨row, hrow, rfl⟩ := hfound
    cases phase with
    | init initialized row' feedId expires status =>
      obtain rfl := Option.some.inj hrow
      cases h with
      | init =>
        obtain ⟨rfl, hsome⟩ := hok
        exact .inl (hasFlag_initFeed hp hsome)
    | giveUp initialized row' =>
      exact .inr ⟨initialized, row', rfl, congrArg FeedRow.uniqueid (Option.some.inj hrow)⟩
    | _ => exact .inl ((h.hasFlag_eq hserve (by exact nofun) (by exact nofun)).trans hu)

end Knows

/-! ## Waiting -/

/-- No search finds a feed before a time. -/
def FeedRow.WaitsUntil (time : ℤ) (row : FeedRow) : Prop :=
  ∀ initialized now, row.wanted initialized now = true → time ≤ now

section Waiting

variable {feeds : FeedsTable} {row row' : FeedRow} {initialized : Bool} {now time : ℤ}

/-- A feed that is to be reconnected waits. -/
theorem waitsUntil_reconnect :
    ∀ r ∈ rowsOfFeed (afterUpdate false
      (.reconnect time (setError row.state) row.uniqueid) feeds) row.uniqueid, r.WaitsUntil time := by
  intro r hr initialized now hw
  obtain ⟨hmem, hu⟩ := mem_rowsOfFeed.1 hr
  have hkey : ∀ a : FeedRow,
      (a.reconnect time (setError row.state) row.uniqueid).uniqueid = a.uniqueid ∧
      (a.reconnect time (setError row.state) row.uniqueid).feedid = a.feedid := by
    intro a
    rw [FeedRow.reconnect, FeedRow.at]
    split_ifs <;> exact ⟨rfl, rfl⟩
  rw [rows_of_keys hkey] at hmem
  obtain ⟨r₀, -, rfl⟩ := List.mem_map.1 hmem
  rw [(hkey r₀).1] at hu
  rw [FeedRow.reconnect, FeedRow.at, if_pos hu] at hw
  cases initialized with
  | true =>
    obtain ⟨-, -, e, he, hle⟩ := of_decide_eq_true hw
    obtain rfl := Option.some.inj he
    exact hle
  | false =>
    obtain ⟨-, -, hstate | ⟨e, he, hle⟩⟩ := of_decide_eq_true hw
    · have herror : GLITE_JP_IS_STATE_ERROR ≤ setError row.state := Nat.right_le_or
      exact absurd hstate herror.not_gt
    · obtain rfl := Option.some.inj he
      exact hle

/-- A feed waits that was given up. -/
theorem waitsUntil_giveUp :
    ∀ wait ∈ (Round.mk row.uniqueid initialized (row.state &&& GLITE_JP_IS_STATE_ERROR ≠ 0) now
        false).wait,
      ∀ r ∈ rowsOfFeed (afterUpdate false (giveUpRow initialized row now) feeds) row.uniqueid,
        r.WaitsUntil (now + wait) := by
  intro wait hwait
  cases initialized with
  | false =>
    obtain rfl : 1200 = wait := Option.some.inj hwait
    rw [giveUpRow, if_pos (.inl rfl)]
    exact waitsUntil_reconnect
  | true =>
    by_cases herror : row.state &&& GLITE_JP_IS_STATE_ERROR = 0
    · obtain rfl : 600 = wait := by simpa [Round.wait, herror] using hwait
      rw [giveUpRow, if_pos (.inr herror)]
      exact waitsUntil_reconnect
    · simp [Round.wait, herror] at hwait

/-- Marking a feed done that has an identifier does not make a search find it sooner. -/
theorem waitsUntil_setState {state uniqueid : ℕ} (hid : row.uniqueid = uniqueid → row.feedid ≠ none)
    (h : row.WaitsUntil time) : (row.setState state uniqueid).WaitsUntil time := by
  intro initialized now hw
  rw [FeedRow.setState] at hw
  split_ifs at hw with hu
  · cases initialized with
    | true => exact h true now hw
    | false =>
      obtain ⟨-, hnone, -⟩ := of_decide_eq_true hw
      exact absurd hnone (hid hu)
  · exact h initialized now hw

end Waiting

/-! ## Losing an identifier -/

section Drops

variable {conf} {feeds feeds' : FeedsTable} {phase phase' : FeederPhase} {a : FeederAction}
  {f : FeedRow → FeedRow} {r r' : FeedRow} {v : ℕ}

/-- What an update makes of the row of a feed. -/
theorem row_of_map (hrows : feeds'.rows = feeds.rows.map f)
    (hu : ∀ r, (f r).uniqueid = r.uniqueid) (hr : r ∈ feeds.rows) (hr' : r' ∈ feeds'.rows)
    (h : r'.uniqueid = r.uniqueid) : r' = f r := by
  rw [hrows] at hr'
  obtain ⟨r₀, hr₀, rfl⟩ := List.mem_map.1 hr'
  rw [hu] at h
  rw [Table.eq_of_clash hr₀ hr (.inl h)]

/-- What an update makes of the row of a feed, if it is made. -/
theorem row_of_update (f : FeedRow → FeedRow) {fails : Bool}
    (hu : ∀ r, (f r).uniqueid = r.uniqueid) (hr : r ∈ feeds.rows)
    (hr' : r' ∈ (afterUpdate fails f feeds).rows) (h : r'.uniqueid = r.uniqueid) :
    r' = r ∨ r' = f r := by
  rcases @afterUpdate_rows f feeds fails with hrows | heq
  · exact .inr (row_of_map hrows hu hr hr' h)
  · rw [heq] at hr'
    exact .inl (Table.eq_of_clash hr' hr (.inl h))

/-- An update that leaves the identifiers alone drops none. -/
theorem not_drops_of_update (f : FeedRow → FeedRow) {fails : Bool}
    (hu : ∀ r, (f r).uniqueid = r.uniqueid) (hf : (f r).feedid = none → r.feedid = none)
    (hr : r ∈ feeds.rows) (hr' : r' ∈ (afterUpdate fails f feeds).rows)
    (h : r'.uniqueid = r.uniqueid) (hid : r.feedid ≠ none) : r'.feedid ≠ none := by
  rcases row_of_update f hu hr hr' h with rfl | rfl
  · exact hid
  · exact fun hnone => hid (hf hnone)

theorem not_drops_of_lock (hrows : feeds'.rows = feeds.rows.map (.lock v)) (hr : r ∈ feeds.rows)
    (hr' : r' ∈ feeds'.rows) (h : r'.uniqueid = r.uniqueid) (hid : r.feedid ≠ none) :
    r'.feedid ≠ none := by
  rw [row_of_map hrows (fun r => r.uniqueid_lock) hr hr' h, FeedRow.feedid_lock]
  exact hid

theorem FeedRow.uniqueid_at (hu : ∀ r, (f r).uniqueid = r.uniqueid) (r : FeedRow) :
    (FeedRow.at v f r).uniqueid = r.uniqueid := by
  rw [FeedRow.at]
  split_ifs
  · exact hu r
  · rfl

theorem uniqueid_giveUpRow {initialized : Bool} {row : FeedRow} {now : ℤ} (r : FeedRow) :
    (giveUpRow initialized row now r).uniqueid = r.uniqueid := by
  unfold giveUpRow
  split_ifs
  · rw [FeedRow.reconnect, FeedRow.uniqueid_at]
    exact fun _ => rfl
  · rw [FeedRow.destroy, FeedRow.uniqueid_at]
    exact fun _ => rfl

/-- Giving up a feed drops the identifier of that feed alone, and only when it had the
    flag `ERROR`. -/
theorem giveUpRow_drops {initialized : Bool} {row : FeedRow} {now : ℤ} (hid : r.feedid ≠ none)
    (hnone : (giveUpRow initialized row now r).feedid = none) :
    initialized = true ∧ row.uniqueid = r.uniqueid ∧ row.state &&& GLITE_JP_IS_STATE_ERROR ≠ 0 := by
  unfold giveUpRow at hnone
  split_ifs at hnone with hkeep
  · rw [FeedRow.reconnect, FeedRow.at] at hnone
    split_ifs at hnone
    · exact absurd hnone hid
    · exact absurd hnone hid
  · rw [FeedRow.destroy, FeedRow.at] at hnone
    split_ifs at hnone with hu
    · rw [not_or, Bool.not_eq_false] at hkeep
      exact ⟨hkeep.1, hu.symm, hkeep.2⟩
    · exact absurd hnone hid

/-- A feeder drops an identifier when it gives up a feed that had the flag `ERROR`. -/
theorem FeederEffect.drops (h : FeederEffect conf feeds phase a feeds' phase')
    (hserve : ∀ fails state uniqueid, a ≠ .serve fails state uniqueid) (hr : r ∈ feeds.rows)
    (hr' : r' ∈ feeds'.rows) (hu : r'.uniqueid = r.uniqueid) (hid : r.feedid ≠ none)
    (hnone : r'.feedid = none) :
    ∃ row, phase = .giveUp true row ∧ row.uniqueid = r.uniqueid ∧
      row.state &&& GLITE_JP_IS_STATE_ERROR ≠ 0 := by
  have hsame : r' ∈ feeds.rows → False := fun hmem =>
    hid (Table.eq_of_clash hmem hr (.inl hu) ▸ hnone)
  cases h with
  | locked h => exact absurd hnone (not_drops_of_lock (updateFeeds_eq_some h).2.2 hr hr' hu hid)
  | notLocked h =>
    rcases h with rfl | hrows
    · exact (hsame hr').elim
    · exact absurd hnone (not_drops_of_lock hrows hr hr' hu hid)
  | @init initialized row feedId expires status fails tnow =>
    refine absurd hnone (not_drops_of_update
      (.init feedId (halfway tnow expires) status row.uniqueid) (fun r => ?_) (fun h => ?_)
      hr hr' hu hid)
    · rw [FeedRow.init, FeedRow.uniqueid_at]
      exact fun _ => rfl
    · rw [FeedRow.init, FeedRow.at] at h
      split_ifs at h
      exact h
  | @unlockFailed initialized row | @unlockDone initialized row =>
    refine absurd hnone (not_drops_of_update (.unlock row.uniqueid) (fun r => r.uniqueid_unlock)
      (fun h => ?_) hr hr' hu hid)
    rwa [FeedRow.feedid_unlock] at h
  | @giveUp initialized row fails now =>
    rcases row_of_update (giveUpRow initialized row now) uniqueid_giveUpRow hr hr' hu with heq | heq
    · exact absurd (heq ▸ hnone) hid
    · obtain ⟨rfl, hrow, herror⟩ := giveUpRow_drops hid (heq ▸ hnone)
      exact ⟨row, rfl, hrow, herror⟩
  | serve => exact absurd rfl (hserve _ _ _)
  | _ => exact (hsame hr').elim

end Drops

/-! ## Runs -/

/-- What holds in every state reached when nothing disturbs the feeder. -/
structure PolicyKept (s : PolicyState) : Prop where
  waits : ∀ r ∈ s.2.rounds, ∀ wait ∈ r.wait, r.ended + wait ≤ s.2.clock ∨
    (∀ row ∈ rowsOfFeed s.1.db.feeds r.uniqueid, row.WaitsUntil (r.ended + wait)) ∧
      ∀ row, (s.1.feeders 0).phase.found = some row → row.uniqueid ≠ r.uniqueid
  knows : (s.1.feeders 0).phase.KnowsError s.1.db.feeds
  clear : ClearAfterSuccess s
  marks : ∀ sid feed msg, s.1.slaves sid = .mark feed msg →
    feed ∈ s.1.db.feeds.rows ∧ feed.feedid ≠ none

section Runs

variable {conf} {ctx} {s t : PolicyState} {start : ℤ}

/-- A round that has ended is the one of the step, or it had ended before. -/
theorem PolicyRecord.last_next {b : FeederAction} {u : ℕ} {r : Round}
    (hr : r ∈ (PolicyRecord.next s.1 (.feeder 0 b) t.1 s.2).last u) :
    ((s.1.feeders 0).phase.ends (b.time.getD s.2.clock) = some r ∧ r.uniqueid = u) ∨
      r ∈ s.2.last u ∧
        ∀ r' ∈ (s.1.feeders 0).phase.ends (b.time.getD s.2.clock), r'.uniqueid ≠ u := by
  change (((s.1.feeders 0).phase.ends _).toList ++ s.2.rounds).find? _ = some r at hr
  cases hends : (s.1.feeders 0).phase.ends (b.time.getD s.2.clock) with
  | none =>
    rw [hends] at hr
    exact .inr ⟨hr, nofun⟩
  | some r' =>
    rw [hends] at hr
    by_cases hu : r'.uniqueid = u
    · rw [Option.toList_some, List.singleton_append, List.find?_cons_of_pos (by simpa using hu)] at hr
      exact .inl ⟨hr, Option.some.inj hr ▸ hu⟩
    · rw [Option.toList_some, List.singleton_append, List.find?_cons_of_neg (by simpa using hu)] at hr
      exact .inr ⟨hr, fun r hr' => Option.some.inj hr' ▸ hu⟩

/-- A feed that has to wait does so after a step of the feeder. -/
theorem PolicyKept.waits_feeder {b : FeederAction} {feeds' : FeedsTable} {phase' : FeederPhase}
    (hs : PolicyKept s) (heff : FeederEffect conf s.1.db.feeds (s.1.feeders 0).phase b feeds' phase')
    (hserve : ∀ fails state uniqueid, b ≠ .serve fails state uniqueid)
    (hok : Succeeds s.1.db.feeds (s.1.feeders 0).phase b)
    (htime : ∀ now ∈ b.time, s.2.clock ≤ now) {r : Round} {wait : ℤ}
    (hr : r ∈ ((s.1.feeders 0).phase.ends (b.time.getD s.2.clock)).toList ++ s.2.rounds)
    (hwait : wait ∈ r.wait) : r.ended + wait ≤ b.time.getD s.2.clock ∨
      (∀ row ∈ rowsOfFeed feeds' r.uniqueid, row.WaitsUntil (r.ended + wait)) ∧
        ∀ row, phase'.found = some row → row.uniqueid ≠ r.uniqueid := by
  rcases List.mem_append.1 hr with hnew | hold
  · -- the round that ends has failed
    rw [Option.mem_toList] at hnew
    generalize hphase : (s.1.feeders 0).phase = phase at heff hok hnew
    cases heff with
    | @giveUp initialized row fails now =>
      obtain rfl : fails = false := hok
      obtain rfl := Option.some.inj hnew
      refine .inr ⟨waitsUntil_giveUp wait hwait, fun row hrow => ?_⟩
      rw [FeederPhase.found_afterFeed] at hrow
      cases hrow
    | unlockDone =>
      obtain rfl := Option.some.inj hnew
      cases hwait
    | _ => cases hnew
  · rcases hs.waits r hold wait hwait with hpast | ⟨hrows, hfound⟩
    · refine .inl (hpast.trans ?_)
      cases hb : b.time with
      | none => exact le_rfl
      | some now => exact htime now hb
    · by_cases hpast : r.ended + wait ≤ b.time.getD s.2.clock
      · exact .inl hpast
      · refine .inr ⟨?_, fun row hrow => ?_⟩
        · rwa [heff.frame hserve hfound]
        · rcases heff.found_cases hrow with hrow | ⟨initialized, now, k, rfl, hmem, hw⟩
          · exact hfound row hrow
          · exact fun hu => hpast (hrows row (mem_rowsOfFeed.2 ⟨hmem, hu⟩) initialized now hw)

/-- The flag `ERROR` of a feed whose last round succeeded is clear after a step of the
    feeder. -/
theorem PolicyKept.clear_feeder {b : FeederAction} {feeds' : FeedsTable} {phase' : FeederPhase}
    (hs : PolicyKept s) (heff : FeederEffect conf s.1.db.feeds (s.1.feeders 0).phase b feeds' phase')
    (hserve : ∀ fails state uniqueid, b ≠ .serve fails state uniqueid)
    (hok : Succeeds s.1.db.feeds (s.1.feeders 0).phase b) {u : ℕ} {r : Round}
    (hr : r ∈ (PolicyRecord.next s.1 (.feeder 0 b) t.1 s.2).last u) (hrok : r.ok = true) :
    hasFlag GLITE_JP_IS_STATE_ERROR feeds' u = false := by
  have hknows := hs.knows
  rcases PolicyRecord.last_next hr with ⟨hends, rfl⟩ | ⟨hold, hother⟩
  · have hsame := fun hinit hgive =>
      @FeederEffect.hasFlag_eq _ _ _ _ _ _ r.uniqueid GLITE_JP_IS_STATE_ERROR heff hserve hinit hgive
    generalize hphase : (s.1.feeders 0).phase = phase at heff hok hends hknows hsame
    cases heff with
    | unlockDone =>
      obtain rfl := Option.some.inj hends
      exact (hsame (by exact nofun) (by exact nofun)).trans hknows
    | giveUp =>
      obtain rfl := Option.some.inj hends
      cases hrok
    | _ => cases hends
  · rcases heff.staysClear hserve hok hknows (hs.clear u r hold hrok) with hclear | ⟨_, row, hphase, hu⟩
    · exact hclear
    · rw [hphase] at hother
      exact absurd hu (hother _ rfl)

theorem PolicyKept.step_feeder {pid : ℕ} {b : FeederAction} (hs : PolicyKept s)
    (ha : Uncontended s (.feeder pid b))
    (hst : (policySystem conf ctx start).step s (.feeder pid b) t) : PolicyKept t := by
  obtain ⟨feeds, p, hstep, hserve, ht⟩ := indexStep_feeder hst.1
  obtain ⟨rfl, hslaves, htime, hok⟩ := ha
  have hrec : t.2 = PolicyRecord.next s.1 (.feeder 0 b) t.1 s.2 := hst.2
  have heff := Feeder.step_effect hstep
  have hfeeds : t.1.db.feeds = feeds := by rw [ht]
  have hphase : (t.1.feeders 0).phase = p.phase := by
    have hproc : t.1.feeders = Function.update s.1.feeders 0 p := by rw [ht]
    rw [hproc, Function.update_self]
  refine ⟨fun r hr wait hwait => ?_, ?_, fun u r hr hrok => ?_, fun sid feed msg h => ?_⟩
  · rw [hphase, hfeeds]
    rw [hrec] at hr ⊢
    exact hs.waits_feeder heff hserve hok htime hr hwait
  · rw [hphase, hfeeds]
    exact heff.knowsError hserve hok hs.knows
  · rw [hfeeds]
    rw [hrec] at hr
    exact hs.clear_feeder heff hserve hok hr hrok
  · have hslave : s.1.slaves sid = .mark feed msg := by rwa [ht] at h
    rw [hslaves sid] at hslave
    cases hslave

theorem FeederPhase.KnowsError.congr {feeds feeds' : FeedsTable} {phase : FeederPhase}
    (h : phase.KnowsError feeds) (hflag : ∀ u, hasFlag GLITE_JP_IS_STATE_ERROR feeds' u =
      hasFlag GLITE_JP_IS_STATE_ERROR feeds u) : phase.KnowsError feeds' := by
  cases phase with
  | unlock initialized row failed => cases failed <;> exact (hflag _).trans h
  | idle | search | init => exact h
  | _ => exact (hflag _).trans h

theorem PolicyKept.step_slave {sid : ℕ} {b : SlaveAction} (hs : PolicyKept s)
    (ha : Uncontended s (.slave sid b))
    (hst : (policySystem conf ctx start).step s (.slave sid b) t) : PolicyKept t := by
  obtain ⟨db, phase, hstep, ht⟩ := indexStep_slave hst.1
  have hrec : t.2 = s.2 := hst.2
  have hfeeds : t.1.db.feeds = db.feeds := by rw [ht]
  have hfeeders : t.1.feeders = s.1.feeders := by rw [ht]
  have hflags : ∀ u, hasFlag GLITE_JP_IS_STATE_ERROR t.1.db.feeds u =
      hasFlag GLITE_JP_IS_STATE_ERROR s.1.db.feeds u := by
    rw [hfeeds]
    rcases slaveStep_feeds hstep with hsame | ⟨feed, msg, hphase, -, -, hrows⟩
    · exact fun u => by rw [hsame]
    · have hknows :=
        @hasFlag_of_mem GLITE_JP_IS_STATE_ERROR _ _ (hs.marks sid feed msg hphase).1
      exact fun u => (hasFlag_mark hrows).2 (by rw [Bool.eq_iff_iff, hknows, decide_eq_true_iff])
  refine ⟨fun r hr wait hwait => ?_, ?_, fun u r hr hrok => ?_, fun qid feed msg h => ?_⟩
  · rw [hrec] at hr ⊢
    refine (hs.waits r hr wait hwait).imp_right fun ⟨hold, hfound⟩ => ?_
    rw [hfeeders, hfeeds]
    refine ⟨fun row hrow => ?_, hfound⟩
    obtain ⟨hmem, hu⟩ := mem_rowsOfFeed.1 hrow
    rcases slaveStep_feeds hstep with hsame | ⟨feed, msg, hphase, -, -, hrows⟩
    · rw [hsame] at hrow
      exact hold row hrow
    · rw [hrows] at hmem
      obtain ⟨row₀, hmem₀, rfl⟩ := List.mem_map.1 hmem
      rw [FeedRow.uniqueid_setState] at hu
      obtain ⟨hfeed, hid⟩ := hs.marks sid feed msg hphase
      refine waitsUntil_setState (fun hf => ?_) (hold row₀ (mem_rowsOfFeed.2 ⟨hmem₀, hu⟩))
      rwa [Table.eq_of_clash hmem₀ hfeed (.inl hf)]
  · rw [hfeeders]
    exact hs.knows.congr hflags
  · rw [hrec] at hr
    exact (hflags u).trans (hs.clear u r hr hrok)
  · have hslaves : t.1.slaves = Function.update s.1.slaves sid phase := by rw [ht]
    rw [hslaves] at h
    by_cases hne : qid = sid
    · subst hne
      rw [Function.update_self] at h
      subst h
      obtain ⟨rfl, -, -, hfeed⟩ := slaveStep_to_mark hstep
      rw [hfeeds]
      refine ⟨List.mem_of_find?_eq_some hfeed, ?_⟩
      have hid := List.find?_some hfeed
      intro hnone
      rw [hnone] at hid
      simp at hid
    · rw [Function.update_of_ne hne, ha qid hne] at h
      cases h

theorem policyKept_of_reachable (h : (policySystem conf ctx start).Reachable Uncontended s) :
    PolicyKept s := by
  refine h.invariant (fun s ⟨⟨hfeeders, hslaves⟩, hrec⟩ => ?_) fun s a t hs ha hst => ?_
  · refine ⟨fun r hr => ?_, ?_, fun u r hr => ?_, fun sid feed msg h => ?_⟩
    · rw [hrec] at hr
      cases hr
    · rw [hfeeders]
      trivial
    · rw [hrec] at hr
      cases hr
    · rw [hslaves] at h
      cases h
  · cases a with
    | feeder pid b => exact hs.step_feeder ha hst
    | slave sid b => exact hs.step_slave ha hst

theorem PolicyKept.dropsAfterErrors {a : IndexAction} (hs : PolicyKept s) (ha : Uncontended s a)
    (hst : (policySystem conf ctx start).step s a t) : DropsAfterErrors s t := by
  intro row hrow row' hrow' hu hid hnone
  cases a with
  | slave sid b =>
    obtain ⟨db, phase, hstep, ht⟩ := indexStep_slave hst.1
    have hfeeds : t.1.db.feeds = db.feeds := by rw [ht]
    rw [hfeeds] at hrow'
    rcases slaveStep_feeds hstep with hsame | ⟨feed, msg, hphase, -, -, hrows⟩
    · rw [hsame] at hrow'
      exact absurd (Table.eq_of_clash hrow' hrow (.inl hu) ▸ hnone) hid
    · rw [row_of_map hrows (FeedRow.uniqueid_setState _ _) hrow hrow' hu,
        FeedRow.feedid_setState] at hnone
      exact absurd hnone hid
  | feeder pid b =>
    obtain ⟨feeds, p, hstep, hserve, ht⟩ := indexStep_feeder hst.1
    obtain ⟨rfl, -, -, -⟩ := ha
    have hrec : t.2 = PolicyRecord.next s.1 (.feeder 0 b) t.1 s.2 := hst.2
    have hfeeds : t.1.db.feeds = feeds := by rw [ht]
    rw [hfeeds] at hrow'
    obtain ⟨row₁, hphase, hu₁, herror⟩ :=
      (Feeder.step_effect hstep).drops hserve hrow hrow' hu hid hnone
    refine ⟨⟨⟨row₁.uniqueid, true, decide (row₁.state &&& GLITE_JP_IS_STATE_ERROR ≠ 0),
      b.time.getD s.2.clock, false⟩, ?_, hu₁, rfl, decide_eq_true herror, rfl⟩, fun r hr => ?_⟩
    · rw [hrec]
      change ((s.1.feeders 0).phase.ends (b.time.getD s.2.clock)).toList ++ s.2.rounds = _
      rw [hphase]
      rfl
    · -- a success would have left the flag clear
      rw [Bool.eq_false_iff]
      intro hrok
      have hclear := hs.clear row.uniqueid r hr hrok
      have hknows := hs.knows
      rw [hphase] at hknows
      change hasFlag _ _ row₁.uniqueid = _ at hknows
      rw [hu₁, hclear, decide_eq_true herror] at hknows
      cases hknows

/-- The feeder leaves a feed alone after a failure, drops an identifier only after a
    failure when the flag `ERROR` was set, and success clears the flag. -/
theorem policy_of_reachable (h : (policySystem conf ctx start).Reachable Uncontended s) :
    WaitsToReconnect s ∧
      (∀ a t, Uncontended s a → (policySystem conf ctx start).step s a t → DropsAfterErrors s t) ∧
      ClearAfterSuccess s := by
  have hs := policyKept_of_reachable h
  refine ⟨fun initialized row i call hphase r hr hu wait hwait => ?_,
    fun a t ha hst => hs.dropsAfterErrors ha hst, hs.clear⟩
  refine (hs.waits r hr wait hwait).resolve_right fun hw => hw.2 row ?_ hu.symm
  rw [hphase]
  rfl

end Runs

/-! ## A run -/

instance (feeds : FeedsTable) (phase : FeederPhase) (a : FeederAction) :
    Decidable (Succeeds feeds phase a) := by
  unfold Succeeds
  split <;> exact inferInstance

/-- A feeder at work when there are no messages. -/
def NoMessages (s : PolicyState) : IndexAction → Prop
  | .feeder pid b => pid = 0 ∧ (∀ now ∈ b.time, s.2.clock ≤ now) ∧
    Succeeds s.1.db.feeds (s.1.feeders pid).phase b
  | .slave _ _ => False

instance (s : PolicyState) (a : IndexAction) : Decidable (NoMessages s a) :=
  match a with
  | .feeder _ _ => inferInstanceAs (Decidable (_ ∧ _ ∧ _))
  | .slave _ _ => inferInstanceAs (Decidable False)

theorem uncontended_of_noMessages {conf : FeedingConf} {ctx : IndexContext} {start : ℤ}
    {s t : PolicyState} (h : (policySystem conf ctx start).Steps NoMessages s t)
    (hs : ∀ sid, s.1.slaves sid = .idle) :
    (policySystem conf ctx start).Steps Uncontended s t ∧ ∀ sid, t.1.slaves sid = .idle := by
  induction h with
  | refl => exact ⟨.refl _, hs⟩
  | @tail t u a _ ha hst ih =>
    obtain ⟨hsteps, hidle⟩ := ih
    cases a with
    | slave => exact ha.elim
    | feeder pid b =>
      refine ⟨hsteps.tail (a := .feeder pid b) ⟨ha.1, hidle, ha.2⟩ hst, ?_⟩
      obtain ⟨feeds, p, -, -, ht⟩ := indexStep_feeder hst.1
      rwa [ht]

/-- A round for a feed fails at time 0, and the feeder asks for the feed again at
    time 600. -/
def failThenCall : List IndexAction :=
  lockToRefresh ++
    (List.replicate 10 [.feeder 0 (.prepare (sampleOutcome true)), .feeder 0 (.call none 0),
      .feeder 0 (.unlock false)]).flatten ++
    [.feeder 0 (.giveUp false 0), .feeder 0 .start, .feeder 0 (.select false 600 0),
      .feeder 0 (.select false 600 0), .feeder 0 (.lock false),
      .feeder 0 (.prepare (sampleOutcome true))]

theorem exists_failThenCall : ∃ s, failThenCall.foldlM (fun s a => if NoMessages s a then
      System.recordedStep PolicyRecord.next (indexStep sampleFeeding (sampleServer true)) s a
      else none) (sampleRefreshing, ⟨0, []⟩) = some s ∧
    (∃ row i call, (s.1.feeders 0).phase = .call true row i call ∧ row.uniqueid = 1) ∧
    s.2 = ⟨600, [⟨1, true, false, 0, false⟩]⟩ :=
  ⟨_, rfl, ⟨_, _, _, rfl, rfl⟩, rfl⟩

theorem policy_of_reachable_sample : ∃ s,
    (policySystem sampleFeeding (sampleServer true) 0).Reachable Uncontended s ∧
      (∃ row i call, (s.1.feeders 0).phase = .call true row i call ∧ row.uniqueid = 1) ∧
      s.2 = ⟨600, [⟨1, true, false, 0, false⟩]⟩ ∧ WaitsToReconnect s ∧
      (∀ a t, Uncontended s a →
        (policySystem sampleFeeding (sampleServer true) 0).step s a t → DropsAfterErrors s t) ∧
      ClearAfterSuccess s := by
  obtain ⟨s, hs, hcall, hrec⟩ := exists_failThenCall
  have hsteps : (policySystem sampleFeeding (sampleServer true) 0).Steps NoMessages
      (sampleRefreshing, ⟨0, []⟩) s :=
    .of_foldlM (fun _ _ _ h => System.recordedStep_eq_some.1 h) hs
  have hreach : (policySystem sampleFeeding (sampleServer true) 0).Reachable Uncontended s :=
    ⟨_, ⟨⟨fun _ => rfl, fun _ => rfl⟩, rfl⟩, (uncontended_of_noMessages hsteps fun _ => rfl).1⟩
  exact ⟨s, hreach, hcall, hrec, policy_of_reachable hreach⟩

end JobProvenance
