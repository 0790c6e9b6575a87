import JobProvenance.Feed.Condition
import JobProvenance.Index.Update

/-!
# Asking for feeds

The index server looks in the table of its feeds for one that has no identifier
yet, or whose time is running out, locks it, and asks the primary storage for
it: `FeedIndex` in the first case, `FeedIndexRefresh` in the second. It tries up
to ten times. The calls unlock the feed when the primary storage has answered
them, with or without a fault, and only then.

* `updateFeeds`: the statements on the table, each given by what it does to a
  row;
* `myFeedIndex`, `myFeedRefresh`: an attempt, and `handleFeed`: all of them, with
  what is done when they have failed;
* `unlocked_iff_calls`: the feed is unlocked in the end exactly when one of the
  attempts gets as far as to call the primary storage.
-/

namespace JobProvenance

/-- A feed of the configuration. -/
structure IsFeed where
  query : List QueryRec
  history : Bool
  continuous : Bool
  uniqueid : ℕ

/-- What the requests for feeds take from the configuration, and the address of
    the server. -/
structure FeedingConf where
  attrs : List Bytes
  feeds : List IsFeed
  hname : Bytes

/-! ## Statements -/

abbrev FeedsTable := Table FeedRow FeedRow.Clash

/-- The feeds the search finds: those without an identifier, unless an error is
    to be waited for, or those to be refreshed. -/
def FeedRow.wanted (initialized : Bool) (now : ℤ) (r : FeedRow) : Bool :=
  if initialized then r.locked = 0 ∧ r.feedid ≠ none ∧ ∃ e ∈ r.expires, e ≤ now
  else r.locked = 0 ∧ r.feedid = none ∧
    (r.state < GLITE_JP_IS_STATE_ERROR ∨ ∃ e ∈ r.expires, e ≤ now)

/-- Changes the row of a feed. -/
def FeedRow.at (uniqueid : ℕ) (f : FeedRow → FeedRow) (r : FeedRow) : FeedRow :=
  if r.uniqueid = uniqueid then f r else r

def FeedRow.lock (uniqueid : ℕ) (r : FeedRow) : FeedRow :=
  if r.locked = 0 ∧ r.uniqueid = uniqueid then { r with locked := 1 } else r

def FeedRow.unlock (uniqueid : ℕ) : FeedRow → FeedRow :=
  FeedRow.at uniqueid fun r => { r with locked := 0 }

def FeedRow.init (feedId : Bytes) (expires : ℤ) (status uniqueid : ℕ) : FeedRow → FeedRow :=
  FeedRow.at uniqueid fun r =>
    { r with feedid := some feedId, expires := some expires, state := status }

def FeedRow.reconnect (reconnTime : ℤ) (state uniqueid : ℕ) : FeedRow → FeedRow :=
  FeedRow.at uniqueid fun r => { r with state, expires := some reconnTime }

def FeedRow.destroy (reconnTime : ℤ) (uniqueid : ℕ) : FeedRow → FeedRow :=
  FeedRow.at uniqueid fun r => { r with feedid := none, state := 0, expires := some reconnTime }

/-- An update of the feeds: the number of rows it changes; `none` when the
    database fails, or an identifier is no longer unique. -/
def updateFeeds (fails : Bool) (f : FeedRow → FeedRow) (feeds : FeedsTable) :
    Option (ℕ × FeedsTable) :=
  if fails then none
  else (feeds.modify f).map fun feeds' => (feeds.rows.countP fun r => r ≠ f r, feeds')

/-- The feeds after an update that nobody checks. -/
def afterUpdate (fails : Bool) (f : FeedRow → FeedRow) (feeds : FeedsTable) : FeedsTable :=
  ((updateFeeds fails f feeds).map Prod.snd).getD feeds

/-- Half of the time that is left. -/
def halfway (now expires : ℤ) : ℤ := now + (expires - now).tdiv 2

/-- Stores what the primary storage answered. -/
def initFeed (fails : Bool) (uniqueid : ℕ) (feedId : Bytes) (feedExpires tnow : ℤ) (status : ℕ) :
    FeedsTable → FeedsTable :=
  afterUpdate fails (.init feedId (halfway tnow feedExpires) status uniqueid)

/-- The states without and with the flag of an error. -/
def setError (status : ℕ) : ℕ := status ||| GLITE_JP_IS_STATE_ERROR
def clearError (status : ℕ) : ℕ := status ^^^ (status &&& GLITE_JP_IS_STATE_ERROR)

/-! ## An attempt -/

/-- The calls of a primary storage; the state of the feed stays here. -/
inductive PsCall
  | feedIndex (dest : Bytes) (req : FeedRequest)
  | feedIndexRefresh (dest feedId : Bytes) (status : ℕ)

/-- The identifier and the state stored after a call, the first of which may be
    the answer. -/
def PsCall.stored (answered : Bytes) : PsCall → Bytes × ℕ
  | .feedIndex _ req =>
    (answered, (if req.history then GLITE_JP_IS_STATE_HIST else 0) |||
      (if req.continuous then GLITE_JP_IS_STATE_CONT else 0))
  | .feedIndexRefresh _ feedId status => (feedId, clearError status)

/-- What the server finds in an attempt: whether it can renew its credentials,
    whether there is memory for the conditions, what the primary storage
    answers (`none` is a fault), whether the answer can be stored, and the time
    before that and then. -/
structure AttemptOutcome where
  credentials : Bool
  memory : Bool
  answer : Option (Bytes × ℤ)
  initFails : Bool
  now : ℤ
  tnow : ℤ

/-- The conditions of a request, up to the first that cannot be converted. -/
def convertConds (memory : Bool) : List QueryRec → Exec (Option (List PrimaryQuery))
  | [] => return some []
  | qr :: query => do
    match ← if memory then queryCondToSoap qr else pure none with
    | none => return none
    | some c => return (← convertConds memory query).map (c :: ·)

variable (conf : FeedingConf)

/-- The feed of the configuration. -/
def findDestIndex (uniqueid : ℕ) : Option IsFeed := conf.feeds.find? fun f => f.uniqueid = uniqueid

/-- The call for a new feed; `none` when it is not made. -/
def feedIndexCall (o : AttemptOutcome) (uniqueid : ℕ) (dest : Bytes) : Exec (Option PsCall) :=
  if o.credentials then
    match findDestIndex conf uniqueid with
    | none => return none
    | some feed => do
      match ← convertConds o.memory feed.query with
      | none => return none
      | some conditions =>
        return some (.feedIndex dest ⟨some conf.hname, conf.attrs, conditions, feed.history,
          feed.continuous⟩)
  else return none

/-- The call to refresh a feed; `none` when it is not made. -/
def feedRefreshCall (o : AttemptOutcome) (dest : Bytes) (status : ℕ) (feedid : Option Bytes) :
    Exec (Option PsCall) :=
  if o.credentials then do return some (.feedIndexRefresh dest (← Exec.deref feedid) status)
  else return none

/-- Calls the primary storage, stores what it answers, and unlocks the feed:
    whether the call succeeded. -/
def makeCall (o : AttemptOutcome) (uniqueid : ℕ) (call : PsCall) (feeds : FeedsTable) :
    Bool × FeedsTable :=
  match o.answer with
  | none => (false, afterUpdate false (.unlock uniqueid) feeds)
  | some (answered, feedExpires) =>
    let (feedId, status) := call.stored answered
    let feeds := initFeed o.initFails uniqueid feedId (halfway o.now feedExpires) o.tnow status feeds
    (true, afterUpdate false (.unlock uniqueid) feeds)

/-- Asks for a feed. -/
def myFeedIndex (o : AttemptOutcome) (uniqueid : ℕ) (dest : Bytes) (feeds : FeedsTable) :
    Exec (Bool × FeedsTable) := do
  match ← feedIndexCall conf o uniqueid dest with
  | none => return (false, feeds)
  | some call => return makeCall o uniqueid call feeds

/-- Refreshes a feed. -/
def myFeedRefresh (o : AttemptOutcome) (uniqueid : ℕ) (dest : Bytes) (status : ℕ)
    (feedid : Option Bytes) (feeds : FeedsTable) : Exec (Bool × FeedsTable) := do
  match ← feedRefreshCall o dest status feedid with
  | none => return (false, feeds)
  | some call => return makeCall o uniqueid call feeds

/-! ## All attempts -/

/-- When to reconnect after an error, in seconds. -/
def RECONNECT_TIME : ℤ := 60 * 20

/-- What is done with a feed after the last attempt: it is left to be asked for
    again, and given up when it could not be refreshed for the second time. -/
def giveUpRow (initialized : Bool) (row : FeedRow) (now : ℤ) : FeedRow → FeedRow :=
  if initialized = false ∨ row.state &&& GLITE_JP_IS_STATE_ERROR = 0 then
    .reconnect (now + RECONNECT_TIME.tdiv (initialized.toNat + 1)) (setError row.state) row.uniqueid
  else .destroy (now - 1) row.uniqueid

/-- The call of an attempt for a feed, as the search found it. -/
def attemptCall (initialized : Bool) (row : FeedRow) (o : AttemptOutcome) : Exec (Option PsCall) :=
  if initialized then feedRefreshCall o row.source row.state row.feedid
  else feedIndexCall conf o row.uniqueid row.source

/-- An attempt for a feed. -/
def feedAttempt (initialized : Bool) (row : FeedRow) (o : AttemptOutcome) (feeds : FeedsTable) :
    Exec (Bool × FeedsTable) :=
  if initialized then myFeedRefresh o row.uniqueid row.source row.state row.feedid feeds
  else myFeedIndex conf o row.uniqueid row.source feeds

/-- Attempts, up to the first that succeeds: whether there is one. -/
def feedAttempts (initialized : Bool) (row : FeedRow) :
    List AttemptOutcome → FeedsTable → Exec (Bool × FeedsTable)
  | [], feeds => return (false, feeds)
  | o :: os, feeds => do
    let (ok, feeds) ← feedAttempt conf initialized row o feeds
    if ok then return (true, feeds) else feedAttempts initialized row os feeds

/-- What is done for a feed the search has found and locked; `now` is the time
    after the attempts. -/
def handleFeed (initialized : Bool) (row : FeedRow) (os : Fin 10 → AttemptOutcome) (now : ℤ)
    (feeds : FeedsTable) : Exec FeedsTable := do
  let (ok, feeds) ← feedAttempts conf initialized row (List.ofFn os) feeds
  if ok then return feeds else return afterUpdate false (giveUpRow initialized row now) feeds

/-! ## Locks -/

/-- What the column `locked` of a feed says. -/
def LockedIs (uniqueid n : ℕ) (feeds : FeedsTable) : Prop :=
  (∃ r ∈ feeds.rows, r.uniqueid = uniqueid) ∧ ∀ r ∈ feeds.rows, r.uniqueid = uniqueid → r.locked = n

/-- An update that leaves the locks alone. -/
structure KeepsLocks (f : FeedRow → FeedRow) : Prop where
  uniqueid : ∀ r, (f r).uniqueid = r.uniqueid
  locked : ∀ r, (f r).locked = r.locked

/-- The attempt gets as far as to call the primary storage. -/
def Calls (initialized : Bool) (row : FeedRow) (o : AttemptOutcome) : Prop :=
  ∃ call, attemptCall conf initialized row o = .ok (some call)

section Updates

variable {uniqueid u n : ℕ} {f : FeedRow → FeedRow} {feeds feeds' : FeedsTable} {fails : Bool}

@[simp]
theorem FeedRow.uniqueid_lock (r : FeedRow) : (r.lock uniqueid).uniqueid = r.uniqueid := by
  unfold lock
  split_ifs <;> rfl

@[simp]
theorem FeedRow.feedid_lock (r : FeedRow) : (r.lock uniqueid).feedid = r.feedid := by
  unfold lock
  split_ifs <;> rfl

@[simp]
theorem FeedRow.uniqueid_unlock (r : FeedRow) : (r.unlock uniqueid).uniqueid = r.uniqueid := by
  unfold unlock FeedRow.at
  split_ifs <;> rfl

@[simp]
theorem FeedRow.feedid_unlock (r : FeedRow) : (r.unlock uniqueid).feedid = r.feedid := by
  unfold unlock FeedRow.at
  split_ifs <;> rfl

theorem FeedRow.locked_unlock (r : FeedRow) :
    (r.unlock uniqueid).locked = if r.uniqueid = uniqueid then 0 else r.locked := by
  unfold unlock FeedRow.at
  split_ifs <;> rfl

theorem keepsLocks_at (h : KeepsLocks f) : KeepsLocks (FeedRow.at uniqueid f) := by
  refine ⟨fun r => ?_, fun r => ?_⟩
  · rw [FeedRow.at]
    split_ifs
    · exact h.uniqueid r
    · rfl
  · rw [FeedRow.at]
    split_ifs
    · exact h.locked r
    · rfl

theorem keepsLocks_init {feedId : Bytes} {expires : ℤ} {status : ℕ} :
    KeepsLocks (FeedRow.init feedId expires status uniqueid) :=
  keepsLocks_at ⟨fun _ => rfl, fun _ => rfl⟩

theorem keepsLocks_giveUpRow {initialized : Bool} {row : FeedRow} {now : ℤ} :
    KeepsLocks (giveUpRow initialized row now) := by
  unfold giveUpRow
  split_ifs
  · exact keepsLocks_at ⟨fun _ => rfl, fun _ => rfl⟩
  · exact keepsLocks_at ⟨fun _ => rfl, fun _ => rfl⟩

theorem keepsLocks_setState {state : ℕ} : KeepsLocks (FeedRow.setState state uniqueid) :=
  keepsLocks_at ⟨fun _ => rfl, fun _ => rfl⟩

theorem updateFeeds_eq_some (h : updateFeeds fails f feeds = some (n, feeds')) :
    fails = false ∧ n = feeds.rows.countP (fun r => r ≠ f r) ∧
      feeds'.rows = feeds.rows.map f := by
  unfold updateFeeds at h
  split_ifs at h with hf
  obtain ⟨t, ht, hn⟩ := Option.map_eq_some_iff.1 h
  obtain ⟨rfl, rfl⟩ := Prod.mk.inj hn
  exact ⟨by simpa using hf, rfl, (Table.modify_eq_some.1 ht).2⟩

/-- An update that nobody checks is made or not. -/
theorem afterUpdate_rows : (afterUpdate fails f feeds).rows = feeds.rows.map f ∨
    afterUpdate fails f feeds = feeds := by
  unfold afterUpdate
  cases h : updateFeeds fails f feeds with
  | none => exact .inr rfl
  | some p => exact .inl (updateFeeds_eq_some (n := p.1) h).2.2

/-- An update that leaves the keys alone is made. -/
theorem rows_of_keys (h : ∀ r, (f r).uniqueid = r.uniqueid ∧ (f r).feedid = r.feedid) :
    (afterUpdate false f feeds).rows = feeds.rows.map f := by
  have hkeys : ∀ a b : FeedRow, (f a).Clash (f b) → a.Clash b := by
    intro a b hab
    simpa only [FeedRow.Clash, (h _).1, (h _).2] using hab
  rw [afterUpdate, updateFeeds, Table.modify_of_keys hkeys]
  rfl

theorem rows_unlock : (afterUpdate false (.unlock uniqueid) feeds).rows =
    feeds.rows.map (FeedRow.unlock uniqueid) :=
  rows_of_keys fun r => ⟨r.uniqueid_unlock, r.feedid_unlock⟩

theorem LockedIs.unique {m : ℕ} (h : LockedIs u n feeds) (h' : LockedIs u m feeds) : n = m :=
  let ⟨r, hr, hu⟩ := h.1
  (h.2 r hr hu).symm.trans (h'.2 r hr hu)

theorem LockedIs.map (hf : KeepsLocks f) (hrows : feeds'.rows = feeds.rows.map f)
    (h : LockedIs u n feeds) : LockedIs u n feeds' := by
  obtain ⟨⟨r, hr, hu⟩, h⟩ := h
  unfold LockedIs
  rw [hrows, List.forall_mem_map]
  refine ⟨⟨f r, List.mem_map_of_mem hr, (hf.uniqueid r).trans hu⟩, fun r hr hu => ?_⟩
  rw [hf.locked]
  exact h r hr ((hf.uniqueid r).symm.trans hu)

theorem LockedIs.afterUpdate (hf : KeepsLocks f) (h : LockedIs u n feeds) :
    LockedIs u n (afterUpdate fails f feeds) := by
  rcases @afterUpdate_rows f feeds fails with hrows | heq
  · exact h.map hf hrows
  · rwa [heq]

theorem LockedIs.unlock (h : LockedIs u n feeds) :
    LockedIs u 0 (JobProvenance.afterUpdate false (.unlock u) feeds) := by
  obtain ⟨⟨r, hr, hu⟩, -⟩ := h
  unfold LockedIs
  rw [rows_unlock, List.forall_mem_map]
  refine ⟨⟨_, List.mem_map_of_mem hr, (r.uniqueid_unlock).trans hu⟩, fun r _ hu => ?_⟩
  rw [FeedRow.locked_unlock, if_pos (r.uniqueid_unlock.symm.trans hu)]

/-- Unlocking a feed leaves the others alone. -/
theorem LockedIs.unlock_of_ne {v : ℕ} (h : LockedIs u n feeds) (hne : u ≠ v) :
    LockedIs u n (JobProvenance.afterUpdate false (.unlock v) feeds) := by
  obtain ⟨⟨r, hr, hu⟩, h⟩ := h
  unfold LockedIs
  rw [rows_unlock, List.forall_mem_map]
  refine ⟨⟨_, List.mem_map_of_mem hr, (r.uniqueid_unlock).trans hu⟩, fun r hr hu => ?_⟩
  rw [FeedRow.uniqueid_unlock] at hu
  rw [FeedRow.locked_unlock, if_neg (hu ▸ hne)]
  exact h r hr hu

/-- A feed that is locked stays so when locks are asked for. -/
theorem LockedIs.lock {v m : ℕ} (h : LockedIs u 1 feeds)
    (hv : updateFeeds fails (.lock v) feeds = some (m, feeds')) : LockedIs u 1 feeds' := by
  obtain ⟨⟨r, hr, hu⟩, h⟩ := h
  unfold LockedIs
  rw [(updateFeeds_eq_some hv).2.2, List.forall_mem_map]
  refine ⟨⟨_, List.mem_map_of_mem hr, (r.uniqueid_lock).trans hu⟩, fun r hr hu => ?_⟩
  have hlocked := h r hr (r.uniqueid_lock.symm.trans hu)
  rw [FeedRow.lock, if_neg fun h => absurd (h.1.symm.trans hlocked) zero_ne_one]
  exact hlocked

/-- A lock that is taken: the feed was not locked, and it is then. -/
theorem lock_eq_some (h : updateFeeds fails (.lock u) feeds = some (1, feeds')) :
    (∃ r ∈ feeds.rows, r.uniqueid = u ∧ r.locked = 0) ∧ LockedIs u 1 feeds' := by
  obtain ⟨-, hcount, hrows⟩ := updateFeeds_eq_some h
  obtain ⟨r, hr, hne⟩ := List.countP_pos_iff.1 (hcount ▸ Nat.one_pos)
  have hlock : r.locked = 0 ∧ r.uniqueid = u := by
    by_contra hnot
    exact of_decide_eq_true hne (if_neg hnot).symm
  refine ⟨⟨r, hr, hlock.2, hlock.1⟩, ⟨r.lock u, ?_, r.uniqueid_lock.trans hlock.2⟩, ?_⟩
  · exact hrows ▸ List.mem_map_of_mem hr
  · rw [hrows, List.forall_mem_map]
    intro r' hr' hu
    -- the identifier is that of the row, of which there is only one
    obtain rfl : r' = r := Table.eq_of_clash hr' hr
      (.inl ((r'.uniqueid_lock.symm.trans hu).trans hlock.2.symm))
    rw [FeedRow.lock, if_pos hlock]

end Updates

/-! ## What the parts do -/

section Parts

variable {conf} {initialized : Bool} {row : FeedRow} {o : AttemptOutcome} {os : List AttemptOutcome}
  {feeds feeds' : FeedsTable} {call : PsCall} {ok : Bool} {u n : ℕ} {now : ℤ}

/-- An attempt makes its call, if it has one to make. -/
theorem feedAttempt_eq : feedAttempt conf initialized row o feeds =
    (attemptCall conf initialized row o >>= fun call? => match call? with
      | none => return (false, feeds)
      | some call => return makeCall o row.uniqueid call feeds) := by
  cases initialized <;> rfl

/-- An attempt ends without a call, and leaves everything as it was, or with one. -/
theorem feedAttempt_eq_ok : feedAttempt conf initialized row o feeds = .ok (ok, feeds') ↔
    (attemptCall conf initialized row o = .ok none ∧ ok = false ∧ feeds' = feeds) ∨
    ∃ call, attemptCall conf initialized row o = .ok (some call) ∧
      makeCall o row.uniqueid call feeds = (ok, feeds') := by
  rw [feedAttempt_eq, Exec.bind_eq_ok]
  constructor
  · rintro ⟨_ | call, hcall, h⟩
    · obtain ⟨rfl, rfl⟩ := Prod.mk.inj (Except.ok.inj h)
      exact .inl ⟨hcall, rfl, rfl⟩
    · exact .inr ⟨call, hcall, Except.ok.inj h⟩
  · rintro (⟨hcall, rfl, rfl⟩ | ⟨call, hcall, h⟩)
    · exact ⟨none, hcall, rfl⟩
    · exact ⟨some call, hcall, congrArg _ h⟩

/-- A call of the primary storage leaves the feed unlocked. -/
theorem makeCall_lockedIs (h : LockedIs u n feeds) : LockedIs u 0 (makeCall o u call feeds).2 := by
  unfold makeCall
  split
  · exact h.unlock
  · exact (h.afterUpdate keepsLocks_init).unlock

/-- The attempts leave a feed unlocked when one of them makes its call, and as it
    was otherwise. -/
theorem feedAttempts_lockedIs (h : feedAttempts conf initialized row os feeds = .ok (ok, feeds'))
    (hn : LockedIs row.uniqueid n feeds) :
    (∃ o ∈ os, Calls conf initialized row o) ∧ LockedIs row.uniqueid 0 feeds' ∨
    (¬∃ o ∈ os, Calls conf initialized row o) ∧ LockedIs row.uniqueid n feeds' ∧ ok = false := by
  induction os generalizing feeds n with
  | nil =>
    obtain ⟨rfl, rfl⟩ := Prod.mk.inj (Except.ok.inj h)
    exact .inr ⟨by simp, hn, rfl⟩
  | cons o os ih =>
    rw [feedAttempts, Exec.bind_eq_ok] at h
    obtain ⟨⟨ok₁, feeds₁⟩, hatt, h⟩ := h
    rw [List.exists_mem_cons_iff]
    rcases feedAttempt_eq_ok.1 hatt with ⟨hnone, rfl, rfl⟩ | ⟨call, hcall, hmade⟩
    · have hnot : ¬Calls conf initialized row o := by
        rintro ⟨call, hcall⟩
        cases hnone.symm.trans hcall
      rw [or_iff_right hnot]
      exact ih h hn
    · -- the call unlocks the feed, and whatever attempts follow leave it so
      have h₁ : LockedIs row.uniqueid 0 feeds₁ := by
        have := @makeCall_lockedIs o feeds call row.uniqueid n hn
        rwa [hmade] at this
      refine .inl ⟨.inl ⟨call, hcall⟩, ?_⟩
      cases ok₁ with
      | true =>
        obtain ⟨-, rfl⟩ := Prod.mk.inj (Except.ok.inj h)
        exact h₁
      | false =>
        rcases ih h h₁ with ⟨-, hfeed⟩ | ⟨-, hfeed, -⟩
        · exact hfeed
        · exact hfeed

theorem handleFeed_eq_ok {os : Fin 10 → AttemptOutcome}
    (h : handleFeed conf initialized row os now feeds = .ok feeds') :
    ∃ ok feeds₁, feedAttempts conf initialized row (List.ofFn os) feeds = .ok (ok, feeds₁) ∧
      feeds' = if ok then feeds₁ else afterUpdate false (giveUpRow initialized row now) feeds₁ := by
  obtain ⟨⟨ok, feeds₁⟩, hatt, h⟩ := Exec.bind_eq_ok.1 h
  refine ⟨ok, feeds₁, hatt, ?_⟩
  cases ok with
  | true => exact (Except.ok.inj h).symm
  | false => exact (Except.ok.inj h).symm

/-- A feed that was searched for and locked is unlocked in the end exactly when
    one of the ten attempts gets as far as to call the primary storage. -/
theorem unlocked_iff_calls {feeds₀ : FeedsTable} {os : Fin 10 → AttemptOutcome}
    (hlock : updateFeeds false (.lock row.uniqueid) feeds₀ = some (1, feeds))
    (h : handleFeed conf initialized row os now feeds = .ok feeds') :
    LockedIs row.uniqueid 0 feeds' ↔ ∃ i, Calls conf initialized row (os i) := by
  obtain ⟨ok, feeds₁, hatt, rfl⟩ := handleFeed_eq_ok h
  have hmem : (∃ o ∈ List.ofFn os, Calls conf initialized row o) ↔
      ∃ i, Calls conf initialized row (os i) := by
    simp only [List.mem_ofFn, exists_exists_eq_and]
  rw [← hmem]
  rcases feedAttempts_lockedIs hatt (lock_eq_some hlock).2 with ⟨hcalls, hfeed⟩ | ⟨hnot, hfeed, hok⟩
  · refine iff_of_true ?_ hcalls
    split_ifs
    · exact hfeed
    · exact hfeed.afterUpdate keepsLocks_giveUpRow
  · refine iff_of_false ?_ hnot
    rw [hok]
    have hend := @LockedIs.afterUpdate _ 1 _ _ false (@keepsLocks_giveUpRow initialized row now) hfeed
    exact fun hzero => absurd (hend.unique hzero) one_ne_zero

end Parts

/-! ## A feed -/

/-- A server with a feed of the jobs of a primary storage. -/
def sampleFeeding : FeedingConf where
  attrs := [sampleAttr]
  feeds := [⟨[], true, true, 1⟩]
  hname := ascii "https://is"

/-- The feed before the primary storage is asked for it. -/
def sampleFeedRow : FeedRow where
  uniqueid := 1
  feedid := none
  state := GLITE_JP_IS_STATE_HIST ||| GLITE_JP_IS_STATE_CONT
  locked := 0
  source := ascii "https://ps"
  expires := none

/-- The table of that feed, unlocked or locked. -/
def sampleFeeds (locked : ℕ) : FeedsTable :=
  ⟨[{ sampleFeedRow with locked }], List.pairwise_singleton _ _⟩

/-- An attempt that is answered, if it makes the call. -/
def sampleOutcome (credentials : Bool) : AttemptOutcome where
  credentials := credentials
  memory := true
  answer := some (ascii "feed", 360)
  initFails := false
  now := 0
  tnow := 0

theorem lock_sampleFeeds :
    updateFeeds false (.lock sampleFeedRow.uniqueid) (sampleFeeds 0) = some (1, sampleFeeds 1) := rfl

theorem exists_handleFeed : ∃ feeds', handleFeed sampleFeeding false sampleFeedRow
    (fun _ => sampleOutcome true) 0 (sampleFeeds 1) = .ok feeds' := ⟨_, rfl⟩

/-- The call is made at once. -/
theorem unlocked_iff_calls_sample : ∃ feeds',
    handleFeed sampleFeeding false sampleFeedRow (fun _ => sampleOutcome true) 0 (sampleFeeds 1) =
      .ok feeds' ∧
    (LockedIs 1 0 feeds' ↔
      ∃ i : Fin 10, Calls sampleFeeding false sampleFeedRow ((fun _ => sampleOutcome true) i)) :=
  exists_handleFeed.imp fun _ h => ⟨h, unlocked_iff_calls lock_sampleFeeds h⟩

/-- Without credentials no attempt makes the call, and the feed stays locked. -/
theorem not_unlocked_sample : ∃ feeds', updateFeeds false (.lock 1) (sampleFeeds 0) =
      some (1, sampleFeeds 1) ∧
    handleFeed sampleFeeding false sampleFeedRow (fun _ => sampleOutcome false) 0 (sampleFeeds 1) =
      .ok feeds' ∧ ¬LockedIs 1 0 feeds' := by
  refine ⟨_, rfl, rfl, fun h => ?_⟩
  exact absurd (h.2 _ List.mem_cons_self rfl) one_ne_zero

end JobProvenance
