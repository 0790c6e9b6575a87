import JobProvenance.Lib.System
import JobProvenance.Primary.Requests

/-!
# The table of feeds

The statements of the slaves about the feeds that are continued and about the
marks of their jobs, in any order: a feed is stored and then refreshed, an index
server refreshes it, jobs are marked, and every slave that starts purges what has
expired. A purge is many statements: it selects the feeds that have expired,
deletes the marks of one after the other, and then deletes what has expired from
the feeds.

* `FeedProc`: a call in progress, by its next statement; `execFeeds` executes it;
* `feedSystem`: the calls of any number of slaves;
* `FeedEffect`, `execFeeds_effect`: what a statement does to the tables;
* `hasFeed_iff`: the feeds of the table are those that were stored and not purged;
* `refreshed_iff`: a refresh succeeds always, but finds only those.
-/

namespace JobProvenance

/-! ## Statements -/

/-- The tables of feeds and marks. -/
structure FeedTables where
  feeds : Table FeedsRow FeedsRow.Clash
  fed : Table FedRow (· = ·)

/-- A purge in progress: the time at which it started, and the feeds that have
    expired, those whose marks are deleted already and those that are left. -/
structure Purge where
  expires : ℤ
  done : List Bytes
  left : List Bytes
  deriving DecidableEq

/-- A call in progress, by its next statement: the first two belong to
    `register_feed_deferred`, the last two to `purge_feeds`. -/
inductive FeedProc
  | storeFeed (feed : Jpfeed)
  | refreshStored (id : Bytes)
  | refreshFeed (id : Bytes)
  | setFed (row : FedRow)
  | selectExpired
  | purge (p : Purge)
  deriving DecidableEq

/-- A call that is in progress, or has returned; a refresh answers when the feed
    expires. -/
inductive FeedOutcome
  | next (p : FeedProc)
  | done (ret : Ret)
  | refreshed (expires : ℤ)
  deriving DecidableEq

/-- Changes when the rows that meet a condition expire. -/
def refreshRow (p : FeedsRow → Bool) (expires : ℤ) (r : FeedsRow) : FeedsRow :=
  if p r then { r with expires } else r

@[simp]
theorem feedid_refreshRow (p : FeedsRow → Bool) (expires : ℤ) (r : FeedsRow) :
    (refreshRow p expires r).feedid = r.feedid := by
  unfold refreshRow
  split_ifs <;> rfl

theorem clash_refreshRow (p : FeedsRow → Bool) (expires : ℤ) (a b : FeedsRow)
    (h : (refreshRow p expires a).Clash (refreshRow p expires b)) : a.Clash b := by
  simpa only [FeedsRow.Clash, feedid_refreshRow] using h

def refreshRows (feeds : Table FeedsRow FeedsRow.Clash) (p : FeedsRow → Bool) (expires : ℤ) :
    Table FeedsRow FeedsRow.Clash :=
  feeds.update (refreshRow p expires) (clash_refreshRow p expires)

theorem mem_refreshRows {feeds : Table FeedsRow FeedsRow.Clash} {p : FeedsRow → Bool} {expires : ℤ}
    {r' : FeedsRow} : r' ∈ (refreshRows feeds p expires).rows ↔
      ∃ r ∈ feeds.rows, refreshRow p expires r = r' := Table.mem_update

/-- An identifier that is harmless within quotes. -/
def Plain (id : Bytes) : Prop := ch '\'' ∉ id ∧ ch '\\' ∉ id

section Exec

variable (escape : Bytes → Bytes) (readsAs : Bytes → Option (FeedsRow → Bool))

/-- The condition the database reads in the statement of a refresh, where the
    identifier stands as it is: of a harmless one, that the row has it. -/
def ReadsPlain : Prop := ∀ id, Plain id → readsAs id = some fun r : FeedsRow => decide (r.feedid = id)

/-- The update of a refresh, unless the database refuses it. -/
def jppsbeRefreshFeed (feeds : Table FeedsRow FeedsRow.Clash) (ok : Bool) (id : Bytes) (expires : ℤ) :
    Table FeedsRow FeedsRow.Clash :=
  match readsAs id with
  | some p => if ok then refreshRows feeds p expires else feeds
  | none => feeds

/-- Executes the next statement of a call at the time `now`; `ok` tells whether
    the database accepts it. -/
def execFeeds (now : ℤ) (ok : Bool) (t : FeedTables) : FeedProc → FeedTables × FeedOutcome
  | .storeFeed feed =>
    match if ok then storeFeed escape t.feeds feed else .error (.errno Errno.EIO) with
    | .ok feeds => ({ t with feeds }, .next (.refreshStored feed.id))
    | .error _ => (t, .done none)
  -- what the update returns is not looked at, neither here nor there
  | .refreshStored id =>
    ({ t with feeds := jppsbeRefreshFeed readsAs t.feeds ok id (now + FEED_TTL) }, .done none)
  | .refreshFeed id =>
    ({ t with feeds := jppsbeRefreshFeed readsAs t.feeds ok id (now + FEED_TTL) },
      .refreshed (now + FEED_TTL))
  | .setFed row =>
    match if ok then t.fed.insert row else none with
    | some fed => ({ t with fed }, .done none)
    | none => (t, .done (some Errno.EIO))
  | .selectExpired =>
    let expired := (t.feeds.rows.filter (·.expires < now)).map (·.feedid)
    (t, if ok then .next (.purge ⟨now, [], expired⟩) else .done (some Errno.EIO))
  | .purge p =>
    if ok then
      match p.left with
      | feed :: left => ({ t with fed := t.fed.delete (·.feedid = feed) },
          .next (.purge { p with done := p.done ++ [feed], left }))
      | [] => ({ t with feeds := t.feeds.delete (·.expires < p.expires) }, .done none)
    else (t, .done (some Errno.EIO))

/-! ## Runs -/

/-- The tables and the calls; and, of the past, the marks that were set and the
    feeds that were purged. -/
structure FeedState extends FeedTables where
  calls : List FeedOutcome
  marked : List FedRow
  purged : List Bytes

/-- A step: an index server requests or refreshes a feed, a slave starts or marks
    a job, or the call of a number executes its next statement. -/
inductive FeedAction
  | feedIndex (now : ℤ) (buf : Bytes) (r : FeedRequest)
  | feedIndexRefresh (id : Bytes)
  | startSlave
  | mark (feed job : Bytes)
  | exec (i : ℕ) (now : ℤ) (ok : Bool)

/-- The call of a deferred action; the jobs a feed of the past marks are marked by
    calls of their own. -/
def Deferred.feedCall : Deferred → Option FeedOutcome
  | .registerFeed feed => some (.next (.storeFeed feed))
  | .runFeed _ | .matchAttr .. | .matchAttrMulti _ | .matchFile .. => none

variable (str2md5base64 : Bytes → Bytes)

/-- The state behind a call that starts. -/
def FeedState.start (s : FeedState) (calls : List FeedOutcome) : FeedState :=
  { s with calls := s.calls ++ calls }

/-- The state behind a statement: the tables, and what became of the call. -/
def FeedState.advance (s : FeedState) (i : ℕ) (t : FeedTables) (outcome : FeedOutcome) :
    FeedState where
  toFeedTables := t
  calls := s.calls.set i outcome
  marked := s.marked ++ t.fed.rows.filter (· ∉ s.fed.rows)
  purged := s.purged ++ (s.feeds.rows.map (·.feedid)).filter (· ∉ t.feeds.rows.map (·.feedid))

/-- The step of an action, if it can be taken. -/
def feedStep (s : FeedState) : FeedAction → Option FeedState
  | .feedIndex now buf r =>
    match serveFeedIndex now (str2md5base64 buf) r with
    | .ok ds => some (s.start ((ds.getD []).filterMap Deferred.feedCall))
    | .error _ => none
  | .feedIndexRefresh id => some (s.start [.next (.refreshFeed id)])
  | .startSlave => some (s.start [.next .selectExpired])
  | .mark feed job =>
    match fedRow feed job with
    | .ok row => some (s.start [.next (.setFed row)])
    | .error (.errno e) => some (s.start [.done (some e)])
    | .error _ => none
  | .exec i now ok =>
    match s.calls[i]? with
    | some (.next p) =>
      let (t, outcome) := execFeeds escape readsAs now ok s.toFeedTables p
      some (s.advance i t outcome)
    | _ => none

/-- The slaves of a primary storage, started with empty tables. -/
def feedSystem : System FeedState FeedAction where
  init s := s = ⟨⟨.empty, .empty⟩, [], [], []⟩
  step s a t := feedStep escape readsAs str2md5base64 s a = some t

end Exec

/-! ## What a statement does -/

/-- The purge a call is at. -/
def FeedOutcome.purge : FeedOutcome → Option Purge
  | .next (.purge q) => some q
  | _ => none

/-- What a statement does to the tables and its call: nothing at all, or what it is for. -/
inductive FeedEffect (escape : Bytes → Bytes) (readsAs : Bytes → Option (FeedsRow → Bool))
    (now : ℤ) (ok : Bool) (t : FeedTables) : FeedProc → FeedTables → FeedOutcome → Prop
  | none {p : FeedProc} {o : FeedOutcome} : o.purge = none →
      (ok = true → (∀ q, p ≠ .purge q) ∧
        ∀ feed feeds, p = .storeFeed feed → storeFeed escape t.feeds feed ≠ .ok feeds) →
      FeedEffect escape readsAs now ok t p t o
  | store {feed : Jpfeed} {row : FeedsRow} {feeds : Table FeedsRow FeedsRow.Clash} {o : FeedOutcome} :
      ok = true → storeFeed escape t.feeds feed = .ok feeds → row.feedid = feed.id →
      row.expires = feed.expires →
      (∀ r ∈ t.feeds.rows, r.feedid ≠ row.feedid) → feeds.rows = t.feeds.rows ++ [row] →
      o.purge = none → FeedEffect escape readsAs now ok t (.storeFeed feed) { t with feeds } o
  | refresh {p : FeedProc} {id : Bytes} {cond : FeedsRow → Bool} {o : FeedOutcome} :
      p = .refreshStored id ∨ p = .refreshFeed id → readsAs id = some cond → o.purge = none →
      FeedEffect escape readsAs now ok t p { t with feeds := refreshRows t.feeds cond (now + FEED_TTL) } o
  | mark {row : FedRow} {fed : Table FedRow (· = ·)} {o : FeedOutcome} : row ∉ t.fed.rows →
      fed.rows = t.fed.rows ++ [row] → o.purge = none →
      FeedEffect escape readsAs now ok t (.setFed row) { t with fed } o
  | select : FeedEffect escape readsAs now ok t .selectExpired t
      (.next (.purge ⟨now, [], (t.feeds.rows.filter (·.expires < now)).map (·.feedid)⟩))
  | deleteMarks {q : Purge} {feed : Bytes} {left : List Bytes} : q.left = feed :: left →
      FeedEffect escape readsAs now ok t (.purge q) { t with fed := t.fed.delete (·.feedid = feed) }
        (.next (.purge { q with done := q.done ++ [feed], left }))
  | deleteFeeds {q : Purge} : ok = true → q.left = [] → FeedEffect escape readsAs now ok t (.purge q)
      { t with feeds := t.feeds.delete (·.expires < q.expires) } (.done none)

section Steps

variable {escape str2md5base64 : Bytes → Bytes} {readsAs : Bytes → Option (FeedsRow → Bool)}
  {s s' : FeedState} {a : FeedAction} {t : FeedTables} {now : ℤ} {ok : Bool} {p : FeedProc}
  {id : Bytes} {r : FeedsRow}

theorem id_of_makeJpfeed {destination : Bytes} {attrs : List Bytes} {qry : List QueryRec}
    {expires : ℤ} {feed : Jpfeed} (h : makeJpfeed destination attrs qry id expires = .ok feed) :
    feed.id = id := by
  obtain ⟨_, -, h⟩ := Exec.bind_eq_ok.1 h
  exact Except.ok.inj h ▸ rfl

/-- The feed that is registered for a request has the identifier of the answer. -/
theorem id_of_serveFeedIndex {r : FeedRequest} {ds : Option (List Deferred)} {feed : Jpfeed}
    (h : serveFeedIndex now id r = .ok ds) (hfeed : .registerFeed feed ∈ ds.getD []) :
    feed.id = id := by
  unfold serveFeedIndex at h
  split at h
  · obtain rfl := Except.ok.inj h
    cases hfeed
  · obtain ⟨qry, -, h⟩ := Exec.bind_eq_ok.1 h
    obtain ⟨past, -, h⟩ := Exec.bind_eq_ok.1 h
    obtain ⟨future, hfuture, h⟩ := Exec.bind_eq_ok.1 h
    have hid := id_of_makeJpfeed hfuture
    split at h <;> obtain rfl := Except.ok.inj h <;> simp at hfeed
    · exact hfeed ▸ hid
    · exact hfeed ▸ hid

/-- A step executes a statement of a call, or starts calls that do not refer to
    feeds but by what an index server or a slave says. -/
theorem feedStep_cases (h : feedStep escape readsAs str2md5base64 s a = some s') :
    (∃ i now ok p, a = .exec i now ok ∧ s.calls[i]? = some (.next p) ∧
      s' = s.advance i (execFeeds escape readsAs now ok s.toFeedTables p).1
        (execFeeds escape readsAs now ok s.toFeedTables p).2) ∨
    (∀ i now ok, a ≠ .exec i now ok) ∧ ∃ calls, s' = s.start calls ∧
      (∀ q, FeedOutcome.next (.purge q) ∉ calls) ∧
      ∀ feed, .next (.storeFeed feed) ∈ calls → ∃ buf, feed.id = str2md5base64 buf := by
  cases a with
  | feedIndex now buf r =>
    simp only [feedStep] at h
    split at h
    · rename_i ds hds
      refine .inr ⟨by simp, _, (Option.some.inj h).symm, fun q hq => ?_,
        fun feed hfeed => ⟨buf, ?_⟩⟩
      · obtain ⟨d, -, hd⟩ := List.mem_filterMap.1 hq
        cases d <;> cases hd
      · obtain ⟨d, hmem, hd⟩ := List.mem_filterMap.1 hfeed
        cases d <;> cases hd
        exact id_of_serveFeedIndex hds hmem
    · cases h
  | feedIndexRefresh id => exact .inr ⟨by simp, _, (Option.some.inj h).symm, by simp, by simp⟩
  | startSlave => exact .inr ⟨by simp, _, (Option.some.inj h).symm, by simp, by simp⟩
  | mark feed job =>
    simp only [feedStep] at h
    split at h
    · exact .inr ⟨by simp, _, (Option.some.inj h).symm, by simp, by simp⟩
    · exact .inr ⟨by simp, _, (Option.some.inj h).symm, by simp, by simp⟩
    · cases h
  | exec i now ok =>
    simp only [feedStep] at h
    split at h
    · rename_i p hi
      exact .inl ⟨i, now, ok, p, rfl, hi, (Option.some.inj h).symm⟩
    · cases h

/-- The row of a feed. -/
theorem row_of_feedsRow {feed : Jpfeed} {row : FeedsRow} (h : feedsRow escape feed = .ok row) :
    row.feedid = feed.id ∧ row.expires = feed.expires := by
  obtain ⟨_, -, h⟩ := Exec.bind_eq_ok.1 h
  obtain ⟨_, -, h⟩ := Exec.bind_eq_ok.1 h
  obtain ⟨_, -, h⟩ := Exec.bind_eq_ok.1 h
  obtain rfl := Except.ok.inj h
  exact ⟨rfl, rfl⟩

theorem jppsbeRefreshFeed_eq (feeds : Table FeedsRow FeedsRow.Clash) (ok : Bool) (id : Bytes)
    (expires : ℤ) : jppsbeRefreshFeed readsAs feeds ok id expires = feeds ∨
      ∃ cond, readsAs id = some cond ∧
        jppsbeRefreshFeed readsAs feeds ok id expires = refreshRows feeds cond expires := by
  unfold jppsbeRefreshFeed
  split
  · rename_i cond hcond
    cases ok with
    | true => exact .inr ⟨cond, hcond, rfl⟩
    | false => exact .inl rfl
  · exact .inl rfl

/-- A statement has an effect. -/
theorem execFeeds_effect : FeedEffect escape readsAs now ok t p
    (execFeeds escape readsAs now ok t p).1 (execFeeds escape readsAs now ok t p).2 := by
  cases p with
  | storeFeed feed =>
    simp only [execFeeds]
    split
    · rename_i feeds hstore
      split_ifs at hstore with hok
      obtain ⟨row, hrow, -, hnew, hrows⟩ := storeFeed_eq_ok.1 hstore
      obtain ⟨hid, hexp⟩ := row_of_feedsRow hrow
      exact .store hok hstore hid hexp hnew hrows rfl
    · rename_i hstore
      refine .none rfl fun hok => ⟨by simp, ?_⟩
      rintro _ feeds ⟨⟩ h
      rw [if_pos hok, h] at hstore
      cases hstore
  | refreshStored id =>
    simp only [execFeeds]
    obtain h | ⟨cond, hcond, h⟩ := jppsbeRefreshFeed_eq t.feeds ok id (now + FEED_TTL)
    · rw [h]
      exact .none rfl (by simp)
    · rw [h]
      exact .refresh (.inl rfl) hcond rfl
  | refreshFeed id =>
    simp only [execFeeds]
    obtain h | ⟨cond, hcond, h⟩ := jppsbeRefreshFeed_eq t.feeds ok id (now + FEED_TTL)
    · rw [h]
      exact .none rfl (by simp)
    · rw [h]
      exact .refresh (.inr rfl) hcond rfl
  | setFed row =>
    simp only [execFeeds]
    split
    · rename_i fed hins
      split_ifs at hins
      obtain ⟨hnew, hrows⟩ := Table.insert_eq_some.1 hins
      exact .mark (fun hmem => hnew row hmem rfl) hrows rfl
    · exact .none rfl (by simp)
  | selectExpired =>
    simp only [execFeeds]
    split_ifs
    · exact .select
    · exact .none rfl (by simp)
  | purge q =>
    simp only [execFeeds]
    split_ifs with hok
    · split
      · rename_i feed left hleft
        exact .deleteMarks hleft
      · rename_i hleft
        exact .deleteFeeds hok hleft
    · exact .none rfl fun h => absurd h hok

end Steps

/-! ## Refreshing -/

section Refresh

variable (escape str2md5base64 : Bytes → Bytes) (readsAs : Bytes → Option (FeedsRow → Bool))

/-- A feed is in the table. -/
def FeedTables.HasFeed (t : FeedTables) (id : Bytes) : Prop := ∃ r ∈ t.feeds.rows, r.feedid = id

/-- It is, and expires at a time. -/
def FeedTables.Alive (t : FeedTables) (id : Bytes) (expires : ℤ) : Prop :=
  ∃ r ∈ t.feeds.rows, r.feedid = id ∧ r.expires = expires

/-- A statement that stores a feed. -/
def FeedProc.Stores (t : FeedTables) (id : Bytes) : FeedProc → Prop
  | .storeFeed feed => feed.id = id ∧ ∃ feeds, JobProvenance.storeFeed escape t.feeds feed = .ok feeds
  | _ => False

/-- A statement of a purge that deletes a feed. -/
def FeedProc.Purges (t : FeedTables) (id : Bytes) : FeedProc → Prop
  | .purge q => q.left = [] ∧ ∃ r ∈ t.feeds.rows, r.feedid = id ∧ r.expires < q.expires
  | _ => False

/-- Steps that execute such a statement. -/
def StoresFeed (id : Bytes) (s : FeedState) (a : FeedAction) : Prop :=
  ∃ i now p, a = .exec i now true ∧ s.calls[i]? = some (.next p) ∧ p.Stores escape s.toFeedTables id

def PurgesFeed (id : Bytes) (s : FeedState) (a : FeedAction) : Prop :=
  ∃ i now p, a = .exec i now true ∧ s.calls[i]? = some (.next p) ∧ p.Purges s.toFeedTables id

/-- A feed was stored, and not purged since. -/
def Registered (id : Bytes) (s : FeedState) : Prop :=
  ∃ s₀ u a v, (feedSystem escape readsAs str2md5base64).init s₀ ∧
    (feedSystem escape readsAs str2md5base64).Steps System.Always s₀ u ∧ StoresFeed escape id u a ∧
    (feedSystem escape readsAs str2md5base64).step u a v ∧
    (feedSystem escape readsAs str2md5base64).Steps (fun s a => ¬PurgesFeed id s a) v s

variable {escape str2md5base64 readsAs} {s s' : FeedState} {a : FeedAction} {id : Bytes} {now : ℤ}
  {ok : Bool} {i : ℕ}

/-- Refreshing changes no identifiers. -/
theorem hasFeed_refreshRows {t : FeedTables} {cond : FeedsRow → Bool} {expires : ℤ} :
    FeedTables.HasFeed { t with feeds := refreshRows t.feeds cond expires } id ↔ t.HasFeed id := by
  constructor
  · rintro ⟨r', hr', rfl⟩
    obtain ⟨r, hr, rfl⟩ := mem_refreshRows.1 hr'
    exact ⟨r, hr, (feedid_refreshRow cond expires r).symm⟩
  · rintro ⟨r, hr, rfl⟩
    exact ⟨_, mem_refreshRows.2 ⟨r, hr, rfl⟩, feedid_refreshRow cond expires r⟩

/-- After a statement a feed is in the table when it was stored, or was there and
    not purged. -/
theorem FeedEffect.hasFeed {t t' : FeedTables} {p : FeedProc} {o : FeedOutcome}
    (h : FeedEffect escape readsAs now ok t p t' o) : t'.HasFeed id ↔
      t.HasFeed id ∧ ¬(ok = true ∧ p.Purges t id) ∨ ok = true ∧ p.Stores escape t id := by
  cases h with
  | none _ hidle =>
    have hp : ¬(ok = true ∧ p.Purges t id) := by
      rintro ⟨hok, hpurges⟩
      cases p with
      | purge q => exact (hidle hok).1 q rfl
      | _ => exact hpurges
    have hs : ¬(ok = true ∧ p.Stores escape t id) := by
      rintro ⟨hok, hstores⟩
      cases p with
      | storeFeed feed =>
        obtain ⟨-, feeds, hfeeds⟩ := hstores
        exact (hidle hok).2 feed feeds rfl hfeeds
      | _ => exact hstores
    rw [or_iff_left hs, and_iff_left hp]
  | @store feed row feeds _ hok hstore hid _ hnew hrows =>
    simp only [FeedTables.HasFeed, hrows, List.mem_append, List.mem_singleton, or_and_right,
      exists_or, exists_eq_left, hid, FeedProc.Purges, and_false, not_false_eq_true, and_true,
      FeedProc.Stores, hok, true_and]
    exact or_congr_right (and_iff_left ⟨feeds, hstore⟩).symm
  | refresh hp =>
    have hnot : ¬p.Purges t id ∧ ¬p.Stores escape t id := by
      rcases hp with rfl | rfl <;> exact ⟨not_false, not_false⟩
    rw [hasFeed_refreshRows]
    tauto
  | mark => simp [FeedTables.HasFeed, FeedProc.Purges, FeedProc.Stores]
  | select => simp [FeedProc.Purges, FeedProc.Stores]
  | deleteMarks hleft => simp [FeedTables.HasFeed, FeedProc.Purges, FeedProc.Stores, hleft]
  | @deleteFeeds q hok hleft =>
    simp only [FeedProc.Purges, FeedProc.Stores, hok, hleft, true_and, and_false, or_false]
    constructor
    · rintro ⟨r, hr, rfl⟩
      obtain ⟨hr, hexp⟩ := Table.mem_delete.1 hr
      refine ⟨⟨r, hr, rfl⟩, ?_⟩
      rintro ⟨r', hr', hid, hlt⟩
      obtain rfl := Table.eq_of_clash hr' hr hid
      exact of_decide_eq_false hexp hlt
    · rintro ⟨⟨r, hr, rfl⟩, hno⟩
      exact ⟨r, Table.mem_delete.2 ⟨hr, decide_eq_false fun hlt => hno ⟨r, hr, rfl, hlt⟩⟩, rfl⟩

/-- So it is after a step. -/
theorem hasFeed_step (h : (feedSystem escape readsAs str2md5base64).step s a s') :
    s'.HasFeed id ↔ s.HasFeed id ∧ ¬PurgesFeed id s a ∨ StoresFeed escape id s a := by
  obtain ⟨i, now, ok, p, rfl, hi, rfl⟩ | ⟨hne, calls, rfl, -⟩ := feedStep_cases h
  · have hexec : ∀ P : FeedProc → Prop, (∃ j now' p', FeedAction.exec i now ok = .exec j now' true ∧
        s.calls[j]? = some (.next p') ∧ P p') ↔ ok = true ∧ P p := by
      intro P
      constructor
      · rintro ⟨j, now', p', ⟨⟩, hj, hP⟩
        obtain rfl : p = p' := by simpa [hi] using hj
        exact ⟨rfl, hP⟩
      · rintro ⟨rfl, hP⟩
        exact ⟨i, now, p, rfl, hi, hP⟩
    have heff := @execFeeds_effect escape readsAs s.toFeedTables now ok p
    rw [PurgesFeed, StoresFeed, hexec, hexec]
    exact heff.hasFeed
  · have hnot : ∀ P : FeedProc → Prop, ¬∃ j now' p', a = .exec j now' true ∧
        s.calls[j]? = some (.next p') ∧ P p' := by
      rintro P ⟨j, now', p', rfl, -⟩
      exact hne _ _ _ rfl
    rw [PurgesFeed, StoresFeed, or_iff_left (hnot _), and_iff_left (hnot _)]
    rfl

/-- A feed is in the table when it was stored, and not purged since. -/
theorem hasFeed_iff (hs : (feedSystem escape readsAs str2md5base64).Reachable System.Always s) :
    s.HasFeed id ↔ Registered escape str2md5base64 readsAs id s := by
  obtain ⟨s₀, h₀, hst⟩ := hs
  constructor
  · intro hid
    induction hst with
    | refl =>
      obtain rfl : s₀ = _ := h₀
      obtain ⟨r, hr, -⟩ := hid
      cases hr
    | @tail u s a hst _ hstep ih =>
      obtain ⟨hu, hno⟩ | hstores := (hasFeed_step hstep).1 hid
      · obtain ⟨s₁, u', a', v, h₁, hst', hstores, hstep', hv⟩ := ih hu
        exact ⟨s₁, u', a', v, h₁, hst', hstores, hstep', hv.tail hno hstep⟩
      · exact ⟨s₀, u, a, s, h₀, hst, hstores, hstep, .refl s⟩
  · rintro ⟨s₁, u, a, v, -, -, hstores, hstep, hv⟩
    refine hv.preserves (I := fun s => s.HasFeed id) (fun s a t hs hno hst => ?_) ?_
    · exact (hasFeed_step hst).2 (.inl ⟨hs, hno⟩)
    · exact (hasFeed_step hstep).2 (.inr hstores)

/-- No call gets to storing a feed. -/
theorem execFeeds_ne_storeFeed {t : FeedTables} {p : FeedProc} {feed : Jpfeed} :
    (execFeeds escape readsAs now ok t p).2 ≠ .next (.storeFeed feed) := by
  cases p with
  | storeFeed feed =>
    simp only [execFeeds]
    split <;> simp
  | setFed row =>
    simp only [execFeeds]
    split <;> simp
  | purge q =>
    simp only [execFeeds]
    split_ifs
    · split <;> simp
    · simp
  | selectExpired =>
    simp only [execFeeds]
    split_ifs <;> simp
  | refreshStored id => simp [execFeeds]
  | refreshFeed id => simp [execFeeds]

/-- The identifiers of the feeds are those that were generated. -/
theorem exists_buf_of_reachable
    (hs : (feedSystem escape readsAs str2md5base64).Reachable System.Always s) :
    (∀ id, s.HasFeed id → ∃ buf, id = str2md5base64 buf) ∧
      ∀ feed, .next (.storeFeed feed) ∈ s.calls → ∃ buf, feed.id = str2md5base64 buf := by
  refine hs.invariant (I := fun s => (∀ id, s.HasFeed id → ∃ buf, id = str2md5base64 buf) ∧
    ∀ feed, .next (.storeFeed feed) ∈ s.calls → ∃ buf, feed.id = str2md5base64 buf) ?_ ?_
  · rintro s rfl
    exact ⟨fun id ⟨r, hr, _⟩ => absurd hr List.not_mem_nil, by simp⟩
  · rintro s a t ⟨hids, hcalls⟩ - hst
    constructor
    · intro id hid
      obtain ⟨hid, -⟩ | ⟨i, now, p, -, hi, hstores⟩ := (hasFeed_step hst).1 hid
      · exact hids id hid
      · cases p with
        | storeFeed feed => exact hstores.1 ▸ hcalls feed (List.mem_of_getElem? hi)
        | _ => exact hstores.elim
    · intro feed hfeed
      obtain ⟨i, now, ok, p, rfl, hi, rfl⟩ | ⟨-, calls, rfl, -, hnew⟩ := feedStep_cases hst
      · rcases List.mem_or_eq_of_mem_set hfeed with hfeed | hfeed
        · exact hcalls feed hfeed
        · exact absurd hfeed.symm execFeeds_ne_storeFeed
      · rcases List.mem_append.1 hfeed with hfeed | hfeed
        · exact hcalls feed hfeed
        · exact hnew feed hfeed

/-- A refresh that reads a harmless identifier finds the feed when it is there. -/
theorem alive_refresh {t : FeedTables} {expires : ℤ} (hid : readsAs id = some (decide <| ·.feedid = id)) :
    FeedTables.Alive { t with feeds := jppsbeRefreshFeed readsAs t.feeds ok id expires } id expires ↔
      t.HasFeed id ∧ (ok = true ∨ t.Alive id expires) := by
  cases ok with
  | true =>
    simp only [FeedTables.Alive, jppsbeRefreshFeed, hid, if_true, true_or, and_true, mem_refreshRows]
    constructor
    · rintro ⟨_, ⟨r, hr, rfl⟩, hid', -⟩
      exact ⟨r, hr, (feedid_refreshRow _ _ _).symm.trans hid'⟩
    · rintro ⟨r, hr, hid'⟩
      refine ⟨_, ⟨r, hr, rfl⟩, (feedid_refreshRow _ _ _).trans hid', ?_⟩
      rw [refreshRow, if_pos (decide_eq_true hid')]
  | false =>
    simp only [FeedTables.Alive, jppsbeRefreshFeed, hid, Bool.false_eq_true, if_false, false_or]
    exact (and_iff_right_of_imp fun ⟨r, hr, hid', _⟩ => ⟨r, hr, hid'⟩).symm

/-- A refresh always succeeds. The feed is alive after it if and only if it was
    stored, and not purged since, and the database executes the update, unless it
    would change nothing. -/
theorem refreshed_iff (hreads : ReadsPlain readsAs) (hplain : ∀ buf, Plain (str2md5base64 buf))
    (hs : (feedSystem escape readsAs str2md5base64).Reachable System.Always s)
    (hi : s.calls[i]? = some (.next (.refreshFeed id)))
    (hst : (feedSystem escape readsAs str2md5base64).step s (.exec i now ok) s') :
    s'.calls[i]? = some (.refreshed (now + FEED_TTL)) ∧
      (s'.Alive id (now + FEED_TTL) ↔ Registered escape str2md5base64 readsAs id s ∧
        (ok = true ∨ s.Alive id (now + FEED_TTL))) := by
  have hs' := hs.tail trivial hst
  have hst : feedStep escape readsAs str2md5base64 s (.exec i now ok) = some s' := hst
  simp only [feedStep, hi, Option.some.injEq] at hst
  subst hst
  have hlt : i < s.calls.length := (List.getElem?_eq_some_iff.1 hi).1
  refine ⟨by simp [FeedState.advance, execFeeds, hlt], ?_⟩
  rw [← hasFeed_iff hs]
  by_cases hid : Plain id
  · exact alive_refresh (hreads id hid)
  · -- no feed has an identifier that is not harmless
    have hno : ∀ t : FeedState,
        (feedSystem escape readsAs str2md5base64).Reachable System.Always t → ¬t.HasFeed id := by
      intro t ht hhas
      obtain ⟨buf, rfl⟩ := (exists_buf_of_reachable ht).1 id hhas
      exact hid (hplain buf)
    exact iff_of_false (fun ⟨r, hr, hid, _⟩ => hno _ hs' ⟨r, hr, hid⟩) fun h => hno s hs h.1

end Refresh

/-! ## A refresh of what was never stored -/

/-- A library that generates one identifier. -/
def sampleId (_ : Bytes) : Bytes := ascii "feed"

/-- A database that reads every identifier as one. -/
def sampleReads (id : Bytes) : Option (FeedsRow → Bool) := some (decide <| ·.feedid = id)

/-- A feed of the jobs of alice, of the past and perhaps of the future. -/
def sampleRequest (continuous : Bool) : FeedRequest where
  destination := some (ascii "https://jpis")
  attributes := [GLITE_JP_ATTR_OWNER]
  conditions := [⟨GLITE_JP_ATTR_OWNER, .EQUAL, none, some (.string (ascii "/CN=alice")), none⟩]
  history := true
  continuous := continuous

/-- Nothing is stored. -/
def noFeeds : FeedState := ⟨⟨.empty, .empty⟩, [], [], []⟩

/-- A state in which a call is about to refresh the feed. -/
def AboutToRefresh (i : ℕ) (stored : Bool) (s : FeedState) : Prop :=
  s.calls[i]? = some (.next (.refreshFeed (ascii "feed"))) ∧
    ((∃ r ∈ s.feeds.rows, r.feedid = ascii "feed") ↔ stored = true)

instance (i : ℕ) (stored : Bool) : DecidablePred (AboutToRefresh i stored) := fun s =>
  inferInstanceAs (Decidable (_ ∧ ((∃ r ∈ s.feeds.rows, r.feedid = ascii "feed") ↔ _)))

theorem refreshStored_run : ([.feedIndex 0 [] (sampleRequest true), .exec 0 0 true, .exec 0 0 true,
    .feedIndexRefresh (ascii "feed")].foldlM (fun s a =>
      if System.Always s a then feedStep id sampleReads sampleId s a else none) noFeeds).any
    (AboutToRefresh 1 true ·) = true := by
  decide +kernel

theorem refreshPast_run : ([.feedIndex 0 [] (sampleRequest false),
    .feedIndexRefresh (ascii "feed")].foldlM (fun s a =>
      if System.Always s a then feedStep id sampleReads sampleId s a else none) noFeeds).any
    (AboutToRefresh 0 false ·) = true := by
  decide +kernel

/-- The refresh is then executed. -/
theorem AboutToRefresh.step {i : ℕ} {stored : Bool} {s : FeedState} (hs : AboutToRefresh i stored s)
    (now : ℤ) : ∃ t, (feedSystem id sampleReads sampleId).step s (.exec i now true) t ∧
      t.feeds = refreshRows s.feeds (decide <| ·.feedid = ascii "feed") (now + FEED_TTL) ∧
      t.calls[i]? = some (.refreshed (now + FEED_TTL)) := by
  have hst : feedStep id sampleReads sampleId s (.exec i now true) =
      some (s.advance i ⟨refreshRows s.feeds (decide <| ·.feedid = ascii "feed") (now + FEED_TTL), s.fed⟩
        (.refreshed (now + FEED_TTL))) := by
    simp only [feedStep, hs.1]
    rfl
  have hlt : i < s.calls.length := (List.getElem?_eq_some_iff.1 hs.1).1
  exact ⟨_, hst, rfl, by simp [FeedState.advance, hlt]⟩

/-- A feed that was stored is alive when it was refreshed. -/
theorem refreshed_iff_sample : ∃ s t : FeedState, AboutToRefresh 1 true s ∧
    (t.calls[1]? = some (.refreshed (10 + FEED_TTL)) ∧
      (t.Alive (ascii "feed") (10 + FEED_TTL) ↔
        Registered id sampleId sampleReads (ascii "feed") s ∧
          (true = true ∨ s.Alive (ascii "feed") (10 + FEED_TTL)))) := by
  obtain ⟨s, hrun, hs⟩ := Option.any_eq_true _ _ |>.1 refreshStored_run
  have hs : AboutToRefresh 1 true s := of_decide_eq_true hs
  obtain ⟨t, hst, -⟩ := hs.step 10
  have hplain : Plain (ascii "feed") := ⟨by decide, by decide⟩
  exact ⟨s, t, hs, refreshed_iff (fun _ _ => rfl) (fun _ => hplain)
    ⟨_, rfl, .of_foldlM (fun _ _ _ h => h) hrun⟩ hs.1 hst⟩

/-- The identifier of a feed of the past is refreshed with success, but there is no
    feed. -/
theorem not_alive_sample : ∃ s t : FeedState,
    (feedSystem id sampleReads sampleId).Reachable System.Always s ∧
    s.calls[0]? = some (.next (.refreshFeed (ascii "feed"))) ∧
    (feedSystem id sampleReads sampleId).step s (.exec 0 10 true) t ∧
    t.calls[0]? = some (.refreshed (10 + FEED_TTL)) ∧ ¬t.Alive (ascii "feed") (10 + FEED_TTL) := by
  obtain ⟨s, hrun, hs⟩ := Option.any_eq_true _ _ |>.1 refreshPast_run
  have hs : AboutToRefresh 0 false s := of_decide_eq_true hs
  obtain ⟨t, hst, hfeeds, hcall⟩ := hs.step 10
  refine ⟨s, t, ⟨_, rfl, .of_foldlM (fun _ _ _ h => h) hrun⟩, hs.1, hst, hcall, ?_⟩
  rintro ⟨r', hr', hid, -⟩
  obtain ⟨r, hr, rfl⟩ := mem_refreshRows.1 (hfeeds ▸ hr')
  exact absurd (hs.2.1 ⟨r, hr, (feedid_refreshRow _ _ _).symm.trans hid⟩) Bool.false_ne_true

end JobProvenance
