import JobProvenance.Index.FeedLock

/-!
# The index server

The processes of the index server share its database: feeders ask the primary
storages for feeds, and slaves serve the `UpdateJobs` messages that arrive for
them. A slave looks up the feed, marks it done, and stores the records, one after
the other; a feeder takes the steps of `Feeder.step`.

* `indexStep`: one step of one process;
* `FeederEffect`: what the steps of a feeder do to the feeds, and
  `slaveStep_feeds`: what those of a slave do;
* `steps_updateJobs`: what a slave does for a message when the others wait is
  `updateJobs`.
-/

namespace JobProvenance

open Stateful

/-- Where a slave is with a message: it has looked up the feed, or it has the
    records from a number on to store. -/
inductive UpdatePhase
  | idle
  | mark (feed : FeedRow) (msg : UpdateJobs)
  | store (ps : Bytes) (ijobs : ℕ) (records : List JobRecord)

/-- The database, and the processes by number. -/
structure IndexState where
  db : IndexDb
  feeders : ℕ → Feeder
  slaves : ℕ → UpdatePhase

/-- A step of a slave, with the statements that fail in it. -/
inductive SlaveAction
  | select (fails : Statement → Bool) (msg : UpdateJobs)
  | mark (fails : Statement → Bool)
  | store (fails : Statement → Bool)

/-- A step of a process. -/
inductive IndexAction
  | feeder (pid : ℕ) (a : FeederAction)
  | slave (sid : ℕ) (a : SlaveAction)

variable (conf : FeedingConf) (ctx : IndexContext)

/-- What follows a part of a call that ends normally; the call is over when it ends
    early. -/
def followedBy {α : Type} (next : α → UpdatePhase) :
    EStateM.Result Halt IndexDb α → IndexDb × UpdatePhase
  | .ok a db => (db, next a)
  | .error _ db => (db, .idle)

/-- The database and the slave after a step; `none` when it is not its next. -/
def slaveStep (db : IndexDb) : SlaveAction → UpdatePhase → Option (IndexDb × UpdatePhase)
  | .select fails msg, .idle =>
    some (followedBy (.mark · msg) (selectInfoFeed fails msg.feedId db))
  | .mark fails, .mark feed msg =>
    some (followedBy (fun _ => .store feed.source 0 msg.jobAttributes)
      (markDone fails feed msg.feedDone db))
  | .store fails, .store ps ijobs (r :: rs) =>
    some (followedBy (fun _ => .store ps (ijobs + 1) rs) (updateJob ctx fails ijobs ps r db))
  | .store _, .store _ _ [] => some (db, .idle)
  | _, _ => none

/-- The server after a step of one of its processes; it is the slaves who serve. -/
def indexStep (s : IndexState) : IndexAction → Option IndexState
  | .feeder _ (.serve ..) => none
  | .feeder pid a => ((s.feeders pid).step conf s.db.feeds a).map fun (feeds, p) =>
    { s with db := { s.db with feeds }, feeders := Function.update s.feeders pid p }
  | .slave sid a => (slaveStep ctx s.db a (s.slaves sid)).map fun (db, phase) =>
    { s with db, slaves := Function.update s.slaves sid phase }

/-- The processes, none of which has begun. -/
def indexSystem : System IndexState IndexAction where
  init s := (∀ pid, s.feeders pid = ⟨.idle, ∅⟩) ∧ ∀ sid, s.slaves sid = .idle
  step s a t := indexStep conf ctx s a = some t

/-! ## What the steps do to the feeds -/

/-- What the steps of a feeder do to the feeds. -/
inductive FeederEffect (feeds : FeedsTable) :
    FeederPhase → FeederAction → FeedsTable → FeederPhase → Prop
  | start : FeederEffect feeds .idle .start feeds (.search false)
  | searchFails {initialized now k} :
    FeederEffect feeds (.search initialized) (.select true now k) feeds .idle
  | nothing {initialized now k} :
    FeederEffect feeds (.search initialized) (.select false now k) feeds (.afterFeed initialized)
  | found {initialized now k row} (hr : row ∈ feeds.rows)
    (hw : row.wanted initialized now = true) :
    FeederEffect feeds (.search initialized) (.select false now k) feeds (.lock initialized row)
  | locked {initialized row feeds'}
    (h : updateFeeds false (.lock row.uniqueid) feeds = some (1, feeds')) :
    FeederEffect feeds (.lock initialized row) (.lock false) feeds' (.prepare initialized row 0)
  | notLocked {initialized row fails feeds'}
    (h : feeds' = feeds ∨ feeds'.rows = feeds.rows.map (.lock row.uniqueid)) :
    FeederEffect feeds (.lock initialized row) (.lock fails) feeds' (.search initialized)
  | calls {initialized row i o call} (h : attemptCall conf initialized row o = .ok (some call)) :
    FeederEffect feeds (.prepare initialized row i) (.prepare o) feeds
      (.call initialized row i call)
  | noCall {initialized row i o} :
    FeederEffect feeds (.prepare initialized row i) (.prepare o) feeds
      (.attempt initialized row (i + 1))
  | fault {initialized row i call now} :
    FeederEffect feeds (.call initialized row i call) (.call none now) feeds
      (.unlock initialized row (some i))
  | answered {initialized row i call answered expires now} :
    FeederEffect feeds (.call initialized row i call) (.call (some (answered, expires)) now) feeds
      (.init initialized row (call.stored answered).1 (halfway now expires)
        (call.stored answered).2)
  | init {initialized row feedId expires status fails tnow} :
    FeederEffect feeds (.init initialized row feedId expires status) (.init fails tnow)
      (initFeed fails row.uniqueid feedId expires tnow status feeds) (.unlock initialized row none)
  | unlockFailed {initialized row i fails} :
    FeederEffect feeds (.unlock initialized row (some i)) (.unlock fails)
      (afterUpdate fails (.unlock row.uniqueid) feeds) (.attempt initialized row (i + 1))
  | unlockDone {initialized row fails} :
    FeederEffect feeds (.unlock initialized row none) (.unlock fails)
      (afterUpdate fails (.unlock row.uniqueid) feeds) (.afterFeed initialized)
  | giveUp {initialized row fails now} :
    FeederEffect feeds (.giveUp initialized row) (.giveUp fails now)
      (afterUpdate fails (giveUpRow initialized row now) feeds) (.afterFeed initialized)
  | serve {fails state uniqueid} :
    FeederEffect feeds .idle (.serve fails state uniqueid)
      (afterUpdate fails (.setState state uniqueid) feeds) .idle

section Effects

variable {conf} {ctx} {feeds feeds' : FeedsTable} {p p' : Feeder} {a : FeederAction}

theorem Feeder.step_effect (h : p.step conf feeds a = some (feeds', p')) :
    FeederEffect conf feeds p.phase a feeds' p'.phase := by
  unfold Feeder.step at h
  split at h
  case h_1 hphase =>
    obtain ⟨rfl, rfl⟩ := Prod.mk.inj (Option.some.inj h)
    exact hphase ▸ .start
  case h_2 fails now k initialized hphase =>
    rw [hphase]
    split_ifs at h with hfails
    · obtain ⟨rfl, rfl⟩ := Prod.mk.inj (Option.some.inj h)
      exact hfails ▸ .searchFails
    · obtain rfl : fails = false := by simpa using hfails
      split at h
      · obtain ⟨rfl, rfl⟩ := Prod.mk.inj (Option.some.inj h)
        exact .nothing
      · obtain ⟨row, hrow, h⟩ := Option.map_eq_some_iff.1 h
        obtain ⟨rfl, rfl⟩ := Prod.mk.inj h
        obtain ⟨hr, hw⟩ := List.mem_filter.1 (List.mem_of_getElem? hrow)
        exact .found hr hw
  case h_3 fails initialized row hphase =>
    rw [hphase]
    -- one row is changed, or none or several, or the statement fails
    split at h
    · rename_i hlock
      obtain ⟨rfl, rfl⟩ := Prod.mk.inj (Option.some.inj h)
      obtain rfl := (updateFeeds_eq_some hlock).1
      exact .locked hlock
    · rename_i hlock
      obtain ⟨rfl, rfl⟩ := Prod.mk.inj (Option.some.inj h)
      exact .notLocked (.inr (updateFeeds_eq_some hlock).2.2)
    · obtain ⟨rfl, rfl⟩ := Prod.mk.inj (Option.some.inj h)
      exact .notLocked (.inl rfl)
  case h_4 o initialized row i hphase =>
    rw [hphase]
    split at h
    · rename_i hcall
      obtain ⟨rfl, rfl⟩ := Prod.mk.inj (Option.some.inj h)
      exact .calls hcall
    · obtain ⟨rfl, rfl⟩ := Prod.mk.inj (Option.some.inj h)
      exact .noCall
    · cases h
  case h_5 answer now initialized row i call hphase =>
    rw [hphase]
    split at h
    · obtain ⟨rfl, rfl⟩ := Prod.mk.inj (Option.some.inj h)
      exact .fault
    · obtain ⟨rfl, rfl⟩ := Prod.mk.inj (Option.some.inj h)
      exact .answered
  case h_6 hphase =>
    obtain ⟨rfl, rfl⟩ := Prod.mk.inj (Option.some.inj h)
    exact hphase ▸ .init
  case h_7 fails initialized row failed hphase =>
    rw [hphase]
    obtain ⟨rfl, rfl⟩ := Prod.mk.inj (Option.some.inj h)
    cases failed with
    | none => exact .unlockDone
    | some i => exact .unlockFailed
  case h_8 hphase =>
    obtain ⟨rfl, rfl⟩ := Prod.mk.inj (Option.some.inj h)
    exact hphase ▸ .giveUp
  case h_9 hphase =>
    obtain ⟨rfl, rfl⟩ := Prod.mk.inj (Option.some.inj h)
    exact hphase ▸ .serve
  case h_10 => cases h

theorem followedBy_eq {α : Type} {next : α → UpdatePhase} {x : EStateM.Result Halt IndexDb α}
    {db : IndexDb} {phase : UpdatePhase} (h : some (followedBy next x) = some (db, phase)) :
    db = left x ∧ (phase = .idle ∨ ∃ a, x = .ok a db ∧ phase = next a) := by
  cases x with
  | ok a db' =>
    obtain ⟨rfl, rfl⟩ := Prod.mk.inj (Option.some.inj h)
    exact ⟨rfl, .inr ⟨a, rfl, rfl⟩⟩
  | error e db' =>
    obtain ⟨rfl, rfl⟩ := Prod.mk.inj (Option.some.inj h)
    exact ⟨rfl, .inl rfl⟩

/-- What the steps of a slave do to the feeds: one of them marks the feed that the
    slave has looked up before. -/
theorem slaveStep_feeds {db db' : IndexDb} {a : SlaveAction} {phase phase' : UpdatePhase}
    (h : slaveStep ctx db a phase = some (db', phase')) : db'.feeds = db.feeds ∨
      ∃ feed msg, phase = .mark feed msg ∧ msg.feedDone = true ∧
        feed.state &&& GLITE_JP_IS_STATE_DONE = 0 ∧ db'.feeds.rows = db.feeds.rows.map
          (.setState (feed.state ||| GLITE_JP_IS_STATE_DONE) feed.uniqueid) := by
  unfold slaveStep at h
  split at h
  case h_1 fails msg =>
    rw [(followedBy_eq h).1]
    refine .inl ?_
    rw [selectInfoFeed]
    split <;> rfl
  case h_2 fails feed msg =>
    rw [(followedBy_eq h).1, markDone]
    split_ifs with hd
    · rw [expectOne_eq]
      split
      · rename_i n db₁ hstmt
        split_ifs at hstmt
        obtain ⟨-, rfl⟩ := Prod.mk.inj (Option.some.inj hstmt)
        refine .inr ⟨feed, msg, rfl, hd.1, hd.2, ?_⟩
        split_ifs <;> rfl
      · exact .inl rfl
    · exact .inl rfl
  case h_3 fails ps ijobs r rs =>
    rw [(followedBy_eq h).1]
    exact .inl (keptByStatements_feeds.updateJob (Set.subset_univ _) db rfl)
  case h_4 =>
    obtain ⟨rfl, -⟩ := Prod.mk.inj (Option.some.inj h)
    exact .inl rfl
  case h_5 => cases h

/-- A slave has looked up the feed it is about to mark. -/
theorem slaveStep_to_mark {db db' : IndexDb} {a : SlaveAction} {phase : UpdatePhase} {feed : FeedRow}
    {msg : UpdateJobs} (h : slaveStep ctx db a phase = some (db', .mark feed msg)) :
    db' = db ∧ phase = .idle ∧ (∃ fails, a = .select fails msg) ∧
      db.feed msg.feedId = some feed := by
  unfold slaveStep at h
  split at h
  case h_1 fails msg' =>
    obtain ⟨-, hidle | ⟨r, hr, hmark⟩⟩ := followedBy_eq h
    · cases hidle
    · cases hmark
      rw [selectInfoFeed] at hr
      split at hr
      · rename_i hfeed
        obtain ⟨rfl, rfl⟩ := EStateM.Result.ok.inj hr
        split_ifs at hfeed
        exact ⟨rfl, rfl, ⟨fails, rfl⟩, hfeed⟩
      · cases hr
  case h_2 =>
    obtain ⟨-, hidle | ⟨_, -, hstore⟩⟩ := followedBy_eq h
    · cases hidle
    · cases hstore
  case h_3 =>
    obtain ⟨-, hidle | ⟨_, -, hstore⟩⟩ := followedBy_eq h
    · cases hidle
    · cases hstore
  case h_4 => cases h
  case h_5 => cases h

theorem indexStep_feeder {s t : IndexState} {pid : ℕ} {a : FeederAction}
    (h : indexStep conf ctx s (.feeder pid a) = some t) :
    ∃ feeds p, (s.feeders pid).step conf s.db.feeds a = some (feeds, p) ∧
      (∀ fails state uniqueid, a ≠ .serve fails state uniqueid) ∧
      t = { s with db := { s.db with feeds }, feeders := Function.update s.feeders pid p } := by
  unfold indexStep at h
  split at h
  · cases h
  · rename_i pid' a' hne heq
    cases heq
    obtain ⟨⟨feeds, p⟩, hstep, rfl⟩ := Option.map_eq_some_iff.1 h
    exact ⟨feeds, p, hstep, hne, rfl⟩
  · rename_i heq
    cases heq

theorem indexStep_slave {s t : IndexState} {sid : ℕ} {a : SlaveAction}
    (h : indexStep conf ctx s (.slave sid a) = some t) :
    ∃ db phase, slaveStep ctx s.db a (s.slaves sid) = some (db, phase) ∧
      t = { s with db, slaves := Function.update s.slaves sid phase } := by
  obtain ⟨⟨db, phase⟩, hstep, rfl⟩ := Option.map_eq_some_iff.1 h
  exact ⟨db, phase, hstep, rfl⟩

end Effects

/-! ## A slave alone -/

section Alone

variable {conf} {ctx} {db db' : IndexDb} {a : SlaveAction} {phase phase' : UpdatePhase}
  {s : IndexState} {feeders : ℕ → Feeder} {slaves : ℕ → UpdatePhase} {sid : ℕ}
  {fails : Statement → Bool}

/-- A run goes on with a step of the slave it ended with. -/
theorem index_steps_tail
    (h : (indexSystem conf ctx).Steps System.Always s
      ⟨db, feeders, Function.update slaves sid phase⟩)
    (hstep : slaveStep ctx db a phase = some (db', phase')) :
    (indexSystem conf ctx).Steps System.Always s
      ⟨db', feeders, Function.update slaves sid phase'⟩ := by
  refine h.tail (a := .slave sid a) trivial ?_
  change indexStep conf ctx _ (.slave sid a) = _
  simp only [indexStep, Function.update_self, hstep, Option.map_some, Function.update_idem]

/-- Storing the records, when the others wait. -/
theorem steps_updateRecords {ps : Bytes} {ijobs : ℕ} {rs : List JobRecord}
    (hs : (indexSystem conf ctx).Steps System.Always s
      ⟨db, feeders, Function.update slaves sid (.store ps ijobs rs)⟩) :
    (indexSystem conf ctx).Steps System.Always s
      ⟨left (updateRecords ctx fails ps ijobs rs db), feeders,
        Function.update slaves sid .idle⟩ := by
  induction rs generalizing ijobs db with
  | nil => exact index_steps_tail (a := .store fails) hs rfl
  | cons r rs ih =>
    rw [updateRecords, bind_eq]
    cases hr : updateJob ctx fails ijobs ps r db with
    | ok _ db₁ =>
      refine ih (index_steps_tail (a := .store fails) hs ?_)
      rw [slaveStep, hr]
      rfl
    | error e db₁ =>
      refine index_steps_tail (a := .store fails) hs ?_
      rw [slaveStep, hr]
      rfl

/-- What a slave does for a message, when the others wait. -/
theorem steps_updateJobs {msg : UpdateJobs} (hidle : slaves sid = .idle) :
    (indexSystem conf ctx).Steps System.Always ⟨db, feeders, slaves⟩
      ⟨left (updateJobs ctx fails msg db), feeders, slaves⟩ := by
  have hslaves : Function.update slaves sid .idle = slaves := by
    rw [← hidle, Function.update_eq_self]
  have hs : (indexSystem conf ctx).Steps System.Always ⟨db, feeders, slaves⟩
      ⟨db, feeders, Function.update slaves sid .idle⟩ := by
    rw [hslaves]
    exact .refl _
  suffices h : (indexSystem conf ctx).Steps System.Always ⟨db, feeders, slaves⟩
      ⟨left (updateJobs ctx fails msg db), feeders, Function.update slaves sid .idle⟩ by
    simpa only [hslaves] using h
  rw [updateJobs, bind_eq]
  cases hsel : selectInfoFeed fails msg.feedId db with
  | error e db₁ =>
    refine index_steps_tail (a := .select fails msg) hs ?_
    rw [slaveStep, hsel]
    rfl
  | ok feed db₁ =>
    have hs : (indexSystem conf ctx).Steps System.Always ⟨db, feeders, slaves⟩
        ⟨db₁, feeders, Function.update slaves sid (.mark feed msg)⟩ := by
      refine index_steps_tail (a := .select fails msg) hs ?_
      rw [slaveStep, hsel]
      rfl
    dsimp only
    rw [bind_eq]
    cases hmark : markDone fails feed msg.feedDone db₁ with
    | error e db₂ =>
      refine index_steps_tail (a := .mark fails) hs ?_
      rw [slaveStep, hmark]
      rfl
    | ok _ db₂ =>
      refine steps_updateRecords (index_steps_tail (a := .mark fails) hs ?_)
      rw [slaveStep, hmark]
      rfl

end Alone

end JobProvenance
