import JobProvenance.Index.FeedFlags
import JobProvenance.Primary.Deliveries

/-!
# The start of a feed

A primary storage and an index server together. A feeder of the index server asks for a
feed; a slave of the primary storage answers with an identifier, and goes on to the
actions it has deferred; the feeder stores the identifier when the answer has arrived, and
the slaves of the index server look it up for each message. Answers and messages take
their time, and nothing tells the primary storage that the answer has arrived.

The record beside the two (`HandshakeRecord`) says which identifiers feeders have
stored, which were in the table at some time, and how the messages were looked up.

* `handshakeStep`: one step of one party, and `handshakeSystem`: the runs;
* `started_of_reachable`: when the deferred actions of a feed are only taken once its
  identifier was stored, no message arrives too early;
* `not_started_sample`: one does when the actions are taken at once.
-/

namespace JobProvenance

/-! ## Two servers -/

/-- The servers, the answers on their way to feeders, and the messages of the slaves of
    the primary storage on their way to the index server. A slave waits for the answers
    to its messages before it goes on. -/
structure HandshakeState where
  ps : ServerState
  index : IndexState
  answers : ℕ → Option (Bytes × ℤ)
  flight : ℕ → List Sent

/-- A step: of the primary storage, which may be one that answers a feeder, of the index
    server, or one that takes an answer or a message from the wire. -/
inductive HandshakeAction
  | ps (a : ServerAction)
  | answer (pid i : ℕ) (now : ℤ) (buf : Bytes)
  | index (a : IndexAction)
  | receive (pid : ℕ) (now : ℤ)
  | arrive (i sid : ℕ) (fails : Statement → Bool)

/-- How the feed of a message was looked up. An identifier that is not in the table may
    have been there before; otherwise the message is too early. -/
inductive Lookup
  | found
  | failed
  | gone
  | early
  deriving DecidableEq

/-- The slave that serves in a step of a primary storage. -/
def ServerAction.slave : ServerAction → Option ℕ
  | .request i _ _ | .exec i _ => some i
  | _ => none

/-- The feeder that stops to wait for an answer in a step. -/
def IndexAction.answered : IndexAction → Option ℕ
  | .feeder pid (.call _ _) => some pid
  | _ => none

/-- Whether there is a feed in the table. -/
def IndexState.lists (s : IndexState) (id : Bytes) : Bool := (s.db.feed id).isSome

section Handshake

variable {H : Type} (conf : FeedingConf) (ctx : IndexContext) (env : Env)
  (plugins : List (FilePlugin H))

/-- The messages to the index server that were sent in a step. -/
def newMessages (s t : ServerState) : List Sent :=
  (t.ps.sent.drop s.ps.sent.length).filter (·.destination = conf.hname)

/-- The state when the primary storage has taken a step. -/
def HandshakeState.setPs (s : HandshakeState) (a : ServerAction) (ps : ServerState) :
    HandshakeState :=
  match a.slave with
  | some i =>
    { s with ps, flight := Function.update s.flight i (s.flight i ++ newMessages conf s.ps ps) }
  | none => { s with ps }

/-- A step of the primary storage; a slave that waits takes none. -/
def psStep (s : HandshakeState) (a : ServerAction) : Option HandshakeState :=
  if ∀ i ∈ a.slave, s.flight i = [] then
    (serverStep env plugins s.ps a).map (s.setPs conf a)
  else none

/-- The step of an action, if it can be taken. The answer to a request has the identifier
    of the feed, and when a feed that is to be continued expires. Whether a message was
    accepted is known when it is sent: it is not if the feed was not found. -/
def handshakeStep (s : HandshakeState) : HandshakeAction → Option HandshakeState
  | .ps a => psStep conf env plugins s a
  | .answer pid i now buf =>
    match (s.index.feeders pid).phase with
    | .call _ _ _ (.feedIndex _ req) => do
      let t ← psStep conf env plugins s (.request i now (.feedIndex buf req))
      let answer := (env.md5 buf, if req.continuous then now + FEED_TTL else 0)
      if ((t.ps.slaves i).map (·.busy)).getD false then
        some { t with answers := Function.update t.answers pid (some answer) }
      else none
    | _ => none
  | .index a => (indexStep conf ctx s.index a).map fun index =>
    { s with
      index
      answers := match a.answered with
        | some pid => Function.update s.answers pid none
        | none => s.answers }
  | .receive pid now => do
    let answer ← s.answers pid
    let index ← indexStep conf ctx s.index (.feeder pid (.call (some answer) now))
    some { s with index, answers := Function.update s.answers pid none }
  | .arrive i sid fails =>
    match s.flight i with
    | [] => none
    | m :: ms =>
      if m.accepted → fails .selectInfoFeed = false ∧ s.index.lists m.msg.feedId then
        (indexStep conf ctx s.index (.slave sid (.select fails m.msg))).map fun index =>
          { s with index, flight := Function.update s.flight i ms }
      else none

/-! ## The record -/

/-- The identifiers that were stored, those that were in the table, and how messages
    were looked up. -/
structure HandshakeRecord where
  stored : Bytes → Bool
  listed : Bytes → Bool
  lookups : List (Sent × Lookup)

/-- Nothing has happened. -/
def HandshakeRecord.empty : HandshakeRecord := ⟨fun _ => false, fun _ => false, []⟩

/-- The identifier that a step of a feeder stores. -/
def FeederPhase.stores : FeederPhase → FeederAction → Option Bytes
  | .init _ _ feedId _ _, .init false _ => some feedId
  | _, _ => none

/-- The identifiers that were stored, after a step. -/
def HandshakeRecord.storedAfter (g : HandshakeRecord) (s : HandshakeState) (a : HandshakeAction)
    (id : Bytes) : Bool :=
  match a with
  | .index (.feeder pid b) => g.stored id || (s.index.feeders pid).phase.stores b = some id
  | _ => g.stored id

/-- How a message is looked up. -/
def HandshakeRecord.lookup (g : HandshakeRecord) (s : HandshakeState) (fails : Statement → Bool)
    (m : Sent) : Lookup :=
  if fails .selectInfoFeed then .failed
  else if s.index.lists m.msg.feedId then .found
  else if g.listed m.msg.feedId then .gone
  else .early

/-- How messages were looked up, after a step. -/
def HandshakeRecord.lookupsAfter (g : HandshakeRecord) (s : HandshakeState) :
    HandshakeAction → List (Sent × Lookup)
  | .arrive i _ fails => g.lookups ++ (s.flight i).head?.toList.map fun m => (m, g.lookup s fails m)
  | _ => g.lookups

/-- The record after a step. -/
def HandshakeRecord.next (s : HandshakeState) (a : HandshakeAction) (t : HandshakeState)
    (g : HandshakeRecord) : HandshakeRecord where
  stored := g.storedAfter s a
  listed id := g.listed id || s.index.lists id || t.index.lists id
  lookups := g.lookupsAfter s a

/-- The servers, from when nothing was asked for and nothing was sent. -/
def twoServers : System HandshakeState HandshakeAction where
  init s := (serverSystem env plugins).init s.ps ∧ (indexSystem conf ctx).init s.index ∧
    (∀ pid, s.answers pid = none) ∧ ∀ i, s.flight i = []
  step s a t := handshakeStep conf ctx env plugins s a = some t

/-- The servers and the record. -/
def handshakeSystem : System (HandshakeState × HandshakeRecord) HandshakeAction :=
  (twoServers conf ctx env plugins).recorded .empty HandshakeRecord.next

/-! ## What is to hold -/

/-- No message was rejected because its feed was not yet in the table. -/
def NoneEarly (s : HandshakeState × HandshakeRecord) : Prop := ∀ l ∈ s.2.lookups, l.2 ≠ .early

/-- No message to the index server is lost for that: it is on its way, or it was looked up
    when the feed was in the table, or had been. -/
def NoneLost (s : HandshakeState × HandshakeRecord) : Prop :=
  ∀ m ∈ s.1.ps.ps.sent, m.destination = conf.hname →
    (∃ i, m ∈ s.1.flight i) ∨ ∃ o, o ≠ .early ∧ (m, o) ∈ s.2.lookups

/-- The identifier of a feed for the index server was stored. -/
def StoredHere (g : HandshakeRecord) (id destination : Bytes) : Prop :=
  destination = conf.hname → g.stored id = true

/-- The deferred actions of a feed for the index server are only taken when its
    identifier was stored. -/
def BeginsStored (s : HandshakeState × HandshakeRecord) : HandshakeAction → Prop
  | .ps a => BeginsOnly (StoredHere conf s.2) s.1.ps a
  | _ => True

end Handshake

/-! ## Rows of feeds -/

section Rows

variable {conf : FeedingConf} {ctx : IndexContext} {feeds feeds' : FeedsTable}
  {phase phase' : FeederPhase} {a : FeederAction} {f : FeedRow → FeedRow} {fails : Bool}
  {s t : IndexState}

/-- No feed loses its row. -/
def KeepsRows (feeds feeds' : FeedsTable) : Prop :=
  ∀ u, (∃ r ∈ feeds.rows, r.uniqueid = u) → ∃ r ∈ feeds'.rows, r.uniqueid = u

theorem keepsRows_map (hrows : feeds'.rows = feeds.rows.map f)
    (hu : ∀ r, (f r).uniqueid = r.uniqueid) : KeepsRows feeds feeds' := by
  rintro u ⟨r, hr, rfl⟩
  exact ⟨f r, hrows ▸ List.mem_map_of_mem hr, hu r⟩

theorem keepsRows_afterUpdate (hu : ∀ r, (f r).uniqueid = r.uniqueid) :
    KeepsRows feeds (afterUpdate fails f feeds) := by
  rcases @afterUpdate_rows f feeds fails with hrows | heq
  · exact keepsRows_map hrows hu
  · rw [heq]
    exact fun _ h => h

theorem FeederEffect.keepsRows (h : FeederEffect conf feeds phase a feeds' phase') :
    KeepsRows feeds feeds' := by
  cases h with
  | locked h => exact keepsRows_map (updateFeeds_eq_some h).2.2 fun r => r.uniqueid_lock
  | notLocked h =>
    rcases h with rfl | hrows
    · exact fun _ h => h
    · exact keepsRows_map hrows fun r => r.uniqueid_lock
  | init => exact keepsRows_afterUpdate keepsLocks_init.uniqueid
  | unlockFailed => exact keepsRows_afterUpdate fun r => r.uniqueid_unlock
  | unlockDone => exact keepsRows_afterUpdate fun r => r.uniqueid_unlock
  | giveUp => exact keepsRows_afterUpdate keepsLocks_giveUpRow.uniqueid
  | serve => exact keepsRows_afterUpdate keepsLocks_setState.uniqueid
  | _ => exact fun _ h => h

/-- The feed of every feeder has a row. -/
def FoundRows (s : IndexState) : Prop := ∀ pid row, (s.feeders pid).phase.found = some row →
  ∃ r ∈ s.db.feeds.rows, r.uniqueid = row.uniqueid

theorem FoundRows.step {b : IndexAction} (hs : FoundRows s)
    (h : indexStep conf ctx s b = some t) : FoundRows t := by
  cases b with
  | feeder pid b =>
    obtain ⟨feeds, p, hstep, -, rfl⟩ := indexStep_feeder h
    have heff := Feeder.step_effect hstep
    intro qid row hq
    refine heff.keepsRows _ ?_
    change (Function.update s.feeders pid p qid).phase.found = some row at hq
    by_cases hne : qid = pid
    · subst hne
      rw [Function.update_self] at hq
      obtain ⟨hfound, -⟩ | hrow := heff.mem_found hq
      · exact hs qid row hfound
      · exact ⟨row, hrow, rfl⟩
    · rw [Function.update_of_ne hne] at hq
      exact hs qid row hq
  | slave sid b =>
    obtain ⟨db, phase, hstep, rfl⟩ := indexStep_slave h
    intro pid row hp
    obtain ⟨r, hr, hu⟩ := hs pid row hp
    change ∃ r ∈ db.feeds.rows, r.uniqueid = row.uniqueid
    rcases slaveStep_feeds hstep with hsame | ⟨feed, msg, -, -, -, hrows⟩
    · exact ⟨r, hsame ▸ hr, hu⟩
    · exact keepsRows_map hrows (FeedRow.uniqueid_setState _ _) _ ⟨r, hr, hu⟩

theorem lists_iff {id : Bytes} : s.lists id = true ↔ ∃ r ∈ s.db.feeds.rows, r.feedid = some id := by
  simp [IndexState.lists, IndexDb.feed, List.find?_isSome]

/-- An identifier that is stored is in the table then: when that fails, it is there
    for another feed. -/
theorem exists_row_of_initFeed {u : ℕ} {id : Bytes} {expires tnow : ℤ} {status : ℕ}
    (h : ∃ r ∈ feeds.rows, r.uniqueid = u) :
    ∃ r ∈ (initFeed false u id expires tnow status feeds).rows, r.feedid = some id := by
  by_cases hother : ∃ r ∈ feeds.rows, r.feedid = some id
  · obtain ⟨r, hr, hid⟩ := hother
    rcases @afterUpdate_rows (FeedRow.init id (halfway tnow expires) status u) feeds false with
      hrows | heq
    · refine ⟨r.init id (halfway tnow expires) status u, ?_, ?_⟩
      · rw [initFeed, hrows]
        exact List.mem_map_of_mem hr
      · rw [FeedRow.init, FeedRow.at]
        split_ifs
        · rfl
        · exact hid
    · rw [initFeed, heq]
      exact ⟨r, hr, hid⟩
  · -- no other feed has the identifier, so that it can be stored
    let f := FeedRow.init id (halfway tnow expires) status u
    have hkey : ∀ r ∈ feeds.rows, (f r).feedid = some id ↔ r.uniqueid = u := by
      intro r hr
      change (FeedRow.at u _ r).feedid = some id ↔ _
      rw [FeedRow.at]
      split_ifs with hu
      · exact iff_of_true rfl hu
      · exact iff_of_false (fun hid => hother ⟨r, hr, hid⟩) hu
    have hrest : ∀ r, r.uniqueid ≠ u → f r = r := fun r hr => if_neg hr
    have hpair : (feeds.rows.map f).Pairwise fun a b => ¬a.Clash b := by
      refine List.pairwise_map.2 (feeds.pairwise.imp_of_mem fun {a b} ha hb hab hc => hab ?_)
      obtain huid | ⟨hsome, hid⟩ := hc
      · rw [keepsLocks_init.uniqueid, keepsLocks_init.uniqueid] at huid
        exact .inl huid
      · by_cases hau : a.uniqueid = u
        · exact .inl (hau.trans ((hkey b hb).1 (hid ▸ (hkey a ha).2 hau)).symm)
        · have hbu : b.uniqueid ≠ u := fun hbu => hau ((hkey a ha).1 (hid ▸ (hkey b hb).2 hbu))
          rw [hrest a hau] at hsome hid
          rw [hrest b hbu] at hid
          exact .inr ⟨hsome, hid⟩
    have hrows : (initFeed false u id expires tnow status feeds).rows = feeds.rows.map f := by
      rw [initFeed, afterUpdate, updateFeeds, Table.modify, dif_pos hpair]
      rfl
    obtain ⟨r, hr, hu⟩ := h
    exact ⟨f r, hrows ▸ List.mem_map_of_mem hr, (hkey r hr).2 hu⟩

end Rows

/-! ## Steps -/

section Steps

variable {H : Type} {conf : FeedingConf} {ctx : IndexContext} {env : Env}
  {plugins : List (FilePlugin H)} {s t : HandshakeState} {a : HandshakeAction} {m : Sent}
  {g : HandshakeRecord} {i : ℕ}

/-- Only the slaves that serve or do a part of an action send. -/
theorem sent_of_slave_none {s t : ServerState} {b : ServerAction}
    (h : serverStep env plugins s b = some t) (hb : b.slave = none) : t.ps.sent = s.ps.sent := by
  cases serverStep_effect h with
  | starts | startsNot | uploads | refreshes | purges => rfl
  | serves | refuses | execs | execsNot | finishes => cases hb

/-- A request begins nothing. -/
theorem beginsOnly_request {begun : Bytes → Bytes → Prop} {s : ServerState} {i : ℕ} {now : ℤ}
    {r : ServerRequest} : BeginsOnly begun s (.request i now r) :=
  fun _ _ _ _ _ h => nomatch h

theorem psStep_eq_some {b : ServerAction} (h : psStep conf env plugins s b = some t) :
    ∃ ps, serverStep env plugins s.ps b = some ps ∧ t = s.setPs conf b ps := by
  unfold psStep at h
  split_ifs at h
  obtain ⟨ps, hps, rfl⟩ := Option.map_eq_some_iff.1 h
  exact ⟨ps, hps, rfl⟩

section SetPs

variable {b : ServerAction} {ps : ServerState}

theorem HandshakeState.setPs_frame : (s.setPs conf b ps).ps = ps ∧
    (s.setPs conf b ps).index = s.index ∧ (s.setPs conf b ps).answers = s.answers := by
  unfold setPs
  split <;> exact ⟨rfl, rfl, rfl⟩

/-- What is on its way after a step of the primary storage. -/
theorem HandshakeState.mem_flight_setPs : m ∈ (s.setPs conf b ps).flight i ↔
    m ∈ s.flight i ∨ b.slave = some i ∧ m ∈ newMessages conf s.ps ps := by
  unfold setPs
  split
  · rename_i j hj
    rw [hj]
    by_cases hi : i = j
    · subst hi
      simp
    · simp [Function.update_of_ne hi, Ne.symm hi]
  · rename_i hnone
    simp [hnone]

end SetPs

theorem mem_newMessages {s t : ServerState} (h : s.ps.sent <+: t.ps.sent) :
    m ∈ t.ps.sent ↔ m ∈ s.ps.sent ∨ m ∈ t.ps.sent.drop s.ps.sent.length := by
  obtain ⟨new, hnew⟩ := h
  rw [← hnew, List.drop_left, List.mem_append]

/-- What holds when the deferred actions are taken late enough: the messages are for
    feeds whose identifiers were stored, and these were in the table. -/
structure HandshakeTrue (conf : FeedingConf) (s : HandshakeState × HandshakeRecord) : Prop where
  begun : BegunServer (StoredHere conf s.2) [] s.1.ps
  flight : ∀ i, ∀ m ∈ s.1.flight i, m ∈ s.1.ps.ps.sent ∧ m.destination = conf.hname
  found : FoundRows s.1.index
  listed : ∀ id, s.2.stored id = true → s.2.listed id = true
  early : NoneEarly s
  lost : NoneLost conf s

/-- What a step of the primary storage keeps, that is not recorded. -/
theorem HandshakeTrue.psStep {b : ServerAction} (hs : HandshakeTrue conf (s, g))
    (hb : BeginsOnly (StoredHere conf g) s.ps b) (h : psStep conf env plugins s b = some t) :
    HandshakeTrue conf (t, g) := by
  obtain ⟨ps, hstep, rfl⟩ := psStep_eq_some h
  obtain ⟨hps, hindex, -⟩ := @HandshakeState.setPs_frame conf s b ps
  have hmem : ∀ {m : Sent}, m ∈ ps.ps.sent ↔ m ∈ s.ps.ps.sent ∨
      m ∈ ps.ps.sent.drop s.ps.ps.sent.length := mem_newMessages (sent_of_serverStep hstep)
  refine ⟨?_, fun i m hm => ?_, ?_, hs.listed, hs.early, fun m hm hdest => ?_⟩
  · rw [hps]
    exact hs.begun.step hb hstep
  · rw [hps]
    obtain hold | ⟨-, hnew⟩ := HandshakeState.mem_flight_setPs.1 hm
    · obtain ⟨hsent, hdest⟩ := hs.flight i m hold
      exact ⟨hmem.2 (.inl hsent), hdest⟩
    · obtain ⟨hdrop, hdest⟩ := List.mem_filter.1 hnew
      exact ⟨hmem.2 (.inr hdrop), of_decide_eq_true hdest⟩
  · rw [hindex]
    exact hs.found
  · rw [hps] at hm
    obtain hold | hdrop := hmem.1 hm
    · obtain ⟨i, hi⟩ | hlookup := hs.lost m hold hdest
      · exact .inl ⟨i, HandshakeState.mem_flight_setPs.2 (.inl hi)⟩
      · exact .inr hlookup
    · -- a message that is new is on its way
      cases hslave : b.slave with
      | none =>
        rw [sent_of_slave_none hstep hslave, List.drop_length] at hdrop
        cases hdrop
      | some i =>
        exact .inl ⟨i, HandshakeState.mem_flight_setPs.2
          (.inr ⟨hslave, List.mem_filter.2 ⟨hdrop, decide_eq_true hdest⟩⟩)⟩

/-- What was recorded stays recorded. -/
theorem HandshakeRecord.storedAfter_of_stored {id : Bytes} (h : g.stored id = true) :
    g.storedAfter s a id = true := by
  unfold storedAfter
  split
  · rw [h]
    rfl
  · exact h

theorem HandshakeRecord.listed_next {id : Bytes} (h : g.listed id = true) :
    (g.next s a t).listed id = true := by
  change (g.listed id || _ || _) = true
  rw [h]
  rfl

/-- What a step keeps that looks up no message: what it stores is in the table. -/
theorem HandshakeTrue.record (hs : HandshakeTrue conf (t, g))
    (ha : ∀ id, g.storedAfter s a id = g.stored id) (hlookups : g.lookupsAfter s a = g.lookups) :
    HandshakeTrue conf (t, g.next s a t) where
  begun := hs.begun.mono fun id dest h hdest => (ha id).trans (h hdest)
  flight := hs.flight
  found := hs.found
  listed id h := HandshakeRecord.listed_next (hs.listed id ((ha id).symm.trans h))
  early := by
    change ∀ l ∈ g.lookupsAfter s a, l.2 ≠ .early
    rw [hlookups]
    exact hs.early
  lost := by
    change ∀ m ∈ t.ps.ps.sent, m.destination = conf.hname →
      (∃ i, m ∈ t.flight i) ∨ ∃ o, o ≠ .early ∧ (m, o) ∈ g.lookupsAfter s a
    rw [hlookups]
    exact hs.lost

/-- An identifier that a step of a feeder stores is in the table. -/
theorem lists_of_stores {s t : IndexState} {pid : ℕ} {b : FeederAction} {id : Bytes}
    (hs : FoundRows s) (h : indexStep conf ctx s (.feeder pid b) = some t)
    (hid : (s.feeders pid).phase.stores b = some id) : t.lists id = true := by
  obtain ⟨feeds, p, hstep, -, rfl⟩ := indexStep_feeder h
  have heff := Feeder.step_effect hstep
  have hfound := hs pid
  generalize (s.feeders pid).phase = phase at hid heff hfound
  generalize p.phase = phase' at heff
  unfold FeederPhase.stores at hid
  split at hid
  · obtain rfl := Option.some.inj hid
    cases heff
    exact lists_iff.2 (exists_row_of_initFeed (hfound _ rfl))
  · cases hid

/-- What a step of the index server keeps. -/
theorem HandshakeTrue.indexStep {b : IndexAction} {index : IndexState}
    {answers : ℕ → Option (Bytes × ℤ)} (hs : HandshakeTrue conf (s, g))
    (h : indexStep conf ctx s.index b = some index) (ht : t = { s with index, answers })
    (ha : ∀ id, g.storedAfter s a id = true → g.stored id = true ∨ index.lists id = true)
    (hlookups : g.lookupsAfter s a = g.lookups) : HandshakeTrue conf (t, g.next s a t) where
  begun := by
    rw [ht]
    exact hs.begun.mono fun id dest h hdest => HandshakeRecord.storedAfter_of_stored (h hdest)
  flight := by
    rw [ht]
    exact hs.flight
  found := by
    rw [ht]
    exact hs.found.step h
  listed id hid := by
    obtain hold | hnew := ha id hid
    · exact HandshakeRecord.listed_next (hs.listed id hold)
    · change (g.listed id || s.index.lists id || t.index.lists id) = true
      rw [ht, hnew, Bool.or_true]
  early := by
    change ∀ l ∈ g.lookupsAfter s a, l.2 ≠ .early
    rw [hlookups]
    exact hs.early
  lost := by
    change ∀ m ∈ t.ps.ps.sent, m.destination = conf.hname →
      (∃ i, m ∈ t.flight i) ∨ ∃ o, o ≠ .early ∧ (m, o) ∈ g.lookupsAfter s a
    rw [hlookups, ht]
    exact hs.lost

/-- A message that arrives is looked up in time, as its feed has begun. -/
theorem HandshakeTrue.arrive {sid : ℕ} {fails : Statement → Bool} (hs : HandshakeTrue conf (s, g))
    (h : handshakeStep conf ctx env plugins s (.arrive i sid fails) = some t) :
    HandshakeTrue conf (t, g.next s (.arrive i sid fails) t) := by
  rw [handshakeStep] at h
  split at h
  · cases h
  · rename_i m ms hflight
    split_ifs at h
    obtain ⟨index, hindex, rfl⟩ := Option.map_eq_some_iff.1 h
    have hlookups : g.lookupsAfter s (.arrive i sid fails) = g.lookups ++ [(m, g.lookup s fails m)] := by
      rw [HandshakeRecord.lookupsAfter, hflight]
      rfl
    have hhead : m ∈ s.flight i := hflight ▸ List.mem_cons_self
    obtain ⟨hsent, hdest⟩ := hs.flight i m hhead
    have hlisted : g.listed m.msg.feedId = true :=
      hs.listed _ (hs.begun.state.box.sent m hsent hdest)
    have hintime : g.lookup s fails m ≠ .early := by
      unfold HandshakeRecord.lookup
      split_ifs <;> exact nofun
    -- what is on its way was on its way, and stays so but for the one that arrives
    have hold : ∀ {j : ℕ} {m' : Sent}, m' ∈ Function.update s.flight i ms j → m' ∈ s.flight j := by
      intro j m' hm'
      by_cases hj : j = i
      · subst hj
        rw [Function.update_self] at hm'
        exact hflight ▸ List.mem_cons_of_mem _ hm'
      · rwa [Function.update_of_ne hj] at hm'
    have hstays : ∀ {j : ℕ} {m' : Sent}, m' ∈ s.flight j →
        m' = m ∨ m' ∈ Function.update s.flight i ms j := by
      intro j m' hm'
      by_cases hj : j = i
      · subst hj
        rw [Function.update_self]
        exact List.mem_cons.1 (hflight ▸ hm')
      · rw [Function.update_of_ne hj]
        exact .inr hm'
    refine ⟨hs.begun.mono fun _ _ h => h, fun j m' hm' => hs.flight j m' (hold hm'),
      hs.found.step hindex, fun id hid => ?_, ?_, fun m' hm' hdest' => ?_⟩
    · exact HandshakeRecord.listed_next (hs.listed id hid)
    · change ∀ l ∈ g.lookupsAfter s (.arrive i sid fails), l.2 ≠ .early
      rw [hlookups]
      exact List.forall_mem_append.2 ⟨hs.early, List.forall_mem_singleton.2 hintime⟩
    · change _ ∨ ∃ o, o ≠ .early ∧ (m', o) ∈ g.lookupsAfter s (.arrive i sid fails)
      rw [hlookups]
      obtain ⟨j, hj⟩ | ⟨o, ho, hlookup⟩ := hs.lost m' hm' hdest'
      · obtain rfl | hflies := hstays hj
        · exact .inr ⟨_, hintime, List.mem_append_right _ (List.mem_singleton_self _)⟩
        · exact .inl ⟨j, hflies⟩
      · exact .inr ⟨o, ho, List.mem_append_left _ hlookup⟩

theorem HandshakeTrue.step (hs : HandshakeTrue conf (s, g)) (ha : BeginsStored conf (s, g) a)
    (h : handshakeStep conf ctx env plugins s a = some t) : HandshakeTrue conf (t, g.next s a t) := by
  cases a with
  | ps b => exact (hs.psStep ha h).record (fun _ => rfl) rfl
  | answer pid i now buf =>
    rw [handshakeStep] at h
    split at h
    · obtain ⟨t', hstep, h⟩ := Option.bind_eq_some_iff.1 h
      obtain ⟨-, h⟩ := Option.ite_none_right_eq_some.1 h
      obtain rfl := Option.some.inj h
      have ht := hs.psStep beginsOnly_request hstep
      exact HandshakeTrue.record ⟨ht.begun, ht.flight, ht.found, ht.listed, ht.early, ht.lost⟩
        (fun _ => rfl) rfl
    · cases h
  | index b =>
    obtain ⟨index, hindex, rfl⟩ := Option.map_eq_some_iff.1 h
    refine hs.indexStep hindex rfl (fun id hid => ?_) rfl
    cases b with
    | feeder pid c =>
      obtain hold | hnew := Bool.or_eq_true_iff.1 hid
      · exact .inl hold
      · exact .inr (lists_of_stores hs.found hindex (of_decide_eq_true hnew))
    | slave sid c => exact .inl hid
  | receive pid now =>
    obtain ⟨answer, -, h⟩ := Option.bind_eq_some_iff.1 h
    obtain ⟨index, hindex, h⟩ := Option.bind_eq_some_iff.1 h
    obtain rfl := Option.some.inj h
    exact hs.indexStep hindex rfl (fun id hid => .inl hid) rfl
  | arrive i sid fails => exact hs.arrive h

/-- When the deferred actions of a feed are taken after its identifier was stored, no
    message is rejected because the feed is not yet known, and none is lost for that. -/
theorem started_of_reachable {s : HandshakeState × HandshakeRecord}
    (h : (handshakeSystem conf ctx env plugins).Reachable (BeginsStored conf) s) :
    NoneEarly s ∧ NoneLost conf s := by
  have hs : HandshakeTrue conf s := by
    refine h.invariant (I := HandshakeTrue conf) ?_ fun s a t hs ha hstep => ?_
    · rintro ⟨s, g⟩ ⟨⟨⟨hsent, -, hfeeds, hslaves, -⟩, ⟨hfeeders, -⟩, -, hflight⟩, rfl⟩
      refine ⟨⟨⟨⟨?_, List.nil_prefix⟩, ?_⟩, fun i slave hslave => ?_⟩, fun i m hm => ?_,
        fun pid row hrow => ?_, nofun, nofun, fun m hm => ?_⟩
      · rw [hsent]
        exact nofun
      · rw [hfeeds]
        exact nofun
      · exact nomatch (hslaves i).symm.trans hslave
      · rw [hflight] at hm
        cases hm
      · rw [hfeeders] at hrow
        cases hrow
      · rw [hsent] at hm
        cases hm
    · obtain ⟨s, g⟩ := s
      obtain ⟨t, g'⟩ := t
      obtain ⟨hst, hrec⟩ := hstep
      have hg : g' = g.next s a t := hrec
      exact hg ▸ hs.step ha hst
  exact ⟨hs.early, hs.lost⟩

end Steps

/-! ## A feed that starts -/

/-- An index server with a feed of the times of registration of the jobs of alice. -/
def pastFeeding : FeedingConf where
  attrs := [GLITE_JP_ATTR_REGTIME]
  feeds := [⟨[⟨GLITE_JP_ATTR_OWNER, .EQUAL, some (ascii "/CN=alice"), none, false, 0, 0, .any⟩],
    true, true, 1⟩]
  hname := ascii "https://is"

/-- The feed has not been asked for, and the primary storage has a job of alice. -/
def handshakeStart : HandshakeState × HandshakeRecord :=
  (⟨serverStart,
    ⟨{ sampleIndexDb with feeds := sampleFeeds 0 }, fun _ => ⟨.idle, ∅⟩, fun _ => .idle⟩,
    fun _ => none, fun _ => []⟩, .empty)

/-- A feeder asks for the feed, and the primary storage answers. -/
def feedAsked : List HandshakeAction :=
  [.index (.feeder 0 .start), .index (.feeder 0 (.select false 0 0)), .index (.feeder 0 (.lock false)),
    .index (.feeder 0 (.prepare (sampleOutcome true))), .ps (.start 0 100 true),
    .answer 0 0 100 (ascii "feed")]

/-- The answer arrives, and the feeder stores the identifier. -/
def feedStored : List HandshakeAction := [.receive 0 100, .index (.feeder 0 (.init false 100))]

/-- The primary storage sends the job, and its message arrives. -/
def feedSent : List HandshakeAction :=
  List.replicate 3 (.ps (.exec 0 100)) ++ [.arrive 0 0 never]

/-- Whether the identifier of a feed was stored before one of its deferred actions is
    taken in a step. -/
def beginsStored (s : HandshakeState × HandshakeRecord) : HandshakeAction → Bool
  | .ps (.exec i _) =>
    match s.1.ps.slaves i with
    | some ⟨_, .runFeed feed :: _, _⟩ | some ⟨_, .registerFeed feed :: _, _⟩ => s.2.stored feed.id
    | _ => true
  | _ => true

theorem beginsStored_sound {conf : FeedingConf} {s : HandshakeState × HandshakeRecord}
    {a : HandshakeAction} (h : beginsStored s a = true) : BeginsStored conf s a := by
  cases a with
  | ps b =>
    rintro i now feeds task tasks rfl hslave
    simp only [beginsStored, hslave] at h
    cases task with
    | runFeed feed => exact fun _ => h
    | registerFeed feed => exact fun _ => h
    | _ => trivial
  | _ => trivial

/-- A run of the two servers, whose messages are all answered alike. -/
def runHandshake (accepts : Bool) (ok : HandshakeState × HandshakeRecord → HandshakeAction → Prop)
    [∀ s a, Decidable (ok s a)] (actions : List HandshakeAction) :
    Option (HandshakeState × HandshakeRecord) :=
  actions.foldlM (fun s a => if ok s a then
    System.recordedStep HandshakeRecord.next
      (handshakeStep pastFeeding (sampleServer true) (answersEnv accepts)
        ([] : List (FilePlugin Unit))) s a else none) handshakeStart

theorem reachable_runHandshake {accepts : Bool}
    {ok : HandshakeState × HandshakeRecord → HandshakeAction → Prop} [∀ s a, Decidable (ok s a)]
    {actions : List HandshakeAction} {s : HandshakeState × HandshakeRecord}
    (h : runHandshake accepts ok actions = some s) :
    (handshakeSystem pastFeeding (sampleServer true) (answersEnv accepts)
      ([] : List (FilePlugin Unit))).Reachable ok s :=
  ⟨handshakeStart, ⟨⟨serverStart_init, ⟨fun _ => rfl, fun _ => rfl⟩, fun _ => rfl, fun _ => rfl⟩, rfl⟩,
    .of_foldlM (fun _ _ _ => System.recordedStep_eq_some.1) h⟩

theorem stored_run : (runHandshake true (fun s a => beginsStored s a = true)
    (feedAsked ++ feedStored ++ feedSent)).any
      (fun s => s.2.lookups.map (·.2) = [.found]) = true := by
  decide +kernel

theorem early_run : (runHandshake false System.Always (feedAsked ++ feedSent)).any
    (fun s => s.2.lookups.map (·.2) = [.early]) = true := by
  decide +kernel

/-- When the answer is faster than the deferred action, the feed is found. -/
theorem started_of_reachable_sample : ∃ s : HandshakeState × HandshakeRecord,
    s.2.lookups.map (·.2) = [.found] ∧ NoneEarly s ∧ NoneLost pastFeeding s := by
  obtain ⟨s, hrun, hs⟩ := Option.any_eq_true _ _ |>.1 stored_run
  exact ⟨s, of_decide_eq_true hs, started_of_reachable
    ((reachable_runHandshake hrun).mono fun _ _ => beginsStored_sound)⟩

/-- When it is slower, the message is rejected. -/
theorem not_started_sample : ∃ s, (handshakeSystem pastFeeding (sampleServer true)
    (answersEnv false) ([] : List (FilePlugin Unit))).Reachable System.Always s ∧ ¬NoneEarly s := by
  obtain ⟨s, hrun, hs⟩ := Option.any_eq_true _ _ |>.1 early_run
  refine ⟨s, reachable_runHandshake hrun, fun hearly => ?_⟩
  have hmem : Lookup.early ∈ s.2.lookups.map (·.2) := by
    rw [of_decide_eq_true hs]
    exact List.mem_singleton_self _
  obtain ⟨l, hl, hlookup⟩ := List.mem_map.1 hmem
  exact hearly l hl hlookup

end JobProvenance
