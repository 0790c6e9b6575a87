import JobProvenance.Primary.Confinement

/-!
# Feeds that have begun

Until the first of its deferred actions is taken, a primary storage knows a feed by
these actions only: there is no message for it, it is not in the table, and no slave
has loaded it.

* `BegunServer`: the feeds that are known otherwise are among those that have begun;
* `BegunServer.step`: they stay so as long as the deferred actions of no other feed
  are taken;
* `sent_of_serverStep`: what has been sent stays sent.
-/

namespace JobProvenance

/-- What is left of a deferred action is about feeds that have begun, or it is all of it. -/
def Task.Begun (begun : Bytes → Bytes → Prop) : Task → Prop
  | .runFeed _ | .registerFeed _ | .markJobs _ _ | .freed => True
  | .feedRows f _ _ => begun f.id f.destination
  | .matchAttr feeds _ _ | .matchAttrMulti feeds _ | .matchFile feeds _ _ _
  | .matchVals feeds _ _ => ∀ f ∈ feeds, begun f.id f.destination
  | .matchFeed feed _ _ _ | .matchJobs feed _ _ => begun feed.id feed.destination

/-- A deferred action of a feed is about one that has begun. -/
def Task.Begins (begun : Bytes → Bytes → Prop) : Task → Prop
  | .runFeed feed | .registerFeed feed => begun feed.id feed.destination
  | _ => True

/-- The messages are about feeds that have begun, and some are the first of them. -/
structure BegunBox (begun : Bytes → Bytes → Prop) (old : List Sent) (box : Outbox) : Prop where
  sent : ∀ m ∈ box.sent, begun m.msg.feedId m.destination
  kept : old <+: box.sent

/-- The table is about feeds that have begun, too. -/
structure BegunState (begun : Bytes → Bytes → Prop) (old : List Sent) (s : PsState) : Prop where
  box : BegunBox begun old s.toOutbox
  feeds : ∀ row ∈ s.feeds.rows, begun row.feedid row.destination

/-- So are the slaves. -/
structure BegunServer (begun : Bytes → Bytes → Prop) (old : List Sent) (s : ServerState) : Prop where
  state : BegunState begun old s.ps
  slaves : s.All (fun f => begun f.id f.destination) (Task.Begun begun)

/-- A deferred action of a feed is only taken when the feed is one of those that
    have begun. -/
def BeginsOnly (begun : Bytes → Bytes → Prop) (s : ServerState) (a : ServerAction) : Prop :=
  ∀ i now feeds task tasks, a = .exec i now → s.slaves i = some ⟨feeds, task :: tasks, true⟩ →
    task.Begins begun

section Begun

variable {H : Type} {env : Env} {plugins : List (FilePlugin H)} {begun begun' : Bytes → Bytes → Prop}
  {feed : Jpfeed} {f : HistoryFeed} {stack : Stack} {job : Bytes} {now : ℤ} {ps : PsState} {t : Task}
  {answers : ℕ → Bool} {done : Bool} {old : List Sent} {destination : Bytes}

theorem Task.Begun.mono (h : t.Begun begun) (hb : ∀ id dest, begun id dest → begun' id dest) :
    t.Begun begun' := by
  cases t with
  | runFeed | registerFeed | markJobs | freed => trivial
  | feedRows f stack rows => exact hb _ _ h
  | matchAttr feeds job attrs => exact fun f hf => hb _ _ (h f hf)
  | matchAttrMulti feeds jobs => exact fun f hf => hb _ _ (h f hf)
  | matchFile feeds job cls name => exact fun f hf => hb _ _ (h f hf)
  | matchVals feeds job vals => exact fun f hf => hb _ _ (h f hf)
  | matchFeed feed job file step => exact hb _ _ h
  | matchJobs feed jobs matched => exact hb _ _ h

theorem Task.begun_of_forall (h : ∀ id dest, begun id dest) : t.Begun begun := by
  cases t with
  | runFeed | registerFeed | markJobs | freed => trivial
  | feedRows f stack rows => exact h _ _
  | matchAttr feeds job attrs => exact fun f _ => h _ _
  | matchAttrMulti feeds jobs => exact fun f _ => h _ _
  | matchFile feeds job cls name => exact fun f _ => h _ _
  | matchVals feeds job vals => exact fun f _ => h _ _
  | matchFeed feed job file step => exact h _ _
  | matchJobs feed jobs matched => exact h _ _

theorem BegunServer.mono {s : ServerState} (h : BegunServer begun old s)
    (hb : ∀ id dest, begun id dest → begun' id dest) : BegunServer begun' old s where
  state := ⟨⟨fun m hm => hb _ _ (h.state.box.sent m hm), h.state.box.kept⟩,
    fun row hr => hb _ _ (h.state.feeds row hr)⟩
  slaves := h.slaves.mono (fun _ => hb _ _) fun _ ht => ht.mono hb

/-! ## What is sent -/

theorem keeps_begun_sendUpdateJobs {msg : UpdateJobs} (h : begun msg.feedId destination) :
    Stateful.Keeps (BegunBox begun old) (sendUpdateJobs answers destination msg) := fun _ hbox =>
  ⟨List.forall_mem_append.2 ⟨hbox.sent, List.forall_mem_singleton.2 h⟩,
    hbox.kept.trans (List.prefix_append _ _)⟩

theorem keeps_begun_setFed {id : Bytes} : Stateful.Keeps (BegunBox begun old) (setFed id job) := by
  intro box hbox
  have hsent := setFed_keeps_sent box.sent id job box rfl
  exact ⟨hsent ▸ hbox.sent, hsent ▸ hbox.kept⟩

theorem keeps_begun_singleFeed {owner : Option Bytes} {attrs : List Attrval} {id : Bytes}
    (h : begun id destination) : Stateful.Keeps (BegunBox begun old)
      (singleFeed answers id done destination job owner attrs) :=
  keeps_singleFeed fun _ => keeps_begun_sendUpdateJobs h

theorem keeps_begun_multiFeed {njobs : ℕ} {jobs owners : List Bytes} {attrs : List (List Attrval)}
    {id : Bytes} (h : begun id destination) : Stateful.Keeps (BegunBox begun old)
      (multiFeed answers id done njobs destination jobs owners attrs) :=
  keeps_multiFeed fun _ => keeps_begun_sendUpdateJobs h

theorem keeps_begun_drainFeed (h : begun f.id f.destination) :
    Stateful.Keeps (BegunBox begun old) (drainFeed answers f stack done) :=
  keeps_drainFeed (fun _ _ => keeps_begun_sendUpdateJobs h) fun _ => keeps_begun_setFed

theorem keeps_begun_feedQueryCallback {getAttrs : Bytes → List Bytes → Exec (List Attrval)}
    {metadata : List Attrval} (h : begun f.id f.destination) :
    Stateful.Keeps (BegunBox begun old)
      (feedQueryCallback answers getAttrs f stack job metadata) :=
  keeps_feedQueryCallback (fun _ _ => keeps_begun_sendUpdateJobs h) fun _ => keeps_begun_setFed

/-- A call that only sends leaves the table alone. -/
theorem keeps_begun_sending {α : Type} {x : Sending α} (h : Stateful.Keeps (BegunBox begun old) x) :
    Stateful.Keeps (BegunState begun old) (liftM x : Serving α) := by
  intro s hs
  have hbox := h s.toOutbox hs.box
  rw [sending_apply]
  split <;> rename_i hx <;> rw [hx] at hbox <;> exact ⟨hbox, hs.feeds⟩

theorem MatchStep.exec_begun {step : MatchStep} (h : begun feed.id feed.destination) :
    Stateful.Keeps (BegunState begun old) (step.exec env feed job) := by
  cases step with
  | «matching» attrs =>
    refine Stateful.Keeps.bind (fun _ h => h) fun s => (Stateful.Keeps.liftM _).bind fun m => ?_
    split_ifs <;> exact .pure _
  | checkFed attrs =>
    refine Stateful.Keeps.bind (fun _ h => h) fun s => (Stateful.Keeps.liftM _).bind fun n => ?_
    split_ifs <;> exact .pure _
  | fullFeed =>
    exact Stateful.Keeps.bind (fun _ h => h) fun s => (Stateful.Keeps.liftM _).bind fun a => .pure _
  | sendFull a =>
    refine (keeps_begun_sending (keeps_begun_singleFeed h)).bind fun ret => ?_
    split_ifs <;> exact .pure _
  | setFed => exact (keeps_begun_sending keeps_begun_setFed).bind fun _ => .pure _
  | increment attrs =>
    exact Stateful.Keeps.bind (fun _ h => h) fun s => (Stateful.Keeps.liftM _).bind fun owner =>
      (keeps_begun_sending (keeps_begun_singleFeed h)).bind fun _ => .pure _

/-! ## The table of feeds -/

theorem keys_of_feedsRow {row : FeedsRow} (h : feedsRow env.escape feed = .ok row) :
    row.feedid = feed.id ∧ row.destination = feed.destination := by
  obtain ⟨_, -, h⟩ := Exec.bind_eq_ok.1 h
  obtain ⟨_, -, h⟩ := Exec.bind_eq_ok.1 h
  obtain ⟨_, -, h⟩ := Exec.bind_eq_ok.1 h
  exact Except.ok.inj h ▸ ⟨rfl, rfl⟩

/-- When a feed expires does not matter. -/
theorem keys_refreshRow (id : Bytes) (expires : ℤ) (r : FeedsRow) :
    (r.refresh id expires).feedid = r.feedid ∧ (r.refresh id expires).destination = r.destination := by
  unfold FeedsRow.refresh
  split_ifs <;> exact ⟨rfl, rfl⟩

/-- What is in the table when a feed has been registered was there before, or is the feed. -/
theorem keeps_keys_registerFeed {box : Outbox} (h : begun feed.id feed.destination) :
    Stateful.Keeps (fun s : PsState => s.toOutbox = box ∧
      ∀ row ∈ s.feeds.rows, begun row.feedid row.destination)
        (registerFeedDeferred env now feed) := by
  rintro s ⟨hbox, hfeeds⟩
  unfold registerFeedDeferred
  split
  · rename_i feeds hstore
    obtain ⟨row, hrow, -, -, hrows⟩ := storeFeed_eq_ok.1 hstore
    suffices hnew : ∀ r ∈ (refreshFeed feeds feed.id (now + FEED_TTL)).rows,
        begun r.feedid r.destination from ⟨hbox, hnew⟩
    intro r' hr'
    obtain ⟨r, hr, rfl⟩ := Table.mem_update.1 hr'
    obtain ⟨hid, hdest⟩ := keys_refreshRow feed.id (now + FEED_TTL) r
    rw [hid, hdest]
    rw [hrows] at hr
    obtain hr | hr := List.mem_append.1 hr
    · exact hfeeds r hr
    · obtain ⟨hid, hdest⟩ := keys_of_feedsRow hrow
      rwa [List.mem_singleton.1 hr, hid, hdest]
  · exact ⟨hbox, hfeeds⟩
  · exact ⟨hbox, hfeeds⟩

theorem keeps_begun_registerFeed (h : begun feed.id feed.destination) :
    Stateful.Keeps (BegunState begun old) (registerFeedDeferred env now feed) := by
  intro s hs
  obtain ⟨hbox, hfeeds⟩ := @keeps_keys_registerFeed env begun feed now s.toOutbox h s ⟨rfl, hs.feeds⟩
  exact ⟨hbox ▸ hs.box, hfeeds⟩

/-- The feeds a slave loads are in the table. -/
theorem begun_of_loadedFeeds {feeds : List Jpfeed} {purged : Bool}
    (hs : ∀ row ∈ ps.feeds.rows, begun row.feedid row.destination)
    (h : loadedFeeds env now purged ps = .ok feeds) : ∀ f ∈ feeds, begun f.id f.destination := by
  unfold loadedFeeds at h
  split_ifs at h
  · intro f hf
    obtain ⟨row, hrow, hread⟩ := (readFeeds_eq_ok h).2 f hf
    obtain ⟨hid, hdest⟩ := readFeed_id hread
    rw [hid, hdest]
    exact hs row hrow
  · exact Except.ok.inj h ▸ nofun

/-! ## Parts of deferred actions -/

/-- A part that only chooses leaves what is about feeds that have begun. -/
theorem Task.Begun.choice {t' : Task} (ht : t.Begun begun) (hb : t.Begins begun)
    (h : t.Choice t') : t'.Begun begun := by
  cases h with
  | rows hsplit =>
    obtain ⟨hid, hdest, -⟩ := splitFeed_asked hsplit
    rw [Task.Begun, hid, hdest]
    exact hb
  | failed => trivial
  | attr | jobs | val => exact (List.forall_mem_cons.1 ht).1
  | attrs | multi | vals => exact (List.forall_mem_cons.1 ht).2
  | file | again => exact ht

theorem Task.exec_begun (ht : t.Begun begun) (hb : t.Begins begun) :
    Stateful.Yields (BegunState begun old) (fun p => ∀ t ∈ p.tasks, t.Begun begun)
      (t.exec env plugins now) := by
  have hnil : ∀ t ∈ (Progress.goes []).tasks, Task.Begun begun t := nofun
  have hfreed : ∀ t ∈ (Progress.fails .freed).tasks, Task.Begun begun t :=
    List.forall_mem_singleton.2 trivial
  cases t with
  | runFeed | matchAttr | matchAttrMulti | matchFile | matchVals =>
    exact Task.exec_choice trivial fun t => ht.choice hb
  | feedRows f stack rows =>
    cases rows with
    | nil =>
      refine (keeps_begun_sending (keeps_begun_drainFeed ht)).yields.bind fun r _ => ?_
      obtain ⟨ret, stack'⟩ := r
      cases ret with
      | none => exact .pure hnil
      | some e => exact .pure hfreed
    | cons row rows =>
      obtain ⟨job, metadata⟩ := row
      refine Stateful.Yields.get.bind fun s _ =>
        (keeps_begun_sending (keeps_begun_feedQueryCallback ht)).yields.bind fun r _ => ?_
      obtain ⟨ret, stack'⟩ := r
      cases ret with
      | none => exact .pure (List.forall_mem_singleton.2 ht)
      | some e => exact .pure hfreed
  | registerFeed feed => exact (keeps_begun_registerFeed hb).yields.bind fun _ _ => .pure hnil
  | matchFeed feed job file step =>
    refine (MatchStep.exec_begun ht).yields.bind fun next _ => ?_
    cases next with
    | none => exact .pure hnil
    | some step' => exact .pure (List.forall_mem_singleton.2 ht)
  | matchJobs feed jobs matched =>
    cases jobs with
    | nil =>
      refine (keeps_begun_sending (keeps_begun_multiFeed ht)).yields.bind fun ret _ => ?_
      split_ifs
      · exact .pure (List.forall_mem_singleton.2 trivial)
      · exact .pure hnil
    | cons j jobs =>
      obtain ⟨job, attrs⟩ := j
      refine Stateful.Yields.get.bind fun s _ => (Stateful.Keeps.liftM _).yields.bind fun m _ => ?_
      split_ifs
      · exact (Stateful.Keeps.liftM _).yields.bind fun owner _ =>
          (Stateful.Keeps.liftM _).yields.bind fun o _ => .pure (List.forall_mem_singleton.2 ht)
      · exact .pure (List.forall_mem_singleton.2 ht)
  | markJobs feed matched =>
    cases matched with
    | nil => exact .pure hnil
    | cons m matched =>
      refine (Stateful.Keeps.liftM _).yields.bind fun k _ => ?_
      have hgo : Stateful.Yields (BegunState begun old) (fun p => ∀ t ∈ p.tasks, t.Begun begun)
          (pure (.goes [.markJobs feed matched]) : Serving Progress) :=
        .pure (List.forall_mem_singleton.2 trivial)
      split_ifs
      · exact (keeps_begun_sending keeps_begun_setFed).yields.bind fun _ _ => hgo
      · exact hgo
  | freed => exact .throw _

/-- What a request defers is not begun. -/
theorem DeferredBy.notBegun {feeds : List Jpfeed} {r : ServerRequest}
    (h : DeferredBy env feeds now r t) (hfeeds : ∀ f ∈ feeds, begun f.id f.destination) :
    t.Begun begun := by
  cases h with
  | registerJob => exact hfeeds
  | recordTag => exact hfeeds
  | recordMultiTags => exact hfeeds
  | commitUpload => exact hfeeds
  | history => trivial
  | continuous => trivial

/-! ## Steps -/

/-- One of the slaves has changed. -/
theorem BegunServer.set {s : ServerState} (hs : BegunServer begun old s) {i : ℕ}
    {slave : Option Slave} (hstate : BegunState begun old ps)
    (hslave : ∀ sl, slave = some sl → (∀ f ∈ sl.feeds, begun f.id f.destination) ∧
      ∀ t ∈ sl.tasks, t.Begun begun) : BegunServer begun old (s.set ps i slave) :=
  ⟨hstate, hs.slaves.set hslave⟩

theorem BegunServer.step {s t : ServerState} {a : ServerAction} (hs : BegunServer begun old s)
    (hb : BeginsOnly begun s a) (h : serverStep env plugins s a = some t) :
    BegunServer begun old t := by
  cases serverStep_effect h with
  | starts hload =>
    exact hs.set hs.state fun sl hsl =>
      Option.some.inj hsl ▸ ⟨begun_of_loadedFeeds hs.state.feeds hload, nofun⟩
  | startsNot => exact hs.set hs.state nofun
  | @serves i now r feeds tasks new ps hslave hserve =>
    obtain ⟨⟨hbox, htable⟩, hnew⟩ := ServerRequest.serve_eq_ok hserve
    obtain ⟨hfeeds, htasks⟩ := hs.slaves i _ hslave
    have hset : BegunServer begun old (s.set ps i (some ⟨feeds, tasks ++ new, true⟩)) :=
      hs.set ⟨hbox ▸ hs.state.box, htable ▸ hs.state.feeds⟩ fun sl hsl => Option.some.inj hsl ▸
        ⟨hfeeds, List.forall_mem_append.2 ⟨htasks, fun t ht => (hnew t ht).notBegun hfeeds⟩⟩
    exact ⟨hset.state, hset.slaves⟩
  | @refuses i now r slave slave' ps hslave hslave' hserve =>
    have hleft := @ServerRequest.serve_left env slave.feeds now r s.ps
    rw [hserve] at hleft
    obtain ⟨hbox, htable⟩ := hleft
    refine hs.set ⟨hbox ▸ hs.state.box, htable ▸ hs.state.feeds⟩ fun sl hsl => ?_
    obtain rfl | rfl := hslave'
    · cases hsl
    · exact Option.some.inj hsl ▸ hs.slaves i slave hslave
  | @execs i now feeds task tasks p ps busy hslave hexec =>
    obtain ⟨hfeeds, htasks⟩ := hs.slaves i _ hslave
    obtain ⟨htask, hrest⟩ := List.forall_mem_cons.1 htasks
    have hyields := @Task.exec_begun H env plugins begun now task old htask
      (hb i now feeds task tasks rfl hslave)
    have hleft := hyields.1 s.ps hs.state
    rw [hexec] at hleft
    exact hs.set hleft fun sl hsl => Option.some.inj hsl ▸
      ⟨hfeeds, List.forall_mem_append.2 ⟨hyields.2 s.ps hs.state p ps hexec, hrest⟩⟩
  | @execsNot i now feeds task tasks e ps hslave hexec =>
    obtain ⟨htask, -⟩ := List.forall_mem_cons.1 (hs.slaves i _ hslave).2
    have hleft := (@Task.exec_begun H env plugins begun now task old htask
      (hb i now feeds task tasks rfl hslave)).1 s.ps hs.state
    rw [hexec] at hleft
    exact hs.set hleft nofun
  | @finishes i now feeds hslave =>
    exact hs.set hs.state fun sl hsl => Option.some.inj hsl ▸ ⟨(hs.slaves i _ hslave).1, nofun⟩
  | uploads => exact ⟨⟨⟨hs.state.box.sent, hs.state.box.kept⟩, hs.state.feeds⟩, hs.slaves⟩
  | @refreshes cond expires =>
    refine ⟨⟨hs.state.box, fun r' hr' => ?_⟩, hs.slaves⟩
    obtain ⟨r, hr, rfl⟩ := mem_refreshRows.1 hr'
    unfold refreshRow
    split_ifs <;> exact hs.state.feeds r hr
  | purges =>
    exact ⟨⟨⟨hs.state.box.sent, hs.state.box.kept⟩,
      fun row hrow => hs.state.feeds row (Table.mem_delete.1 hrow).1⟩, hs.slaves⟩

/-- The messages that were sent before a step are the first of those after it. -/
theorem sent_of_serverStep {s t : ServerState} {a : ServerAction}
    (h : serverStep env plugins s a = some t) : s.ps.sent <+: t.ps.sent := by
  have hall : BegunServer (fun _ _ => True) s.ps.sent s :=
    ⟨⟨⟨fun _ _ => trivial, List.prefix_refl _⟩, fun _ _ => trivial⟩, fun _ _ _ =>
      ⟨fun _ _ => trivial, fun _ _ => Task.begun_of_forall fun _ _ => trivial⟩⟩
  refine (hall.step (fun i now feeds task tasks _ _ => ?_) h).state.box.kept
  cases task <;> trivial

end Begun

end JobProvenance
