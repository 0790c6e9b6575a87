import JobProvenance.Primary.Server

/-!
# What feeds are sent

A feed asks for some attributes, and should be sent these and the owners of the jobs
only. The history and the full records are put together from what the feed asks for; but
what arrived of a job is sent as it is to a feed that has got the job, and so are the
tags of a request for several jobs.

* `Within`: values of attributes that are asked for; `MessageConfined`: a message has
  no others;
* `Task.exec_confined`: what a part of a deferred action sends, when it is not one of
  the two that do not look at what they send;
* `confined_of_reachable`: all messages are confined when these two happen to have
  only what the feed asks for.
-/

namespace JobProvenance

/-! ## Confinement -/

/-- The values are those of some attributes, or of the owner. -/
def Within (names : List Bytes) (attrs : List Attrval) : Prop :=
  ∀ v ∈ attrs, v.name ∈ names ∨ v.name = GLITE_JP_ATTR_OWNER

/-- A message for a feed that was promised has only what was asked for in the request. -/
def MessageConfined (promised : List (Bytes × FeedRequest)) (m : Sent) : Prop :=
  ∃ r, (m.msg.feedId, r) ∈ promised ∧ r.destination = some m.destination ∧
    ∀ jr ∈ m.msg.jobAttributes, ∀ a ∈ jr.attributes,
      a.name ∈ r.attributes ∨ a.name = GLITE_JP_ATTR_OWNER

/-- A feed of some attributes was promised. -/
def Promised (promised : List (Bytes × FeedRequest)) (id destination : Bytes)
    (names : List Bytes) : Prop :=
  ∃ r, (id, r) ∈ promised ∧ r.destination = some destination ∧ ∀ a ∈ names, a ∈ r.attributes

/-- The attributes of a feed of the past that are sent. -/
def HistoryFeed.asked (f : HistoryFeed) : List Bytes := f.metaAttr ++ f.otherAttr.take f.intOtherAttr

/-- What a call of `match_feed` will send is asked for, as far as it is known. What arrived
    of a file need not be. -/
def MatchStep.Confined (names : List Bytes) (file : Bool) : MatchStep → Prop
  | .matching attrs | .checkFed attrs => file = false → Within names attrs
  | .sendFull attrs | .increment attrs => Within names attrs
  | .fullFeed | .setFed => True

/-- The feeds were promised. -/
def AllPromised (promised : List (Bytes × FeedRequest)) (feeds : List Jpfeed) : Prop :=
  ∀ f ∈ feeds, Promised promised f.id f.destination f.attrs

/-- What is left of a deferred action is about feeds that were promised, and what is
    ready to be sent to them is asked for. -/
def Task.Confined (promised : List (Bytes × FeedRequest)) : Task → Prop
  | .runFeed feed | .registerFeed feed => Promised promised feed.id feed.destination feed.attrs
  | .feedRows f stack _ => Promised promised f.id f.destination f.asked ∧
      ∀ attrs ∈ stack.jobAttrs, Within f.asked attrs
  | .matchAttr feeds _ attrs => AllPromised promised feeds ∧ ∃ name, ∀ v ∈ attrs, v.name = name
  | .matchAttrMulti feeds _ | .matchFile feeds _ _ _ | .matchVals feeds _ _ =>
      AllPromised promised feeds
  | .matchFeed feed _ file step => Promised promised feed.id feed.destination feed.attrs ∧
      step.Confined feed.attrs file
  | .matchJobs feed _ matched => Promised promised feed.id feed.destination feed.attrs ∧
      ∀ m ∈ matched, Within feed.attrs m.attrs
  | .markJobs .. | .freed => True

/-- What was sent is confined, and the feeds in the table were promised. -/
structure ConfinedState (env : Env) (promised : List (Bytes × FeedRequest)) (s : PsState) :
    Prop where
  sent : ∀ m ∈ s.sent, MessageConfined promised m
  feeds : ∀ row ∈ s.feeds.rows, ∀ f, readFeed env.escape env.unescape row = .ok f →
    Promised promised f.id f.destination f.attrs

section Messages

variable {promised promised' : List (Bytes × FeedRequest)} {id destination : Bytes}
  {names names' : List Bytes} {attrs : List Attrval}

theorem Within.mono (h : Within names attrs) (hn : ∀ a ∈ names, a ∈ names') :
    Within names' attrs := fun v hv => (h v hv).imp_left (hn _)

theorem Promised.mono (h : Promised promised id destination names)
    (hp : ∀ p ∈ promised, p ∈ promised') : Promised promised' id destination names :=
  let ⟨r, hr, hd, hn⟩ := h
  ⟨r, hp _ hr, hd, hn⟩

theorem MessageConfined.mono {m : Sent} (h : MessageConfined promised m)
    (hp : ∀ p ∈ promised, p ∈ promised') : MessageConfined promised' m :=
  let ⟨r, hr, hd, hn⟩ := h
  ⟨r, hp _ hr, hd, hn⟩

theorem Task.Confined.mono {t : Task} (h : t.Confined promised)
    (hp : ∀ p ∈ promised, p ∈ promised') : t.Confined promised' := by
  cases t with
  | runFeed feed | registerFeed feed => exact Promised.mono h hp
  | feedRows f stack rows => exact ⟨h.1.mono hp, h.2⟩
  | matchAttr feeds job attrs => exact ⟨fun f hf => (h.1 f hf).mono hp, h.2⟩
  | matchAttrMulti feeds jobs => exact fun f hf => (h f hf).mono hp
  | matchFile feeds job cls name => exact fun f hf => (h f hf).mono hp
  | matchVals feeds job vals => exact fun f hf => (h f hf).mono hp
  | matchFeed feed job file step => exact ⟨h.1.mono hp, h.2⟩
  | matchJobs feed jobs matched => exact ⟨h.1.mono hp, h.2⟩
  | markJobs feed matched => trivial
  | freed => trivial

/-- A message of records of values that are asked for. -/
theorem Promised.message {done accepted : Bool} {records : List JobRecord}
    (h : Promised promised id destination names)
    (hr : ∀ jr ∈ records, ∃ job owner attrs, Within names attrs ∧
      jobRecord job owner attrs = .ok jr) :
    MessageConfined promised ⟨destination, ⟨id, done, records⟩, accepted⟩ := by
  obtain ⟨r, hmem, hd, hn⟩ := h
  refine ⟨r, hmem, hd, fun jr hjr a ha => ?_⟩
  obtain ⟨job, owner, attrs, hw, hrec⟩ := hr jr hjr
  obtain ⟨v, hv, hav⟩ := attributes_of_jobRecord hrec a ha
  exact hav ▸ (hw v hv).imp_left (hn _)

/-- One job is sent with values that are asked for. -/
theorem Promised.sends_singleFeed {answers : ℕ → Bool} {done : Bool} {job : Bytes}
    {owner : Option Bytes} (h : Promised promised id destination names) (hw : Within names attrs) :
    Sends (MessageConfined promised) (singleFeed answers id done destination job owner attrs) :=
  JobProvenance.sends_singleFeed fun o _ _ _ hjr =>
    h.message (List.forall_mem_singleton.2 ⟨job, o, attrs, hw, hjr⟩)

/-- Many jobs are. -/
theorem Promised.sends_multiFeed {answers : ℕ → Bool} {done : Bool} {njobs : ℕ}
    {jobs owners : List Bytes} {attrss : List (List Attrval)}
    (h : Promised promised id destination names) (hw : ∀ attrs ∈ attrss, Within names attrs) :
    Sends (MessageConfined promised)
      (multiFeed answers id done njobs destination jobs owners attrss) := by
  refine JobProvenance.sends_multiFeed fun records _ hr => h.message fun jr hjr => ?_
  obtain ⟨job, -, owner, -, attrs, ha, hrec⟩ := mem_of_jobRecords hr jr hjr
  exact ⟨job, owner, attrs, hw attrs ha, hrec⟩

end Messages

/-! ## What is put together from what a feed asks for -/

section Asked

variable {getAttrs : Bytes → List Bytes → Exec (List Attrval)} {feed : Jpfeed} {f : HistoryFeed}
  {job : Bytes} {out : List Attrval}

/-- All that a feed asks for. -/
theorem fullFeed_within {env : Env} {s : PsState}
    (h : fullFeed (JobProvenance.getAttrs env s) feed job = .ok out) : Within feed.attrs out := by
  obtain ⟨attrs, hattrs, h⟩ := Exec.bind_eq_ok.1 h
  obtain ⟨-, rfl⟩ := elements_eq_ok.1 hattrs
  intro v hv
  have hname := name_of_getAttrs h v hv
  split_ifs at hname with howner
  · exact .inl hname
  · exact (List.mem_cons.1 hname).symm

/-- The parts of a feed are its own. -/
theorem splitFeed_asked (h : splitFeed feed = .ok f) :
    f.id = feed.id ∧ f.destination = feed.destination ∧ ∀ a ∈ f.asked, a ∈ feed.attrs := by
  obtain ⟨attrs, hattrs, h⟩ := Exec.bind_eq_ok.1 h
  obtain ⟨-, rfl⟩ := elements_eq_ok.1 hattrs
  obtain ⟨qry, -, h⟩ := Exec.bind_eq_ok.1 h
  dsimp only at h
  split_ifs at h
  obtain rfl := Except.ok.inj h
  refine ⟨rfl, rfl, fun a ha => ?_⟩
  rw [HistoryFeed.asked, List.take_left, List.mem_append] at ha
  exact ha.elim List.mem_of_mem_filter List.mem_of_mem_filter

/-- The values of a history are of attributes that are asked for. -/
theorem extract_within {metadata : List Attrval} {other : Option (List Attrval)}
    (h : extract f metadata other = .ok out) : Within f.asked out := by
  intro v hv
  obtain ⟨w, hw, hcopy⟩ := (Exec.mem_of_mapM h).2 v hv
  rw [name_of_copy hcopy]
  refine .inl (List.mem_append.2 ?_)
  obtain hw | hw := List.mem_append.1 hw
  · obtain ⟨u, -, hu⟩ := List.mem_flatMap.1 hw
    obtain ⟨hcount, rfl⟩ := List.mem_replicate.1 hu
    exact .inl (List.count_pos_iff.1 (Nat.pos_of_ne_zero hcount))
  · obtain ⟨u, -, hu⟩ := List.mem_flatMap.1 hw
    obtain ⟨hcount, rfl⟩ := List.mem_replicate.1 hu
    exact .inr (List.count_pos_iff.1 (Nat.pos_of_ne_zero hcount))

end Asked

/-! ## What calls send -/

section Sends

variable {promised : List (Bytes × FeedRequest)} {f : HistoryFeed} {stack : Stack}

/-- What is stacked is asked for. -/
def Stack.Within (f : HistoryFeed) (stack : Stack) : Prop :=
  ∀ attrs ∈ stack.jobAttrs, JobProvenance.Within f.asked attrs

theorem Stack.Within.push (h : stack.Within f) {job owner : Bytes} {attrs : List Attrval}
    (ha : JobProvenance.Within f.asked attrs) : (stack.push job owner attrs).Within f :=
  List.forall_mem_append.2 ⟨fun as has => h as (List.mem_of_mem_take has),
    List.forall_mem_singleton.2 ha⟩

theorem stackJob_within {job : Bytes} {metadata out : List Attrval} {stack' : Stack}
    (h : stackJob stack job metadata out = .ok stack') (hs : stack.Within f)
    (ho : JobProvenance.Within f.asked out) : stack'.Within f := by
  unfold stackJob at h
  split_ifs at h
  · exact Except.ok.inj h ▸ hs
  · obtain ⟨owner, -, h⟩ := Exec.bind_eq_ok.1 h
    exact Except.ok.inj h ▸ hs.push ho

/-- The stacked jobs are sent with what is asked for. -/
theorem drainFeed_confined {answers : ℕ → Bool} {done : Bool}
    (hf : Promised promised f.id f.destination f.asked) (hs : stack.Within f) :
    Stateful.Yields (fun box : Outbox => ∀ m ∈ box.sent, MessageConfined promised m)
      (fun r => r.2.Within f) (drainFeed answers f stack done) := by
  have hempty : Stack.empty.Within f := nofun
  unfold drainFeed
  split_ifs
  · exact .pure hs
  · refine (Stateful.Keeps.yields (hf.sends_multiFeed hs)).bind fun ret _ => ?_
    split_ifs
    · refine Stateful.Yields.bind (Q := fun _ => True) (Stateful.Keeps.yields ?_) fun _ _ =>
        .pure hempty
      exact .forM (fun i => (Stateful.Keeps.liftM _).bind fun job =>
        Stateful.Keeps.bind (sends_setFed _ _) fun _ => .pure _) _
    · exact .pure hempty

/-- So they are when a job is stacked. -/
theorem feedQueryCallback_confined {answers : ℕ → Bool}
    {getAttrs : Bytes → List Bytes → Exec (List Attrval)} {job : Bytes} {metadata : List Attrval}
    (hf : Promised promised f.id f.destination f.asked) (hs : stack.Within f) :
    Stateful.Yields (fun box : Outbox => ∀ m ∈ box.sent, MessageConfined promised m)
      (fun r => r.2.Within f) (feedQueryCallback answers getAttrs f stack job metadata) := by
  unfold feedQueryCallback
  split
  · exact .pure hs
  · exact .throw _
  · refine (Stateful.Keeps.liftM _).yields.bind fun met _ => ?_
    split_ifs
    · refine (Stateful.Yields.liftM fun out => extract_within).bind fun out hout =>
        (Stateful.Yields.liftM fun stack' h => stackJob_within h hs hout).bind fun stack' hs' => ?_
      unfold drainFull
      split_ifs
      · exact (drainFeed_confined hf hs').bind fun r hr => .pure hr
      · exact .pure hs'
    · exact .pure hs

end Sends

/-! ## The table of feeds -/

section Table

variable {env : Env} {promised : List (Bytes × FeedRequest)} {feed : Jpfeed} {row : FeedsRow}
  {s : PsState}

/-- The feed of a row was promised. -/
def RowPromised (env : Env) (promised : List (Bytes × FeedRequest)) (row : FeedsRow) : Prop :=
  ∀ f, readFeed env.escape env.unescape row = .ok f → Promised promised f.id f.destination f.attrs

/-- When a feed expires does not matter. -/
theorem RowPromised.refresh (h : RowPromised env promised row) (expires : ℤ) :
    RowPromised env promised { row with expires } := by
  intro f hf
  obtain ⟨qry, hqry, hf⟩ := Exec.bind_eq_ok.1 hf
  obtain rfl := Except.ok.inj hf
  exact h ⟨row.feedid, row.destination, row.expires, false, _, qry⟩
    (Exec.bind_eq_ok.2 ⟨qry, hqry, rfl⟩)

/-- A feed that is stored asks for nothing else when it is read. -/
theorem rowPromised_of_feedsRow (hu : IsUlm env.escape env.unescape)
    (hf : Promised promised feed.id feed.destination feed.attrs)
    (h : feedsRow env.escape feed = .ok row) : RowPromised env promised row := by
  intro f hread
  obtain ⟨qry, -, hread⟩ := Exec.bind_eq_ok.1 hread
  obtain rfl := Except.ok.inj hread
  obtain ⟨attrs, ha, h⟩ := Exec.bind_eq_ok.1 h
  obtain ⟨hne, rfl⟩ := elements_eq_ok.1 ha
  obtain ⟨_, -, h⟩ := Exec.bind_eq_ok.1 h
  obtain ⟨_, -, h⟩ := Exec.bind_eq_ok.1 h
  obtain rfl := Except.ok.inj h
  obtain ⟨r, hmem, hd, hn⟩ := hf
  refine ⟨r, hmem, hd, fun a ha => hn a ?_⟩
  have hline : ∀ l ∈ feed.attrs.map env.escape, newline ∉ l := by
    intro l hl
    obtain ⟨b, -, rfl⟩ := List.mem_map.1 hl
    exact hu.newline_notMem b
  rw [(text_of_lines (by simpa using hne)).2, flatMap_strtok hline] at ha
  obtain ⟨l, hl, rfl⟩ := List.mem_map.1 ha
  obtain ⟨b, hb, rfl⟩ := List.mem_map.1 (List.mem_of_mem_filter hl)
  rwa [hu.unescape_escape]

/-- Feeds that expire at other times, or not all of them. -/
theorem ConfinedState.of_feeds (h : ConfinedState env promised s)
    {feeds : Table FeedsRow FeedsRow.Clash} (hf : ∀ row ∈ feeds.rows, RowPromised env promised row) :
    ConfinedState env promised { s with feeds } := ⟨h.sent, hf⟩

theorem registerFeedDeferred_confined (hu : IsUlm env.escape env.unescape) {now : ℤ}
    (hf : Promised promised feed.id feed.destination feed.attrs) :
    Stateful.Keeps (ConfinedState env promised) (registerFeedDeferred env now feed) := by
  intro s hs
  unfold registerFeedDeferred
  split
  · rename_i feeds hstore
    obtain ⟨row, hrow, -, -, hrows⟩ := storeFeed_eq_ok.1 hstore
    refine hs.of_feeds fun r' hr' => ?_
    obtain ⟨r, hr, rfl⟩ := Table.mem_update.1 hr'
    have hold : RowPromised env promised r := by
      rw [hrows] at hr
      obtain hr | hr := List.mem_append.1 hr
      · exact hs.feeds r hr
      · exact List.mem_singleton.1 hr ▸ rowPromised_of_feedsRow hu hf hrow
    unfold FeedsRow.refresh
    split_ifs
    · exact hold.refresh _
    · exact hold
  · exact hs
  · exact hs

end Table

/-! ## What a part of a deferred action sends -/

section Exec

variable {H : Type} {env : Env} {plugins : List (FilePlugin H)}
  {promised : List (Bytes × FeedRequest)} {feed : Jpfeed} {job : Bytes} {file : Bool} {now : ℤ}
  {s : PsState} {t : Task}

theorem yields_sending {α : Type} {Q : α → Prop} {x : Sending α}
    (h : Stateful.Yields (fun box : Outbox => ∀ m ∈ box.sent, MessageConfined promised m) Q x) :
    Stateful.Yields (ConfinedState env promised) Q (liftM x : Serving α) := by
  refine ⟨fun s hs => ?_, fun s hs a t hx => ?_⟩
  · have hsent := h.1 s.toOutbox hs.sent
    rw [sending_apply]
    split <;> rename_i hx <;> rw [hx] at hsent <;> exact ⟨hsent, hs.feeds⟩
  · obtain ⟨box, hbox, -⟩ := sending_eq_ok.1 hx
    exact h.2 s.toOutbox hs.sent a box hbox

theorem keeps_sending {α : Type} {x : Sending α} (h : Sends (MessageConfined promised) x) :
    Stateful.Keeps (ConfinedState env promised) (liftM x : Serving α) :=
  (yields_sending h.yields).1

/-- A step of a call of `match_feed`, but the one that finds that the feed has got the job. -/
theorem MatchStep.exec_confined {step : MatchStep}
    (hf : Promised promised feed.id feed.destination feed.attrs)
    (hstep : step.Confined feed.attrs file)
    (hfile : file = true → ∀ attrs, step ≠ .checkFed attrs) :
    Stateful.Yields (ConfinedState env promised)
      (fun next => ∀ step', next = some step' → step'.Confined feed.attrs file)
      (step.exec env feed job) := by
  cases step with
  | «matching» attrs =>
    refine Stateful.Yields.get.bind fun s _ => (Stateful.Keeps.liftM _).yields.bind fun m _ => ?_
    split_ifs
    · exact .pure fun step' h => Option.some.inj h ▸ hstep
    · exact .pure nofun
  | checkFed attrs =>
    have hfile : file = false := by
      cases file with
      | true => exact absurd rfl (hfile rfl attrs)
      | false => rfl
    refine Stateful.Yields.get.bind fun s _ => (Stateful.Keeps.liftM _).yields.bind fun n _ => ?_
    split_ifs
    · exact .pure fun step' h => Option.some.inj h ▸ trivial
    · exact .pure fun step' h => Option.some.inj h ▸ hstep hfile
  | fullFeed =>
    refine Stateful.Yields.get.bind fun s _ => (Stateful.Yields.liftM fun a h =>
      fullFeed_within (stored_eq_ok.1 h)).bind fun a ha => ?_
    exact .pure fun step' h => Option.some.inj h ▸ ha
  | sendFull a =>
    refine (keeps_sending (hf.sends_singleFeed hstep)).yields.bind fun ret _ => ?_
    split_ifs
    · exact .pure fun step' h => Option.some.inj h ▸ trivial
    · exact .pure nofun
  | setFed =>
    exact (keeps_sending (sends_setFed _ _)).yields.bind fun _ _ => .pure nofun
  | increment attrs =>
    exact Stateful.Yields.get.bind fun s _ => (Stateful.Keeps.liftM _).yields.bind fun owner _ =>
      (keeps_sending (hf.sends_singleFeed hstep)).yields.bind fun _ _ => .pure nofun

/-- What is sent without being looked at is asked for: what arrived of a file for feeds of
    any attributes, when the feed has got the job, and the tags of a job that matches, when
    several jobs were tagged. -/
def Task.OnlyAsked (env : Env) (s : PsState) : Task → Prop
  | .matchFeed feed job true (.checkFed attrs) => Marked s feed job → Within feed.attrs attrs
  | .matchJobs feed ((job, attrs) :: _) _ =>
    isFeedMatching (getAttrs env s) feed job attrs = .ok true → Within feed.attrs attrs
  | _ => True

/-- The step that looks for the mark of a job a file of which arrived. -/
theorem checkFed_confined {attrs : List Attrval}
    (hf : Promised promised feed.id feed.destination feed.attrs)
    (honly : Marked s feed job → Within feed.attrs attrs) :
    Stateful.Yields (· = s) (fun p => ∀ t ∈ p.tasks, t.Confined promised)
      ((Task.matchFeed feed job file (.checkFed attrs)).exec env plugins now) := by
  have hstep : Stateful.Yields (· = s)
      (fun next => ∀ step', next = some step' → step'.Confined feed.attrs file)
      (MatchStep.exec env feed job (.checkFed attrs)) := by
    refine Stateful.Yields.get.bind fun u hu => ?_
    subst hu
    refine (Stateful.Yields.liftM fun n h => stored_eq_ok.1 h).bind fun n hn => ?_
    split_ifs with h0
    · exact .pure fun step' h => Option.some.inj h ▸ trivial
    · exact .pure fun step' h => Option.some.inj h ▸ honly ⟨n, hn, h0⟩
  refine hstep.bind fun next hnext => ?_
  cases next with
  | none => exact .pure nofun
  | some step' => exact .pure (List.forall_mem_singleton.2 ⟨hf, hnext step' rfl⟩)

/-- The part that looks at a job of several. -/
theorem matchJobs_confined {attrs : List Attrval} {jobs : List (Bytes × List Attrval)}
    {matched : List MatchedJob} (hf : Promised promised feed.id feed.destination feed.attrs)
    (hm : ∀ m ∈ matched, Within feed.attrs m.attrs)
    (honly : isFeedMatching (getAttrs env s) feed job attrs = .ok true → Within feed.attrs attrs) :
    Stateful.Yields (· = s) (fun p => ∀ t ∈ p.tasks, t.Confined promised)
      ((Task.matchJobs feed ((job, attrs) :: jobs) matched).exec env plugins now) := by
  refine Stateful.Yields.get.bind fun u hu => ?_
  subst hu
  refine (Stateful.Yields.liftM fun m => id).bind fun m hmatch => ?_
  split_ifs with htrue
  · subst htrue
    refine (Stateful.Keeps.liftM _).yields.bind fun owner _ =>
      (Stateful.Keeps.liftM _).yields.bind fun o _ => .pure (List.forall_mem_singleton.2 ⟨hf, ?_⟩)
    exact List.forall_mem_append.2 ⟨hm, List.forall_mem_singleton.2 (honly hmatch)⟩
  · exact .pure (List.forall_mem_singleton.2 ⟨hf, hm⟩)

/-- A part that only chooses leaves what is about feeds that were promised. -/
theorem Task.Confined.choice {t t' : Task} (ht : t.Confined promised) (h : t.Choice t') :
    t'.Confined promised := by
  cases h with
  | rows hsplit =>
    obtain ⟨hid, hdest, hasked⟩ := splitFeed_asked hsplit
    obtain ⟨r, hr, hd, hn⟩ := ht
    exact ⟨⟨r, hid ▸ hr, hdest ▸ hd, fun a ha => hn a (hasked a ha)⟩, nofun⟩
  | failed => trivial
  | attr hasks =>
    obtain ⟨hfeeds, name, hname⟩ := ht
    refine ⟨(List.forall_mem_cons.1 hfeeds).1, fun _ => ?_⟩
    -- all that arrived is of one name, which the feed asks for
    obtain ⟨n, hn, hany⟩ := List.any_eq_true.1 hasks
    obtain ⟨v, hv, hvn⟩ := List.any_eq_true.1 hany
    obtain rfl : v.name = n := of_decide_eq_true hvn
    exact fun w hw => .inl ((hname w hw).trans (hname v hv).symm ▸ hn)
  | attrs => exact ⟨(List.forall_mem_cons.1 ht.1).2, ht.2⟩
  | jobs | val => exact ⟨(List.forall_mem_cons.1 ht).1, nofun⟩
  | multi | vals => exact (List.forall_mem_cons.1 ht).2
  | file | again => exact ht

/-- The other parts look at what they send. -/
theorem Task.exec_yields (hu : IsUlm env.escape env.unescape) (ht : t.Confined promised)
    (hfed : ∀ feed job attrs, t ≠ .matchFeed feed job true (.checkFed attrs))
    (hjobs : ∀ feed j jobs matched, t ≠ .matchJobs feed (j :: jobs) matched) :
    Stateful.Yields (ConfinedState env promised) (fun p => ∀ t ∈ p.tasks, t.Confined promised)
      (t.exec env plugins now) := by
  have hnil : ∀ t ∈ (Progress.goes []).tasks, Task.Confined promised t := nofun
  have hfreed : ∀ t ∈ (Progress.fails .freed).tasks, Task.Confined promised t :=
    List.forall_mem_singleton.2 trivial
  cases t with
  | runFeed | matchAttr | matchAttrMulti | matchFile | matchVals =>
    exact Task.exec_choice trivial fun t => ht.choice
  | feedRows f stack rows =>
    cases rows with
    | nil =>
      refine (yields_sending (drainFeed_confined ht.1 ht.2)).bind fun r _ => ?_
      obtain ⟨ret, stack'⟩ := r
      cases ret with
      | none => exact .pure hnil
      | some e => exact .pure hfreed
    | cons row rows =>
      refine Stateful.Yields.get.bind fun s _ =>
        (yields_sending (feedQueryCallback_confined ht.1 ht.2)).bind fun r hr => ?_
      obtain ⟨ret, stack'⟩ := r
      cases ret with
      | none => exact .pure (List.forall_mem_singleton.2 ⟨ht.1, hr⟩)
      | some e => exact .pure hfreed
  | registerFeed feed =>
    exact (registerFeedDeferred_confined hu ht).yields.bind fun _ _ => .pure hnil
  | matchFeed feed job file step =>
    refine (MatchStep.exec_confined ht.1 ht.2 ?_).bind fun next hnext => ?_
    · rintro rfl attrs rfl
      exact hfed feed job attrs rfl
    · cases next with
      | none => exact .pure hnil
      | some step' => exact .pure (List.forall_mem_singleton.2 ⟨ht.1, hnext step' rfl⟩)
  | matchJobs feed jobs matched =>
    cases jobs with
    | nil =>
      have hattrs : ∀ attrs ∈ matched.map (·.attrs), Within feed.attrs attrs := by
        intro attrs hattrs
        obtain ⟨m, hm, rfl⟩ := List.mem_map.1 hattrs
        exact ht.2 m hm
      refine (keeps_sending (ht.1.sends_multiFeed hattrs)).yields.bind fun ret _ => ?_
      split_ifs
      · exact .pure (List.forall_mem_singleton.2 trivial)
      · exact .pure hnil
    | cons j jobs => exact absurd rfl (hjobs feed j jobs matched)
  | markJobs feed matched =>
    cases matched with
    | nil => exact .pure hnil
    | cons m matched =>
      refine (Stateful.Keeps.liftM _).yields.bind fun fed _ => ?_
      have hrest : Stateful.Yields (ConfinedState env promised)
          (fun p => ∀ t ∈ p.tasks, t.Confined promised)
          (pure (.goes [.markJobs feed matched]) : Serving Progress) :=
        .pure (List.forall_mem_singleton.2 trivial)
      split_ifs
      · exact (keeps_sending (sends_setFed _ _)).yields.bind fun _ _ => hrest
      · exact hrest
  | freed => exact .throw _

/-- A part of a deferred action sends what feeds ask for, and so will what is left of it. -/
theorem Task.exec_confined (hu : IsUlm env.escape env.unescape) (hs : ConfinedState env promised s)
    (ht : t.Confined promised) (honly : t.OnlyAsked env s) :
    ConfinedState env promised (Stateful.left (t.exec env plugins now s)) ∧
      ∀ p ps, t.exec env plugins now s = .ok p ps → ∀ t' ∈ p.tasks, t'.Confined promised := by
  by_cases hspecial : (∃ feed job attrs, t = .matchFeed feed job true (.checkFed attrs)) ∨
      ∃ feed j jobs matched, t = .matchJobs feed (j :: jobs) matched
  · have hstay : Stateful.Yields (· = s) (fun p => ∀ t ∈ p.tasks, t.Confined promised)
        (t.exec env plugins now) := by
      obtain ⟨feed, job, attrs, rfl⟩ | ⟨feed, ⟨job, attrs⟩, jobs, matched, rfl⟩ := hspecial
      · exact checkFed_confined ht.1 honly
      · exact matchJobs_confined ht.1 ht.2 honly
    exact ⟨(hstay.1 s rfl).symm ▸ hs, fun p ps h => hstay.2 s rfl p ps h⟩
  · rw [not_or] at hspecial
    have hyields := @Task.exec_yields H env plugins promised now t hu ht
      (fun feed job attrs h => hspecial.1 ⟨feed, job, attrs, h⟩)
      fun feed j jobs matched h => hspecial.2 ⟨feed, j, jobs, matched, h⟩
    exact ⟨hyields.1 s hs, fun p ps h => hyields.2 s hs p ps h⟩

end Exec

/-! ## Runs -/

section Runs

variable {H : Type} {env : Env} {plugins : List (FilePlugin H)} {s t : ServerState}
  {a : ServerAction}

/-- The part of a deferred action that is done next sends only what is asked for. -/
def OnlyAsked (env : Env) (s : ServerState) (a : ServerAction) : Prop :=
  ∀ i now feeds task tasks, a = .exec i now → s.slaves i = some ⟨feeds, task :: tasks, true⟩ →
    task.OnlyAsked env s.ps

/-- What a run keeps when only what is asked for is sent. -/
structure Confined (env : Env) (s : ServerState) : Prop where
  state : ConfinedState env s.promised s.ps
  slaves : s.All (fun f => Promised s.promised f.id f.destination f.attrs)
    (Task.Confined s.promised)

/-- What a request defers is about feeds that are promised. -/
theorem DeferredBy.confined {promised : List (Bytes × FeedRequest)} {feeds : List Jpfeed} {now : ℤ}
    {r : ServerRequest} {task : Task} (h : DeferredBy env feeds now r task)
    (hfeeds : AllPromised promised feeds) (hr : ∀ p ∈ r.promise env, p ∈ promised) :
    task.Confined promised := by
  have hmade : ∀ {destination : Bytes} {qry : List QueryRec} {expires : ℤ} {feed : Jpfeed}
      {buf : Bytes} {fr : FeedRequest}, (env.md5 buf, fr) ∈ promised →
      fr.destination = some destination →
      makeJpfeed destination fr.attributes qry (env.md5 buf) expires = .ok feed →
        Promised promised feed.id feed.destination feed.attrs := by
    intro destination qry expires feed buf fr hmem hd hmake
    obtain ⟨_, -, hmake⟩ := Exec.bind_eq_ok.1 hmake
    obtain rfl := Except.ok.inj hmake
    exact ⟨fr, hmem, hd, fun _ ha => ha⟩
  have hone : ∀ {v : Attrval} {attrs : List Attrval}, matchAttr [v] = .ok attrs →
      ∃ name, ∀ w ∈ attrs, w.name = name := by
    intro v attrs hattrs
    refine ⟨v.name, fun w hw => ?_⟩
    obtain ⟨u, hu, hkeep⟩ := (Exec.mem_of_mapM hattrs).2 w hw
    obtain ⟨_, -, hkeep⟩ := Exec.bind_eq_ok.1 hkeep
    rw [← Except.ok.inj hkeep, List.mem_singleton.1 hu]
  cases h with
  | registerJob hattrs => exact ⟨hfeeds, hone hattrs⟩
  | recordTag _ hattrs => exact ⟨hfeeds, hone hattrs⟩
  | recordMultiTags => exact hfeeds
  | commitUpload => exact hfeeds
  | history hd _ hmake =>
    have hpromised := hmade (hr _ (List.mem_singleton_self _)) hd hmake
    exact hpromised
  | continuous hd _ hmake => exact hmade (hr _ (List.mem_singleton_self _)) hd hmake

/-- The feeds a slave loads were promised. -/
theorem promised_of_loadedFeeds {promised : List (Bytes × FeedRequest)} {ps : PsState}
    {feeds : List Jpfeed} {now : ℤ} {purged : Bool} (hs : ConfinedState env promised ps)
    (h : loadedFeeds env now purged ps = .ok feeds) : AllPromised promised feeds := by
  unfold loadedFeeds at h
  split_ifs at h
  · intro f hf
    obtain ⟨row, hrow, hread⟩ := (readFeeds_eq_ok h).2 f hf
    exact hs.feeds row hrow f hread
  · exact Except.ok.inj h ▸ nofun

/-- Every step that sends only what is asked for keeps it. -/
theorem Confined.step (hu : IsUlm env.escape env.unescape) (hs : Confined env s)
    (honly : OnlyAsked env s a) (h : serverStep env plugins s a = some t) : Confined env t := by
  obtain ⟨hstate, hslaves⟩ := hs
  cases serverStep_effect h with
  | starts hload =>
    refine ⟨hstate, hslaves.set fun sl hsl => ?_⟩
    exact Option.some.inj hsl ▸ ⟨promised_of_loadedFeeds hstate hload, nofun⟩
  | startsNot => exact ⟨hstate, hslaves.set nofun⟩
  | @serves i now r feeds tasks new ps hslave hserve =>
    obtain ⟨⟨hbox, htable⟩, hnew⟩ := ServerRequest.serve_eq_ok hserve
    obtain ⟨hfeeds, htasks⟩ := hslaves i _ hslave
    have hold : ∀ p ∈ s.promised, p ∈ s.promised ++ r.promise env :=
      fun p => List.mem_append_left _
    refine ⟨⟨fun m hm => ?_, fun row hrow f hf => ?_⟩,
      ServerState.All.set (s := { s with promised := s.promised ++ r.promise env })
        (hslaves.mono (fun f hf => hf.mono hold) fun t ht => ht.mono hold) fun sl hsl => ?_⟩
    · exact (hstate.sent m ((congrArg Outbox.sent hbox) ▸ hm)).mono hold
    · exact (hstate.feeds row (htable ▸ hrow) f hf).mono hold
    · -- what is left to be sent is for the feeds the slave knows, or for the one it promises
      obtain rfl := Option.some.inj hsl
      have hfeeds' : AllPromised (s.promised ++ r.promise env) feeds :=
        fun f hf => (hfeeds f hf).mono hold
      refine ⟨hfeeds', List.forall_mem_append.2 ⟨fun t ht => (htasks t ht).mono hold, ?_⟩⟩
      exact fun t ht => (hnew t ht).confined hfeeds' fun p => List.mem_append_right _
  | @refuses i now r slave slave' ps hslave hslave' hserve =>
    have hleft := @ServerRequest.serve_left env slave.feeds now r s.ps
    rw [hserve] at hleft
    obtain ⟨hbox, htable⟩ := hleft
    refine ⟨⟨fun m hm => ?_, fun row hrow => ?_⟩, hslaves.set fun sl hsl => ?_⟩
    · exact hstate.sent m ((congrArg Outbox.sent hbox) ▸ hm)
    · exact hstate.feeds row (htable ▸ hrow)
    · obtain rfl | rfl := hslave'
      · cases hsl
      · exact Option.some.inj hsl ▸ hslaves i slave hslave
  | @execs i now feeds task tasks p ps busy hslave hexec =>
    obtain ⟨hfeeds, htasks⟩ := hslaves i _ hslave
    obtain ⟨htask, hrest⟩ := List.forall_mem_cons.1 htasks
    -- the part that is done sends what is confined, and leaves such parts in front of the rest
    obtain ⟨hleft, hnew⟩ := @Task.exec_confined H env plugins s.promised now s.ps task hu hstate htask
      (honly i now feeds task tasks rfl hslave)
    rw [hexec] at hleft
    refine ⟨hleft, hslaves.set fun sl hsl => ?_⟩
    obtain rfl := Option.some.inj hsl
    exact ⟨hfeeds, List.forall_mem_append.2 ⟨hnew p ps hexec, hrest⟩⟩
  | @execsNot i now feeds task tasks e ps hslave hexec =>
    obtain ⟨htask, -⟩ := List.forall_mem_cons.1 (hslaves i _ hslave).2
    have hleft := (@Task.exec_confined H env plugins s.promised now s.ps task hu hstate htask
      (honly i now feeds task tasks rfl hslave)).1
    rw [hexec] at hleft
    exact ⟨hleft, hslaves.set nofun⟩
  | @finishes i now feeds hslave =>
    refine ⟨hstate, hslaves.set fun sl hsl => ?_⟩
    obtain rfl := Option.some.inj hsl
    exact ⟨(hslaves i _ hslave).1, nofun⟩
  | uploads => exact ⟨⟨hstate.sent, hstate.feeds⟩, hslaves⟩
  | @refreshes cond expires =>
    refine ⟨hstate.of_feeds fun r' hr' => ?_, hslaves⟩
    obtain ⟨r, hr, rfl⟩ := mem_refreshRows.1 hr'
    unfold refreshRow
    split_ifs
    · exact RowPromised.refresh (hstate.feeds r hr) _
    · exact hstate.feeds r hr
  | purges =>
    exact ⟨⟨hstate.sent, fun row hrow => hstate.feeds row (Table.mem_delete.1 hrow).1⟩, hslaves⟩

/-- A feed is sent only what it asks for and the owners of jobs, when the parts of the
    deferred actions that do not look at what they send send only that. -/
theorem confined_of_reachable (hu : IsUlm env.escape env.unescape)
    (h : (serverSystem env plugins).Reachable (OnlyAsked env) s) :
    ∀ m ∈ s.ps.sent, MessageConfined s.promised m := by
  refine (h.invariant (I := Confined env) ?_ fun s a t hs honly hstep =>
    hs.step hu honly hstep).state.sent
  rintro s ⟨hsent, -, hfeeds, hslaves, -⟩
  refine ⟨⟨by simp [hsent], ?_⟩, fun i slave hslave => nomatch (hslaves i).symm.trans hslave⟩
  rw [hfeeds]
  exact nofun

end Runs

/-! ## Tags of a job -/

/-- A request for the colors of the jobs of alice, from now on. -/
def colorRequest : FeedRequest where
  destination := some (ascii "https://jpis")
  attributes := [ascii "urn:app:color"]
  conditions := [⟨GLITE_JP_ATTR_OWNER, .EQUAL, none, some (.string (ascii "/CN=alice")), none⟩]
  history := false
  continuous := true

/-- A storage with a job of alice. -/
def serverStart : ServerState := ⟨oneJobState .empty, fun _ => none, []⟩

/-- A slave registers the feed, and another one loads it. -/
def colorFeedActions : List ServerAction :=
  [.start 0 100 true, .request 0 100 (.feedIndex (ascii "feed") colorRequest), .exec 0 100,
    .start 1 101 true]

/-- Whether a part of a deferred action looks at what it sends. -/
def Task.looks : Task → Bool
  | .matchFeed _ _ true (.checkFed _) | .matchJobs _ (_ :: _) _ => false
  | _ => true

/-- Whether the part that is done next does. -/
def looks (s : ServerState) : ServerAction → Bool
  | .exec i _ => ((s.slaves i).map fun slave => slave.tasks.all Task.looks).getD true
  | _ => true

theorem onlyAsked_of_looks {env : Env} {s : ServerState} {a : ServerAction} (h : looks s a = true) :
    OnlyAsked env s a := by
  rintro i now feeds task tasks rfl hslave
  simp only [looks, hslave, Option.map_some, Option.getD_some, List.all_cons, Bool.and_eq_true] at h
  unfold Task.OnlyAsked
  split
  · exact absurd h.1 Bool.false_ne_true
  · exact absurd h.1 Bool.false_ne_true
  · trivial

/-- The color of the job is recorded, and matched until it is sent. -/
def recordTagActions : List ServerAction :=
  colorFeedActions ++ .request 1 101 (.recordTag alice lateJob.dgJobid redTag) ::
    List.replicate 5 (.exec 1 101)

theorem recordTag_run :
    (recordTagActions.foldlM
      (fun s a => if looks s a then serverStep sampleEnv ([] : List (FilePlugin Unit)) s a else none)
        serverStart).any (fun s => s.ps.sent.length = 1) = true := by
  decide +kernel

/-- The names of the attributes that were sent. -/
def sentNames (s : ServerState) : List Bytes :=
  s.ps.sent.flatMap fun m => m.msg.jobAttributes.flatMap fun jr => jr.attributes.map (·.name)

/-- Another tag of the job. -/
def squareTag : SoapTag := ⟨ascii "urn:app:shape", some (.string (ascii "square"))⟩

/-- The color and the shape of the job are recorded in one request, and sent. -/
def recordMultiTagsActions : List ServerAction :=
  colorFeedActions ++
    .request 1 101 (.recordMultiTags alice [(lateJob.dgJobid, [redTag, squareTag])]) ::
      List.replicate 3 (.exec 1 101)

theorem recordMultiTags_run :
    (recordMultiTagsActions.foldlM
      (fun s a => if System.Always s a then serverStep sampleEnv ([] : List (FilePlugin Unit)) s a
        else none) serverStart).any (fun s => squareTag.name ∈ sentNames s ∧
          ∀ p ∈ s.promised, squareTag.name ∉ p.2.attributes) = true := by
  decide +kernel

theorem serverStart_init : (serverSystem sampleEnv ([] : List (FilePlugin Unit))).init serverStart :=
  ⟨rfl, rfl, rfl, fun _ => rfl, rfl⟩

/-- A tag is sent to the feed that asks for it. -/
theorem confined_of_reachable_sample : ∃ s : ServerState, s.ps.sent.length = 1 ∧
    ∀ m ∈ s.ps.sent, MessageConfined s.promised m := by
  obtain ⟨s, hrun, hs⟩ := Option.any_eq_true _ _ |>.1 recordTag_run
  have hreach : (serverSystem sampleEnv ([] : List (FilePlugin Unit))).Reachable
      (fun s a => looks s a = true) s :=
    ⟨_, serverStart_init, .of_foldlM (fun _ _ _ h => h) hrun⟩
  exact ⟨s, of_decide_eq_true hs,
    confined_of_reachable isUlm_escapeULM (hreach.mono fun _ _ => onlyAsked_of_looks)⟩

/-- Two tags of a job are both sent to a feed that asks for one of them. -/
theorem not_confined_sample : ∃ s,
    (serverSystem sampleEnv ([] : List (FilePlugin Unit))).Reachable System.Always s ∧
      ∃ m ∈ s.ps.sent, ¬MessageConfined s.promised m := by
  obtain ⟨s, hrun, hs⟩ := Option.any_eq_true _ _ |>.1 recordMultiTags_run
  obtain ⟨hsent, hasked⟩ := of_decide_eq_true hs
  obtain ⟨m, hm, hname⟩ := List.mem_flatMap.1 hsent
  obtain ⟨jr, hjr, hname⟩ := List.mem_flatMap.1 hname
  obtain ⟨a, ha, hname⟩ := List.mem_map.1 hname
  refine ⟨s, ⟨_, serverStart_init, .of_foldlM (fun _ _ _ h => h) hrun⟩, m, hm, ?_⟩
  rintro ⟨r, hr, -, hall⟩
  obtain h | h := hall jr hjr a ha
  · exact hasked _ hr (hname ▸ h)
  · exact absurd (hname.symm.trans h) (by decide)

end JobProvenance
