import JobProvenance.Primary.Requests

/-!
# Feeding jobs as they change

When a job is registered or tagged, a slave feeds it to the feeds it has loaded.
A feed whose conditions the job meets now and did not meet before should get it.

* `matchFeed_cases`: what is done for a feed, `matchFeed_eq_ok`: what is sent;
* `matchAttrDeferred_eq_ok`: which feeds are sent the job;
* `delivered_iff_noticed`: whether those that should get the job do, which is
  when they ask for something that arrived and what is looked at tells it.
-/

namespace JobProvenance

section Match

variable {env : Env} {s s' : PsState} {feed : Jpfeed} {job : Bytes} {attrs : List Attrval}

/-- How a job that was not fed yet is fed: with all the feed asks for, and marked when
    that was accepted. -/
def FedInFull (env : Env) (feed : Jpfeed) (job : Bytes) (s : PsState) (s' : PsState)
    (msgs : List Sent) : Prop :=
  ∃ a owner jr ret box, fullFeed (getAttrs env s) feed job = .ok a ∧
    (a.find? (·.name = GLITE_JP_ATTR_OWNER)).map (·.value) = some owner ∧
    jobRecord job owner a = .ok jr ∧
    Attempted env.answers feed.destination ⟨feed.id, false, [jr]⟩ ret s.toOutbox box msgs ∧
    (ret = none → ∃ r box', setFed feed.id job box = .ok r box' ∧ s' = { s with toOutbox := box' }) ∧
    (ret ≠ none → s' = { s with toOutbox := box })

/-- How a job that was fed already is fed: with what arrived. -/
def FedAgain (env : Env) (feed : Jpfeed) (job : Bytes) (attrs : List Attrval) (s s' : PsState)
    (msgs : List Sent) : Prop :=
  ∃ owner jr ret box, ownerOf s job = .ok (some owner) ∧ jobRecord job owner attrs = .ok jr ∧
    Attempted env.answers feed.destination ⟨feed.id, false, [jr]⟩ ret s.toOutbox box msgs ∧
    s' = { s with toOutbox := box }

/-- What is done for a feed. -/
theorem matchFeed_cases (h : matchFeed env feed job attrs s = .ok () s') :
    isFeedMatching (getAttrs env s) feed job attrs = .ok false ∧ s' = s ∨
      isFeedMatching (getAttrs env s) feed job attrs = .ok true ∧ ∃ fed msgs,
        checkFed s.fed feed.id job = .ok fed ∧
          (fed = 0 ∧ FedInFull env feed job s s' msgs ∨
            fed ≠ 0 ∧ FedAgain env feed job attrs s s' msgs) := by
  obtain ⟨t, t', ht, h⟩ := Stateful.bind_eq_ok.1 h
  obtain ⟨rfl, rfl⟩ := EStateM.Result.ok.inj ht
  obtain ⟨b, t', ht, h⟩ := Stateful.bind_eq_ok.1 h
  obtain ⟨hb, rfl⟩ := Stateful.liftM_eq_ok.1 ht
  cases b with
  | false => exact .inl ⟨hb, (Stateful.pure_eq_ok.1 h).2.symm⟩
  | true =>
    refine .inr ⟨hb, ?_⟩
    obtain ⟨fed, t', ht, h⟩ := Stateful.bind_eq_ok.1 h
    obtain ⟨hfed, rfl⟩ := Stateful.liftM_eq_ok.1 ht
    dsimp only at h
    split_ifs at h with h0
    · obtain ⟨a, t', ht, h⟩ := Stateful.bind_eq_ok.1 h
      obtain ⟨ha, rfl⟩ := Stateful.liftM_eq_ok.1 ht
      obtain ⟨ret, t', ht, h⟩ := Stateful.bind_eq_ok.1 h
      obtain ⟨box, hbox, rfl⟩ := sending_eq_ok.1 ht
      obtain ⟨owner, jr, msgs, howner, hjr, hatt⟩ := singleFeed_eq_ok hbox
      refine ⟨fed, msgs, stored_eq_ok.1 hfed, .inl ⟨h0, a, owner, jr, ret, box, stored_eq_ok.1 ha,
        howner, hjr, hatt, fun hret => ?_, fun hret => ?_⟩⟩
      · rw [if_pos hret] at h
        obtain ⟨r, t', ht, h⟩ := Stateful.bind_eq_ok.1 h
        obtain ⟨box', hbox', rfl⟩ := sending_eq_ok.1 ht
        exact ⟨r, box', hbox', (Stateful.pure_eq_ok.1 h).2.symm⟩
      · rw [if_neg hret] at h
        exact (Stateful.pure_eq_ok.1 h).2.symm
    · obtain ⟨owner, t', ht, h⟩ := Stateful.bind_eq_ok.1 h
      obtain ⟨ho, rfl⟩ := Stateful.liftM_eq_ok.1 ht
      obtain ⟨ret, t', ht, hend⟩ := Stateful.bind_eq_ok.1 h
      obtain ⟨box, hbox, rfl⟩ := sending_eq_ok.1 ht
      obtain ⟨owner, jr, msgs, rfl, hjr, hatt⟩ := singleFeed_eq_ok hbox
      exact ⟨fed, msgs, stored_eq_ok.1 hfed, .inr ⟨h0, owner, jr, ret, box, ho, hjr, hatt,
        (Stateful.pure_eq_ok.1 hend).2.symm⟩⟩

/-! ## Deliveries -/

/-- A message hands a job to a feed. -/
structure IsDelivery (feed : Jpfeed) (job : Bytes) (m : Sent) : Prop where
  destination : m.destination = feed.destination
  feedId : m.msg.feedId = feed.id
  jobid : ∃ r ∈ m.msg.jobAttributes, r.jobid = some job

/-- A job was handed to a feed, and accepted. -/
def Delivered (sent : List Sent) (feed : Jpfeed) (job : Bytes) : Prop :=
  ∃ m ∈ sent, IsDelivery feed job m ∧ m.accepted = true

theorem Attempted.isDelivery {owner : Bytes} {a : List Attrval} {jr : JobRecord} {ret : Ret}
    {box box' : Outbox} {msgs : List Sent} (hjr : jobRecord job owner a = .ok jr)
    (h : Attempted env.answers feed.destination ⟨feed.id, false, [jr]⟩ ret box box' msgs) :
    ∀ m ∈ msgs, IsDelivery feed job m ∧ ∃ n, m.accepted = env.answers n := by
  intro m hm
  obtain ⟨hdest, hmsg, hacc⟩ := h.same m hm
  have hfeed : m.msg.feedId = feed.id := by rw [hmsg]
  have hjob : ∃ r ∈ m.msg.jobAttributes, r.jobid = some job :=
    ⟨jr, by rw [hmsg]; exact List.mem_singleton_self jr, jobid_of_jobRecord hjr⟩
  exact ⟨⟨hdest, hfeed, hjob⟩, hacc⟩

/-- What is sent for a feed: the job, when it meets the conditions. -/
structure Matched (env : Env) (feed : Jpfeed) (job : Bytes) (attrs : List Attrval) (s s' : PsState)
    (msgs : List Sent) : Prop where
  state_eq : s' = { s with toOutbox := s'.toOutbox }
  sent_eq : s'.sent = s.sent ++ msgs
  deliveries : ∀ m ∈ msgs, IsDelivery feed job m ∧ ∃ n, m.accepted = env.answers n
  matching : ∃ b, isFeedMatching (getAttrs env s) feed job attrs = .ok b ∧ (b = true ↔ msgs ≠ [])

theorem matchFeed_eq_ok (h : matchFeed env feed job attrs s = .ok () s') :
    ∃ msgs, Matched env feed job attrs s s' msgs := by
  obtain ⟨hb, rfl⟩ | ⟨hb, fed, msgs, -, ⟨-, hfull⟩ | ⟨-, hagain⟩⟩ := matchFeed_cases h
  · exact ⟨[], rfl, (List.append_nil _).symm, by simp, false, hb, by simp⟩
  · obtain ⟨a, owner, jr, ret, box, -, -, hjr, hatt, hnone, hsome⟩ := hfull
    refine ⟨msgs, ?_⟩
    have hsent : s' = { s with toOutbox := s'.toOutbox } ∧ s'.sent = s.sent ++ msgs := by
      by_cases hret : ret = none
      · -- the mark sends nothing
        obtain ⟨r, box', hset, rfl⟩ := hnone hret
        have hkeep := setFed_keeps_sent box.sent feed.id job box rfl
        rw [hset, Stateful.left_ok, hatt.box_eq] at hkeep
        exact ⟨rfl, hkeep⟩
      · obtain rfl := hsome hret
        exact ⟨rfl, by rw [hatt.box_eq]⟩
    exact ⟨hsent.1, hsent.2, hatt.isDelivery hjr, true, hb, by simp [hatt.ne_nil]⟩
  · obtain ⟨owner, jr, ret, box, -, hjr, hatt, rfl⟩ := hagain
    exact ⟨msgs, rfl, by rw [hatt.box_eq], hatt.isDelivery hjr, true, hb, by simp [hatt.ne_nil]⟩

end Match

/-! ## All feeds -/

section Feeds

variable {env : Env} {ctx : PsContext} {now : ℤ} {s s₁ s₂ : PsState} {feeds : List Jpfeed}
  {feed : Jpfeed} {job owner : Bytes} {tag : SoapTag} {attrs : List Attrval}

/-- Whether a feed is sent a job of which something arrived. -/
def Feeds (env : Env) (s : PsState) (job : Bytes) (attrs : List Attrval) (feed : Jpfeed) : Prop :=
  asksFor feed.attrs attrs = true ∧ isFeedMatching (getAttrs env s) feed job attrs = .ok true

/-- The job goes to the feeds that ask for what arrived and match it, and to no others. -/
theorem matchAttrDeferred_eq_ok (h : matchAttrDeferred env feeds job attrs s = .ok () s₂) :
    ∃ msgs, s₂.sent = s.sent ++ msgs ∧
      (∀ f ∈ feeds, asksFor f.attrs attrs = true →
        ∃ b, isFeedMatching (getAttrs env s) f job attrs = .ok b) ∧
      (∀ f ∈ feeds, Feeds env s job attrs f →
        ∃ m ∈ msgs, IsDelivery f job m ∧ ∃ n, m.accepted = env.answers n) ∧
      ∀ m ∈ msgs, ∃ f ∈ feeds, Feeds env s job attrs f ∧ m.msg.feedId = f.id := by
  unfold matchAttrDeferred at h
  induction feeds generalizing s with
  | nil =>
    obtain ⟨-, rfl⟩ := Stateful.pure_eq_ok.1 h
    exact ⟨[], (List.append_nil _).symm, by simp, by simp, by simp⟩
  | cons f feeds ih =>
    obtain ⟨⟨⟩, t, ht, hrest⟩ := Stateful.bind_eq_ok.1 h
    obtain ⟨names, t', hn, ht⟩ := Stateful.bind_eq_ok.1 ht
    obtain ⟨hnames, rfl⟩ := Stateful.liftM_eq_ok.1 hn
    obtain ⟨-, rfl⟩ := elements_eq_ok.1 hnames
    split_ifs at ht with hasks
    · obtain ⟨msgs₁, hm⟩ := matchFeed_eq_ok ht
      obtain ⟨b, hb, hmsgs⟩ := hm.matching
      obtain ⟨msgs, hsent, hret, hto, hfrom⟩ := ih hrest
      -- the messages change none of the values the next feeds are compared with
      have hget : getAttrs env t = getAttrs env s := by rw [hm.state_eq]; rfl
      rw [hget] at hret
      have hfeeds : Feeds env t job attrs = Feeds env s job attrs := by
        funext f
        rw [Feeds, hget, Feeds]
      rw [hfeeds] at hto hfrom
      refine ⟨msgs₁ ++ msgs, ?_, ?_, ?_, ?_⟩
      · rw [hsent, hm.sent_eq, List.append_assoc]
      · exact List.forall_mem_cons.2 ⟨fun _ => ⟨b, hb⟩, hret⟩
      · refine List.forall_mem_cons.2 ⟨fun hf => ?_, fun g hg hf => ?_⟩
        · obtain ⟨m, hmem⟩ := List.exists_mem_of_ne_nil _ (hmsgs.1 (Except.ok.inj (hb.symm.trans hf.2)))
          exact ⟨m, List.mem_append_left _ hmem, hm.deliveries m hmem⟩
        · obtain ⟨m, hmem, hd⟩ := hto g hg hf
          exact ⟨m, List.mem_append_right _ hmem, hd⟩
      · refine List.forall_mem_append.2 ⟨fun m hmem => ?_, fun m hmem => ?_⟩
        · have htrue : b = true := hmsgs.2 (List.ne_nil_of_mem hmem)
          exact ⟨f, List.mem_cons_self, ⟨hasks, htrue ▸ hb⟩, (hm.deliveries m hmem).1.feedId⟩
        · obtain ⟨g, hg, hf⟩ := hfrom m hmem
          exact ⟨g, List.mem_cons_of_mem _ hg, hf⟩
    · obtain ⟨-, rfl⟩ := Stateful.pure_eq_ok.1 ht
      obtain ⟨msgs, hsent, hret, hto, hfrom⟩ := ih hrest
      refine ⟨msgs, hsent, ?_, ?_, fun m hmem => ?_⟩
      · exact List.forall_mem_cons.2 ⟨fun h => absurd h hasks, hret⟩
      · exact List.forall_mem_cons.2 ⟨fun hf => absurd hf.1 hasks, hto⟩
      · obtain ⟨g, hg, hf⟩ := hfrom m hmem
        exact ⟨g, List.mem_cons_of_mem _ hg, hf⟩

/-! ## New jobs -/

/-- A value meets a condition; of some conditions it is enough that there is one. -/
def QueryRec.MetBy (qr : QueryRec) (v : Attrval) : Prop :=
  if qr.op = .EXISTS then qr.attr = v.name ∧ (qr.origin = .any ∨ qr.origin = v.origin)
  else checkQryItem qr v = .ok true

/-- A job meets the conditions of a feed. -/
def MeetsQuery (env : Env) (s : PsState) (feed : Jpfeed) (job : Bytes) : Prop :=
  ∀ qr ∈ feed.qry, ∃ v ∈ valuesOf env s job qr.attr, qr.MetBy v

/-- A job meets the conditions of a feed now, and did not before. -/
def NewlyMeets (env : Env) (s s₁ : PsState) (feed : Jpfeed) (job : Bytes) : Prop :=
  MeetsQuery env s₁ feed job ∧ ¬MeetsQuery env s feed job

/-- What the matching looks at is enough to find that a job meets the conditions of a
    feed: the feed asks for something that arrived, and of each attribute under a
    condition the first value, or the one that arrived, meets it. -/
def Noticed (env : Env) (s : PsState) (job : Bytes) (attrs : List Attrval) (feed : Jpfeed) : Prop :=
  asksFor feed.attrs attrs = true ∧ ∀ qr ∈ feed.qry, ∃ v,
    lookedAt env s job attrs qr.attr = some v ∧ checkQryItem qr v = .ok true

/-- A request registers or tags a job, and something is left to be matched. -/
inductive Changes (env : Env) (job : Bytes) (attrs : List Attrval) (s s₁ : PsState) : Prop
  | register (ctx : PsContext) (now : ℤ) (owner : Bytes)
      (h : serveRegisterJob env ctx now job owner s = .ok (some [.matchAttr job attrs]) s₁)
  | tag (ctx : PsContext) (now : ℤ) (tag : SoapTag)
      (h : serveRecordTag env ctx now job tag s = .ok (some [.matchAttr job attrs]) s₁)

/-- A request sends nothing. -/
theorem Changes.sent_eq (h : Changes env job attrs s s₁) : s₁.sent = s.sent := by
  have hreg : ∀ ctx now owner, Stateful.Keeps (·.sent = s.sent)
      (serveRegisterJob env ctx now job owner) := fun ctx now owner =>
    (Stateful.Keeps.liftM _).bind fun
      | true => (keeps_jppsbeRegisterJob fun _ _ h => h).bind fun
        | some _ => .pure _
        | none => (Stateful.Keeps.liftM _).bind fun _ => .pure _
      | false => .pure _
  have htag : ∀ ctx now tag, Stateful.Keeps (·.sent = s.sent)
      (serveRecordTag env ctx now job tag) := fun ctx now tag =>
    Stateful.Keeps.bind (fun _ h => h) fun t => (Stateful.Keeps.liftM _).bind fun
      | none => .pure _
      | some _ => (Stateful.Keeps.liftM _).bind fun _ =>
        (keeps_jppsbeAppendTags fun _ _ h => h).bind fun
          | some _ => .pure _
          | none => (Stateful.Keeps.liftM _).bind fun _ => .pure _
  cases h with
  | register ctx now owner h =>
    have hkeep := hreg ctx now owner s rfl
    rwa [h] at hkeep
  | tag ctx now tag h =>
    have hkeep := htag ctx now tag s rfl
    rwa [h] at hkeep

/-- The feeds that are loaded have identifiers of their own. -/
theorem eq_of_id {table : Table FeedsRow FeedsRow.Clash} {f g : Jpfeed}
    (h : readFeeds env.escape env.unescape now table = .ok feeds) (hf : f ∈ feeds) (hg : g ∈ feeds)
    (hid : f.id = g.id) : f = g := by
  obtain ⟨-, hrow⟩ := readFeeds_eq_ok h
  obtain ⟨r, hr, hrf⟩ := hrow f hf
  obtain ⟨r', hr', hrg⟩ := hrow g hg
  have hclash : r.Clash r' := by
    rw [FeedsRow.Clash, ← (readFeed_id hrf).1, ← (readFeed_id hrg).1, hid]
  obtain rfl := Table.eq_of_clash hr hr' hclash
  exact Except.ok.inj (hrf.symm.trans hrg)

/-- A job that newly meets the conditions of a feed is delivered to it exactly when it was
    before or the matching notices it. -/
theorem delivered_iff_noticed {table : Table FeedsRow FeedsRow.Clash}
    (hload : readFeeds env.escape env.unescape now table = .ok feeds)
    (hans : ∀ n, env.answers n = true) (hc : Changes env job attrs s s₁)
    (hrun : matchAttrDeferred env feeds job attrs s₁ = .ok () s₂) :
    (∀ f ∈ feeds, NewlyMeets env s s₁ f job → Delivered s₂.sent f job) ↔
      ∀ f ∈ feeds, NewlyMeets env s s₁ f job →
        Delivered s.sent f job ∨ Noticed env s₁ job attrs f := by
  obtain ⟨msgs, hsent, hret, hto, hfrom⟩ := matchAttrDeferred_eq_ok hrun
  rw [hsent, hc.sent_eq]
  refine forall₂_congr fun f hf => forall_congr' fun hnew => ?_
  -- the job has a value under each condition, so one of each is looked at
  have hfeeds : Noticed env s₁ job attrs f ↔ Feeds env s₁ job attrs f := by
    refine and_congr_right fun hasks => ?_
    obtain ⟨b, hb⟩ := hret f hf hasks
    have hvalues : ∀ qr ∈ f.qry, valuesOf env s₁ job qr.attr ≠ [] := by
      intro qr hqr
      obtain ⟨v, hv, -⟩ := hnew.1 qr hqr
      exact List.ne_nil_of_mem hv
    rw [← isFeedMatching_eq_true hb hvalues, hb, Except.ok.injEq]
  rw [hfeeds]
  constructor
  · rintro ⟨m, hm, hd, hacc⟩
    rcases List.mem_append.1 hm with hm | hm
    · exact .inl ⟨m, hm, hd, hacc⟩
    · obtain ⟨g, hg, hmatch, hid⟩ := hfrom m hm
      exact .inr (eq_of_id hload hf hg (hd.feedId.symm.trans hid) ▸ hmatch)
  · rintro (⟨m, hm, hd, hacc⟩ | hmatch)
    · exact ⟨m, List.mem_append_left _ hm, hd, hacc⟩
    · obtain ⟨m, hm, hd, n, hacc⟩ := hto f hf hmatch
      exact ⟨m, List.mem_append_right _ hm, hd, hacc.trans (hans n)⟩

end Feeds

/-! ## Two feeds -/

/-- A feed of the jobs of alice, asking for an attribute. -/
def aliceFeed (attr : Bytes) : Jpfeed where
  id := ascii "feed"
  destination := ascii "https://jpis"
  expires := 360
  continuous := false
  attrs := [attr]
  qry := [{ QueryRec.zero GLITE_JP_ATTR_OWNER with op := .EQUAL, value := some (ascii "/CN=alice") }]

/-- The table with that feed. -/
def aliceFeeds (attr : Bytes) : Table FeedsRow FeedsRow.Clash :=
  ⟨[⟨ascii "feed", ascii "https://jpis", 360, attr,
    GLITE_JP_ATTR_OWNER ++ newline :: ch '=' :: newline :: ascii "/CN=alice"⟩],
    List.pairwise_singleton _ _⟩

/-- A storage without jobs. -/
def emptyState (feeds : Table FeedsRow FeedsRow.Clash) : PsState where
  sent := []
  fed := .empty
  tables := ⟨.empty, .empty, .empty⟩
  disk _ := none
  feeds := feeds

/-- The client that registers jobs. -/
def lbServer : PsContext := ⟨some (ascii "/CN=lb"), false, [ascii "/CN=lb"]⟩

/-- A job of alice is registered, and then matched. -/
theorem exists_run_alice : ∃ attrs s₁ s₂,
    serveRegisterJob sampleEnv lbServer 100 sampleJob.dgJobid (ascii "/CN=alice")
      (emptyState (aliceFeeds GLITE_JP_ATTR_OWNER)) =
        .ok (some [.matchAttr sampleJob.dgJobid attrs]) s₁ ∧
    matchAttrDeferred sampleEnv [aliceFeed GLITE_JP_ATTR_OWNER] sampleJob.dgJobid attrs s₁ =
      .ok () s₂ := ⟨_, _, _, rfl, rfl⟩

theorem delivered_iff_noticed_alice : ∃ attrs s₁ s₂,
    serveRegisterJob sampleEnv lbServer 100 sampleJob.dgJobid (ascii "/CN=alice")
      (emptyState (aliceFeeds GLITE_JP_ATTR_OWNER)) =
        .ok (some [.matchAttr sampleJob.dgJobid attrs]) s₁ ∧
    matchAttrDeferred sampleEnv [aliceFeed GLITE_JP_ATTR_OWNER] sampleJob.dgJobid attrs s₁ =
      .ok () s₂ ∧
    ((∀ f ∈ [aliceFeed GLITE_JP_ATTR_OWNER],
      NewlyMeets sampleEnv (emptyState (aliceFeeds GLITE_JP_ATTR_OWNER)) s₁ f sampleJob.dgJobid →
        Delivered s₂.sent f sampleJob.dgJobid) ↔
      ∀ f ∈ [aliceFeed GLITE_JP_ATTR_OWNER],
        NewlyMeets sampleEnv (emptyState (aliceFeeds GLITE_JP_ATTR_OWNER)) s₁ f sampleJob.dgJobid →
          Delivered (emptyState (aliceFeeds GLITE_JP_ATTR_OWNER)).sent f sampleJob.dgJobid ∨
            Noticed sampleEnv s₁ sampleJob.dgJobid attrs f) := by
  obtain ⟨attrs, s₁, s₂, hserve, hrun⟩ := exists_run_alice
  have hload : readFeeds sampleEnv.escape sampleEnv.unescape 100
      (aliceFeeds GLITE_JP_ATTR_OWNER) = .ok [aliceFeed GLITE_JP_ATTR_OWNER] := rfl
  exact ⟨attrs, s₁, s₂, hserve, hrun,
    delivered_iff_noticed hload (fun _ => rfl) (.register _ _ _ hserve) hrun⟩

/-- A feed of the jobs of alice that asks for the times of their registrations does not get
    a job of hers that is registered: what arrives is the owner. -/
theorem not_delivered_alice : ∃ attrs s₁ s₂,
    readFeeds sampleEnv.escape sampleEnv.unescape 100 (aliceFeeds GLITE_JP_ATTR_REGTIME) =
      .ok [aliceFeed GLITE_JP_ATTR_REGTIME] ∧
    serveRegisterJob sampleEnv lbServer 100 sampleJob.dgJobid (ascii "/CN=alice")
      (emptyState (aliceFeeds GLITE_JP_ATTR_REGTIME)) =
        .ok (some [.matchAttr sampleJob.dgJobid attrs]) s₁ ∧
    matchAttrDeferred sampleEnv [aliceFeed GLITE_JP_ATTR_REGTIME] sampleJob.dgJobid attrs s₁ =
      .ok () s₂ ∧
    NewlyMeets sampleEnv (emptyState (aliceFeeds GLITE_JP_ATTR_REGTIME)) s₁
      (aliceFeed GLITE_JP_ATTR_REGTIME) sampleJob.dgJobid ∧
    ¬Delivered s₂.sent (aliceFeed GLITE_JP_ATTR_REGTIME) sampleJob.dgJobid := by
  refine ⟨_, _, _, rfl, rfl, rfl, ⟨fun qr hqr => ?_, fun hbefore => ?_⟩, ?_⟩
  · rw [List.mem_singleton.1 hqr]
    exact ⟨systemValue GLITE_JP_ATTR_OWNER (ascii "/CN=alice") 100, List.mem_singleton_self _, rfl⟩
  · obtain ⟨v, hv, -⟩ := hbefore _ (List.mem_singleton_self _)
    exact absurd hv List.not_mem_nil
  · rintro ⟨m, hm, -⟩
    exact absurd hm List.not_mem_nil

end JobProvenance
