import JobProvenance.Lib.System
import JobProvenance.Primary.Bulk
import JobProvenance.Primary.TagRace

/-!
# Feeding a job from several slaves

Whether a job was fed already is looked up before it is sent in full, and the mark
is set after it was accepted. Calls of `match_feed` in several slaves take these
steps in any order.

* `MatchStep.exec`: one step of a call; `matchFeed_eq_run`: one after the other
  they are `matchFeed`;
* `matchSystem`: the calls of any number of slaves, with anything that happens to
  the storage meanwhile;
* `nodup_full`: no feed is sent two full records of a job when no slave looks for
  its mark while another one is about to set it;
* `not_nodup_full_sample`: otherwise two slaves send one each.
-/

namespace JobProvenance

/-- Where a call of `match_feed` is. -/
inductive MatchStep
  | matching (attrs : List Attrval)
  | checkFed (attrs : List Attrval)
  | fullFeed
  | sendFull (a : List Attrval)
  | setFed
  | increment (attrs : List Attrval)
  deriving DecidableEq

section Exec

variable (env : Env) (feed : Jpfeed) (job : Bytes)

/-- The next step of a call, and where it is then; `none` when it has returned. -/
def MatchStep.exec : MatchStep → Serving (Option MatchStep)
  | .matching attrs => do
    let s ← get
    if ← isFeedMatching (getAttrs env s) feed job attrs then return some (.checkFed attrs)
    else return none
  | .checkFed attrs => do
    let s ← get
    let fed ← Exec.stored (JobProvenance.checkFed s.fed feed.id job)
    if fed = 0 then return some .fullFeed else return some (.increment attrs)
  | .fullFeed => do
    let s ← get
    let a ← Exec.stored (JobProvenance.fullFeed (getAttrs env s) feed job)
    return some (.sendFull a)
  | .sendFull a => do
    let owner := (a.find? (·.name = GLITE_JP_ATTR_OWNER)).map (·.value)
    let ret ← singleFeed env.answers feed.id false feed.destination job owner a
    if ret = none then return some .setFed else return none
  | .setFed => do
    let _ ← JobProvenance.setFed feed.id job
    return none
  | .increment attrs => do
    let s ← get
    let owner ← ownerOf s job
    let _ ← singleFeed env.answers feed.id false feed.destination job owner attrs
    return none

/-- Some steps, one after the other. -/
def MatchStep.run : ℕ → MatchStep → Serving Unit
  | 0, _ => return ()
  | more + 1, p => do
    match ← p.exec env feed job with
    | some p => MatchStep.run more p
    | none => return ()

/-- A call that is not interrupted is `matchFeed`. -/
theorem matchFeed_eq_run (attrs : List Attrval) :
    matchFeed env feed job attrs = MatchStep.run env feed job 5 (.matching attrs) := by
  funext s
  simp only [matchFeed, MatchStep.run, MatchStep.exec, bind_assoc, Stateful.get_bind, Stateful.liftM_bind]
  cases isFeedMatching (getAttrs env s) feed job attrs with
  | error e => rfl
  | ok matching =>
    cases matching with
    | false => rfl
    | true =>
      simp only [if_true, Stateful.get_bind, Stateful.liftM_bind, bind_assoc, pure_bind]
      cases Exec.stored (checkFed s.fed feed.id job) with
      | error e => rfl
      | ok fed =>
        dsimp only
        by_cases h0 : fed = 0
        · simp only [if_pos h0, pure_bind, bind_assoc, Stateful.get_bind, Stateful.liftM_bind]
          cases Exec.stored (fullFeed (getAttrs env s) feed job) with
          | error e => rfl
          | ok a =>
            dsimp only
            rw [Stateful.bind_eq, Stateful.bind_eq]
            split
            · rename_i ret _ _
              by_cases hret : ret = none
              · simp only [if_pos hret, pure_bind, bind_assoc]
              · simp only [if_neg hret, pure_bind]
            · rfl
        · simp only [if_neg h0, pure_bind, bind_assoc, Stateful.get_bind, Stateful.liftM_bind]

end Exec

/-! ## Runs -/

/-- A call of `match_feed`, and where it is unless it has returned. -/
structure MatchCall where
  feed : Jpfeed
  job : Bytes
  step : Option MatchStep

/-- What the slaves share, and the calls; and the full records that were sent, by
    their feeds and jobs. -/
structure MatchState where
  ps : PsState
  calls : List MatchCall
  full : List (Bytes × Bytes)

/-- A step: a slave calls `match_feed`, some request changes the storage, or the
    call of a number takes its next step. -/
inductive MatchAction
  | call (feed : Jpfeed) (job : Bytes) (attrs : List Attrval)
  | storage (tables : Tables) (disk : Disk)
  | step (i : ℕ)

/-- The full records a step has sent. -/
def MatchStep.fullRecords (feed : Jpfeed) (job : Bytes) (s s' : PsState) :
    MatchStep → List (Bytes × Bytes)
  | .sendFull _ => List.replicate (s'.sent.length - s.sent.length) (feed.id, job)
  | _ => []

/-- The state behind a step of a call. -/
def MatchState.advance (s : MatchState) (i : ℕ) (c : MatchCall) (p : MatchStep) (ps : PsState)
    (next : Option MatchStep) : MatchState where
  ps := ps
  calls := s.calls.set i { c with step := next }
  full := s.full ++ p.fullRecords c.feed c.job s.ps ps

variable (env : Env)

/-- The step of an action, if it can be taken; a call that ends early is over. -/
def matchStep (s : MatchState) : MatchAction → Option MatchState
  | .call feed job attrs => some { s with calls := s.calls ++ [⟨feed, job, some (.matching attrs)⟩] }
  | .storage tables disk => some { s with ps := { s.ps with tables, disk } }
  | .step i =>
    match s.calls[i]? with
    | some c =>
      match c.step with
      | some p =>
        match p.exec env c.feed c.job s.ps with
        | .ok next ps => some (s.advance i c p ps next)
        | .error _ ps => some (s.advance i c p ps none)
      | none => none
    | none => none

/-- The slaves of a primary storage, with whatever there is in it. -/
def matchSystem : System MatchState MatchAction where
  init s := s.calls = [] ∧ s.full = []
  step s a t := matchStep env s a = some t

/-! ## What a step does -/

/-- What a step of a call does: it ends the call and sets no mark, or goes on. -/
inductive MatchEffect (feed : Jpfeed) (job : Bytes) (s : PsState) :
    MatchStep → PsState → Option MatchStep → Prop
  | ends {p : MatchStep} {s' : PsState} : s'.fed = s.fed → (∀ a, p = .sendFull a → s' = s) →
      (p = .setFed → ∀ row, fedRow feed.id job ≠ .ok row) → MatchEffect feed job s p s' none
  | matches {attrs : List Attrval} :
      MatchEffect feed job s (.matching attrs) s (some (.checkFed attrs))
  | unmarked {attrs : List Attrval} {row : FedRow} : fedRow feed.id job = .ok row →
      row ∉ s.fed.rows → MatchEffect feed job s (.checkFed attrs) s (some .fullFeed)
  | marked {attrs : List Attrval} :
      MatchEffect feed job s (.checkFed attrs) s (some (.increment attrs))
  | retrieved {a : List Attrval} : MatchEffect feed job s .fullFeed s (some (.sendFull a))
  | sent {a : List Attrval} {s' : PsState} : s'.fed = s.fed →
      s'.sent.length = s.sent.length + 1 → MatchEffect feed job s (.sendFull a) s' (some .setFed)
  | sets {row : FedRow} {s' : PsState} : fedRow feed.id job = .ok row →
      (∀ r, r ∈ s'.fed.rows ↔ r ∈ s.fed.rows ∨ r = row) → MatchEffect feed job s .setFed s' none

section Effect

variable {env} {feed : Jpfeed} {job : Bytes} {s s' : PsState} {p : MatchStep}

/-- Where a call is when its step ended like this. -/
def nextStep : EStateM.Result Stop PsState (Option MatchStep) → Option MatchStep
  | .ok next _ => next
  | .error .. => none

/-- A job is sent once when messages are accepted, or it cannot be. -/
theorem singleFeed_of_accepting (hans : ∀ n, env.answers n = true) (done : Bool)
    (destination : Bytes) (owner : Option Bytes) (a : List Attrval) (box : Outbox) :
    (∃ msg, singleFeed env.answers feed.id done destination job owner a box =
      .ok none (box.push env.answers destination msg)) ∨
    ∃ e, singleFeed env.answers feed.id done destination job owner a box = .error e box := by
  cases owner with
  | none => exact .inr ⟨_, rfl⟩
  | some owner =>
    cases hjr : jobRecord job owner a with
    | error e =>
      refine .inr ⟨e, attempts_of_error ?_⟩
      rw [singleFeedWrapped, hjr]
      rfl
    | ok jr =>
      refine .inl ⟨⟨feed.id, done, [jr]⟩, attempts_of_none ?_⟩
      have hacc : env.answers box.sent.length = true := hans _
      have hsend : sendUpdateJobs env.answers destination ⟨feed.id, done, [jr]⟩ box =
          .ok true (box.push env.answers destination ⟨feed.id, done, [jr]⟩) := by
        rw [sendUpdateJobs, hacc, Outbox.push, hacc]
      rw [singleFeedWrapped, hjr, Stateful.liftM_bind]
      exact Stateful.bind_of_ok hsend

/-- What the steps do when messages are accepted. -/
theorem exec_effect (hans : ∀ n, env.answers n = true) : MatchEffect feed job s p
    (Stateful.left (p.exec env feed job s)) (nextStep (p.exec env feed job s)) := by
  cases p with
  | matching attrs =>
    simp only [MatchStep.exec, Stateful.get_bind, Stateful.liftM_bind]
    split
    · rename_i b _
      cases b with
      | true => exact .matches
      | false => exact .ends rfl nofun nofun
    · exact .ends rfl nofun nofun
  | checkFed attrs =>
    simp only [MatchStep.exec, Stateful.get_bind, Stateful.liftM_bind]
    split
    · rename_i fed hfed
      split_ifs with h0
      · obtain ⟨row, hrow, hcount⟩ := Exec.bind_eq_ok.1 (stored_eq_ok.1 hfed)
        obtain rfl := Except.ok.inj hcount
        refine .unmarked hrow fun hmem => ?_
        exact List.countP_eq_zero.1 h0 _ hmem (decide_eq_true rfl)
      · exact .marked
    · exact .ends rfl nofun nofun
  | fullFeed =>
    simp only [MatchStep.exec, Stateful.get_bind, Stateful.liftM_bind]
    split
    · exact .retrieved
    · exact .ends rfl nofun nofun
  | sendFull a =>
    simp only [MatchStep.exec]
    obtain ⟨msg, hsend⟩ | ⟨e, hsend⟩ := @singleFeed_of_accepting env feed job hans false
      feed.destination ((a.find? (·.name = GLITE_JP_ATTR_OWNER)).map (·.value)) a s.toOutbox
    · rw [Stateful.bind_eq, sending_apply, hsend]
      exact .sent rfl (by simp [Outbox.push])
    · rw [Stateful.bind_eq, sending_apply, hsend]
      exact .ends rfl (fun _ _ => rfl) nofun
  | setFed =>
    simp only [MatchStep.exec, Stateful.bind_eq, sending_apply]
    cases hrow : fedRow feed.id job with
    | ok row =>
      obtain ⟨ret, box, hset, -, hmem⟩ := setFed_of_row hrow s.toOutbox
      rw [hset]
      exact .sets hrow hmem
    | error e =>
      obtain ⟨e', hset⟩ | hset := setFed_of_no_row hrow s.toOutbox
      all_goals
        rw [hset]
        exact .ends rfl nofun fun _ row h => nomatch hrow.symm.trans h
  | increment attrs =>
    simp only [MatchStep.exec, Stateful.get_bind, Stateful.liftM_bind]
    split
    · rename_i owner _
      rw [Stateful.bind_eq, sending_apply]
      obtain ⟨msg, hsend⟩ | ⟨e, hsend⟩ := @singleFeed_of_accepting env feed job hans false
        feed.destination owner attrs s.toOutbox
      · rw [hsend]
        exact .ends rfl nofun nofun
      · rw [hsend]
        exact .ends rfl nofun nofun
    · exact .ends rfl nofun nofun

end Effect

/-! ## Full records -/

/-- The steps of a call that found no mark, up to the one that sets it. -/
def MatchStep.Full : MatchStep → Prop
  | .fullFeed | .sendFull _ | .setFed => True
  | .matching _ | .checkFed _ | .increment _ => False

/-- A call that found no mark, and has not set it yet. -/
def MatchCall.Claims (c : MatchCall) (row : FedRow) : Prop :=
  fedRow c.feed.id c.job = .ok row ∧ ∃ p, c.step = some p ∧ p.Full

/-- No slave looks for the mark of a job while another one is about to set it. -/
def NoRace (s : MatchState) (a : MatchAction) : Prop :=
  ∀ i (c : MatchCall) attrs row, a = .step i → s.calls[i]? = some c →
    c.step = some (.checkFed attrs) → fedRow c.feed.id c.job = .ok row → ∀ d ∈ s.calls, ¬d.Claims row

/-- What a run without races keeps: a mark that is about to be set is so by one call,
    and a full record was sent when the mark is set or about to be. -/
structure FullKept (s : MatchState) : Prop where
  known : ∀ c ∈ s.calls, ∀ p, c.step = some p → p.Full → ∃ row, fedRow c.feed.id c.job = .ok row
  unique : ∀ (i j : ℕ) (c d : MatchCall) row, s.calls[i]? = some c → s.calls[j]? = some d →
    c.Claims row → d.Claims row → i = j
  unmarked : ∀ c ∈ s.calls, ∀ row, c.Claims row → row ∉ s.ps.fed.rows
  unsent : ∀ c ∈ s.calls, ∀ row, c.Claims row → c.step ≠ some .setFed →
    ∀ x ∈ s.full, fedRow x.1 x.2 ≠ .ok row
  sent : ∀ x ∈ s.full, ∃ row, fedRow x.1 x.2 = .ok row ∧
    (row ∈ s.ps.fed.rows ∨ ∃ c ∈ s.calls, c.Claims row ∧ c.step = some .setFed)
  nodup : s.full.Nodup

section Kept

variable {env} {s t : MatchState} {a : MatchAction} {i : ℕ} {c d : MatchCall} {p : MatchStep}
  {ps : PsState} {next : Option MatchStep} {row : FedRow}

/-- A step starts a call, changes the storage, or has the effect of a step of a call. -/
theorem matchStep_cases (hans : ∀ n, env.answers n = true) (h : matchStep env s a = some t) :
    (∃ feed job attrs, t = { s with calls := s.calls ++ [⟨feed, job, some (.matching attrs)⟩] }) ∨
    (∃ tables disk, t = { s with ps := { s.ps with tables, disk } }) ∨
    ∃ i c p ps next, a = .step i ∧ s.calls[i]? = some c ∧ c.step = some p ∧
      MatchEffect c.feed c.job s.ps p ps next ∧ t = s.advance i c p ps next := by
  cases a with
  | call feed job attrs => exact .inl ⟨feed, job, attrs, (Option.some.inj h).symm⟩
  | storage tables disk => exact .inr (.inl ⟨tables, disk, (Option.some.inj h).symm⟩)
  | step i =>
    simp only [matchStep] at h
    split at h
    · rename_i c hc
      split at h
      · rename_i p hp
        have heff := @exec_effect env c.feed c.job s.ps p hans
        refine .inr (.inr ⟨i, c, p, _, _, rfl, hc, hp, heff, ?_⟩)
        split at h <;> rename_i hexec <;> rw [hexec] <;> exact (Option.some.inj h).symm
      · cases h
    · cases h

/-- The calls behind a step: the one that took it, and the others. -/
theorem mem_advance (h : d ∈ (s.advance i c p ps next).calls) :
    d = { c with step := next } ∨ ∃ j, j ≠ i ∧ s.calls[j]? = some d := by
  obtain ⟨j, hj⟩ := List.mem_iff_getElem?.1 h
  rw [MatchState.advance, List.getElem?_set] at hj
  split_ifs at hj with hij
  · exact .inl (Option.some.inj hj).symm
  · exact .inr ⟨j, Ne.symm hij, hj⟩

/-- A call goes on claiming its mark, or starts to when it finds none. -/
theorem MatchEffect.claims (heff : MatchEffect c.feed c.job s.ps p ps next)
    (hp : c.step = some p) (h : MatchCall.Claims { c with step := next } row) :
    c.Claims row ∧ p ≠ .setFed ∨
      row ∉ s.ps.fed.rows ∧ ∃ attrs, p = .checkFed attrs := by
  obtain ⟨hrow, q, hq, hfull⟩ := h
  cases heff with
  | ends | sets => cases hq
  | «matches» | marked => exact (Option.some.inj hq ▸ hfull).elim
  | unmarked hrow' hno => exact .inr ⟨Except.ok.inj (hrow'.symm.trans hrow) ▸ hno, _, rfl⟩
  | retrieved => exact .inl ⟨⟨hrow, _, hp, trivial⟩, nofun⟩
  | sent => exact .inl ⟨⟨hrow, _, hp, trivial⟩, nofun⟩

/-- The marks behind a step. -/
theorem MatchEffect.mem_fed (heff : MatchEffect c.feed c.job s.ps p ps next) {r : FedRow} :
    r ∈ ps.fed.rows ↔ r ∈ s.ps.fed.rows ∨ p = .setFed ∧ fedRow c.feed.id c.job = .ok r := by
  cases heff with
  | ends hfed _ hset =>
    rw [hfed]
    exact (or_iff_left fun h => hset h.1 r h.2).symm
  | «matches» | unmarked | marked | retrieved => exact (or_iff_left fun h => nomatch h.1).symm
  | sent hfed => exact hfed ▸ (or_iff_left fun h => nomatch h.1).symm
  | sets hrow hmem => simp [hmem, hrow, eq_comm]

/-- The full records behind a step. -/
theorem MatchEffect.full (heff : MatchEffect c.feed c.job s.ps p ps next) :
    (s.advance i c p ps next).full = s.full ∨ (∃ a, p = .sendFull a) ∧ next = some .setFed ∧
      (s.advance i c p ps next).full = s.full ++ [(c.feed.id, c.job)] := by
  cases heff with
  | @ends p _ hfed hsame =>
    cases p with
    | sendFull a => simp [MatchState.advance, MatchStep.fullRecords, hsame a rfl]
    | _ => exact .inl (List.append_nil _)
  | «matches» | unmarked | marked | retrieved | sets => exact .inl (List.append_nil _)
  | sent _ hlen =>
    exact .inr ⟨⟨_, rfl⟩, rfl, by simp [MatchState.advance, MatchStep.fullRecords, hlen]⟩

/-- The same, record by record. -/
theorem MatchEffect.mem_full (heff : MatchEffect c.feed c.job s.ps p ps next) {x : Bytes × Bytes}
    (hx : x ∈ (s.advance i c p ps next).full) :
    x ∈ s.full ∨ (∃ a, p = .sendFull a) ∧ next = some .setFed ∧ x = (c.feed.id, c.job) := by
  obtain hfull | ⟨ha, hnext, hfull⟩ := heff.full <;> rw [hfull] at hx
  · exact .inl hx
  · obtain hx | hx := List.mem_append.1 hx
    · exact .inl hx
    · exact .inr ⟨ha, hnext, List.mem_singleton.1 hx⟩

/-! ### The parts that are kept by a step of a call -/

variable (hs : FullKept s) (hc : s.calls[i]? = some c) (hp : c.step = some p)
  (hrace : ∀ attrs row, p = .checkFed attrs → fedRow c.feed.id c.job = .ok row →
    ∀ d ∈ s.calls, ¬d.Claims row)
  (heff : MatchEffect c.feed c.job s.ps p ps next)

include hs hc hp hrace heff

/-- What a call claims behind its step nobody else claimed before it. -/
theorem FullKept.not_claims (hclaims : MatchCall.Claims { c with step := next } row) {j : ℕ}
    (hj : j ≠ i) (hd : s.calls[j]? = some d) : ¬d.Claims row := by
  intro hdc
  obtain ⟨hcc, -⟩ | ⟨-, attrs, rfl⟩ := heff.claims hp hclaims
  · exact hj (hs.unique j i d c row hd hc hdc hcc)
  · exact hrace attrs row rfl hclaims.1 d (List.mem_of_getElem? hd) hdc

theorem FullKept.unique_advance {j k : ℕ} {e : MatchCall}
    (hd : (s.advance i c p ps next).calls[j]? = some d)
    (he : (s.advance i c p ps next).calls[k]? = some e) (hdc : d.Claims row)
    (hec : e.Claims row) : j = k := by
  simp only [MatchState.advance, List.getElem?_set] at hd he
  split_ifs at hd he with hij hik hik
  · exact hij.symm.trans hik
  · obtain rfl := Option.some.inj hd
    exact absurd hec (hs.not_claims hc hp hrace heff hdc (Ne.symm hik) he)
  · obtain rfl := Option.some.inj he
    exact absurd hdc (hs.not_claims hc hp hrace heff hec (Ne.symm hij) hd)
  · exact hs.unique j k d e row hd he hdc hec

theorem FullKept.unsent_advance (hd : d ∈ (s.advance i c p ps next).calls)
    (hdc : d.Claims row) (hstep : d.step ≠ some .setFed) {x : Bytes × Bytes}
    (hx : x ∈ (s.advance i c p ps next).full) : fedRow x.1 x.2 ≠ .ok row := by
  have hmem : c ∈ s.calls := List.mem_of_getElem? hc
  intro hxrow
  obtain hold | ⟨⟨a, rfl⟩, rfl, rfl⟩ := heff.mem_full hx
  · obtain rfl | ⟨j, -, hj⟩ := mem_advance hd
    · obtain ⟨hcc, hne⟩ | ⟨hno, attrs, rfl⟩ := heff.claims hp hdc
      · exact hs.unsent c hmem row hcc (fun h => hne (Option.some.inj (hp.symm.trans h))) x hold hxrow
      -- the record was sent by a call that is not done with its mark: that is a race
      · obtain ⟨row', hxrow', hfed | ⟨e, he, hec, -⟩⟩ := hs.sent x hold
        all_goals obtain rfl := Except.ok.inj (hxrow'.symm.trans hxrow)
        · exact hno hfed
        · exact hrace attrs row' rfl hdc.1 e he hec
    · exact hs.unsent d (List.mem_of_getElem? hj) row hdc hstep x hold hxrow
  · obtain rfl | ⟨j, hij, hj⟩ := mem_advance hd
    · exact hstep rfl
    · exact hij (hs.unique j i d c row hj hc hdc ⟨hxrow, _, hp, trivial⟩)

omit hrace in
theorem FullKept.sent_advance {x : Bytes × Bytes} (hx : x ∈ (s.advance i c p ps next).full) :
    ∃ row, fedRow x.1 x.2 = .ok row ∧ (row ∈ ps.fed.rows ∨
      ∃ d ∈ (s.advance i c p ps next).calls, d.Claims row ∧ d.step = some .setFed) := by
  have hi : i < s.calls.length := (List.getElem?_eq_some_iff.1 hc).1
  obtain hx | ⟨⟨a, rfl⟩, rfl, rfl⟩ := heff.mem_full hx
  · obtain ⟨row, hxrow, hfed | ⟨e, he, hec, hset⟩⟩ := hs.sent x hx
    · exact ⟨row, hxrow, .inl (heff.mem_fed.2 (.inl hfed))⟩
    · refine ⟨row, hxrow, ?_⟩
      obtain ⟨j, hj⟩ := List.mem_iff_getElem?.1 he
      by_cases hij : j = i
      · obtain rfl : e = c := Option.some.inj (hj.symm.trans (hij ▸ hc))
        exact .inl (heff.mem_fed.2 (.inr ⟨Option.some.inj (hp.symm.trans hset), hec.1⟩))
      · refine .inr ⟨e, List.mem_of_getElem? (i := j) ?_, hec, hset⟩
        rw [MatchState.advance, List.getElem?_set_ne (Ne.symm hij), hj]
  · obtain ⟨row, hrow⟩ := hs.known c (List.mem_of_getElem? hc) _ hp trivial
    exact ⟨row, hrow, .inr ⟨_, List.mem_set hi _, ⟨hrow, _, rfl, trivial⟩, rfl⟩⟩

/-- Every step of a call without a race keeps it. -/
theorem FullKept.advance : FullKept (s.advance i c p ps next) := by
  have hmem : c ∈ s.calls := List.mem_of_getElem? hc
  refine ⟨fun d hd q hq hfull => ?_, fun j k d e row => hs.unique_advance hc hp hrace heff,
    fun d hd row hdc => ?_,
    fun d hd row hdc hstep x => hs.unsent_advance hc hp hrace heff hd hdc hstep,
    fun x => hs.sent_advance hc hp heff, ?_⟩
  · obtain rfl | ⟨j, -, hj⟩ := mem_advance hd
    · cases heff with
      | ends | sets => cases hq
      | «matches» | marked => exact (Option.some.inj hq ▸ hfull).elim
      | unmarked hrow => exact ⟨_, hrow⟩
      | retrieved | sent => exact hs.known c hmem _ hp trivial
    · exact hs.known d (List.mem_of_getElem? hj) q hq hfull
  · change row ∉ ps.fed.rows
    rw [heff.mem_fed, not_or]
    obtain rfl | ⟨j, hij, hj⟩ := mem_advance hd
    · obtain ⟨hcc, hne⟩ | ⟨hno, attrs, rfl⟩ := heff.claims hp hdc
      · exact ⟨hs.unmarked c hmem row hcc, fun h => hne h.1⟩
      · exact ⟨hno, nofun⟩
    · refine ⟨hs.unmarked d (List.mem_of_getElem? hj) row hdc, ?_⟩
      rintro ⟨rfl, hrow⟩
      exact hij (hs.unique j i d c row hj hc hdc ⟨hrow, _, hp, trivial⟩)
  · obtain hfull | ⟨⟨a, rfl⟩, -, hfull⟩ := heff.full (i := i) <;> rw [hfull]
    · exact hs.nodup
    · obtain ⟨row, hrow⟩ := hs.known c hmem _ hp trivial
      have hno : (c.feed.id, c.job) ∉ s.full := fun hx =>
        hs.unsent c hmem row ⟨hrow, _, hp, trivial⟩ (fun h => nomatch hp.symm.trans h) _ hx hrow
      exact List.nodup_append.2 ⟨hs.nodup, List.nodup_singleton _, fun x hx y hy =>
        List.mem_singleton.1 hy ▸ fun h => hno (h ▸ hx)⟩

end Kept

/-- A call that was just started claims nothing. -/
theorem mem_calls_of_claims {s : MatchState} {feed : Jpfeed} {job : Bytes} {attrs : List Attrval}
    {j : ℕ} {d : MatchCall} {row : FedRow} (hdc : d.Claims row)
    (hd : (s.calls ++ [⟨feed, job, some (.matching attrs)⟩])[j]? = some d) :
    s.calls[j]? = some d := by
  obtain hj | hj := Nat.lt_or_ge j s.calls.length
  · rwa [List.getElem?_append_left hj] at hd
  · rw [List.getElem?_append_right hj] at hd
    obtain rfl := List.mem_singleton.1 (List.mem_of_getElem? hd)
    obtain ⟨-, p, hp, hfull⟩ := hdc
    exact (Option.some.inj hp ▸ hfull : MatchStep.Full (.matching attrs)).elim

/-- Every step without a race keeps it. -/
theorem FullKept.step {env : Env} (hans : ∀ n, env.answers n = true) {s t : MatchState}
    {a : MatchAction} (hs : FullKept s) (hrace : NoRace s a) (h : matchStep env s a = some t) :
    FullKept t := by
  obtain ⟨feed, job, attrs, rfl⟩ | ⟨tables, disk, rfl⟩ | ⟨i, c, p, ps, next, rfl, hc, hp, heff, rfl⟩ :=
    matchStep_cases hans h
  · have hold : ∀ {d : MatchCall} {row}, d.Claims row →
        d ∈ s.calls ++ [⟨feed, job, some (.matching attrs)⟩] → d ∈ s.calls := fun hdc hd => by
      obtain ⟨j, hj⟩ := List.mem_iff_getElem?.1 hd
      exact List.mem_of_getElem? (mem_calls_of_claims hdc hj)
    refine ⟨fun d hd p hp hfull => ?_, fun i j c d row hc hd hcc hdc => ?_, fun d hd row hdc => ?_,
      fun d hd row hdc => ?_, fun x hx => ?_, hs.nodup⟩
    · obtain hd | hd := List.mem_append.1 hd
      · exact hs.known d hd p hp hfull
      · obtain rfl := List.mem_singleton.1 hd
        exact (Option.some.inj hp ▸ hfull).elim
    · exact hs.unique i j c d row (mem_calls_of_claims hcc hc) (mem_calls_of_claims hdc hd) hcc hdc
    · exact hs.unmarked d (hold hdc hd) row hdc
    · exact hs.unsent d (hold hdc hd) row hdc
    · obtain ⟨row, hxrow, hfed | ⟨c, hc, hcc, hset⟩⟩ := hs.sent x hx
      · exact ⟨row, hxrow, .inl hfed⟩
      · exact ⟨row, hxrow, .inr ⟨c, List.mem_append_left _ hc, hcc, hset⟩⟩
  · exact ⟨hs.known, hs.unique, hs.unmarked, hs.unsent, hs.sent, hs.nodup⟩
  · exact hs.advance hc hp (fun attrs row heq hrow =>
      hrace i c attrs row rfl hc (heq ▸ hp) hrow) heff

/-- When every message is accepted, and no slave looks for the mark of a job while another
    one is about to set it, no feed is sent a second full record of a job. -/
theorem nodup_full {env : Env} (hans : ∀ n, env.answers n = true) {s : MatchState}
    (h : (matchSystem env).Reachable NoRace s) : s.full.Nodup := by
  refine (h.invariant (I := FullKept) ?_ fun s t a hs hrace hstep => hs.step hans hrace hstep).nodup
  rintro s ⟨hcalls, hfull⟩
  exact ⟨by simp [hcalls], by simp [hcalls], by simp [hcalls], by simp [hcalls],
    by simp [hfull], by simp [hfull]⟩

/-! ## Two tags of a job -/

/-- A tag with a color, as it arrived. -/
def colorTag (color : String) : Attrval :=
  { sampleTag false (ascii color) with name := ascii "urn:app:color", size := 0 }

/-- A job with two tags, of which a feed was told nothing. -/
def twiceTagged : MatchState where
  ps := { oneJobState .empty with
    disk := Function.update (fun _ => none) sampleFile
      (some (fileBytes [colorTag "red", colorTag "blue"])) }
  calls := []
  full := []

/-- The slave that added a tag matches it. -/
def matchColor (color : String) : MatchAction :=
  .call (aliceFeed (ascii "urn:app:color")) lateJob.dgJobid [colorTag color]

/-- A slave whose predecessors have returned meets no other. -/
theorem noRace_of_returned {s : MatchState} {a : MatchAction}
    (h : ∀ c ∈ s.calls.dropLast, c.step = none) : NoRace s a := by
  have hlast : ∀ (i : ℕ) (c : MatchCall) p, s.calls[i]? = some c → c.step = some p →
      i + 1 = s.calls.length := by
    intro i c p hc hp
    have hi := (List.getElem?_eq_some_iff.1 hc).1
    by_contra hne
    have hmem : s.calls.dropLast[i]? = some c := by
      rw [List.getElem?_dropLast, if_pos (by omega), hc]
    rw [h c (List.mem_of_getElem? hmem)] at hp
    cases hp
  rintro i c attrs row - hc hstep - d hd ⟨-, p, hp, hfull⟩
  obtain ⟨j, hj⟩ := List.mem_iff_getElem?.1 hd
  have hi := hlast i c _ hc hstep
  have hj' := hlast j d p hj hp
  obtain rfl : j = i := by omega
  obtain rfl : d = c := Option.some.inj (hj.symm.trans hc)
  exact (Option.some.inj (hstep.symm.trans hp) ▸ hfull : MatchStep.Full (.checkFed attrs)).elim

/-- Two slaves, one after the other. -/
theorem matchInTurn_run :
    (([matchColor "red", .step 0, .step 0, .step 0, .step 0, .step 0, matchColor "blue", .step 1,
        .step 1, .step 1].foldlM
      (fun s a => if ∀ c ∈ s.calls.dropLast, c.step = none then matchStep sampleEnv s a else none)
        twiceTagged).any fun s => s.full = [(ascii "feed", lateJob.dgJobid)] ∧
          s.calls.map MatchCall.step = [none, none] ∧ s.ps.sent.length = 2) = true := by
  decide +kernel

theorem matchTwo_run :
    (([matchColor "red", matchColor "blue", .step 0, .step 0, .step 1, .step 1, .step 0, .step 1,
        .step 0, .step 1].foldlM
      (fun s a => if System.Always s a then matchStep sampleEnv s a else none) twiceTagged).any
        fun s => s.full = List.replicate 2 (ascii "feed", lateJob.dgJobid)) = true := by
  decide +kernel

/-- The first slave sends a full record and sets the mark, the second finds it and sends
    its tag only. -/
theorem nodup_full_sample : ∃ s : MatchState, s.calls.map MatchCall.step = [none, none] ∧
    s.ps.sent.length = 2 ∧ s.full = [(ascii "feed", lateJob.dgJobid)] ∧ s.full.Nodup := by
  obtain ⟨s, hrun, hs⟩ := Option.any_eq_true _ _ |>.1 matchInTurn_run
  obtain ⟨hfull, hcalls, hsent⟩ := of_decide_eq_true hs
  have hreach : (matchSystem sampleEnv).Reachable
      (fun s _ => ∀ c ∈ s.calls.dropLast, c.step = none) s :=
    ⟨_, ⟨rfl, rfl⟩, .of_foldlM (fun _ _ _ h => h) hrun⟩
  exact ⟨s, hcalls, hsent, hfull,
    nodup_full (fun _ => rfl) (hreach.mono fun _ _ => noRace_of_returned)⟩

/-- Two slaves that both find no mark send a full record each, though every message is
    accepted. -/
theorem not_nodup_full_sample : (∀ n, sampleEnv.answers n = true) ∧
    ∃ s, (matchSystem sampleEnv).Reachable System.Always s ∧
      s.full = List.replicate 2 (ascii "feed", lateJob.dgJobid) ∧ ¬s.full.Nodup := by
  obtain ⟨s, hrun, hs⟩ := Option.any_eq_true _ _ |>.1 matchTwo_run
  have hs : s.full = List.replicate 2 (ascii "feed", lateJob.dgJobid) := of_decide_eq_true hs
  refine ⟨fun _ => rfl, s, ⟨_, ⟨rfl, rfl⟩, .of_foldlM (fun _ _ _ h => h) hrun⟩, hs, ?_⟩
  rw [hs]
  decide

end JobProvenance
