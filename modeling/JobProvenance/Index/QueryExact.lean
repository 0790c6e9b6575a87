import JobProvenance.Index.QueryMeaning

/-!
# When a query selects the right jobs

The text of a query asks for one value of each attribute that meets all of the
conditions on it, while the query means that each condition is met by a value.
Here the two are compared job by job: `SelectedBy` and `WantedBy` are what they
say of a job identifier and the values that are stored for the job, and
`ReadAlike` is when they say the same of every job.
-/

namespace JobProvenance

section Exact

variable (ctx : IndexContext) (cs : List IndexQuery)

/-- The values stored for a job, with their origins, by attribute. -/
abbrev Stored := Bytes → List (ℤ × Bytes)

/-- The values of a job in the database. -/
def storedFor (db : IndexDb) (job : IndexJob) : Stored := fun id =>
  ((db.values id).filter fun row => row.jobid = job.jobid).map fun row => (row.origin, row.value)

/-- The conditions on an attribute. -/
def conditionsOn (id : Bytes) : List IndexQuery := cs.filter fun c => conditionId ctx c = some id

/-- The attributes there are conditions on. -/
def attrIds : Set Bytes := {id | ∃ c ∈ cs, conditionId ctx c = some id}

/-- A value meets a condition as its text says … -/
def SelectsValue (c : IndexQuery) (v : ℤ × Bytes) : Prop := OriginIs c v.1 ∧ Selected ctx c v.2

/-- … and as it is meant. -/
def WantsValue (c : IndexQuery) (v : ℤ × Bytes) : Prop := OriginIs c v.1 ∧ Wanted ctx c v.2

/-- What the text of the conditions says of a job. -/
def SelectedBy (x : Bytes) (stored : Stored) : Prop :=
  (∀ c ∈ cs, c.onJobid = true → Selected ctx c x) ∧
    ∀ id ∈ attrIds ctx cs, ∃ v ∈ stored id, ∀ c ∈ conditionsOn ctx cs id, SelectsValue ctx c v

/-- What the conditions mean. -/
def WantedBy (x : Bytes) (stored : Stored) : Prop :=
  (∀ c ∈ cs, c.onJobid = true → Wanted ctx c x) ∧
    ∀ id ∈ attrIds ctx cs, ∀ c ∈ conditionsOn ctx cs id, ∃ v ∈ stored id, WantsValue ctx c v

/-- One value decides the conditions on an attribute: those that meet all of
    their texts meet all of them, and those that meet a certain one of them meet
    all of their texts. -/
def DecidedByOne (id : Bytes) : Prop :=
  (∀ v, (∀ c ∈ conditionsOn ctx cs id, SelectsValue ctx c v) →
    ∀ c ∈ conditionsOn ctx cs id, WantsValue ctx c v) ∧
  ∃ c ∈ conditionsOn ctx cs id, ∀ v, WantsValue ctx c v →
    ∀ d ∈ conditionsOn ctx cs id, SelectsValue ctx d v

/-- The conditions and their text can be told apart by no job: none meets
    either, or they agree on the job identifier and on each attribute. -/
def ReadAlike : Prop :=
  (¬∃ x stored, SelectedBy ctx cs x stored) ∧ (¬∃ x stored, WantedBy ctx cs x stored) ∨
    (∀ x, (∀ c ∈ cs, c.onJobid = true → Selected ctx c x) ↔
      ∀ c ∈ cs, c.onJobid = true → Wanted ctx c x) ∧
    ∀ id ∈ attrIds ctx cs, DecidedByOne ctx cs id

variable {ctx cs} {db : IndexDb} {job : IndexJob}

theorem mem_conditionsOn {id : Bytes} {c : IndexQuery} :
    c ∈ conditionsOn ctx cs id ↔ c ∈ cs ∧ conditionId ctx c = some id := by
  simp [conditionsOn]

theorem mem_storedFor {id : Bytes} {v : ℤ × Bytes} : v ∈ storedFor db job id ↔
    ∃ row ∈ db.values id, row.jobid = job.jobid ∧ (row.origin, row.value) = v := by
  simp [storedFor, and_assoc]

/-- Both readings are the same of every job exactly when they cannot be told
    apart by the conditions alone. -/
theorem readAlike_iff :
    (∀ x stored, SelectedBy ctx cs x stored ↔ WantedBy ctx cs x stored) ↔ ReadAlike ctx cs := by
  have h := @and_forall_iff Bytes (List (ℤ × Bytes)) Bytes _ (attrIds ctx cs)
    (fun x => ∀ c ∈ cs, c.onJobid = true → Selected ctx c x)
    (fun x => ∀ c ∈ cs, c.onJobid = true → Wanted ctx c x)
    (fun id vs => ∃ v ∈ vs, ∀ c ∈ conditionsOn ctx cs id, SelectsValue ctx c v)
    fun id vs => ∀ c ∈ conditionsOn ctx cs id, ∃ v ∈ vs, WantsValue ctx c v
  simp only [exists_forall_iff_forall_exists] at h
  exact h

/-- What the query asks of a job and one value of each attribute. -/
theorem exists_taken_iff : (∃ value : Bytes → AttrRow,
    (∀ id ∈ attrTables ctx cs [], value id ∈ db.values id) ∧ ∀ c ∈ cs, Taken ctx job value c) ↔
      SelectedBy ctx cs job.dgJobid (storedFor db job) := by
  constructor
  · rintro ⟨value, hvalue, htaken⟩
    refine ⟨fun c hc hj => ?_, ?_⟩
    · have h := htaken c hc
      rwa [Taken, conditionId_eq_none.2 hj] at h
    · rintro id ⟨c₀, hc₀, hid₀⟩
      have hall : ∀ c ∈ conditionsOn ctx cs id, (value id).jobid = job.jobid ∧
          SelectsValue ctx c ((value id).origin, (value id).value) := by
        intro c hc
        obtain ⟨hc, hid⟩ := mem_conditionsOn.1 hc
        have h := htaken c hc
        rwa [Taken, hid] at h
      exact ⟨_, mem_storedFor.2 ⟨value id, hvalue id (mem_attrTables.2 (.inr ⟨c₀, hc₀, hid₀⟩)),
        (hall c₀ (mem_conditionsOn.2 ⟨hc₀, hid₀⟩)).1, rfl⟩, fun c hc => (hall c hc).2⟩
  · rintro ⟨hjobid, hattrs⟩
    have hvalue : ∀ id, ∃ row : AttrRow, id ∈ attrIds ctx cs → row ∈ db.values id ∧
        row.jobid = job.jobid ∧
        ∀ c ∈ conditionsOn ctx cs id, SelectsValue ctx c (row.origin, row.value) := by
      intro id
      by_cases hid : id ∈ attrIds ctx cs
      · obtain ⟨v, hv, hall⟩ := hattrs id hid
        obtain ⟨row, hrow, hjob, rfl⟩ := mem_storedFor.1 hv
        exact ⟨row, fun _ => ⟨hrow, hjob, hall⟩⟩
      · exact ⟨⟨[], [], [], 0⟩, fun h => absurd h hid⟩
    choose value hvalue using hvalue
    refine ⟨value, fun id hid => ?_, fun c hc => ?_⟩
    · exact (hvalue id ((mem_attrTables.1 hid).resolve_left List.not_mem_nil)).1
    · rcases hid : conditionId ctx c with _ | id
      · rw [Taken, hid]
        exact hjobid c hc (conditionId_eq_none.1 hid)
      · rw [Taken, hid]
        obtain ⟨-, hjob, hall⟩ := hvalue id ⟨c, hc, hid⟩
        exact ⟨hjob, hall c (mem_conditionsOn.2 ⟨hc, hid⟩)⟩

/-- What the conditions mean for a job. -/
theorem conditionHolds_iff : (∀ c ∈ cs, ConditionHolds ctx db job c) ↔
    WantedBy ctx cs job.dgJobid (storedFor db job) := by
  have hattr : ∀ {c : IndexQuery} {id}, conditionId ctx c = some id →
      (ConditionHolds ctx db job c ↔ ∃ v ∈ storedFor db job id, WantsValue ctx c v) := by
    intro c id hid
    rw [ConditionHolds, hid]
    constructor
    · rintro ⟨row, hrow, hjob, hwants⟩
      exact ⟨_, mem_storedFor.2 ⟨row, hrow, hjob, rfl⟩, hwants⟩
    · rintro ⟨v, hv, hwants⟩
      obtain ⟨row, hrow, hjob, rfl⟩ := mem_storedFor.1 hv
      exact ⟨row, hrow, hjob, hwants⟩
  constructor
  · intro h
    refine ⟨fun c hc hj => ?_, fun id _ c hc => ?_⟩
    · have hc := h c hc
      rwa [ConditionHolds, conditionId_eq_none.2 hj] at hc
    · obtain ⟨hc, hid⟩ := mem_conditionsOn.1 hc
      exact (hattr hid).1 (h c hc)
  · rintro ⟨hjobid, hattrs⟩ c hc
    rcases hid : conditionId ctx c with _ | id
    · rw [ConditionHolds, hid]
      exact hjobid c hc (conditionId_eq_none.1 hid)
    · exact (hattr hid).2 (hattrs id ⟨c, hc, hid⟩ c (mem_conditionsOn.2 ⟨hc, hid⟩))

/-- A database with one job, which is the client's, and some values stored for
    it. -/
def oneJobDb (ctx : IndexContext) (db : IndexDb) (x : Bytes) (stored : Stored) : IndexDb :=
  { db with
    jobs := ⟨[⟨[], x, [], [], []⟩], List.pairwise_singleton _ _⟩
    users := ⟨[⟨[], ctx.peer.getD []⟩], List.pairwise_singleton _ _⟩
    values := fun id => (stored id).map fun v => ⟨[], v.2, [], v.1⟩ }

theorem storedFor_oneJobDb (db : IndexDb) (x : Bytes) (stored : Stored) :
    storedFor (oneJobDb ctx db x stored) ⟨[], x, [], [], []⟩ = stored := by
  funext id
  simp [storedFor, oneJobDb, List.filter_map, Function.comp_def]

/-- The query of a request that is not refused returns exactly the jobs of which
    all conditions hold, whatever the database holds, exactly when its text can
    be made, is well shaped, and is read like the conditions are meant. -/
theorem selectsExactly_iff {req : QueryJobs} (hadm : ∃ db, Admitted ctx db req)
    (hpeer : ctx.conf.noAuth = false → ∃ peer, Identified ctx peer) :
    SelectsExactly ctx req ↔ (∀ c ∈ req.conditions, Buildable ctx c) ∧
      WellShaped req.conditions ∧ ReadAlike ctx req.conditions := by
  rw [← readAlike_iff]
  constructor
  · intro h
    obtain ⟨db, hadm⟩ := hadm
    obtain ⟨rows, hrows, -⟩ := h db hadm
    obtain ⟨hcs, hshape⟩ := wellShaped_of_getJobids hpeer hrows
    refine ⟨hcs, hshape, fun x stored => ?_⟩
    -- a database whose only job is the one in question
    obtain ⟨rows, hrows, hmem⟩ := h (oneJobDb ctx db x stored) hadm
    obtain ⟨rows', hrows', hmem'⟩ := mem_getJobids (oneJobDb ctx db x stored) hcs hshape hpeer
    obtain rfl : rows' = rows := Except.ok.inj (hrows'.symm.trans hrows)
    have howned : Owned ctx (oneJobDb ctx db x stored) ⟨[], x, [], [], []⟩ := by
      rcases hauth : ctx.conf.noAuth with _ | _
      · obtain ⟨peer, hpeer, -⟩ := hpeer hauth
        exact .inr ⟨_, List.mem_singleton_self _, rfl, by rw [hpeer]; rfl⟩
      · exact .inl hauth
    have hone : ∀ p : IndexJob → Prop, (∃ job ∈ (oneJobDb ctx db x stored).jobs.rows,
        job.dgJobid = x ∧ job.ps = [] ∧ Owned ctx (oneJobDb ctx db x stored) job ∧ p job) ↔
          p ⟨[], x, [], [], []⟩ := by
      intro p
      constructor
      · rintro ⟨job, hjob, -, -, -, hp⟩
        rwa [List.mem_singleton.1 hjob] at hp
      · exact fun hp => ⟨_, List.mem_singleton_self _, rfl, rfl, howned, hp⟩
    have hiff := (hmem' x []).symm.trans (hmem x [])
    rw [hone, hone, exists_taken_iff, conditionHolds_iff, storedFor_oneJobDb] at hiff
    exact hiff
  · rintro ⟨hcs, hshape, halike⟩ db -
    obtain ⟨rows, hrows, hmem⟩ := mem_getJobids db hcs hshape hpeer
    refine ⟨rows, hrows, fun jobid ps => ?_⟩
    simp only [hmem, exists_taken_iff, conditionHolds_iff, halike]

end Exact

/-! ## A query that works and one that does not -/

/-- The query for an attribute selects the right jobs. -/
theorem selectsExactly_color : SelectsExactly (sampleServer true) ⟨[colorCondition], []⟩ := by
  have hj : colorCondition.onJobid = false := by decide
  have hadm : ∃ db, Admitted (sampleServer true) db ⟨[colorCondition], []⟩ :=
    ⟨sampleIndexDb, by decide, by decide⟩
  refine (selectsExactly_iff hadm (by simp [sampleServer])).2 ⟨?_, ?_, .inr ⟨fun x => ?_, ?_⟩⟩
  · rintro c hc
    obtain rfl := List.mem_singleton.1 hc
    refine ⟨by decide, fun r hr hop hor => ?_⟩
    obtain rfl := List.mem_singleton.1 hr
    rcases hor with h | h
    · exact absurd h (by decide)
    · cases h
  · exact ⟨[], colorCondition, [], rfl, by simp, by decide, .inr rfl, by simp⟩
  · simp [hj]
  · have hiff : ∀ v, SelectsValue (sampleServer true) colorCondition v ↔
        WantsValue (sampleServer true) colorCondition v := by
      intro v
      refine and_congr_right fun _ => ?_
      simp only [Selected, Wanted, colorCondition, List.mem_singleton, forall_eq, exists_eq_left]
      exact ⟨fun h => (h.resolve_left (by simp)).2, fun h => .inr ⟨by simp, h⟩⟩
    rintro id ⟨c, hc, hid⟩
    obtain rfl := List.mem_singleton.1 hc
    rw [DecidedByOne, show conditionsOn (sampleServer true) [colorCondition] id = [colorCondition] by
      simp [conditionsOn, hid]]
    simp [hiff]

/-- With a comparison of the job identifier behind it, it is no query any
    more: there is no `AND` in front of the comparison. -/
theorem not_selectsExactly_jobidLast :
    Admitted (sampleServer true) sampleIndexDb ⟨[colorCondition, jobidCondition], []⟩ ∧
      ¬SelectsExactly (sampleServer true) ⟨[colorCondition, jobidCondition], []⟩ := by
  have hadm : Admitted (sampleServer true) sampleIndexDb ⟨[colorCondition, jobidCondition], []⟩ :=
    ⟨by decide, by decide⟩
  refine ⟨hadm, fun h => ?_⟩
  obtain ⟨rows, hrows, -⟩ := h sampleIndexDb hadm
  have hshape := wellShaped_iff.1 (wellShaped_of_getJobids (by simp [sampleServer]) hrows).2
  exact absurd hshape (by decide)

end JobProvenance
