import JobProvenance.Index.Update

/-!
# Retrying updates

A primary storage sends `UpdateJobs` again when it has failed. What the failed
attempts have done stays, and the statements are not made for that: the queries
in front of the insertions of jobs and owners see what is there already, but the
values are inserted once more.

* `rerun_updateJobs`: after an attempt that failed before it inserted a value
  (`Early`), the operation does what it would have done at first;
* `updateJobs_stores`: it never deletes a value, and inserts all of them anew;
* `retrySafe_iff`: so retrying is safe exactly after such attempts, when the
  server accepts the message at all (`Accepts`).
-/

namespace JobProvenance

open Stateful

/-! ## Before and after a statement -/

/-- Whether the insertion of a value, by its numbers, comes before a statement. -/
def Statement.Follows (i j : ℕ) : Statement → Prop
  | .selectInfoFeed | .updateStateFeed => False
  | .selectJobid k | .insertJob k | .selectUser k | .insertUser k => i < k
  | .insertAttrval k l => i < k ∨ i = k ∧ j < l
  | .insertSingleattrval k l => i < k ∨ i = k ∧ j ≤ l

/-- A statement that comes after the values in front of a place. -/
def Statement.After (i j : ℕ) (p : Statement) : Prop :=
  ∀ k l, k < i ∨ k = i ∧ l < j → p.Follows k l

/-- The number of the record a statement belongs to. -/
def Statement.ijobs : Statement → Option ℕ
  | .selectInfoFeed | .updateStateFeed => none
  | .selectJobid i | .insertJob i | .selectUser i | .insertUser i => some i
  | .insertAttrval i _ | .insertSingleattrval i _ => some i

/-- Whether a statement is a query. -/
def Statement.isQuery : Statement → Bool
  | .selectInfoFeed | .selectJobid _ | .selectUser _ => true
  | _ => false

theorem Statement.Follows.le {i j k : ℕ} {p : Statement} (h : p.Follows k j)
    (hp : p.ijobs = some i) : k ≤ i := by
  cases p <;> simp only [Follows, ijobs, Option.some.injEq] at h hp <;> omega

theorem Statement.After.mono {i i' j j' : ℕ} {p : Statement} (h : p.After i j)
    (hij : i' < i ∨ i' = i ∧ j' ≤ j) : p.After i' j' := fun k l hkl => h k l (by omega)

section After

variable {ctx : IndexContext} {fails : Statement → Bool} {db db' : IndexDb} {p : Statement}
  {i j : ℕ} {ps jobid : Bytes} {attr : AttrValue} {attrs : List AttrValue} {r : JobRecord}
  {rs : List JobRecord}

theorem lazyInsert_fault {select insert : Statement} {count : IndexDb → ℕ}
    {stmt : IndexDb → Option IndexDb} {e : Halt}
    (h : lazyInsert fails select insert count stmt db = .error e db') :
    e = .fault (some insert) := by
  rw [lazyInsert_eq] at h
  split_ifs at h
  exact (expectOne_eq_error.1 h).1

theorem lazyInsertJob_fault {o owner : Option Bytes}
    (h : lazyInsertJob ctx fails i ps o owner db = .error (.fault (some p)) db') :
    p = .insertJob i ∨ p = .insertUser i := by
  rcases o with _ | o
  · cases h
  · rcases owner with _ | owner
    · cases h
    · rcases bind_eq_error.1 h with h | ⟨_, _, -, h⟩
      · exact .inl (Option.some.inj (Halt.fault.inj (lazyInsert_fault h)))
      · exact .inr (Option.some.inj (Halt.fault.inj (lazyInsert_fault h)))

theorem lazyInsertJob_some {o owner : Option Bytes}
    (h : lazyInsertJob ctx fails i ps o owner db = .ok () db') :
    ∃ jobid cert, o = some jobid ∧ owner = some cert := by
  rcases o with _ | o
  · cases h
  · rcases owner with _ | owner
    · cases h
    · exact ⟨o, owner, rfl, rfl⟩

theorem insertAttrVal_fault {av : Attrval} {e : Halt}
    (h : insertAttrVal ctx fails i j jobid av db = .error e db') :
    e = .abort ∨ e = .fault (some (.insertAttrval i j)) ∨
      e = .fault (some (.insertSingleattrval i j)) := by
  rcases bind_eq_error.1 h with h | ⟨⟨row, value⟩, _, -, h⟩
  · exact .inl (liftExec_eq_error h)
  · rcases bind_eq_error.1 h with h | ⟨_, _, -, h⟩
    · exact .inr (.inl (expectOne_eq_error.1 h).1)
    · split_ifs at h
      · exact .inr (.inr (expectOne_eq_error.1 h).1)
      · cases h

theorem updateAttr_fault {e : Halt} (h : updateAttr ctx fails i j jobid attr db = .error e db') :
    e = .abort ∨ e = .fault (some (.insertAttrval i j)) ∨
      e = .fault (some (.insertSingleattrval i j)) := by
  rcases bind_eq_error.1 h with h | ⟨av, _, -, h⟩
  · exact .inl (liftExec_eq_error h)
  · split_ifs at h
    · rcases bind_eq_error.1 h with h | ⟨_, _, -, h⟩
      · exact .inl (liftExec_eq_error h)
      · exact insertAttrVal_fault h
    · cases h

/-- A statement at which storing a value fails is one of its two. -/
theorem eq_of_updateAttr_fault
    (h : updateAttr ctx fails i j jobid attr db = .error (.fault (some p)) db') :
    p = .insertAttrval i j ∨ p = .insertSingleattrval i j := by
  rcases updateAttr_fault h with h | h | h
  · cases h
  · exact .inl (Option.some.inj (Halt.fault.inj h))
  · exact .inr (Option.some.inj (Halt.fault.inj h))

theorem updateAttrs_fault
    (h : updateAttrs ctx fails i jobid j attrs db = .error (.fault (some p)) db') :
    ∃ l ≥ j, p = .insertAttrval i l ∨ p = .insertSingleattrval i l := by
  induction attrs generalizing j db with
  | nil => cases h
  | cons attr attrs ih =>
    rcases bind_eq_error.1 h with h | ⟨_, _, -, h⟩
    · exact ⟨j, le_rfl, eq_of_updateAttr_fault h⟩
    · obtain ⟨l, hl, hp⟩ := ih h
      exact ⟨l, Nat.le_of_succ_le hl, hp⟩

theorem updateAttrs_after
    (h : updateAttrs ctx fails i jobid j attrs db = .error (.fault (some p)) db') :
    p.After i j ∧ p.ijobs = some i ∧ p.isQuery = false := by
  obtain ⟨l, hl, rfl | rfl⟩ := updateAttrs_fault h
  · exact ⟨fun k m hkm => hkm.imp id fun h => ⟨h.1, h.2.trans_le hl⟩, rfl, rfl⟩
  · exact ⟨fun k m hkm => hkm.imp id fun h => ⟨h.1, h.2.le.trans hl⟩, rfl, rfl⟩

theorem updateJob_after (h : updateJob ctx fails i ps r db = .error (.fault (some p)) db') :
    p.After i 0 ∧ p.ijobs = some i ∧ p.isQuery = false := by
  rw [updateJob] at h
  split_ifs at h
  · cases h
  · rcases bind_eq_error.1 h with h | ⟨_, _, -, h⟩
    · have hafter : ∀ k l, k < i ∨ k = i ∧ l < 0 → k < i := fun k l hkl => by omega
      rcases lazyInsertJob_fault h with rfl | rfl <;> exact ⟨hafter, rfl, rfl⟩
    · exact updateAttrs_after h

/-- A statement at which storing some records fails comes after the values of
    those before them. -/
theorem updateRecords_after
    (h : updateRecords ctx fails ps i rs db = .error (.fault (some p)) db') :
    p.After i 0 ∧ p.isQuery = false ∧ ∃ k ≥ i, p.ijobs = some k := by
  induction rs generalizing i db with
  | nil => cases h
  | cons r rs ih =>
    rcases bind_eq_error.1 h with h | ⟨_, _, -, h⟩
    · obtain ⟨hafter, hi, hq⟩ := updateJob_after h
      exact ⟨hafter, hq, i, le_rfl, hi⟩
    · obtain ⟨hafter, hq, k, hk, hi⟩ := ih h
      exact ⟨hafter.mono (by omega), hq, k, Nat.le_of_succ_le hk, hi⟩

end After

/-! ## The values that are stored -/

section Values

variable {ctx : IndexContext} {fails : Statement → Bool} {db : IndexDb} {p : Statement}
  {i j : ℕ} {ps jobid id : Bytes} {attr : AttrValue} {attrs : List AttrValue} {r : JobRecord}
  {rs : List JobRecord}

/-- Whether a value goes to the table of an attribute. -/
def goesTo (ctx : IndexContext) (id : Bytes) (attr : AttrValue) : Bool :=
  isKnown ctx.conf attr.name && attr2id ctx.md5 attr.name = id

/-- What a result has stored in a table: `n` more rows than before, or less when
    it has ended early; `late` says after which statements something is stored
    for sure. -/
structure Stores (id : Bytes) (db : IndexDb) (n : ℕ) (late : Statement → Prop)
    (result : EStateM.Result Halt IndexDb Unit) : Prop where
  ge : (db.values id).length ≤ ((left result).values id).length
  le : ((left result).values id).length ≤ (db.values id).length + n
  ok : ∀ db', result = .ok () db' → (db'.values id).length = (db.values id).length + n
  late : ∀ p db', result = .error (.fault (some p)) db' → late p →
    (db.values id).length < (db'.values id).length

/-- All of the rows are stored. -/
theorem Stores.all {n : ℕ} {late : Statement → Prop} {result : EStateM.Result Halt IndexDb Unit}
    (h : ((left result).values id).length = (db.values id).length + n) (hn : ∀ p, late p → 0 < n) :
    Stores id db n late result where
  ge := by omega
  le := h.le
  ok db' hr := by rwa [hr] at h
  late p db' hr hp := by
    have := hn p hp
    rw [hr, left_error] at h
    omega

/-- Nothing is stored, and the operation ends at or before the first of them. -/
theorem Stores.early {n : ℕ} {late : Statement → Prop} {e : Halt}
    (h : ∀ p, e = .fault (some p) → ¬late p) : Stores id db n late (.error e db) where
  ge := le_rfl
  le := Nat.le_add_right _ _
  ok _ hr := by cases hr
  late p _ hr hp := by
    cases hr
    exact absurd hp (h p rfl)

theorem Stores.weaken {n m : ℕ} {late late' : Statement → Prop}
    {result : EStateM.Result Halt IndexDb Unit} (h : Stores id db n late result) (hn : n = m)
    (hl : ∀ p, late' p → late p) : Stores id db m late' result :=
  hn ▸ ⟨h.ge, h.le, h.ok, fun p db' hr hp => h.late p db' hr (hl p hp)⟩

/-- One computation after another. -/
theorem Stores.bind {x y : Operation Unit} {n m : ℕ} {late late' : Statement → Prop}
    (hx : Stores id db n late (x db)) (hy : ∀ db', Stores id db' m late' (y db'))
    (hxy : ∀ p db', x db = .error (.fault (some p)) db' → ¬late' p) (hn : ∀ p, late p → 0 < n) :
    Stores id db (n + m) (fun p => late p ∨ late' p) ((x >>= fun _ => y) db) := by
  cases hr : x db with
  | error e db' =>
    rw [hr] at hx
    rw [bind_of_error hr]
    refine ⟨hx.ge, hx.le.trans (by omega), fun _ h => (by cases h), ?_⟩
    rintro p _ ⟨⟩ (hp | hp)
    · exact hx.late p db' rfl hp
    · exact absurd hp (hxy p db' hr)
  | ok _ db' =>
    rw [hr] at hx
    rw [bind_of_ok hr]
    have hok := hx.ok db' rfl
    have hge := (hy db').ge
    have hle := (hy db').le
    refine ⟨by omega, by omega, fun db'' h => ?_, ?_⟩
    · rw [(hy db').ok db'' h]
      omega
    · rintro p db'' h (hp | hp)
      · have := hn p hp
        rw [h, left_error] at hge
        omega
      · have := (hy db').late p db'' h hp
        omega

theorem expectOne_values {stmt : IndexDb → Option (ℕ × IndexDb)}
    (hs : ∀ n db', stmt db = some (n, db') → db'.values = db.values) :
    (left (expectOne fails p stmt db)).values = db.values := by
  rw [expectOne_eq]
  split
  · rename_i n db' h
    have hdb : db'.values = db.values := by
      split_ifs at h
      exact hs n db' h
    split_ifs <;> exact hdb
  · rfl

theorem lazyInsert_values {select insert : Statement} {count : IndexDb → ℕ}
    {stmt : IndexDb → Option IndexDb} (hs : ∀ db db', stmt db = some db' → db'.values = db.values) :
    (left (lazyInsert fails select insert count stmt db)).values = db.values := by
  rw [lazyInsert_eq]
  split_ifs
  · refine expectOne_values fun n db' h => ?_
    obtain ⟨db₁, h, hdb⟩ := Option.map_eq_some_iff.1 h
    rw [← (Prod.mk.inj hdb).2]
    exact hs db db₁ h
  · rfl

/-- Storing a job and its owner stores no values. -/
theorem lazyInsertJob_values {o owner : Option Bytes} :
    (left (lazyInsertJob ctx fails i ps o owner db)).values = db.values := by
  rcases o with _ | o
  · rfl
  · rcases owner with _ | owner
    · rfl
    · have hjob := @lazyInsert_values fails db (.selectJobid i) (.insertJob i)
        (·.countJobs (ctx.md5 o)) (insertJobRow ctx ps o owner) fun db db' h => by
          obtain ⟨_, _, rfl⟩ := Option.map_eq_some_iff.1 h
          rfl
      rw [lazyInsertJob, bind_eq]
      split
      · rename_i h
        rw [h, left_ok] at hjob
        rw [lazyInsert_values fun db db' h => by
          obtain ⟨_, _, rfl⟩ := Option.map_eq_some_iff.1 h
          rfl]
        exact hjob
      · rename_i h
        rwa [h] at hjob

theorem execUpdate_values {sql : Bytes} {n : ℕ} {db' : IndexDb}
    (h : execUpdate ctx sql db = some (n, db')) : db'.values = db.values := by
  simp only [execUpdate, Option.bind_eq_bind, Option.bind_eq_some_iff] at h
  obtain ⟨u, -, h⟩ := h
  split_ifs at h
  · cases h
  · obtain ⟨⟨n, rows⟩, -, h⟩ := Option.bind_eq_some_iff.1 h
    split_ifs at h
    cases h
    rfl

theorem length_insertValueRow (id' : Bytes) (row : AttrRow) :
    ((insertValueRow id' row db).values id).length =
      (db.values id).length + if id' = id then 1 else 0 := by
  by_cases h : id' = id
  · subst h
    simp [insertValueRow]
  · simp [insertValueRow, Function.update_of_ne (Ne.symm h), h]

theorem insertAttrVal_stores (av : Attrval) :
    Stores id db (if attr2id ctx.md5 av.name = id then 1 else 0)
      (fun p => attr2id ctx.md5 av.name = id ∧ p.Follows i j)
      (insertAttrVal ctx fails i j jobid av db) := by
  rw [insertAttrVal, bind_eq]
  cases attrvalRow ctx jobid av with
  | error e => exact .early fun p hp => by cases hp
  | ok r =>
    obtain ⟨row, value⟩ := r
    simp only [liftExec_ok, pure_apply]
    cases hr : expectOne fails (.insertAttrval i j) (fun db =>
        some (1, insertValueRow (attr2id ctx.md5 av.name) row db)) db with
    | error e db' =>
      -- the insertion itself fails
      obtain ⟨rfl, ⟨-, rfl⟩ | ⟨-, n, hn, hstmt⟩⟩ := expectOne_eq_error.1 hr
      · rw [bind_of_error hr]
        refine .early fun p hp => ?_
        cases hp
        exact fun h => h.2.elim (lt_irrefl _) fun h => lt_irrefl _ h.2
      · exact absurd (Prod.mk.inj (Option.some.inj hstmt)).1.symm hn
    | ok _ db' =>
      obtain ⟨-, hdb⟩ := expectOne_eq_ok.1 hr
      rw [bind_of_ok hr]
      have hdb' : db' = insertValueRow (attr2id ctx.md5 av.name) row db :=
        (Prod.mk.inj (Option.some.inj hdb)).2.symm
      refine .all ?_ fun p hp => by simp [hp.1]
      rw [← length_insertValueRow (attr2id ctx.md5 av.name) row, ← hdb']
      split_ifs
      · rw [expectOne_values fun _ _ h => execUpdate_values h]
      · rfl

/-- The name of a value stays the same. -/
theorem soapToAttrVal_name {av : Attrval} (h : soapToAttrVal attr = .ok (some av)) :
    av.name = attr.name := by
  unfold soapToAttrVal at h
  split at h <;> cases h <;> rfl

theorem updateAttr_stores : Stores id db (if goesTo ctx id attr then 1 else 0)
    (fun p => goesTo ctx id attr = true ∧ p.Follows i j)
    (updateAttr ctx fails i j jobid attr db) := by
  rw [updateAttr, bind_eq]
  cases hav : soapToAttrVal attr with
  | error e => exact .early fun p hp => by cases hp
  | ok av =>
    simp only [liftExec_ok, pure_apply, goesTo, Bool.and_eq_true, decide_eq_true_eq]
    by_cases hk : isKnown ctx.conf attr.name = true
    · simp only [hk, true_and, if_true]
      cases av with
      | none => exact .early fun p hp => by cases hp
      | some av =>
        rw [← soapToAttrVal_name hav]
        exact insertAttrVal_stores av
    · simp only [hk, false_and, if_false, Bool.false_eq_true]
      exact .all rfl fun p hp => hp.elim

/-- Storing the values of a record stores those that go to the table. -/
theorem updateAttrs_stores : Stores id db (attrs.countP (goesTo ctx id))
    (fun p => ∃ l a, attrs[l]? = some a ∧ goesTo ctx id a = true ∧ p.Follows i (j + l))
    (updateAttrs ctx fails i jobid j attrs db) := by
  induction attrs generalizing j db with
  | nil => exact .all rfl fun p ⟨l, a, hl, _⟩ => by simp at hl
  | cons attr attrs ih =>
    refine (Stores.bind (updateAttr_stores (j := j)) (fun db' => ih (j := j + 1)) ?_ ?_).weaken ?_ ?_
    · rintro p db' h ⟨l, a, -, -, hp⟩
      rcases eq_of_updateAttr_fault h with rfl | rfl
      · exact hp.elim (lt_irrefl _) fun hp => by omega
      · exact hp.elim (lt_irrefl _) fun hp => by omega
    · intro p hp
      rw [if_pos hp.1]
      exact Nat.one_pos
    · rw [List.countP_cons]
      exact Nat.add_comm _ _
    · rintro p ⟨l, a, hl, ha, hp⟩
      rcases l with _ | l
      · rw [List.getElem?_cons_zero, Option.some.injEq] at hl
        exact .inl ⟨hl ▸ ha, hp⟩
      · rw [List.getElem?_cons_succ] at hl
        refine .inr ⟨l, a, hl, ha, ?_⟩
        rwa [Nat.add_right_comm, Nat.add_assoc]

theorem updateJob_stores : Stores id db (r.attributes.countP (goesTo ctx id))
    (fun p => ∃ l a, r.attributes[l]? = some a ∧ goesTo ctx id a = true ∧ p.Follows i l)
    (updateJob ctx fails i ps r db) := by
  rw [updateJob]
  split_ifs
  · exact .early fun p hp => by cases hp
  · have hlazy := @lazyInsertJob_values ctx fails db i ps r.jobid r.owner
    have hjob : Stores id db 0 (fun _ => False)
        (lazyInsertJob ctx fails i ps r.jobid r.owner db) :=
      .all (by rw [hlazy]; rfl) fun p hp => hp.elim
    refine (hjob.bind (fun db' => updateAttrs_stores (j := 0)) ?_ fun p hp => hp.elim).weaken
      (Nat.zero_add _) ?_
    · rintro p db' h ⟨l, a, -, -, hp⟩
      rcases lazyInsertJob_fault h with rfl | rfl <;> exact lt_irrefl _ hp
    · rintro p ⟨l, a, hl, ha, hp⟩
      exact .inr ⟨l, a, hl, ha, by rwa [Nat.zero_add]⟩

/-- Storing records stores their values that go to the table. -/
theorem updateRecords_stores :
    Stores id db (rs.map fun r => r.attributes.countP (goesTo ctx id)).sum
    (fun p => ∃ k r l a, rs[k]? = some r ∧ r.attributes[l]? = some a ∧ goesTo ctx id a = true ∧
      p.Follows (i + k) l)
    (updateRecords ctx fails ps i rs db) := by
  induction rs generalizing i db with
  | nil => exact .all rfl fun p ⟨k, r, l, a, hk, _⟩ => by simp at hk
  | cons r rs ih =>
    refine (Stores.bind (updateJob_stores (i := i)) (fun db' => ih (i := i + 1)) ?_ ?_).weaken rfl ?_
    · rintro p db' h ⟨k, r, l, a, -, -, -, hp⟩
      have := hp.le (updateJob_after h).2.1
      omega
    · rintro p ⟨l, a, hl, ha, -⟩
      exact List.countP_pos_iff.2 ⟨a, List.mem_of_getElem? hl, ha⟩
    · rintro p ⟨k, r', l, a, hk, hl, ha, hp⟩
      rcases k with _ | k
      · rw [List.getElem?_cons_zero, Option.some.injEq] at hk
        exact .inl ⟨l, a, hk ▸ hl, ha, hp⟩
      · rw [List.getElem?_cons_succ] at hk
        refine .inr ⟨k, r', l, a, hk, hl, ha, ?_⟩
        rwa [Nat.add_right_comm, Nat.add_assoc]

/-- What no query and no statement on feeds, jobs or users does. -/
theorem markDone_values {feed : FeedRow} {feedDone : Bool} :
    (left (markDone fails feed feedDone db)).values = db.values := by
  rw [markDone]
  split_ifs
  · refine expectOne_values fun n db' h => ?_
    rw [← (Prod.mk.inj (Option.some.inj h)).2]
  · rfl

/-- The operation stores the values of its message that go to the table. -/
theorem updateJobs_stores (msg : UpdateJobs) :
    Stores id db (msg.jobAttributes.map fun r => r.attributes.countP (goesTo ctx id)).sum
    (fun p => ∃ k r l a, msg.jobAttributes[k]? = some r ∧ r.attributes[l]? = some a ∧
      goesTo ctx id a = true ∧ p.Follows k l)
    (updateJobs ctx fails msg db) := by
  rw [updateJobs, bind_eq, selectInfoFeed]
  cases hfeed : if fails .selectInfoFeed then none else db.feed msg.feedId with
  | none =>
    refine .early fun p hp => ?_
    cases hp
    exact fun ⟨_, _, _, _, _, _, _, h⟩ => h
  | some feed =>
    have hdone : Stores id db 0 (fun _ => False) (markDone fails feed msg.feedDone db) :=
      .all (by rw [markDone_values]; rfl) fun p hp => hp.elim
    refine (hdone.bind (fun db' => updateRecords_stores) ?_ fun p hp => hp.elim).weaken
      (Nat.zero_add _) ?_
    · rintro p db' h ⟨_, _, _, _, -, -, -, hp⟩
      rw [markDone] at h
      split_ifs at h
      · have hfault := (expectOne_eq_error.1 h).1
        cases hfault
        exact hp
      · cases h
    · rintro p ⟨k, r, l, a, hk, hl, ha, hp⟩
      exact .inr ⟨k, r, l, a, hk, hl, ha, by rwa [Nat.zero_add]⟩

end Values

/-! ## After an early failure -/

section Rerun

variable {ctx : IndexContext} {db db' : IndexDb} {p : Statement} {i j : ℕ} {ps jobid : Bytes}
  {attr : AttrValue} {attrs : List AttrValue} {r : JobRecord} {rs : List JobRecord}

/-- No statement fails. -/
def never : Statement → Bool := fun _ => false

/-- One statement fails. -/
def only (p : Statement) : Statement → Bool := fun q => q = p

theorem only_self (p : Statement) : only p p = true := decide_eq_true rfl

theorem only_of_ne {p q : Statement} (h : q ≠ p) : only p q = false := decide_eq_false h

/-- What an early failure keeps: the jobs and users that are there, and the
    feeds. -/
structure Grows (db db' : IndexDb) : Prop where
  jobs : ∀ h, db.countJobs h ≠ 0 → db'.countJobs h ≠ 0
  users : ∀ h, db.countUsers h ≠ 0 → db'.countUsers h ≠ 0
  feeds : db'.feeds = db.feeds

theorem Grows.refl (db : IndexDb) : Grows db db := ⟨fun _ h => h, fun _ h => h, rfl⟩

theorem Grows.trans {db'' : IndexDb} (h : Grows db db') (h' : Grows db' db'') : Grows db db'' where
  jobs x hx := h'.jobs x (h.jobs x hx)
  users x hx := h'.users x (h.users x hx)
  feeds := h'.feeds.trans h.feeds

theorem insertJobRow_grows {owner : Bytes} (h : insertJobRow ctx ps jobid owner db = some db') :
    Grows db db' ∧ db'.countJobs (ctx.md5 jobid) ≠ 0 := by
  obtain ⟨jobs, hj, rfl⟩ := Option.map_eq_some_iff.1 h
  have hrows := (Table.insert_eq_some.1 hj).2
  refine ⟨⟨fun x hx => ?_, fun _ hx => hx, rfl⟩, ?_⟩
  · rw [IndexDb.countJobs, hrows, List.countP_append]
    rw [IndexDb.countJobs] at hx
    omega
  · rw [IndexDb.countJobs, hrows, List.countP_append]
    simp

theorem insertUserRow_grows {owner : Bytes} (h : insertUserRow ctx owner db = some db') :
    Grows db db' ∧ db'.countUsers (ctx.md5 owner) ≠ 0 := by
  obtain ⟨users, hu, rfl⟩ := Option.map_eq_some_iff.1 h
  have hrows := (Table.insert_eq_some.1 hu).2
  refine ⟨⟨fun _ hx => hx, fun x hx => ?_, rfl⟩, ?_⟩
  · rw [IndexDb.countUsers, hrows, List.countP_append]
    rw [IndexDb.countUsers] at hx
    omega
  · rw [IndexDb.countUsers, hrows, List.countP_append]
    simp

/-- What an insertion that does not fail finds or leaves. -/
theorem lazyInsert_ok {select insert : Statement} {count : IndexDb → ℕ}
    {stmt : IndexDb → Option IndexDb}
    (hs : ∀ db db', stmt db = some db' → Grows db db' ∧ count db' ≠ 0)
    (h : lazyInsert never select insert count stmt db = .ok () db') :
    Grows db db' ∧ count db' ≠ 0 := by
  rw [lazyInsert_eq] at h
  split_ifs at h with hc
  · obtain ⟨-, h⟩ := expectOne_eq_ok.1 h
    obtain ⟨db₁, h, hdb⟩ := Option.map_eq_some_iff.1 h
    exact (Prod.mk.inj hdb).2 ▸ hs db db₁ h
  · cases h
    exact ⟨.refl _, fun h0 => hc ⟨rfl, h0⟩⟩

theorem lazyInsert_of_count {select insert : Statement} {count : IndexDb → ℕ}
    {stmt : IndexDb → Option IndexDb} {fails : Statement → Bool} (hc : count db ≠ 0) :
    lazyInsert fails select insert count stmt db = .ok () db := by
  rw [lazyInsert_eq, if_neg fun h => hc h.2]

theorem expectOne_of_ne {q : Statement} (h : q ≠ p) :
    expectOne (only p) q = expectOne never q := by
  funext stmt db
  rw [expectOne_eq, expectOne_eq, only_of_ne h]
  rfl

/-- A failure elsewhere does not show in an insertion. -/
theorem lazyInsert_of_ne {select insert : Statement} {count : IndexDb → ℕ}
    {stmt : IndexDb → Option IndexDb} (hs : select ≠ p) (hi : insert ≠ p) :
    lazyInsert (only p) select insert count stmt db =
      lazyInsert never select insert count stmt db := by
  rw [lazyInsert_eq, lazyInsert_eq, only_of_ne hs, expectOne_of_ne hi]
  rfl

/-- An insertion that fails leaves the database as it is. -/
theorem lazyInsert_fails {select insert : Statement} {count : IndexDb → ℕ}
    {stmt : IndexDb → Option IndexDb} {e : Halt}
    (h : lazyInsert (only insert) select insert count stmt db = .error e db') : db' = db := by
  rw [lazyInsert_eq] at h
  split_ifs at h
  rcases (expectOne_eq_error.1 h).2 with h | h
  · exact h.2
  · exact absurd h.1 (by rw [only_self]; exact Bool.noConfusion)

/-- Storing a job and its owner leaves both there. -/
theorem lazyInsertJob_ok {owner : Bytes}
    (h : lazyInsertJob ctx never i ps (some jobid) (some owner) db = .ok () db') :
    Grows db db' ∧ db'.countJobs (ctx.md5 jobid) ≠ 0 ∧ db'.countUsers (ctx.md5 owner) ≠ 0 := by
  obtain ⟨_, db₁, h₁, h₂⟩ := bind_eq_ok.1 h
  obtain ⟨hg₁, hc₁⟩ := lazyInsert_ok (fun _ _ h => insertJobRow_grows h) h₁
  obtain ⟨hg₂, hc₂⟩ := lazyInsert_ok (fun _ _ h => insertUserRow_grows h) h₂
  exact ⟨hg₁.trans hg₂, hg₂.jobs _ hc₁, hc₂⟩

/-- When both are there, nothing happens. -/
theorem lazyInsertJob_of_count {owner : Bytes} {fails : Statement → Bool}
    (hj : db.countJobs (ctx.md5 jobid) ≠ 0) (hu : db.countUsers (ctx.md5 owner) ≠ 0) :
    lazyInsertJob ctx fails i ps (some jobid) (some owner) db = .ok () db := by
  rw [lazyInsertJob, bind_of_ok (lazyInsert_of_count hj), lazyInsert_of_count hu]

/-- A job or owner that is not stored because one insertion fails is stored when
    it is tried again. -/
theorem lazyInsertJob_rerun {o owner : Option Bytes}
    (h : lazyInsertJob ctx (only p) i ps o owner db = .error (.fault (some p)) db') :
    Grows db db' ∧
      lazyInsertJob ctx never i ps o owner db' = lazyInsertJob ctx never i ps o owner db := by
  rcases o with _ | jobid
  · cases h
  rcases owner with _ | owner
  · cases h
  rcases lazyInsertJob_fault h with rfl | rfl
  · rcases bind_eq_error.1 h with h | ⟨_, _, -, h⟩
    · rw [lazyInsert_fails h]
      exact ⟨.refl _, rfl⟩
    · cases lazyInsert_fault h
  · rcases bind_eq_error.1 h with h | ⟨_, db₁, h₁, h⟩
    · cases lazyInsert_fault h
    · -- the job is stored, its owner is not
      rw [lazyInsert_of_ne (by simp) (by simp)] at h₁
      obtain ⟨hg, hc⟩ := lazyInsert_ok (fun _ _ h => insertJobRow_grows h) h₁
      rw [lazyInsert_fails h]
      refine ⟨hg, ?_⟩
      rw [lazyInsertJob, bind_of_ok h₁, bind_of_ok (lazyInsert_of_count hc)]

/-- A failure elsewhere does not show in storing a job. -/
theorem lazyInsertJob_of_ne {o owner : Option Bytes} (hq : p.isQuery = false)
    (hp : p ≠ .insertJob i ∧ p ≠ .insertUser i) :
    lazyInsertJob ctx (only p) i ps o owner = lazyInsertJob ctx never i ps o owner := by
  have hne : ∀ q, q.isQuery = true → q ≠ p := by
    rintro q hq' rfl
    rw [hq] at hq'
    cases hq'
  funext db
  rcases o with _ | o
  · rfl
  rcases owner with _ | owner
  · rfl
  rw [lazyInsertJob, lazyInsertJob, bind_eq, bind_eq, lazyInsert_of_ne (hne _ rfl) (Ne.symm hp.1)]
  split
  · exact lazyInsert_of_ne (hne _ rfl) (Ne.symm hp.2)
  · rfl

/-- A value of an attribute that is not known is only looked at. -/
theorem updateAttr_of_unknown {fails : Statement → Bool} (h : isKnown ctx.conf attr.name = false) :
    updateAttr ctx fails i j jobid attr db = match soapToAttrVal attr with
      | .ok _ => .ok () db
      | .error _ => .error .abort db := by
  rw [updateAttr, bind_eq]
  cases soapToAttrVal attr with
  | error e => rfl
  | ok av =>
    simp only [liftExec_ok, pure_apply, h, Bool.false_eq_true, if_false]

/-- Values none of which is known store nothing, in whatever database. -/
theorem updateAttrs_of_unknown {fails : Statement → Bool} (fails' : Statement → Bool)
    (hk : ∀ a ∈ attrs, isKnown ctx.conf a.name = false)
    (h : updateAttrs ctx fails i jobid j attrs db = .ok () db') :
    db' = db ∧ ∀ db₀, updateAttrs ctx fails' i jobid j attrs db₀ = .ok () db₀ := by
  induction attrs generalizing j db with
  | nil =>
    cases h
    exact ⟨rfl, fun db₀ => rfl⟩
  | cons attr attrs ih =>
    rw [List.forall_mem_cons] at hk
    obtain ⟨_, db₁, h₁, h⟩ := bind_eq_ok.1 h
    rw [updateAttr_of_unknown hk.1] at h₁
    cases hav : soapToAttrVal attr with
    | error e =>
      rw [hav] at h₁
      cases h₁
    | ok av =>
      rw [hav] at h₁
      cases h₁
      obtain ⟨rfl, hall⟩ := ih hk.2 h
      refine ⟨rfl, fun db₀ => ?_⟩
      have hattr : updateAttr ctx fails' i j jobid attr db₀ = .ok () db₀ := by
        rw [updateAttr_of_unknown hk.1, hav]
      rw [updateAttrs, bind_of_ok hattr, hall]

/-- An insertion of a value that fails leaves the database as it is. -/
theorem updateAttr_fails
    (h : updateAttr ctx (only (.insertAttrval i j)) i j jobid attr db =
      .error (.fault (some (.insertAttrval i j))) db') : db' = db := by
  rcases bind_eq_error.1 h with h₁ | ⟨av, db₁, h₁, h₂⟩
  · cases liftExec_eq_error h₁
  rw [(liftExec_eq_ok.1 h₁).2] at h₂
  split_ifs at h₂
  · rcases bind_eq_error.1 h₂ with h₃ | ⟨av', db₂, h₃, h₄⟩
    · cases liftExec_eq_error h₃
    rw [(liftExec_eq_ok.1 h₃).2] at h₄
    rcases bind_eq_error.1 h₄ with h₅ | ⟨row, db₃, h₅, h₆⟩
    · cases liftExec_eq_error h₅
    rw [(liftExec_eq_ok.1 h₅).2] at h₆
    rcases bind_eq_error.1 h₆ with h₇ | ⟨_, _, -, h₇⟩
    · rcases (expectOne_eq_error.1 h₇).2 with h₈ | h₈
      · exact h₈.2
      · exact absurd h₈.1 (by rw [only_self]; exact Bool.noConfusion)
    · split_ifs at h₇
      · cases (expectOne_eq_error.1 h₇).1
      · cases h₇
  · cases h₂

/-- Failing before the first known value leaves the database as it is. -/
theorem updateAttrs_early
    (h : updateAttrs ctx (only p) i jobid j attrs db = .error (.fault (some p)) db')
    (hp : ∀ l a, attrs[l]? = some a → isKnown ctx.conf a.name = true → ¬p.Follows i (j + l)) :
    db' = db := by
  induction attrs generalizing j db with
  | nil => cases h
  | cons attr attrs ih =>
    rcases bind_eq_error.1 h with h₁ | ⟨_, db₁, h₁, h₂⟩
    · rcases eq_of_updateAttr_fault h₁ with rfl | rfl
      · exact updateAttr_fails h₁
      · -- the column comes after the value of its attribute
        by_cases hk : isKnown ctx.conf attr.name = true
        · exact absurd (.inr ⟨rfl, le_rfl⟩) (hp 0 attr rfl hk)
        · rw [updateAttr_of_unknown (by simpa using hk)] at h₁
          split at h₁ <;> cases h₁
    · -- a later value fails, so this one is not known
      have hk : isKnown ctx.conf attr.name = false := by
        by_contra hk
        exact hp 0 attr rfl (by simpa using hk)
          ((updateAttrs_after h₂).1 i j (.inr ⟨rfl, Nat.lt_succ_self j⟩))
      have hdb : db₁ = db := by
        rw [updateAttr_of_unknown hk] at h₁
        split at h₁ <;> cases h₁
        rfl
      rw [hdb] at h₂
      refine ih h₂ fun l a hl ha hf => hp (l + 1) a (by simpa using hl) ha ?_
      rwa [Nat.add_right_comm, Nat.add_assoc] at hf

theorem updateJob_eq {fails : Statement → Bool} (hr : r.remove ≠ some true) :
    updateJob ctx fails i ps r = lazyInsertJob ctx fails i ps r.jobid r.owner >>= fun _ =>
      updateAttrs ctx fails i (r.jobid.getD []) 0 r.attributes := by
  rw [updateJob, if_neg hr]

/-- After a record failed early, it is stored as it would have been at first. -/
theorem updateJob_rerun
    (h : updateJob ctx (only p) i ps r db = .error (.fault (some p)) db')
    (hp : ∀ l a, r.attributes[l]? = some a → isKnown ctx.conf a.name = true → ¬p.Follows i l) :
    Grows db db' ∧ updateJob ctx never i ps r db' = updateJob ctx never i ps r db := by
  by_cases hr : r.remove = some true
  · rw [updateJob, if_pos hr] at h
    cases h
  rw [updateJob_eq hr] at h
  rw [updateJob_eq hr]
  rcases bind_eq_error.1 h with h₁ | ⟨_, db₁, h₁, h₂⟩
  · obtain ⟨hg, heq⟩ := lazyInsertJob_rerun h₁
    exact ⟨hg, by rw [bind_eq, heq, ← bind_eq]⟩
  · have hdb : db' = db₁ := updateAttrs_early h₂ (by simpa using hp)
    obtain ⟨-, -, hq⟩ := updateAttrs_after h₂
    have hne : p ≠ .insertJob i ∧ p ≠ .insertUser i := by
      obtain ⟨l, -, rfl | rfl⟩ := updateAttrs_fault h₂ <;> exact ⟨by simp, by simp⟩
    rw [lazyInsertJob_of_ne hq hne] at h₁
    obtain ⟨jobid, owner, hj, ho⟩ := lazyInsertJob_some h₁
    rw [hj, ho] at h₁ ⊢
    obtain ⟨hg, hcj, hcu⟩ := lazyInsertJob_ok h₁
    rw [hdb]
    exact ⟨hg, by rw [bind_of_ok h₁, bind_of_ok (lazyInsertJob_of_count hcj hcu)]⟩

/-- A record before the one that failed, none of whose values is known, is
    stored once and for all. -/
theorem updateJob_of_unknown (h : updateJob ctx (only p) i ps r db = .ok () db')
    (hq : p.isQuery = false) (hp : p.ijobs ≠ some i)
    (hk : ∀ a ∈ r.attributes, isKnown ctx.conf a.name = false) :
    Grows db db' ∧ updateJob ctx never i ps r db = .ok () db' ∧
      ∀ db₁, Grows db' db₁ → updateJob ctx never i ps r db₁ = .ok () db₁ := by
  by_cases hr : r.remove = some true
  · rw [updateJob, if_pos hr] at h
    cases h
  rw [updateJob_eq hr] at h
  have hne : p ≠ .insertJob i ∧ p ≠ .insertUser i := by
    constructor <;> rintro rfl <;> exact hp rfl
  obtain ⟨_, db₁, h₁, h₂⟩ := bind_eq_ok.1 h
  obtain ⟨rfl, hall⟩ := updateAttrs_of_unknown never hk h₂
  rw [lazyInsertJob_of_ne hq hne] at h₁
  obtain ⟨jobid, owner, hj, ho⟩ := lazyInsertJob_some h₁
  rw [updateJob_eq hr]
  rw [hj, ho] at h₁ ⊢
  rw [hj] at hall
  obtain ⟨hg, hcj, hcu⟩ := lazyInsertJob_ok h₁
  refine ⟨hg, by rw [bind_of_ok h₁, hall], fun db₂ hdb => ?_⟩
  rw [bind_of_ok (lazyInsertJob_of_count (hdb.jobs _ hcj) (hdb.users _ hcu)), hall]

/-- After storing the records failed early, they are stored as they would have
    been at first. -/
theorem updateRecords_rerun
    (h : updateRecords ctx (only p) ps i rs db = .error (.fault (some p)) db')
    (hp : ∀ k r l a, rs[k]? = some r → r.attributes[l]? = some a →
      isKnown ctx.conf a.name = true → ¬p.Follows (i + k) l) :
    Grows db db' ∧ updateRecords ctx never ps i rs db' = updateRecords ctx never ps i rs db := by
  induction rs generalizing i db with
  | nil => cases h
  | cons r rs ih =>
    rcases bind_eq_error.1 h with h₁ | ⟨_, db₁, h₁, h₂⟩
    · obtain ⟨hg, heq⟩ := updateJob_rerun h₁ fun l a hl ha => hp 0 r l a rfl hl ha
      exact ⟨hg, by rw [updateRecords, bind_eq, heq, ← bind_eq]⟩
    · obtain ⟨hafter, hq, k, hik, hpk⟩ := updateRecords_after h₂
      have hk : ∀ a ∈ r.attributes, isKnown ctx.conf a.name = false := by
        intro a ha
        obtain ⟨l, hl⟩ := List.getElem?_of_mem ha
        by_contra hk
        exact hp 0 r l a rfl hl (by simpa using hk) (hafter i l (.inl (Nat.lt_succ_self i)))
      have hi : p.ijobs ≠ some i := by
        rw [hpk, ne_eq, Option.some.injEq]
        omega
      obtain ⟨hg₁, hjob, hagain⟩ := updateJob_of_unknown h₁ hq hi hk
      obtain ⟨hg, heq⟩ := ih h₂ fun k r' l a hk' hl ha hf =>
        hp (k + 1) r' l a (by simpa using hk') hl ha (by rwa [Nat.add_right_comm, Nat.add_assoc] at hf)
      refine ⟨hg₁.trans hg, ?_⟩
      rw [updateRecords, bind_of_ok (hagain db' hg), heq, bind_of_ok hjob]

theorem feed_setState (db : IndexDb) (feedid : Bytes) (state uniqueid : ℕ) :
    (updateStateFeed state uniqueid db).2.feed feedid =
      (db.feed feedid).map (FeedRow.setState state uniqueid) := by
  simp only [updateStateFeed, IndexDb.feed, Table.update, List.find?_map, Function.comp_def,
    FeedRow.feedid_setState]

/-- A feed that is marked done is marked once and for all. -/
theorem markDone_rerun {feed : FeedRow} {feedDone : Bool} {feedid : Bytes}
    (hf : db.feed feedid = some feed) (h : markDone never feed feedDone db = .ok () db') :
    ∃ feed', db'.feed feedid = some feed' ∧ feed'.source = feed.source ∧
      ∀ db₁, markDone never feed' feedDone db₁ = .ok () db₁ := by
  rw [markDone] at h
  split_ifs at h with hd
  · obtain ⟨-, h⟩ := expectOne_eq_ok.1 h
    have hdb : db' = (updateStateFeed (feed.state ||| GLITE_JP_IS_STATE_DONE) feed.uniqueid db).2 :=
      congrArg Prod.snd (Option.some.inj h).symm
    refine ⟨feed.setState (feed.state ||| GLITE_JP_IS_STATE_DONE) feed.uniqueid, ?_,
      FeedRow.source_setState _ _ _, fun db₁ => ?_⟩
    · rw [hdb, feed_setState, hf, Option.map_some]
    · have hstate : (feed.setState (feed.state ||| GLITE_JP_IS_STATE_DONE) feed.uniqueid).state =
          feed.state ||| GLITE_JP_IS_STATE_DONE := by rw [FeedRow.setState, if_pos rfl]
      have hbit : ¬(feed.state ||| GLITE_JP_IS_STATE_DONE) &&& GLITE_JP_IS_STATE_DONE = 0 := by
        rw [Nat.and_or_distrib_right, Nat.and_self]
        exact fun h0 => absurd (Nat.or_eq_zero_iff.1 h0).2 (by decide)
      rw [markDone, hstate, if_neg fun h => hbit h.2]
      rfl
  · cases h
    refine ⟨feed, hf, rfl, fun db₁ => ?_⟩
    rw [markDone, if_neg hd]
    rfl

/-- After an early failure, the operation does what it would have done at
    first. -/
theorem rerun_updateJobs {msg : UpdateJobs}
    (h : updateJobs ctx (only p) msg db = .error (.fault (some p)) db')
    (hp : ∀ k r l a, msg.jobAttributes[k]? = some r → r.attributes[l]? = some a →
      isKnown ctx.conf a.name = true → ¬p.Follows k l) :
    updateJobs ctx never msg db' = updateJobs ctx never msg db := by
  rcases bind_eq_error.1 h with h₁ | ⟨feed, db₁, h₁, h₂⟩
  · have hdb : db' = db := by
      rw [selectInfoFeed] at h₁
      split at h₁ <;> cases h₁
      rfl
    rw [hdb]
  · have hfeed : (p ≠ .selectInfoFeed ∧ db.feed msg.feedId = some feed) ∧ db₁ = db := by
      rw [selectInfoFeed] at h₁
      split at h₁
      · rename_i hr
        cases h₁
        split_ifs at hr with hs
        refine ⟨⟨fun hp => hs ?_, hr⟩, rfl⟩
        rw [hp, only_self]
      · cases h₁
    obtain ⟨⟨hp₀, hf⟩, rfl⟩ := hfeed
    have hsel : ∀ {db : IndexDb} {f : FeedRow}, db.feed msg.feedId = some f →
        selectInfoFeed never msg.feedId db = .ok f db := fun hf => by
      rw [selectInfoFeed, never, if_neg Bool.false_ne_true, hf]
    rcases bind_eq_error.1 h₂ with h₃ | ⟨_, db₂, h₃, h₄⟩
    · have hdb : db' = db₁ := by
        rw [markDone] at h₃
        split_ifs at h₃
        · obtain ⟨hpe, h₃⟩ := expectOne_eq_error.1 h₃
          cases hpe
          rcases h₃ with h₃ | h₃
          · exact h₃.2
          · exact absurd h₃.1 (by rw [only_self]; exact Bool.noConfusion)
        · cases h₃
      rw [hdb]
    · obtain ⟨-, -, k, -, hk⟩ := updateRecords_after h₄
      have hmark : markDone never feed msg.feedDone db₁ = .ok () db₂ := by
        have hne : Statement.updateStateFeed ≠ p := by
          rintro rfl
          cases hk
        rw [markDone] at h₃ ⊢
        rwa [expectOne_of_ne hne] at h₃
      obtain ⟨feed', hf', hsource, hagain⟩ := markDone_rerun hf hmark
      obtain ⟨hg, heq⟩ := updateRecords_rerun h₄ fun k r l a hk hl ha => by
        rw [Nat.zero_add]
        exact hp k r l a hk hl ha
      have hf'' : db'.feed msg.feedId = some feed' := by
        rw [IndexDb.feed, hg.feeds]
        exact hf'
      rw [updateJobs, bind_of_ok (hsel hf''), bind_of_ok (hagain db'), hsource, heq,
        bind_of_ok (hsel hf), bind_of_ok hmark]

end Rerun

/-! ## What the server accepts -/

section Accepts

variable (ctx : IndexContext)

/-- What a value of a job adds to the database: its row, when its attribute is
    known, and its column, when there is one. -/
def addAttr (jobid : Bytes) (db : IndexDb) (attr : AttrValue) : IndexDb :=
  if isKnown ctx.conf attr.name then
    match soapToAttrVal attr with
    | .ok (some av) =>
      match attrvalRow ctx jobid av with
      | .ok (row, value) =>
        let id := attr2id ctx.md5 attr.name
        let db := insertValueRow id row db
        if hasColumn ctx.conf attr.name then
          ((execUpdate ctx (insertSingleattrvalSql id value jobid) db).map Prod.snd).getD db
        else db
      | .error _ => db
    | _ => db
  else db

/-- Whether the database takes a value of a job: there is one, and when its
    attribute is known, it has a text, and setting its column changes one row. -/
def TakesAttr (jobid : Bytes) (db : IndexDb) (attr : AttrValue) : Prop :=
  attr.value ≠ none ∧ (isKnown ctx.conf attr.name = true → ∃ av row value,
    soapToAttrVal attr = .ok (some av) ∧ attrvalRow ctx jobid av = .ok (row, value) ∧
      (hasColumn ctx.conf attr.name = true →
        (execUpdate ctx (insertSingleattrvalSql (attr2id ctx.md5 attr.name) value jobid)
          (insertValueRow (attr2id ctx.md5 attr.name) row db)).map Prod.fst = some 1))

/-- Whether the database takes the parts of a list in turn, each adding something
    to it. -/
def TakesAll {α : Type} (takes : IndexDb → α → Prop) (add : IndexDb → α → IndexDb) :
    IndexDb → List α → Prop
  | _, [] => True
  | db, a :: as => takes db a ∧ TakesAll takes add (add db a) as

/-- What a record adds to the database: the job and its owner, unless they are
    there, and the values. -/
def addRecord (ps : Bytes) (db : IndexDb) (r : JobRecord) : IndexDb :=
  match r.jobid, r.owner with
  | some jobid, some owner =>
    let db := (insertJobRow ctx ps jobid owner db).getD db
    let db := (insertUserRow ctx owner db).getD db
    r.attributes.foldl (addAttr ctx jobid) db
  | _, _ => db

/-- Whether the database takes a record: it does not ask to remove the job, it
    names the job and its owner, both are there or can be inserted, and its
    values are taken. -/
def TakesRecord (ps : Bytes) (db : IndexDb) (r : JobRecord) : Prop :=
  r.remove ≠ some true ∧ ∃ jobid owner, r.jobid = some jobid ∧ r.owner = some owner ∧
    (db.countJobs (ctx.md5 jobid) ≠ 0 ∨ (insertJobRow ctx ps jobid owner db).isSome) ∧
    (db.countUsers (ctx.md5 owner) ≠ 0 ∨ (insertUserRow ctx owner db).isSome) ∧
    TakesAll (TakesAttr ctx jobid) (addAttr ctx jobid)
      ((insertUserRow ctx owner ((insertJobRow ctx ps jobid owner db).getD db)).getD
        ((insertJobRow ctx ps jobid owner db).getD db)) r.attributes

/-- Whether the server accepts a message: it knows the feed, and the database
    takes the records in turn. -/
def Accepts (msg : UpdateJobs) (db : IndexDb) : Prop :=
  ∃ feed, db.feed msg.feedId = some feed ∧
    TakesAll (TakesRecord ctx feed.source) (addRecord ctx feed.source)
      (if msg.feedDone ∧ feed.state &&& GLITE_JP_IS_STATE_DONE = 0 then
        (updateStateFeed (feed.state ||| GLITE_JP_IS_STATE_DONE) feed.uniqueid db).2
      else db) msg.jobAttributes

variable {ctx} {db db' : IndexDb} {i j : ℕ} {ps jobid : Bytes} {attr : AttrValue}
  {attrs : List AttrValue} {r : JobRecord} {rs : List JobRecord}

/-- Without failures, a statement goes by the database. -/
theorem expectOne_never {p : Statement} {stmt : IndexDb → Option (ℕ × IndexDb)} :
    expectOne never p stmt db = .ok () db' ↔ stmt db = some (1, db') :=
  expectOne_eq_ok.trans (and_iff_right rfl)

theorem soapToAttrVal_isOk : (∃ av, soapToAttrVal attr = .ok av) ↔ attr.value ≠ none := by
  unfold soapToAttrVal
  split <;> simp_all

theorem insertAttrVal_never {av : Attrval} : insertAttrVal ctx never i j jobid av db = .ok () db' ↔
    ∃ row value, attrvalRow ctx jobid av = .ok (row, value) ∧
      if hasColumn ctx.conf av.name then
        execUpdate ctx (insertSingleattrvalSql (attr2id ctx.md5 av.name) value jobid)
          (insertValueRow (attr2id ctx.md5 av.name) row db) = some (1, db')
      else db' = insertValueRow (attr2id ctx.md5 av.name) row db := by
  rw [insertAttrVal, bind_eq_ok]
  constructor
  · rintro ⟨⟨row, value⟩, db₁, h₁, h₂⟩
    obtain ⟨hrow, rfl⟩ := liftExec_eq_ok.1 h₁
    obtain ⟨_, db₂, h₃, h₄⟩ := bind_eq_ok.1 h₂
    obtain ⟨-, rfl⟩ := Prod.mk.inj (Option.some.inj (expectOne_never.1 h₃))
    refine ⟨row, value, hrow, ?_⟩
    split_ifs at h₄ ⊢
    · exact expectOne_never.1 h₄
    · cases h₄
      rfl
  · rintro ⟨row, value, hrow, h⟩
    refine ⟨(row, value), db, liftExec_eq_ok.2 ⟨hrow, rfl⟩, ?_⟩
    refine bind_eq_ok.2 ⟨(), _, expectOne_never.2 rfl, ?_⟩
    split_ifs at h ⊢
    · exact expectOne_never.2 h
    · rw [h]
      rfl

theorem updateAttr_never : updateAttr ctx never i j jobid attr db = .ok () db' ↔
    TakesAttr ctx jobid db attr ∧ db' = addAttr ctx jobid db attr := by
  by_cases hk : isKnown ctx.conf attr.name = true
  · rw [TakesAttr, addAttr, if_pos hk, ← soapToAttrVal_isOk, updateAttr, bind_eq_ok]
    constructor
    · rintro ⟨av, db₁, h₁, h₂⟩
      obtain ⟨hav, rfl⟩ := liftExec_eq_ok.1 h₁
      rw [if_pos hk] at h₂
      obtain ⟨av', db₂, h₃, h₄⟩ := bind_eq_ok.1 h₂
      obtain ⟨h₅, rfl⟩ := liftExec_eq_ok.1 h₃
      obtain rfl := Exec.deref_eq_ok.1 h₅
      obtain ⟨row, value, hrow, h⟩ := insertAttrVal_never.1 h₄
      rw [soapToAttrVal_name hav] at h
      simp only [hav, hrow]
      split_ifs at h ⊢ with hc
      · exact ⟨⟨⟨_, rfl⟩, fun _ => ⟨av', row, value, rfl, hrow, fun _ => by rw [h]; rfl⟩⟩, by rw [h]; rfl⟩
      · exact ⟨⟨⟨_, rfl⟩, fun _ => ⟨av', row, value, rfl, hrow, fun h' => absurd h' hc⟩⟩, h⟩
    · rintro ⟨⟨-, h⟩, hdb⟩
      obtain ⟨av, row, value, hav, hrow, hcol⟩ := h hk
      simp only [hav, hrow] at hdb
      refine ⟨some av, db, liftExec_eq_ok.2 ⟨hav, rfl⟩, ?_⟩
      rw [if_pos hk]
      refine bind_eq_ok.2 ⟨av, db, liftExec_eq_ok.2 ⟨rfl, rfl⟩, ?_⟩
      refine insertAttrVal_never.2 ⟨row, value, hrow, ?_⟩
      rw [soapToAttrVal_name hav]
      split_ifs at hdb ⊢ with hc
      · obtain ⟨⟨n, db₁⟩, hu, hn⟩ := Option.map_eq_some_iff.1 (hcol hc)
        rw [hu] at hdb ⊢
        rw [hdb, ← hn]
        rfl
      · exact hdb
  · rw [updateAttr_of_unknown (by simpa using hk), TakesAttr, addAttr, if_neg hk,
      ← soapToAttrVal_isOk]
    cases soapToAttrVal attr with
    | error e => simp
    | ok av =>
      simp only [EStateM.Result.ok.injEq, true_and, Except.ok.injEq, exists_eq', hk,
        Bool.false_eq_true, false_imp_iff, and_true]
      exact eq_comm

/-- A list of values is stored when the database takes them. -/
theorem updateAttrs_never : updateAttrs ctx never i jobid j attrs db = .ok () db' ↔
    TakesAll (TakesAttr ctx jobid) (addAttr ctx jobid) db attrs ∧
      db' = attrs.foldl (addAttr ctx jobid) db := by
  induction attrs generalizing j db with
  | nil =>
    simp [updateAttrs, TakesAll, eq_comm]
  | cons attr attrs ih =>
    rw [updateAttrs, bind_eq_ok, TakesAll, List.foldl_cons, and_assoc, ← ih]
    constructor
    · rintro ⟨_, db₁, h₁, h₂⟩
      obtain ⟨ht, rfl⟩ := updateAttr_never.1 h₁
      exact ⟨ht, h₂⟩
    · rintro ⟨ht, h⟩
      exact ⟨(), _, updateAttr_never.2 ⟨ht, rfl⟩, h⟩

/-- What is inserted lazily is there or can be inserted. -/
theorem lazyInsert_never {select insert : Statement} {count : IndexDb → ℕ}
    {stmt : IndexDb → Option IndexDb} (hc : count db ≠ 0 → stmt db = none) :
    lazyInsert never select insert count stmt db = .ok () db' ↔
      (count db ≠ 0 ∨ (stmt db).isSome) ∧ db' = (stmt db).getD db := by
  by_cases h0 : count db = 0
  · rw [lazyInsert_eq, if_pos ⟨rfl, h0⟩, expectOne_never]
    cases stmt db <;> simp [h0, eq_comm]
  · rw [lazyInsert_of_count h0, hc h0]
    simp [h0, eq_comm]

theorem insertJobRow_of_count {owner : Bytes} (h : db.countJobs (ctx.md5 jobid) ≠ 0) :
    insertJobRow ctx ps jobid owner db = none := by
  obtain ⟨row, hr, hrow⟩ := List.countP_pos_iff.1 (Nat.pos_of_ne_zero h)
  rw [insertJobRow, Option.map_eq_none_iff, Option.eq_none_iff_forall_ne_some]
  exact fun t ht => (Table.insert_eq_some.1 ht).1 row hr (.inl (by simpa using hrow))

theorem insertUserRow_of_count {owner : Bytes} (h : db.countUsers (ctx.md5 owner) ≠ 0) :
    insertUserRow ctx owner db = none := by
  obtain ⟨row, hr, hrow⟩ := List.countP_pos_iff.1 (Nat.pos_of_ne_zero h)
  rw [insertUserRow, Option.map_eq_none_iff, Option.eq_none_iff_forall_ne_some]
  exact fun t ht => (Table.insert_eq_some.1 ht).1 row hr (.inl (by simpa using hrow))

theorem countUsers_insertJobRow {owner : Bytes} {x : Bytes} :
    ((insertJobRow ctx ps jobid owner db).getD db).countUsers x = db.countUsers x := by
  cases h : insertJobRow ctx ps jobid owner db with
  | none => rfl
  | some db' =>
    obtain ⟨_, _, rfl⟩ := Option.map_eq_some_iff.1 h
    rfl

theorem insertUserRow_insertJobRow {owner : Bytes} :
    (insertUserRow ctx owner ((insertJobRow ctx ps jobid owner db).getD db)).isSome =
      (insertUserRow ctx owner db).isSome := by
  cases h : insertJobRow ctx ps jobid owner db with
  | none => rfl
  | some db' =>
    obtain ⟨_, _, rfl⟩ := Option.map_eq_some_iff.1 h
    simp only [insertUserRow, Option.isSome_map, Option.getD_some]

theorem updateJob_never : updateJob ctx never i ps r db = .ok () db' ↔
    TakesRecord ctx ps db r ∧ db' = addRecord ctx ps db r := by
  by_cases hr : r.remove = some true
  · rw [updateJob, if_pos hr]
    exact iff_of_false (fun h => by cases h) fun h => h.1.1 hr
  rw [updateJob_eq hr, TakesRecord, addRecord, bind_eq_ok]
  constructor
  · rintro ⟨_, db₁, h₁, h₂⟩
    obtain ⟨jobid, owner, hj, ho⟩ := lazyInsertJob_some h₁
    rw [hj, ho] at h₁ ⊢
    rw [hj] at h₂
    obtain ⟨_, db₂, h₃, h₄⟩ := bind_eq_ok.1 h₁
    obtain ⟨hjob, rfl⟩ := (lazyInsert_never insertJobRow_of_count).1 h₃
    obtain ⟨huser, rfl⟩ := (lazyInsert_never insertUserRow_of_count).1 h₄
    obtain ⟨hall, rfl⟩ := updateAttrs_never.1 h₂
    rw [countUsers_insertJobRow, insertUserRow_insertJobRow] at huser
    exact ⟨⟨hr, jobid, owner, rfl, rfl, hjob, huser, hall⟩, rfl⟩
  · rintro ⟨⟨-, jobid, owner, hj, ho, hjob, huser, hall⟩, hdb⟩
    rw [hj, ho] at hdb ⊢
    rw [← @insertUserRow_insertJobRow ctx db ps jobid,
      ← @countUsers_insertJobRow ctx db ps jobid owner] at huser
    exact ⟨(), _, bind_eq_ok.2 ⟨(), _, (lazyInsert_never insertJobRow_of_count).2 ⟨hjob, rfl⟩,
      (lazyInsert_never insertUserRow_of_count).2 ⟨huser, rfl⟩⟩, updateAttrs_never.2 ⟨hall, hdb⟩⟩

theorem updateRecords_never : updateRecords ctx never ps i rs db = .ok () db' ↔
    TakesAll (TakesRecord ctx ps) (addRecord ctx ps) db rs ∧
      db' = rs.foldl (addRecord ctx ps) db := by
  induction rs generalizing i db with
  | nil =>
    simp [updateRecords, TakesAll, eq_comm]
  | cons r rs ih =>
    rw [updateRecords, bind_eq_ok, TakesAll, List.foldl_cons, and_assoc, ← ih]
    constructor
    · rintro ⟨_, db₁, h₁, h₂⟩
      obtain ⟨ht, rfl⟩ := updateJob_never.1 h₁
      exact ⟨ht, h₂⟩
    · rintro ⟨ht, h⟩
      exact ⟨(), _, updateJob_never.2 ⟨ht, rfl⟩, h⟩

/-- Marking a feed done changes its row and no other. -/
theorem countP_setState {feed : FeedRow} (hf : feed ∈ db.feeds.rows)
    (hd : feed.state &&& GLITE_JP_IS_STATE_DONE = 0) :
    (updateStateFeed (feed.state ||| GLITE_JP_IS_STATE_DONE) feed.uniqueid db).1 = 1 := by
  refine Table.countP_eq_one hf ?_ fun b _ hb => ?_
  · have hne : feed.state ≠ feed.state ||| GLITE_JP_IS_STATE_DONE := fun h => by
      have hbit := congrArg (· &&& GLITE_JP_IS_STATE_DONE) h
      simp only [hd, Nat.and_or_distrib_right, Nat.zero_or, Nat.and_self] at hbit
      exact absurd hbit (by decide)
    rw [decide_eq_true_iff, FeedRow.setState, if_pos rfl]
    exact fun h => hne (congrArg FeedRow.state h)
  · rw [decide_eq_true_iff, FeedRow.setState] at hb
    split_ifs at hb with hu
    · exact .inl hu.symm
    · exact absurd rfl hb

/-- Without failures, the operation succeeds on the messages the server
    accepts. -/
theorem updateJobs_never {msg : UpdateJobs} :
    (∃ db', updateJobs ctx never msg db = .ok () db') ↔ Accepts ctx msg db := by
  have hsel : selectInfoFeed never msg.feedId db = (db.feed msg.feedId).elim
      (.error (.fault (some .selectInfoFeed)) db) fun r => .ok r db := by
    cases hf : db.feed msg.feedId with
    | none => simp [selectInfoFeed, never, hf]
    | some feed => simp [selectInfoFeed, never, hf]
  rw [Accepts, updateJobs]
  cases hf : db.feed msg.feedId with
  | none =>
    rw [hf] at hsel
    rw [bind_of_error hsel]
    simp
  | some feed =>
    rw [hf] at hsel
    rw [bind_of_ok hsel]
    have hmark : markDone never feed msg.feedDone db =
        .ok () (if msg.feedDone ∧ feed.state &&& GLITE_JP_IS_STATE_DONE = 0 then
          (updateStateFeed (feed.state ||| GLITE_JP_IS_STATE_DONE) feed.uniqueid db).2 else db) := by
      rw [markDone]
      split_ifs with hd
      · rw [expectOne_never, Option.some.injEq, Prod.ext_iff]
        exact ⟨countP_setState (List.mem_of_find?_eq_some hf) hd.2, rfl⟩
      · rfl
    rw [bind_of_ok hmark]
    simp only [updateRecords_never, Option.some.injEq, exists_eq_left', exists_and_left, exists_eq,
      and_true]

end Accepts

/-! ## Retrying -/

/-- Whether two databases have the same rows. -/
structure SameContents (db db' : IndexDb) : Prop where
  jobs : db.jobs.rows.Perm db'.jobs.rows
  users : db.users.rows.Perm db'.users.rows
  feeds : db.feeds.rows.Perm db'.feeds.rows
  values : ∀ id, (db.values id).Perm (db'.values id)

theorem SameContents.refl (db : IndexDb) : SameContents db db :=
  ⟨.refl _, .refl _, .refl _, fun _ => .refl _⟩

/-- Attempts at a message that failed one after another, each at a statement that
    the database failed to execute. -/
inductive FailedAttempts (ctx : IndexContext) (msg : UpdateJobs) :
    List Statement → IndexDb → IndexDb → Prop
  | nil (db : IndexDb) : FailedAttempts ctx msg [] db db
  | cons {p : Statement} {ps : List Statement} {db db₁ db' : IndexDb}
      (attempt : updateJobs ctx (only p) msg db = .error (.fault (some p)) db₁)
      (attempts : FailedAttempts ctx msg ps db₁ db') : FailedAttempts ctx msg (p :: ps) db db'

/-- What retrying should come to: the message is accepted in the end, and the
    database is as if there had been one attempt. -/
def RetrySafe (ctx : IndexContext) (msg : UpdateJobs) (db db' : IndexDb) : Prop :=
  ∃ final, updateJobs ctx never msg db' = .ok () final ∧
    SameContents final (left (updateJobs ctx never msg db))

/-- Whether a statement comes before the first insertion of a value. -/
def Statement.Early (conf : IndexConf) (msg : UpdateJobs) (p : Statement) : Prop :=
  ∀ k r l a, msg.jobAttributes[k]? = some r → r.attributes[l]? = some a →
    isKnown conf a.name = true → ¬p.Follows k l

section Retry

variable {ctx : IndexContext} {msg : UpdateJobs} {ps : List Statement} {db db' : IndexDb}

/-- No attempt takes a value back. -/
theorem FailedAttempts.values_le (h : FailedAttempts ctx msg ps db db') (id : Bytes) :
    (db.values id).length ≤ (db'.values id).length := by
  induction h with
  | nil db => exact le_rfl
  | @cons p _ db _ _ attempt _ ih =>
    have hge := (@updateJobs_stores ctx (only p) db id msg).ge
    rw [attempt, left_error] at hge
    exact hge.trans ih

/-- An attempt that was not early leaves a value. -/
theorem FailedAttempts.values_lt (h : FailedAttempts ctx msg ps db db')
    (hp : ¬∀ p ∈ ps, p.Early ctx.conf msg) :
    ∃ id, (db.values id).length < (db'.values id).length := by
  induction h with
  | nil db => exact absurd (fun p hp => by cases hp) hp
  | @cons p ps db db₁ db' attempt attempts ih =>
    by_cases hps : ∀ p ∈ ps, p.Early ctx.conf msg
    · have hearly : ¬p.Early ctx.conf msg := fun h => hp (List.forall_mem_cons.2 ⟨h, hps⟩)
      simp only [Statement.Early, not_forall, not_not] at hearly
      obtain ⟨k, r, l, a, hk, hl, ha, hf⟩ := hearly
      have hgoes : goesTo ctx (attr2id ctx.md5 a.name) a = true := by
        rw [goesTo, ha, Bool.true_and, decide_eq_true_eq]
      refine ⟨attr2id ctx.md5 a.name, lt_of_lt_of_le ?_ (attempts.values_le _)⟩
      exact (updateJobs_stores msg).late p db₁ attempt ⟨k, r, l, a, hk, hl, hgoes, hf⟩
    · obtain ⟨id, hid⟩ := ih hps
      have hge := (@updateJobs_stores ctx (only p) db id msg).ge
      rw [attempt, left_error] at hge
      exact ⟨id, lt_of_le_of_lt hge hid⟩

/-- After early attempts only, the operation does what it would have done at
    first. -/
theorem FailedAttempts.rerun (h : FailedAttempts ctx msg ps db db')
    (hp : ∀ p ∈ ps, p.Early ctx.conf msg) :
    updateJobs ctx never msg db' = updateJobs ctx never msg db := by
  induction h with
  | nil db => rfl
  | cons attempt _ ih =>
    rw [List.forall_mem_cons] at hp
    rw [ih hp.2, rerun_updateJobs attempt hp.1]

/-- Retrying is safe exactly when the server accepts the message and no attempt
    failed after it had inserted a value. -/
theorem retrySafe_iff (h : FailedAttempts ctx msg ps db db') :
    RetrySafe ctx msg db db' ↔ Accepts ctx msg db ∧ ∀ p ∈ ps, p.Early ctx.conf msg := by
  constructor
  · rintro ⟨final, hfinal, hsame⟩
    have hearly : ∀ p ∈ ps, p.Early ctx.conf msg := by
      by_contra hp
      -- the late attempt's value is there twice
      obtain ⟨id, hid⟩ := h.values_lt hp
      have hok := (@updateJobs_stores ctx never db' id msg).ok final hfinal
      have hle := (@updateJobs_stores ctx never db id msg).le
      have hlen := (hsame.values id).length_eq
      omega
    rw [h.rerun hearly] at hfinal
    exact ⟨updateJobs_never.1 ⟨final, hfinal⟩, hearly⟩
  · rintro ⟨haccepts, hearly⟩
    obtain ⟨final, hfinal⟩ := updateJobs_never.2 haccepts
    refine ⟨final, (h.rerun hearly).trans hfinal, ?_⟩
    rw [hfinal]
    exact .refl _

end Retry

/-- A server that is fed by a primary storage. -/
def sampleFed : IndexDb :=
  { sampleIndexDb with
    feeds := ⟨[⟨1, some (ascii "feed"), GLITE_JP_IS_STATE_CONT, 0, ascii "https://ps", none⟩],
      List.pairwise_singleton _ _⟩ }

/-- A message with one job of a new user. -/
def sampleUpdate (attributes : List AttrValue) : UpdateJobs where
  feedId := ascii "feed"
  feedDone := true
  jobAttributes := [⟨some (ascii "https://lb/new"), some (ascii "/CN=bob"), attributes, none⟩]

/-- A value of the attribute. -/
def sampleColor (color : Bytes) : AttrValue where
  name := sampleAttr
  value := some (.string color)
  timestamp := 0
  origin := .USER
  originDetail := none

/-- The owner of the job is not stored, and one more attempt stores all. -/
theorem retrySafe_sample : ∃ db',
    FailedAttempts (sampleServer true) (sampleUpdate [sampleColor (ascii "red")])
      [.insertUser 0] sampleFed db' ∧
    RetrySafe (sampleServer true) (sampleUpdate [sampleColor (ascii "red")]) sampleFed db' := by
  have hfails : FailedAttempts (sampleServer true) (sampleUpdate [sampleColor (ascii "red")])
      [.insertUser 0] sampleFed _ :=
    .cons (eq_error_left (by decide +kernel)) (.nil _)
  refine ⟨_, hfails, (retrySafe_iff hfails).2 ⟨?_, fun p hp => ?_⟩⟩
  · exact updateJobs_never.1 ⟨_, eq_ok_left (by decide +kernel)⟩
  · rw [List.mem_singleton] at hp
    subst hp
    exact fun k _ _ _ _ _ _ hf => Nat.not_lt_zero k hf

/-- The second value is not stored, and one more attempt stores the first
    twice. -/
theorem not_retrySafe_sample : ∃ db',
    FailedAttempts (sampleServer true)
      (sampleUpdate [sampleColor (ascii "red"), sampleColor (ascii "blue")])
      [.insertAttrval 0 1] sampleFed db' ∧
    (∃ final, updateJobs (sampleServer true) never
      (sampleUpdate [sampleColor (ascii "red"), sampleColor (ascii "blue")]) sampleFed =
        .ok () final) ∧
    ¬RetrySafe (sampleServer true)
      (sampleUpdate [sampleColor (ascii "red"), sampleColor (ascii "blue")]) sampleFed db' := by
  refine ⟨_, .cons (eq_error_left (by decide +kernel)) (.nil _),
    ⟨_, eq_ok_left (by decide +kernel)⟩, ?_⟩
  rintro ⟨final, hfinal, hsame⟩
  have hok := @eq_ok_left _ _ (updateJobs (sampleServer true) never
    (sampleUpdate [sampleColor (ascii "red"), sampleColor (ascii "blue")])
    (left (updateJobs (sampleServer true) (only (.insertAttrval 0 1))
      (sampleUpdate [sampleColor (ascii "red"), sampleColor (ascii "blue")]) sampleFed)))
    (by decide +kernel)
  obtain rfl := (EStateM.Result.ok.inj (hok.symm.trans hfinal)).2
  have hlen := (hsame.values (attr2id sampleMd5 sampleAttr)).length_eq
  revert hlen
  decide +kernel

end JobProvenance
