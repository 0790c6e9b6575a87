import JobProvenance.Index.Answers
import JobProvenance.Index.Delivered
import JobProvenance.Index.Injection
import JobProvenance.Index.QueryMeaning

/-!
# What is fed and what is answered

A server starts without jobs and is fed by calls of `UpdateJobs` that end normally; the
record beside the database has the records they delivered. A query gets back the values
that were delivered, whatever the case of their attribute's name was.

* `attrvalToSoap_of_row`: a value is read back as it was delivered, but that an empty
  origin detail is none;
* `appends_updateJobs`: what a call puts behind the values of a table;
* `KeptJob`: the jobs are under the hashes of their identifiers, and were delivered;
* `answers_of_fed`: the values that are answered are those that were delivered.
-/

namespace JobProvenance

open Stateful

/-! ## The server that is fed -/

section Feeding

variable (ctx : IndexContext)

/-- What happens to the database: a call of `UpdateJobs`, or something to the feeds. -/
inductive FedStep
  | call (a : ServedCall)
  | feeds

/-- The server, with the records that were delivered to it; the calls end normally. -/
def fedSystem : System (IndexDb × List JobRecord) FedStep where
  init s := s.1.jobs.rows = [] ∧ s.1.users.rows = [] ∧ (∀ id, s.1.values id = []) ∧ s.2 = []
  step s a t := match a with
    | .call a => updateJobs ctx a.fails a.msg s.1 = .ok () t.1 ∧ t.2 = s.2 ++ a.msg.jobAttributes
    | .feeds => ∃ feeds, t = ({ s.1 with feeds }, s.2)

/-- A value as a client sends it: its strings are terminated, its time and the size of
    its bytes fit, and it has no quotes and backslashes when the jobs have a column of
    its attribute. -/
structure AttrValue.Sendable (v : AttrValue) : Prop where
  name_nul : 0 ∉ v.name
  value_nul : ∀ s, v.value = some (.string s) → 0 ∉ s
  size_lt : ∀ bs, v.value = some (.blob bs) → bs.length < 2 ^ 31
  detail_nul : ∀ d ∈ v.originDetail, 0 ∉ d
  time_ge : -2 ^ 31 ≤ v.timestamp
  time_lt : v.timestamp < 2 ^ 31
  harmless : hasColumn ctx.conf v.name = true → ∀ s, v.value = some (.string s) → Sql.Harmless s

/-- The values of a call are sendable. -/
def FedStep.Sendable : FedStep → Prop
  | .call a => ∀ r ∈ a.msg.jobAttributes, ∀ v ∈ r.attributes, v.Sendable ctx
  | .feeds => True

/-- The query for the owner of a record does not fail. -/
def FedStep.FindsOwners : FedStep → Prop
  | .call a => ∀ i, a.fails (.selectUser i) = false
  | .feeds => True

/-- What a value says besides the name of its attribute; an empty origin detail is
    none. -/
def AttrValue.content (v : AttrValue) : AttrValue :=
  { v with name := [], originDetail := v.originDetail.filter fun d => d ≠ [] }

/-- The values of an attribute that were delivered for a job, whatever the case of its
    name. -/
def delivered (rs : List JobRecord) (jobid attr : Bytes) : List AttrValue :=
  (rs.filter fun r => r.jobid = some jobid).flatMap fun r =>
    r.attributes.filter fun v => sameIgnoringCase v.name attr

/-- The jobs that were delivered. -/
def jobidsOf (rs : List JobRecord) : Set Bytes := {x | ∃ r ∈ rs, r.jobid = some x}

/-- The names of attributes that were delivered or are asked for, in lower case. -/
def namesOf (rs : List JobRecord) (req : QueryJobs) : Set Bytes :=
  {x | (∃ r ∈ rs, ∃ v ∈ r.attributes, v.name.map tolower = x) ∨
    ∃ a, some a ∈ req.attributes ∧ a.map tolower = x}

/-- The record of a job has, of every attribute that is asked for, the values that were
    delivered. -/
def AnswersDelivered (rs : List JobRecord) (req : QueryJobs) (jobid : Bytes) (r : JobRecord) : Prop :=
  r.jobid = some jobid ∧ ∀ attr, some attr ∈ req.attributes →
    ((r.attributes.filter fun v => v.name = attr).map AttrValue.content).Perm
      ((delivered rs jobid attr).map AttrValue.content)

end Feeding


/-! ## A value is read back -/

section ReadBack

variable {ctx : IndexContext} {v : AttrValue} {av : Attrval} {row : AttrRow} {value jobid : Bytes}

/-- The row of a delivered value. -/
def RowOf (ctx : IndexContext) (p : Bytes × AttrValue) (row : AttrRow) : Prop :=
  ∃ av value, soapToAttrVal p.2 = .ok (some av) ∧ attrvalRow ctx p.1 av = .ok (row, value)

/-- An empty origin detail is stored as none. -/
theorem layout_originDetail {d : Option Bytes} (hd : d.getD [] = av.originDetail.getD [])
    (payload : Bytes) : layout { av with originDetail := d } payload = layout av payload := by
  rw [layout, layout, hd]
  rfl

theorem getD_filter_ne_nil (d : Option Bytes) : (d.filter fun d => d ≠ []).getD [] = d.getD [] := by
  rcases d with _ | d
  · rfl
  · by_cases hd : d = []
    · subst hd
      rfl
    · simp [Option.filter, hd]

theorem filter_ne_nil_ne (d : Option Bytes) : (d.filter fun d => d ≠ []) ≠ some [] := by
  intro h
  have hne := (Option.filter_eq_some_iff.1 h).2
  exact absurd rfl (of_decide_eq_true hne)

theorem filter_filter_ne_nil (d : Option Bytes) :
    ((d.filter fun d => d ≠ []).filter fun d => d ≠ []) = d.filter fun d => d ≠ [] := by
  rw [Option.filter_filter]
  simp only [Bool.and_self]

/-- The value a delivered one is stored as. -/
theorem soapToAttrVal_eq_ok (h : soapToAttrVal v = .ok (some av)) :
    (∃ s, v.value = some (.string s) ∧ av = ⟨v.name, s, false, 2 ^ 64 - 1,
      soapToAttrOrig (some v.origin), v.originDetail, v.timestamp⟩) ∨
    ∃ bs, v.value = some (.blob bs) ∧ av = ⟨v.name, bs, true, bs.length,
      soapToAttrOrig (some v.origin), v.originDetail, v.timestamp⟩ := by
  unfold soapToAttrVal at h
  split at h
  · cases h
  · cases h
  · rename_i s hs
    exact .inl ⟨s, hs, (Option.some.inj (Except.ok.inj h)).symm⟩
  · rename_i bs hbs
    exact .inr ⟨bs, hbs, (Option.some.inj (Except.ok.inj h)).symm⟩

theorem attrOrigToSoap_soapToAttrOrig (o : SoapAttrOrig) :
    attrOrigToSoap (soapToAttrOrig (some o)) = some o := by
  cases o <;> rfl

theorem AttrValue.Sendable.wellFormed (hv : v.Sendable ctx) (h : soapToAttrVal v = .ok (some av)) :
    av.WellFormed := by
  rcases soapToAttrVal_eq_ok h with ⟨s, hs, rfl⟩ | ⟨bs, hbs, rfl⟩
  · exact ⟨hv.name_nul, fun _ => hv.value_nul s hs, fun h => absurd h Bool.false_ne_true, hv.detail_nul⟩
  · exact ⟨hv.name_nul, fun h => absurd h Bool.false_ne_true.symm, fun _ => rfl, hv.detail_nul⟩

/-- The encoder has room for a value that is not too long. -/
theorem fbToDbFull_ne_none {b64 : Base64} (hb : b64.Lawful) (hbin : av.binary = true)
    (hsize : av.value.length = av.size) (hlt : av.size < 2 ^ 31) : fbToDbFull b64 av ≠ .ok none := by
  intro h
  have hw : av.size * 4 % 2 ^ 64 = av.size * 4 := Nat.mod_eq_of_lt (by omega)
  have hroom : valueRoom av = av.size * 4 / 3 + 6 := by
    rw [valueRoom, if_pos hbin, hw]
  have hencode : b64.encode (av.value.take av.size) (av.size * 4 / 3 + 6 - 1) ≠ none := by
    refine hb.encode_ne_none ?_
    rw [← hsize, List.take_length, hsize, base64Length]
    omega
  simp only [fbToDbFull, hroom, hbin, if_true, Exec.bind_eq_ok, Exec.toInt_eq_ok] at h
  obtain ⟨_, ⟨-, rfl⟩, ⟨_, _⟩, -, h⟩ := h
  obtain ⟨s, hs⟩ := Option.ne_none_iff_exists'.1 hencode
  simp only [hs, Exec.bind_eq_ok] at h
  obtain ⟨_, -, _, -, h⟩ := h
  cases h

/-- A value is read back from its row as it was delivered. -/
theorem attrvalToSoap_of_row (hplugins : ctx.plugins = []) (hb : ctx.b64.Lawful)
    (hv : v.Sendable ctx) (h : RowOf ctx (jobid, v) row) (attrName : Bytes) :
    ∃ v', (attrvalFromDb ctx fromDb javName row.fullValue >>= attrvalToSoap attrName) = .ok v' ∧
      v'.name = attrName ∧ v'.content = v.content := by
  obtain ⟨av, value, hav, hrow⟩ := h
  replace hav : soapToAttrVal v = .ok (some av) := hav
  obtain ⟨full, hfull, hrow⟩ := Exec.bind_eq_ok.1 hrow
  have hfull' : row.fullValue = full.getD nullText :=
    congrArg (AttrRow.fullValue ∘ Prod.fst) (Except.ok.inj hrow).symm
  rw [attrvalToDbFull, hplugins] at hfull
  replace hfull : fbToDbFull ctx.b64 av = .ok full := hfull
  have hwf := hv.wellFormed hav
  -- the text is that of the value without an empty origin detail
  set av' := { av with originDetail := av.originDetail.filter fun d => d ≠ [] } with hav'
  have hlayout : ∀ payload, layout av' payload = layout av payload :=
    layout_originDetail (getD_filter_ne_nil _)
  have hlength : layoutLength av' = layoutLength av := by
    rw [layoutLength, layoutLength, hav', getD_filter_ne_nil]
    rfl
  have hdrop : ∀ payload, (layout av' payload).drop (layoutLength av') = payload := fun payload => by
    rw [layout_eq_append]
    exact List.drop_left' (length_layoutPrefix av')
  have horigin : attrOrigToSoap av'.origin = some v.origin := by
    rcases soapToAttrVal_eq_ok hav with ⟨s, -, rfl⟩ | ⟨bs, -, rfl⟩
    · exact attrOrigToSoap_soapToAttrOrig v.origin
    · exact attrOrigToSoap_soapToAttrOrig v.origin
  have htime : int32 av'.timestamp = av'.timestamp := by
    rcases soapToAttrVal_eq_ok hav with ⟨s, -, rfl⟩ | ⟨bs, -, rfl⟩
    · exact int32_eq_self hv.time_ge hv.time_lt
    · exact int32_eq_self hv.time_ge hv.time_lt
  have hread : ∀ payload, full = some (layout av payload) → layoutLength av < 2 ^ 31 →
      attrvalFromDb ctx fromDb javName row.fullValue =
        .ok (readValue ctx.b64 (layout av' payload) (layoutLength av')
        { av' with name := [], value := [], size := 0 }) := by
    rintro payload rfl hl
    rw [attrvalFromDb, hplugins, hfull', Option.getD_some, ← hlayout payload]
    exact fbFromDb_layout av' _ (filter_ne_nil_ne _) htime (hlength ▸ hl)
  rcases soapToAttrVal_eq_ok hav with ⟨s, hs, rfl⟩ | ⟨bs, hbs, rfl⟩
  · obtain ⟨hfits, hfull⟩ := (fbToDbFull_string hwf rfl).1 hfull
    rw [hread s hfull.symm (lt_of_le_of_lt (Nat.le_add_right _ _) hfits.2), readValue,
      if_neg Bool.false_ne_true, hdrop, Exec.ok_bind, attrvalToSoap, if_neg Bool.false_ne_true,
      horigin]
    refine ⟨_, rfl, rfl, ?_⟩
    simp only [AttrValue.content, cstr_eq_self (hv.value_nul s hs), hav', filter_filter_ne_nil, ← hs]
  · have hfull'' : full ≠ none := by
      rintro rfl
      exact fbToDbFull_ne_none hb rfl rfl (hv.size_lt bs hbs) hfull
    obtain ⟨db, rfl⟩ := Option.ne_none_iff_exists'.1 hfull''
    obtain ⟨hfits, text, htext, rfl⟩ := (fbToDbFull_binary hb hwf rfl).1 hfull
    have hroom : bs.length ≤ (layout av' text).length := by
      have hlen : text.length = base64Length bs.length := hb.length_encode htext
      rw [length_layout, hlen, base64Length]
      omega
    rw [hread text rfl (lt_of_le_of_lt (Nat.le_add_right _ _) hfits.2), readValue, if_pos rfl, hdrop,
      hb.decode_encode _ htext hroom, Exec.ok_bind, attrvalToSoap, if_pos rfl, if_pos le_rfl, horigin]
    refine ⟨_, rfl, rfl, ?_⟩
    simp only [AttrValue.content, List.take_length, hav', filter_filter_ne_nil, ← hbs]

end ReadBack

/-! ## What a call puts into the tables -/

section Tables

variable {ctx : IndexContext} {fails : Statement → Bool} {db db' db'' : IndexDb} {i j : ℕ}
  {ps jobid id : Bytes} {attr : AttrValue} {attrs : List AttrValue} {r : JobRecord}
  {rs : List JobRecord}

/-- The values of a record that go to a table, each with its job. -/
def JobRecord.sentTo (ctx : IndexContext) (id : Bytes) (r : JobRecord) : List (Bytes × AttrValue) :=
  (r.attributes.filter (goesTo ctx id)).map fun v => (r.jobid.getD [], v)

/-- A table gets the rows of some values behind those it has. -/
def Appends (ctx : IndexContext) (id : Bytes) (db db' : IndexDb) (vs : List (Bytes × AttrValue)) :
    Prop :=
  ∃ rows, db'.values id = db.values id ++ rows ∧ List.Forall₂ (RowOf ctx) vs rows

theorem Appends.of_values_eq (h : db'.values = db.values) : Appends ctx id db db' [] :=
  ⟨[], by rw [h, List.append_nil], .nil⟩

theorem Appends.append {vs vs' : List (Bytes × AttrValue)} (h : Appends ctx id db db' vs)
    (h' : Appends ctx id db' db'' vs') : Appends ctx id db db'' (vs ++ vs') := by
  obtain ⟨rows, hrows, hvs⟩ := h
  obtain ⟨rows', hrows', hvs'⟩ := h'
  refine ⟨rows ++ rows', ?_, List.rel_append hvs hvs'⟩
  rw [hrows', hrows, List.append_assoc]

theorem appends_insertValueRow {id' : Bytes} {av : Attrval} {row : AttrRow} {value : Bytes}
    (hav : soapToAttrVal attr = .ok (some av)) (hrow : attrvalRow ctx jobid av = .ok (row, value)) :
    Appends ctx id db (insertValueRow id' row db) (if id' = id then [(jobid, attr)] else []) := by
  by_cases hid : id' = id
  · subst hid
    rw [if_pos rfl]
    exact ⟨[row], Function.update_self _ _ _, .cons ⟨av, value, hav, hrow⟩ .nil⟩
  · rw [if_neg hid]
    refine ⟨[], ?_, .nil⟩
    rw [List.append_nil]
    exact Function.update_of_ne (Ne.symm hid) _ _

theorem appends_updateAttr (h : updateAttr ctx fails i j jobid attr db = .ok () db') :
    Appends ctx id db db' (([attr].filter (goesTo ctx id)).map fun v => (jobid, v)) := by
  obtain ⟨o, db₁, h₁, hrest⟩ := bind_eq_ok.1 h
  obtain ⟨ho, rfl⟩ := liftExec_eq_ok.1 h₁
  cases hk : isKnown ctx.conf attr.name with
  | false =>
    have hnot : goesTo ctx id attr = false := by
      rw [goesTo, hk, Bool.false_and]
    rw [hk, if_neg Bool.false_ne_true] at hrest
    cases hrest
    rw [List.filter_singleton, hnot]
    exact .of_values_eq rfl
  | true =>
    rw [hk, if_pos rfl] at hrest
    obtain ⟨av, db₂, h₂, hinsert⟩ := bind_eq_ok.1 hrest
    obtain ⟨hav, rfl⟩ := liftExec_eq_ok.1 h₂
    obtain rfl := Exec.deref_eq_ok.1 hav
    obtain ⟨⟨row, value⟩, db₃, h₃, hstmts⟩ := bind_eq_ok.1 hinsert
    obtain ⟨hrow, rfl⟩ := liftExec_eq_ok.1 h₃
    obtain ⟨_, db₄, h₄, hcolumn⟩ := bind_eq_ok.1 hstmts
    obtain rfl := (Prod.mk.inj (Option.some.inj (expectOne_eq_ok.1 h₄).2)).2
    have hvalue := @appends_insertValueRow ctx db₃ jobid id attr (attr2id ctx.md5 av.name) av row
      value ho hrow
    have hlist : (([attr].filter (goesTo ctx id)).map fun v => (jobid, v)) =
        if attr2id ctx.md5 av.name = id then [(jobid, attr)] else [] := by
      rw [soapToAttrVal_name ho, List.filter_singleton, goesTo, hk, Bool.true_and]
      by_cases hid : attr2id ctx.md5 attr.name = id
      · simp [hid]
      · simp [hid]
    -- the update of a column leaves the tables alone
    have hvalues : db'.values = (insertValueRow (attr2id ctx.md5 av.name) row db₃).values := by
      split_ifs at hcolumn
      · exact execUpdate_values (expectOne_eq_ok.1 hcolumn).2
      · cases hcolumn
        rfl
    rw [hlist, ← List.append_nil (ite _ _ _)]
    exact hvalue.append (.of_values_eq hvalues)

theorem appends_updateAttrs (h : updateAttrs ctx fails i jobid j attrs db = .ok () db') :
    Appends ctx id db db' ((attrs.filter (goesTo ctx id)).map fun v => (jobid, v)) := by
  induction attrs generalizing j db with
  | nil =>
    cases h
    exact .of_values_eq rfl
  | cons attr attrs ih =>
    obtain ⟨_, db₁, h₁, h₂⟩ := bind_eq_ok.1 h
    rw [← List.singleton_append, List.filter_append, List.map_append]
    exact (appends_updateAttr h₁).append (ih h₂)

/-- The parts of a record that is stored. -/
theorem updateJob_eq_ok (h : updateJob ctx fails i ps r db = .ok () db') : r.remove ≠ some true ∧
    ∃ db₁, lazyInsertJob ctx fails i ps r.jobid r.owner db = .ok () db₁ ∧
      updateAttrs ctx fails i (r.jobid.getD []) 0 r.attributes db₁ = .ok () db' := by
  have hr : r.remove ≠ some true := by
    intro hr
    rw [updateJob, if_pos hr] at h
    cases h
  rw [updateJob_eq hr] at h
  obtain ⟨_, db₁, h₁, h₂⟩ := bind_eq_ok.1 h
  exact ⟨hr, db₁, h₁, h₂⟩

theorem appends_updateJob (h : updateJob ctx fails i ps r db = .ok () db') :
    Appends ctx id db db' (r.sentTo ctx id) := by
  obtain ⟨-, db₁, hjob, hattrs⟩ := updateJob_eq_ok h
  have hvalues := @lazyInsertJob_values ctx fails db i ps r.jobid r.owner
  rw [hjob, left_ok] at hvalues
  have happends := (Appends.of_values_eq hvalues).append (@appends_updateAttrs _ _ _ _ _ _ _ id _ hattrs)
  rwa [List.nil_append] at happends

/-- A call puts the values of its records behind those of the tables. -/
theorem appends_updateRecords (h : updateRecords ctx fails ps i rs db = .ok () db') :
    Appends ctx id db db' (rs.flatMap (JobRecord.sentTo ctx id)) := by
  induction rs generalizing i db with
  | nil =>
    cases h
    exact .of_values_eq rfl
  | cons r rs ih =>
    obtain ⟨_, db₁, h₁, h₂⟩ := bind_eq_ok.1 h
    exact (appends_updateJob h₁).append (ih h₂)

/-- The parts of a call that ends normally. -/
theorem updateJobs_eq_ok {msg : UpdateJobs} (h : updateJobs ctx fails msg db = .ok () db') :
    ∃ feed db₁, markDone fails feed msg.feedDone db = .ok () db₁ ∧
      updateRecords ctx fails feed.source 0 msg.jobAttributes db₁ = .ok () db' := by
  obtain ⟨feed, db₀, h₀, hrest⟩ := bind_eq_ok.1 h
  obtain ⟨_, db₁, hdone, hrecords⟩ := bind_eq_ok.1 hrest
  have hsame : db₀ = db := by
    unfold selectInfoFeed at h₀
    split at h₀
    · exact (EStateM.Result.ok.inj h₀).2.symm
    · cases h₀
  exact ⟨feed, db₁, hsame ▸ hdone, hrecords⟩

theorem appends_updateJobs {msg : UpdateJobs} (h : updateJobs ctx fails msg db = .ok () db') :
    Appends ctx id db db' (msg.jobAttributes.flatMap (JobRecord.sentTo ctx id)) := by
  obtain ⟨feed, db₁, hdone, hrecords⟩ := updateJobs_eq_ok h
  have hvalues := @markDone_values fails db feed msg.feedDone
  rw [hdone, left_ok] at hvalues
  have happends := (Appends.of_values_eq hvalues).append
    (@appends_updateRecords _ _ _ _ _ _ id _ hrecords)
  rwa [List.nil_append] at happends

end Tables

/-! ## The jobs and their owners -/

section Jobs

open Sql

variable {ctx : IndexContext} {fails : Statement → Bool} {db db' db'' : IndexDb} {i j : ℕ}
  {ps jobid id value : Bytes} {attr : AttrValue} {attrs : List AttrValue} {r : JobRecord}
  {rs : List JobRecord}

/-- The jobs stay, but for their columns of attributes, and so do the users. -/
def SameJobs (db db' : IndexDb) : Prop := db'.users = db.users ∧ ∀ job' ∈ db'.jobs.rows,
  ∃ job ∈ db.jobs.rows, job'.jobid = job.jobid ∧ job'.dgJobid = job.dgJobid ∧
    job'.ownerid = job.ownerid

theorem SameJobs.of_eq (hj : db'.jobs = db.jobs) (hu : db'.users = db.users) : SameJobs db db' :=
  ⟨hu, fun job hjob => ⟨job, hj ▸ hjob, rfl, rfl, rfl⟩⟩

theorem SameJobs.trans (h : SameJobs db db') (h' : SameJobs db' db'') : SameJobs db db'' := by
  refine ⟨h'.1.trans h.1, fun job'' hjob'' => ?_⟩
  obtain ⟨job', hjob', hid', hdg', howner'⟩ := h'.2 job'' hjob''
  obtain ⟨job, hjob, hid, hdg, howner⟩ := h.2 job' hjob'
  exact ⟨job, hjob, hid'.trans hid, hdg'.trans hdg, howner'.trans howner⟩

/-- Setting the column of an attribute leaves the other columns. -/
theorem setColumn_attrTable {job job' : IndexJob} (h : job.setColumn (attrTable id, value) = some job') :
    job'.jobid = job.jobid ∧ job'.dgJobid = job.dgJobid ∧ job'.ownerid = job.ownerid := by
  have hne : ∀ name : String, (ascii name).head? ≠ some (ch 'a') → attrTable id ≠ ascii name := by
    intro name hname heq
    rw [← heq] at hname
    exact hname rfl
  rw [IndexJob.setColumn, if_neg (hne _ (by decide)), if_neg (hne _ (by decide)),
    if_neg (hne _ (by decide)), if_neg (hne _ (by decide))] at h
  split_ifs at h
  obtain rfl := Option.some.inj h
  exact ⟨rfl, rfl, rfl⟩

theorem sameJobs_of_execUpdate (hid : ∀ b ∈ id, isHexDigit b = true) (hv : verbatim value = true)
    {n : ℕ} (h : execUpdate ctx (insertSingleattrvalSql id value jobid) db = some (n, db')) :
    SameJobs db db' := by
  obtain ⟨u, rows, hu, happly, jobs, rfl, rfl⟩ := execUpdate_eq_some h
  refine ⟨rfl, fun job' hjob' => ?_⟩
  obtain ⟨job, hjob, rfl | hset⟩ := Update.mem_of_apply happly hjob'
  · exact ⟨job', hjob, rfl, rfl, rfl⟩
  · rw [sets_of_parseUpdate hid hv hu, List.foldlM_cons] at hset
    obtain ⟨job₁, hjob₁, hsome⟩ := Option.bind_eq_some_iff.1 hset
    obtain rfl := Option.some.inj hsome
    exact ⟨job, hjob, setColumn_attrTable hjob₁⟩

/-- The text of a column is verbatim. -/
theorem verbatim_of_attrvalRow {av : Attrval} {row : AttrRow} (hplugins : ctx.plugins = [])
    (hv : attr.Sendable ctx) (hcol : hasColumn ctx.conf attr.name = true)
    (hav : soapToAttrVal attr = .ok (some av)) (hrow : attrvalRow ctx jobid av = .ok (row, value)) :
    verbatim value = true := by
  have hvalue : value = (fbToDbIndex av GLITE_JPIS_INDEX_LENGTH).getD nullText := by
    obtain ⟨full, -, h⟩ := Exec.bind_eq_ok.1 hrow
    rw [attrvalToDbIndex, hplugins] at h
    exact (congrArg Prod.snd (Except.ok.inj h)).symm
  rcases soapToAttrVal_eq_ok hav with ⟨s, hs, rfl⟩ | ⟨bs, -, rfl⟩
  · have hcut : value = (cstr s).take GLITE_JPIS_INDEX_LENGTH := by
      rw [hvalue, fbToDbIndex, if_neg Bool.false_ne_true, Option.getD_some]
    have hsub : ∀ b ∈ value, b ∈ s := fun b hb => by
      rw [hcut, cstr_eq_self (hv.value_nul s hs)] at hb
      exact List.mem_of_mem_take hb
    obtain ⟨hq, he⟩ := hv.harmless hcol s hs
    exact verbatim_of_harmless ⟨fun h => hq (hsub _ h), fun h => he (hsub _ h)⟩
  · rw [hvalue, fbToDbIndex, if_pos rfl]
    decide

theorem sameJobs_updateAttr (hplugins : ctx.plugins = []) (hv : attr.Sendable ctx)
    (h : updateAttr ctx fails i j jobid attr db = .ok () db') : SameJobs db db' := by
  obtain ⟨o, db₁, h₁, hrest⟩ := bind_eq_ok.1 h
  obtain ⟨ho, rfl⟩ := liftExec_eq_ok.1 h₁
  split_ifs at hrest
  · obtain ⟨av, db₂, h₂, hinsert⟩ := bind_eq_ok.1 hrest
    obtain ⟨hav, rfl⟩ := liftExec_eq_ok.1 h₂
    obtain rfl := Exec.deref_eq_ok.1 hav
    obtain ⟨⟨row, value⟩, db₃, h₃, hstmts⟩ := bind_eq_ok.1 hinsert
    obtain ⟨hrow, rfl⟩ := liftExec_eq_ok.1 h₃
    obtain ⟨_, db₄, h₄, hcolumn⟩ := bind_eq_ok.1 hstmts
    obtain rfl := (Prod.mk.inj (Option.some.inj (expectOne_eq_ok.1 h₄).2)).2
    split_ifs at hcolumn with hc
    · rw [soapToAttrVal_name ho] at hc
      have hinserted : SameJobs db₃ (insertValueRow (attr2id ctx.md5 av.name) row db₃) :=
        .of_eq rfl rfl
      exact hinserted.trans (sameJobs_of_execUpdate (fun _ => isHexDigit_of_mem_attr2id)
        (verbatim_of_attrvalRow hplugins hv hc ho hrow) (expectOne_eq_ok.1 hcolumn).2)
    · cases hcolumn
      exact .of_eq rfl rfl
  · cases hrest
    exact .of_eq rfl rfl

theorem sameJobs_updateAttrs (hplugins : ctx.plugins = []) (hvs : ∀ v ∈ attrs, v.Sendable ctx)
    (h : updateAttrs ctx fails i jobid j attrs db = .ok () db') : SameJobs db db' := by
  induction attrs generalizing j db with
  | nil =>
    cases h
    exact .of_eq rfl rfl
  | cons attr attrs ih =>
    rw [List.forall_mem_cons] at hvs
    obtain ⟨_, db₁, h₁, h₂⟩ := bind_eq_ok.1 h
    exact (sameJobs_updateAttr hplugins hvs.1 h₁).trans (ih hvs.2 h₂)

/-- What is inserted of a job and its owner. -/
theorem lazyInsertJob_eq_ok {owner : Bytes}
    (h : lazyInsertJob ctx fails i ps (some jobid) (some owner) db = .ok () db') :
    (∀ job ∈ db'.jobs.rows, job ∈ db.jobs.rows ∨
      job = ⟨ctx.md5 jobid, jobid, ctx.md5 owner, ps, newColumns ctx⟩) ∧
    (∀ user ∈ db.users.rows, user ∈ db'.users.rows) ∧
    (fails (.selectUser i) = false → ∃ user ∈ db'.users.rows, user.userid = ctx.md5 owner) := by
  obtain ⟨_, db₁, hjob, huser⟩ := bind_eq_ok.1 h
  have hjob' : db₁.users = db.users ∧ ∀ job ∈ db₁.jobs.rows, job ∈ db.jobs.rows ∨
      job = ⟨ctx.md5 jobid, jobid, ctx.md5 owner, ps, newColumns ctx⟩ := by
    rw [lazyInsert_eq] at hjob
    split_ifs at hjob
    · obtain ⟨db₂, hinsert, heq⟩ := Option.map_eq_some_iff.1 (expectOne_eq_ok.1 hjob).2
      obtain ⟨jobs, hjobs, rfl⟩ := Option.map_eq_some_iff.1 hinsert
      obtain rfl := (Prod.mk.inj heq).2
      refine ⟨rfl, fun job hmem => ?_⟩
      rwa [(Table.insert_eq_some.1 hjobs).2, List.mem_append, List.mem_singleton] at hmem
    · cases hjob
      exact ⟨rfl, fun job hmem => .inl hmem⟩
  rw [lazyInsert_eq] at huser
  split_ifs at huser with hc
  · obtain ⟨db₂, hinsert, heq⟩ := Option.map_eq_some_iff.1 (expectOne_eq_ok.1 huser).2
    obtain ⟨users, husers, rfl⟩ := Option.map_eq_some_iff.1 hinsert
    obtain rfl := (Prod.mk.inj heq).2
    have hrows := (Table.insert_eq_some.1 husers).2
    refine ⟨hjob'.2, fun user hmem => ?_, fun _ => ⟨⟨ctx.md5 owner, owner⟩, ?_, rfl⟩⟩
    · rw [hrows, hjob'.1]
      exact List.mem_append_left _ hmem
    · rw [hrows]
      exact List.mem_append_right _ (List.mem_singleton_self _)
  · cases huser
    refine ⟨hjob'.2, fun user hmem => hjob'.1 ▸ hmem, fun hf => ?_⟩
    obtain ⟨user, hmem, hid⟩ := List.countP_pos_iff.1 (Nat.pos_of_ne_zero fun h0 => hc ⟨hf, h0⟩)
    exact ⟨user, hmem, of_decide_eq_true hid⟩

/-- A job is under the hash of its identifier, and was delivered. -/
structure KeptJob (ctx : IndexContext) (rs : List JobRecord) (job : IndexJob) : Prop where
  jobid_eq : job.jobid = ctx.md5 job.dgJobid
  delivered : ∃ r ∈ rs, r.jobid = some job.dgJobid

/-- The jobs are kept. -/
def KeptJobs (ctx : IndexContext) (rs : List JobRecord) (db : IndexDb) : Prop :=
  ∀ job ∈ db.jobs.rows, KeptJob ctx rs job

/-- The owners of the jobs are there. -/
def HasOwners (db : IndexDb) : Prop :=
  ∀ job ∈ db.jobs.rows, ∃ user ∈ db.users.rows, user.userid = job.ownerid

theorem SameJobs.keptJobs (h : SameJobs db db') (hdb : KeptJobs ctx rs db) : KeptJobs ctx rs db' := by
  intro job' hjob'
  obtain ⟨job, hjob, hid, hdg, -⟩ := h.2 job' hjob'
  obtain ⟨hkey, hrec⟩ := hdb job hjob
  exact ⟨by rw [hid, hdg, hkey], by rwa [hdg]⟩

theorem SameJobs.hasOwners (h : SameJobs db db') (hdb : HasOwners db) : HasOwners db' := by
  intro job' hjob'
  obtain ⟨job, hjob, -, -, howner⟩ := h.2 job' hjob'
  rw [h.1, howner]
  exact hdb job hjob

theorem keptJobs_updateJob (hplugins : ctx.plugins = []) (hvs : ∀ v ∈ r.attributes, v.Sendable ctx)
    (hr : r ∈ rs) (hdb : KeptJobs ctx rs db) (h : updateJob ctx fails i ps r db = .ok () db') :
    KeptJobs ctx rs db' := by
  obtain ⟨-, db₁, hjob, hattrs⟩ := updateJob_eq_ok h
  obtain ⟨jobid, owner, hjobid, howner⟩ := lazyInsertJob_some hjob
  rw [hjobid, howner] at hjob
  refine (sameJobs_updateAttrs hplugins hvs hattrs).keptJobs fun job hmem => ?_
  rcases (lazyInsertJob_eq_ok hjob).1 job hmem with hmem | rfl
  · exact hdb job hmem
  · exact ⟨rfl, r, hr, hjobid⟩

theorem hasOwners_updateJob (hplugins : ctx.plugins = []) (hvs : ∀ v ∈ r.attributes, v.Sendable ctx)
    (hf : fails (.selectUser i) = false) (hdb : HasOwners db)
    (h : updateJob ctx fails i ps r db = .ok () db') : HasOwners db' := by
  obtain ⟨-, db₁, hjob, hattrs⟩ := updateJob_eq_ok h
  obtain ⟨jobid, owner, hjobid, howner⟩ := lazyInsertJob_some hjob
  rw [hjobid, howner] at hjob
  obtain ⟨hjobs, husers, hnew⟩ := lazyInsertJob_eq_ok hjob
  refine (sameJobs_updateAttrs hplugins hvs hattrs).hasOwners fun job hmem => ?_
  rcases hjobs job hmem with hmem | rfl
  · obtain ⟨user, huser, hid⟩ := hdb job hmem
    exact ⟨user, husers user huser, hid⟩
  · exact hnew hf

/-- What every record of a call keeps, the call keeps that does not depend on the feeds. -/
theorem updateJobs_keeps {msg : UpdateJobs} {I : IndexDb → Prop}
    (hfeeds : ∀ db feeds, I db → I { db with feeds })
    (hI : ∀ r ∈ msg.jobAttributes, ∀ i ps db db', I db → updateJob ctx fails i ps r db = .ok () db' →
      I db') (hdb : I db) (h : updateJobs ctx fails msg db = .ok () db') : I db' := by
  obtain ⟨feed, db₁, hdone, hrecords⟩ := updateJobs_eq_ok h
  have hdb₁ : I db₁ := by
    rw [markDone] at hdone
    split_ifs at hdone
    · rw [← (Prod.mk.inj (Option.some.inj (expectOne_eq_ok.1 hdone).2)).2]
      exact hfeeds db _ hdb
    · cases hdone
      exact hdb
  clear h hdone hdb
  generalize msg.jobAttributes = rs at hI hrecords
  generalize (0 : ℕ) = i at hrecords
  induction rs generalizing i db₁ with
  | nil =>
    cases hrecords
    exact hdb₁
  | cons r rs ih =>
    rw [List.forall_mem_cons] at hI
    obtain ⟨_, db₂, h₁, h₂⟩ := bind_eq_ok.1 hrecords
    exact ih db₂ (hI.1 _ _ _ _ hdb₁ h₁) hI.2 _ h₂

/-- Every record of a call has a job. -/
theorem jobid_of_updateRecords (h : updateRecords ctx fails ps i rs db = .ok () db') :
    ∀ r ∈ rs, ∃ x, r.jobid = some x := by
  induction rs generalizing i db with
  | nil => exact fun _ h => nomatch h
  | cons r rs ih =>
    obtain ⟨_, db₁, h₁, h₂⟩ := bind_eq_ok.1 h
    obtain ⟨-, db₂, hjob, -⟩ := updateJob_eq_ok h₁
    obtain ⟨x, -, hx, -⟩ := lazyInsertJob_some hjob
    exact List.forall_mem_cons.2 ⟨⟨x, hx⟩, ih h₂⟩

end Jobs

/-! ## The server after the calls -/

section Runs

variable {ctx : IndexContext} {s : IndexDb × List JobRecord}

/-- What a server has that was fed. -/
structure FedInvariant (ctx : IndexContext) (s : IndexDb × List JobRecord) : Prop where
  sendable : ∀ r ∈ s.2, ∀ v ∈ r.attributes, v.Sendable ctx
  jobid : ∀ r ∈ s.2, ∃ x, r.jobid = some x
  values : ∀ id, List.Forall₂ (RowOf ctx) (s.2.flatMap (JobRecord.sentTo ctx id)) (s.1.values id)
  jobs : KeptJobs ctx s.2 s.1

theorem FedInvariant.step {a : FedStep} {t : IndexDb × List JobRecord} (hplugins : ctx.plugins = [])
    (hs : FedInvariant ctx s) (ha : a.Sendable ctx) (hst : (fedSystem ctx).step s a t) :
    FedInvariant ctx t := by
  obtain ⟨db, rs⟩ := t
  cases a with
  | call a =>
    obtain ⟨hok, rfl⟩ := hst
    obtain ⟨feed, db₁, -, hrecords⟩ := updateJobs_eq_ok hok
    refine ⟨?_, ?_, fun id => ?_, ?_⟩
    · exact fun r hr => (List.mem_append.1 hr).elim (hs.sendable r) (ha r)
    · exact fun r hr => (List.mem_append.1 hr).elim (hs.jobid r) (jobid_of_updateRecords hrecords r)
    · obtain ⟨rows, hrows, hvs⟩ := @appends_updateJobs _ _ _ _ id _ hok
      rw [List.flatMap_append]
      exact hrows ▸ List.rel_append (hs.values id) hvs
    · refine updateJobs_keeps (fun _ _ h => h) (fun r hr i ps db db' hdb h => ?_) (fun job hjob => ?_) hok
      · exact keptJobs_updateJob hplugins (ha r hr) (List.mem_append_right _ hr) hdb h
      · obtain ⟨hkey, r, hr, hrec⟩ := hs.jobs job hjob
        exact ⟨hkey, r, List.mem_append_left _ hr, hrec⟩
  | feeds =>
    obtain ⟨feeds, heq⟩ := hst
    obtain ⟨rfl, rfl⟩ := Prod.mk.inj heq
    exact ⟨hs.sendable, hs.jobid, hs.values, hs.jobs⟩

theorem fed_of_reachable (hplugins : ctx.plugins = [])
    (h : (fedSystem ctx).Reachable (fun _ a => a.Sendable ctx) s) : FedInvariant ctx s := by
  refine h.invariant (fun s h₀ => ?_) fun s a t hs ha hst => hs.step hplugins ha hst
  obtain ⟨hjobs, -, hvalues, hrs⟩ := h₀
  refine ⟨?_, ?_, fun id => ?_, fun job hjob => ?_⟩
  · rw [hrs]
    exact fun _ h => nomatch h
  · rw [hrs]
    exact fun _ h => nomatch h
  · rw [hrs, hvalues]
    exact .nil
  · rw [hjobs] at hjob
    cases hjob

/-- When the queries for owners do not fail, the owners of the jobs are there. -/
theorem hasOwners_of_reachable (hplugins : ctx.plugins = [])
    (h : (fedSystem ctx).Reachable (fun _ a => a.Sendable ctx ∧ a.FindsOwners) s) :
    HasOwners s.1 := by
  refine @System.Reachable.invariant _ _ _ _ (fun s => HasOwners s.1) _ h (fun s h₀ job hjob => ?_)
    fun s a t hs ha hst => ?_
  · rw [h₀.1] at hjob
    cases hjob
  · cases a with
    | call a =>
      exact updateJobs_keeps (fun _ _ h => h) (fun r hr i ps db db' hdb h =>
        hasOwners_updateJob hplugins (ha.1 r hr) (ha.2 i) hdb h) hs hst.1
    | feeds =>
      obtain ⟨feeds, rfl⟩ := hst
      exact hs

end Runs

/-! ## The values that are returned -/

section Returned

variable {ctx : IndexContext} {fromDb : TplugData → Option (Bytes → Exec Attrval)} {db : IndexDb}
  {rs : List JobRecord} {s : IndexDb × List JobRecord} {req : QueryJobs} {jobid attr : Bytes}
  {v : AttrValue} {r : JobRecord}

theorem isKnown_of_same {a b : Bytes} (h : sameIgnoringCase a b = true) :
    isKnown ctx.conf a = isKnown ctx.conf b := by
  have hab : a.map tolower = b.map tolower := of_decide_eq_true h
  have hsame : sameIgnoringCase a = sameIgnoringCase b := by
    funext c
    rw [sameIgnoringCase, sameIgnoringCase, hab]
  rw [isKnown, isKnown, findAttr, findAttr, hsame]

/-- Where hashes tell names apart, a value goes to the table of an attribute when its name is
    that of the attribute. -/
theorem goesTo_eq (hknown : isKnown ctx.conf attr = true)
    (hnames : ctx.md5 (v.name.map tolower) = ctx.md5 (attr.map tolower) →
      v.name.map tolower = attr.map tolower) :
    goesTo ctx (attr2id ctx.md5 attr) v = sameIgnoringCase v.name attr := by
  rw [goesTo]
  by_cases h : v.name.map tolower = attr.map tolower
  · have hsame : sameIgnoringCase v.name attr = true := decide_eq_true h
    rw [isKnown_of_same hsame, hknown, hsame, Bool.true_and, attr2id, attr2id, h]
    exact decide_eq_true rfl
  · have hid : attr2id ctx.md5 v.name ≠ attr2id ctx.md5 attr := fun hid => h (hnames hid)
    have hsame : sameIgnoringCase v.name attr = false := decide_eq_false h
    rw [hsame, decide_eq_false hid, Bool.and_false]

/-- The values of the table that are of a job are those that were delivered. -/
theorem sentTo_eq_delivered
    (hjobid : ∀ r ∈ rs, ∃ x, r.jobid = some x ∧ (ctx.md5 x = ctx.md5 jobid → x = jobid))
    (hnames : ∀ r ∈ rs, ∀ v ∈ r.attributes,
      goesTo ctx (attr2id ctx.md5 attr) v = sameIgnoringCase v.name attr) :
    ((rs.flatMap (JobRecord.sentTo ctx (attr2id ctx.md5 attr))).filter fun p =>
      ctx.md5 p.1 = ctx.md5 jobid).map Prod.snd = delivered rs jobid attr := by
  induction rs with
  | nil => rfl
  | cons r rs ih =>
    rw [List.forall_mem_cons] at hjobid hnames
    obtain ⟨x, hx, hinj⟩ := hjobid.1
    have hsent : JobRecord.sentTo ctx (attr2id ctx.md5 attr) r =
        (r.attributes.filter fun v => sameIgnoringCase v.name attr).map fun v => (x, v) := by
      rw [JobRecord.sentTo, hx, Option.getD_some, List.filter_congr hnames.1]
    generalize hvs : (r.attributes.filter fun v => sameIgnoringCase v.name attr) = vs at hsent
    rw [List.flatMap_cons, List.filter_append, List.map_append, ih hjobid.2 hnames.2, hsent]
    by_cases hjob : x = jobid
    · subst hjob
      have hall : (vs.map fun v => (x, v)).filter (fun p => ctx.md5 p.1 = ctx.md5 x) =
          vs.map fun v => (x, v) := by
        refine List.filter_eq_self.2 fun p hp => ?_
        obtain ⟨v, -, rfl⟩ := List.mem_map.1 hp
        exact decide_eq_true rfl
      rw [hall, List.map_map, delivered, delivered, List.filter_cons_of_pos (by simpa using hx),
        List.flatMap_cons, hvs]
      exact congrArg (· ++ _) (List.map_id vs)
    · have hnone : (vs.map fun v => (x, v)).filter (fun p => ctx.md5 p.1 = ctx.md5 jobid) = [] := by
        refine List.filter_eq_nil_iff.2 fun p hp hmd5 => ?_
        obtain ⟨v, -, rfl⟩ := List.mem_map.1 hp
        exact hjob (hinj (of_decide_eq_true hmd5))
      have hr : r.jobid ≠ some jobid := by
        rw [hx]
        exact fun h => hjob (Option.some.inj h)
      rw [hnone, delivered, delivered, List.filter_cons_of_neg (by simpa using hr), List.map_nil,
        List.nil_append]

/-- What was delivered of an attribute is returned. -/
theorem getAttr_of_fed (hplugins : ctx.plugins = []) (hb : ctx.b64.Lawful) (hs : FedInvariant ctx s)
    (hjobs : Set.InjOn ctx.md5 (jobidsOf s.2)) (hnames : Set.InjOn ctx.md5 (namesOf s.2 req))
    (hjobid : jobid ∈ jobidsOf s.2) (hattr : some attr ∈ req.attributes)
    (hknown : isKnown ctx.conf attr = true) : ∃ vs, getAttr ctx fromDb s.1 jobid attr = .ok vs ∧
      (∀ v ∈ vs, v.name = attr) ∧
      vs.map AttrValue.content = (delivered s.2 jobid attr).map AttrValue.content := by
  have hrow : ∀ p row, RowOf ctx p row → row.jobid = ctx.md5 p.1 := by
    rintro p row ⟨av, value, -, hrow⟩
    exact jobid_of_attrvalRow hrow
  have hrows := List.rel_filter (p := fun p : Bytes × AttrValue => decide (ctx.md5 p.1 = ctx.md5 jobid))
    (q := fun row : AttrRow => decide (row.jobid = ctx.md5 jobid))
    (fun p row h => by simp only [hrow p row h]) (hs.values (attr2id ctx.md5 attr))
  have hsent := @sentTo_eq_delivered ctx s.2 jobid attr (fun r hr => ?_) fun r hr v hv => ?_
  · have hread : ∀ p ∈ (s.2.flatMap (JobRecord.sentTo ctx (attr2id ctx.md5 attr))).filter (fun p =>
        ctx.md5 p.1 = ctx.md5 jobid), ∀ row, RowOf ctx p row → ∃ v',
          (attrvalFromDb ctx fromDb javName row.fullValue >>= attrvalToSoap attr) = .ok v' ∧
            v'.name = attr ∧ v'.content = p.2.content := by
      intro p hp row h
      obtain ⟨r, hr, hpr⟩ := List.mem_flatMap.1 (List.mem_of_mem_filter hp)
      obtain ⟨v, hv, rfl⟩ := List.mem_map.1 hpr
      exact attrvalToSoap_of_row hplugins hb (hs.sendable r hr v (List.mem_of_mem_filter hv)) h attr
    obtain ⟨vs, hvs, hpairs⟩ := Exec.exists_mapM_of_forall₂ hrows hread
    refine ⟨vs, ?_, fun v hv => ?_, ?_⟩
    · rw [getAttr, attrRows]
      exact congrArg failsWithOne hvs
    · obtain ⟨p, -, hname, -⟩ := (Exec.mem_of_forall₂ hpairs).2 v hv
      exact hname
    · rw [← hsent, List.map_map]
      exact List.forall₂_eq_eq_eq ▸ List.forall₂_map_left_iff.2 (List.forall₂_map_right_iff.2
        (hpairs.flip.imp fun _ _ h => h.2))
  · obtain ⟨x, hx⟩ := hs.jobid r hr
    exact ⟨x, hx, fun h => hjobs ⟨r, hr, hx⟩ hjobid h⟩
  · exact goesTo_eq hknown fun h => hnames (.inl ⟨r, hr, v, hv, rfl⟩) (.inr ⟨attr, hattr, rfl⟩) h

/-- Of lists of values that have the names of a list, those of a name are one of them. -/
theorem filter_flatten_of_nodup {as : List (Option Bytes)} {ls : List (List AttrValue)}
    {R : Option Bytes → List AttrValue → Prop} (h : List.Forall₂ R as ls)
    (hR : ∀ a ∈ as, ∀ l, R a l → ∀ v ∈ l, some v.name = a) (hnodup : as.Nodup)
    (hattr : some attr ∈ as) :
    ∃ l, R (some attr) l ∧ ls.flatten.filter (fun v => v.name = attr) = l := by
  induction h with
  | nil => cases hattr
  | @cons a l as ls hal h ih =>
    rw [List.nodup_cons] at hnodup
    rw [List.forall_mem_cons] at hR
    rw [List.flatten_cons, List.filter_append]
    by_cases ha : a = some attr
    · subst ha
      refine ⟨l, hal, ?_⟩
      have hall : l.filter (fun v => v.name = attr) = l :=
        List.filter_eq_self.2 fun v hv => decide_eq_true (Option.some.inj (hR.1 l hal v hv))
      have hnone : ls.flatten.filter (fun v => v.name = attr) = [] := by
        refine List.filter_eq_nil_iff.2 fun v hv hname => hnodup.1 ?_
        obtain ⟨l', hl', hv⟩ := List.mem_flatten.1 hv
        obtain ⟨a', ha', hal'⟩ := (Exec.mem_of_forall₂ h).2 l' hl'
        rwa [← of_decide_eq_true hname, hR.2 a' ha' l' hal' v hv]
      rw [hall, hnone, List.append_nil]
    · obtain ⟨l', hl', hfilter⟩ := ih hR.2 hnodup.2 ((List.mem_cons.1 hattr).resolve_left (Ne.symm ha))
      have hnone : l.filter (fun v => v.name = attr) = [] := by
        refine List.filter_eq_nil_iff.2 fun v hv hname => ha ?_
        rw [← hR.1 l hal v hv, of_decide_eq_true hname]
      exact ⟨l', hl', by rw [hnone, List.nil_append, hfilter]⟩

/-- The requested attributes of a request that is not refused are known. -/
theorem isKnown_of_admitted (h : Admitted ctx db req) (hattr : some attr ∈ req.attributes) :
    isKnown ctx.conf attr = true := by
  obtain ⟨-, h⟩ := h
  have hmem : some attr ∈ req.conditions.map IndexQuery.attr ++ req.attributes :=
    List.mem_append_right _ hattr
  have hnot := List.any_eq_false.1 h _ hmem
  obtain ⟨known, hk, hsame⟩ : ∃ known ∈ ctx.conf.attrs, sameIgnoringCase known attr = true := by
    simpa [Option.all] using hnot
  refine List.any_eq_true.2 ⟨known, hk, ?_⟩
  exact decide_eq_true (of_decide_eq_true hsame).symm

/-- The record of a job has what was delivered. -/
theorem answersDelivered_of_getAttrsOf (hplugins : ctx.plugins = []) (hb : ctx.b64.Lawful)
    (hs : FedInvariant ctx s) (hjobs : Set.InjOn ctx.md5 (jobidsOf s.2))
    (hnames : Set.InjOn ctx.md5 (namesOf s.2 req)) (hadmitted : Admitted ctx s.1 req)
    (hnodup : req.attributes.Nodup) (hjobid : jobid ∈ jobidsOf s.2)
    (h : getAttrsOf ctx fromDb s.1 req jobid = .ok r) : AnswersDelivered s.2 req jobid r := by
  obtain ⟨ls, hls, h⟩ := Exec.bind_eq_ok.1 h
  obtain ⟨owner, -, h⟩ := Exec.bind_eq_ok.1 h
  obtain rfl := Except.ok.inj h
  refine ⟨rfl, fun attr hattr => ?_⟩
  have hget : ∀ attr', some attr' ∈ req.attributes → ∀ l, getAttr ctx fromDb s.1 jobid attr' = .ok l →
      (∀ v ∈ l, v.name = attr') ∧
        l.map AttrValue.content = (delivered s.2 jobid attr').map AttrValue.content := by
    intro attr' hattr' l hl
    obtain ⟨vs, hvs, hvs'⟩ := @getAttr_of_fed ctx fromDb s req jobid attr' hplugins hb hs hjobs hnames
      hjobid hattr' (isKnown_of_admitted hadmitted hattr')
    obtain rfl := Except.ok.inj (hvs.symm.trans hl)
    exact hvs'
  obtain ⟨l, hl, hfilter⟩ := filter_flatten_of_nodup (Exec.mapM_eq_ok.1 hls) (fun a ha l hal v hv => by
    obtain ⟨attr', hattr', hal⟩ := Exec.bind_eq_ok.1 hal
    obtain rfl := Exec.deref_eq_ok.1 hattr'
    rw [(hget attr' ha l hal).1 v hv]) hnodup hattr
  obtain ⟨attr', hattr', hl⟩ := Exec.bind_eq_ok.1 hl
  obtain rfl := Option.some.inj (Exec.deref_eq_ok.1 hattr')
  rw [hfilter, (hget _ hattr l hl).2]

/-- The owner of a job that is there is found. -/
theorem getOwner_of_mem {job : IndexJob} {user : UserRow} (hjob : job ∈ db.jobs.rows)
    (hkey : job.jobid = ctx.md5 job.dgJobid) (huser : user ∈ db.users.rows)
    (howner : user.userid = job.ownerid) : getOwner ctx db job.dgJobid = .ok user.certSubj := by
  have hjobs : (db.jobs.rows.filter fun j => j.jobid = ctx.md5 job.dgJobid) = [job] :=
    Table.filter_of_clash hjob (decide_eq_true hkey) fun a b ha hb =>
      .inl ((of_decide_eq_true ha).trans (of_decide_eq_true hb).symm)
  have husers : (db.users.rows.filter fun u => u.userid = job.ownerid) = [user] :=
    Table.filter_of_clash huser (decide_eq_true howner) fun a b ha hb =>
      .inl ((of_decide_eq_true ha).trans (of_decide_eq_true hb).symm)
  rw [getOwner, hjobs]
  simp only [husers]

/-- The record of a job whose owner is there is found. -/
theorem exists_getAttrsOf (hplugins : ctx.plugins = []) (hb : ctx.b64.Lawful)
    (hs : FedInvariant ctx s) (hjobs : Set.InjOn ctx.md5 (jobidsOf s.2))
    (hnames : Set.InjOn ctx.md5 (namesOf s.2 req)) (hadmitted : Admitted ctx s.1 req)
    (hattrs : none ∉ req.attributes) (howners : HasOwners s.1) {job : IndexJob}
    (hjob : job ∈ s.1.jobs.rows) : ∃ r, getAttrsOf ctx fromDb s.1 req job.dgJobid = .ok r := by
  obtain ⟨hkey, hjobid⟩ := hs.jobs job hjob
  obtain ⟨user, huser, howner⟩ := howners job hjob
  have hget : ∀ a ∈ req.attributes, ∃ vs,
      (Exec.deref a >>= getAttr ctx fromDb s.1 job.dgJobid) = .ok vs := fun a ha => by
    obtain ⟨attr, rfl⟩ := Option.ne_none_iff_exists'.1 fun h => hattrs (h ▸ ha)
    obtain ⟨vs, hvs, -⟩ := @getAttr_of_fed ctx fromDb s req job.dgJobid attr hplugins hb hs hjobs
      hnames hjobid ha (isKnown_of_admitted hadmitted ha)
    exact ⟨vs, hvs⟩
  obtain ⟨ls, hls⟩ := Exec.exists_mapM hget
  refine ⟨⟨some job.dgJobid, some user.certSubj, ls.flatten, none⟩, ?_⟩
  rw [getAttrsOf, hls, Exec.ok_bind, getOwner_of_mem hjob hkey huser howner, Exec.ok_bind]
  rfl

end Returned

/-! ## The answers of a server that was fed -/

section Answers

open Sql

variable {ctx : IndexContext} {fromDb : TplugData → Option (Bytes → Exec Attrval)} {db : IndexDb}
  {cs : List IndexQuery} {req : QueryJobs}

/-- Whatever the name of the client is, a text the database understands asks for jobs. -/
theorem cols_of_parse_queryText {text : Bytes} {q : Select} (htext : queryText ctx cs = .ok text)
    (hq : parse text = some q) :
    q.cols = [ascii "dg_jobid", ascii "ps"] ∧ q.tables = queryTables ctx cs := by
  have hcs : ∀ c ∈ cs, Buildable ctx c := by
    by_contra hcs
    obtain ⟨r, hr, -⟩ := Exec.bind_eq_ok.1 htext
    exact whereFrom_ne hcs _ r hr
  rcases hauth : ctx.conf.noAuth with _ | _
  · obtain ⟨qwhere, -, hwhere, -⟩ := @whereFrom_eq ctx cs 0 hcs [] [] [] [] .nil
    have hbefore := lexes_beforeName ctx cs
    replace hbefore : LexesIdle (ascii "SELECT DISTINCT dg_jobid,ps FROM jobs,users" ++
        ((attrTables ctx cs []).flatMap fun id => ascii ", attr_" ++ id) ++
          ascii " WHERE (jobs.ownerid = users.userid AND users.cert_subj=")
        (queryTokens ctx cs ++ [.lpar, .word (ascii "jobs.ownerid"), .eq,
        .word (ascii "users.userid"), .and, .word (ascii "users.cert_subj"), .eq]) := by
      rw [queryTokens, queryTables, hauth]
      simpa [headTokens, nameTokens] using hbefore
    have hopen : ascii " WHERE (jobs.ownerid = users.userid AND users.cert_subj='" =
        ascii " WHERE (jobs.ownerid = users.userid AND users.cert_subj=" ++ ascii "'" := by
      decide
    rw [queryText, hwhere, Exec.ok_bind, hauth, hopen] at htext
    obtain rfl := Except.ok.inj htext
    -- the name of the client stands behind the tables
    rw [List.append_assoc, ← List.append_assoc, ← List.append_assoc, parse, hbefore.lex_append] at hq
    obtain ⟨ts, -, hq⟩ := Option.bind_eq_some_iff.1 (Option.bind_map ▸ hq)
    replace hq : parseSelect (queryTokens ctx cs ++ _ ++ ts) = some q := hq
    rw [List.append_assoc, queryTokens, parseSelect_headTokens] at hq
    obtain ⟨e, -, rfl⟩ := Option.map_eq_some_iff.1 hq
    exact ⟨rfl, rfl⟩
  · obtain ⟨text', htext', hparse⟩ := parse_queryText hcs fun h => by rw [hauth] at h; cases h
    obtain rfl := Except.ok.inj (htext'.symm.trans htext)
    rw [hparse] at hq
    obtain ⟨e, -, rfl⟩ := Option.map_eq_some_iff.1 hq
    exact ⟨rfl, rfl⟩

/-- What a query returns are jobs that are there. -/
theorem exists_job_of_getJobids {rows : List (Bytes × Bytes)} (h : getJobids ctx db cs = .ok rows)
    {row : Bytes × Bytes} (hrow : row ∈ rows) : ∃ job ∈ db.jobs.rows, job.dgJobid = row.1 := by
  obtain ⟨text, htext, h⟩ := Exec.bind_eq_ok.1 h
  cases hq : parse text with
  | none =>
    rw [hq] at h
    cases h
  | some q =>
    rw [hq] at h
    obtain rfl := Except.ok.inj h
    obtain ⟨hcols, htables⟩ := cols_of_parse_queryText htext hq
    obtain ⟨vs, hvs, hfetch⟩ := List.mem_filterMap.1 hrow
    rw [mem_eval (htables ▸ nodup_queryTables), hcols, htables] at hvs
    obtain ⟨rowOf, hrows, -, hvs⟩ := hvs
    obtain ⟨job, hjob, user, -, value, -, heq⟩ := exists_rowsOf hrows
    have henv : envOf (queryTables ctx cs) rowOf = queryEnv ctx cs job user value := by
      rw [queryEnv, envOf, envOf]
      exact List.map_congr_left fun t ht => by rw [heq t ht]
    rw [henv, cols_rowsOf] at hvs
    rw [← Option.some.inj hvs] at hfetch
    exact ⟨job, hjob, congrArg Prod.fst (Option.some.inj hfetch)⟩

/-- The answer about a job. -/
theorem answer_eq_ok {row : Bytes × Bytes} {answer : JobRecord × Bytes} :
    (do return (← getAttrsOf ctx fromDb db req row.1, row.2)) = (.ok answer : Exec _) ↔
      getAttrsOf ctx fromDb db req row.1 = .ok answer.1 ∧ row.2 = answer.2 := by
  rw [Exec.bind_eq_ok]
  constructor
  · rintro ⟨r, hr, h⟩
    obtain rfl := Except.ok.inj h
    exact ⟨hr, rfl⟩
  · rintro ⟨hr, hps⟩
    exact ⟨answer.1, hr, congrArg (fun ps => Except.ok (answer.1, ps)) hps⟩

/-- The parts of a query that is answered. -/
theorem indexQueryJobs_eq_ok {answers : List (JobRecord × Bytes)} :
    indexQueryJobs ctx fromDb db req = .ok answers ↔ Admitted ctx db req ∧
      ∃ rows, getJobids ctx db req.conditions = .ok rows ∧
        rows.mapM (fun row => do return (← getAttrsOf ctx fromDb db req row.1, row.2)) =
          .ok answers := by
  rw [indexQueryJobs, Admitted]
  cases checkIndexedConditions db req with
  | true => exact iff_of_false nofun fun h => nomatch h.1.1
  | false =>
    cases checkConditions ctx.conf req with
    | true => exact iff_of_false nofun fun h => nomatch h.1.2
    | false => exact Exec.bind_eq_ok.trans (and_iff_right ⟨rfl, rfl⟩).symm

/-- What was fed is what is answered. -/
theorem answers_of_fed (hplugins : ctx.plugins = []) (hb : ctx.b64.Lawful)
    {s : IndexDb × List JobRecord} (hfed : FedInvariant ctx s) (hnodup : req.attributes.Nodup)
    (hjobs : Set.InjOn ctx.md5 (jobidsOf s.2)) (hnames : Set.InjOn ctx.md5 (namesOf s.2 req)) :
    (∀ answers, indexQueryJobs ctx fromDb s.1 req = .ok answers →
      ∀ answer ∈ answers, ∃ jobid, AnswersDelivered s.2 req jobid answer.1) ∧
    (HasOwners s.1 → none ∉ req.attributes → Admitted ctx s.1 req →
      ∀ rows, getJobids ctx s.1 req.conditions = .ok rows →
        ∃ answers, indexQueryJobs ctx fromDb s.1 req = .ok answers ∧
          answers.map (fun answer => (answer.1.jobid, answer.2)) =
            rows.map fun row => (some row.1, row.2)) := by
  constructor
  · intro answers h answer hanswer
    obtain ⟨hadmitted, rows, hrows, hanswers⟩ := indexQueryJobs_eq_ok.1 h
    obtain ⟨row, hrow, hrecord⟩ := (Exec.mem_of_mapM hanswers).2 answer hanswer
    obtain ⟨job, hjob, hid⟩ := exists_job_of_getJobids hrows hrow
    exact ⟨row.1, answersDelivered_of_getAttrsOf hplugins hb hfed hjobs hnames hadmitted hnodup
      (hid ▸ (hfed.jobs job hjob).delivered) (answer_eq_ok.1 hrecord).1⟩
  · intro howners hattrs hadmitted rows hrows
    obtain ⟨answers, hanswers, hpairs⟩ := (@Exec.exists_mapM_iff _ _
      (fun row answer => (answer.1.jobid, answer.2) = (some row.1, row.2))
      (fun row => do return (← getAttrsOf ctx fromDb s.1 req row.1, row.2)) rows).2 fun row hrow => by
        obtain ⟨job, hjob, hid⟩ := exists_job_of_getJobids hrows hrow
        obtain ⟨r, hr⟩ := @exists_getAttrsOf ctx fromDb s req hplugins hb hfed hjobs hnames hadmitted
          hattrs howners job hjob
        have hanswer := answersDelivered_of_getAttrsOf hplugins hb hfed hjobs hnames hadmitted hnodup
          (hfed.jobs job hjob).delivered hr
        rw [hid] at hr hanswer
        exact ⟨(r, row.2), answer_eq_ok.2 ⟨hr, rfl⟩, by rw [hanswer.1]⟩
    refine ⟨answers, indexQueryJobs_eq_ok.2 ⟨hadmitted, rows, hrows, hanswers⟩, ?_⟩
    exact List.forall₂_eq_eq_eq ▸ List.forall₂_map_left_iff.2 (List.forall₂_map_right_iff.2 hpairs.flip)

end Answers

end JobProvenance
