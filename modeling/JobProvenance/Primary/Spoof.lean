import JobProvenance.Primary.Bulk

/-!
# Tags in the place of metadata

A feed may have conditions on the metadata of jobs only. Whether a job meets them
should be a matter of the job's row, not of the tags its owner gives it; but what
arrived is looked at first, whoever it comes from, and a tag may have the name of
a metadata attribute.

* `rowVerdict`: whether the row of a job meets conditions;
* `isFeedMatching_eq_ok`: what `isFeedMatching` returns for conditions on
  metadata;
* `sameVerdict_iff`: after any tags it returns the verdict of the row exactly when
  what arrives leaves it `Undisturbed`.
-/

namespace JobProvenance

/-! ## The verdict of the row -/

/-- Whether a value arrived with the name of a condition. -/
def arrives (attrs : List Attrval) (qr : QueryRec) : Bool := attrs.any (·.name = qr.attr)

/-- The first value that arrived with the name of a condition meets it, if there is
    one. -/
def meetsArrived (attrs : List Attrval) (qr : QueryRec) : Exec Bool :=
  match attrs.find? (·.name = qr.attr) with
  | some v => checkQryItem qr v
  | none => .ok true

/-- The value of an attribute in a row, of an owner and a time. -/
def rowValue (info : Bytes × ℤ) (name : Bytes) : Attrval :=
  systemValue name (if name = GLITE_JP_ATTR_OWNER then info.1 else regtimeText info.2) info.2

/-- A row meets a condition. -/
def meetsRow (info : Bytes × ℤ) (qr : QueryRec) : Exec Bool :=
  checkQryItem qr (rowValue info qr.attr)

/-- A row meets a condition that what arrived leaves open. -/
def meetsLeft (attrs : List Attrval) (info : Bytes × ℤ) (qr : QueryRec) : Exec Bool :=
  if arrives attrs qr then .ok true else meetsRow info qr

/-- Whether a row meets conditions. -/
def rowVerdict (info : Bytes × ℤ) (qry : List QueryRec) : Exec Bool := qry.allM (meetsRow info)

/-- The conditions that are left open stand before the others. -/
def LeftFirst (attrs : List Attrval) (qry : List QueryRec) : Prop :=
  qry = qry.filter (!arrives attrs ·) ++ qry.filter (arrives attrs)

/-- What arrives does not change the verdict of a row: when the row meets the
    conditions, so does what arrives, and the matcher can cope with it; when it does
    not, something that arrives does not meet a condition either, or a condition
    that is left open shows it. -/
def Undisturbed (attrs : List Attrval) (info : Bytes × ℤ) (qry : List QueryRec) : Bool → Prop
  | true => qry.allM (meetsArrived attrs) = .ok true ∧ qry.length ≤ QUERY_MAX ∧ LeftFirst attrs qry
  | false => (qry.take QUERY_MAX).allM (meetsArrived attrs) = .ok false ∨
    qry.allM (meetsArrived attrs) = .ok true ∧ qry.length ≤ QUERY_MAX ∧ LeftFirst attrs qry ∧
      qry.allM (meetsLeft attrs info) = .ok false

/-! ## What the matcher returns -/

section Verdict

variable {env : Env} {s : PsState} {feed : Jpfeed} {job : Bytes} {attrs out : List Attrval}
  {qr : QueryRec} {qry left met : List QueryRec} {qi : List Bool} {i : ℕ} {info : Bytes × ℤ} {b : Bool}

theorem arrives_eq_true : arrives attrs qr = true ↔ ∃ v, attrs.find? (·.name = qr.attr) = some v := by
  rw [← Option.isSome_iff_exists, List.find?_isSome, arrives, List.any_eq_true]

theorem arrives_eq_false : arrives attrs qr = false ↔ attrs.find? (·.name = qr.attr) = none := by
  rw [← Bool.not_eq_true, arrives_eq_true, ← Option.isSome_iff_exists, Bool.not_eq_true,
    Option.isSome_eq_false_iff, Option.isNone_iff_eq_none]

/-- What arrives is compared condition by condition. -/
theorem arrivedMeets_eq : arrivedMeets attrs qr = (do
    if ← meetsArrived attrs qr then return some (arrives attrs qr) else return none) := by
  unfold arrivedMeets meetsArrived
  cases hf : attrs.find? (·.name = qr.attr) with
  | none => rw [arrives_eq_false.2 hf]; rfl
  | some v => rw [arrives_eq_true.2 ⟨v, hf⟩]

theorem arrivedMeetsAll_eq_none (hi : i ≤ QUERY_MAX) : arrivedMeetsAll attrs i qry = .ok none ↔
    (qry.take (QUERY_MAX - i)).allM (meetsArrived attrs) = .ok false := by
  induction qry generalizing i with
  | nil => exact iff_of_false (by rintro ⟨⟩) fun h => by rw [List.take_nil] at h; cases h
  | cons qr qry ih =>
    unfold arrivedMeetsAll
    split_ifs with hlt
    · obtain ⟨n, hn⟩ : ∃ n, QUERY_MAX - i = n + 1 := ⟨QUERY_MAX - i - 1, by omega⟩
      have hn' : QUERY_MAX - (i + 1) = n := by omega
      rw [hn, List.take_succ_cons, List.allM, arrivedMeets_eq]
      cases hm : meetsArrived attrs qr with
      | error e => exact iff_of_false (by rintro ⟨⟩) (by rintro ⟨⟩)
      | ok meets =>
        cases meets with
        | false => exact iff_of_true rfl rfl
        | true =>
          rw [← hn']
          change (arrivedMeetsAll attrs (i + 1) qry >>= fun qi => pure (qi.map _)) = _ ↔
            (qry.take (QUERY_MAX - (i + 1))).allM (meetsArrived attrs) = _
          rw [← ih (by omega), Exec.bind_eq_ok]
          constructor
          · rintro ⟨_ | qi, hqi, h⟩
            · exact hqi
            · cases h
          · exact fun h => ⟨none, h, rfl⟩
    · have hzero : QUERY_MAX - i = 0 := by omega
      rw [hzero, List.take_zero]
      exact iff_of_false (by rintro ⟨⟩) (by rintro ⟨⟩)

theorem arrivedMeetsAll_eq_some : arrivedMeetsAll attrs i qry = .ok (some qi) ↔
    qry.allM (meetsArrived attrs) = .ok true ∧ (qry = [] ∨ i + qry.length ≤ QUERY_MAX) ∧
      qi = qry.map (arrives attrs) := by
  induction qry generalizing i qi with
  | nil =>
    constructor
    · intro h
      exact ⟨rfl, .inl rfl, (Option.some.inj (Except.ok.inj h)).symm⟩
    · rintro ⟨-, -, rfl⟩
      rfl
  | cons qr qry ih =>
    rw [List.length_cons, List.map_cons, Exec.allM_eq_true, List.forall_mem_cons,
      ← Exec.allM_eq_true]
    unfold arrivedMeetsAll
    split_ifs with hlt
    · rw [arrivedMeets_eq]
      cases hm : meetsArrived attrs qr with
      | error e => exact iff_of_false (by rintro ⟨⟩) (by rintro ⟨⟨⟨⟩, _⟩, _⟩)
      | ok meets =>
        cases meets with
        | false => exact iff_of_false (by rintro ⟨⟩) (by rintro ⟨⟨⟨⟩, _⟩, _⟩)
        | true =>
          change (arrivedMeetsAll attrs (i + 1) qry >>= fun qi => pure (qi.map _)) = _ ↔ _
          rw [Exec.bind_eq_ok]
          constructor
          · rintro ⟨_ | qi', hqi, h⟩
            · cases h
            · obtain ⟨hall, hlen, rfl⟩ := ih.1 hqi
              refine ⟨⟨rfl, hall⟩, .inr ?_, (Option.some.inj (Except.ok.inj h)).symm⟩
              rcases hlen with rfl | hlen
              · rw [List.length_nil]; omega
              · omega
          · rintro ⟨⟨-, hall⟩, hlen, rfl⟩
            refine ⟨_, ih.2 ⟨hall, .inr ?_, rfl⟩, rfl⟩
            have hlen := hlen.resolve_left (by simp)
            omega
    · refine iff_of_false (by rintro ⟨⟩) fun h => ?_
      have hlen := h.2.1.resolve_left (by simp)
      omega

theorem all_arrives_iff :
    (qry.map (arrives attrs)).all id = true ↔ qry.filter (!arrives attrs ·) = [] := by
  rw [List.all_map, List.all_eq_true, List.filter_eq_nil_iff]
  exact forall₂_congr fun qr _ => by simp

theorem filter_arrives_of_nil (h : qry.filter (!arrives attrs ·) = []) :
    qry.filter (arrives attrs) = qry := by
  refine List.filter_eq_self.2 fun qr hqr => ?_
  simpa using List.filter_eq_nil_iff.1 h qr hqr

theorem leftFirst_of_nil (h : qry.filter (!arrives attrs ·) = []) : LeftFirst attrs qry := by
  rw [LeftFirst, h, List.nil_append, filter_arrives_of_nil h]

/-- The conditions that are left open are found when they stand in front. -/
theorem attrsLeft_eq {attr : List Bytes} : attrsLeft qry (qry.map (arrives attrs)) = .ok attr ↔
    LeftFirst attrs qry ∧ attr = (qry.filter (!arrives attrs ·)).map (·.attr) := by
  induction qry generalizing attr with
  | nil => exact ⟨fun h => ⟨rfl, (Except.ok.inj h).symm⟩, fun h => congrArg _ h.2.symm⟩
  | cons qr qry ih =>
    unfold LeftFirst
    rw [List.map_cons, List.filter_cons, List.filter_cons]
    cases harr : arrives attrs qr with
    | false =>
      change (attrsLeft qry (qry.map (arrives attrs)) >>= fun attr => pure (qr.attr :: attr)) = _ ↔ _
      rw [Exec.bind_eq_ok, Bool.not_false, if_pos rfl, if_neg Bool.false_ne_true, List.cons_append,
        List.cons.injEq, List.map_cons]
      constructor
      · rintro ⟨attr', hattr', h⟩
        obtain ⟨hleft, rfl⟩ := ih.1 hattr'
        exact ⟨⟨rfl, hleft⟩, (Except.ok.inj h).symm⟩
      · rintro ⟨⟨-, hleft⟩, rfl⟩
        exact ⟨_, ih.2 ⟨hleft, rfl⟩, rfl⟩
    | true =>
      rw [Bool.not_true, if_neg Bool.false_ne_true, if_pos rfl]
      change (if (qry.map (arrives attrs)).all id then _ else _) = _ ↔ _
      by_cases hnil : qry.filter (!arrives attrs ·) = []
      · rw [if_pos (all_arrives_iff.2 hnil), hnil, List.nil_append, List.map_nil, Except.ok.injEq,
          eq_comm]
        exact (and_iff_right (congrArg _ (filter_arrives_of_nil hnil).symm)).symm
      · rw [if_neg fun h => hnil (all_arrives_iff.1 h)]
        refine iff_of_false (fun h => nomatch h) fun h => ?_
        -- something that is open would stand in front
        obtain ⟨qr', rest, hcons⟩ := List.exists_cons_of_ne_nil hnil
        have hmem : qr' ∈ qry.filter (!arrives attrs ·) := hcons ▸ List.mem_cons_self
        have hhead := h.1
        rw [hcons, List.cons_append] at hhead
        rw [← (List.cons.inj hhead).1, List.mem_filter, harr] at hmem
        exact absurd hmem.2 (by simp)

/-- The metadata of a registered job. -/
theorem getAttrs_metadata {names : List Bytes}
    (hinfo : getJobInfo s.tables.jobs.rows s.tables.users.rows job = .ok info)
    (hmeta : ∀ name ∈ names, isMetadata name = true) (hne : names ≠ []) :
    getAttrs env s job names = .ok (names.map (rowValue info)) := by
  have hall : names.filter isMetadata = names := List.filter_eq_self.2 hmeta
  have hnone : names.filter (!isMetadata ·) = [] :=
    List.filter_eq_nil_iff.2 fun name hn => by simp [hmeta name hn]
  have hmap : names.mapM (jobMetadata s.tables.jobs.rows s.tables.users.rows job) =
      .ok (names.map (rowValue info)) := by
    rw [Exec.mapM_eq_ok, List.forall₂_map_right_iff, List.forall₂_same]
    intro name hn
    rw [jobMetadata, if_pos (hmeta name hn), hinfo]
    rfl
  rw [getAttrs, hall, hnone, getJobMetadata, hmap]
  change (if [] ++ names.map (rowValue info) = [] then _ else _) = _
  rw [List.nil_append, if_neg fun h => hne (List.map_eq_nil_iff.1 h)]
  rfl

theorem retrievedMeet_none (hmet : ∀ qr ∈ met, out.find? (·.name = qr.attr) = none) :
    retrievedMeet out i met = .ok true := by
  induction met generalizing i with
  | nil => rfl
  | cons qr met ih =>
    rw [List.forall_mem_cons] at hmet
    rw [retrievedMeet, hmet.1]
    exact ih hmet.2

/-- The conditions behind those that were left open are not looked at again. -/
theorem retrievedMeet_append (hmet : ∀ qr ∈ met, out.find? (·.name = qr.attr) = none)
    (hlen : i + left.length ≤ out.length) :
    retrievedMeet out i (left ++ met) = left.allM (meetsArrived out) := by
  induction left generalizing i with
  | nil => exact retrievedMeet_none hmet
  | cons qr left ih =>
    rw [List.length_cons] at hlen
    rw [List.cons_append, retrievedMeet, List.allM, meetsArrived]
    cases out.find? (·.name = qr.attr) with
    | none => exact ih (by omega)
    | some v =>
      dsimp only
      cases checkQryItem qr v with
      | error e => rfl
      | ok meets =>
        cases meets with
        | false => rfl
        | true =>
          change (if i < out.length then retrievedMeet out (i + 1) (left ++ met) else _) = _
          rw [if_pos (by omega)]
          exact ih (by omega)

/-- What is retrieved for the open conditions has no value for the others. -/
theorem find?_of_arrives (hnames : ∀ v ∈ out, v.name ∈ (qry.filter (!arrives attrs ·)).map (·.attr))
    (harr : arrives attrs qr = true) : out.find? (·.name = qr.attr) = none := by
  rw [List.find?_eq_none]
  intro v hv
  obtain ⟨qr', hqr', hname⟩ := List.mem_map.1 (hnames v hv)
  rw [decide_eq_true_eq]
  intro hv
  have hsame : arrives attrs qr' = arrives attrs qr := by
    rw [arrives, arrives, hname, hv]
  have hopen := (List.mem_filter.1 hqr').2
  rw [hsame, harr] at hopen
  cases hopen

/-- What is retrieved is compared with the conditions that are left open, which come first. -/
theorem retrievedMeet_of_leftFirst (hfirst : LeftFirst attrs qry)
    (hnames : ∀ v ∈ out, v.name ∈ (qry.filter (!arrives attrs ·)).map (·.attr))
    (hle : (qry.filter (!arrives attrs ·)).length ≤ out.length) :
    retrievedMeet out 0 qry = (qry.filter (!arrives attrs ·)).allM (meetsArrived out) := by
  have hfirst : qry = qry.filter (!arrives attrs ·) ++ qry.filter (arrives attrs) := hfirst
  conv_lhs => rw [hfirst]
  refine retrievedMeet_append (fun qr hqr => ?_) (by omega)
  exact find?_of_arrives hnames (List.mem_filter.1 hqr).2

/-- How the matcher goes on when all that arrived meets its conditions. -/
def retrievedMeetAll (getAttrs : Bytes → List Bytes → Exec (List Attrval)) (job : Bytes)
    (attrs : List Attrval) (qry : List QueryRec) : Exec Bool :=
  if (qry.map (arrives attrs)).all id then return true
  else do
    let attr ← attrsLeft qry (qry.map (arrives attrs))
    let out ← Exec.stored (getAttrs job attr)
    if out.length < attr.length then return false
    else retrievedMeet out 0 qry

theorem retrievedMeetAll_eq_ok_iff {getAttrs : Bytes → List Bytes → Exec (List Attrval)}
    (hnames : ∀ names out, getAttrs job names = .ok out → ∀ v ∈ out, v.name ∈ names) :
    retrievedMeetAll getAttrs job attrs qry = .ok b ↔ LeftFirst attrs qry ∧
      (qry.filter (!arrives attrs ·) = [] ∧ b = true ∨ qry.filter (!arrives attrs ·) ≠ [] ∧ ∃ out,
        getAttrs job ((qry.filter (!arrives attrs ·)).map (·.attr)) = .ok out ∧
          if out.length < (qry.filter (!arrives attrs ·)).length then b = false
          else (qry.filter (!arrives attrs ·)).allM (meetsArrived out) = .ok b) := by
  by_cases hnil : qry.filter (!arrives attrs ·) = []
  · rw [retrievedMeetAll, if_pos (all_arrives_iff.2 hnil)]
    simp [hnil, leftFirst_of_nil hnil, pure, Except.pure, eq_comm]
  · rw [retrievedMeetAll, if_neg fun h => hnil (all_arrives_iff.1 h), Exec.bind_eq_ok]
    simp only [attrsLeft_eq, Exec.bind_eq_ok, stored_eq_ok]
    constructor
    · rintro ⟨attr, ⟨hfirst, rfl⟩, out, hout, h⟩
      refine ⟨hfirst, .inr ⟨hnil, out, hout, ?_⟩⟩
      rw [List.length_map] at h
      split_ifs at h ⊢ with hlt
      · exact (Except.ok.inj h).symm
      · rw [← retrievedMeet_of_leftFirst hfirst (hnames _ _ hout) (not_lt.1 hlt)]
        exact h
    · rintro ⟨hfirst, ⟨hnil', -⟩ | ⟨-, out, hout, h⟩⟩
      · exact absurd hnil' hnil
      · refine ⟨_, ⟨hfirst, rfl⟩, out, hout, ?_⟩
        rw [List.length_map]
        split_ifs at h ⊢ with hlt
        · rw [h]
          rfl
        · rw [retrievedMeet_of_leftFirst hfirst (hnames _ _ hout) (not_lt.1 hlt)]
          exact h

theorem allM_meetsLeft : qry.allM (meetsLeft attrs info) =
    (qry.filter (!arrives attrs ·)).allM (meetsRow info) := by
  induction qry with
  | nil => rfl
  | cons qr qry ih =>
    rw [List.allM, List.filter_cons, meetsLeft]
    cases arrives attrs qr with
    | true => exact ih
    | false =>
      rw [if_neg Bool.false_ne_true, Bool.not_false, if_pos rfl, List.allM, ih]

theorem find?_rowValue {names : List Bytes} {name : Bytes} (h : name ∈ names) :
    (names.map (rowValue info)).find? (·.name = name) = some (rowValue info name) := by
  cases hf : (names.map (rowValue info)).find? (·.name = name) with
  | none =>
    have hne := List.find?_eq_none.1 hf _ (List.mem_map_of_mem h)
    exact absurd (decide_eq_true rfl) hne
  | some v =>
    obtain ⟨m, -, rfl⟩ := List.mem_map.1 (List.mem_of_find?_eq_some hf)
    have hm := List.find?_some hf
    have hname : m = name := of_decide_eq_true hm
    rw [hname]

/-- What is retrieved of the row meets the conditions that the row meets. -/
theorem allM_meetsArrived_rowValue {names : List Bytes} (h : ∀ qr ∈ left, qr.attr ∈ names) :
    left.allM (meetsArrived (names.map (rowValue info))) = left.allM (meetsRow info) := by
  induction left with
  | nil => rfl
  | cons qr left ih =>
    obtain ⟨hqr, hleft⟩ := List.forall_mem_cons.1 h
    have hmeets : meetsArrived (names.map (rowValue info)) qr = meetsRow info qr := by
      rw [meetsArrived, find?_rowValue hqr]
      rfl
    rw [List.allM, List.allM, hmeets, ih hleft]

/-- Of conditions on metadata, those that are left open are compared with the row. -/
theorem matching_of_arrived (hmeta : ∀ qr ∈ qry, isMetadata qr.attr = true)
    (hinfo : getJobInfo s.tables.jobs.rows s.tables.users.rows job = .ok info) :
    retrievedMeetAll (getAttrs env s) job attrs qry = .ok b ↔
      LeftFirst attrs qry ∧ qry.allM (meetsLeft attrs info) = .ok b := by
  rw [allM_meetsLeft]
  set left := qry.filter (!arrives attrs ·) with hleft
  have hget : left ≠ [] → getAttrs env s job (left.map (·.attr)) =
      .ok ((left.map (·.attr)).map (rowValue info)) := fun hne => by
    refine getAttrs_metadata hinfo (fun name hn => ?_) fun h => hne (List.map_eq_nil_iff.1 h)
    obtain ⟨qr, hqr, rfl⟩ := List.mem_map.1 hn
    exact hmeta qr (List.mem_filter.1 hqr).1
  have hmeet : left.allM (meetsArrived ((left.map (·.attr)).map (rowValue info))) =
      left.allM (meetsRow info) := allM_meetsArrived_rowValue fun qr => List.mem_map_of_mem
  have hlen : ((left.map (·.attr)).map (rowValue info)).length = left.length := by simp
  rw [retrievedMeetAll_eq_ok_iff fun names out => name_of_getAttrs, ← hleft]
  refine and_congr_right fun _ => ?_
  constructor
  · rintro (⟨hnil, rfl⟩ | ⟨hne, out, hout, h⟩)
    · rw [hnil]
      rfl
    · obtain rfl := Except.ok.inj ((hget hne).symm.trans hout)
      rwa [hlen, if_neg (lt_irrefl _), hmeet] at h
  · intro h
    by_cases hnil : left = []
    · rw [hnil] at h
      exact .inl ⟨hnil, (Except.ok.inj h).symm⟩
    · refine .inr ⟨hnil, _, hget hnil, ?_⟩
      rwa [hlen, if_neg (lt_irrefl _), hmeet]

/-- What the matcher returns for conditions on metadata. -/
theorem isFeedMatching_eq_ok (hmeta : ∀ qr ∈ feed.qry, isMetadata qr.attr = true)
    (hinfo : getJobInfo s.tables.jobs.rows s.tables.users.rows job = .ok info) :
    isFeedMatching (getAttrs env s) feed job attrs = .ok b ↔
      (feed.qry.take QUERY_MAX).allM (meetsArrived attrs) = .ok false ∧ b = false ∨
      feed.qry.allM (meetsArrived attrs) = .ok true ∧ feed.qry.length ≤ QUERY_MAX ∧
        LeftFirst attrs feed.qry ∧ feed.qry.allM (meetsLeft attrs info) = .ok b := by
  have hnone := @arrivedMeetsAll_eq_none attrs feed.qry 0 (Nat.zero_le _)
  rw [Nat.sub_zero] at hnone
  have hlength : feed.qry = [] ∨ 0 + feed.qry.length ≤ QUERY_MAX ↔ feed.qry.length ≤ QUERY_MAX := by
    rw [Nat.zero_add]
    exact or_iff_right_of_imp fun h => by rw [h]; exact Nat.zero_le _
  rw [isFeedMatching, Exec.bind_eq_ok]
  constructor
  · rintro ⟨_ | qi, hr, h⟩
    · exact .inl ⟨hnone.1 hr, (Except.ok.inj h).symm⟩
    · obtain ⟨hall, hlen, rfl⟩ := arrivedMeetsAll_eq_some.1 hr
      exact .inr ⟨hall, hlength.1 hlen, (matching_of_arrived hmeta hinfo).1 h⟩
  · rintro (⟨hall, rfl⟩ | ⟨hall, hlen, h⟩)
    · exact ⟨none, hnone.2 hall, rfl⟩
    · exact ⟨some _, arrivedMeetsAll_eq_some.2 ⟨hall, hlength.2 hlen, rfl⟩,
        (matching_of_arrived hmeta hinfo).2 h⟩

end Verdict

/-! ## Two runs -/

section TwoRuns

variable {env : Env} {s s₁ s₂ : PsState} {feed : Jpfeed} {job : Bytes} {attrs₁ attrs₂ : List Attrval}
  {info : Bytes × ℤ}

/-- A job is given a tag, and matched with the feeds of the slave; maybe this fails. -/
def RecordsTag (env : Env) (job : Bytes) (s t : PsState) : Prop :=
  ∃ feeds ctx now tag, t = Stateful.left (recordTag env feeds ctx now job tag s)

/-- Tags change nothing in the tables. -/
theorem tables_of_recordsTag (h : Relation.ReflTransGen (RecordsTag env job) s s₁) :
    s₁.tables = s.tables := by
  induction h with
  | refl => rfl
  | tail _ hstep ih =>
    obtain ⟨feeds, ctx, now, tag, rfl⟩ := hstep
    have hkeeps : Stateful.Keeps (·.tables = s.tables) (recordTag env feeds ctx now job tag) := by
      refine (serveRecordTag_keeps_tables _).bind fun ds => ?_
      cases ds with
      | none => exact .pure _
      | some ds => exact (runDeferred_keeps_tables _ feeds ds).bind fun _ => .pure _
    exact hkeeps _ ih

/-- After any tags in two runs the matcher returns the verdict of the job's row in
    both exactly when what arrives next leaves it undisturbed in both. -/
theorem sameVerdict_iff (hmeta : ∀ qr ∈ feed.qry, isMetadata qr.attr = true)
    (hinfo : getJobInfo s.tables.jobs.rows s.tables.users.rows job = .ok info)
    (h₁ : Relation.ReflTransGen (RecordsTag env job) s s₁)
    (h₂ : Relation.ReflTransGen (RecordsTag env job) s s₂) :
    (∃ b, rowVerdict info feed.qry = .ok b ∧
      isFeedMatching (getAttrs env s₁) feed job attrs₁ = .ok b ∧
      isFeedMatching (getAttrs env s₂) feed job attrs₂ = .ok b) ↔
    ∃ b, rowVerdict info feed.qry = .ok b ∧ Undisturbed attrs₁ info feed.qry b ∧
      Undisturbed attrs₂ info feed.qry b := by
  have hverdict : ∀ {t attrs b}, Relation.ReflTransGen (RecordsTag env job) s t →
      rowVerdict info feed.qry = .ok b →
        (isFeedMatching (getAttrs env t) feed job attrs = .ok b ↔
          Undisturbed attrs info feed.qry b) := by
    intro t attrs b ht hrow
    rw [← tables_of_recordsTag ht] at hinfo
    rw [isFeedMatching_eq_ok hmeta hinfo]
    cases b with
    | false =>
      rw [and_iff_left rfl]
      rfl
    | true =>
      rw [or_iff_right fun h => Bool.noConfusion h.2]
      refine and_congr_right fun _ => and_congr_right fun _ => and_iff_left ?_
      -- what the row meets of all conditions it meets of those left open
      rw [Exec.allM_eq_true]
      intro qr hqr
      rw [meetsLeft]
      split_ifs
      · rfl
      · exact Exec.allM_eq_true.1 hrow qr hqr
  refine exists_congr fun b => and_congr_right fun hrow => ?_
  rw [hverdict h₁ hrow, hverdict h₂ hrow]

end TwoRuns

/-! ## A tag with the name of the owner -/

/-- A feed of the jobs of bob. -/
def bobFeed : Jpfeed where
  id := ascii "feed"
  destination := ascii "https://jpis"
  expires := 360
  continuous := false
  attrs := [GLITE_JP_ATTR_OWNER]
  qry := [{ QueryRec.zero GLITE_JP_ATTR_OWNER with op := .EQUAL, value := some (ascii "/CN=bob") }]

/-- A tag that names an owner. -/
def bobTag : SoapTag := ⟨GLITE_JP_ATTR_OWNER, some (.string (ascii "/CN=bob"))⟩

/-- The owner and the time of registration of the job. -/
theorem getJobInfo_lateJob : getJobInfo (oneJobState .empty).tables.jobs.rows
    (oneJobState .empty).tables.users.rows lateJob.dgJobid =
      .ok (ascii "/CN=alice", lateJob.regTime) := rfl

theorem isMetadata_bobFeed : ∀ qr ∈ bobFeed.qry, isMetadata qr.attr = true := by
  intro qr hqr
  rw [List.mem_singleton.1 hqr]
  rfl

/-- A tag that names the owner the job has. -/
def aliceTag : SoapTag := ⟨GLITE_JP_ATTR_OWNER, some (.string (ascii "/CN=alice"))⟩

/-- The storage after the job is given a tag. -/
def taggedState (tag : SoapTag) : PsState :=
  Stateful.left (recordTag sampleEnv [bobFeed] alice 100 lateJob.dgJobid tag (oneJobState .empty))

/-- The job of alice is not one of bob, whether a tag with a color arrives, or one that
    names her as the owner. -/
theorem sameVerdict_iff_alice : ∃ attrs₁ attrs₂,
    (∃ s₁, serveRecordTag sampleEnv alice 100 lateJob.dgJobid redTag (oneJobState .empty) =
      .ok (some [.matchAttr lateJob.dgJobid attrs₁]) s₁) ∧
    (∃ s₂, serveRecordTag sampleEnv alice 100 lateJob.dgJobid aliceTag (oneJobState .empty) =
      .ok (some [.matchAttr lateJob.dgJobid attrs₂]) s₂) ∧
    ∃ b, rowVerdict (ascii "/CN=alice", lateJob.regTime) bobFeed.qry = .ok b ∧
      isFeedMatching (getAttrs sampleEnv (taggedState redTag)) bobFeed lateJob.dgJobid attrs₁ =
        .ok b ∧
      isFeedMatching (getAttrs sampleEnv (taggedState aliceTag)) bobFeed lateJob.dgJobid attrs₂ =
        .ok b :=
  ⟨_, _, ⟨_, rfl⟩, ⟨_, rfl⟩, (sameVerdict_iff isMetadata_bobFeed getJobInfo_lateJob
    (.single ⟨[bobFeed], alice, 100, redTag, rfl⟩)
    (.single ⟨[bobFeed], alice, 100, aliceTag, rfl⟩)).2
      ⟨false, rfl, .inr ⟨rfl, by decide, rfl, rfl⟩, .inl rfl⟩⟩

/-- The job of alice is not one of bob, but it is matched as if it were when she
    gives it a tag of that name, and not when she gives it another one. -/
theorem not_sameVerdict_alice : ∃ attrs₁ attrs₂ s₁ s₂,
    serveRecordTag sampleEnv alice 100 lateJob.dgJobid bobTag (oneJobState .empty) =
      .ok (some [.matchAttr lateJob.dgJobid attrs₁]) s₁ ∧
    serveRecordTag sampleEnv alice 100 lateJob.dgJobid redTag (oneJobState .empty) =
      .ok (some [.matchAttr lateJob.dgJobid attrs₂]) s₂ ∧
    isFeedMatching (getAttrs sampleEnv s₁) bobFeed lateJob.dgJobid attrs₁ = .ok true ∧
    isFeedMatching (getAttrs sampleEnv s₂) bobFeed lateJob.dgJobid attrs₂ = .ok false ∧
    rowVerdict (ascii "/CN=alice", lateJob.regTime) bobFeed.qry = .ok false :=
  ⟨_, _, _, _, rfl, rfl, rfl, rfl, rfl⟩

end JobProvenance
