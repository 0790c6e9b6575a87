import JobProvenance.Index.Query
import JobProvenance.Lib.Memory

/-!
# Admission of queries

A query is admitted when it asks for an indexed attribute, or for a job: the index
server reads the names of the indexed attributes from its database, into an array that
grows, and compares each condition with each of them. What the comparison returns, and
which errors it leaves, is modelled here with the array and the failures of the
database.

* `checkIndexed_eq`: what decides is the first condition that matches or has no
  attribute, unless no attribute is indexed;
* `checkIndexed_fst`: this is what `checkIndexedConditions` says of a query;
* `admissionExact_iff`: when exactly the queries are admitted that ask for a job or an
  indexed attribute.
-/

namespace JobProvenance

/-! ## The checks -/

/-- An error that is left for the client. -/
structure StackedError where
  code : ℤ
  desc : Bytes
  deriving DecidableEq

/-- A call of the database that failed: what it returns, and its error, if the database
    has one. -/
structure DbFailure where
  ret : ℤ
  neg : ret < 0
  error : Option StackedError

/-- How the selection of the indexed attributes goes wrong. -/
inductive SelectFailure
  /-- It is not executed. The number of attributes is not set then. -/
  | exec (fail : DbFailure) (held : ℤ)
  /-- After some rows, the next is not fetched. -/
  | fetch (fail : DbFailure) (fetched : ℕ)

/-- How many names the array gets room for at once. -/
def INDEXED_STRIDE : ℕ := 2

/-- Puts a name behind those before it, which are counted. -/
def storeIndexed (indexed : Block Bytes × ℕ) (name : Bytes) : Exec (Block Bytes × ℕ) := do
  let (names, i) := indexed
  let names := if i % INDEXED_STRIDE = 0 then
    Block.realloc (some names) ((i / INDEXED_STRIDE + 1) * INDEXED_STRIDE) else names
  return (← names.write i name, i + 1)

/-- Compares a condition with the job identifier and with the indexed attributes at some
    indices; `none` when it goes on with the next condition. -/
def scanIndexed (names : Block Bytes) (c : IndexQuery) :
    List ℕ → Exec (Option (ℤ × List StackedError))
  | [] => .ok none
  | j :: js =>
    match c.attr with
    | none => .ok (some (0, [⟨Errno.EINVAL.code,
        ascii "condition attribute no " ++ (printNat j ++ ascii " is NULL")⟩]))
    | some attr =>
      if sameIgnoringCase attr GLITE_JP_ATTR_JOBID then .ok (some (0, []))
      else do
        if sameIgnoringCase attr (← names.read j) then return some (0, [])
        else scanIndexed names c js

/-- Compares the conditions with the indexed attributes. -/
def scanConditions (names : Block Bytes) (i : ℕ) : List IndexQuery → Exec (ℤ × List StackedError)
  | [] => .ok (1, [])
  | c :: cs => do
    match ← scanIndexed names c (List.range i) with
    | some result => return result
    | none => scanConditions names i cs

/-- Whether a request asks for an indexed attribute: what the check returns, zero if so,
    and the errors it leaves. -/
def checkIndexed (db : IndexDb) (fails : Option SelectFailure) (req : QueryJobs) :
    Exec (ℤ × List StackedError) :=
  match fails with
  -- as many names are freed as the number says that was never set
  | some (.exec fail held) =>
    if 0 < held then .error .fault else .ok (fail.ret, fail.error.toList)
  | some (.fetch fail fetched) => do
    let _ ← ((indexedAttrs db).take fetched).foldlM storeIndexed ([], 0)
    return (fail.ret, fail.error.toList)
  | none => do
    let (names, i) ← (indexedAttrs db).foldlM storeIndexed ([], 0)
    scanConditions names i req.conditions

/-- The checks of the operation: whether it goes on to ask for jobs, and the errors it
    leaves. -/
def queryChecks (conf : IndexConf) (db : IndexDb) (fails : Option SelectFailure)
    (req : QueryJobs) : Exec (Bool × List StackedError) := do
  let (ret, errors) ← checkIndexed db fails req
  if ret ≠ 0 then
    return (false, errors ++ [⟨Errno.EINVAL.code, ascii "No indexed attribute in query"⟩])
  if checkConditions conf req then
    return (false, errors ++ [⟨Errno.EINVAL.code, ascii "Unknown attribute in query"⟩])
  return (true, errors)

/-! ## What is admitted -/

/-- A condition asks for a job or for one of some attributes. -/
def IndexQuery.Matches (names : List Bytes) (c : IndexQuery) : Prop :=
  ∃ attr ∈ c.attr, sameIgnoringCase attr GLITE_JP_ATTR_JOBID = true ∨
    ∃ name ∈ names, sameIgnoringCase attr name = true

instance (names : List Bytes) (c : IndexQuery) : Decidable (c.Matches names) := by
  unfold IndexQuery.Matches
  infer_instance

/-- The queries that are admitted are those of which a condition asks for a job or an
    indexed attribute; an attribute that is missing is an error, and a failure of the
    database admits nothing. -/
structure AdmissionExact (db : IndexDb) (req : QueryJobs) : Prop where
  exact : checkIndexed db none req = .ok (0, []) ↔
    ∃ c ∈ req.conditions, c.Matches (indexedAttrs db)
  missing : (∃ c ∈ req.conditions, c.attr = none) ∨ none ∈ req.attributes → ∀ conf,
    ∃ errors, queryChecks conf db none req = .ok (false, errors) ∧ errors ≠ []
  failure : ∀ fail errors, checkIndexed db (some fail) req ≠ .ok (0, errors) ∧
    ∀ conf, queryChecks conf db (some fail) req ≠ .ok (true, errors)

/-- A condition without an attribute comes before all those that match. -/
def MissingFirst (names : List Bytes) (conditions : List IndexQuery) : Prop :=
  ∃ pre c post, conditions = pre ++ c :: post ∧ c.attr = none ∧
    (∀ p ∈ pre, ¬p.Matches names) ∧ ∃ d ∈ post, d.Matches names

/-! ## The names -/

section Names

variable {names : Block Bytes} {xs ys : List Bytes}

/-- An array has the names that were put into it, and room up to the next stride. -/
structure StoresIndexed (indexed : Block Bytes × ℕ) (xs : List Bytes) : Prop where
  holds : indexed.1.Holds xs
  count : indexed.2 = xs.length
  room : indexed.1.length = (xs.length + 1) / INDEXED_STRIDE * INDEXED_STRIDE

theorem StoresIndexed.store {indexed : Block Bytes × ℕ} (h : StoresIndexed indexed xs)
    (name : Bytes) : ∃ indexed', storeIndexed indexed name = .ok indexed' ∧
      StoresIndexed indexed' (xs ++ [name]) := by
  obtain ⟨names, i⟩ := indexed
  obtain ⟨hholds, rfl, hroom⟩ := h
  dsimp only at hholds hroom
  have hgrown : ∃ grown, (if xs.length % INDEXED_STRIDE = 0 then
      Block.realloc (some names) ((xs.length / INDEXED_STRIDE + 1) * INDEXED_STRIDE)
      else names) = grown ∧ grown.Holds xs ∧
      grown.length = (xs.length + 2) / INDEXED_STRIDE * INDEXED_STRIDE := by
    unfold INDEXED_STRIDE at hroom ⊢
    split_ifs with hstride
    · exact ⟨_, rfl, hholds.realloc (by omega), by rw [Block.length_realloc]; omega⟩
    · exact ⟨_, rfl, hholds, by omega⟩
  obtain ⟨grown, hgrow, hholds, hlen⟩ := hgrown
  obtain ⟨written, hw, hholds, hlen'⟩ := hholds.write (by rw [hlen, INDEXED_STRIDE]; omega) name
  refine ⟨(written, xs.length + 1), ?_, hholds, ?_, ?_⟩
  · rw [storeIndexed, hgrow, hw]
    rfl
  · rw [List.length_append, List.length_singleton]
  · rw [List.length_append, List.length_singleton, hlen', hlen]

theorem exists_foldlM_storeIndexed {indexed : Block Bytes × ℕ} (h : StoresIndexed indexed xs)
    (ys : List Bytes) : ∃ indexed', ys.foldlM storeIndexed indexed = .ok indexed' ∧
      StoresIndexed indexed' (xs ++ ys) := by
  induction ys generalizing indexed xs with
  | nil => exact ⟨indexed, rfl, by rwa [List.append_nil]⟩
  | cons y ys ih =>
    obtain ⟨indexed₁, h₁, hstores⟩ := h.store y
    obtain ⟨indexed₂, h₂, hstores⟩ := ih hstores
    rw [List.append_assoc, List.singleton_append] at hstores
    exact ⟨indexed₂, by rw [List.foldlM_cons, h₁, Exec.ok_bind, h₂], hstores⟩

/-- The names that are fetched are stored. -/
theorem exists_storedIndexed (ys : List Bytes) : ∃ names, ys.foldlM storeIndexed ([], 0) =
    .ok (names, ys.length) ∧ names.Holds ys := by
  have hnil : StoresIndexed ([], 0) [] := ⟨Block.holds_malloc 0, rfl, rfl⟩
  obtain ⟨⟨names, i⟩, hfold, hstores⟩ := exists_foldlM_storeIndexed hnil ys
  obtain ⟨hholds, rfl, -⟩ := hstores
  exact ⟨names, hfold, hholds⟩

end Names

/-! ## The comparison -/

/-- What a condition decides, if it does. -/
def IndexQuery.decides (names : List Bytes) (c : IndexQuery) : Option (ℤ × List StackedError) :=
  if names = [] then none
  else if c.attr = none then
    some (0, [⟨Errno.EINVAL.code, ascii "condition attribute no 0 is NULL"⟩])
  else if c.Matches names then some (0, [])
  else none

section Scan

variable {db : IndexDb} {req : QueryJobs} {names : Block Bytes} {xs : List Bytes} {c : IndexQuery}

/-- The comparison of an attribute with the names at some indices. -/
theorem scanIndexed_eq {attr : Bytes} (h : names.Holds xs) (hattr : c.attr = some attr)
    {js : List ℕ} (hjs : ∀ j ∈ js, j < xs.length) : scanIndexed names c js = .ok
      (if js ≠ [] ∧ sameIgnoringCase attr GLITE_JP_ATTR_JOBID = true ∨
        ∃ j ∈ js, ∃ name ∈ xs[j]?, sameIgnoringCase attr name = true then some (0, [])
      else none) := by
  induction js with
  | nil => simp [scanIndexed]
  | cons j js ih =>
    rw [List.forall_mem_cons] at hjs
    have hj : xs[j]? = some xs[j] := List.getElem?_eq_getElem hjs.1
    rw [scanIndexed, hattr]
    dsimp only
    by_cases hjobid : sameIgnoringCase attr GLITE_JP_ATTR_JOBID = true
    · rw [if_pos hjobid, if_pos (.inl ⟨List.cons_ne_nil j js, hjobid⟩)]
    · rw [if_neg hjobid, h.read hj, Exec.ok_bind]
      by_cases hname : sameIgnoringCase attr xs[j] = true
      · rw [if_pos hname, if_pos (.inr ⟨j, List.mem_cons_self, xs[j], hj, hname⟩)]
        rfl
      · rw [if_neg hname, ih hjs.2]
        simp [hjobid, hj, hname]

/-- The comparison of a condition with all names. -/
theorem scanIndexed_range (h : names.Holds xs) (c : IndexQuery) :
    scanIndexed names c (List.range xs.length) = .ok (c.decides xs) := by
  unfold IndexQuery.decides
  by_cases hxs : xs = []
  · rw [if_pos hxs, hxs]
    rfl
  · rw [if_neg hxs]
    cases hattr : c.attr with
    | none =>
      -- the first name is not read
      obtain ⟨x, xs, rfl⟩ := List.exists_cons_of_ne_nil hxs
      rw [List.length_cons, List.range_succ_eq_map, scanIndexed, hattr]
      rfl
    | some attr =>
      have hmatches : (List.range xs.length ≠ [] ∧
          sameIgnoringCase attr GLITE_JP_ATTR_JOBID = true ∨
          ∃ j ∈ List.range xs.length, ∃ name ∈ xs[j]?, sameIgnoringCase attr name = true) ↔
          c.Matches xs := by
        have hrange : List.range xs.length ≠ [] := by simpa using hxs
        rw [IndexQuery.Matches, hattr]
        simp only [Option.mem_def, Option.some.injEq, exists_eq_left', hrange, ne_eq,
          not_false_eq_true, true_and, List.mem_range]
        refine or_congr_right ⟨?_, ?_⟩
        · rintro ⟨j, -, name, hname, hsame⟩
          exact ⟨name, List.mem_of_getElem? hname, hsame⟩
        · rintro ⟨name, hmem, hsame⟩
          obtain ⟨j, hj, rfl⟩ := List.getElem_of_mem hmem
          exact ⟨j, hj, _, List.getElem?_eq_getElem hj, hsame⟩
      rw [if_neg (Option.some_ne_none attr), scanIndexed_eq h hattr fun j hj => List.mem_range.1 hj]
      exact congrArg Except.ok (if_congr hmatches rfl rfl)

theorem scanConditions_eq (h : names.Holds xs) (cs : List IndexQuery) :
    scanConditions names xs.length cs =
      .ok ((cs.findSome? (IndexQuery.decides xs)).getD (1, [])) := by
  induction cs with
  | nil => rfl
  | cons c cs ih =>
    rw [scanConditions, scanIndexed_range h, Exec.ok_bind, List.findSome?_cons]
    cases c.decides xs with
    | some result => rfl
    | none => exact ih

/-- What decides is the first condition that does. -/
theorem checkIndexed_eq (db : IndexDb) (req : QueryJobs) : checkIndexed db none req =
    .ok ((req.conditions.findSome? (IndexQuery.decides (indexedAttrs db))).getD (1, [])) := by
  obtain ⟨names, hstore, hholds⟩ := exists_storedIndexed (indexedAttrs db)
  rw [checkIndexed, hstore, Exec.ok_bind]
  exact scanConditions_eq hholds _

end Scan

/-! ## Exactness -/

section Exact

variable {db : IndexDb} {req : QueryJobs} {xs : List Bytes} {c : IndexQuery}
  {conditions : List IndexQuery}

theorem decides_eq_none : c.decides xs = none ↔ xs = [] ∨ c.attr ≠ none ∧ ¬c.Matches xs := by
  unfold IndexQuery.decides
  split_ifs with hxs hattr hmatch <;> simp [*]

theorem decides_eq_matched : c.decides xs = some (0, []) ↔ xs ≠ [] ∧ c.Matches xs := by
  unfold IndexQuery.decides
  split_ifs with hxs hattr hmatch
  · exact iff_of_false nofun fun h => h.1 hxs
  · refine iff_of_false (fun h => ?_) fun ⟨_, attr, h, _⟩ => ?_
    · exact List.cons_ne_nil _ _ (Prod.mk.inj (Option.some.inj h)).2
    · exact Option.some_ne_none attr (h.symm.trans hattr)
  · exact iff_of_true rfl ⟨hxs, hmatch⟩
  · exact iff_of_false nofun fun h => hmatch h.2

/-- A condition that decides lets the check return zero. -/
theorem fst_of_decides {r : ℤ × List StackedError} (h : c.decides xs = some r) : r.1 = 0 := by
  unfold IndexQuery.decides at h
  split_ifs at h <;> exact Option.some.inj h ▸ rfl

theorem checkIndexed_eq_admitted : checkIndexed db none req = .ok (0, []) ↔
    req.conditions.findSome? (IndexQuery.decides (indexedAttrs db)) = some (0, []) := by
  rw [checkIndexed_eq, Except.ok.injEq]
  cases req.conditions.findSome? (IndexQuery.decides (indexedAttrs db)) with
  | none => exact iff_of_false (by decide) nofun
  | some r => rw [Option.getD_some, Option.some.injEq]

/-- `checkIndexedConditions` looks for a condition that decides. -/
theorem checkIndexedConditions_eq (db : IndexDb) (req : QueryJobs) :
    checkIndexedConditions db req =
      !req.conditions.any fun c => (c.decides (indexedAttrs db)).isSome := by
  unfold checkIndexedConditions
  congr 2
  funext c
  rw [Bool.eq_iff_iff, Option.isSome_iff_ne_none, ne_eq, decides_eq_none, List.any_eq_true,
    not_or, List.eq_nil_iff_forall_not_mem]
  cases hattr : c.attr with
  | none => simp
  | some attr =>
    rw [IndexQuery.Matches, hattr]
    simp only [Bool.or_eq_true, ne_eq, reduceCtorEq, not_false_eq_true, true_and, not_not,
      Option.mem_def, Option.some.injEq, exists_eq_left', not_forall]
    constructor
    · rintro ⟨x, hx, h | h⟩
      · exact ⟨⟨x, hx⟩, .inl h⟩
      · exact ⟨⟨x, hx⟩, .inr ⟨x, hx, h⟩⟩
    · rintro ⟨⟨x, hx⟩, h | ⟨y, hy, h⟩⟩
      · exact ⟨x, hx, .inl h⟩
      · exact ⟨y, hy, .inr h⟩

/-- A query is refused, without regard to errors, as `checkIndexedConditions` says. -/
theorem checkIndexed_fst (db : IndexDb) (req : QueryJobs) :
    (checkIndexed db none req).map Prod.fst = .ok (if checkIndexedConditions db req then 1 else 0) := by
  rw [checkIndexed_eq, checkIndexedConditions_eq]
  cases hfind : req.conditions.findSome? (IndexQuery.decides (indexedAttrs db)) with
  | none =>
    rw [List.findSome?_eq_none_iff] at hfind
    have hany : (req.conditions.any fun c => (c.decides (indexedAttrs db)).isSome) = false :=
      List.any_eq_false.2 fun c hc => by rw [hfind c hc]; exact Bool.false_ne_true
    rw [hany]
    rfl
  | some r =>
    obtain ⟨c, hmem, hc⟩ := List.exists_of_findSome?_eq_some hfind
    have hany : (req.conditions.any fun c => (c.decides (indexedAttrs db)).isSome) = true :=
      List.any_eq_true.2 ⟨c, hmem, by rw [hc]; rfl⟩
    rw [hany]
    exact congrArg Except.ok (fst_of_decides hc)

/-- A match is found exactly when no missing attribute comes before it, and some attribute
    is indexed. -/
theorem findSome?_decides_iff : conditions.findSome? (IndexQuery.decides xs) = some (0, []) ↔
    xs ≠ [] ∧ (∃ c ∈ conditions, c.Matches xs) ∧ ¬MissingFirst xs conditions := by
  constructor
  · intro h
    obtain ⟨pre, c, post, rfl, hc, hpre⟩ := List.findSome?_eq_some_iff.1 h
    obtain ⟨hxs, hmatch⟩ := decides_eq_matched.1 hc
    refine ⟨hxs, ⟨c, by simp, hmatch⟩, ?_⟩
    rintro ⟨pre', d, post', heq, hd, hpre', -⟩
    -- what comes before the missing attribute finds no match, and neither does this
    rw [heq, List.findSome?_append, List.findSome?_cons] at h
    have hmissing : d.decides xs ≠ none ∧ d.decides xs ≠ some (0, []) := by
      refine ⟨fun hn => ?_, fun hs => ?_⟩
      · exact (decides_eq_none.1 hn).elim hxs fun h => h.1 hd
      · obtain ⟨-, attr, hattr, -⟩ := decides_eq_matched.1 hs
        exact Option.some_ne_none attr (hattr.symm.trans hd)
    cases hfirst : pre'.findSome? (IndexQuery.decides xs) with
    | some r =>
      obtain ⟨p, hp, hr⟩ := List.exists_of_findSome?_eq_some hfirst
      rw [hfirst, Option.some_or] at h
      exact hpre' p hp (decides_eq_matched.1 (hr.trans h)).2
    | none =>
      rw [hfirst, Option.none_or] at h
      cases hr : d.decides xs with
      | none => exact hmissing.1 hr
      | some r =>
        rw [hr] at h
        exact hmissing.2 (hr.trans h)
  · rintro ⟨hxs, ⟨c, hc, hmatch⟩, hfirst⟩
    cases hfind : conditions.findSome? (IndexQuery.decides xs) with
    | none =>
      have hnone := List.findSome?_eq_none_iff.1 hfind c hc
      exact absurd hmatch ((decides_eq_none.1 hnone).resolve_left hxs).2
    | some r =>
      obtain ⟨pre, d, post, rfl, hd, hpre⟩ := List.findSome?_eq_some_iff.1 hfind
      have hpre' : ∀ p ∈ pre, ¬p.Matches xs := fun p hp =>
        ((decides_eq_none.1 (hpre p hp)).resolve_left hxs).2
      by_cases hattr : d.attr = none
      · -- the match stands behind the missing attribute
        refine absurd ⟨pre, d, post, rfl, hattr, hpre', c, ?_, hmatch⟩ hfirst
        rcases List.mem_append.1 hc with hmem | hmem
        · exact absurd hmatch (hpre' c hmem)
        · refine (List.mem_cons.1 hmem).resolve_left fun h => ?_
          obtain ⟨attr, hsome, -⟩ := hmatch
          exact Option.some_ne_none attr (hsome.symm.trans (h ▸ hattr))
      · have hdm : d.Matches xs := by
          by_contra hno
          exact Option.some_ne_none r (hd.symm.trans (decides_eq_none.2 (.inr ⟨hattr, hno⟩)))
        rw [← hd, decides_eq_matched.2 ⟨hxs, hdm⟩]

/-- A condition on the job identifier matches whatever is indexed. -/
theorem matches_of_onJobid (h : c.onJobid = true) : c.Matches xs := by
  unfold IndexQuery.onJobid IndexQuery.name at h
  cases hattr : c.attr with
  | none =>
    rw [hattr] at h
    cases h
  | some attr =>
    rw [hattr, Option.getD_some] at h
    exact ⟨attr, hattr, .inl h⟩

/-- Without indexed attributes, nothing else matches. -/
theorem onJobid_of_matches_nil (h : c.Matches []) : c.onJobid = true := by
  obtain ⟨attr, hattr, h | ⟨name, hname, -⟩⟩ := h
  · rw [IndexQuery.onJobid, IndexQuery.name, Option.mem_def.1 hattr]
    exact h
  · cases hname

/-- The check always returns, and an attribute that is missing is found by the next. -/
theorem exists_queryChecks_missing (conf : IndexConf)
    (h : (∃ c ∈ req.conditions, c.attr = none) ∨ none ∈ req.attributes) :
    ∃ errors, queryChecks conf db none req = .ok (false, errors) ∧ errors ≠ [] := by
  have hknown : checkConditions conf req = true := by
    refine List.any_eq_true.2 ⟨none, ?_, rfl⟩
    rw [List.mem_append, List.mem_map]
    exact h
  rw [queryChecks, checkIndexed_eq, Exec.ok_bind]
  dsimp only
  split_ifs with hret
  · exact ⟨_, rfl, by simp⟩
  · exact ⟨_, rfl, by simp⟩

/-- A failure of the database is no admission. -/
theorem checkIndexed_failure {fail : SelectFailure} {r : ℤ × List StackedError}
    (h : checkIndexed db (some fail) req = .ok r) : r.1 ≠ 0 := by
  cases fail with
  | exec fail held =>
    rw [checkIndexed] at h
    split_ifs at h
    exact Except.ok.inj h ▸ fail.neg.ne
  | fetch fail fetched =>
    obtain ⟨names, -, h⟩ := Exec.bind_eq_ok.1 h
    exact Except.ok.inj h ▸ fail.neg.ne

theorem queryChecks_failure {conf : IndexConf} {fail : SelectFailure}
    {errors : List StackedError} : queryChecks conf db (some fail) req ≠ .ok (true, errors) := by
  intro h
  obtain ⟨⟨ret, errors'⟩, hcheck, h⟩ := Exec.bind_eq_ok.1 h
  dsimp only at h
  rw [if_pos (checkIndexed_failure hcheck)] at h
  exact Bool.false_ne_true (Prod.mk.inj (Except.ok.inj h)).1

end Exact

/-- The database of a server without indexed attributes. -/
def unindexedDb : IndexDb where
  jobs := Table.empty
  users := Table.empty
  feeds := Table.empty
  attrs := []
  values := fun _ => []

/-- A query for a job. -/
def jobidQuery : QueryJobs where
  conditions := [{ attr := some GLITE_JP_ATTR_JOBID, origin := none, record := [] }]
  attributes := []

end JobProvenance
