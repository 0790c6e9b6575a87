import JobProvenance.Primary.Matching

/-!
# Copies of values

Values and conditions are copied in four places: `Attrval.copy` copies a value and
`queryrecCopy` a condition; `matchAttr` and `matchAttrMulti` keep the values that arrive
until the request is answered. Only the first looks at the kind of a value; the others copy
binary values, too, as if they were strings.

* `strdupValue_eq_self_iff`: such a copy is faithful when the only zero byte is the last;
* `faithful_iff`: when each of the four is.
-/

namespace JobProvenance

/-- A condition as its users build it: the strings are terminated, binary values have the
    bytes the sizes tell. -/
structure QueryRec.WellFormed (q : QueryRec) : Prop where
  attr_nul : 0 ∉ q.attr
  value_nul : q.binary = false → ∀ v ∈ q.value, 0 ∉ v
  value2_nul : q.binary = false → ∀ v ∈ q.value2, 0 ∉ v
  value_size : q.binary = true → ∀ v ∈ q.value, v.length = q.size
  value2_size : q.binary = true → ∀ v ∈ q.value2, v.length = q.size2

/-- A copy that can stand for a value; where a value came from in detail is not looked at. -/
structure Attrval.CopiedAs (a b : Attrval) : Prop where
  name : b.name = a.name
  binary : b.binary = a.binary
  size : b.size = a.size
  origin : b.origin = a.origin
  timestamp : b.timestamp = a.timestamp
  value : b.value = a.value

/-- What is copied, and where. -/
inductive CopyCall
  | attrvalCopy (a : Attrval)
  | queryrecCopy (q : QueryRec)
  | matchAttr (attrs : List Attrval)
  | matchAttrMulti (jobs : List (Bytes × List Attrval))

namespace CopyCall

/-- What is copied is well-formed. -/
def WellFormed : CopyCall → Prop
  | attrvalCopy a => a.WellFormed
  | queryrecCopy q => q.WellFormed
  | matchAttr attrs => ∀ a ∈ attrs, a.WellFormed
  | matchAttrMulti jobs => ∀ job ∈ jobs, ∀ a ∈ job.2, a.WellFormed

/-- The copies can stand for what is copied; none of it is read beyond its end. -/
def Faithful : CopyCall → Prop
  | attrvalCopy a => ∃ b, a.copy = .ok b ∧ a.CopiedAs b
  | queryrecCopy q => JobProvenance.queryrecCopy q = .ok q
  | matchAttr attrs => ∃ kept, JobProvenance.matchAttr attrs = .ok kept ∧
      List.Forall₂ Attrval.CopiedAs attrs kept
  | matchAttrMulti jobs => ∃ kept, JobProvenance.matchAttrMulti jobs = .ok kept ∧
      List.Forall₂ (fun job k => k.1 = job.1 ∧ List.Forall₂ Attrval.CopiedAs job.2 k.2) jobs kept

end CopyCall

/-- A value that ends with its only zero byte. -/
def EndsWithOnlyZero (value : Bytes) : Prop := ∃ s, 0 ∉ s ∧ value = s ++ [0]

/-- What is copied as a string is a string, or ends like one. -/
def CopyCall.CopiesStrings : CopyCall → Prop
  | attrvalCopy _ => True
  | queryrecCopy q => q.binary = true →
      (∀ v ∈ q.value, EndsWithOnlyZero v) ∧ ∀ v ∈ q.value2, EndsWithOnlyZero v
  | matchAttr attrs => ∀ a ∈ attrs, a.binary = true → EndsWithOnlyZero a.value
  | matchAttrMulti jobs => jobs ≠ [] ∧ ∀ job ∈ jobs, job.2 ≠ [] ∧
      ∀ a ∈ job.2, a.binary = true → EndsWithOnlyZero a.value

/-! ## Copies as strings -/

section Copies

variable {a : Attrval} {attrs : List Attrval} {value : Bytes} {binary : Bool}

theorem endsWithOnlyZero_iff : EndsWithOnlyZero value ↔ 0 ∈ value ∧ cstr value ++ [0] = value := by
  constructor
  · rintro ⟨s, hs, rfl⟩
    refine ⟨by simp, ?_⟩
    rw [cstr, List.takeWhile_append_of_pos fun b hb => by simpa using fun h : b = 0 => hs (h ▸ hb)]
    simp
  · rintro ⟨-, h⟩
    refine ⟨cstr value, fun h0 => ?_, h.symm⟩
    simpa using List.mem_takeWhile_imp h0

/-- A copy as a string is faithful when the value ends with its only zero byte. -/
theorem strdupValue_eq_self_iff (hnul : binary = false → 0 ∉ value) :
    strdupValue binary value = .ok value ↔ (binary = true → EndsWithOnlyZero value) := by
  cases binary with
  | false =>
    refine iff_of_true ?_ fun h => absurd h Bool.false_ne_true
    rw [strdupValue, if_neg Bool.false_ne_true, cstr_eq_self (hnul rfl)]
  | true =>
    rw [strdupValue, if_pos rfl, endsWithOnlyZero_iff]
    split_ifs with h0
    · rw [Except.ok.injEq]
      exact ⟨fun h _ => ⟨h0, h⟩, fun h => (h rfl).2⟩
    · exact iff_of_false nofun fun h => h0 (h rfl).1

theorem copiedAs_of_value (h : value = a.value) : a.CopiedAs { a with value } :=
  ⟨rfl, rfl, rfl, rfl, rfl, h⟩

/-- A value is kept faithfully when its copy as a string is. -/
theorem exists_keepAttr_iff (ha : a.WellFormed) :
    (∃ b, keepAttr a = .ok b ∧ a.CopiedAs b) ↔ (a.binary = true → EndsWithOnlyZero a.value) := by
  rw [← strdupValue_eq_self_iff ha.value_nul]
  constructor
  · rintro ⟨b, hb, hcopied⟩
    obtain ⟨value, hvalue, h⟩ := Exec.bind_eq_ok.1 hb
    obtain rfl := Except.ok.inj h
    rw [hvalue, show value = a.value from hcopied.value]
  · intro h
    exact ⟨a, by rw [keepAttr, h]; rfl, copiedAs_of_value rfl⟩

/-- Of several values, each has to be kept faithfully. -/
theorem exists_keepAttrs_iff (ha : ∀ a ∈ attrs, a.WellFormed) :
    (∃ kept, attrs.mapM keepAttr = .ok kept ∧ List.Forall₂ Attrval.CopiedAs attrs kept) ↔
      ∀ a ∈ attrs, a.binary = true → EndsWithOnlyZero a.value := by
  rw [Exec.exists_mapM_iff]
  exact forall₂_congr fun a hmem => exists_keepAttr_iff (ha a hmem)

/-- A value that may be missing is copied faithfully when its copy as a string is. -/
theorem mapM_strdupValue_iff {value : Option Bytes} (hnul : binary = false → ∀ v ∈ value, 0 ∉ v) :
    value.mapM (strdupValue binary) = .ok value ↔
      (binary = true → ∀ v ∈ value, EndsWithOnlyZero v) := by
  cases value with
  | none => exact iff_of_true rfl fun _ v hv => nomatch hv
  | some v =>
    have hv : (some v).mapM (strdupValue binary) = .ok (some v) ↔
        strdupValue binary v = .ok v := by
      rw [Option.mapM_some]
      cases strdupValue binary v <;> simp [Functor.map, Except.map]
    rw [hv, strdupValue_eq_self_iff fun hb => hnul hb v rfl]
    simp

end Copies

/-! ## Where values are copied -/

namespace CopyCall

theorem faithful_attrvalCopy {a : Attrval} (ha : a.WellFormed) : (attrvalCopy a).Faithful := by
  refine ⟨a, ?_, copiedAs_of_value rfl⟩
  rw [Attrval.copy]
  split_ifs with hb hsize
  · rw [List.take_of_length_le (ha.value_size hb).le]
  · exact absurd (ha.value_size hb).ge hsize
  · rw [cstr_eq_self (ha.value_nul (Bool.eq_false_of_not_eq_true hb))]

theorem faithful_queryrecCopy_iff {q : QueryRec} (hq : q.WellFormed) :
    (queryrecCopy q).Faithful ↔ (queryrecCopy q).CopiesStrings := by
  have hiff : (queryrecCopy q).Faithful ↔ q.value.mapM (strdupValue q.binary) = .ok q.value ∧
      q.value2.mapM (strdupValue q.binary) = .ok q.value2 := by
    rw [Faithful, JobProvenance.queryrecCopy]
    constructor
    · intro h
      obtain ⟨value, hvalue, h⟩ := Exec.bind_eq_ok.1 h
      obtain ⟨value2, hvalue2, h⟩ := Exec.bind_eq_ok.1 h
      have h := Except.ok.inj h
      rw [hvalue, hvalue2, show q.value = value from congrArg QueryRec.value h.symm,
        show q.value2 = value2 from congrArg QueryRec.value2 h.symm]
      exact ⟨rfl, rfl⟩
    · rintro ⟨hvalue, hvalue2⟩
      rw [hvalue, Exec.ok_bind, hvalue2]
      rfl
  rw [hiff, mapM_strdupValue_iff hq.value_nul, mapM_strdupValue_iff hq.value2_nul]
  exact forall_and.symm

theorem copiedAs_dropDetail {a b : Attrval} :
    a.CopiedAs { b with originDetail := none } ↔ a.CopiedAs b :=
  ⟨fun h => ⟨h.name, h.binary, h.size, h.origin, h.timestamp, h.value⟩,
    fun h => ⟨h.name, h.binary, h.size, h.origin, h.timestamp, h.value⟩⟩

/-- The values of a job are kept faithfully when there are some, and each of them is. -/
theorem exists_keepJob_iff {job : Bytes × List Attrval} (ha : ∀ a ∈ job.2, a.WellFormed) :
    (∃ k, (do
        let attrs ← elements job.2
        let attrs ← attrs.mapM keepAttr
        return (job.1, attrs.map fun v => { v with originDetail := none }) :
          Exec (Bytes × List Attrval)) = .ok k ∧
      k.1 = job.1 ∧ List.Forall₂ Attrval.CopiedAs job.2 k.2) ↔
      job.2 ≠ [] ∧ ∀ a ∈ job.2, a.binary = true → EndsWithOnlyZero a.value := by
  rw [← exists_keepAttrs_iff ha]
  constructor
  · rintro ⟨k, hk, -, hcopied⟩
    obtain ⟨attrs, helems, hk⟩ := Exec.bind_eq_ok.1 hk
    obtain ⟨hne, rfl⟩ := elements_eq_ok.1 helems
    obtain ⟨kept, hkept, hk⟩ := Exec.bind_eq_ok.1 hk
    obtain rfl := Except.ok.inj hk
    rw [List.forall₂_map_right_iff] at hcopied
    exact ⟨hne, kept, hkept, hcopied.imp fun _ _ => copiedAs_dropDetail.1⟩
  · rintro ⟨hne, kept, hkept, hcopied⟩
    refine ⟨(job.1, kept.map fun v => { v with originDetail := none }), ?_, rfl, ?_⟩
    · rw [elements_eq_ok.2 ⟨hne, rfl⟩, Exec.ok_bind, hkept]
      rfl
    · exact List.forall₂_map_right_iff.2 (hcopied.imp fun _ _ => copiedAs_dropDetail.2)

theorem faithful_matchAttrMulti_iff {jobs : List (Bytes × List Attrval)}
    (hjobs : ∀ job ∈ jobs, ∀ a ∈ job.2, a.WellFormed) :
    (matchAttrMulti jobs).Faithful ↔ (matchAttrMulti jobs).CopiesStrings := by
  rw [Faithful, JobProvenance.matchAttrMulti, CopiesStrings]
  by_cases hne : jobs = []
  · subst hne
    exact iff_of_false (fun ⟨_, h, _⟩ => nomatch h) fun h => h.1 rfl
  · rw [elements_eq_ok.2 ⟨hne, rfl⟩, Exec.ok_bind, and_iff_right hne, Exec.exists_mapM_iff]
    exact forall₂_congr fun job hjob => exists_keepJob_iff (hjobs job hjob)

/-- Each of the copies is faithful exactly when what it copies as a string is one, or ends
    like one. -/
theorem faithful_iff (c : CopyCall) (hc : c.WellFormed) : c.Faithful ↔ c.CopiesStrings := by
  cases c with
  | attrvalCopy a => exact iff_of_true (faithful_attrvalCopy hc) trivial
  | queryrecCopy q => exact faithful_queryrecCopy_iff hc
  | matchAttr attrs => exact exists_keepAttrs_iff hc
  | matchAttrMulti jobs => exact faithful_matchAttrMulti_iff hc

/-- A kept value of two bytes, the last of which is zero. -/
theorem faithful_iff_sample :
    WellFormed (matchAttr [⟨ascii "name", [1, 0], true, 2, .user, none, 0⟩]) ∧
      (Faithful (matchAttr [⟨ascii "name", [1, 0], true, 2, .user, none, 0⟩]) ↔
        CopiesStrings (matchAttr [⟨ascii "name", [1, 0], true, 2, .user, none, 0⟩])) := by
  have hwf : WellFormed (matchAttr [⟨ascii "name", [1, 0], true, 2, .user, none, 0⟩]) := by
    rw [WellFormed, List.forall_mem_singleton]
    exact ⟨by decide, nofun, fun _ => rfl, nofun⟩
  exact ⟨hwf, faithful_iff _ hwf⟩

/-- A condition on a byte that is not zero is read beyond its end. -/
theorem not_faithful_oneByte :
    WellFormed (queryrecCopy ⟨ascii "name", .EQUAL, some [1], none, true, 1, 0, .user⟩) ∧
      ¬Faithful (queryrecCopy ⟨ascii "name", .EQUAL, some [1], none, true, 1, 0, .user⟩) :=
  ⟨⟨by decide, nofun, nofun, fun _ v hv => by rw [← Option.some.inj hv]; rfl, nofun⟩, nofun⟩

end CopyCall

end JobProvenance
