import JobProvenance.Common.QueryRec

/-!
# The way of a condition

A condition of a feed is written in the configuration of an index server, which
turns it into a query record, and the record into a part of its request to the
primary storage; the primary storage makes a query record of that. The three
conversions are written independently of each other.

* `carried_iff`: a condition arrives as it was written exactly when it compares
  with strings: nothing makes room for the bytes of a binary value, and the last
  conversion looks at a value also where the operator takes none.
-/

namespace JobProvenance

/-! ## From the configuration to a record -/

/-- The operator of a record. -/
def soapToQueryOp : QueryOp → JpQueryOp
  | .EQUAL => .EQUAL
  | .UNEQUAL => .UNEQUAL
  | .LESS => .LESS
  | .GREATER => .GREATER
  | .WITHIN => .WITHIN
  | .EXISTS => .EXISTS

/-- The kind, size and bytes of a value, these copied to where `value` points
    to, unless it is a string; `none` when the value is malformed. -/
def soapToQueryRecordVal (value : Option Bytes) :
    Option StringOrBlob → Exec (Option (Bool × ℕ × Bytes))
  | none => .error .fault
  | some (.string s) => .ok (some (false, 0, s))
  | some (.blob bytes) => do
    let v ← memcpy value bytes
    return some (true, bytes.length, v)
  | some .malformed => .ok none

/-- Puts the second value into a record; that it is malformed is not noticed. -/
def setValue2 (qr : QueryRec) (v : Option StringOrBlob) : Exec QueryRec := do
  match ← soapToQueryRecordVal qr.value2 v with
  | some (binary, size2, value2) => return { qr with binary, size2, value2 := some value2 }
  | none => return qr

/-- Puts the value into a record; `none` when it is malformed. -/
def setValue (qr : QueryRec) (v : Option StringOrBlob) : Exec (Option QueryRec) := do
  match ← soapToQueryRecordVal qr.value v with
  | some (binary, size, value) => return some { qr with binary, size, value := some value }
  | none => return none

/-- The record of a condition; `none` when its value is malformed. -/
def soapToPrimaryQueryCond (c : PrimaryQuery) : Exec (Option QueryRec) := do
  let qr := { QueryRec.zero c.attr with op := soapToQueryOp c.op }
  let qr? ← if qr.op = .EXISTS then pure (some qr)
    else if qr.op = .WITHIN then setValue2 qr c.value2 >>= (setValue · c.value)
    else setValue qr c.value
  return qr?.map fun qr => { qr with origin := soapToAttrOrig c.origin }

/-! ## From the record to the request -/

/-- The operator of a request. -/
def queryOpToSoap : JpQueryOp → Exec QueryOp
  | .EQUAL => .ok .EQUAL
  | .UNEQUAL => .ok .UNEQUAL
  | .LESS => .ok .LESS
  | .GREATER => .ok .GREATER
  | .WITHIN => .ok .WITHIN
  | .EXISTS => .ok .EXISTS
  | .UNDEF => .error .fault

/-- The origin of a request. -/
def attrOrigToSoap : AttrOrig → Option SoapAttrOrig
  | .any => none
  | .system => some .SYSTEM
  | .user => some .USER
  | .file => some .FILE

/-- A value of a request; `none` when there is no string to copy. -/
def queryRecordValToSoap (binary : Bool) (size : ℕ) (value : Option Bytes) :
    Exec (Option StringOrBlob) :=
  if binary then do
    let v ← Exec.deref value
    if size ≤ v.length then .ok (some (.blob (v.take size))) else .error .fault
  else .ok (value.map .string)

/-- The condition of a request; `none` when a value cannot be copied. -/
def queryCondToSoap (qr : QueryRec) : Exec (Option PrimaryQuery) := do
  let op ← queryOpToSoap qr.op
  let c : PrimaryQuery := ⟨qr.attr, op, attrOrigToSoap qr.origin, none, none⟩
  match qr.op with
  | .EXISTS => return some c
  | .WITHIN => do
    let value2 ← queryRecordValToSoap qr.binary qr.size2 qr.value2
    let value ← queryRecordValToSoap qr.binary qr.size qr.value
    return if value2 = none ∨ value = none then none else some { c with value, value2 }
  | _ => do
    let value ← queryRecordValToSoap qr.binary qr.size qr.value
    return if value = none then none else some { c with value }

/-! ## From the request to a record -/

/-- The bytes, kind and size of a value. -/
def s2jpQval : Option StringOrBlob → Exec (Bytes × Bool × ℕ)
  | none => .error .fault
  | some (.string s) => .ok (s, false, 0)
  | some (.blob bytes) => .ok (bytes, true, bytes.length)
  | some .malformed => .error .fault

/-- The record of a condition of a request. -/
def s2jpQuery (c : PrimaryQuery) : Exec QueryRec := do
  let (value, binary, size) ← s2jpQval c.value
  let out := { QueryRec.zero c.attr with
    value := some value, binary, size, origin := soapToAttrOrig c.origin }
  match c.op with
  | .EQUAL => return { out with op := .EQUAL }
  | .UNEQUAL => return { out with op := .UNEQUAL }
  | .LESS => return { out with op := .LESS }
  | .GREATER => return { out with op := .GREATER }
  | .WITHIN => do
    let (value2, b, size2) ← s2jpQval c.value2
    if binary = b then
      return { out with op := .WITHIN, value2 := some value2, size2 }
    else .error .fault
  | .EXISTS => return out

/-! ## All the way -/

/-- The record the primary storage makes of a condition; `none` when the
    condition is not sent. -/
def arrivingCond (c : PrimaryQuery) : Exec (Option QueryRec) := do
  match ← soapToPrimaryQueryCond c with
  | none => return none
  | some qr =>
    match ← queryCondToSoap qr with
    | none => return none
    | some c => return some (← s2jpQuery c)

/-- Whether a record has a value of a condition, of the same kind. -/
def HasValue (v : Option StringOrBlob) (binary : Bool) (size : ℕ) (value : Option Bytes) : Prop :=
  match v with
  | some (.string s) => binary = false ∧ value = some s
  | some (.blob bytes) => binary = true ∧ size = bytes.length ∧ value = some bytes
  | _ => False

/-- Whether a record says what a condition does: the second value is only looked
    at within bounds, and none is when a value has to exist. -/
structure QueryRec.Says (qr : QueryRec) (c : PrimaryQuery) : Prop where
  attr : qr.attr = c.attr
  op : qr.op = soapToQueryOp c.op
  origin : qr.origin = soapToAttrOrig c.origin
  value : c.op ≠ .EXISTS → HasValue c.value qr.binary qr.size qr.value
  value2 : c.op = .WITHIN → HasValue c.value2 qr.binary qr.size2 qr.value2

/-- Whether a condition arrives as it was written. -/
def Carried (c : PrimaryQuery) : Prop := ∃ qr, arrivingCond c = .ok (some qr) ∧ qr.Says c

section Carried

variable {c : PrimaryQuery} {qr : QueryRec} {v : Option StringOrBlob} {s : Bytes}

theorem soapToAttrOrig_attrOrigToSoap (o : AttrOrig) : soapToAttrOrig (attrOrigToSoap o) = o := by
  cases o <;> rfl

/-- The only values that get into a record are strings. -/
theorem soapToQueryRecordVal_none {b : Bool × ℕ × Bytes} :
    soapToQueryRecordVal none v = .ok (some b) ↔ ∃ s, v = some (.string s) ∧ b = (false, 0, s) := by
  rcases v with _ | (s | bytes | _)
  · simp [soapToQueryRecordVal]
  · simp [soapToQueryRecordVal, eq_comm]
  · simp [soapToQueryRecordVal, memcpy, Exec.deref]
  · simp [soapToQueryRecordVal]

/-- A condition that a value exists stops the primary storage, which looks at the
    value. -/
theorem arrivingCond_exists (h : c.op = .EXISTS) : arrivingCond c = .error .fault := by
  simp [arrivingCond, soapToPrimaryQueryCond, queryCondToSoap, queryOpToSoap, s2jpQuery, s2jpQval,
    soapToQueryOp, h]

/-- A comparison with a string arrives. -/
theorem arrivingCond_string (h : c.op ≠ .EXISTS) (h' : c.op ≠ .WITHIN)
    (hv : c.value = some (.string s)) :
    arrivingCond c = .ok (some { QueryRec.zero c.attr with
      op := soapToQueryOp c.op, value := some s, origin := soapToAttrOrig c.origin }) := by
  obtain ⟨attr, op, origin, value, value2⟩ := c
  obtain rfl : value = some (.string s) := hv
  rw [← soapToAttrOrig_attrOrigToSoap (soapToAttrOrig origin)]
  cases op with
  | WITHIN => exact absurd rfl h'
  | EXISTS => exact absurd rfl h
  | EQUAL | UNEQUAL | GREATER | LESS => rfl

/-- Bounds that are strings arrive. -/
theorem arrivingCond_within {s₂ : Bytes} (h : c.op = .WITHIN) (hv : c.value = some (.string s))
    (hv₂ : c.value2 = some (.string s₂)) :
    arrivingCond c = .ok (some { QueryRec.zero c.attr with
      op := .WITHIN, value := some s, value2 := some s₂, origin := soapToAttrOrig c.origin }) := by
  obtain ⟨attr, op, origin, value, value2⟩ := c
  obtain rfl : op = .WITHIN := h
  obtain rfl : value = some (.string s) := hv
  obtain rfl : value2 = some (.string s₂) := hv₂
  rw [← soapToAttrOrig_attrOrigToSoap (soapToAttrOrig origin)]
  rfl

/-- A value that gets into a record is a string. -/
theorem setValue_some {r : QueryRec} (hv : qr.value = none) (h : setValue qr v = .ok (some r)) :
    ∃ s, v = some (.string s) ∧ r = { qr with binary := false, size := 0, value := some s } := by
  obtain ⟨b, hb, h⟩ := Exec.bind_eq_ok.1 h
  rcases b with _ | b
  · cases h
  · rw [hv] at hb
    obtain ⟨s, rfl, rfl⟩ := soapToQueryRecordVal_none.1 hb
    cases h
    exact ⟨s, rfl, rfl⟩

/-- A second value that does not get into a record is malformed. -/
theorem setValue2_ok {r : QueryRec} (hv : qr.value2 = none) (h : setValue2 qr v = .ok r) :
    (∃ s, v = some (.string s)) ∨ r = qr := by
  obtain ⟨b, hb, h⟩ := Exec.bind_eq_ok.1 h
  rcases b with _ | b
  · cases h
    exact .inr rfl
  · rw [hv] at hb
    obtain ⟨s, rfl, -⟩ := soapToQueryRecordVal_none.1 hb
    exact .inl ⟨s, rfl⟩

/-- A comparison that arrives is one with a string. -/
theorem string_of_arrivingCond (h : c.op ≠ .EXISTS) (h' : c.op ≠ .WITHIN)
    (ha : arrivingCond c = .ok (some qr)) : ∃ s, c.value = some (.string s) := by
  obtain ⟨attr, op, origin, value, value2⟩ := c
  obtain ⟨qr?, hqr, ha⟩ := Exec.bind_eq_ok.1 ha
  have hset : ∃ r?, setValue { QueryRec.zero attr with op := soapToQueryOp op } value = .ok r? ∧
      qr? = r?.map fun qr => { qr with origin := soapToAttrOrig origin } := by
    cases op with
    | WITHIN => exact absurd rfl h'
    | EXISTS => exact absurd rfl h
    | EQUAL | UNEQUAL | GREATER | LESS =>
      obtain ⟨r?, hr, h⟩ := Exec.bind_eq_ok.1 hqr
      exact ⟨r?, hr, (Except.ok.inj h).symm⟩
  obtain ⟨r?, hr, rfl⟩ := hset
  rcases r? with _ | r
  · cases ha
  · obtain ⟨s, hs, -⟩ := setValue_some rfl hr
    exact ⟨s, hs⟩

/-- Bounds that arrive are strings. -/
theorem strings_of_arrivingCond (h : c.op = .WITHIN) (ha : arrivingCond c = .ok (some qr)) :
    (∃ s, c.value = some (.string s)) ∧ ∃ s, c.value2 = some (.string s) := by
  obtain ⟨attr, op, origin, value, value2⟩ := c
  obtain rfl : op = .WITHIN := h
  obtain ⟨qr?, hqr, ha⟩ := Exec.bind_eq_ok.1 ha
  obtain ⟨r?, hr, h⟩ := Exec.bind_eq_ok.1 hqr
  obtain ⟨r, hr₂, hr⟩ := Exec.bind_eq_ok.1 hr
  obtain rfl := Except.ok.inj h
  rcases r? with _ | r'
  · cases ha
  · rcases setValue2_ok rfl hr₂ with hs₂ | rfl
    · have hv : r.value = none := by
        obtain ⟨b, -, h⟩ := Exec.bind_eq_ok.1 hr₂
        rcases b with _ | b <;> cases h <;> rfl
      obtain ⟨s, hs, -⟩ := setValue_some hv hr
      exact ⟨⟨s, hs⟩, hs₂⟩
    · -- the second value is malformed, and there is nothing to send for it
      obtain ⟨s, hs, rfl⟩ := setValue_some rfl hr
      cases ha

/-- A condition arrives as it was written exactly when it compares with
    strings. -/
theorem carried_iff (c : PrimaryQuery) : Carried c ↔
    c.op ≠ .EXISTS ∧ (∃ s, c.value = some (.string s)) ∧
      (c.op = .WITHIN → ∃ s, c.value2 = some (.string s)) := by
  constructor
  · rintro ⟨qr, ha, -⟩
    have hop : c.op ≠ .EXISTS := by
      intro h
      rw [arrivingCond_exists h] at ha
      cases ha
    by_cases h : c.op = .WITHIN
    · obtain ⟨hs, hs₂⟩ := strings_of_arrivingCond h ha
      exact ⟨hop, hs, fun _ => hs₂⟩
    · exact ⟨hop, string_of_arrivingCond hop h ha, fun h' => absurd h' h⟩
  · rintro ⟨hop, ⟨s, hs⟩, hs₂⟩
    by_cases h : c.op = .WITHIN
    · obtain ⟨s₂, hs₂⟩ := hs₂ h
      refine ⟨_, arrivingCond_within h hs hs₂, rfl, ?_, rfl, fun _ => ?_, fun _ => ?_⟩
      · rw [h]
        rfl
      · rw [hs]
        exact ⟨rfl, rfl⟩
      · rw [hs₂]
        exact ⟨rfl, rfl⟩
    · refine ⟨_, arrivingCond_string hop h hs, rfl, rfl, rfl, fun _ => ?_, fun h' => absurd h' h⟩
      rw [hs]
      exact ⟨rfl, rfl⟩

end Carried

/-- A condition on an attribute of users. -/
def colorQuery (op : QueryOp) (value : Option StringOrBlob) : PrimaryQuery where
  attr := ascii "urn:app:color"
  op := op
  origin := none
  value := value
  value2 := none

/-- Neither a condition that an attribute has a value nor one that compares it
    with some bytes arrives. -/
theorem not_carried_color : (arrivingCond (colorQuery .EXISTS none) = .error .fault ∧
      arrivingCond (colorQuery .EQUAL (some (.blob [0]))) = .error .fault) ∧
    ¬Carried (colorQuery .EXISTS none) ∧ ¬Carried (colorQuery .EQUAL (some (.blob [0]))) := by
  refine ⟨⟨rfl, rfl⟩, fun ⟨qr, h, _⟩ => ?_, fun ⟨qr, h, _⟩ => ?_⟩ <;> cases h

end JobProvenance
