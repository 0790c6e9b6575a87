import JobProvenance.Common.QueryRec
import JobProvenance.Index.GrowingArray

/-!
# Stored conditions

The conditions of a feed are stored in the database as one block of bytes: for each
record a mark, the attribute, the operator, the kind and two arguments, each of
these with its length in front. Whether a record has arguments at all the server
looks up in a table of the operators (`opArgs`), in which one of them was forgotten.

* `ConditionsRoundTrip`: what is loaded is what was stored;
* `Storable`: the records of which all is stored;
* `conditionsRoundTrip_iff`: those round trip, and no others.
-/

namespace JobProvenance

/-! ## Numbers -/

/-- The bytes of a 32-bit number, the least significant first. -/
def le32 (n : ℕ) : Bytes := (htonl n).reverse

/-- The number of some bytes, the least significant first. -/
def ofLe32 (bs : Bytes) : ℕ := ntohl bs.reverse

theorem length_le32 (n : ℕ) : (le32 n).length = 4 := rfl

theorem ofLe32_le32 (n : ℕ) : ofLe32 (le32 n) = n % 2 ^ 32 := by
  simp only [ofLe32, le32, List.reverse_reverse, ntohl, htonl, List.foldl_cons, List.foldl_nil,
    UInt8.toNat_ofNat']
  omega

/-! ## Storing -/

/-- What stands in front of each record. -/
def COND_MAGIC : ℕ := 0x444E4F43

/-- The number of an operator. -/
def JpQueryOp.number : JpQueryOp → ℕ
  | .UNDEF => 0
  | .EQUAL => 1
  | .UNEQUAL => 2
  | .LESS => 3
  | .GREATER => 4
  | .WITHIN => 5
  | .EXISTS => 6

/-- How many arguments an operator has, by the table of the server's context. The
    table starts with zeroes, and nothing is written to it for `UNEQUAL`. -/
def opArgs : JpQueryOp → ℕ
  | .WITHIN => 2
  | .EQUAL => 1
  | .LESS => 1
  | .GREATER => 1
  | .UNDEF => 0
  | .EXISTS => 0
  | .UNEQUAL => 0

namespace QueryRec

/-- What stands where a pointer to a value points to. -/
def buffer (q : QueryRec) (value : Option Bytes) : Option Bytes :=
  value.map fun s => if q.binary then s else s ++ [0]

/-- The number of bytes of an argument that are stored. An operator that is not
    set is an assertion that fails. -/
def argLength (q : QueryRec) (value : Option Bytes) (size : ℕ) : Exec ℕ :=
  if q.op = .UNDEF then .error .fault
  else if 1 ≤ opArgs q.op then
    .ok (if q.binary then size else (value.map fun s => (cstr s).length + 1).getD 0)
  else .ok 0

end QueryRec

def dbArg1Length (q : QueryRec) : Exec ℕ := q.argLength q.value q.size

/-- The second argument is stored for every operator that has one. -/
def dbArg2Length (q : QueryRec) : Exec ℕ := q.argLength q.value2 q.size2

/-- An array of bytes. -/
abbrev Blob := GrowingArray UInt8

def arrayAddLong (blob : Blob) (l : ℕ) : Exec Blob := arrayAdd 1 blob (le32 l)

/-- Adds bytes that stand at a pointer. -/
def arrayAddFrom (blob : Blob) (ptr : Option Bytes) (datalen : ℕ) : Exec Blob := do
  let bytes ← Exec.deref ptr
  if datalen ≤ bytes.length then arrayAdd 1 blob (bytes.take datalen) else .error .fault

/-- Adds a number of bytes, and the bytes if there are any. -/
def arrayAddArg (blob : Blob) (ptr : Option Bytes) (datalen : ℕ) : Exec Blob := do
  let blob ← arrayAddLong blob datalen
  if datalen ≠ 0 then arrayAddFrom blob ptr datalen else return blob

/-- Stores a record. -/
def serializeQuery (blob : Blob) (q : QueryRec) : Exec Blob := do
  let blob ← arrayAddLong blob COND_MAGIC
  let datalen := (cstr q.attr).length + 1
  let blob ← arrayAddLong blob datalen
  let blob ← arrayAddFrom blob (some (q.attr ++ [0])) datalen
  let blob ← arrayAddLong blob q.op.number
  let blob ← arrayAddLong blob (if q.binary then 1 else 0)
  let datalen ← dbArg1Length q
  let blob ← arrayAddArg blob (q.buffer q.value) datalen
  let datalen ← dbArg2Length q
  arrayAddArg blob (q.buffer q.value2) datalen

/-- Stores the conditions of a feed. -/
def dbQueriesSerialize (queries : List QueryRec) : Exec Blob :=
  queries.foldlM serializeQuery (arrayInit 1 1024)

/-! ## Loading -/

/-- A record as it is loaded: `attr`, `value` and `value2` are the blocks the pointers
    point to, null or not. -/
structure LoadedQuery where
  attr : Option Bytes
  op : ℕ
  value : Option Bytes
  value2 : Option Bytes
  binary : ℕ
  size : ℕ
  size2 : ℕ
  origin : AttrOrig
  deriving DecidableEq

/-- A record of zeroes. -/
def LoadedQuery.zero : LoadedQuery where
  attr := none
  op := 0
  value := none
  value2 := none
  binary := 0
  size := 0
  size2 := 0
  origin := .any

/-- Takes bytes from a block, as long as there are enough. -/
def arrayGet (data : Bytes) (dataLen : ℕ) : Exec (Bytes × Bytes) :=
  if dataLen ≤ data.length then .ok (data.take dataLen, data.drop dataLen) else .error .fault

def arrayGetLong (data : Bytes) : Exec (ℕ × Bytes) := do
  let (lel, data) ← arrayGet data 4
  return (ofLe32 lel, data)

/-- Takes a number of bytes and, if it is not zero, the bytes, which get a block of
    their own. -/
def arrayGetArg (data : Bytes) : Exec (Option Bytes × ℕ × Bytes) := do
  let (datalen, data) ← arrayGetLong data
  if datalen ≠ 0 then do
    let (bytes, data) ← arrayGet data datalen
    return (some bytes, datalen, data)
  else return (none, datalen, data)

/-- Loads a record behind its mark. Nothing sets the origin. -/
def deserializeFields (data : Bytes) : Exec (LoadedQuery × Bytes) := do
  let (attr, _, data) ← arrayGetArg data
  let (op, data) ← arrayGetLong data
  let (binary, data) ← arrayGetLong data
  let (value, size, data) ← arrayGetArg data
  let (value2, size2, data) ← arrayGetArg data
  return ({ LoadedQuery.zero with attr, op, value, value2, binary, size, size2 }, data)

/-- Loads a record. -/
def deserializeQuery (data : Bytes) : Exec (LoadedQuery × Bytes) := do
  let (l, data) ← arrayGetLong data
  if l ≠ COND_MAGIC then .error (.errno .EINVAL) else deserializeFields data

/-- Frees the loaded records, up to one without an attribute: there need not be
    one, as the last is added at the end only. -/
def freeQueries : Block LoadedQuery → Exec Unit
  | some q :: queries => if q.attr = none then .ok () else freeQueries queries
  | _ => .error .fault

/-- The number of bytes of a record. -/
def sizeofQuery : ℕ := 64

theorem length_of_arrayGet {data bytes rest : Bytes} {n : ℕ}
    (h : arrayGet data n = .ok (bytes, rest)) : rest.length + n = data.length := by
  unfold arrayGet at h
  split_ifs at h with hle
  obtain ⟨-, rfl⟩ := Prod.mk.inj (Except.ok.inj h)
  rw [List.length_drop, Nat.sub_add_cancel hle]

theorem length_of_arrayGetLong {data rest : Bytes} {l : ℕ}
    (h : arrayGetLong data = .ok (l, rest)) : rest.length + 4 = data.length := by
  obtain ⟨⟨bytes, rest'⟩, hget, h⟩ := Exec.bind_eq_ok.1 h
  obtain ⟨-, rfl⟩ := Prod.mk.inj (Except.ok.inj h)
  exact length_of_arrayGet hget

theorem length_of_arrayGetArg {data rest : Bytes} {r : Option Bytes} {n : ℕ}
    (h : arrayGetArg data = .ok (r, n, rest)) : rest.length ≤ data.length := by
  obtain ⟨⟨datalen, data'⟩, hlong, h⟩ := Exec.bind_eq_ok.1 h
  have hlen := length_of_arrayGetLong hlong
  dsimp only at h
  split_ifs at h
  · obtain ⟨⟨bytes, rest'⟩, hget, h⟩ := Exec.bind_eq_ok.1 h
    have hlen' := length_of_arrayGet hget
    cases Except.ok.inj h
    show rest'.length ≤ data.length
    omega
  · cases Except.ok.inj h
    omega

theorem length_of_deserializeFields {data rest : Bytes} {raw : LoadedQuery}
    (h : deserializeFields data = .ok (raw, rest)) : rest.length ≤ data.length := by
  obtain ⟨⟨attr, _, d₁⟩, h₁, h⟩ := Exec.bind_eq_ok.1 h
  obtain ⟨⟨op, d₂⟩, h₂, h⟩ := Exec.bind_eq_ok.1 h
  obtain ⟨⟨binary, d₃⟩, h₃, h⟩ := Exec.bind_eq_ok.1 h
  obtain ⟨⟨value, size, d₄⟩, h₄, h⟩ := Exec.bind_eq_ok.1 h
  obtain ⟨⟨value2, size2, d₅⟩, h₅, h⟩ := Exec.bind_eq_ok.1 h
  obtain ⟨-, rfl⟩ := Prod.mk.inj (Except.ok.inj h)
  have l₁ := length_of_arrayGetArg h₁
  have l₂ := length_of_arrayGetLong h₂
  have l₃ := length_of_arrayGetLong h₃
  have l₄ := length_of_arrayGetArg h₄
  have l₅ := length_of_arrayGetArg h₅
  omega

/-- A record that is loaded is taken off the block. -/
theorem length_of_deserializeQuery {data rest : Bytes} {raw : LoadedQuery}
    (h : deserializeQuery data = .ok (raw, rest)) : rest.length < data.length := by
  obtain ⟨⟨l, data'⟩, hlong, h⟩ := Exec.bind_eq_ok.1 h
  have hlen := length_of_arrayGetLong hlong
  dsimp only at h
  split_ifs at h
  have := length_of_deserializeFields h
  omega

/-- Loads records as long as bytes are left, and a last one of zeroes. -/
def deserializeFrom (queries : GrowingArray LoadedQuery) (data : Bytes) :
    Exec (GrowingArray LoadedQuery) :=
  if data = [] then arrayAdd sizeofQuery queries [LoadedQuery.zero]
  else
    match h : deserializeQuery data with
    | .ok (query, rest) => do
      have := length_of_deserializeQuery h
      let queries ← arrayAdd sizeofQuery queries [query]
      deserializeFrom queries rest
    | .error (.errno code) => do
      freeQueries queries.data
      .error (.errno code)
    | .error stop => .error stop
termination_by data.length

/-- Loads the conditions of a feed. -/
def dbQueriesDeserialize (blob : Bytes) : Exec (GrowingArray LoadedQuery) :=
  deserializeFrom (arrayInit sizeofQuery 512) blob

/-! ## What is stored -/

namespace JpQueryOp

/-- How many arguments an operator needs. -/
def arity : JpQueryOp → ℕ
  | .UNDEF => 0
  | .EQUAL => 1
  | .UNEQUAL => 1
  | .LESS => 1
  | .GREATER => 1
  | .WITHIN => 2
  | .EXISTS => 0

end JpQueryOp

namespace QueryRec

/-- A record has the values its operator needs, strings without zero bytes or blocks
    of the sizes that stand beside them. -/
structure AsRequired (q : QueryRec) : Prop where
  attr : 0 ∉ q.attr
  value : 1 ≤ q.op.arity → q.value ≠ none
  value2 : 2 ≤ q.op.arity → q.value2 ≠ none
  string : q.binary = false → (∀ s ∈ q.value, 0 ∉ s) ∧ ∀ s ∈ q.value2, 0 ∉ s
  size : q.binary = true → q.size = (q.value.getD []).length ∧ q.size2 = (q.value2.getD []).length

/-- Whether a value is absent; one of no bytes counts as absent among the binary ones. -/
def Absent (q : QueryRec) (value : Option Bytes) : Prop :=
  if q.binary then value.getD [] = [] else value = none

instance (q : QueryRec) (value : Option Bytes) : Decidable (q.Absent value) :=
  inferInstanceAs (Decidable (if q.binary then value.getD [] = [] else value = none))

/-- The bytes of an argument that are stored. -/
def stored (q : QueryRec) (value : Option Bytes) : Bytes :=
  if 1 ≤ opArgs q.op then (q.buffer value).getD [] else []

/-- The bytes of a record. -/
def bytes (q : QueryRec) : Bytes :=
  le32 COND_MAGIC ++ (le32 (q.attr.length + 1) ++ ((q.attr ++ [0]) ++ (le32 q.op.number ++
    (le32 (if q.binary then 1 else 0) ++ ((le32 (q.stored q.value).length ++ q.stored q.value) ++
      (le32 (q.stored q.value2).length ++ q.stored q.value2))))))

/-- A record of which all is stored: the operator is set, has arguments in the table or
    else the record has none, there is no origin, and all lengths have 32 bits. -/
structure Storable (q : QueryRec) : Prop where
  op : q.op ≠ .UNDEF
  args : opArgs q.op = 0 → q.Absent q.value ∧ q.Absent q.value2
  origin : q.origin = .any
  attr_lt : q.attr.length + 1 < 2 ^ 32
  value_lt : (q.stored q.value).length < 2 ^ 32
  value2_lt : (q.stored q.value2).length < 2 ^ 32

end QueryRec

open QueryRec

/-- A value is loaded as it was: the same string or none, or the same bytes with the
    same size. -/
def SameValue (binary : Bool) (raw : Option Bytes) (rawSize : ℕ) (value : Option Bytes)
    (size : ℕ) : Prop :=
  if binary then raw.getD [] = value.getD [] ∧ rawSize = size
  else raw.map cstr? = value.map some

/-- A record is loaded as it was. -/
structure LoadedAs (raw : LoadedQuery) (q : QueryRec) : Prop where
  attr : raw.attr.map cstr? = some (some q.attr)
  op : raw.op = q.op.number
  kind : raw.binary ≠ 0 ↔ q.binary = true
  value : SameValue q.binary raw.value raw.size q.value q.size
  value2 : SameValue q.binary raw.value2 raw.size2 q.value2 q.size2
  origin : raw.origin = q.origin

/-- What is loaded of what was stored. -/
def storedAndLoaded (queries : List QueryRec) : Exec (List LoadedQuery) := do
  let blob ← dbQueriesSerialize queries
  let bytes ← blob.contents 1
  let loaded ← dbQueriesDeserialize bytes
  loaded.contents sizeofQuery

/-- The records are loaded as they were, and a last one behind them. -/
def ConditionsRoundTrip (queries : List QueryRec) : Prop :=
  ∃ raws last, storedAndLoaded queries = .ok (raws ++ [last]) ∧ last.attr = none ∧
    List.Forall₂ LoadedAs raws queries

section Storing

variable {q : QueryRec}

theorem adds_arrayAddLong (l : ℕ) : Adds 1 (arrayAddLong · l) (le32 l) :=
  .arrayAdd one_pos (one_dvd _) _

/-- The bytes at a pointer are added. -/
theorem adds_arrayAddFrom {ptr : Option Bytes} {datalen : ℕ} {bytes : Bytes}
    (h : ptr = some bytes) (hlen : bytes.length = datalen) :
    Adds 1 (arrayAddFrom · ptr datalen) bytes := by
  have hadd : (fun blob => arrayAddFrom blob ptr datalen) = (arrayAdd 1 · bytes) := by
    funext blob
    rw [h, arrayAddFrom, Exec.deref, Exec.ok_bind, if_pos hlen.ge, List.take_of_length_le hlen.le]
  rw [hadd]
  exact .arrayAdd one_pos (one_dvd _) _

theorem adds_arrayAddArg {ptr : Option Bytes} {datalen : ℕ} {bytes : Bytes}
    (h : datalen ≠ 0 → ptr = some bytes) (hlen : bytes.length = datalen) :
    Adds 1 (arrayAddArg · ptr datalen) (le32 bytes.length ++ bytes) := by
  rw [hlen]
  refine (adds_arrayAddLong datalen).bind ?_
  by_cases hzero : datalen = 0
  · obtain rfl : bytes = [] := List.length_eq_zero_iff.1 (hlen.trans hzero)
    simp only [ne_eq, hzero, not_true_eq_false, if_false]
    exact .nothing
  · simp only [ne_eq, hzero, not_false_eq_true, if_true]
    exact adds_arrayAddFrom (h hzero) hlen

/-- The length of an argument is that of the bytes that are stored of it. -/
theorem argLength_eq {value : Option Bytes} {size : ℕ} (hop : q.op ≠ .UNDEF)
    (hstring : q.binary = false → ∀ s ∈ value, 0 ∉ s)
    (hsize : q.binary = true → size = (value.getD []).length) :
    q.argLength value size = .ok (q.stored value).length ∧
      ((q.stored value).length ≠ 0 → q.buffer value = some (q.stored value)) := by
  rw [argLength, if_neg hop, stored]
  split_ifs with hargs hbinary
  · rw [hsize hbinary]
    cases value with
    | none => exact ⟨rfl, fun h => absurd rfl h⟩
    | some s => simp [buffer, hbinary]
  · cases value with
    | none => exact ⟨rfl, fun h => absurd rfl h⟩
    | some s =>
      have hs := hstring (by simpa using hbinary) s rfl
      simp [buffer, hbinary, cstr_eq_self hs]
  · exact ⟨rfl, fun h => absurd rfl h⟩

/-- A record whose operator is set adds its bytes. -/
theorem adds_serializeQuery (hq : q.AsRequired) (hop : q.op ≠ .UNDEF) :
    Adds 1 (serializeQuery · q) q.bytes := by
  obtain ⟨hlen, hbuffer⟩ := argLength_eq hop (fun h => (hq.string h).1) fun h => (hq.size h).1
  obtain ⟨hlen2, hbuffer2⟩ := argLength_eq hop (fun h => (hq.string h).2) fun h => (hq.size h).2
  simp only [serializeQuery, cstr_eq_self hq.attr, dbArg1Length, hlen, dbArg2Length, hlen2,
    Exec.ok_bind]
  exact (adds_arrayAddLong _).bind <| (adds_arrayAddLong _).bind <|
    (adds_arrayAddFrom rfl (by simp)).bind <| (adds_arrayAddLong _).bind <|
    (adds_arrayAddLong _).bind <| (adds_arrayAddArg hbuffer rfl).bind (adds_arrayAddArg hbuffer2 rfl)

/-- A record whose operator is not set is not stored. -/
theorem op_ne_of_serializeQuery {blob blob' : Blob} (h : serializeQuery blob q = .ok blob') :
    q.op ≠ .UNDEF := by
  intro hop
  obtain ⟨_, -, h⟩ := Exec.bind_eq_ok.1 h
  obtain ⟨_, -, h⟩ := Exec.bind_eq_ok.1 h
  obtain ⟨_, -, h⟩ := Exec.bind_eq_ok.1 h
  obtain ⟨_, -, h⟩ := Exec.bind_eq_ok.1 h
  obtain ⟨_, -, h⟩ := Exec.bind_eq_ok.1 h
  obtain ⟨_, hlen, -⟩ := Exec.bind_eq_ok.1 h
  rw [dbArg1Length, argLength, if_pos hop] at hlen
  cases hlen

theorem op_ne_of_foldlM {queries : List QueryRec} {blob blob' : Blob}
    (h : queries.foldlM serializeQuery blob = .ok blob') : ∀ q ∈ queries, q.op ≠ .UNDEF := by
  induction queries generalizing blob with
  | nil => nofun
  | cons q queries ih =>
    rw [List.foldlM_cons] at h
    obtain ⟨_, hq, h⟩ := Exec.bind_eq_ok.1 h
    exact List.forall_mem_cons.2 ⟨op_ne_of_serializeQuery hq, ih h⟩

/-- Records are stored when all of them have an operator, and half of the range is
    enough for their bytes. -/
theorem dbQueriesSerialize_eq_ok {queries : List QueryRec} (hq : ∀ q ∈ queries, q.AsRequired)
    {bytes : Bytes} :
    (∃ blob, dbQueriesSerialize queries = .ok blob ∧ blob.contents 1 = .ok bytes) ↔
      (∀ q ∈ queries, q.op ≠ .UNDEF) ∧ (queries.flatMap QueryRec.bytes).length ≤ 2 ^ 63 ∧
        bytes = queries.flatMap QueryRec.bytes := by
  have hinit : (arrayInit 1 (2 ^ 10) : Blob).Contains 1 [] :=
    contains_arrayInit (one_dvd _) (by norm_num)
  have hadds : (∀ q ∈ queries, q.op ≠ .UNDEF) →
      Adds 1 (fun blob => queries.foldlM serializeQuery blob) (queries.flatMap QueryRec.bytes) :=
    fun hop => .foldlM fun q hmem => adds_serializeQuery (hq q hmem) (hop q hmem)
  constructor
  · rintro ⟨blob, hblob, hbytes⟩
    have hop := op_ne_of_foldlM hblob
    have hcontains := ((hadds hop) _ _ hinit).2 blob hblob
    rw [List.nil_append] at hcontains
    rw [hcontains.contents_eq one_pos] at hbytes
    exact ⟨hop, by simpa using hcontains.le_half, (Except.ok.inj hbytes).symm⟩
  · rintro ⟨hop, hle, rfl⟩
    obtain ⟨blob, hblob⟩ := ((hadds hop) _ _ hinit).1 (by rwa [List.nil_append, one_mul])
    have hcontains := ((hadds hop) _ _ hinit).2 blob hblob
    exact ⟨blob, hblob, hcontains.contents_eq one_pos⟩

end Storing

section Loading

variable {q : QueryRec} {raw : LoadedQuery} {rest rest' xs s : Bytes}

theorem arrayGet_append {n : ℕ} (h : xs.length = n) :
    arrayGet (xs ++ rest) n = .ok (xs, rest) := by
  rw [arrayGet, if_pos (by rw [List.length_append]; omega), List.take_left' h, List.drop_left' h]

theorem arrayGetLong_le32 (l : ℕ) : arrayGetLong (le32 l ++ rest) = .ok (l % 2 ^ 32, rest) := by
  rw [arrayGetLong, arrayGet_append (length_le32 l), Exec.ok_bind]
  exact congrArg (fun n => Except.ok (n, rest)) (ofLe32_le32 l)

/-- Bytes that are stored with their length are loaded when it has 32 bits. -/
theorem arrayGetArg_append (h : xs.length < 2 ^ 32) :
    arrayGetArg ((le32 xs.length ++ xs) ++ rest) =
      .ok (if xs = [] then none else some xs, xs.length, rest) := by
  rw [arrayGetArg, List.append_assoc, arrayGetLong_le32, Exec.ok_bind, Nat.mod_eq_of_lt h]
  by_cases hxs : xs = []
  · rw [hxs]
    rfl
  · have hlen : xs.length ≠ 0 := fun h => hxs (List.length_eq_zero_iff.1 h)
    dsimp only
    rw [if_pos hlen, if_neg hxs, arrayGet_append rfl]
    rfl

/-- In any case a part of them is loaded. -/
theorem arrayGetArg_eq_ok {r : Option Bytes} {n : ℕ}
    (h : arrayGetArg ((le32 xs.length ++ xs) ++ rest) = .ok (r, n, rest')) :
    n = xs.length % 2 ^ 32 ∧ ∀ block ∈ r, block = xs.take n := by
  rw [arrayGetArg, List.append_assoc, arrayGetLong_le32, Exec.ok_bind] at h
  dsimp only at h
  split_ifs at h with hne
  · obtain ⟨⟨block, data⟩, hget, h⟩ := Exec.bind_eq_ok.1 h
    unfold arrayGet at hget
    split_ifs at hget
    obtain ⟨rfl, rfl⟩ := Prod.mk.inj (Except.ok.inj hget)
    cases Except.ok.inj h
    refine ⟨rfl, fun block hblock => ?_⟩
    obtain rfl := Option.some.inj hblock
    exact List.take_append_of_le_length (Nat.mod_le _ _)
  · cases Except.ok.inj h
    exact ⟨rfl, nofun⟩

/-- A string is loaded with its end only when its length has 32 bits. -/
theorem length_lt_of_cstr? {r : Option Bytes} {n : ℕ} (hs : 0 ∉ s)
    (h : arrayGetArg ((le32 (s ++ [0]).length ++ (s ++ [0])) ++ rest) = .ok (r, n, rest'))
    (hr : r.map cstr? = some (some s)) : (s ++ [0]).length < 2 ^ 32 := by
  obtain ⟨rfl, hblock⟩ := arrayGetArg_eq_ok h
  obtain ⟨block, rfl, hcstr⟩ := Option.map_eq_some_iff.1 hr
  rw [hblock block rfl] at hcstr
  by_contra hlt
  have hle : (s ++ [0]).length % 2 ^ 32 ≤ s.length := by
    rw [List.length_append, List.length_singleton] at hlt ⊢
    have := Nat.mod_lt (s.length + 1) (show 0 < 2 ^ 32 by norm_num)
    omega
  rw [List.take_append_of_le_length hle, cstr?_eq_none fun h => hs (List.mem_of_mem_take h)] at hcstr
  cases hcstr

/-- The record that is loaded of one whose lengths have 32 bits. -/
def QueryRec.loaded (q : QueryRec) : LoadedQuery where
  attr := some (q.attr ++ [0])
  op := q.op.number
  value := if q.stored q.value = [] then none else some (q.stored q.value)
  value2 := if q.stored q.value2 = [] then none else some (q.stored q.value2)
  binary := if q.binary then 1 else 0
  size := (q.stored q.value).length
  size2 := (q.stored q.value2).length
  origin := .any

/-- A record whose lengths have 32 bits is loaded. -/
theorem deserializeQuery_bytes (hattr : q.attr.length + 1 < 2 ^ 32)
    (hvalue : (q.stored q.value).length < 2 ^ 32) (hvalue2 : (q.stored q.value2).length < 2 ^ 32) :
    deserializeQuery (q.bytes ++ rest) = .ok (q.loaded, rest) := by
  have hlen : (q.attr ++ [0]).length = q.attr.length + 1 := by simp
  have hmagic : COND_MAGIC % 2 ^ 32 = COND_MAGIC := by decide
  have hop : q.op.number % 2 ^ 32 = q.op.number := by cases q.op <;> rfl
  have hkind : (if q.binary then 1 else 0) % 2 ^ 32 = if q.binary then 1 else 0 := by
    cases q.binary <;> rfl
  rw [QueryRec.bytes, deserializeQuery, List.append_assoc, arrayGetLong_le32, Exec.ok_bind]
  dsimp only
  rw [if_neg (not_not.2 hmagic), deserializeFields, ← List.append_assoc (le32 _), List.append_assoc,
    ← hlen, arrayGetArg_append (hlen.symm ▸ hattr), Exec.ok_bind, if_neg (by simp)]
  dsimp only
  rw [List.append_assoc, arrayGetLong_le32, Exec.ok_bind, hop]
  dsimp only
  rw [List.append_assoc, arrayGetLong_le32, Exec.ok_bind, hkind]
  dsimp only
  rw [List.append_assoc, arrayGetArg_append hvalue, Exec.ok_bind]
  dsimp only
  rw [arrayGetArg_append hvalue2, Exec.ok_bind]
  rfl

/-- A value that is loaded as it was has a length of 32 bits. -/
theorem length_stored_lt {value r : Option Bytes} {size n : ℕ}
    (hstring : q.binary = false → ∀ s ∈ value, 0 ∉ s)
    (hsize : q.binary = true → size = (value.getD []).length)
    (h : arrayGetArg ((le32 (q.stored value).length ++ q.stored value) ++ rest) = .ok (r, n, rest'))
    (hsame : SameValue q.binary r n value size) : (q.stored value).length < 2 ^ 32 := by
  unfold QueryRec.stored at h ⊢
  split_ifs at h ⊢
  · cases value with
    | none => exact Nat.two_pow_pos 32
    | some s =>
      cases hbinary : q.binary with
      | true =>
        simp only [SameValue, hbinary, if_true, hsize hbinary] at hsame
        simp only [buffer, hbinary, if_true, Option.map_some, Option.getD_some] at h hsame ⊢
        obtain ⟨hn, -⟩ := arrayGetArg_eq_ok h
        rw [← hsame.2, hn]
        exact Nat.mod_lt _ (by norm_num)
      | false =>
        simp only [SameValue, hbinary, Bool.false_eq_true, if_false, Option.map_some] at hsame
        simp only [buffer, hbinary, Bool.false_eq_true, if_false, Option.map_some,
          Option.getD_some] at h ⊢
        exact length_lt_of_cstr? (hstring hbinary s rfl) h hsame
  · norm_num

/-- A record that is loaded as it was has lengths of 32 bits. -/
theorem lengths_lt_of_loadedAs (hq : q.AsRequired)
    (h : deserializeQuery (q.bytes ++ rest) = .ok (raw, rest')) (hsame : LoadedAs raw q) :
    q.attr.length + 1 < 2 ^ 32 ∧ (q.stored q.value).length < 2 ^ 32 ∧
      (q.stored q.value2).length < 2 ^ 32 := by
  have hlen : (q.attr ++ [0]).length = q.attr.length + 1 := by simp
  rw [QueryRec.bytes, deserializeQuery, List.append_assoc, arrayGetLong_le32, Exec.ok_bind] at h
  dsimp only at h
  rw [if_neg (not_not.2 (by decide)), deserializeFields, ← List.append_assoc (le32 _),
    List.append_assoc, ← hlen] at h
  obtain ⟨⟨attr, n, d₁⟩, hattr, h⟩ := Exec.bind_eq_ok.1 h
  obtain ⟨⟨op, d₂⟩, hop, h⟩ := Exec.bind_eq_ok.1 h
  obtain ⟨⟨binary, d₃⟩, hbinary, h⟩ := Exec.bind_eq_ok.1 h
  obtain ⟨⟨value, size, d₄⟩, hvalue, h⟩ := Exec.bind_eq_ok.1 h
  obtain ⟨⟨value2, size2, d₅⟩, hvalue2, h⟩ := Exec.bind_eq_ok.1 h
  obtain ⟨rfl, rfl⟩ := Prod.mk.inj (Except.ok.inj h)
  -- each length that has 32 bits says what is left behind the argument
  have hattr_lt := length_lt_of_cstr? hq.attr hattr hsame.attr
  rw [arrayGetArg_append hattr_lt] at hattr
  cases Except.ok.inj hattr
  rw [List.append_assoc, arrayGetLong_le32] at hop
  cases Except.ok.inj hop
  rw [List.append_assoc, arrayGetLong_le32] at hbinary
  cases Except.ok.inj hbinary
  rw [List.append_assoc] at hvalue
  have hvalue_lt := length_stored_lt (fun h => (hq.string h).1) (fun h => (hq.size h).1) hvalue
    hsame.value
  rw [arrayGetArg_append hvalue_lt] at hvalue
  cases Except.ok.inj hvalue
  exact ⟨hlen ▸ hattr_lt, hvalue_lt, length_stored_lt (fun h => (hq.string h).2)
    (fun h => (hq.size h).2) hvalue2 hsame.value2⟩

/-- A value is loaded as it was when the operator has arguments in the table, or else
    there is none. -/
theorem sameValue_stored_iff {value : Option Bytes} {size : ℕ}
    (hstring : q.binary = false → ∀ s ∈ value, 0 ∉ s)
    (hsize : q.binary = true → size = (value.getD []).length) :
    SameValue q.binary (if q.stored value = [] then none else some (q.stored value))
      (q.stored value).length value size ↔ (opArgs q.op = 0 → q.Absent value) := by
  have hgetD : ∀ xs : Bytes, (if xs = [] then none else some xs).getD [] = xs := fun xs => by
    split_ifs with h
    · exact h.symm
    · rfl
  cases hbinary : q.binary with
  | true =>
    rw [SameValue, if_pos rfl, hgetD, hsize hbinary, Absent, if_pos hbinary, QueryRec.stored]
    split_ifs with hargs
    · have hstored : (q.buffer value).getD [] = value.getD [] := by
        cases value <;> simp [buffer, hbinary]
      rw [hstored]
      exact iff_of_true ⟨rfl, rfl⟩ fun h => by omega
    · constructor
      · exact fun h _ => h.1.symm
      · intro h
        rw [h (by omega)]
        exact ⟨rfl, rfl⟩
  | false =>
    have hbuffer : q.buffer value = value.map (· ++ [0]) := by simp [buffer, hbinary]
    rw [SameValue, if_neg Bool.false_ne_true]
    by_cases hargs : 1 ≤ opArgs q.op
    · rw [QueryRec.stored, if_pos hargs, hbuffer]
      refine iff_of_true ?_ fun h => by omega
      cases value with
      | none => rfl
      | some s => simp [cstr?_append (hstring hbinary s rfl)]
    · have hzero : opArgs q.op = 0 := by omega
      rw [QueryRec.stored, if_neg hargs, if_pos rfl]
      cases value <;> simp [Absent, hbinary, hzero]

end Loading

/-! ## Storing and loading -/

section RoundTrip

variable {queries : List QueryRec} {a a' : GrowingArray LoadedQuery}

theorem deserializeFrom_of_ok {data rest : Bytes} {raw : LoadedQuery}
    (h : deserializeQuery data = .ok (raw, rest)) (a : GrowingArray LoadedQuery) :
    deserializeFrom a data =
      arrayAdd sizeofQuery a [raw] >>= fun queries => deserializeFrom queries rest := by
  have hne : data ≠ [] := by
    rintro rfl
    cases h
  rw [deserializeFrom, if_neg hne]
  split
  · rename_i h'
    cases Except.ok.inj (h.symm.trans h')
    rfl
  · rename_i h'
    rw [h] at h'
    cases h'
  · rename_i h'
    rw [h] at h'
    cases h'

/-- Loading ends well only with a record or at the end. -/
theorem of_deserializeFrom_eq_ok {data : Bytes} (h : deserializeFrom a data = .ok a') :
    data = [] ∨ ∃ raw rest, deserializeQuery data = .ok (raw, rest) := by
  by_cases hne : data = []
  · exact .inl hne
  · rw [deserializeFrom, if_neg hne] at h
    split at h
    · exact .inr ⟨_, _, by assumption⟩
    · obtain ⟨_, -, h⟩ := Exec.bind_eq_ok.1 h
      cases h
    · cases h

/-- Loading adds records. -/
theorem exists_contains_of_deserializeFrom {data : Bytes} {xs : List LoadedQuery}
    (ha : a.Contains sizeofQuery xs) (h : deserializeFrom a data = .ok a') :
    ∃ ys, a'.Contains sizeofQuery (xs ++ ys) := by
  induction hn : data.length using Nat.strong_induction_on generalizing data a xs
  rename_i n ih
  rcases of_deserializeFrom_eq_ok h with rfl | ⟨raw, rest, hraw⟩
  · rw [deserializeFrom, if_pos rfl] at h
    exact ⟨_, arrayAdd_contains (by decide) (by decide) ha h⟩
  · rw [deserializeFrom_of_ok hraw] at h
    obtain ⟨a₁, h₁, h⟩ := Exec.bind_eq_ok.1 h
    obtain ⟨ys, hys⟩ := ih rest.length (hn ▸ length_of_deserializeQuery hraw)
      (arrayAdd_contains (by decide) (by decide) ha h₁) h rfl
    exact ⟨raw :: ys, by rwa [List.append_assoc] at hys⟩

/-- The lengths of a record have 32 bits. -/
def QueryRec.Fits (q : QueryRec) : Prop :=
  q.attr.length + 1 < 2 ^ 32 ∧ (q.stored q.value).length < 2 ^ 32 ∧
    (q.stored q.value2).length < 2 ^ 32

/-- The records of some bytes are loaded when their lengths have 32 bits. -/
theorem adds_deserializeFrom (hfits : ∀ q ∈ queries, q.Fits) :
    Adds sizeofQuery (fun a => deserializeFrom a (queries.flatMap QueryRec.bytes))
      (queries.map QueryRec.loaded ++ [LoadedQuery.zero]) := by
  induction queries with
  | nil =>
    have hend : (fun a => deserializeFrom a (([] : List QueryRec).flatMap QueryRec.bytes)) =
        (arrayAdd sizeofQuery · [LoadedQuery.zero]) := by
      funext a
      rw [deserializeFrom, if_pos List.flatMap_nil]
    rw [hend]
    exact .arrayAdd (by decide) (by decide) _
  | cons q queries ih =>
    obtain ⟨⟨hattr, hvalue, hvalue2⟩, hfits⟩ := List.forall_mem_cons.1 hfits
    simp only [List.flatMap_cons, List.map_cons, List.cons_append,
      deserializeFrom_of_ok (deserializeQuery_bytes hattr hvalue hvalue2)]
    exact Adds.bind (.arrayAdd (by decide) (by decide) [q.loaded]) (ih hfits)

/-- Records that are loaded as they were have lengths of 32 bits. -/
theorem fits_of_deserializeFrom {xs raws : List LoadedQuery} {last : LoadedQuery}
    (hq : ∀ q ∈ queries, q.AsRequired) (ha : a.Contains sizeofQuery xs)
    (h : deserializeFrom a (queries.flatMap QueryRec.bytes) = .ok a')
    (hend : a'.contents sizeofQuery = .ok (xs ++ (raws ++ [last])))
    (hsame : List.Forall₂ LoadedAs raws queries) : ∀ q ∈ queries, q.Fits := by
  induction hsame generalizing a xs with
  | nil => nofun
  | @cons raw q raws queries hraw _ ih =>
    obtain ⟨hq, hqs⟩ := List.forall_mem_cons.1 hq
    rw [List.flatMap_cons] at h
    rcases of_deserializeFrom_eq_ok h with hnil | ⟨raw', rest, hraw'⟩
    · cases hnil
    · rw [deserializeFrom_of_ok hraw'] at h
      obtain ⟨a₁, h₁, hrest⟩ := Exec.bind_eq_ok.1 h
      have ha₁ := arrayAdd_contains (by decide) (by decide) ha h₁
      -- the record that is loaded first is the first of those there are at the end
      obtain ⟨ys, hys⟩ := exists_contains_of_deserializeFrom ha₁ hrest
      rw [hys.contents_eq (by decide), List.append_assoc] at hend
      obtain rfl : raw' = raw := (List.cons.inj (List.append_cancel_left (Except.ok.inj hend))).1
      have hfits := lengths_lt_of_loadedAs hq hraw' hraw
      rw [deserializeQuery_bytes hfits.1 hfits.2.1 hfits.2.2] at hraw'
      obtain ⟨rfl, rfl⟩ := Prod.mk.inj (Except.ok.inj hraw')
      refine List.forall_mem_cons.2 ⟨hfits, ih hqs ha₁ hrest ?_⟩
      rw [hys.contents_eq (by decide), List.append_assoc, Except.ok.inj hend, List.append_assoc]
      rfl

/-- A record whose lengths have 32 bits is loaded as it was when all of it is stored. -/
theorem loadedAs_loaded_iff {q : QueryRec} (hq : q.AsRequired) :
    LoadedAs q.loaded q ↔
      (opArgs q.op = 0 → q.Absent q.value ∧ q.Absent q.value2) ∧ q.origin = .any := by
  have hvalue := sameValue_stored_iff (fun h => (hq.string h).1) fun h => (hq.size h).1
  have hvalue2 := sameValue_stored_iff (fun h => (hq.string h).2) fun h => (hq.size h).2
  constructor
  · intro h
    exact ⟨fun hargs => ⟨hvalue.1 h.value hargs, hvalue2.1 h.value2 hargs⟩, h.origin.symm⟩
  · rintro ⟨hargs, horigin⟩
    exact {
      attr := congrArg some (cstr?_append hq.attr [])
      op := rfl
      kind := by cases hb : q.binary <;> simp [QueryRec.loaded, hb]
      value := hvalue.2 fun h => (hargs h).1
      value2 := hvalue2.2 fun h => (hargs h).2
      origin := horigin.symm }

/-- The number of bytes that are stored of a record. -/
def QueryRec.storedSize (q : QueryRec) : ℕ :=
  25 + q.attr.length + (q.stored q.value).length + (q.stored q.value2).length

theorem length_bytes (queries : List QueryRec) :
    (queries.flatMap QueryRec.bytes).length = (queries.map QueryRec.storedSize).sum := by
  rw [List.length_flatMap]
  congr 2
  funext q
  simp only [QueryRec.bytes, QueryRec.storedSize, List.length_append, length_le32,
    List.length_singleton]
  omega

theorem contains_arrayInit_queries :
    (arrayInit sizeofQuery 512 : GrowingArray LoadedQuery).Contains sizeofQuery [] :=
  @contains_arrayInit _ _ 9 (by decide) (by norm_num)

theorem length_loaded (queries : List QueryRec) :
    (queries.map QueryRec.loaded ++ [LoadedQuery.zero]).length = queries.length + 1 := by simp

/-- All was stored of records that round trip, and there was room for them. -/
theorem storable_of_conditionsRoundTrip (hq : ∀ q ∈ queries, q.AsRequired)
    (h : ConditionsRoundTrip queries) : (∀ q ∈ queries, q.Storable) ∧
      (queries.map QueryRec.storedSize).sum ≤ 2 ^ 63 ∧
      sizeofQuery * (queries.length + 1) ≤ 2 ^ 63 := by
  obtain ⟨raws, last, h, -, hsame⟩ := h
  obtain ⟨blob, hblob, h⟩ := Exec.bind_eq_ok.1 h
  obtain ⟨bytes, hbytes, h⟩ := Exec.bind_eq_ok.1 h
  obtain ⟨a, ha, hend⟩ := Exec.bind_eq_ok.1 h
  obtain ⟨hop, hsize, rfl⟩ := (dbQueriesSerialize_eq_ok hq).1 ⟨blob, hblob, hbytes⟩
  have hfits := fits_of_deserializeFrom hq contains_arrayInit_queries ha hend hsame
  have hadds := adds_deserializeFrom hfits
  have hall := (hadds _ _ contains_arrayInit_queries).2 a ha
  rw [hall.contents_eq (by decide), List.nil_append] at hend
  obtain ⟨rfl, -⟩ := List.append_inj' (Except.ok.inj hend) rfl
  have hsame' := List.forall₂_same.1 (List.forall₂_map_left_iff.1 hsame)
  have hroom := (hadds.eq_ok_iff contains_arrayInit_queries).1 ⟨a, ha⟩
  rw [length_loaded] at hroom
  refine ⟨fun q hmem => ?_, length_bytes queries ▸ hsize, hroom⟩
  obtain ⟨hargs, horigin⟩ := (loadedAs_loaded_iff (hq q hmem)).1 (hsame' q hmem)
  exact ⟨hop q hmem, hargs, horigin, (hfits q hmem).1, (hfits q hmem).2.1, (hfits q hmem).2.2⟩

/-- Records of which all is stored round trip when there is room for them. -/
theorem conditionsRoundTrip_of_storable (hq : ∀ q ∈ queries, q.AsRequired)
    (hstorable : ∀ q ∈ queries, q.Storable)
    (hsize : (queries.map QueryRec.storedSize).sum ≤ 2 ^ 63)
    (hroom : sizeofQuery * (queries.length + 1) ≤ 2 ^ 63) : ConditionsRoundTrip queries := by
  obtain ⟨blob, hblob, hbytes⟩ := (dbQueriesSerialize_eq_ok hq).2
    ⟨fun q hmem => (hstorable q hmem).op, (length_bytes queries).symm ▸ hsize, rfl⟩
  have hadds := adds_deserializeFrom fun q hmem =>
    ⟨(hstorable q hmem).attr_lt, (hstorable q hmem).value_lt, (hstorable q hmem).value2_lt⟩
  rw [← length_loaded] at hroom
  obtain ⟨a, ha⟩ := (hadds.eq_ok_iff contains_arrayInit_queries).2 hroom
  have hall := (hadds _ _ contains_arrayInit_queries).2 a ha
  refine ⟨queries.map QueryRec.loaded, .zero, ?_, rfl, ?_⟩
  · rw [storedAndLoaded, hblob, Exec.ok_bind, hbytes, Exec.ok_bind, dbQueriesDeserialize, ha,
      Exec.ok_bind, hall.contents_eq (by decide), List.nil_append]
  · rw [List.forall₂_map_left_iff, List.forall₂_same]
    exact fun q hmem => (loadedAs_loaded_iff (hq q hmem)).2
      ⟨(hstorable q hmem).args, (hstorable q hmem).origin⟩

/-- **The conditions of a feed round trip** exactly when all of each record is stored,
    and there is room for all of them. -/
theorem conditionsRoundTrip_iff (hq : ∀ q ∈ queries, q.AsRequired) :
    ConditionsRoundTrip queries ↔ (∀ q ∈ queries, q.Storable) ∧
      (queries.map QueryRec.storedSize).sum ≤ 2 ^ 63 ∧
      sizeofQuery * (queries.length + 1) ≤ 2 ^ 63 :=
  ⟨storable_of_conditionsRoundTrip hq,
    fun ⟨hstorable, hsize, hroom⟩ => conditionsRoundTrip_of_storable hq hstorable hsize hroom⟩

end RoundTrip

/-- A record of a string, or of two. -/
def stringQuery (attr : Bytes) (op : JpQueryOp) (value value2 : Option Bytes) : QueryRec :=
  { QueryRec.zero attr with op, value, value2 }

/-- A record of jobs that started in a week. -/
def withinQuery : QueryRec :=
  stringQuery (ascii "started") .WITHIN (some (ascii "20070101")) (some (ascii "20070108"))

theorem asRequired_withinQuery : withinQuery.AsRequired :=
  ⟨by decide, by decide, by decide, by decide, by decide⟩

theorem conditionsRoundTrip_within : ConditionsRoundTrip [withinQuery] :=
  (conditionsRoundTrip_iff (by simpa using asRequired_withinQuery)).2
    ⟨by simpa using (⟨by decide, by decide, by decide, by decide, by decide, by decide⟩ :
      withinQuery.Storable), by decide, by decide⟩

/-- A record of jobs that are not done. -/
def unequalQuery : QueryRec := stringQuery (ascii "state") .UNEQUAL (some (ascii "done")) none

/-- The value of an inequality is not stored. -/
theorem not_conditionsRoundTrip_unequal :
    unequalQuery.AsRequired ∧ ¬ConditionsRoundTrip [unequalQuery] := by
  have hq : unequalQuery.AsRequired := ⟨by decide, by decide, by decide, by decide, by decide⟩
  refine ⟨hq, fun h => ?_⟩
  have hargs := ((storable_of_conditionsRoundTrip (by simpa using hq) h).1 _ List.mem_cons_self).args
  exact absurd (hargs rfl).1 (by decide)

end JobProvenance
