import JobProvenance.Lib.Base64
import JobProvenance.Lib.Exec

/-!
# Attribute values

The attribute values both servers handle, and the conversion of a value to and
from the text the index server stores, as the fallback type plugin does it: a
header of kind, time and origin, the origin detail with its colons and
backslashes escaped, and the value itself, in base64 when it is binary.

The sizes the conversion computes are `int`s, its buffer is as large as it
computes, and a terminated string is read only up to its terminator: what the
source does outside these is `Stop.fault`.

* `fbToDbFull_string`, `fbToDbFull_binary`: a value is stored exactly when its
  sizes fit an `int`, in a fixed layout;
* `fbFromDb_layout`: reading the layout finds every field where it was put;
* `roundTrips_iff_fits`: the two together.
-/

namespace JobProvenance

/-- Where a value came from; `any` only occurs in queries. -/
inductive AttrOrig
  | any
  | system
  | user
  | file
  deriving DecidableEq

/-- An attribute value: `value` is what the value pointer points to. -/
structure Attrval where
  name : Bytes
  value : Bytes
  binary : Bool
  size : ℕ
  origin : AttrOrig
  originDetail : Option Bytes
  timestamp : ℤ
  deriving DecidableEq

namespace Attrval

/-- A value as its users build it: the strings are terminated, a binary value
    has the bytes its size tells. -/
structure WellFormed (a : Attrval) : Prop where
  name_nul : 0 ∉ a.name
  value_nul : a.binary = false → 0 ∉ a.value
  value_size : a.binary = true → a.value.length = a.size
  detail_nul : ∀ d ∈ a.originDetail, 0 ∉ d

/-- The copy of a value: the bytes its size tells of a binary one, the string
    otherwise. -/
def copy (a : Attrval) : Exec Attrval :=
  if a.binary then
    if a.size ≤ a.value.length then .ok { a with value := a.value.take a.size }
    else .error .fault
  else .ok { a with value := cstr a.value }

end Attrval

/-! ## Storing a value -/

/-- The letter of an origin, by its place in the enumeration. -/
def origChar : AttrOrig → UInt8
  | .any => ch 'A'
  | .system => ch 'S'
  | .user => ch 'U'
  | .file => ch 'F'

/-- A string with its colons and backslashes escaped. -/
def escapeColon : Bytes → Bytes
  | [] => []
  | c :: cs =>
    if c = ch ':' then ch '\\' :: ch ':' :: escapeColon cs
    else if c = ch '\\' then ch '\\' :: ch '\\' :: escapeColon cs
    else c :: escapeColon cs

/-- The number an `int` conversion of `printf` prints for a wider argument. -/
def int32 (z : ℤ) : ℤ := z.bmod (2 ^ 32)

/-- Writing `s` behind the `db` a buffer of `cap` bytes holds already; a string
    that is followed by its terminator has one byte less. -/
def store (cap : ℕ) (db s : Bytes) : Exec Bytes :=
  if db.length + s.length ≤ cap then .ok (db ++ s) else .error .fault

/-- The size of the buffer's part for the value, in the arithmetic of `size_t`. -/
def valueRoom (a : Attrval) : ℕ :=
  if a.binary then a.size * 4 % 2 ^ 64 / 3 + 6 else (cstr a.value).length + 1

/-- The header in front of the origin detail. -/
def header (a : Attrval) : Bytes :=
  (if a.binary then ch 'B' else ch 'S') :: ch ':' :: printDec (int32 a.timestamp) ++
    [ch ':', origChar a.origin, ch ':']

/-- What stands in front of the value, and the length of it the source keeps. -/
def storeHeader (cap : ℕ) (a : Attrval) : Exec (Bytes × ℕ) := do
  let db ← store cap [] (header a)
  let db ← store cap db (escapeColon (a.originDetail.getD []))
  let len ← Exec.toInt db.length
  let db ← store cap db [ch ':']
  let len ← Exec.toInt (len + 1)
  return (db, len)

/-- The stored text of a value; `none` is the null pointer the source returns
    when the encoder wants more room. -/
def fbToDbFull (b64 : Base64) (a : Attrval) : Exec (Option Bytes) := do
  let vsize ← Exec.toInt (valueRoom a)
  let cap := 19 + 2 * (a.originDetail.getD []).length + vsize
  let (db, len) ← storeHeader cap a
  if a.binary then
    match b64.encode (a.value.take a.size) (vsize - 1) with
    | none => return none
    | some s =>
      let _ ← Exec.toInt (len + s.length)
      let db ← store (cap - 1) db s
      return some db
  else
    let db ← store (cap - 1) db (cstr a.value)
    return some db

/-! ## Reading a stored value -/

/-- The string up to its first unescaped colon, unescaped, and the number of
    bytes read; a backslash in front of the terminator makes the source read
    behind it. -/
def unescapeColon : Bytes → Exec (Bytes × ℕ)
  | [] => .ok ([], 0)
  | c :: cs =>
    if c = ch ':' then .ok ([], 0)
    else if c = ch '\\' then
      match cs with
      | [] => .error .fault
      | d :: ds => do
        let (out, rd) ← unescapeColon ds
        return (d :: out, rd + 2)
    else do
      let (out, rd) ← unescapeColon cs
      return (c :: out, rd + 1)

/-- The origin with a given letter; `none` when the letter is none of them. -/
def origOfChar (c : UInt8) : Option AttrOrig :=
  [AttrOrig.any, .system, .user, .file].find? fun o => origChar o = c

/-- `atol`: zero when there is no number. -/
def atol (s : Bytes) : ℤ := ((scanDec s).map Prod.fst).getD 0

/-- `atoi`: the number a `long` holds at most or at least, as an `int`. -/
def atoi (s : Bytes) : ℤ := int32 (max (-2 ^ 63) (min (2 ^ 63 - 1) (atol s)))

/-- The byte of a terminated string at an index, which may be its terminator. -/
def byteAt (s : Bytes) (i : ℕ) : Exec UInt8 :=
  if h : i < s.length then .ok s[i] else if i = s.length then .ok 0 else .error .fault

/-- The origin detail from the index `p` on, and the index behind it: none when
    the separator stands there already. -/
def readDetail (str : Bytes) (p : ℕ) : Exec (Option Bytes × ℕ) := do
  let first ← byteAt str p
  if first = ch ':' then return (none, p)
  else
    let (out, rd) ← unescapeColon (str.drop p)
    let p ← Exec.toInt (p + rd)
    return (some out, p)

/-- The value from the index `p` on, put into the attribute read so far. -/
def readValue (b64 : Base64) (str : Bytes) (p : ℕ) (attr : Attrval) : Attrval :=
  if attr.binary then
    match b64.decode (str.drop p) str.length with
    | some v => { attr with value := v, size := v.length }
    -- the source looks for a negative size in a `size_t`, and goes on with
    -- whatever the decoder left in the copy of the text
    | none => { attr with value := str, size := 2 ^ 64 - 1 }
  else { attr with value := str.drop p }

/-- Reads a stored text into the fields of `attr`. -/
def fbFromDb (b64 : Base64) (str : Bytes) (attr : Attrval) : Exec Attrval := do
  let kind ← byteAt str 0
  if kind ≠ ch 'B' ∧ kind ≠ ch 'S' then throw (.errno .EINVAL)
  -- `strchr` starts behind the terminator of a string of one byte
  if str.length < 2 then throw .fault
  let field := (str.drop 2).takeWhile (· ≠ ch ':')
  if 2 + field.length = str.length then throw (.errno .EINVAL)
  let p ← Exec.toInt (2 + field.length + 1)
  let letter ← byteAt str p
  match origOfChar letter with
  | none => throw (.errno .EINVAL)
  | some origin =>
    let p ← Exec.toInt (p + 2)
    let (originDetail, p) ← readDetail str p
    let sep ← byteAt str p
    if sep ≠ ch ':' then throw (.errno .EINVAL)
    let p ← Exec.toInt (p + 1)
    return readValue b64 str p
      { attr with binary := kind == ch 'B', origin, originDetail, timestamp := atol field }

/-! ## The layout of a stored text -/

section Layout

variable {b64 : Base64} {a : Attrval}

/-- The text of a value as it is laid out, with a given payload. -/
def layout (a : Attrval) (payload : Bytes) : Bytes :=
  header a ++ (escapeColon (a.originDetail.getD []) ++ ch ':' :: payload)

/-- The length of the layout in front of the payload. -/
def layoutLength (a : Attrval) : ℕ :=
  (header a).length + (escapeColon (a.originDetail.getD [])).length + 1

theorem layout_eq_append (a : Attrval) (payload : Bytes) : layout a payload =
    (header a ++ escapeColon (a.originDetail.getD []) ++ [ch ':']) ++ payload := by
  simp [layout]

theorem length_layoutPrefix (a : Attrval) :
    (header a ++ escapeColon (a.originDetail.getD []) ++ [ch ':']).length = layoutLength a := by
  simp only [layoutLength, List.length_append, List.length_cons, List.length_nil]

theorem length_layout (a : Attrval) (payload : Bytes) :
    (layout a payload).length = layoutLength a + payload.length := by
  simp only [layout, layoutLength, List.length_append, List.length_cons]
  omega

theorem byteAt_append (xs : Bytes) (c : UInt8) (ys : Bytes) :
    byteAt (xs ++ c :: ys) xs.length = .ok c := by
  simp [byteAt]

theorem byteAt_drop {s : Bytes} {n : ℕ} (hn : n ≤ s.length) (i : ℕ) :
    byteAt s (n + i) = byteAt (s.drop n) i := by
  simp only [byteAt, List.getElem_drop, List.length_drop]
  split_ifs <;> first | rfl | omega

theorem origOfChar_origChar (o : AttrOrig) : origOfChar (origChar o) = some o := by
  cases o <;> decide

theorem length_escapeColon_le (s : Bytes) : (escapeColon s).length ≤ 2 * s.length := by
  induction s with
  | nil => simp [escapeColon]
  | cons c s ih => unfold escapeColon; split_ifs <;> simp <;> omega

theorem unescapeColon_colon (rest : Bytes) : unescapeColon (ch ':' :: rest) = .ok ([], 0) := by
  rw [unescapeColon.eq_def]
  exact if_pos rfl

theorem unescapeColon_escaped (d : UInt8) (rest : Bytes) :
    unescapeColon (ch '\\' :: d :: rest) =
      unescapeColon rest >>= fun r => .ok (d :: r.1, r.2 + 2) := by
  rw [unescapeColon, if_neg (by decide), if_pos rfl]
  rfl

theorem unescapeColon_plain {c : UInt8} (h : c ≠ ch ':') (h' : c ≠ ch '\\') (rest : Bytes) :
    unescapeColon (c :: rest) = unescapeColon rest >>= fun r => .ok (c :: r.1, r.2 + 1) := by
  rw [unescapeColon.eq_def]
  simp only [if_neg h, if_neg h']
  rfl

/-- Unescaping reads back what was escaped, up to the colon behind it. -/
theorem unescapeColon_escapeColon (s rest : Bytes) :
    unescapeColon (escapeColon s ++ ch ':' :: rest) = .ok (s, (escapeColon s).length) := by
  induction s with
  | nil => exact unescapeColon_colon rest
  | cons c s ih =>
    unfold escapeColon
    split_ifs with h h'
    · simp [unescapeColon_escaped, ih, h]
    · simp [unescapeColon_escaped, ih, h']
    · simp [unescapeColon_plain h h', ih]

/-- An escaped string does not start with a colon. -/
theorem escapeColon_head {s : Bytes} (hs : s ≠ []) :
    ∃ c cs, escapeColon s = c :: cs ∧ c ≠ ch ':' := by
  have hne : ch '\\' ≠ ch ':' := by decide
  cases s with
  | nil => exact absurd rfl hs
  | cons c s =>
    unfold escapeColon
    split_ifs with h h'
    exacts [⟨_, _, rfl, hne⟩, ⟨_, _, rfl, hne⟩, ⟨_, _, rfl, h⟩]

/-- Reading the origin detail of a layout, put at the index `p`. -/
theorem readDetail_layout {str payload : Bytes} {p : ℕ} {d : Option Bytes} (hd : d ≠ some [])
    (hp : str.drop p = escapeColon (d.getD []) ++ ch ':' :: payload) (hps : p ≤ str.length)
    (hl : p + (escapeColon (d.getD [])).length < 2 ^ 31) :
    readDetail str p = .ok (d, p + (escapeColon (d.getD [])).length) := by
  have hfirst : byteAt str p = byteAt (escapeColon (d.getD []) ++ ch ':' :: payload) 0 := by
    rw [← hp, ← byteAt_drop hps, Nat.add_zero]
  cases d with
  | none =>
    have hfirst : byteAt str p = .ok (ch ':') := by
      rw [hfirst]
      rfl
    rw [readDetail, hfirst, Exec.ok_bind, if_pos rfl]
    rfl
  | some d =>
    obtain ⟨c, cs, hc, hne⟩ := escapeColon_head (s := d) fun h => hd (h ▸ rfl)
    have hfirst : byteAt str p = .ok c := by
      rw [hfirst, Option.getD_some, hc]
      rfl
    rw [Option.getD_some] at hp hl
    rw [readDetail, hfirst, Exec.ok_bind, if_neg hne, hp, unescapeColon_escapeColon, Exec.ok_bind]
    simp only [Exec.toInt_of_lt hl]
    rfl

/-- Reading the layout of a value: every field is found where it was put, and
    only the payload is left to convert. -/
theorem fbFromDb_layout (a attr : Attrval) {payload : Bytes} (hd : a.originDetail ≠ some [])
    (ht : int32 a.timestamp = a.timestamp) (hl : layoutLength a < 2 ^ 31) :
    fbFromDb b64 (layout a payload) attr = .ok (readValue b64 (layout a payload) (layoutLength a)
      { a with name := attr.name, value := attr.value, size := attr.size }) := by
  have hD : ∀ b ∈ printDec (int32 a.timestamp), decide (b ≠ ch ':') = true := fun b hb => by
    rw [decide_eq_true_iff]
    rintro rfl
    exact notMem_printDec (by decide) (by decide) hb
  set D := printDec (int32 a.timestamp) with hDdef
  set esc := escapeColon (a.originDetail.getD []) with hesc
  set K := if a.binary then ch 'B' else ch 'S' with hK
  have hstr : layout a payload =
      K :: ch ':' :: (D ++ ch ':' :: origChar a.origin :: ch ':' :: (esc ++ ch ':' :: payload)) := by
    simp [layout, header, ← hDdef, ← hesc, ← hK]
  have hlen : layoutLength a = 2 + D.length + 1 + 2 + esc.length + 1 := by
    simp only [layoutLength, header, List.length_append, List.length_cons, List.length_nil, ← hDdef,
      ← hesc]
    omega
  have hK' : (K == ch 'B') = a.binary := by
    cases h : a.binary
    · simp only [hK, h]
      decide
    · simp only [hK, h, if_true, beq_self_eq_true]
  have hKind : ¬(K ≠ ch 'B' ∧ K ≠ ch 'S') := by
    cases h : a.binary <;> simp [hK, h]
  have hb0 : byteAt (layout a payload) 0 = .ok K := by
    rw [hstr]
    rfl
  have hl0 : ¬(layout a payload).length < 2 := by rw [length_layout]; omega
  have hl1 : ¬2 + D.length = (layout a payload).length := by rw [length_layout]; omega
  have hfield : ((layout a payload).drop 2).takeWhile (· ≠ ch ':') = D := by
    rw [hstr]
    simp only [List.drop_succ_cons, List.drop_zero]
    rw [List.takeWhile_append_of_pos hD]
    simp
  have hletter : byteAt (layout a payload) (2 + D.length + 1) = .ok (origChar a.origin) := by
    have := byteAt_append (K :: ch ':' :: (D ++ [ch ':'])) (origChar a.origin)
      (ch ':' :: (esc ++ ch ':' :: payload))
    rw [hstr]
    convert this using 2
    · simp
    · simp; omega
  have hdrop : (layout a payload).drop (2 + D.length + 1 + 2) = esc ++ ch ':' :: payload := by
    rw [hstr, show 2 + D.length + 1 + 2 =
      (K :: ch ':' :: (D ++ [ch ':', origChar a.origin, ch ':'])).length by simp; omega]
    convert List.drop_left using 2
    simp
  have hps : 2 + D.length + 1 + 2 ≤ (layout a payload).length := by rw [length_layout]; omega
  have hsep : byteAt (layout a payload) (2 + D.length + 1 + 2 + esc.length) = .ok (ch ':') := by
    rw [byteAt_drop hps, hdrop, byteAt_append]
  have hts : atol D = a.timestamp := by
    have hscan : scanDec (D ++ []) = some (int32 a.timestamp, []) := scanDec_printDec _ (by simp)
    rw [List.append_nil] at hscan
    rw [atol, hscan, Option.map_some, Option.getD_some, ht]
  rw [fbFromDb, hb0]
  simp only [Exec.ok_bind, if_neg hKind, if_neg hl0, hfield, if_neg hl1, hletter,
    Exec.toInt_of_lt (show 2 + D.length + 1 < 2 ^ 31 by omega),
    Exec.toInt_of_lt (show 2 + D.length + 1 + 2 < 2 ^ 31 by omega), origOfChar_origChar,
    readDetail_layout hd hdrop hps (show 2 + D.length + 1 + 2 + esc.length < 2 ^ 31 by omega)]
  rw [← hesc, hsep]
  simp only [Exec.ok_bind, ne_eq, not_true_eq_false, if_false, hK', hts, hlen,
    Exec.toInt_of_lt (show 2 + D.length + 1 + 2 + esc.length + 1 < 2 ^ 31 by omega)]
  rfl

/-- The sizes the source keeps in an `int` fit one. -/
def Fits (a : Attrval) : Prop :=
  (if a.binary then a.size * 4 / 3 + 6 else a.value.length + 1) < 2 ^ 31 ∧
    layoutLength a + (if a.binary then base64Length a.size else 0) < 2 ^ 31

instance (a : Attrval) : Decidable (Fits a) := inferInstanceAs (Decidable (_ ∧ _))

/-- The header is as short as the source's buffer size assumes. -/
theorem length_header_le (a : Attrval) : (header a).length ≤ 16 := by
  have h : (printDec (int32 a.timestamp)).length ≤ 11 := by
    have hlo : -2 ^ 31 ≤ int32 a.timestamp := Int.le_bmod (by norm_num)
    have hhi : int32 a.timestamp < 2 ^ 31 := Int.bmod_lt (by norm_num)
    generalize int32 a.timestamp = z at hlo hhi
    cases z with
    | ofNat n => exact (length_printNat_le (by rw [Int.ofNat_eq_natCast] at hhi; omega)).trans (by decide)
    | negSucc n => exact Nat.succ_le_succ (length_printNat_le (by rw [Int.negSucc_eq] at hlo; omega))
  simp only [header, List.length_append, List.length_cons, List.length_nil]
  omega

theorem store_eq_ok {cap : ℕ} {db s r : Bytes} :
    store cap db s = .ok r ↔ db.length + s.length ≤ cap ∧ db ++ s = r := by
  unfold store
  split <;> simp [*]

theorem storeHeader_eq_ok {cap : ℕ} (hc : 17 + 2 * (a.originDetail.getD []).length ≤ cap)
    {r : Bytes × ℕ} : storeHeader cap a = .ok r ↔ layoutLength a < 2 ^ 31 ∧
      (header a ++ escapeColon (a.originDetail.getD []) ++ [ch ':'], layoutLength a) = r := by
  have hh := length_header_le a
  have he := length_escapeColon_le (a.originDetail.getD [])
  simp only [storeHeader, Exec.bind_eq_ok, store_eq_ok, Exec.toInt_eq_ok, layoutLength]
  constructor
  · rintro ⟨_, ⟨-, rfl⟩, _, ⟨-, rfl⟩, _, ⟨-, rfl⟩, _, ⟨-, rfl⟩, _, ⟨hl, rfl⟩, hr⟩
    simp only [List.nil_append, List.length_append] at hl hr ⊢
    exact ⟨hl, Except.ok.inj hr⟩
  · rintro ⟨hl, rfl⟩
    refine ⟨_, ⟨?_, rfl⟩, _, ⟨?_, rfl⟩, _, ⟨?_, rfl⟩, _, ⟨?_, rfl⟩, _, ⟨?_, rfl⟩, ?_⟩
    all_goals simp only [List.nil_append, List.length_append, List.length_cons, List.length_nil]
    all_goals first | omega | rfl

/-- A value is stored exactly when its sizes fit, in the layout, the payload
    being the string itself. -/
theorem fbToDbFull_string (ha : a.WellFormed) (hbin : a.binary = false) {r : Option Bytes} :
    fbToDbFull b64 a = .ok r ↔ Fits a ∧ some (layout a a.value) = r := by
  have hroom : valueRoom a = a.value.length + 1 := by
    simp [valueRoom, hbin, cstr_eq_self (ha.value_nul hbin)]
  have hh := length_header_le a
  have he := length_escapeColon_le (a.originDetail.getD [])
  simp only [fbToDbFull, hroom, hbin, Exec.bind_eq_ok, Exec.toInt_eq_ok, store_eq_ok, Fits,
    cstr_eq_self (ha.value_nul hbin), Bool.false_eq_true, if_false, Nat.add_zero]
  constructor
  · rintro ⟨_, ⟨hv, rfl⟩, _, hs, _, ⟨-, rfl⟩, hr⟩
    obtain ⟨hl, rfl⟩ := (storeHeader_eq_ok (by omega)).1 hs
    refine ⟨⟨hv, hl⟩, ?_⟩
    rw [← Except.ok.inj hr, layout]
    simp
  · rintro ⟨⟨hv, hl⟩, rfl⟩
    refine ⟨_, ⟨hv, rfl⟩, _, (storeHeader_eq_ok (by omega)).2 ⟨hl, rfl⟩, _, ⟨?_, rfl⟩, ?_⟩
    · simp only [List.length_append, List.length_cons, List.length_nil]
      omega
    · simp [layout, pure, Except.pure]

/-- The same for a binary value, its payload being the text of its bytes. -/
theorem fbToDbFull_binary (hb : b64.Lawful) (ha : a.WellFormed) (hbin : a.binary = true)
    {db : Bytes} : fbToDbFull b64 a = .ok (some db) ↔ Fits a ∧
      ∃ s, b64.encode a.value (a.size * 4 / 3 + 5) = some s ∧ layout a s = db := by
  have hsize := ha.value_size hbin
  have hh := length_header_le a
  have he := length_escapeColon_le (a.originDetail.getD [])
  simp only [fbToDbFull, hbin, Exec.bind_eq_ok, Exec.toInt_eq_ok, Fits, if_true,
    valueRoom, ← hsize, List.take_length]
  constructor
  · rintro ⟨_, ⟨hv, rfl⟩, _, hs, hr⟩
    obtain ⟨hl, rfl⟩ := (storeHeader_eq_ok (by omega)).1 hs
    cases he : b64.encode a.value (a.value.length * 4 % 2 ^ 64 / 3 + 6 - 1) with
    | none =>
      rw [he] at hr
      cases hr
    | some s =>
      -- the text found room, so the size has not wrapped around
      have hlen := hb.length_encode he
      have hroom := hb.length_le_room he
      have hw : a.value.length * 4 % 2 ^ 64 = a.value.length * 4 :=
        Nat.mod_eq_of_lt (by simp only [base64Length] at hlen; omega)
      rw [hw] at he hv
      simp only [hw, he, Exec.bind_eq_ok, Exec.toInt_eq_ok, store_eq_ok] at hr
      obtain ⟨_, ⟨ht, -⟩, _, ⟨-, rfl⟩, hr⟩ := hr
      refine ⟨⟨hv, hlen ▸ ht⟩, s, he, ?_⟩
      rw [← Option.some.inj (Except.ok.inj hr), layout]
      simp
  · rintro ⟨⟨hv, hl⟩, s, hs, rfl⟩
    have hlen := hb.length_encode hs
    have hw : a.value.length * 4 % 2 ^ 64 = a.value.length * 4 := Nat.mod_eq_of_lt (by omega)
    have hv' : a.value.length * 4 % 2 ^ 64 / 3 + 6 < 2 ^ 31 := by
      rw [hw]
      exact hv
    refine ⟨_, ⟨hv', rfl⟩, _, (storeHeader_eq_ok (by omega)).2 ⟨by omega, rfl⟩, ?_⟩
    simp only [hw, show a.value.length * 4 / 3 + 6 - 1 =
      a.value.length * 4 / 3 + 5 from rfl, hs, Exec.bind_eq_ok, Exec.toInt_eq_ok, store_eq_ok]
    refine ⟨_, ⟨hlen ▸ hl, rfl⟩, _, ⟨?_, rfl⟩, ?_⟩
    · simp only [List.length_append, List.length_cons, List.length_nil, hlen, base64Length]
      omega
    · simp [layout, pure, Except.pure]

end Layout

/-! ## Storing and reading back -/

/-- Storing a value and reading the text, into any attribute, gives the value
    back. -/
def RoundTrips (b64 : Base64) (a : Attrval) : Prop :=
  ∀ attr, ∃ db a', fbToDbFull b64 a = .ok (some db) ∧ fbFromDb b64 db attr = .ok a' ∧
    a'.binary = a.binary ∧ a'.timestamp = a.timestamp ∧ a'.origin = a.origin ∧
    a'.originDetail = a.originDetail ∧ a'.value = a.value ∧ (a.binary = true → a'.size = a.size)

/-- The time of a value that fits an `int` is printed as it is. -/
theorem int32_eq_self {z : ℤ} (h : -2 ^ 31 ≤ z) (h' : z < 2 ^ 31) : int32 z = z :=
  Int.bmod_eq_of_le_mul_two (by push_cast; omega) (by push_cast; omega)

/-- A number that fits is read back. -/
theorem atoi_printNat {n : ℕ} (h : n < 2 ^ 31) : atoi (printNat n) = n := by
  have hscan : scanDec (printNat n ++ []) = some ((n : ℤ), []) := by
    rw [scanDec_append (printNat_ne_nil n) (fun b => isDigit_of_mem_printNat)
      (by rintro b ⟨⟩), digitsValue_printNat]
  rw [List.append_nil] at hscan
  rw [atoi, atol, hscan, Option.map_some, Option.getD_some, min_eq_right (by omega),
    max_eq_right (by omega), int32_eq_self (by omega) (by omega)]

/-- A value comes back from its stored text exactly when the sizes the source
    keeps in an `int` fit one. -/
theorem roundTrips_iff_fits {b64 : Base64} (hb : b64.Lawful) {a : Attrval} (ha : a.WellFormed)
    (hd : a.originDetail ≠ some []) (ht : -2 ^ 31 ≤ a.timestamp) (ht' : a.timestamp < 2 ^ 31) :
    RoundTrips b64 a ↔ Fits a := by
  have hts := int32_eq_self ht ht'
  have hdrop : ∀ payload, (layout a payload).drop (layoutLength a) = payload := fun payload => by
    rw [layout_eq_append]
    exact List.drop_left' (length_layoutPrefix a)
  cases hbin : a.binary with
  | false =>
    constructor
    · intro h
      obtain ⟨db, _, hdb, -⟩ := h a
      exact ((fbToDbFull_string ha hbin).1 hdb).1
    · intro hf attr
      have hl : layoutLength a < 2 ^ 31 := lt_of_le_of_lt (Nat.le_add_right _ _) hf.2
      refine ⟨_, _, (fbToDbFull_string ha hbin).2 ⟨hf, rfl⟩, fbFromDb_layout a attr hd hts hl, ?_⟩
      simp [readValue, hbin, hdrop]
  | true =>
    constructor
    · intro h
      obtain ⟨db, _, hdb, -⟩ := h a
      exact ((fbToDbFull_binary hb ha hbin).1 hdb).1
    · intro hf attr
      have hl : layoutLength a < 2 ^ 31 := lt_of_le_of_lt (Nat.le_add_right _ _) hf.2
      have hsize := ha.value_size hbin
      -- the encoder has room, and what it wrote decodes into a copy of the whole text
      obtain ⟨s, hs⟩ : ∃ s, b64.encode a.value (a.size * 4 / 3 + 5) = some s := by
        refine Option.ne_none_iff_exists'.1 (hb.encode_ne_none ?_)
        rw [hsize, base64Length]
        omega
      have hroom : a.value.length ≤ (layout a s).length := by
        rw [length_layout, hb.length_encode hs, base64Length]
        omega
      refine ⟨_, _, (fbToDbFull_binary hb ha hbin).2 ⟨hf, s, hs, rfl⟩,
        fbFromDb_layout a attr hd hts hl, ?_⟩
      simp [readValue, hbin, hdrop, hb.decode_encode _ hs hroom, hsize]

/-- A string value of a given length, without an origin detail. -/
def stringValue (n : ℕ) : Attrval where
  name := ascii "tag"
  value := List.replicate n (ch 'a')
  binary := false
  size := 0
  origin := .user
  originDetail := none
  timestamp := 0

theorem stringValue_wellFormed (n : ℕ) : (stringValue n).WellFormed where
  name_nul := show 0 ∉ ascii "tag" by decide
  value_nul _ h := absurd (List.eq_of_mem_replicate h) (by decide)
  value_size h := absurd h Bool.false_ne_true
  detail_nul _ h := absurd h (by simp [stringValue])

/-- A short value comes back. -/
theorem roundTrips_shortValue : RoundTrips Base64.standard (stringValue 3) :=
  (roundTrips_iff_fits Base64.standard_lawful (stringValue_wellFormed 3) (by decide) (by decide)
    (by decide)).2 (by decide)

theorem RoundTrips.lt_of_stringValue {n : ℕ} (h : RoundTrips Base64.standard (stringValue n)) :
    n + 1 < 2 ^ 31 := by
  obtain ⟨db, _, hdb, -⟩ := h (stringValue n)
  simpa [stringValue] using ((fbToDbFull_string (stringValue_wellFormed n) rfl).1 hdb).1.1

/-- A string of 2^31 - 1 bytes does not: its size with the terminator is no
    `int`. -/
theorem not_roundTrips_stringValue : Base64.standard.Lawful ∧
    (stringValue (2 ^ 31 - 1)).WellFormed ∧ (stringValue (2 ^ 31 - 1)).originDetail = none ∧
    (stringValue (2 ^ 31 - 1)).timestamp = 0 ∧
    ¬RoundTrips Base64.standard (stringValue (2 ^ 31 - 1)) := by
  refine ⟨Base64.standard_lawful, stringValue_wellFormed _, rfl, rfl, fun h => ?_⟩
  exact absurd h.lt_of_stringValue (by norm_num)

end JobProvenance
