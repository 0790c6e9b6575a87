import JobProvenance.Common.Attr
import JobProvenance.Lib.Memory

/-!
# The buffer of a stored value

The text of a value is written into an array whose size is added up beforehand:
the header with a terminator, the escaped origin detail with one, the separator
over it, and the value. What is written here is written cell by cell.

* `fbToDbFullBlock`: the text of a value, with the memory it is written to;
* `escapeColonTo_eq`: escaping writes two cells at most for each byte, and a
  terminator;
* `fbToDbFullBlock_inside`: nothing is written outside the array, and there is a
  text for every origin.
-/

namespace JobProvenance

/-- The letters of the origins, by their numbers. -/
def origChars : Bytes := ascii "ASUF"

/-- The number of an origin. -/
def AttrOrig.number : AttrOrig → ℕ
  | .any => 0
  | .system => 1
  | .user => 2
  | .file => 3

/-- The header in front of the origin detail, with the letter of an origin. -/
def headerWith (letter : UInt8) (a : Attrval) : Bytes :=
  (if a.binary then ch 'B' else ch 'S') :: ch ':' :: printDec (int32 a.timestamp) ++
    [ch ':', letter, ch ':']

/-- Writes a string with its colons and backslashes escaped and a terminator, from a
    cell on: the cell of the terminator. -/
def escapeColonTo (db : Block UInt8) (out : ℕ) : Bytes → Exec (Block UInt8 × ℕ)
  | [] => do
    let db ← db.write out 0
    return (db, out)
  | c :: cs =>
    if c = ch ':' then do
      let db ← db.write out (ch '\\')
      let db ← db.write (out + 1) (ch ':')
      escapeColonTo db (out + 2) cs
    else if c = ch '\\' then do
      let db ← db.write out (ch '\\')
      let db ← db.write (out + 1) (ch '\\')
      escapeColonTo db (out + 2) cs
    else do
      let db ← db.write out c
      escapeColonTo db (out + 1) cs

/-- The origin detail, if there is one, behind the first `len` cells. -/
def detailTo (db : Block UInt8) (len : ℕ) : Option Bytes → Exec (Block UInt8 × ℕ)
  | none => .ok (db, len)
  | some d => do
    let (db, out) ← escapeColonTo db len d
    let len ← Exec.toInt out
    return (db, len)

/-- The number of cells the array gets, in the arithmetic of `size_t`. -/
def dbSize (a : Attrval) (vsize : ℕ) : ℕ := (19 + 2 * (a.originDetail.getD []).length + vsize) % 2 ^ 64

/-- The text of a value with an origin of a number, in the array it is written to;
    `none` is the null pointer. -/
def fbToDbFullBlock (b64 : Base64) (origin : ℕ) (a : Attrval) : Exec (Option (Block UInt8)) := do
  let vsize ← Exec.toInt (valueRoom a)
  match origChars[origin]? with
  | none => return none
  | some letter =>
    let db ← (Block.malloc (dbSize a vsize)).writeAll 0 (headerWith letter a ++ [0])
    let len ← Exec.toInt (headerWith letter a).length
    let (db, len) ← detailTo db len a.originDetail
    let db ← db.write len (ch ':')
    let len ← Exec.toInt (len + 1)
    if a.binary then
      match b64.encode (a.value.take a.size) (vsize - 1) with
      | none => return none
      | some s =>
        let db ← db.writeAll len s
        let last ← Exec.toInt (len + s.length)
        let db ← db.write last 0
        return some db
    else
      let db ← db.writeAll len (cstr a.value ++ [0])
      return some db

section Inside

variable {b64 : Base64} {a : Attrval} {db : Block UInt8} {xs d s : Bytes} {letter : UInt8}
  {origin : ℕ}

/-- Escaping writes two cells at most for each byte, and a terminator. -/
theorem escapeColonTo_eq (h : db.Holds xs) (hle : xs.length + 2 * d.length < db.length) :
    ∃ db', escapeColonTo db xs.length d = .ok (db', (xs ++ escapeColon d).length) ∧
      db'.Holds (xs ++ escapeColon d ++ [0]) ∧ db'.length = db.length := by
  -- two cells are written for a byte that is escaped
  have htwo : ∀ {db : Block UInt8} {xs : Bytes} (x y : UInt8), db.Holds xs →
      xs.length + 1 < db.length → ∃ db₁ db₂, db.write xs.length x = .ok db₁ ∧
        db₁.write (xs.length + 1) y = .ok db₂ ∧ db₂.Holds (xs ++ [x, y]) ∧
          db₂.length = db.length := by
    intro db xs x y h hlt
    obtain ⟨db₁, h₁, hholds₁, hlen₁⟩ := h.write (by omega) x
    obtain ⟨db₂, h₂, hholds₂, hlen₂⟩ := hholds₁.write (by
      rw [List.length_append, List.length_singleton]
      omega) y
    rw [List.length_append, List.length_singleton] at h₂
    rw [List.append_assoc] at hholds₂
    exact ⟨db₁, db₂, h₁, h₂, hholds₂, hlen₂.trans hlen₁⟩
  induction d generalizing db xs with
  | nil =>
    obtain ⟨db', hdb', hholds, hlen⟩ := h.write (by simpa using hle) 0
    rw [escapeColonTo, escapeColon, List.append_nil, hdb']
    exact ⟨db', rfl, hholds, hlen⟩
  | cons c d ih =>
    rw [List.length_cons] at hle
    -- behind what is written for the byte the rest is escaped
    have hrest : ∀ {db₂ : Block UInt8} {w : Bytes}, db₂.Holds (xs ++ w) → db₂.length = db.length →
        w.length ≤ 2 → ∃ db', escapeColonTo db₂ (xs.length + w.length) d =
          .ok (db', (xs ++ (w ++ escapeColon d)).length) ∧
            db'.Holds (xs ++ (w ++ escapeColon d) ++ [0]) ∧ db'.length = db.length := by
      intro db₂ w hw hlen hle'
      obtain ⟨db', hdb', hholds, hlen'⟩ := ih hw (by
        rw [List.length_append, hlen]
        omega)
      rw [List.length_append, List.append_assoc] at hdb'
      rw [List.append_assoc xs w] at hholds
      exact ⟨db', hdb', hholds, hlen'.trans hlen⟩
    rw [escapeColonTo, escapeColon]
    split_ifs with hc hb
    · obtain ⟨db₁, db₂, h₁, h₂, hholds, hlen⟩ := htwo (ch '\\') (ch ':') h (by omega)
      rw [h₁, Exec.ok_bind, h₂, Exec.ok_bind]
      exact hrest hholds hlen le_rfl
    · obtain ⟨db₁, db₂, h₁, h₂, hholds, hlen⟩ := htwo (ch '\\') (ch '\\') h (by omega)
      rw [h₁, Exec.ok_bind, h₂, Exec.ok_bind]
      exact hrest hholds hlen le_rfl
    · obtain ⟨db₁, h₁, hholds, hlen⟩ := h.write (by omega) c
      rw [h₁, Exec.ok_bind]
      exact hrest hholds hlen (by simp)

theorem detailTo_eq {detail : Option Bytes} (h : db.Holds xs)
    (hle : xs.length + 2 * (detail.getD []).length < db.length)
    (hint : xs.length + 2 * (detail.getD []).length < 2 ^ 31) :
    ∃ db', detailTo db xs.length detail =
        .ok (db', (xs ++ escapeColon (detail.getD [])).length) ∧
      db'.Holds (xs ++ escapeColon (detail.getD [])) ∧ db'.length = db.length := by
  cases detail with
  | none => exact ⟨db, by simp [detailTo, escapeColon], by simpa [escapeColon] using h, rfl⟩
  | some d =>
    rw [Option.getD_some] at hle hint ⊢
    obtain ⟨db', hdb', hholds, hlen⟩ := escapeColonTo_eq h hle
    have hesc := length_escapeColon_le d
    refine ⟨db', ?_, hholds.of_append, hlen⟩
    rw [detailTo, hdb', Exec.ok_bind]
    rw [List.length_append]
    exact (congrArg (· >>= _) (Exec.toInt_of_lt (by omega))).trans (Exec.ok_bind _ _)

/-- The text of a value with a letter for its origin and a given payload. -/
def layoutWith (letter : UInt8) (a : Attrval) (payload : Bytes) : Bytes :=
  headerWith letter a ++ escapeColon (a.originDetail.getD []) ++ ch ':' :: payload

theorem length_headerWith_le (letter : UInt8) (a : Attrval) : (headerWith letter a).length ≤ 16 := by
  have h := length_header_le a
  simpa only [header, headerWith, List.length_append, List.length_cons] using h

/-- A value of this size has room for its text, and the encoder has more room than
    it needs. -/
theorem valueRoom_bounds (ha : a.WellFormed) (hv : a.value.length < 2 ^ 28) :
    valueRoom a < 2 ^ 30 ∧ (a.binary = true → base64Length a.value.length + 1 < valueRoom a) ∧
      (a.binary = false → valueRoom a = a.value.length + 1) := by
  cases hb : a.binary with
  | false =>
    have hroom : valueRoom a = a.value.length + 1 := by
      simp [valueRoom, hb, cstr_eq_self (ha.value_nul hb)]
    exact ⟨by omega, fun h => absurd h Bool.false_ne_true, fun _ => hroom⟩
  | true =>
    have hroom : valueRoom a = a.value.length * 4 / 3 + 6 := by
      rw [valueRoom, hb, if_pos rfl, ← ha.value_size hb, Nat.mod_eq_of_lt (by omega)]
    refine ⟨by omega, fun _ => ?_, fun h => absurd h.symm Bool.false_ne_true⟩
    rw [hroom, base64Length]
    omega

/-- What is left to do behind the first `len` cells: the value itself is written. -/
def valueTo (b64 : Base64) (a : Attrval) (db : Block UInt8) (len : ℕ) :
    Exec (Option (Block UInt8)) :=
  if a.binary then
    match b64.encode (a.value.take a.size) (valueRoom a - 1) with
    | none => .ok none
    | some s => do
      let db ← db.writeAll len s
      let last ← Exec.toInt (len + s.length)
      let db ← db.write last 0
      return some db
  else do
    let db ← db.writeAll len (cstr a.value ++ [0])
    return some db

/-- What stands in front of the value. -/
def frontWith (letter : UInt8) (a : Attrval) : Bytes :=
  headerWith letter a ++ escapeColon (a.originDetail.getD []) ++ [ch ':']

theorem layoutWith_eq {payload : Bytes} :
    layoutWith letter a payload = frontWith letter a ++ payload := by
  simp [layoutWith, frontWith]

theorem length_frontWith_le :
    (frontWith letter a).length ≤ 17 + 2 * (a.originDetail.getD []).length := by
  have hH := length_headerWith_le letter a
  have hE := length_escapeColon_le (a.originDetail.getD [])
  simp only [frontWith, List.length_append, List.length_singleton]
  omega

/-- The header, the origin detail and the separator are written one after another, the
    latter two over the terminator of what is in front of them. -/
theorem fbToDbFullBlock_front (ha : a.WellFormed) (hv : a.value.length < 2 ^ 28)
    (hd : (a.originDetail.getD []).length < 2 ^ 28) (hl : origChars[origin]? = some letter) :
    ∃ db, fbToDbFullBlock b64 origin a = valueTo b64 a db (frontWith letter a).length ∧
      db.Holds (frontWith letter a) ∧
      db.length = 19 + 2 * (a.originDetail.getD []).length + valueRoom a := by
  obtain ⟨hroom, -, -⟩ := valueRoom_bounds ha hv
  have hH := length_headerWith_le letter a
  have hE := length_escapeColon_le (a.originDetail.getD [])
  have hsize : dbSize a (valueRoom a) =
      19 + 2 * (a.originDetail.getD []).length + valueRoom a := Nat.mod_eq_of_lt (by omega)
  -- the header with its terminator
  have hle₁ : ([] : Bytes).length + (headerWith letter a ++ [0]).length ≤
      (Block.malloc (dbSize a (valueRoom a)) : Block UInt8).length := by
    simp only [Block.length_malloc, List.length_nil, List.length_append, List.length_singleton]
    omega
  obtain ⟨db₁, h₁, hholds₁, hlen₁⟩ := (Block.holds_malloc _).writeAll hle₁
  rw [Block.length_malloc, hsize] at hlen₁
  rw [List.nil_append] at hholds₁
  -- the origin detail over the terminator, with one of its own
  have hle₂ : (headerWith letter a).length + 2 * (a.originDetail.getD []).length < db₁.length := by
    omega
  obtain ⟨db₂, h₂, hholds₂, hlen₂⟩ := detailTo_eq hholds₁.of_append hle₂ (by omega)
  -- the separator over that
  obtain ⟨db₃, h₃, hholds₃, hlen₃⟩ := hholds₂.write (by
    rw [List.length_append]
    omega) (ch ':')
  rw [List.length_append] at h₃
  have hint : (headerWith letter a).length + (escapeColon (a.originDetail.getD [])).length + 1 <
      2 ^ 31 := by omega
  refine ⟨db₃, ?_, hholds₃, hlen₃.trans (hlen₂.trans hlen₁)⟩
  rw [fbToDbFullBlock, Exec.toInt_of_lt (by omega), Exec.ok_bind, hl]
  simp only [List.length_nil] at h₁
  have hheader : (headerWith letter a).length < 2 ^ 31 := by omega
  simp only [h₁, Exec.ok_bind, Exec.toInt_of_lt hheader, h₂, List.length_append, h₃,
    Exec.toInt_of_lt hint, frontWith, List.length_singleton]
  rfl

/-- A string is written with its terminator. -/
theorem valueTo_string (ha : a.WellFormed) (hbin : a.binary = false) (h : db.Holds xs)
    (hle : xs.length + (a.value.length + 1) ≤ db.length) :
    ∃ db', valueTo b64 a db xs.length = .ok (some db') ∧ db'.Holds (xs ++ a.value ++ [0]) ∧
      db'.length = db.length := by
  have hroom : xs.length + (a.value ++ [0]).length ≤ db.length := by
    rwa [List.length_append, List.length_singleton]
  obtain ⟨db', h', hholds, hlen⟩ := h.writeAll hroom
  refine ⟨db', ?_, by simpa using hholds, hlen⟩
  rw [valueTo, if_neg (by simp [hbin]), cstr_eq_self (ha.value_nul hbin), h']
  rfl

/-- A binary value is encoded, and its text written and terminated. -/
theorem valueTo_binary (ha : a.WellFormed) (hbin : a.binary = true)
    (hs : b64.encode a.value (valueRoom a - 1) = some s) (h : db.Holds xs)
    (hlt : xs.length + s.length < db.length) (hint : xs.length + s.length < 2 ^ 31) :
    ∃ db', valueTo b64 a db xs.length = .ok (some db') ∧ db'.Holds (xs ++ s ++ [0]) ∧
      db'.length = db.length := by
  obtain ⟨db₁, h₁, hholds₁, hlen₁⟩ := h.writeAll hlt.le
  obtain ⟨db₂, h₂, hholds₂, hlen₂⟩ := hholds₁.write (by
    rw [List.length_append]
    omega) 0
  have htake : a.value.take a.size = a.value := by rw [← ha.value_size hbin, List.take_length]
  refine ⟨db₂, ?_, hholds₂, hlen₂.trans hlen₁⟩
  rw [List.length_append] at h₂
  rw [valueTo, if_pos hbin, htake, hs]
  simp only [h₁, Exec.ok_bind, h₂, Exec.toInt_of_lt hint]
  rfl

/-- The array ends up with the text and its terminator, and nothing is written
    outside it. -/
theorem fbToDbFullBlock_eq (hb : b64.Bounded) (ha : a.WellFormed) (hv : a.value.length < 2 ^ 28)
    (hd : (a.originDetail.getD []).length < 2 ^ 28) (hl : origChars[origin]? = some letter) :
    ∃ db payload, fbToDbFullBlock b64 origin a = .ok (some db) ∧
      db.length = 19 + 2 * (a.originDetail.getD []).length + valueRoom a ∧
      db.Holds (layoutWith letter a payload ++ [0]) ∧
      (if a.binary then b64.encode a.value (valueRoom a - 1) = some payload
        else payload = a.value) := by
  obtain ⟨hroom, hbinary, hstring⟩ := valueRoom_bounds ha hv
  obtain ⟨db, hrun, hholds, hlen⟩ := @fbToDbFullBlock_front b64 _ _ _ ha hv hd hl
  have hfront := @length_frontWith_le a letter
  cases hbin : a.binary with
  | false =>
    have hroom' := hstring hbin
    obtain ⟨db', hdb', hholds', hlen'⟩ := @valueTo_string b64 _ _ _ ha hbin hholds (by omega)
    exact ⟨db', a.value, hrun.trans hdb', hlen'.trans hlen, layoutWith_eq ▸ hholds', by simp⟩
  | true =>
    have hneeds := hbinary hbin
    obtain ⟨s, hs⟩ : ∃ s, b64.encode a.value (valueRoom a - 1) = some s :=
      Option.ne_none_iff_exists'.1 (hb.encode_ne_none (by omega))
    have hslen := hb.length_encode_le hs
    obtain ⟨db', hdb', hholds', hlen'⟩ := valueTo_binary ha hbin hs hholds (by omega) (by omega)
    exact ⟨db', s, hrun.trans hdb', hlen'.trans hlen, layoutWith_eq ▸ hholds', by simpa using hs⟩

/-- Nothing is written outside the array: there is a text for every origin, and the
    null pointer only where there is none; and the encoder is given more room than it
    needs. -/
theorem fbToDbFullBlock_inside (hb : b64.Bounded) (ha : a.WellFormed)
    (hv : a.value.length < 2 ^ 28) (hd : (a.originDetail.getD []).length < 2 ^ 28)
    (origin : ℕ) :
    (origin ≤ 3 → ∃ db, fbToDbFullBlock b64 origin a = .ok (some db) ∧
      db.length = 19 + 2 * (a.originDetail.getD []).length + valueRoom a) ∧
    (3 < origin → fbToDbFullBlock b64 origin a = .ok none) ∧
    (a.binary = true → base64Length a.size < valueRoom a - 1) := by
  obtain ⟨hroom, hbinary, -⟩ := valueRoom_bounds ha hv
  refine ⟨fun ho => ?_, fun ho => ?_, fun hbin => ?_⟩
  · have hlt : origin < origChars.length := ho.trans_lt (by decide)
    obtain ⟨db, payload, hdb, hlen, -⟩ :=
      fbToDbFullBlock_eq hb ha hv hd (List.getElem?_eq_getElem hlt)
    exact ⟨db, hdb, hlen⟩
  · have hnone : origChars[origin]? = none := List.getElem?_eq_none (show 4 ≤ origin from ho)
    rw [fbToDbFullBlock, Exec.toInt_of_lt (by omega), Exec.ok_bind, hnone]
    rfl
  · have := hbinary hbin
    rw [← ha.value_size hbin]
    omega

theorem origChars_number (o : AttrOrig) : origChars[o.number]? = some (origChar o) := by
  cases o <;> rfl

/-- What the array holds is the text that is stored. -/
theorem fbToDbFull_of_block (hb : b64.Bounded) (ha : a.WellFormed) (hv : a.value.length < 2 ^ 28)
    (hd : (a.originDetail.getD []).length < 2 ^ 28) :
    ∃ db text, fbToDbFullBlock b64 a.origin.number a = .ok (some db) ∧ db.Holds (text ++ [0]) ∧
      fbToDbFull b64 a = .ok (some text) := by
  obtain ⟨db, payload, hdb, -, hholds, hpayload⟩ :=
    fbToDbFullBlock_eq hb ha hv hd (origChars_number a.origin)
  refine ⟨db, _, hdb, hholds, ?_⟩
  obtain ⟨hroom, hbinary, hstring⟩ := valueRoom_bounds ha hv
  have hE := length_escapeColon_le (a.originDetail.getD [])
  have hH := length_header_le a
  have hlayout : layoutLength a < 2 ^ 31 := by
    rw [layoutLength]
    omega
  have htext : layoutWith (origChar a.origin) a payload =
      header a ++ escapeColon (a.originDetail.getD []) ++ [ch ':'] ++ payload := by
    rw [layoutWith, List.append_assoc _ [ch ':']]
    rfl
  have hheader := (@storeHeader_eq_ok a
    (19 + 2 * (a.originDetail.getD []).length + valueRoom a) (by omega) _).2 ⟨hlayout, rfl⟩
  rw [fbToDbFull, Exec.toInt_of_lt (by omega), Exec.ok_bind, htext]
  cases hbin : a.binary with
  | false =>
    rw [hbin] at hpayload
    obtain rfl : payload = a.value := hpayload
    have hroom' := hstring hbin
    have hstore := (@store_eq_ok (19 + 2 * (a.originDetail.getD []).length + valueRoom a - 1)
      (header a ++ escapeColon (a.originDetail.getD []) ++ [ch ':']) a.value _).2
        ⟨by simp only [List.length_append, List.length_singleton]; omega, rfl⟩
    simp only [hheader, Bool.false_eq_true, if_false, cstr_eq_self (ha.value_nul hbin), hstore,
      Exec.ok_bind]
    rfl
  | true =>
    rw [hbin, if_pos rfl] at hpayload
    have hlen := hb.length_encode_le hpayload
    have hneeds := hbinary hbin
    have hlast : layoutLength a + payload.length < 2 ^ 31 := by
      rw [layoutLength]
      omega
    have htake : a.value.take a.size = a.value := by rw [← ha.value_size hbin, List.take_length]
    have hstore := (@store_eq_ok (19 + 2 * (a.originDetail.getD []).length + valueRoom a - 1)
      (header a ++ escapeColon (a.originDetail.getD []) ++ [ch ':']) payload _).2
        ⟨by simp only [List.length_append, List.length_singleton]; omega, rfl⟩
    simp only [hheader, if_true, htake, hpayload, Exec.toInt_of_lt hlast, hstore, Exec.ok_bind]
    rfl

end Inside

/-- The text of a short string is written inside its array. -/
theorem fbToDbFullBlock_inside_short :
    ∃ db, fbToDbFullBlock Base64.standard 2 (stringValue 3) = .ok (some db) ∧ db.length = 23 := by
  obtain ⟨db, hdb, hlen⟩ := (fbToDbFullBlock_inside Base64.standard_lawful.bounded
    (stringValue_wellFormed 3) (by decide) (by decide) 2).1 (by decide)
  exact ⟨db, hdb, hlen⟩

end JobProvenance
