import JobProvenance.Lib.CString

/-!
# Base64

The conversions between bytes and base64 text: `Base64` is the interface a C
library offers (the encoder is given the room in its output buffer, the
decoder too), `Base64.Lawful` what its users rely on, and `Base64.standard` the
encoding with the standard alphabet and `=` padding, which is lawful
(`standard_lawful`).
-/

namespace JobProvenance

/-- A base64 library. -/
structure Base64 where
  /-- The text of some bytes, if it fits a buffer of the given size. -/
  encode : Bytes → ℕ → Option Bytes
  /-- The bytes of a text, if they fit a buffer of the given size. -/
  decode : Bytes → ℕ → Option Bytes

/-- The number of characters the encoding of `n` bytes has. -/
def base64Length (n : ℕ) : ℕ := 4 * ((n + 2) / 3)

/-- What the users of a base64 library rely on. -/
structure Base64.Lawful (b64 : Base64) : Prop where
  encode_ne_none : ∀ {v room}, base64Length v.length < room → b64.encode v room ≠ none
  length_encode : ∀ {v room s}, b64.encode v room = some s → s.length = base64Length v.length
  length_le_room : ∀ {v room s}, b64.encode v room = some s → s.length ≤ room
  nul_notMem : ∀ {v room s}, b64.encode v room = some s → 0 ∉ s
  decode_encode : ∀ {v room s} (room' : ℕ), b64.encode v room = some s → v.length ≤ room' →
    b64.decode s room' = some v

/-- What a caller of the encoder relies on that only wants to know where it writes: it
    does not write more characters than the text has, and has room enough when there
    is more than that. -/
structure Base64.Bounded (b64 : Base64) : Prop where
  encode_ne_none : ∀ {v room}, base64Length v.length < room → b64.encode v room ≠ none
  length_encode_le : ∀ {v room s}, b64.encode v room = some s → s.length ≤ base64Length v.length

theorem Base64.Lawful.bounded {b64 : Base64} (h : b64.Lawful) : b64.Bounded :=
  ⟨h.encode_ne_none, fun hs => (h.length_encode hs).le⟩

namespace Base64

/-- The character of a six-bit number. -/
def char (n : ℕ) : UInt8 :=
  if n < 26 then UInt8.ofNat (65 + n)
  else if n < 52 then UInt8.ofNat (71 + n)
  else if n < 62 then UInt8.ofNat (n - 4)
  else if n = 62 then 43 else 47

/-- The six-bit number of a character. -/
def sextet (c : UInt8) : Option ℕ :=
  let n := c.toNat
  if 65 ≤ n ∧ n ≤ 90 then some (n - 65)
  else if 97 ≤ n ∧ n ≤ 122 then some (n - 71)
  else if 48 ≤ n ∧ n ≤ 57 then some (n + 4)
  else if n = 43 then some 62
  else if n = 47 then some 63
  else none

theorem sextet_char : ∀ n < 64, sextet (char n) = some n ∧ char n ≠ 0 ∧ char n ≠ 61 := by
  decide

/-- The text of some bytes: four characters for each three bytes, the last
    group padded with `=`. -/
def text : Bytes → Bytes
  | a :: b :: c :: rest =>
    char (a.toNat / 4) :: char (a.toNat % 4 * 16 + b.toNat / 16) ::
      char (b.toNat % 16 * 4 + c.toNat / 64) :: char (c.toNat % 64) :: text rest
  | [a, b] => [char (a.toNat / 4), char (a.toNat % 4 * 16 + b.toNat / 16),
      char (b.toNat % 16 * 4), 61]
  | [a] => [char (a.toNat / 4), char (a.toNat % 4 * 16), 61, 61]
  | [] => []

/-- The bytes of a text. -/
def bytes : Bytes → Option Bytes
  | w :: x :: y :: z :: rest => do
    let a ← sextet w
    let b ← sextet x
    if y = 61 ∧ z = 61 ∧ rest = [] then return [UInt8.ofNat (a * 4 + b / 16)]
    let c ← sextet y
    if z = 61 ∧ rest = [] then
      return [UInt8.ofNat (a * 4 + b / 16), UInt8.ofNat (b % 16 * 16 + c / 4)]
    let d ← sextet z
    let tail ← bytes rest
    return UInt8.ofNat (a * 4 + b / 16) :: UInt8.ofNat (b % 16 * 16 + c / 4) ::
      UInt8.ofNat (c % 4 * 64 + d) :: tail
  | [] => some []
  | _ => none

theorem length_text (v : Bytes) : (text v).length = base64Length v.length := by
  fun_induction text v with
  | case1 a b c rest ih => simp only [List.length_cons, ih, base64Length]; omega
  | case2 | case3 | case4 => simp [base64Length]

theorem nul_notMem_text (v : Bytes) : 0 ∉ text v := by
  have h : ∀ n < 64, (0 : UInt8) ≠ char n := fun n hn => (sextet_char n hn).2.1.symm
  fun_induction text v with
  | case1 a b c rest ih =>
    have := a.toNat_lt; have := b.toNat_lt; have := c.toNat_lt
    simp only [List.mem_cons, not_or]
    exact ⟨h _ (by omega), h _ (by omega), h _ (by omega), h _ (by omega), ih⟩
  | case2 a b =>
    have := a.toNat_lt; have := b.toNat_lt
    simp only [List.mem_cons, not_or, List.not_mem_nil, not_false_iff, and_true]
    exact ⟨h _ (by omega), h _ (by omega), h _ (by omega), by decide⟩
  | case3 a =>
    have := a.toNat_lt
    simp only [List.mem_cons, not_or, List.not_mem_nil, not_false_iff, and_true]
    exact ⟨h _ (by omega), h _ (by omega), by decide, by decide⟩
  | case4 => simp

theorem bytes_text (v : Bytes) : bytes (text v) = some v := by
  have hs : ∀ n < 64, sextet (char n) = some n := fun n hn => (sextet_char n hn).1
  have hp : ∀ n < 64, char n ≠ 61 := fun n hn => (sextet_char n hn).2.2
  have hb : ∀ (a : UInt8) (n : ℕ), n = a.toNat → UInt8.ofNat n = a := fun a n hn => by
    rw [hn, UInt8.ofNat_toNat]
  fun_induction text v with
  | case1 a b c rest ih =>
    have := a.toNat_lt; have := b.toNat_lt; have := c.toNat_lt
    simp only [bytes, ih, hs _ (show a.toNat / 4 < 64 by omega),
      hs _ (show a.toNat % 4 * 16 + b.toNat / 16 < 64 by omega),
      hs _ (show b.toNat % 16 * 4 + c.toNat / 64 < 64 by omega),
      hs _ (show c.toNat % 64 < 64 by omega), hp _ (show c.toNat % 64 < 64 by omega),
      false_and, and_false, if_false, Option.bind_eq_bind, Option.bind_some]
    simp only [pure, hb a _ (show a.toNat / 4 * 4 + (a.toNat % 4 * 16 + b.toNat / 16) / 16 =
      a.toNat by omega), hb b _ (show (a.toNat % 4 * 16 + b.toNat / 16) % 16 * 16 +
      (b.toNat % 16 * 4 + c.toNat / 64) / 4 = b.toNat by omega), hb c _
      (show (b.toNat % 16 * 4 + c.toNat / 64) % 4 * 64 + c.toNat % 64 = c.toNat by omega)]
  | case2 a b =>
    have := a.toNat_lt; have := b.toNat_lt
    simp only [bytes, hs _ (show a.toNat / 4 < 64 by omega),
      hs _ (show a.toNat % 4 * 16 + b.toNat / 16 < 64 by omega),
      hs _ (show b.toNat % 16 * 4 < 64 by omega), hp _ (show b.toNat % 16 * 4 < 64 by omega),
      false_and, if_false, if_true, and_self, Option.bind_eq_bind, Option.bind_some]
    simp only [pure, hb a _ (show a.toNat / 4 * 4 + (a.toNat % 4 * 16 + b.toNat / 16) / 16 =
      a.toNat by omega), hb b _ (show (a.toNat % 4 * 16 + b.toNat / 16) % 16 * 16 +
      b.toNat % 16 * 4 / 4 = b.toNat by omega)]
  | case3 a =>
    have := a.toNat_lt
    simp only [bytes, hs _ (show a.toNat / 4 < 64 by omega),
      hs _ (show a.toNat % 4 * 16 < 64 by omega), if_true, and_self, Option.bind_eq_bind,
      Option.bind_some]
    simp only [pure, hb a _ (show a.toNat / 4 * 4 + a.toNat % 4 * 16 / 16 = a.toNat by omega)]
  | case4 => rfl

/-- The standard library: the encoder also wants room for a terminator. -/
def standard : Base64 where
  encode v room := if base64Length v.length < room then some (text v) else none
  decode s room := (bytes s).bind fun v => if v.length ≤ room then some v else none

theorem standard_lawful : standard.Lawful where
  encode_ne_none h := by simp [standard, h]
  length_encode {v room s} h := by
    obtain ⟨-, rfl⟩ : _ ∧ text v = s := by simpa [standard] using h
    exact length_text v
  length_le_room {v room s} h := by
    obtain ⟨hr, rfl⟩ : _ ∧ text v = s := by simpa [standard] using h
    exact (length_text v).trans_le hr.le
  nul_notMem {v room s} h := by
    obtain ⟨-, rfl⟩ : _ ∧ text v = s := by simpa [standard] using h
    exact nul_notMem_text v
  decode_encode {v room s} room' h hr := by
    obtain ⟨-, rfl⟩ : _ ∧ text v = s := by simpa [standard] using h
    simp [standard, bytes_text, hr]

end Base64

end JobProvenance
