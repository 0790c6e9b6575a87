import Mathlib.Data.List.Basic
import Mathlib.Data.List.TakeWhile
import Mathlib.Tactic

/-!
# C strings

Bytes and NUL-terminated strings as a C program handles them: a buffer is a
list of bytes, a string in it is what stands before the first zero byte, and a
string constant of the program text is `ascii "…"`.

* `cstr?` reads the string at the start of a buffer, `none` when no terminator
  stands inside the buffer (`cstr?_append`);
* `CString` is a string that holds no zero byte, the invariant being a field;
* `afterLast` is what `strrchr` finds, `afterFirst` what `strchr` finds, `strtok`
  what the calls of `strtok` find;
* `snprintf` is what printing into a buffer leaves there, `snprintfAt` behind
  what it holds already; printing piece by piece comes to printing at once
  (`snprintfAt_snprintf`);
* `printDec` and `scanDec` are the decimal conversions of `printf` and `scanf`,
  the second inverting the first (`scanDec_printDec`);
* `htonl` and `ntohl` are the four bytes of a number in network byte order and
  the number of four bytes (`ntohl_htonl`).
-/

namespace JobProvenance

/-- The contents of a buffer. -/
abbrev Bytes := List UInt8

/-- Whether a string is one of some others is decided by comparing them. -/
instance Bytes.lawfulBEq : LawfulBEq Bytes := inferInstance

/-- The byte of a character constant. -/
def ch (c : Char) : UInt8 := c.toUInt8

/-- The bytes of a string constant. -/
def ascii (s : String) : Bytes := s.toList.map ch

/-! ## Terminated strings -/

/-- The string at the start of a buffer: the bytes before the first zero byte. -/
def cstr? : Bytes → Option Bytes
  | [] => none
  | b :: bs => if b = 0 then some [] else (cstr? bs).map (b :: ·)

theorem cstr?_append {s : Bytes} (hs : 0 ∉ s) (rest : Bytes) :
    cstr? (s ++ 0 :: rest) = some s := by
  induction s with
  | nil => simp [cstr?]
  | cons b s ih =>
    rw [List.mem_cons, not_or] at hs
    simp [cstr?, Ne.symm hs.1, ih hs.2]

/-- Bytes without a zero are no string. -/
theorem cstr?_eq_none {s : Bytes} (h : 0 ∉ s) : cstr? s = none := by
  induction s with
  | nil => rfl
  | cons b s ih =>
    rw [List.mem_cons, not_or] at h
    rw [cstr?, if_neg (Ne.symm h.1), ih h.2]
    rfl

/-- A string is what stands in front of the first zero. -/
theorem exists_of_cstr? {buf s : Bytes} (h : cstr? buf = some s) :
    0 ∉ s ∧ ∃ rest, buf = s ++ 0 :: rest := by
  induction buf generalizing s with
  | nil => cases h
  | cons b buf ih =>
    rw [cstr?] at h
    split_ifs at h with hb
    · obtain rfl := Option.some.inj h
      exact ⟨List.not_mem_nil, buf, by rw [hb]; rfl⟩
    · obtain ⟨t, ht, rfl⟩ := Option.map_eq_some_iff.1 h
      obtain ⟨hnul, rest, rfl⟩ := ih ht
      exact ⟨fun hmem => (List.mem_cons.1 hmem).elim (fun h => hb h.symm) hnul, rest, rfl⟩

/-- The string a terminated buffer holds, `strdup` of its start. -/
def cstr (s : Bytes) : Bytes := s.takeWhile (· ≠ 0)

theorem cstr_eq_self {s : Bytes} (hs : 0 ∉ s) : cstr s = s :=
  List.takeWhile_eq_self_iff.2 fun b hb => by
    simpa using fun h : b = 0 => hs (h ▸ hb)

/-- A string without its terminator: no byte of it is zero. -/
@[ext]
structure CString where
  /-- The bytes before the terminator. -/
  bytes : Bytes
  nul_notMem : 0 ∉ bytes
  deriving DecidableEq

/-- What is printed for a string that is a null pointer. -/
def nullText : Bytes := ascii "(nil)"

/-! ## Printing into a buffer -/

/-- What `snprintf` leaves in a buffer: the text, or the start of it there is room for. -/
def snprintf (size : ℕ) (text : Bytes) : Bytes := text.take (size - 1)

/-- `snprintf` behind the string in a buffer, with the room that is left. -/
def snprintfAt (size : ℕ) (buf text : Bytes) : Bytes := buf ++ snprintf (size - buf.length) text

/-- Printed one behind the other or at once, the same is left. -/
theorem snprintfAt_snprintf (size : ℕ) (a b : Bytes) :
    snprintfAt size (snprintf size a) b = snprintf size (a ++ b) := by
  rw [snprintfAt, snprintf, snprintf, snprintf, List.take_append, List.length_take]
  congr 2
  omega

theorem snprintf_eq_self_iff {size : ℕ} {text : Bytes} (h : 0 < size) :
    snprintf size text = text ↔ text.length < size := by
  rw [snprintf, List.take_eq_self_iff]
  omega

/-! ## Searching for a byte -/

/-- The rest of a string from the first occurrence of another on. -/
def strstr (needle : Bytes) : Bytes → Option Bytes
  | [] => if needle = [] then some [] else none
  | b :: bs => if needle.isPrefixOf (b :: bs) then some (b :: bs) else strstr needle bs

theorem strstr_of_starts {needle s : Bytes} (h : needle <+: s) : strstr needle s = some s := by
  cases s with
  | nil => exact if_pos (List.prefix_nil.1 h)
  | cons b s => exact if_pos (List.isPrefixOf_iff_prefix.2 h)

theorem strstr_cons {needle s : Bytes} {b : UInt8} (h : ¬needle <+: b :: s) :
    strstr needle (b :: s) = strstr needle s :=
  if_neg fun hp => h (List.isPrefixOf_iff_prefix.1 hp)

theorem infix_of_strstr {needle s t : Bytes} (h : strstr needle s = some t) : needle <:+: s := by
  induction s with
  | nil =>
    rw [strstr] at h
    split_ifs at h with hn
    exact hn ▸ List.infix_rfl
  | cons b s ih =>
    by_cases hp : needle <+: b :: s
    · exact hp.isInfix
    · rw [strstr_cons hp] at h
      exact (ih h).trans (List.suffix_cons b s).isInfix

/-- A string is found where it is a part. -/
theorem isSome_strstr {needle s : Bytes} (h : needle <:+: s) : (strstr needle s).isSome = true := by
  induction s with
  | nil => rw [strstr, if_pos (List.infix_nil.1 h), Option.isSome_some]
  | cons b s ih =>
    by_cases hp : needle <+: b :: s
    · rw [strstr_of_starts hp, Option.isSome_some]
    · rw [strstr_cons hp, ih ((List.infix_cons_iff.1 h).resolve_left hp)]

/-- A string cannot be found where a byte of it is missing. -/
theorem strstr_of_notMem {needle s : Bytes} {b : UInt8} (hb : b ∈ needle) (hs : b ∉ s) :
    strstr needle s = none :=
  Option.eq_none_iff_forall_ne_some.2 fun _ h => hs ((infix_of_strstr h).subset hb)

/-- A part is left out of the search when the string differs from every rest of it. -/
theorem strstr_append {needle a : Bytes}
    (h : ∀ t ∈ a.tails, t = [] ∨ ¬t <+: needle ∧ ¬needle <+: t) (b : Bytes) :
    strstr needle (a ++ b) = strstr needle b := by
  induction a with
  | nil => rfl
  | cons x a ih =>
    rw [List.tails_cons, List.forall_mem_cons] at h
    obtain ⟨hx, ha⟩ := h
    rw [List.cons_append, strstr_cons, ih ha]
    rintro hp
    obtain ⟨hleft, hright⟩ := hx.resolve_left (List.cons_ne_nil x a)
    exact (List.prefix_or_prefix_of_prefix hp (List.prefix_append (x :: a) b)).elim hright hleft

/-- What follows the first `c` of a string (`strchr` plus one). -/
def afterFirst (c : UInt8) (s : Bytes) : Option Bytes :=
  match s.dropWhile (· ≠ c) with
  | [] => none
  | _ :: rest => some rest

/-- What follows the last `c` of a string (`strrchr` plus one). -/
def afterLast (c : UInt8) (s : Bytes) : Option Bytes :=
  if c ∈ s then some (s.reverse.takeWhile (· ≠ c)).reverse else none

theorem notMem_of_afterLast {c : UInt8} {s t : Bytes} (h : afterLast c s = some t) : c ∉ t := by
  unfold afterLast at h
  split at h
  · obtain rfl := Option.some.inj h
    intro hc
    simpa using List.mem_takeWhile_imp (List.mem_reverse.1 hc)
  · cases h

theorem afterLast_append_cons {c : UInt8} {t : Bytes} (h : c ∉ t) (s : Bytes) :
    afterLast c (s ++ c :: t) = some t := by
  have hne : ∀ b ∈ t.reverse, decide (b ≠ c) = true := fun b hb =>
    decide_eq_true fun he => h (he ▸ List.mem_reverse.1 hb)
  rw [afterLast, if_pos (by simp), List.reverse_append, List.reverse_cons, List.append_assoc,
    List.takeWhile_append_of_pos hne]
  simp

theorem exists_of_afterLast {c : UInt8} {s t : Bytes} (h : afterLast c s = some t) :
    ∃ p, s = p ++ c :: t := by
  rw [afterLast] at h
  split_ifs at h with hc
  obtain ⟨p, t', hs, ht'⟩ := List.eq_append_cons_of_mem (List.mem_reverse.2 hc)
  have hs' : s = t'.reverse ++ c :: p.reverse := by
    rw [← List.reverse_reverse s, hs]
    simp
  rw [hs] at h
  have hp : ∀ b ∈ p, decide (b ≠ c) = true := fun b hb => decide_eq_true fun he => ht' (he ▸ hb)
  rw [List.takeWhile_append_of_pos hp] at h
  simp only [ne_eq, decide_not, decide_true, Bool.not_true, Bool.false_eq_true, not_false_eq_true,
    List.takeWhile_cons_of_neg, List.append_nil, Option.some.injEq] at h
  exact ⟨_, h ▸ hs'⟩

/-- Two strings cut at their first `c` agree when the parts before it have no `c`. -/
theorem append_cons_inj {c : UInt8} {a a' b b' : Bytes} (ha : c ∉ a) (ha' : c ∉ a')
    (h : a ++ c :: b = a' ++ c :: b') : a = a' ∧ b = b' := by
  induction a generalizing a' with
  | nil =>
    cases a' with
    | nil => exact ⟨rfl, (List.cons.inj h).2⟩
    | cons x a' => exact absurd ((List.cons.inj h).1 ▸ List.mem_cons_self) ha'
  | cons x a ih =>
    cases a' with
    | nil => exact absurd ((List.cons.inj h).1 ▸ List.mem_cons_self) ha
    | cons y a' =>
      obtain ⟨rfl, ht⟩ := List.cons.inj h
      obtain ⟨rfl, rfl⟩ := ih (fun hc => ha (.tail _ hc)) (fun hc => ha' (.tail _ hc)) ht
      exact ⟨rfl, rfl⟩

/-- The first `c` of a string is where the part without it ends. -/
theorem idxOf?_append_cons {c : UInt8} {s : Bytes} (h : c ∉ s) (rest : Bytes) :
    (s ++ c :: rest).idxOf? c = some s.length := by
  rw [List.idxOf?_eq_some_iff]
  refine ⟨by simp, by simp, fun j hj => ?_⟩
  rw [List.getElem_append_left hj]
  exact fun heq => h (heq ▸ List.getElem_mem hj)

/-! ## Tokens -/

/-- What `strtok` finds, call after call: the parts between the `c`s of a string
    that are not empty. -/
def strtok (c : UInt8) (s : Bytes) : List Bytes := (s.splitOn c).filter (· ≠ [])

theorem strtok_append_cons (c : UInt8) (a b : Bytes) :
    strtok c (a ++ c :: b) = strtok c a ++ strtok c b := by
  rw [strtok, List.splitOn_append_cons_self, List.filter_append, strtok, strtok]

theorem strtok_of_notMem {c : UInt8} {s : Bytes} (h : c ∉ s) :
    strtok c s = [s].filter (· ≠ []) := by
  rw [strtok, List.splitOn_eq_singleton h]

/-- Nothing is found in a string of `c`s. -/
theorem strtok_eq_nil_iff {c : UInt8} {s : Bytes} : strtok c s = [] ↔ ∀ b ∈ s, b = c := by
  induction s with
  | nil => exact iff_of_true (strtok_of_notMem List.not_mem_nil) (List.forall_mem_nil _)
  | cons b s ih =>
    rw [List.forall_mem_cons]
    by_cases hb : b = c
    · have hsplit : strtok c (b :: s) = strtok c [] ++ strtok c s := by
        rw [hb, ← strtok_append_cons, List.nil_append]
      rw [hsplit, strtok_of_notMem List.not_mem_nil, ← ih]
      exact (and_iff_right hb).symm
    · refine iff_of_false ?_ fun h => hb h.1
      -- the string up to the first `c`, which starts with another byte
      obtain ⟨t, ht, hfound⟩ : ∃ t, c ∉ b :: t ∧ strtok c (b :: t) <+: strtok c (b :: s) := by
        by_cases hc : c ∈ s
        · obtain ⟨t, rest, rfl, hct⟩ := List.eq_append_cons_of_mem hc
          refine ⟨t, List.not_mem_cons_of_ne_of_not_mem (Ne.symm hb) hct, ?_⟩
          rw [← List.cons_append, strtok_append_cons]
          exact List.prefix_append _ _
        · exact ⟨s, List.not_mem_cons_of_ne_of_not_mem (Ne.symm hb) hc, List.prefix_rfl⟩
      rw [strtok_of_notMem ht] at hfound
      intro hnil
      rw [hnil] at hfound
      cases List.prefix_nil.1 hfound

/-! ## Letters -/

/-- The lower case letter of a letter of the C locale. -/
def tolower (b : UInt8) : UInt8 := if ch 'A' ≤ b ∧ b ≤ ch 'Z' then b + 32 else b

/-- Whether two strings are the same up to case (`strcasecmp` is zero). -/
def sameIgnoringCase (a b : Bytes) : Bool := a.map tolower = b.map tolower

/-! ## Decimal numbers -/

/-- The decimal digits of a natural number. -/
def printNat (n : ℕ) : Bytes := (Nat.toDigits 10 n).map Char.toUInt8

/-- The text `%d` and `%ld` print. -/
def printDec : ℤ → Bytes
  | .ofNat n => printNat n
  | .negSucc n => ch '-' :: printNat (n + 1)

/-- Whether a byte is a decimal digit. -/
def isDigit (b : UInt8) : Bool := (Char.ofUInt8 b).isDigit

/-- The value of a sequence of decimal digits. -/
def digitsValue (ds : Bytes) : ℕ := Nat.ofDigitChars 10 (ds.map Char.ofUInt8) 0

/-- Whether a byte is white space. -/
def isSpace (b : UInt8) : Bool := b = ch ' ' || (9 ≤ b && b ≤ 13)

/-- The digits at the start of a string as a number, and what follows them;
    `none` when no digit is there. -/
def scanDigits (s : Bytes) : Option (ℕ × Bytes) :=
  if (s.takeWhile isDigit).isEmpty then none
  else some (digitsValue (s.takeWhile isDigit), s.dropWhile isDigit)

/-- The number at the start of a string and what follows it, as `%ld` and `atol`
    read it: white space, an optional sign and digits. -/
def scanDec (s : Bytes) : Option (ℤ × Bytes) :=
  match s.dropWhile isSpace with
  | [] => none
  | b :: bs =>
    if b = ch '-' then (scanDigits bs).map fun r => (-r.1, r.2)
    else if b = ch '+' then (scanDigits bs).map fun r => (r.1, r.2)
    else (scanDigits (b :: bs)).map fun r => (r.1, r.2)

theorem ofUInt8_toUInt8 {c : Char} (hc : c.isDigit) : Char.ofUInt8 c.toUInt8 = c := by
  have hlt : c.val.toNat < 256 := by
    simp only [Char.isDigit, Bool.and_eq_true, decide_eq_true_eq] at hc
    exact (UInt32.le_iff_toNat_le.1 hc.2).trans_lt (by decide)
  refine Char.ext (UInt32.toNat_inj.1 ?_)
  change c.val.toUInt8.toUInt32.toNat = c.val.toNat
  rw [UInt8.toNat_toUInt32, UInt32.toNat_toUInt8, Nat.mod_eq_of_lt hlt]

theorem isDigit_of_mem_printNat {n : ℕ} {b : UInt8} (hb : b ∈ printNat n) : isDigit b := by
  obtain ⟨c, hc, rfl⟩ := List.mem_map.1 hb
  have hd := Nat.isDigit_of_mem_toDigits (by decide) (by decide) hc
  rw [isDigit, ofUInt8_toUInt8 hd]
  exact hd

/-- White space is no digit. -/
theorem isDigit_of_isSpace {b : UInt8} (hb : isSpace b) : isDigit b = false := by
  simp only [isSpace, Bool.or_eq_true, decide_eq_true_eq, Bool.and_eq_true] at hb
  rcases hb with rfl | ⟨-, hb⟩
  · decide
  · rw [isDigit, Char.isDigit, Bool.and_eq_false_iff, decide_eq_false_iff_not]
    refine .inl fun h => ?_
    have h : 48 ≤ b.toNat := UInt32.le_iff_toNat_le.1 h
    have hb : b.toNat ≤ 13 := UInt8.le_iff_toNat_le.1 hb
    omega

theorem printNat_ne_nil (n : ℕ) : printNat n ≠ [] := by
  simp [printNat]

theorem digitsValue_printNat (n : ℕ) : digitsValue (printNat n) = n := by
  have h : (printNat n).map Char.ofUInt8 = Nat.toDigits 10 n := by
    rw [printNat, List.map_map]
    refine (List.map_congr_left fun c hc => ?_).trans (List.map_id _)
    exact ofUInt8_toUInt8 (Nat.isDigit_of_mem_toDigits (by decide) (by decide) hc)
  rw [digitsValue, h, Nat.ofDigitChars_toDigits (by decide) (by decide)]

/-- A number below ten billion has at most ten digits. -/
theorem length_printNat_le {n : ℕ} (hn : n < 10 ^ 10) : (printNat n).length ≤ 10 := by
  rw [printNat, List.length_map]
  exact (Nat.length_toDigits_le_iff (by decide) (by decide)).2 hn

/-- No digit is a zero byte, a minus sign or another byte outside `0 … 9`. -/
theorem notMem_printNat {n : ℕ} {b : UInt8} (hb : isDigit b = false) : b ∉ printNat n := by
  intro h
  rw [isDigit_of_mem_printNat h] at hb
  cases hb

theorem notMem_printDec {z : ℤ} {b : UInt8} (hb : isDigit b = false) (hm : b ≠ ch '-') :
    b ∉ printDec z := by
  cases z with
  | ofNat n => exact notMem_printNat hb
  | negSucc n => exact List.not_mem_cons_of_ne_of_not_mem hm (notMem_printNat hb)

/-- Scanning digits gives their value, and stops right after them. -/
theorem scanDigits_append {ds rest : Bytes} (hne : ds ≠ []) (hds : ∀ b ∈ ds, isDigit b = true)
    (hr : ∀ b ∈ rest.head?, isDigit b = false) :
    scanDigits (ds ++ rest) = some (digitsValue ds, rest) := by
  rw [scanDigits, List.takeWhile_append_of_pos hds, List.dropWhile_append_of_pos hds]
  cases rest with
  | nil => simp [hne]
  | cons b rest => simp [hr b rfl, hne]

theorem scanDec_append {ds rest : Bytes} (hne : ds ≠ []) (hds : ∀ b ∈ ds, isDigit b = true)
    (hr : ∀ b ∈ rest.head?, isDigit b = false) :
    scanDec (ds ++ rest) = some ((digitsValue ds : ℤ), rest) := by
  obtain ⟨b, bs, rfl⟩ := List.exists_cons_of_ne_nil hne
  have hb : isDigit b = true := hds b List.mem_cons_self
  have hne' : ∀ c, isDigit c = false → b ≠ c := by
    rintro c hc rfl
    exact Bool.false_ne_true (hc ▸ hb)
  have hspace : isSpace b = false := by
    rcases Bool.eq_false_or_eq_true (isSpace b) with h | h
    · exact absurd hb (by simp [isDigit_of_isSpace h])
    · exact h
  have hscan := scanDigits_append hne hds hr
  rw [List.cons_append] at hscan
  have hdrop : (b :: (bs ++ rest)).dropWhile isSpace = b :: (bs ++ rest) := by simp [hspace]
  simp only [List.cons_append, scanDec, hdrop,
    if_neg (hne' _ (show isDigit (ch '-') = false by decide)),
    if_neg (hne' _ (show isDigit (ch '+') = false by decide)), hscan, Option.map_some]

/-- Scanning a printed number gives it back, and stops right after it. -/
theorem scanDec_printDec (z : ℤ) {rest : Bytes} (hr : ∀ b ∈ rest.head?, isDigit b = false) :
    scanDec (printDec z ++ rest) = some (z, rest) := by
  have hdigits : ∀ n, ∀ b ∈ printNat n, isDigit b = true := fun n b => isDigit_of_mem_printNat
  cases z with
  | ofNat n =>
    rw [printDec, scanDec_append (printNat_ne_nil n) (hdigits n) hr, digitsValue_printNat]
    rfl
  | negSucc n =>
    have hspace : isSpace (ch '-') = false := by decide
    have hdrop : (ch '-' :: (printNat (n + 1) ++ rest)).dropWhile isSpace =
        ch '-' :: (printNat (n + 1) ++ rest) := by simp [hspace]
    simp only [printDec, List.cons_append, scanDec, hdrop, if_true,
      scanDigits_append (printNat_ne_nil _) (hdigits _) hr, digitsValue_printNat, Option.map_some]
    rfl

/-! ## Network byte order -/

/-- The bytes of a 32-bit number, the most significant first. -/
def htonl (n : ℕ) : Bytes :=
  [UInt8.ofNat (n / 2 ^ 24), UInt8.ofNat (n / 2 ^ 16), UInt8.ofNat (n / 2 ^ 8), UInt8.ofNat n]

/-- The number of some bytes, the most significant first. -/
def ntohl (bs : Bytes) : ℕ := bs.foldl (fun n b => n * 256 + b.toNat) 0

theorem length_htonl (n : ℕ) : (htonl n).length = 4 := rfl

theorem ntohl_lt {bs : Bytes} (h : bs.length = 4) : ntohl bs < 2 ^ 32 := by
  match bs, h with
  | [a, b, c, d], _ =>
    have ha := a.toNat_lt
    have hb := b.toNat_lt
    have hc := c.toNat_lt
    have hd := d.toNat_lt
    simp only [ntohl, List.foldl_cons, List.foldl_nil]
    omega

theorem ntohl_htonl {n : ℕ} (hn : n < 2 ^ 32) : ntohl (htonl n) = n := by
  simp only [ntohl, htonl, List.foldl_cons, List.foldl_nil, UInt8.toNat_ofNat']
  omega

end JobProvenance
