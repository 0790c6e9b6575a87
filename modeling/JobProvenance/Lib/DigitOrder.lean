import JobProvenance.Lib.CString

/-!
# The order of decimal texts

Texts are compared byte by byte, also when they are numbers. The digits in front
of the first other byte then count as if they stood behind the decimal point,
`10` before `9`, and of two texts with equal fractions the shorter comes first.

* `asFraction`: the value of digits behind the point;
* `compare_digits`: the order of two texts that start with digits.
-/

namespace JobProvenance

variable {as bs r r' : Bytes} {a b : UInt8}

/-- The order of two strings. -/
def strcmp (a b : Bytes) : Ordering := compare a b

theorem strcmp_eq_iff {a b : Bytes} : strcmp a b = .eq ↔ a = b := Std.compare_eq_iff_eq

/-- The value of a decimal digit. -/
def digitValue (b : UInt8) : ℕ := b.toNat - 48

/-- The value of digits behind the decimal point. -/
def asFraction (ds : Bytes) : ℚ := digitsValue ds / 10 ^ ds.length

/-- Whether some digits come before others: by their values behind the point, the
    shorter of equal ones first. -/
def DigitsLess (as bs : Bytes) : Prop :=
  asFraction as < asFraction bs ∨ asFraction as = asFraction bs ∧ as.length < bs.length

instance : DecidableRel DigitsLess := fun _ _ => inferInstanceAs (Decidable (_ ∨ _))

theorem isDigit_iff : isDigit b = true ↔ 48 ≤ b.toNat ∧ b.toNat ≤ 57 := by
  rw [isDigit, Char.isDigit, Bool.and_eq_true, decide_eq_true_eq, decide_eq_true_eq]
  exact and_congr UInt32.le_iff_toNat_le UInt32.le_iff_toNat_le

theorem digitsValue_cons (b : UInt8) (bs : Bytes) :
    digitsValue (b :: bs) = digitValue b * 10 ^ bs.length + digitsValue bs := by
  rw [digitsValue, List.map_cons, Nat.ofDigitChars_cons, Nat.ofDigitChars_eq_ofDigitChars_zero,
    List.length_map]
  rw [Nat.mul_zero, Nat.zero_add, Nat.mul_comm]
  rfl

theorem asFraction_nil : asFraction [] = 0 := by
  simp [asFraction, digitsValue]

theorem asFraction_cons (b : UInt8) (bs : Bytes) :
    asFraction (b :: bs) = (digitValue b + asFraction bs) / 10 := by
  rw [asFraction, asFraction, digitsValue_cons, List.length_cons]
  push_cast
  field_simp
  ring

/-- Digits behind the point are less than one. -/
theorem asFraction_mem (h : ∀ b ∈ bs, isDigit b = true) : 0 ≤ asFraction bs ∧ asFraction bs < 1 := by
  induction bs with
  | nil => simp [asFraction_nil]
  | cons b bs ih =>
    rw [List.forall_mem_cons] at h
    obtain ⟨h₀, h₁⟩ := ih h.2
    have hdigit : (digitValue b : ℚ) ≤ 9 := by
      have := (isDigit_iff.1 h.1).2
      have : digitValue b ≤ 9 := by
        rw [digitValue]
        omega
      exact_mod_cast this
    rw [asFraction_cons]
    constructor
    · positivity
    · linarith

/-- A byte that is less than another comes before it. -/
theorem compare_of_toNat_lt (h : a.toNat < b.toNat) : compare a b = .lt ∧ compare b a = .gt := by
  have hlt : compare a b = .lt := Std.compare_eq_lt.2 (UInt8.lt_iff_toNat_lt.2 h)
  refine ⟨hlt, ?_⟩
  rw [Std.OrientedOrd.eq_swap, hlt]
  rfl

/-- What follows digits that are all there comes before more of them. -/
theorem compare_of_head_lt (hb : isDigit b = true) (hr : ∀ c ∈ r.head?, c.toNat < 48) :
    compare r (b :: bs) = .lt ∧ compare (b :: bs) r = .gt := by
  cases r with
  | nil => exact ⟨rfl, rfl⟩
  | cons c r =>
    have hlt : c.toNat < b.toNat := (hr c rfl).trans_le (isDigit_iff.1 hb).1
    obtain ⟨h₁, h₂⟩ := compare_of_toNat_lt hlt
    rw [List.compare_cons_cons, List.compare_cons_cons, h₁, h₂]
    exact ⟨rfl, rfl⟩

theorem digitsLess_nil (hb : ∀ c ∈ b :: bs, isDigit c = true) :
    DigitsLess [] (b :: bs) ∧ ¬DigitsLess (b :: bs) [] := by
  obtain ⟨h, -⟩ := asFraction_mem hb
  rw [DigitsLess, DigitsLess, asFraction_nil]
  refine ⟨?_, fun h' => ?_⟩
  · rcases h.lt_or_eq with h | h
    · exact .inl h
    · exact .inr ⟨h, Nat.succ_pos _⟩
  · rcases h' with h' | h'
    · exact absurd h' h.not_gt
    · exact absurd h'.2 (Nat.not_lt_zero _)

/-- Digits that start with a smaller one come first. -/
theorem digitsLess_of_lt (has : ∀ c ∈ a :: as, isDigit c = true)
    (hbs : ∀ c ∈ b :: bs, isDigit c = true) (h : a.toNat < b.toNat) :
    DigitsLess (a :: as) (b :: bs) ∧ ¬DigitsLess (b :: bs) (a :: as) := by
  rw [List.forall_mem_cons] at has hbs
  have hlt : asFraction (a :: as) < asFraction (b :: bs) := by
    have ha := (asFraction_mem has.2).2
    have hb := (asFraction_mem hbs.2).1
    have hdigit : (digitValue a : ℚ) + 1 ≤ digitValue b := by
      have := (isDigit_iff.1 has.1).1
      have : digitValue a + 1 ≤ digitValue b := by
        rw [digitValue, digitValue]
        omega
      exact_mod_cast this
    rw [asFraction_cons, asFraction_cons]
    linarith
  refine ⟨.inl hlt, fun h => ?_⟩
  rcases h with h | h
  · exact absurd h hlt.not_gt
  · exact absurd h.1 hlt.ne'

theorem digitsLess_cons : DigitsLess (a :: as) (a :: bs) ↔ DigitsLess as bs := by
  rw [DigitsLess, DigitsLess, asFraction_cons, asFraction_cons, List.length_cons, List.length_cons]
  refine or_congr ?_ (and_congr ?_ Nat.succ_lt_succ_iff)
  · rw [div_lt_div_iff_of_pos_right (by norm_num), add_lt_add_iff_left]
  · rw [div_left_inj' (by norm_num), add_right_inj]

/-- The order of texts that start with digits: that of the digits, when they are
    not the same, and that of what follows them, when they are. -/
theorem compare_digits (ha : ∀ b ∈ as, isDigit b = true) (hb : ∀ b ∈ bs, isDigit b = true)
    (hr : ∀ b ∈ r.head?, b.toNat < 48) (hr' : ∀ b ∈ r'.head?, b.toNat < 48) :
    compare (as ++ r) (bs ++ r') =
      if as = bs then compare r r' else if DigitsLess as bs then .lt else .gt := by
  induction as generalizing bs with
  | nil =>
    cases bs with
    | nil => rfl
    | cons b bs =>
      rw [if_neg (List.cons_ne_nil b bs).symm, if_pos (digitsLess_nil hb).1]
      exact (compare_of_head_lt (hb b List.mem_cons_self) hr).1
  | cons a as ih =>
    cases bs with
    | nil =>
      rw [if_neg (List.cons_ne_nil a as), if_neg (digitsLess_nil ha).2]
      exact (compare_of_head_lt (ha a List.mem_cons_self) hr').2
    | cons b bs =>
      rw [List.cons_append, List.cons_append, List.compare_cons_cons]
      rcases lt_trichotomy a.toNat b.toNat with h | h | h
      · rw [(compare_of_toNat_lt h).1, if_neg fun he => h.ne (congrArg _ (List.cons.inj he).1),
          if_pos (digitsLess_of_lt ha hb h).1]
        rfl
      · obtain rfl := UInt8.toNat_inj.1 h
        rw [List.forall_mem_cons] at ha hb
        rw [Std.compare_self, Ordering.eq_then, ih ha.2 hb.2]
        simp only [List.cons_inj_right, digitsLess_cons]
      · rw [(compare_of_toNat_lt h).2, if_neg fun he => h.ne' (congrArg _ (List.cons.inj he).1),
          if_neg (digitsLess_of_lt hb ha h).2]
        rfl

/-- Of as many digits, the less are those of the smaller number. -/
theorem digitsLess_of_length_eq (h : as.length = bs.length) :
    DigitsLess as bs ↔ digitsValue as < digitsValue bs := by
  rw [DigitsLess, asFraction, asFraction, h, or_iff_left fun h' => lt_irrefl _ h'.2,
    div_lt_div_iff_of_pos_right (by positivity), Nat.cast_lt]

end JobProvenance
