import JobProvenance.Lib.DigitOrder
import JobProvenance.Lib.Exec

/-!
# The order of bytes

Bytes are compared one by one, up to the first that differ; of bytes that go on
with others the shorter come first.

* `strcmp_take`: cut bytes are in the order of the bytes, unless they are equal;
* `strcmp_then_length`: as many bytes as both have, and the lengths behind them,
  are compared to the same result;
* `Orders`: a comparison that is a total order of some values, as it is when it
  compares what they are told apart by (`Orders.of_key`).
-/

namespace JobProvenance

variable {a b : Bytes} {x y : UInt8}

/-- The order of the first bytes of two buffers, which have to be there. -/
def memcmp (a b : Bytes) (n : ℕ) : Exec Ordering :=
  if n ≤ a.length ∧ n ≤ b.length then .ok (strcmp (a.take n) (b.take n)) else .error .fault

theorem strcmp_cons_self : strcmp (x :: a) (x :: b) = strcmp a b := by
  rw [strcmp, List.compare_cons_cons, Std.compare_self]
  rfl

theorem strcmp_cons_of_ne (h : x ≠ y) : strcmp (x :: a) (y :: b) = compare x y := by
  rw [strcmp, List.compare_cons_cons]
  cases hc : compare x y with
  | eq => exact absurd (Std.compare_eq_iff_eq.1 hc) h
  | lt => rfl
  | gt => rfl

/-- Cut bytes are in the order of the bytes, unless they are equal. -/
theorem strcmp_take (n : ℕ) {a b : Bytes} (h : a.take n ≠ b.take n) :
    strcmp (a.take n) (b.take n) = strcmp a b := by
  induction n generalizing a b with
  | zero => exact absurd rfl h
  | succ n ih =>
    cases a with
    | nil =>
      cases b with
      | nil => exact absurd rfl h
      | cons y b => rfl
    | cons x a =>
      cases b with
      | nil => rfl
      | cons y b =>
        rw [List.take_succ_cons, List.take_succ_cons] at h ⊢
        by_cases hxy : x = y
        · subst hxy
          have hrest : a.take n ≠ b.take n := fun heq => h (congrArg (x :: ·) heq)
          rw [strcmp_cons_self, strcmp_cons_self, ih hrest]
        · rw [strcmp_cons_of_ne hxy, strcmp_cons_of_ne hxy]

/-- The order of the bytes is that of as many as both have, and then that of the
    lengths. -/
theorem strcmp_then_length (a b : Bytes) :
    (strcmp (a.take (min a.length b.length)) (b.take (min a.length b.length))).then
      (compare a.length b.length) = strcmp a b := by
  induction a generalizing b with
  | nil => cases b <;> rfl
  | cons x a ih =>
    cases b with
    | nil => rfl
    | cons y b =>
      rw [List.length_cons, List.length_cons, Nat.add_min_add_right, List.take_succ_cons,
        List.take_succ_cons]
      by_cases hxy : x = y
      · subst hxy
        have hlen : compare (a.length + 1) (b.length + 1) = compare a.length b.length := by
          simp only [Nat.compare_eq_ite_lt, Nat.add_lt_add_iff_right]
        rw [strcmp_cons_self, strcmp_cons_self, hlen, ih b]
      · rw [strcmp_cons_of_ne hxy, strcmp_cons_of_ne hxy]
        cases hc : compare x y with
        | eq => exact absurd (Std.compare_eq_iff_eq.1 hc) hxy
        | lt => rfl
        | gt => rfl

/-! ## Total orders -/

section Orders

variable {α β : Type*}

/-- A comparison orders some values totally: any two are compared, the other way
    round to the opposite result, and those that are the same are equal. -/
structure Orders (cmp : α → α → Exec Ordering) (s : Set α) (same : α → α → Prop) : Prop where
  antisymm : ∀ a ∈ s, ∀ b ∈ s, ∀ o, cmp a b = .ok o → cmp b a = .ok o.swap
  total : ∀ a ∈ s, ∀ b ∈ s, ∃ o o', cmp a b = .ok o ∧ cmp b a = .ok o' ∧ (o.isLE ∨ o'.isLE)
  trans : ∀ a ∈ s, ∀ b ∈ s, ∀ c ∈ s, ∀ o o', cmp a b = .ok o → cmp b c = .ok o' →
    o.isLE → o'.isLE → ∃ o'', cmp a c = .ok o'' ∧ o''.isLE
  eq_iff : ∀ a ∈ s, ∀ b ∈ s, cmp a b = .ok .eq ↔ same a b

/-- A comparison of what values are told apart by, if that is ordered. -/
theorem Orders.of_key [Ord β] [Std.TransOrd β] [Std.LawfulEqOrd β]
    {cmp : α → α → Exec Ordering} {s : Set α} {same : α → α → Prop} (key : α → β)
    (hcmp : ∀ a ∈ s, ∀ b ∈ s, cmp a b = .ok (compare (key a) (key b)))
    (hkey : ∀ a ∈ s, ∀ b ∈ s, key a = key b ↔ same a b) : Orders cmp s same where
  antisymm a ha b hb o ho := by
    rw [hcmp b hb a ha, Std.OrientedOrd.eq_swap, Except.ok.inj ((hcmp a ha b hb).symm.trans ho)]
  total a ha b hb := by
    refine ⟨_, _, hcmp a ha b hb, hcmp b hb a ha, ?_⟩
    rw [@Std.OrientedOrd.eq_swap _ _ _ (key b) (key a)]
    cases compare (key a) (key b) <;> simp
  trans a ha b hb c hc o o' ho ho' hle hle' := by
    obtain rfl := Except.ok.inj ((hcmp a ha b hb).symm.trans ho)
    obtain rfl := Except.ok.inj ((hcmp b hb c hc).symm.trans ho')
    exact ⟨_, hcmp a ha c hc, Std.TransOrd.isLE_trans hle hle'⟩
  eq_iff a ha b hb := by
    rw [hcmp a ha b hb, Except.ok.injEq, Std.compare_eq_iff_eq, hkey a ha b hb]

end Orders

end JobProvenance
