import JobProvenance.Common.TypePlugin
import JobProvenance.Lib.ByteOrder

/-!
# The order of attribute values

Conditions compare the values of an attribute, and the index compares the texts
of their columns. For the attributes of the fallback plugin the first is a total
order of the strings, and one of the binary values, and the second follows it.

* `attrvalCmpCall`: the comparison with its error codes;
* `attrvalCmp_ordered`: values of one kind are ordered totally, others are not
  compared;
* `toDbIndex_monotone`: the texts of the column are in the order of the values.
-/

namespace JobProvenance

/-- The order of two values, as `fbCmp` finds it in memory, with its error code. -/
def fbCmpCall (a b : Attrval) : Exec Ordering :=
  if a.binary ≠ b.binary then throw (.errno .EINVAL)
  else if a.binary then do
    let result ← memcmp a.value b.value (min a.size b.size)
    if result = .eq ∧ a.size ≠ b.size then return if b.size < a.size then .gt else .lt
    else return result
  else return strcmp (cstr a.value) (cstr b.value)

section Plugins

variable (code : TplugData → Errno) (plugins : List TplugData)

/-- The comparison of a plugin, which leaves values uncompared with the error code
    `code`; the fallback plugin stands in when there is no other or it has none. -/
def pluginCmp (name : Bytes) (a b : Attrval) : Exec Ordering :=
  match getPlugin plugins name with
  | none => fbCmpCall a b
  | some p =>
    match p.cmp with
    | none => fbCmpCall a b
    | some cmp => (cmp a b).elim (.error (.errno (code p))) .ok

/-- The order of two values of an attribute, with its error code. -/
def attrvalCmpCall (a b : Attrval) : Exec Ordering :=
  if a.name ≠ b.name then throw (.errno .EINVAL) else pluginCmp code plugins a.name a b

end Plugins

/-- The values of an attribute of a kind. -/
def Attrval.ofKind (name : Bytes) (binary : Bool) : Set Attrval :=
  {a | a.WellFormed ∧ a.name = name ∧ a.binary = binary}

section Order

variable {code : TplugData → Errno} {plugins : List TplugData} {a b : Attrval} {name : Bytes}
  {binary : Bool}

/-- Values of one kind are compared by their bytes. -/
theorem fbCmpCall_eq (ha : a ∈ Attrval.ofKind name binary) (hb : b ∈ Attrval.ofKind name binary) :
    fbCmpCall a b = .ok (compare a.value b.value) := by
  obtain ⟨ha, -, hka⟩ := ha
  obtain ⟨hb, -, hkb⟩ := hb
  rw [fbCmpCall, if_neg (by simp [hka, hkb])]
  cases binary with
  | false =>
    rw [if_neg (by simp [hka]), cstr_eq_self (ha.value_nul hka), cstr_eq_self (hb.value_nul hkb)]
    rfl
  | true =>
    rw [if_pos hka, ← ha.value_size hka, ← hb.value_size hkb]
    have hread : memcmp a.value b.value (min a.value.length b.value.length) =
        .ok (strcmp (a.value.take (min a.value.length b.value.length))
          (b.value.take (min a.value.length b.value.length))) :=
      if_pos ⟨min_le_left _ _, min_le_right _ _⟩
    have hall := strcmp_then_length a.value b.value
    rw [hread, Exec.ok_bind, ← show strcmp a.value b.value = compare a.value b.value from rfl,
      ← hall]
    -- the sizes decide when the bytes that both have are the same
    by_cases heq : strcmp (a.value.take (min a.value.length b.value.length))
        (b.value.take (min a.value.length b.value.length)) = .eq
    · rw [heq, Ordering.eq_then]
      rcases lt_trichotomy a.value.length b.value.length with h | h | h
      · rw [if_pos ⟨rfl, h.ne⟩, if_neg h.not_gt, Nat.compare_eq_lt.2 h]
        rfl
      · rw [if_neg fun hne => hne.2 h, h, Std.compare_self]
        rfl
      · rw [if_pos ⟨rfl, h.ne'⟩, if_pos h, Nat.compare_eq_gt.2 h]
        rfl
    · rw [if_neg fun hand => heq hand.1]
      revert heq
      cases strcmp (a.value.take (min a.value.length b.value.length))
          (b.value.take (min a.value.length b.value.length)) with
      | eq => exact fun h => absurd rfl h
      | lt | gt => exact fun _ => rfl

theorem attrvalCmpCall_eq (hp : getPlugin plugins name = none)
    (ha : a ∈ Attrval.ofKind name binary) (hb : b ∈ Attrval.ofKind name binary) :
    attrvalCmpCall code plugins a b = .ok (compare a.value b.value) := by
  rw [attrvalCmpCall, if_neg (by simp [ha.2.1, hb.2.1]), pluginCmp, ha.2.1, hp]
  exact fbCmpCall_eq ha hb

/-- The comparison without its error codes is the one the conditions use. -/
theorem attrvalCmp_eq (hp : getPlugin plugins name = none) (ha : a ∈ Attrval.ofKind name binary)
    (hb : b ∈ Attrval.ofKind name binary) :
    attrvalCmp plugins a b = some (compare a.value b.value) := by
  have hsame : a.binary = b.binary := ha.2.2.trans hb.2.2.symm
  rw [attrvalCmp, if_neg (by simp [ha.2.1, hb.2.1]), ha.2.1, hp]
  change fbCmp a b = _
  rw [fbCmp, if_neg (not_not.2 hsame)]
  cases hbin : a.binary with
  | false =>
    rw [if_neg (by simp), cstr_eq_self (ha.1.value_nul hbin),
      cstr_eq_self (hb.1.value_nul (hsame ▸ hbin))]
    rfl
  | true =>
    rw [if_pos rfl, ← ha.1.value_size hbin, ← hb.1.value_size (hsame ▸ hbin)]
    exact congrArg some (strcmp_then_length a.value b.value)

/-- Values of an attribute of the fallback plugin are ordered totally when they are
    of one kind, and equal when they are the same; otherwise they are not compared. -/
theorem attrvalCmp_ordered (hp : getPlugin plugins name = none) :
    Orders (attrvalCmpCall code plugins) (Attrval.ofKind name false)
      (fun a b => a.value = b.value) ∧
    Orders (attrvalCmpCall code plugins) (Attrval.ofKind name true)
      (fun a b => a.size = b.size ∧ a.value = b.value) ∧
    (∀ a b, a.name = name → b.name = name → a.binary ≠ b.binary →
      attrvalCmpCall code plugins a b = .error (.errno .EINVAL)) ∧
    ∀ a b, a.name ≠ b.name → attrvalCmpCall code plugins a b = .error (.errno .EINVAL) := by
  refine ⟨?_, ?_, fun a b ha hb hne => ?_, fun a b hne => if_pos hne⟩
  · exact .of_key (·.value) (fun a ha b hb => attrvalCmpCall_eq hp ha hb) fun _ _ _ _ => Iff.rfl
  · refine .of_key (·.value) (fun a ha b hb => attrvalCmpCall_eq hp ha hb) fun a ha b hb => ?_
    refine ⟨fun h => ⟨?_, h⟩, And.right⟩
    rw [← ha.1.value_size ha.2.2, ← hb.1.value_size hb.2.2, h]
  · rw [attrvalCmpCall, if_neg (by simp [ha, hb]), pluginCmp, ha, hp]
    exact if_pos hne

/-- The text of the column of a string is the string, cut to its length. -/
theorem attrvalToDbIndex_eq (hp : getPlugin plugins name = none) (len : ℕ)
    (ha : a ∈ Attrval.ofKind name false) :
    attrvalToDbIndex plugins a len = some (a.value.take len) := by
  rw [attrvalToDbIndex, ha.2.1, hp]
  change fbToDbIndex a len = _
  rw [fbToDbIndex, if_neg (by simp [ha.2.2]), cstr_eq_self (ha.1.value_nul ha.2.2)]

/-- The texts of the column are not longer than it, and follow the order of the
    strings; a string that fits is kept, and texts that differ are in the strict
    order of the strings. -/
theorem toDbIndex_monotone (hp : getPlugin plugins name = none) (len : ℕ)
    (ha : a ∈ Attrval.ofKind name false) (hb : b ∈ Attrval.ofKind name false) :
    ∃ ia ib, attrvalToDbIndex plugins a len = some ia ∧ attrvalToDbIndex plugins b len = some ib ∧
      ((∃ o, attrvalCmpCall code plugins a b = .ok o ∧ o.isLE) → (strcmp ia ib).isLE) ∧
      ia.length ≤ len ∧ ib.length ≤ len ∧
      (a.value.length ≤ len → ia = a.value) ∧ (b.value.length ≤ len → ib = b.value) ∧
      (ia ≠ ib → attrvalCmpCall code plugins a b = .ok (strcmp ia ib) ∧ strcmp ia ib ≠ .eq) := by
  refine ⟨_, _, attrvalToDbIndex_eq hp len ha, attrvalToDbIndex_eq hp len hb, ?_,
    List.length_take_le _ _, List.length_take_le _ _, List.take_of_length_le,
    List.take_of_length_le, fun hne => ⟨?_, fun heq => hne (strcmp_eq_iff.1 heq)⟩⟩
  · rintro ⟨o, ho, hle⟩
    obtain rfl := Except.ok.inj ((attrvalCmpCall_eq hp ha hb).symm.trans ho)
    by_cases heq : a.value.take len = b.value.take len
    · rw [heq, strcmp_eq_iff.2 rfl]
      rfl
    · rw [strcmp_take len heq]
      exact hle
  · rw [attrvalCmpCall_eq hp ha hb, strcmp_take len hne]
    rfl

end Order

/-! ## Values of a tag -/

/-- A value of a tag. -/
def tagText (s : String) : Attrval := { stringValue 0 with value := ascii s }

theorem tagText_red : tagText "red" ∈ Attrval.ofKind (ascii "tag") false :=
  ⟨⟨show 0 ∉ ascii "tag" by decide, fun _ => show 0 ∉ ascii "red" by decide, nofun, nofun⟩, rfl, rfl⟩

theorem tagText_reed : tagText "reed" ∈ Attrval.ofKind (ascii "tag") false :=
  ⟨⟨show 0 ∉ ascii "tag" by decide, fun _ => show 0 ∉ ascii "reed" by decide, nofun, nofun⟩, rfl,
    rfl⟩

/-- Without plugins the values of a tag are ordered. -/
theorem attrvalCmp_ordered_tag :
    attrvalCmpCall (fun _ => .EINVAL) [] (tagText "red") (tagText "reed") = .ok .lt ∧
    Orders (attrvalCmpCall (fun _ => .EINVAL) []) (Attrval.ofKind (ascii "tag") false)
      (fun a b => a.value = b.value) :=
  ⟨rfl, (attrvalCmp_ordered rfl).1⟩

/-- Cut to two bytes, both texts are the same. -/
theorem toDbIndex_monotone_tag : ∃ ia ib,
    attrvalToDbIndex [] (tagText "red") 2 = some ia ∧
    attrvalToDbIndex [] (tagText "reed") 2 = some ib ∧ (strcmp ia ib).isLE := by
  obtain ⟨ia, ib, hia, hib, hle, -⟩ :=
    @toDbIndex_monotone (fun _ => .EINVAL) [] _ _ _ rfl 2 tagText_red tagText_reed
  exact ⟨ia, ib, hia, hib, hle ⟨.lt, rfl, rfl⟩⟩

end JobProvenance
