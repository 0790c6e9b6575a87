import JobProvenance.Lib.Memory

/-!
# Growing arrays

An array the index server adds to, with its length and its size in bytes: it is
doubled in the arithmetic of `size_t` until what is added fits, and copied.

`Contains` says which values an array has; `Adds`, that a call puts values behind
them. What is added stands behind what was there (`arrayAdd_contains`), and it is
added exactly when half of the range of `size_t` is enough for all of it
(`exists_arrayAdd`, `Contains.le_half`). An array of bytes may start with any positive
size (`bytes_of_arrayAdds`).
-/

namespace JobProvenance

variable {α : Type}

/-- An array, of which the first `len` of `maxlen` bytes are used. -/
structure GrowingArray (α : Type) where
  data : Block α
  len : ℕ
  maxlen : ℕ

/-- An array of a size without values; `cell` is the number of bytes of a value. -/
def arrayInit (cell initialLen : ℕ) : GrowingArray α :=
  ⟨Block.malloc (initialLen / cell), 0, initialLen⟩

/-- Doubles a size until it is not less than the length. After 64 doublings nothing is
    left of it, and the loop goes on for ever. -/
def growTo (len : ℕ) : ℕ → ℕ → Exec ℕ
  | 0, _ => .error .hang
  | fuel + 1, maxlen =>
    if maxlen * 2 % 2 ^ 64 < len then growTo len fuel (maxlen * 2 % 2 ^ 64)
    else .ok (maxlen * 2 % 2 ^ 64)

/-- Makes room for a length. -/
def GrowingArray.reserve (cell len : ℕ) (a : GrowingArray α) : Exec (GrowingArray α) :=
  if a.maxlen < len then do
    let maxlen ← growTo len 64 a.maxlen
    return ⟨Block.realloc (some a.data) (maxlen / cell), len, maxlen⟩
  else return { a with len }

/-- Adds values to an array. -/
def arrayAdd (cell : ℕ) (a : GrowingArray α) (newData : List α) : Exec (GrowingArray α) := do
  let ptr := a.len
  let a ← a.reserve cell ((a.len + cell * newData.length) % 2 ^ 64)
  let data ← a.data.writeAll (ptr / cell) newData
  return { a with data }

namespace GrowingArray

/-- An array has values, and as many cells as fit its size, a power of two. -/
structure Contains (cell : ℕ) (a : GrowingArray α) (xs : List α) : Prop where
  holds : a.data.Holds xs
  len : a.len = cell * xs.length
  room : cell * a.data.length = a.maxlen
  pow : ∃ k < 64, a.maxlen = 2 ^ k

/-- The values of the used part of an array. -/
def contents (cell : ℕ) (a : GrowingArray α) : Exec (List α) :=
  (a.data.take (a.len / cell)).mapM fun
    | some x => .ok x
    | none => .error .fault

end GrowingArray

open GrowingArray

section Grow

variable {cell len fuel maxlen m : ℕ} {a a' : GrowingArray α} {xs ys : List α}

/-- A size is enough after some doublings when half of the range is. -/
theorem exists_growTo (hpos : 0 < maxlen) (hlt : maxlen < len) (hlen : len ≤ 2 ^ 63)
    (hfuel : len ≤ maxlen * 2 ^ fuel) : ∃ m, growTo len fuel maxlen = .ok m := by
  induction fuel generalizing maxlen with
  | zero => omega
  | succ fuel ih =>
    have hmod : maxlen * 2 % 2 ^ 64 = maxlen * 2 := Nat.mod_eq_of_lt (by omega)
    rw [growTo, hmod]
    split_ifs with h
    · exact ih (by omega) h (by rwa [pow_succ', ← mul_assoc] at hfuel)
    · exact ⟨_, rfl⟩

/-- What is doubled is a multiple of what it was, up to the range. -/
theorem growTo_eq_ok (h : growTo len fuel maxlen = .ok m) :
    len ≤ m ∧ m < 2 ^ 64 ∧ ∃ j, m = maxlen * 2 ^ j % 2 ^ 64 := by
  induction fuel generalizing maxlen with
  | zero => cases h
  | succ fuel ih =>
    rw [growTo] at h
    split_ifs at h with hlt
    · obtain ⟨hle, hm, j, rfl⟩ := ih h
      have hdouble : maxlen * 2 ^ (j + 1) = maxlen * 2 * 2 ^ j := by rw [pow_succ', mul_assoc]
      exact ⟨hle, hm, j + 1, by rw [hdouble, Nat.mod_mul_mod]⟩
    · obtain rfl := Except.ok.inj h
      exact ⟨not_lt.1 hlt, Nat.mod_lt _ (by norm_num), 1, by rw [pow_one]⟩

/-- A size that was a power of two is one, within the range. -/
theorem pow_of_growTo (h : growTo len fuel maxlen = .ok m) (hm : 0 < m)
    (hpow : ∃ k < 64, maxlen = 2 ^ k) : ∃ k < 64, m = 2 ^ k := by
  obtain ⟨-, -, j, rfl⟩ := growTo_eq_ok h
  obtain ⟨k, -, rfl⟩ := hpow
  rw [← pow_add] at hm ⊢
  by_cases hk : k + j < 64
  · exact ⟨k + j, hk, Nat.mod_eq_of_lt (Nat.pow_lt_pow_right (by norm_num) hk)⟩
  · rw [Nat.mod_eq_zero_of_dvd (pow_dvd_pow 2 (by omega))] at hm
    cases hm

theorem contains_arrayInit {k : ℕ} (hdvd : cell ∣ 2 ^ k) (hk : k < 64) :
    (arrayInit cell (2 ^ k) : GrowingArray α).Contains cell [] where
  holds := Block.holds_malloc _
  len := by simp [arrayInit]
  room := by
    rw [arrayInit, Block.length_malloc]
    exact Nat.mul_div_cancel' hdvd
  pow := ⟨k, hk, rfl⟩

namespace GrowingArray.Contains

theorem len_le (h : a.Contains cell xs) : cell * xs.length ≤ a.maxlen :=
  h.room ▸ Nat.mul_le_mul_left cell h.holds.length_le

/-- No more than half of the range is used. -/
theorem le_half (h : a.Contains cell xs) : cell * xs.length ≤ 2 ^ 63 := by
  obtain ⟨k, hk, hmax⟩ := h.pow
  calc cell * xs.length ≤ a.maxlen := h.len_le
    _ = 2 ^ k := hmax
    _ ≤ 2 ^ 63 := Nat.pow_le_pow_right (by norm_num) (by omega)

/-- The values are what is read of the used part. -/
theorem contents_eq (hcell : 0 < cell) (h : a.Contains cell xs) : a.contents cell = .ok xs := by
  obtain ⟨rest, hdata⟩ := h.holds
  rw [contents, h.len, Nat.mul_div_cancel_left _ hcell, hdata, List.take_left' (by simp),
    Exec.mapM_eq_ok, List.forall₂_map_left_iff, List.forall₂_same]
  exact fun x _ => rfl

end GrowingArray.Contains

/-- Room that is made leaves the values where they are. -/
theorem reserve_eq_ok (hc : cell ∣ 2 ^ 64) (h : a.Contains cell xs)
    (hr : a.reserve cell len = .ok a') : a'.data.Holds xs ∧ a'.len = len ∧
      cell * a'.data.length = a'.maxlen ∧ len ≤ a'.maxlen ∧ ∃ k < 64, a'.maxlen = 2 ^ k := by
  unfold reserve at hr
  split_ifs at hr with hlt
  · obtain ⟨m, hm, hr⟩ := Exec.bind_eq_ok.1 hr
    obtain rfl := Except.ok.inj hr
    obtain ⟨hle, hrange, j, hj⟩ := growTo_eq_ok hm
    have hdvd : cell ∣ m := by
      rw [hj]
      exact (Nat.dvd_mod_iff hc).2 ((Dvd.intro _ h.room).mul_right _)
    have hroom : cell * (m / cell) = m := Nat.mul_div_cancel' hdvd
    have hpos : 0 < m := (Nat.zero_le _).trans_lt (hlt.trans_le hle)
    refine ⟨h.holds.realloc ?_, rfl, ?_, hle, pow_of_growTo hm hpos h.pow⟩
    · -- the new size is not less than the length of the values
      have hcell : 0 < cell := Nat.pos_of_mul_pos_right (hroom.symm ▸ hpos)
      refine Nat.le_of_mul_le_mul_left ?_ hcell
      rw [hroom]
      exact h.len_le.trans (hlt.le.trans hle)
    · rw [Block.length_realloc, hroom]
  · obtain rfl := Except.ok.inj hr
    exact ⟨h.holds, rfl, h.room, not_lt.1 hlt, h.pow⟩

/-- Writing more than there is room for goes wrong. -/
theorem length_le_of_writeAll {b b' : Block α} {i : ℕ} (h : b.writeAll i ys = .ok b')
    (hi : i ≤ b.length) : i + ys.length ≤ b.length := by
  induction ys generalizing b i with
  | nil => simpa using hi
  | cons y ys ih =>
    obtain ⟨b₁, h₁, h⟩ := Exec.bind_eq_ok.1 h
    unfold Block.write at h₁
    split_ifs at h₁ with hlt
    obtain rfl := Except.ok.inj h₁
    have := ih h (by rw [List.length_set]; omega)
    rw [List.length_set] at this
    rw [List.length_cons]
    omega

/-- What is added stands behind what was there. -/
theorem arrayAdd_contains (hcell : 0 < cell) (hc : cell ∣ 2 ^ 64) (h : a.Contains cell xs)
    (hadd : arrayAdd cell a ys = .ok a') : a'.Contains cell (xs ++ ys) := by
  obtain ⟨a₁, hr, hadd⟩ := Exec.bind_eq_ok.1 hadd
  obtain ⟨data, hw, hadd⟩ := Exec.bind_eq_ok.1 hadd
  obtain rfl := Except.ok.inj hadd
  obtain ⟨hholds, hlen, hroom, hle, hpow⟩ := reserve_eq_ok hc h hr
  rw [h.len, Nat.mul_div_cancel_left _ hcell] at hw
  have hfits := length_le_of_writeAll hw hholds.length_le
  obtain ⟨data', hw', hholds', hlen'⟩ := hholds.writeAll hfits
  obtain rfl := Except.ok.inj (hw'.symm.trans hw)
  -- as all of it was written, the length has not wrapped around
  have htotal : cell * (xs ++ ys).length < 2 ^ 64 := by
    obtain ⟨k, hk, hmax⟩ := hpow
    calc cell * (xs ++ ys).length ≤ cell * a₁.data.length :=
          Nat.mul_le_mul_left cell (List.length_append ▸ hfits)
      _ = 2 ^ k := hroom.trans hmax
      _ < 2 ^ 64 := Nat.pow_lt_pow_right (by norm_num) hk
  refine ⟨hholds', ?_, hlen'.symm ▸ hroom, hpow⟩
  rw [List.length_append, mul_add] at htotal
  rw [hlen, h.len, Nat.mod_eq_of_lt htotal, List.length_append, mul_add]

/-- It is added when half of the range is enough for all of it. -/
theorem exists_arrayAdd (hcell : 0 < cell) (hc : cell ∣ 2 ^ 64) (h : a.Contains cell xs)
    (hle : cell * (xs ++ ys).length ≤ 2 ^ 63) : ∃ a', arrayAdd cell a ys = .ok a' := by
  rw [List.length_append, mul_add] at hle
  have hmod : (cell * xs.length + cell * ys.length) % 2 ^ 64 =
      cell * xs.length + cell * ys.length := Nat.mod_eq_of_lt (by omega)
  obtain ⟨a₁, hr⟩ : ∃ a₁, a.reserve cell (cell * xs.length + cell * ys.length) = .ok a₁ := by
    unfold reserve
    split_ifs with hlt
    · have hpos : 0 < a.maxlen := by
        obtain ⟨k, -, hmax⟩ := h.pow
        exact hmax ▸ Nat.two_pow_pos k
      obtain ⟨m, hm⟩ := @exists_growTo _ 64 _ hpos hlt hle (by omega)
      rw [hm]
      exact ⟨_, rfl⟩
    · exact ⟨_, rfl⟩
  obtain ⟨hholds, -, hroom, hle', -⟩ := reserve_eq_ok hc h hr
  have hfits : xs.length + ys.length ≤ a₁.data.length := by
    refine Nat.le_of_mul_le_mul_left ?_ hcell
    rw [hroom, mul_add]
    exact hle'
  obtain ⟨data, hw, -⟩ := hholds.writeAll hfits
  refine ⟨{ a₁ with data }, ?_⟩
  show (a.reserve cell ((a.len + cell * ys.length) % 2 ^ 64) >>= fun a₁ =>
    a₁.data.writeAll (a.len / cell) ys >>= fun data => return { a₁ with data }) = _
  rw [h.len, hmod, hr, Exec.ok_bind, Nat.mul_div_cancel_left _ hcell, hw]
  rfl

end Grow

/-! ## What is added -/

/-- A call adds values to any array: where half of the range is enough for all of
    it, and only there. -/
def Adds (cell : ℕ) (f : GrowingArray α → Exec (GrowingArray α)) (ys : List α) : Prop :=
  ∀ a xs, a.Contains cell xs →
    (cell * (xs ++ ys).length ≤ 2 ^ 63 → ∃ a', f a = .ok a') ∧
    ∀ a', f a = .ok a' → a'.Contains cell (xs ++ ys)

namespace Adds

variable {cell : ℕ} {f g : GrowingArray α → Exec (GrowingArray α)} {xs ys zs : List α}

theorem arrayAdd (hcell : 0 < cell) (hc : cell ∣ 2 ^ 64) (ys : List α) :
    Adds cell (JobProvenance.arrayAdd cell · ys) ys :=
  fun _ _ h => ⟨exists_arrayAdd hcell hc h, fun _ => arrayAdd_contains hcell hc h⟩

theorem nothing : Adds cell (fun a : GrowingArray α => .ok a) [] := fun a xs h =>
  ⟨fun _ => ⟨a, rfl⟩, fun _ ha => by
    obtain rfl := Except.ok.inj ha
    rwa [List.append_nil]⟩

/-- One call after the other adds what they add. -/
theorem bind (hf : Adds cell f ys) (hg : Adds cell g zs) :
    Adds cell (fun a => f a >>= g) (ys ++ zs) := by
  intro a xs h
  rw [← List.append_assoc]
  refine ⟨fun hle => ?_, fun a' ha' => ?_⟩
  · have hle' := Nat.mul_le_mul_left cell (List.prefix_append (xs ++ ys) zs).length_le
    obtain ⟨a₁, h₁⟩ := (hf a xs h).1 (hle'.trans hle)
    obtain ⟨a₂, h₂⟩ := (hg a₁ _ ((hf a xs h).2 a₁ h₁)).1 hle
    exact ⟨a₂, Exec.bind_eq_ok.2 ⟨a₁, h₁, h₂⟩⟩
  · obtain ⟨a₁, h₁, h₂⟩ := Exec.bind_eq_ok.1 ha'
    exact (hg a₁ _ ((hf a xs h).2 a₁ h₁)).2 a' h₂

/-- Calls one after the other add what they add. -/
theorem foldlM {β : Type} {step : GrowingArray α → β → Exec (GrowingArray α)} {add : β → List α}
    {bs : List β} (h : ∀ b ∈ bs, Adds cell (step · b) (add b)) :
    Adds cell (fun a => bs.foldlM step a) (bs.flatMap add) := by
  induction bs with
  | nil => exact nothing
  | cons b bs ih =>
    exact (h b List.mem_cons_self).bind (ih fun b hb => h b (List.mem_cons_of_mem _ hb))

/-- Starting with nothing, they return exactly when half of the range is enough. -/
theorem eq_ok_iff (hf : Adds cell f ys) {a : GrowingArray α} (ha : a.Contains cell []) :
    (∃ a', f a = .ok a') ↔ cell * ys.length ≤ 2 ^ 63 :=
  ⟨fun ⟨a', h⟩ => ((hf a [] ha).2 a' h).le_half, (hf a [] ha).1⟩

end Adds

/-! ## Arrays of bytes -/

/-- An array has bytes, in a part of memory of some positive size. -/
structure GrowingArray.HasBytes (a : GrowingArray α) (xs : List α) : Prop where
  holds : a.data.Holds xs
  len : a.len = xs.length
  room : a.data.length = a.maxlen
  pos : 0 < a.maxlen

section Bytes

variable {a : GrowingArray α} {xs ys : List α} {yss : List (List α)} {n len : ℕ}

theorem hasBytes_arrayInit (hn : 0 < n) : (arrayInit 1 n : GrowingArray α).HasBytes [] where
  holds := Block.holds_malloc _
  len := rfl
  room := by rw [arrayInit, Block.length_malloc, Nat.div_one]
  pos := hn

namespace GrowingArray.HasBytes

/-- There is room for as much as half of the range, whatever the size was. -/
theorem exists_reserve (h : a.HasBytes xs) (hxs : xs.length ≤ len) (hlen : len ≤ 2 ^ 63) :
    ∃ a', a.reserve 1 len = .ok a' ∧ a'.data.Holds xs ∧ a'.len = len ∧
      a'.data.length = a'.maxlen ∧ len ≤ a'.maxlen ∧ 0 < a'.maxlen := by
  have hpos := h.pos
  unfold reserve
  split_ifs with hlt
  · -- 64 doublings of a positive size are more than the range
    obtain ⟨m, hm⟩ := @exists_growTo _ 64 _ hpos hlt hlen (by omega)
    have hle := (growTo_eq_ok hm).1
    refine ⟨_, by rw [hm]; rfl, ?_, rfl, ?_, hle, (hpos.trans hlt).trans_le hle⟩
    · exact h.holds.realloc (by rw [Nat.div_one]; omega)
    · rw [Block.length_realloc, Nat.div_one]
  · exact ⟨_, rfl, h.holds, rfl, h.room, not_lt.1 hlt, hpos⟩

/-- What is added stands behind what was there. -/
theorem arrayAdd (h : a.HasBytes xs) (hle : (xs ++ ys).length ≤ 2 ^ 63) :
    ∃ a', JobProvenance.arrayAdd 1 a ys = .ok a' ∧ a'.HasBytes (xs ++ ys) := by
  rw [List.length_append] at hle
  have hmod : (a.len + 1 * ys.length) % 2 ^ 64 = xs.length + ys.length := by
    rw [h.len, one_mul]
    exact Nat.mod_eq_of_lt (by omega)
  obtain ⟨a₁, hr, hholds, hlen, hroom, hfits, hpos⟩ := h.exists_reserve (Nat.le_add_right _ _) hle
  obtain ⟨data, hw, hdata, hsize⟩ := hholds.writeAll (hroom ▸ hfits)
  refine ⟨{ a₁ with data }, ?_, hdata, ?_, hsize.trans hroom, hpos⟩
  · rw [JobProvenance.arrayAdd, hmod, hr, Exec.ok_bind, Nat.div_one, h.len, hw]
    rfl
  · rw [hlen, List.length_append]

/-- Calls one after the other add what they add. -/
theorem foldlM_arrayAdd (h : a.HasBytes xs) (hle : (xs ++ yss.flatten).length ≤ 2 ^ 63) :
    ∃ a', yss.foldlM (JobProvenance.arrayAdd 1) a = .ok a' ∧ a'.HasBytes (xs ++ yss.flatten) := by
  induction yss generalizing a xs with
  | nil => exact ⟨a, rfl, by rwa [List.flatten_nil, List.append_nil]⟩
  | cons ys yss ih =>
    rw [List.flatten_cons, ← List.append_assoc] at hle ⊢
    obtain ⟨a₁, h₁, ha₁⟩ :=
      h.arrayAdd ((List.prefix_append (xs ++ ys) yss.flatten).length_le.trans hle)
    rw [List.foldlM_cons, h₁, Exec.ok_bind]
    exact ih ha₁ hle

end GrowingArray.HasBytes

/-- Bytes added to an array of any positive size, of less than half of the range
    together, stand in it one after the other, and there is room for them. -/
theorem bytes_of_arrayAdds (hn : 0 < n) (hsum : (yss.map List.length).sum < 2 ^ 63) :
    ∃ a, yss.foldlM (arrayAdd 1) (arrayInit 1 n) = .ok a ∧
      a.data.take a.len = yss.flatten.map some ∧ a.len = (yss.map List.length).sum ∧
      a.len ≤ a.maxlen ∧ a.data.length = a.maxlen := by
  rw [← List.length_flatten] at hsum ⊢
  obtain ⟨a, hadds, ha⟩ := (@hasBytes_arrayInit α _ hn).foldlM_arrayAdd hsum.le
  obtain ⟨rest, hdata⟩ := ha.holds
  refine ⟨a, hadds, ?_, ha.len, ?_, ha.room⟩
  · rw [ha.len, hdata, List.nil_append, List.take_left' (List.length_map _)]
  · rw [ha.len, ← ha.room]
    exact ha.holds.length_le

theorem bytes_of_arrayAdds_sample : ∃ a : GrowingArray UInt8,
    [[1, 2], [3, 4, 5]].foldlM (arrayAdd 1) (arrayInit 1 1) = .ok a ∧
      a.data.take a.len = ([[1, 2], [3, 4, 5]].flatten : List UInt8).map some ∧ a.len = 5 ∧
      a.len ≤ a.maxlen ∧ a.data.length = a.maxlen :=
  bytes_of_arrayAdds (by decide) (by decide)

end Bytes

end JobProvenance
