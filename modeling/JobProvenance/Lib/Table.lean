import Mathlib.Data.List.Pairwise
import Mathlib.Tactic

/-!
# Tables

The rows of a database table with unique keys. That two rows agree on a key is
the relation `clash` of the table; that no two rows of it do is a field of
`Table`, which the statements keep:

* `Table.insert` fails when the new row clashes with one that is there
  (`insert_eq_some`);
* `Table.delete` drops the rows that meet a condition, `Table.update` changes
  rows without changing their keys, and `Table.modify` changes the keys as well,
  which fails when they clash then (`modify_eq_some`);
* `filter_insert`, `filter_delete`, `filter_update`: the rows a statement is not
  about stay;
* `Table.eq_of_clash`, `Table.filter_of_clash`: a key has at most one row.
-/

namespace JobProvenance

/-- A table, of whose rows no two clash. -/
@[ext]
structure Table (α : Type*) (clash : α → α → Prop) where
  rows : List α
  pairwise : rows.Pairwise fun a b => ¬clash a b

namespace Table

variable {α : Type*} {clash : α → α → Prop} {t t' : Table α clash} {a b : α}

/-- The table without rows. -/
def empty : Table α clash := ⟨[], List.Pairwise.nil⟩

/-- Inserts a row: `none` when it clashes with another. -/
def insert [DecidableRel clash] (t : Table α clash) (a : α) : Option (Table α clash) :=
  if h : ∀ r ∈ t.rows, ¬clash r a then
    some ⟨t.rows ++ [a], List.pairwise_append.2 ⟨t.pairwise, List.pairwise_singleton _ _, by simpa⟩⟩
  else none

/-- Deletes the rows that meet a condition. -/
def delete (t : Table α clash) (p : α → Bool) : Table α clash :=
  ⟨t.rows.filter (!p ·), t.pairwise.filter _⟩

/-- Changes every row, none of them in its keys. -/
def update (t : Table α clash) (f : α → α) (hf : ∀ a b, clash (f a) (f b) → clash a b) :
    Table α clash :=
  ⟨t.rows.map f, List.pairwise_map.2 (t.pairwise.imp fun h hc => h (hf _ _ hc))⟩

/-- Changes every row, possibly in its keys: `none` when two of the new rows clash. -/
def modify [DecidableRel clash] (t : Table α clash) (f : α → α) : Option (Table α clash) :=
  if h : (t.rows.map f).Pairwise fun a b => ¬clash a b then some ⟨t.rows.map f, h⟩ else none

theorem insert_eq_some [DecidableRel clash] : t.insert a = some t' ↔
    (∀ r ∈ t.rows, ¬clash r a) ∧ t'.rows = t.rows ++ [a] := by
  unfold insert
  split_ifs with h
  · rw [Option.some.injEq, Table.ext_iff, eq_comm]
    exact (and_iff_right h).symm
  · exact iff_of_false (by simp) fun h' => h h'.1

theorem insert_eq_none [DecidableRel clash] : t.insert a = none ↔ ∃ r ∈ t.rows, clash r a := by
  unfold insert
  split_ifs with h
  · exact iff_of_false (by simp) fun ⟨r, hr, hc⟩ => h r hr hc
  · push Not at h
    exact iff_of_true rfl h

theorem modify_eq_some [DecidableRel clash] {f : α → α} : t.modify f = some t' ↔
    (t.rows.map f).Pairwise (fun a b => ¬clash a b) ∧ t'.rows = t.rows.map f := by
  unfold modify
  split_ifs with h
  · rw [Option.some.injEq, Table.ext_iff, eq_comm]
    exact (and_iff_right h).symm
  · exact iff_of_false (by simp) fun h' => h h'.1

/-- What leaves the keys alone can be done. -/
theorem modify_of_keys [DecidableRel clash] {f : α → α}
    (hf : ∀ a b, clash (f a) (f b) → clash a b) : t.modify f = some (t.update f hf) :=
  modify_eq_some.2 ⟨(t.update f hf).pairwise, rfl⟩

@[simp]
theorem mem_delete {p : α → Bool} : a ∈ (t.delete p).rows ↔ a ∈ t.rows ∧ p a = false := by
  simp [delete]

@[simp]
theorem mem_update {f : α → α} {hf : ∀ a b, clash (f a) (f b) → clash a b} :
    b ∈ (t.update f hf).rows ↔ ∃ a ∈ t.rows, f a = b := by
  simp [update]

/-! The rows that meet a condition, when a statement is not about them. -/

theorem filter_insert [DecidableRel clash] {p : α → Bool} (h : t.insert a = some t')
    (hp : p a = false) : t'.rows.filter p = t.rows.filter p := by
  rw [(insert_eq_some.1 h).2, List.filter_append, List.filter_singleton, hp]
  exact List.append_nil _

theorem filter_delete {p q : α → Bool} (h : ∀ a, p a = true → q a = false) :
    (t.delete q).rows.filter p = t.rows.filter p := by
  rw [delete, List.filter_filter]
  refine List.filter_congr fun a _ => ?_
  cases hp : p a with
  | false => rfl
  | true => rw [h a hp]; rfl

theorem filter_update {p : α → Bool} {f : α → α} (hf : ∀ a b, clash (f a) (f b) → clash a b)
    (hp : ∀ a, p (f a) = p a) (h : ∀ a, p a = true → f a = a) :
    (t.update f hf).rows.filter p = t.rows.filter p := by
  have hcomp : p ∘ f = p := funext hp
  rw [update, List.filter_map, hcomp]
  exact (List.map_congr_left fun a ha => h a (List.mem_filter.1 ha).2).trans (List.map_id' _)

/-- A key has at most one row. -/
theorem eq_of_clash [Std.Symm clash] (ha : a ∈ t.rows) (hb : b ∈ t.rows) (h : clash a b) :
    a = b := by
  have hsymm : Std.Symm fun a b => ¬clash a b := ⟨fun a b hab hba => hab (symm hba)⟩
  by_contra hne
  exact t.pairwise.forall ha hb hne h

/-- The only row that meets a condition, when any two rows that meet it clash. -/
theorem filter_of_clash {p : α → Bool} (ha : a ∈ t.rows) (hp : p a = true)
    (h : ∀ a b, p a = true → p b = true → clash a b) : t.rows.filter p = [a] := by
  have hmem : a ∈ t.rows.filter p := List.mem_filter.2 ⟨ha, hp⟩
  have hpairs : (t.rows.filter p).Pairwise fun a b => ¬clash a b := t.pairwise.filter p
  have hall : ∀ b ∈ t.rows.filter p, p b = true := fun b hb => (List.mem_filter.1 hb).2
  generalize t.rows.filter p = rows at hmem hpairs hall
  match rows with
  | [] => cases hmem
  | [b] => rw [List.mem_singleton.1 hmem]
  | b :: c :: rows =>
    rw [List.forall_mem_cons, List.forall_mem_cons] at hall
    exact absurd (h b c hall.1 hall.2.1) (List.rel_of_pairwise_cons hpairs List.mem_cons_self)

/-- A key finds its row. -/
theorem find?_eq_some [Std.Symm clash] {p : α → Bool} (ha : a ∈ t.rows) (hp : p a = true)
    (h : ∀ b ∈ t.rows, p b = true → clash a b) : t.rows.find? p = some a := by
  cases hf : t.rows.find? p with
  | none => exact absurd hp (List.find?_eq_none.1 hf a ha)
  | some b =>
    have hb := List.mem_of_find?_eq_some hf
    exact congrArg some (eq_of_clash ha hb (h b hb (List.find?_some hf))).symm

/-- A condition on the rows of two tables finds the only two that meet it. -/
theorem find?_product_eq_some {β : Type*} {as : List α} {bs : List β} {b : β} {p : α × β → Bool}
    (ha : a ∈ as) (hb : b ∈ bs) (hp : p (a, b) = true)
    (h : ∀ a' ∈ as, ∀ b' ∈ bs, p (a', b') = true → a' = a ∧ b' = b) :
    (as.product bs).find? p = some (a, b) := by
  cases hf : (as.product bs).find? p with
  | none => exact absurd hp (List.find?_eq_none.1 hf _ (List.pair_mem_product.2 ⟨ha, hb⟩))
  | some c =>
    obtain ⟨ha', hb'⟩ := List.pair_mem_product.1 (List.mem_of_find?_eq_some hf)
    obtain ⟨rfl, rfl⟩ := h c.1 ha' c.2 hb' (List.find?_some hf)
    rfl

/-- When a condition holds of a row and, besides, only of rows that clash with
    it, it holds of one row. -/
theorem countP_eq_one [Std.Symm clash] {p : α → Bool} (ha : a ∈ t.rows) (hp : p a = true)
    (h : ∀ b ∈ t.rows, p b = true → clash a b) : t.rows.countP p = 1 := by
  have hle : ∀ l : List α, l.Pairwise (fun a b => ¬clash a b) → (∀ b ∈ l, b = a) → l.length ≤ 1 := by
    rintro (_ | ⟨x, _ | ⟨y, l⟩⟩) hl hall
    · exact Nat.zero_le 1
    · exact le_rfl
    · have hx := hall x List.mem_cons_self
      have hy := hall y (List.mem_cons_of_mem _ List.mem_cons_self)
      rw [hx, hy, List.pairwise_cons] at hl
      exact absurd (h a ha hp) (hl.1 a List.mem_cons_self)
  rw [List.countP_eq_length_filter]
  refine le_antisymm (hle _ (t.pairwise.filter _) fun b hb => ?_) ?_
  · obtain ⟨hb, hpb⟩ := List.mem_filter.1 hb
    exact (eq_of_clash ha hb (h b hb hpb)).symm
  · exact List.length_pos_of_mem (List.mem_filter.2 ⟨ha, hp⟩)

end Table

end JobProvenance
