import Mathlib.Data.List.Basic
import Mathlib.Tactic

/-!
# Batches

Items are stacked, and the stack is taken away as a batch whenever it has grown
to a given size. `Batched` relates the items so far to the batches taken away and
the stack.

* `Batched.push`, `Batched.take`: what a further item does;
* `Batched.eq_nil_iff`: when nothing is left on the stack.
-/

namespace JobProvenance

/-- The items, in batches of `size` and a rest of fewer. -/
structure Batched {α : Type*} (size : ℕ) (items : List α) (batches : List (List α))
    (rest : List α) : Prop where
  flatten : batches.flatten ++ rest = items
  length_batch : ∀ b ∈ batches, b.length = size
  length_rest : rest.length < size

namespace Batched

variable {α : Type*} {size : ℕ} {items : List α} {batches : List (List α)} {rest : List α} {a : α}

/-- Nothing yet. -/
theorem nil (h : 0 < size) : Batched (α := α) size [] [] [] := ⟨rfl, by simp, h⟩

/-- An item is stacked. -/
theorem push (h : Batched size items batches rest) (hlt : rest.length + 1 < size) :
    Batched size (items ++ [a]) batches (rest ++ [a]) where
  flatten := by rw [← h.flatten, List.append_assoc]
  length_batch := h.length_batch
  length_rest := by rwa [List.length_append, List.length_singleton]

/-- An item completes a batch. -/
theorem take (h : Batched size items batches rest) (hle : size ≤ rest.length + 1) :
    Batched size (items ++ [a]) (batches ++ [rest ++ [a]]) [] where
  flatten := by rw [← h.flatten]; simp
  length_batch := by
    have hlen : (rest ++ [a]).length = size := by
      rw [List.length_append, List.length_singleton]
      exact le_antisymm h.length_rest hle
    intro b hb
    rcases List.mem_append.1 hb with hb | hb
    · exact h.length_batch b hb
    · rw [List.mem_singleton.1 hb, hlen]
  length_rest := lt_of_le_of_lt (Nat.zero_le _) h.length_rest

theorem length_eq (h : Batched size items batches rest) :
    items.length = size * batches.length + rest.length := by
  have hsum : (batches.map List.length).sum = size * batches.length := by
    rw [List.map_congr_left h.length_batch, List.map_const', List.sum_replicate, smul_eq_mul,
      mul_comm]
  rw [← h.flatten, List.length_append, List.length_flatten, hsum]

/-- Nothing is left when the number of items is a multiple of the size. -/
theorem eq_nil_iff (h : Batched size items batches rest) : rest = [] ↔ size ∣ items.length := by
  rw [h.length_eq, Nat.dvd_add_right (dvd_mul_right _ _)]
  constructor
  · rintro rfl
    exact dvd_zero _
  · intro hd
    exact List.length_eq_zero_iff.1 (Nat.eq_zero_of_dvd_of_lt hd h.length_rest)

end Batched

end JobProvenance
