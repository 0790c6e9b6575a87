import JobProvenance.Lib.Exec

/-!
# Blocks of memory

An array on the heap, of some number of cells, where a cell that was never written
holds nothing. Whatever is read or written outside the array, or read of a cell
without a value, leaves the language.

`Holds` says which values an array starts with; reading (`Holds.read`), growing
(`Holds.realloc`), writing behind the values (`Holds.write`, `Holds.writeAll`) and
shifting them (`Holds.memmove`) are rules about it.
-/

namespace JobProvenance

variable {α : Type}

/-- An array: its cells. -/
abbrev Block (α : Type) := List (Option α)

namespace Block

/-- Reads a cell. -/
def read (b : Block α) (i : ℕ) : Exec α :=
  match b[i]? with
  | some (some x) => .ok x
  | _ => .error .fault

/-- Writes a cell. -/
def write (b : Block α) (i : ℕ) (x : α) : Exec (Block α) :=
  if i < b.length then .ok (b.set i (some x)) else .error .fault

/-- The array at a pointer, which may be null, when it gets another size. -/
def realloc (b : Option (Block α)) (n : ℕ) : Block α :=
  (b.getD []).take n ++ List.replicate (n - (b.getD []).length) none

/-- A new array. -/
def malloc (n : ℕ) : Block α := List.replicate n none

/-- Writes values into cells that follow each other. -/
def writeAll (b : Block α) (i : ℕ) : List α → Exec (Block α)
  | [] => .ok b
  | x :: xs => do
    let b ← b.write i x
    b.writeAll (i + 1) xs

/-- Moves cells within an array. -/
def memmove (b : Block α) (dst src n : ℕ) : Exec (Block α) :=
  if src + n ≤ b.length ∧ dst + n ≤ b.length then
    .ok (b.take dst ++ ((b.drop src).take n ++ b.drop (dst + n)))
  else .error .fault

/-- An array starts with some values. -/
def Holds (b : Block α) (xs : List α) : Prop := ∃ rest, b = xs.map some ++ rest

variable {b : Block α} {xs ys : List α} {x : α}

theorem Holds.read {i : ℕ} (h : b.Holds xs) (hx : xs[i]? = some x) : b.read i = .ok x := by
  obtain ⟨rest, rfl⟩ := h
  have hi : i < xs.length := (List.getElem?_eq_some_iff.1 hx).1
  have hcell : (xs.map some ++ rest)[i]? = some (some x) := by
    rw [List.getElem?_append_left (by simpa using hi), List.getElem?_map, hx]
    rfl
  rw [Block.read, hcell]

theorem Holds.length_le (h : b.Holds xs) : xs.length ≤ b.length := by
  obtain ⟨rest, rfl⟩ := h
  simp

theorem Holds.of_append (h : b.Holds (xs ++ ys)) : b.Holds xs := by
  obtain ⟨rest, rfl⟩ := h
  exact ⟨ys.map some ++ rest, by simp⟩

/-- An array of as many cells as values has nothing else. -/
theorem Holds.eq_of_length (h : b.Holds xs) (hlen : b.length = xs.length) : b = xs.map some := by
  obtain ⟨rest, rfl⟩ := h
  rw [List.length_append, List.length_map, Nat.add_eq_left, List.length_eq_zero_iff] at hlen
  rw [hlen, List.append_nil]

theorem length_realloc (b : Option (Block α)) (n : ℕ) : (realloc b n).length = n := by
  rw [realloc, List.length_append, List.length_take, List.length_replicate]
  omega

/-- What fits into the new size stays. -/
theorem Holds.realloc {n : ℕ} (h : b.Holds xs) (hn : xs.length ≤ n) :
    (Block.realloc (some b) n).Holds xs := by
  obtain ⟨rest, rfl⟩ := h
  refine ⟨rest.take (n - xs.length) ++ List.replicate (n - (xs.map some ++ rest).length) none, ?_⟩
  rw [Block.realloc, Option.getD_some, List.take_append, List.take_of_length_le (by simpa using hn),
    List.length_map, List.append_assoc]

/-- Writes a value behind the values. -/
theorem Holds.write (h : b.Holds xs) (hlt : xs.length < b.length) (x : α) :
    ∃ b', b.write xs.length x = .ok b' ∧ b'.Holds (xs ++ [x]) ∧ b'.length = b.length := by
  obtain ⟨rest, rfl⟩ := h
  refine ⟨_, if_pos hlt, ?_, List.length_set ..⟩
  cases rest with
  | nil => simp at hlt
  | cons c rest =>
    refine ⟨rest, ?_⟩
    rw [List.set_append_right _ _ (by simp)]
    simp

/-- Writes a value over one of the values. -/
theorem Holds.overwrite {y : α} (h : b.Holds (xs ++ y :: ys)) (x : α) :
    ∃ b', b.write xs.length x = .ok b' ∧ b'.Holds (xs ++ x :: ys) := by
  obtain ⟨rest, rfl⟩ := h
  refine ⟨_, if_pos (by simp), rest, ?_⟩
  simp

/-- Writes values behind the values. -/
theorem Holds.writeAll (h : b.Holds xs) (hle : xs.length + ys.length ≤ b.length) :
    ∃ b', b.writeAll xs.length ys = .ok b' ∧ b'.Holds (xs ++ ys) ∧ b'.length = b.length := by
  induction ys generalizing b xs with
  | nil => exact ⟨b, rfl, by rwa [List.append_nil], rfl⟩
  | cons y ys ih =>
    rw [List.length_cons] at hle
    obtain ⟨b₁, hb₁, hholds, hlen⟩ := h.write (by omega) y
    obtain ⟨b₂, hb₂, hholds, hlen'⟩ := ih hholds (by
      rw [List.length_append, List.length_singleton]
      omega)
    rw [List.append_assoc, List.singleton_append] at hholds
    rw [List.length_append, List.length_singleton] at hb₂
    refine ⟨b₂, ?_, hholds, hlen'.trans hlen⟩
    rw [Block.writeAll, hb₁, Exec.ok_bind, hb₂]

theorem holds_malloc (n : ℕ) : (malloc n : Block α).Holds [] := ⟨_, rfl⟩

theorem length_malloc (n : ℕ) : (malloc n : Block α).length = n := List.length_replicate

/-- Shifts the values over the first of them. -/
theorem Holds.memmove (h : b.Holds (x :: xs)) :
    ∃ b', b.memmove 0 1 xs.length = .ok b' ∧ b'.Holds xs ∧ b'.length = b.length := by
  have hlen := h.length_le
  rw [List.length_cons] at hlen
  refine ⟨_, if_pos ⟨by omega, by omega⟩, ?_, ?_⟩
  · obtain ⟨rest, rfl⟩ := h
    refine ⟨((x :: xs).map some ++ rest).drop (0 + xs.length), ?_⟩
    rw [List.take_zero, List.nil_append, List.map_cons, List.cons_append, List.drop_succ_cons,
      List.drop_zero, List.take_append_of_le_length (by simp), List.take_of_length_le (by simp)]
  · simp only [List.length_append, List.length_take, List.length_drop, List.take_zero,
      List.length_nil]
    omega

end Block

end JobProvenance
