import JobProvenance.Lib.Exec

/-!
# Arrays that may be null

An array whose end is marked in itself, or counted next to it, is a pointer, and an
array without elements may be the null pointer or an array of which the end is all
there is. A program that takes the one for the other reads or writes at the null
pointer; here this is a way to stop of its own, next to those of `Exec`.

* `Arr.elements`, `Arr.take`, `Arr.push`: what reads and writes an array, whoever
  holds the null pointer;
* `Arr.grow`, `Arr.alloc`: what gets memory for it, and `Arr.ofList`: the array that
  some elements, one by one, made grow;
* `ofExec`: a call that uses no such array.
-/

namespace JobProvenance

/-- How a call on arrays ends without a result. -/
inductive ListStop
  /-- It uses the null pointer as an array. -/
  | nullList
  /-- It ends in another way. -/
  | stop (s : Stop)
  deriving DecidableEq

/-- A call on arrays. -/
abbrev Guarded := Except ListStop

/-- A call that uses no array that may be null. -/
def ofExec {α : Type} (x : Exec α) : Guarded α := x.mapError ListStop.stop

/-- An array, or the null pointer. -/
abbrev Arr (α : Type) := Option (List α)

namespace Arr

variable {α : Type}

/-- The elements up to the end. -/
def elements : Arr α → Guarded (List α)
  | some as => .ok as
  | none => .error .nullList

/-- The first elements, as many as are counted; of none, nothing is read. -/
def take (p : Arr α) (n : ℕ) : Guarded (List α) :=
  if n = 0 then .ok []
  else do
    let as ← p.elements
    if n ≤ as.length then return as.take n else .error (.stop .fault)

/-- Writes an element behind the others; there is room for it when there is an array. -/
def push (p : Arr α) (a : α) : Guarded (Arr α) := do
  let as ← p.elements
  return some (as ++ [a])

/-- Gets memory for one element more, and writes it there. -/
def grow (p : Arr α) (a : α) : Arr α := some (p.getD [] ++ [a])

/-- Gets memory for some elements; for none, there is no array. -/
def alloc (n : ℕ) : Arr α := if n = 0 then none else some []

/-- The array of elements for each of which it grew. -/
def ofList (as : List α) : Arr α := if as = [] then none else some as

variable {as bs : List α} {n : ℕ}

@[simp]
theorem ofList_nil : ofList ([] : List α) = none := rfl

theorem ofList_of_ne_nil (h : as ≠ []) : ofList as = some as := if_neg h

theorem ofList_eq_none : ofList as = none ↔ as = [] := by
  unfold ofList
  split_ifs with h
  · exact iff_of_true rfl h
  · exact iff_of_false nofun h

@[simp]
theorem getD_ofList : (ofList as).getD [] = as := by
  unfold ofList
  split_ifs with h
  · exact h.symm
  · rfl

theorem grow_ofList (as : List α) (a : α) : (ofList as).grow a = ofList (as ++ [a]) := by
  rw [grow, getD_ofList, ofList_of_ne_nil (List.concat_ne_nil a as)]

/-- An array that grows for each of some elements. -/
theorem foldl_grow (as bs : List α) : bs.foldl grow (ofList as) = ofList (as ++ bs) := by
  induction bs generalizing as with
  | nil => rw [List.foldl_nil, List.append_nil]
  | cons b bs ih => rw [List.foldl_cons, grow_ofList, ih, List.append_assoc, List.singleton_append]

/-- Only of no elements the null pointer is read. -/
theorem elements_ofList (h : as ≠ []) : (ofList as).elements = .ok as := by
  rw [ofList_of_ne_nil h]
  rfl

/-- As many elements as are counted are there. -/
theorem take_ofList (h : n ≤ as.length) : (ofList as).take n = .ok (as.take n) := by
  unfold take
  split_ifs with hn
  · rw [hn, List.take_zero]
  · have hne : as ≠ [] := List.ne_nil_of_length_pos (lt_of_lt_of_le (Nat.pos_of_ne_zero hn) h)
    rw [elements_ofList hne]
    exact if_pos h

theorem take_ofList_length (as : List α) : (ofList as).take as.length = .ok as := by
  rw [take_ofList le_rfl, List.take_length]

end Arr

/-! ## Calls without arrays -/

section OfExec

variable {α β : Type} {x : Exec α} {f : α → Exec β}

@[simp]
theorem ofExec_ok (a : α) : ofExec (.ok a : Exec α) = .ok a := rfl

@[simp]
theorem ofExec_error (e : Stop) : ofExec (.error e : Exec α) = .error (.stop e) := rfl

theorem ofExec_bind : ofExec (x >>= f) = (ofExec x >>= fun a => ofExec (f a)) := by
  cases x <;> rfl

/-- Such a call does not use the null pointer as an array. -/
theorem ofExec_ne_nullList : ofExec x ≠ .error .nullList := by
  cases x with
  | ok a => exact nofun
  | error e => exact fun h => nomatch Except.error.inj h

theorem ofExec_eq_ok {a : α} : ofExec x = .ok a ↔ x = .ok a := by
  cases x with
  | ok b => rw [ofExec_ok, Except.ok.injEq, Except.ok.injEq]
  | error e => exact iff_of_false nofun nofun

theorem ofExec_mapM (as : List α) : ofExec (as.mapM f) = as.mapM fun a => ofExec (f a) := by
  induction as with
  | nil => rfl
  | cons a as ih =>
    rw [List.mapM_cons, List.mapM_cons, ofExec_bind]
    simp only [ofExec_bind, ih]
    rfl

theorem ofExec_allM {f : α → Exec Bool} (as : List α) :
    ofExec (as.allM f) = as.allM fun a => ofExec (f a) := by
  induction as with
  | nil => rfl
  | cons a as ih =>
    rw [List.allM, List.allM, ofExec_bind]
    congr 1
    funext passed
    cases passed with
    | true => exact ih
    | false => rfl

@[simp]
theorem Guarded.ok_bind {β : Type} (a : α) (f : α → Guarded β) :
    ((.ok a : Guarded α) >>= f) = f a := rfl

@[simp]
theorem Guarded.error_bind {β : Type} (e : ListStop) (f : α → Guarded β) :
    ((.error e : Guarded α) >>= f) = .error e := rfl

end OfExec

end JobProvenance
