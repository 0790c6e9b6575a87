import JobProvenance.Lib.CString
import JobProvenance.Lib.Memory

/-!
# Terminated arrays

Arrays in memory that end with a null pointer, or with a record of zeroes: their cells
have a value or the terminator, and the array may itself be the null pointer.

* `Block.entries`: what is read up to the terminator; `Block.Terminated` says what this is
  (`entries_eq_ok`);
* `Block.scan`, `Block.text`: a search in an array, and the string in an array of bytes;
* `Block.strrchr`, `Block.strdup`: a search from the end of such a string, and a copy of it;
* `ListAt`: an array, or the null pointer instead of an empty one;
* `Holds.memcpy`, `Holds.closeGap`: copying values behind others, and moving values over
  a gap.
-/

namespace JobProvenance

variable {α : Type}

namespace Block

/-- The entries in front of the terminator. -/
def entries : Block (Option α) → Exec (List α)
  | some (some x) :: b => do return x :: (← entries b)
  | some none :: _ => .ok []
  | _ => .error .fault

/-- An array starts with some entries and the terminator. -/
def Terminated (b : Block (Option α)) (xs : List α) : Prop := b.Holds (xs.map some ++ [none])

/-- Copies cells from the start of an array. -/
def memcpy (b : Block α) (dst : ℕ) (src : Block α) (n : ℕ) : Exec (Block α) :=
  if n ≤ src.length ∧ dst + n ≤ b.length then
    .ok (b.take dst ++ (src.take n ++ b.drop (dst + n)))
  else .error .fault

/-- A new array of null pointers. -/
def calloc (n : ℕ) : Block (Option α) := List.replicate n (some none)

theorem holds_calloc (n : ℕ) : (calloc n : Block (Option α)).Holds (List.replicate n none) :=
  ⟨[], by rw [calloc, List.map_replicate, List.append_nil]⟩

theorem length_calloc (n : ℕ) : (calloc n : Block (Option α)).length = n := List.length_replicate

section Entries

variable {b : Block (Option α)} {xs ys : List α}

theorem terminated_iff :
    b.Terminated xs ↔ ∃ rest, b = xs.map (some ∘ some) ++ some none :: rest := by
  simp only [Terminated, Holds, List.map_append, List.map_map, List.map_cons, List.map_nil,
    List.append_assoc, List.singleton_append]

theorem Terminated.length_lt (h : b.Terminated xs) : xs.length < b.length := by
  have := h.length_le
  rwa [List.length_append, List.length_map, List.length_singleton, Nat.succ_le_iff] at this

/-- What is read up to the terminator is what is in front of it. -/
theorem entries_eq_ok : b.entries = .ok xs ↔ b.Terminated xs := by
  rw [terminated_iff]
  induction b generalizing xs with
  | nil => exact iff_of_false nofun fun ⟨rest, h⟩ => by simp at h
  | cons c b ih =>
    match c with
    | none =>
      refine iff_of_false nofun fun ⟨rest, h⟩ => ?_
      cases xs <;> simp at h
    | some none =>
      rw [entries, Except.ok.injEq]
      constructor
      · rintro rfl
        exact ⟨b, rfl⟩
      · rintro ⟨rest, h⟩
        cases xs with
        | nil => rfl
        | cons x xs => simp at h
    | some (some x) =>
      rw [entries, Exec.bind_eq_ok]
      constructor
      · rintro ⟨ys, hys, h⟩
        obtain rfl := Except.ok.inj h
        obtain ⟨rest, rfl⟩ := ih.1 hys
        exact ⟨rest, rfl⟩
      · rintro ⟨rest, h⟩
        cases xs with
        | nil => simp at h
        | cons y ys =>
          obtain ⟨hx, hb⟩ := List.cons.inj h
          obtain rfl := Option.some.inj (Option.some.inj hx)
          exact ⟨ys, ih.2 ⟨rest, hb⟩, rfl⟩

theorem Terminated.unique (h : b.Terminated xs) (h' : b.Terminated ys) : xs = ys :=
  Except.ok.inj ((entries_eq_ok.2 h).symm.trans (entries_eq_ok.2 h'))

/-- An entry is read. -/
theorem Terminated.read {i : ℕ} {x : α} (h : b.Terminated xs) (hx : xs[i]? = some x) :
    b.read i = .ok (some x) := by
  refine Holds.read h ?_
  rw [List.getElem?_append_left (by simpa using (List.getElem?_eq_some_iff.1 hx).1),
    List.getElem?_map, hx]
  rfl

/-- The terminator is written behind the entries. -/
theorem Holds.terminate (h : b.Holds (xs.map some)) (hlt : xs.length < b.length) :
    ∃ b', b.write xs.length none = .ok b' ∧ b'.Terminated xs ∧ b'.length = b.length := by
  have hwrite := h.write (by simpa using hlt) none
  rwa [List.length_map] at hwrite

end Entries

theorem length_write {b b' : Block α} {i : ℕ} {x : α} (h : b.write i x = .ok b') :
    b'.length = b.length := by
  rw [write] at h
  split_ifs at h
  rw [← Except.ok.inj h, List.length_set]

section Moves

variable {b src : Block α} {xs ys zs : List α}

/-- Values are copied behind those of an array. -/
theorem Holds.memcpy (h : b.Holds xs) (hsrc : src.Holds ys)
    (hle : xs.length + ys.length ≤ b.length) :
    ∃ b', b.memcpy xs.length src ys.length = .ok b' ∧ b'.Holds (xs ++ ys) ∧
      b'.length = b.length := by
  have hsrc' := hsrc.length_le
  refine ⟨_, if_pos ⟨hsrc', hle⟩, ?_, ?_⟩
  · obtain ⟨rest, rfl⟩ := h
    obtain ⟨rest', rfl⟩ := hsrc
    refine ⟨(xs.map some ++ rest).drop (xs.length + ys.length), ?_⟩
    rw [List.take_left' (List.length_map _), List.take_left' (List.length_map _), List.map_append,
      List.append_assoc]
  · simp only [List.length_append, List.length_take, List.length_drop]
    omega

/-- Values are moved over those in front of them. -/
theorem Holds.closeGap (h : b.Holds (xs ++ (ys ++ zs))) :
    ∃ b', b.memmove xs.length (xs.length + ys.length) zs.length = .ok b' ∧ b'.Holds (xs ++ zs) ∧
      b'.length = b.length := by
  have hlen := h.length_le
  rw [List.length_append, List.length_append] at hlen
  refine ⟨_, if_pos ⟨by omega, by omega⟩, ?_, ?_⟩
  · obtain ⟨rest, rfl⟩ := h
    refine ⟨((xs ++ (ys ++ zs)).map some ++ rest).drop (xs.length + zs.length), ?_⟩
    have hsplit : (xs ++ (ys ++ zs)).map some ++ rest =
        xs.map some ++ (ys.map some ++ (zs.map some ++ rest)) := by simp
    have hskip : ((xs ++ (ys ++ zs)).map some ++ rest).drop (xs.length + ys.length) =
        zs.map some ++ rest := by
      rw [hsplit, ← List.drop_drop, List.drop_left' (List.length_map _),
        List.drop_left' (List.length_map _)]
    rw [hskip, hsplit, List.take_left' (List.length_map _), List.take_left' (List.length_map _),
      List.map_append, List.append_assoc]
  · simp only [List.length_append, List.length_take, List.length_drop]
    omega

end Moves

section Text

/-- How many cells there are in front of the first one that `f` does not hold of. -/
def scan (f : α → Bool) : Block α → Exec ℕ
  | some x :: b => if f x then do return (← scan f b) + 1 else return 0
  | _ => .error .fault

/-- The string in a block: the bytes in front of the first zero byte. -/
def text : Block UInt8 → Exec Bytes
  | some c :: b => if c = 0 then return [] else do return c :: (← text b)
  | _ => .error .fault

/-- The block of a string: its bytes and the terminator. -/
def ofString (s : Bytes) : Block UInt8 := (s ++ [0]).map some

/-- Where the last `c` is in the string of a block. -/
def strrchr (c : UInt8) : Block UInt8 → Exec (Option ℕ)
  | some x :: b => do
    let later ← if x = 0 then pure none else strrchr c b
    match later with
    | some i => return some (i + 1)
    | none => return if x = c then some 0 else none
  | _ => .error .fault

/-- Copies the string of a block, when there is room for the copy. -/
def strdup (room : Bool) (b : Block UInt8) : Exec (Option (Block UInt8)) := do
  let s ← b.text
  if room then return some (← (malloc (s.length + 1)).writeAll 0 (s ++ [0])) else return none

theorem Holds.drop {b : Block α} {xs ys : List α} (h : b.Holds (xs ++ ys)) :
    Holds (b.drop xs.length) ys := by
  obtain ⟨rest, rfl⟩ := h
  refine ⟨rest, ?_⟩
  rw [List.map_append, List.append_assoc, List.drop_left' (List.length_map ..)]

theorem Holds.scan {b : Block α} {f : α → Bool} {xs ys : List α} {y : α}
    (h : b.Holds (xs ++ y :: ys)) (hxs : ∀ x ∈ xs, f x = true) (hy : f y = false) :
    b.scan f = .ok xs.length := by
  obtain ⟨rest, rfl⟩ := h
  induction xs with
  | nil =>
    rw [List.nil_append, List.map_cons, List.cons_append, Block.scan,
      if_neg (Bool.eq_false_iff.1 hy)]
    rfl
  | cons x xs ih =>
    rw [List.forall_mem_cons] at hxs
    rw [List.cons_append, List.map_cons, List.cons_append, Block.scan, if_pos hxs.1, ih hxs.2]
    rfl

theorem Holds.text {b : Block UInt8} {s rest : Bytes} (h : b.Holds (s ++ 0 :: rest))
    (hs : 0 ∉ s) : b.text = .ok s := by
  obtain ⟨rest', rfl⟩ := h
  induction s with
  | nil => rfl
  | cons c s ih =>
    rw [List.mem_cons, not_or] at hs
    rw [List.cons_append, List.map_cons, List.cons_append, Block.text, if_neg (Ne.symm hs.1),
      ih hs.2]
    rfl

theorem holds_ofString (s : Bytes) : (ofString s).Holds (s ++ [0]) := ⟨[], (List.append_nil _).symm⟩

theorem text_ofString {s : Bytes} (hs : 0 ∉ s) : (ofString s).text = .ok s :=
  (holds_ofString s).text hs

/-- A string without the character. -/
theorem Holds.strrchr_eq_none {b : Block UInt8} {c : UInt8} {s rest : Bytes}
    (h : b.Holds (s ++ 0 :: rest)) (hs : 0 ∉ s) (hc : c ≠ 0) (hcs : c ∉ s) :
    b.strrchr c = .ok none := by
  obtain ⟨rest', rfl⟩ := h
  induction s with
  | nil =>
    rw [List.nil_append, List.map_cons, List.cons_append, Block.strrchr, if_pos rfl]
    exact congrArg Except.ok (if_neg (Ne.symm hc))
  | cons x s ih =>
    rw [List.mem_cons, not_or] at hs hcs
    rw [List.cons_append, List.map_cons, List.cons_append, Block.strrchr, if_neg (Ne.symm hs.1),
      ih hs.2 hcs.2]
    exact congrArg Except.ok (if_neg (Ne.symm hcs.1))

/-- The last one is found: there is none behind it. -/
theorem Holds.strrchr_eq_some {b : Block UInt8} {c : UInt8} {p s rest : Bytes}
    (h : b.Holds (p ++ c :: (s ++ 0 :: rest))) (hp : 0 ∉ p) (hs : 0 ∉ s) (hc : c ≠ 0)
    (hcs : c ∉ s) : b.strrchr c = .ok (some p.length) := by
  obtain ⟨rest', rfl⟩ := h
  induction p with
  | nil =>
    have hbehind : Block.strrchr c ((s ++ 0 :: rest).map some ++ rest') = .ok none :=
      Holds.strrchr_eq_none ⟨rest', rfl⟩ hs hc hcs
    rw [List.nil_append, List.map_cons, List.cons_append, Block.strrchr, if_neg hc, hbehind]
    exact congrArg Except.ok (if_pos rfl)
  | cons x p ih =>
    rw [List.mem_cons, not_or] at hp
    rw [List.cons_append, List.map_cons, List.cons_append, Block.strrchr, if_neg (Ne.symm hp.1),
      ih hp.2]
    rfl

/-- A copy of the string has its bytes and the terminator, and nothing else. -/
theorem Holds.strdup {b : Block UInt8} {s rest : Bytes} (h : b.Holds (s ++ 0 :: rest))
    (hs : 0 ∉ s) (room : Bool) :
    b.strdup room = .ok (if room then some (ofString s) else none) := by
  rw [Block.strdup, h.text hs, Exec.ok_bind]
  cases room with
  | false => rfl
  | true =>
    have hlen : (malloc (s.length + 1) : Block UInt8).length = (s ++ [0]).length := by
      rw [length_malloc, List.length_append, List.length_singleton]
    obtain ⟨copy, hcopy, hholds, hsize⟩ := @Holds.writeAll UInt8 _ [] (s ++ [0])
      (holds_malloc (s.length + 1)) (by rw [hlen, List.length_nil, Nat.zero_add])
    rw [if_pos rfl, if_pos rfl, ← @List.length_nil UInt8, hcopy, Exec.ok_bind]
    exact congrArg (Except.ok ∘ some) (hholds.eq_of_length (hsize.trans hlen))

end Text

end Block

/-! ## Arrays that may be null -/

/-- A search by calls that return finds what their results say. -/
theorem Exec.anyM_of_ok {β : Type} {f : β → Exec Bool} {g : β → Bool} {as : List β}
    (h : ∀ a ∈ as, f a = .ok (g a)) : as.anyM f = .ok (as.any g) := by
  induction as with
  | nil => rfl
  | cons a as ih =>
    rw [List.forall_mem_cons] at h
    rw [List.anyM, h.1, Exec.ok_bind, List.any_cons]
    cases g a with
    | true => rfl
    | false => exact ih h.2

/-- An array has some entries; the null pointer has none. -/
def ListAt (p : Option (Block (Option α))) (xs : List α) : Prop :=
  match p with
  | none => xs = []
  | some b => b.Terminated xs

/-- The entries of an array that may be the null pointer. -/
def entriesOf (p : Option (Block (Option α))) : Exec (List α) :=
  match p with
  | none => .ok []
  | some b => b.entries

/-- A terminated array of strings, which may be the null pointer. -/
abbrev Strings := Option (Block (Option Bytes))

/-- An entry of an array, by its index. -/
def readEntry (p : Option (Block (Option α))) (i : ℕ) : Exec α := do
  let b ← Exec.deref p
  Exec.deref (← b.read i)

/-- The entries of an array, as many as are counted. -/
def readCounted (p : Option (Block (Option α))) (n : ℕ) : Exec (List α) :=
  (List.range n).mapM (readEntry p)

/-- An array has some entries, and room for one more cell; there is none only for no
    entries. -/
def Holding (p : Option (Block (Option α))) (xs : List α) : Prop :=
  match p with
  | none => xs = []
  | some b => b.Holds (xs.map some) ∧ xs.length < b.length

section ListAt

variable {p : Option (Block (Option α))} {xs : List α} {x : α} {n : ℕ}

theorem entriesOf_eq_ok : entriesOf p = .ok xs ↔ ListAt p xs := by
  cases p with
  | none => exact ⟨fun h => (Except.ok.inj h).symm, fun h => congrArg Except.ok (Eq.symm h)⟩
  | some b => exact Block.entries_eq_ok

theorem ListAt.holding (h : ListAt p xs) : Holding p xs := by
  cases p with
  | none => exact h
  | some b => exact ⟨Block.Holds.of_append h, Block.Terminated.length_lt h⟩

theorem Holding.readEntry {i : ℕ} (h : Holding p xs) (hx : xs[i]? = some x) :
    readEntry p i = .ok x := by
  cases p with
  | none =>
    obtain rfl : xs = [] := h
    cases hx
  | some b =>
    have hcell : (xs.map some)[i]? = some (some x) := by
      rw [List.getElem?_map, hx]
      rfl
    rw [JobProvenance.readEntry, Exec.deref, Exec.ok_bind, h.1.read hcell, Exec.ok_bind, Exec.deref]

/-- As many entries as there are, are read. -/
theorem readCounted_eq (h : Holding p xs) : readCounted p xs.length = .ok xs := by
  have hread : ∀ i, (hi : i < xs.length) → readEntry p i = Except.ok xs[i] := fun i hi =>
    h.readEntry (List.getElem?_eq_getElem hi)
  rw [readCounted, Exec.mapM_range hread]
  exact Exec.mapM_eq_ok.2 (List.forall₂_same.2 fun _ _ => rfl)

/-- The entries stay when the array grows. -/
theorem Holding.realloc (h : Holding p xs) (hn : xs.length ≤ n) :
    (Block.realloc p n).Holds (xs.map some) := by
  cases p with
  | none =>
    obtain rfl : xs = [] := h
    exact ⟨_, rfl⟩
  | some b => exact h.1.realloc (by rwa [List.length_map])

/-- An entry is put behind the others when the array grows. -/
theorem Holding.grow (h : Holding p xs) (x : α) :
    ∃ b, (Block.realloc p (xs.length + 2)).write xs.length (some x) = .ok b ∧
      Holding (some b) (xs ++ [x]) := by
  have hlen := Block.length_realloc p (xs.length + 2)
  obtain ⟨b, hw, hholds, hlen'⟩ := (h.realloc (Nat.le_add_right _ 2)).write
    (by rw [List.length_map, hlen]; omega) (some x)
  rw [List.length_map] at hw
  refine ⟨b, hw, by rwa [List.map_append], ?_⟩
  rw [hlen', hlen, List.length_append, List.length_singleton]
  omega

end ListAt

end JobProvenance
