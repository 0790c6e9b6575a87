import JobProvenance.Client.Message
import Mathlib.Data.List.DropRight

/-!
# Which messages are parsed as they are meant

A line of a message is meant to be blank, or to have a key, blanks and a value. When every
line is so (`msgEntries`), `parseMsg` finds the last value of each key that is in the table
(`parseMsg_of_entries`).

A line with a key alone should end the parsing. But the blank behind the key is looked for
in the lines that follow, and each line that is tried there cuts the message at another
blank. The parsing ends as it should only when one of these cuts meets the blanks at the end
of the message (`CutToEnd`).

* `parseLine_of_shape`, `parseLine_bare`: what becomes of one line;
* `parsedAsMeant_iff`: which messages are parsed as they are meant.
-/

namespace JobProvenance

/-! ## Messages as they are meant -/

/-- The key and the value of a line; a line may be blank, and it may be faulty. -/
def lineEntry (line : Bytes) : Option (Option (Bytes × Bytes)) :=
  if line.dropWhile isBlank = [] then some none
  else
    let key := (line.dropWhile isBlank).takeWhile (!isBlank ·)
    let val := ((line.dropWhile isBlank).dropWhile (!isBlank ·)).dropWhile isBlank
    if val = [] then none else some (some (key, val))

/-- The lines of a message. -/
def msgLines (msg : Bytes) : List Bytes := msg.splitOn (ch '\n')

/-- The keys and values of some lines, unless one of them is faulty. -/
def lineEntries : List Bytes → Option (List (Bytes × Bytes))
  | [] => some []
  | line :: lines => do
    let entry ← lineEntry line
    let entries ← lineEntries lines
    return entry.toList ++ entries

/-- The last value of a key. -/
def lastValue {α : Type} (entries : List (Bytes × α)) (key : Bytes) : Option α :=
  (entries.reverse.find? (·.1 = key)).map Prod.snd

/-- A table has the last value of each of its keys that occurs; the entries of the others are
    as before. -/
structure TableFilled (entries : List (Bytes × Bytes)) (tab : MsgPattern) (buf : Bytes)
    (tab' : MsgPattern) : Prop where
  keys : tab'.map Prod.fst = tab.map Prod.fst
  value : ∀ key ∈ tab.map Prod.fst, ∀ val, lastValue entries key = some val →
    msgValue buf tab' key = some val
  others : ∀ (i : ℕ) (entry : Bytes × Option ℕ), tab[i]? = some entry → entry.1 ∉ entries.map Prod.fst →
    tab'[i]? = some entry

/-- A message is parsed as it is meant: without leaving it, up to its end unless it has a faulty
    line, and with the values of all its keys in the table then. -/
def ParsedAsMeant (msg : Bytes) (tab : MsgPattern) : Prop :=
  match lineEntries (msgLines msg) with
  | none => parseMsg msg tab = .ok none
  | some entries => ∃ buf tab', parseMsg msg tab = .ok (some (buf, tab')) ∧
      TableFilled entries tab buf tab'

/-- Bytes that end with a blank. -/
def EndsBlank (s : Bytes) : Prop := ∃ b ∈ s.getLast?, isBlank b = true

/-- The number of blanks without those at the end. -/
def innerBlanks (s : Bytes) : ℕ := (s.rdropWhile isBlank).countP isBlank

/-- What follows a key alone ends with a blank, and of the other blanks there there are not more
    than lines before the first of them. -/
def CutToEnd (rest : Bytes) : Prop :=
  EndsBlank rest ∧
    innerBlanks rest ≤ (strtok (ch '\n') (rest.takeWhile (!isBlank ·))).length

/-- The first faulty line has a blank behind its key, or what follows it is cut to its end. -/
def EndsAtFault : List Bytes → Prop
  | [] => True
  | line :: lines =>
    match lineEntry line with
    | some _ => EndsAtFault lines
    | none => (∃ b ∈ line.dropWhile isBlank, isBlank b = true) ∨
        CutToEnd ([ch '\n'].intercalate lines)

/-! ## The shapes of lines -/

section Shapes

variable {bl bl' key val w : Bytes} {b c : UInt8}

/-- The shapes of lines, and their entries. -/
inductive LineShape : Bytes → Option (Option (Bytes × Bytes)) → Prop
  | blank {w : Bytes} : (∀ b ∈ w, isBlank b = true) → LineShape w (some none)
  | entry {bl key bl' val : Bytes} {b c : UInt8} : (∀ b ∈ bl, isBlank b = true) → key ≠ [] →
      (∀ b ∈ key, isBlank b = false) → isBlank b = true → (∀ b ∈ bl', isBlank b = true) →
      isBlank c = false →
      LineShape (bl ++ (key ++ b :: (bl' ++ c :: val))) (some (some (key, c :: val)))
  | noValue {bl key bl' : Bytes} {b : UInt8} : (∀ b ∈ bl, isBlank b = true) → key ≠ [] →
      (∀ b ∈ key, isBlank b = false) → isBlank b = true → (∀ b ∈ bl', isBlank b = true) →
      LineShape (bl ++ (key ++ b :: bl')) none
  | bare {bl key : Bytes} : (∀ b ∈ bl, isBlank b = true) → key ≠ [] →
      (∀ b ∈ key, isBlank b = false) → LineShape (bl ++ key) none

/-- A list begins with what meets a condition, and then is at its end or meets it no more. -/
theorem takeWhile_cases (p : UInt8 → Bool) (w : Bytes) :
    ∃ xs, (∀ b ∈ xs, p b = true) ∧ w.takeWhile p = xs ∧
      (w = xs ∧ w.dropWhile p = [] ∨
        ∃ c ys, w = xs ++ c :: ys ∧ p c = false ∧ w.dropWhile p = c :: ys) := by
  refine ⟨w.takeWhile p, fun b hb => List.mem_takeWhile_imp hb, rfl, ?_⟩
  cases hrest : w.dropWhile p with
  | nil => exact .inl ⟨by rw [← List.append_nil (w.takeWhile p), ← hrest,
      List.takeWhile_append_dropWhile], rfl⟩
  | cons c ys =>
    refine .inr ⟨c, ys, ?_, ?_, rfl⟩
    · rw [← hrest, List.takeWhile_append_dropWhile]
    · have hpos : 0 < (w.dropWhile p).length := by rw [hrest]; exact Nat.succ_pos _
      have hhead := List.dropWhile_get_zero_not p w hpos
      simpa [hrest] using hhead

theorem lineShape (w : Bytes) : LineShape w (lineEntry w) := by
  rw [lineEntry]
  obtain ⟨bl, hbl, -, ⟨hw, hdrop⟩ | ⟨k, s, rfl, hk, hdrop⟩⟩ := takeWhile_cases isBlank w
  · rw [if_pos hdrop]
    exact .blank (hw ▸ hbl)
  rw [hdrop, if_neg (List.cons_ne_nil _ _)]
  obtain ⟨key, hkey, htake, ⟨hw, hdrop⟩ | ⟨b, s', hw, hb, hdrop⟩⟩ :=
    takeWhile_cases (!isBlank ·) (k :: s)
  · rw [hdrop, htake]
    rw [hw]
    exact .bare hbl (hw ▸ List.cons_ne_nil _ _) fun b hb => by simpa using hkey b hb
  have hkey : ∀ b ∈ key, isBlank b = false := fun b hb => by simpa using hkey b hb
  have hb : isBlank b = true := by simpa using hb
  have hne : key ≠ [] := fun h => by
    rw [h, List.nil_append] at hw
    exact absurd (hb.symm.trans ((List.cons.inj hw).1 ▸ hk)) (by decide)
  rw [hdrop, htake, hw]
  obtain ⟨bl', hbl', -, ⟨hw', hdrop'⟩ | ⟨c, val, rfl, hc, hdrop'⟩⟩ := takeWhile_cases isBlank s'
  · rw [List.dropWhile_cons_of_pos hb, hdrop']
    exact hw' ▸ .noValue hbl hne hkey hb hbl'
  · rw [List.dropWhile_cons_of_pos hb, hdrop']
    exact .entry hbl hne hkey hb hbl' hc

end Shapes

/-! ## What becomes of one line -/

section Line

variable {p : UInt8 → Bool} {pre xs post w bl bl' key val : Bytes} {b c : UInt8} {tab : MsgPattern}

theorem charAt_append (pre : Bytes) (c : UInt8) (post : Bytes) :
    charAt (pre ++ c :: post) pre.length = .ok c := by
  rw [charAt, List.getElem?_append_right le_rfl, Nat.sub_self]
  rfl

theorem skipWhile_append (pre post : Bytes) (hxs : ∀ b ∈ xs, p b = true) (hc : p c = false) :
    skipWhile p (pre ++ (xs ++ c :: post)) pre.length = .ok (pre ++ xs).length := by
  have hidx : (xs ++ c :: post).findIdx? (fun c => !p c) = some xs.length := by
    induction xs with
    | nil => simp [List.findIdx?_cons, hc]
    | cons x xs ih =>
      rw [List.forall_mem_cons] at hxs
      simp [List.findIdx?_cons, hxs.1, ih hxs.2]
  rw [skipWhile, List.drop_left, hidx, List.length_append]

/-- A place that is not there is looked for beyond the memory. -/
theorem skipWhile_fault (pre : Bytes) (hxs : ∀ b ∈ xs, p b = true) :
    skipWhile p (pre ++ xs) pre.length = .error .fault := by
  have hidx : xs.findIdx? (fun c => !p c) = none :=
    List.findIdx?_eq_none_iff.2 fun b hb => by simp [hxs b hb]
  rw [skipWhile, List.drop_left, hidx]

theorem parseLine_blank (pre post : Bytes) (hw : ∀ b ∈ w, isBlank b = true) :
    parseLine (pre ++ (w ++ 0 :: post)) tab pre.length = .ok (some (pre ++ (w ++ 0 :: post), tab)) := by
  rw [parseLine, skipWhile_append pre post hw (by decide), Exec.ok_bind, ← List.append_assoc,
    charAt_append]
  rfl

/-- The end of a key is the next blank, also when this is behind the line. -/
theorem parseLine_key (pre post : Bytes) (hbl : ∀ b ∈ bl, isBlank b = true) (hne : key ≠ [])
    (hkey : ∀ b ∈ key, isBlank b = false) (h0 : 0 ∉ key) (hxs : ∀ b ∈ xs, isBlank b = false)
    (hb : isBlank b = true) (hbl' : ∀ b ∈ bl', isBlank b = true) (hc : isBlank c = false) :
    parseLine (pre ++ (bl ++ (key ++ (xs ++ b :: (bl' ++ c :: post))))) tab pre.length =
      .ok (if c = 0 then none else
        some (pre ++ (bl ++ (key ++ (xs ++ 0 :: (bl' ++ c :: post)))),
          setTabVal (cstr (key ++ (xs ++ 0 :: (bl' ++ c :: post))))
            (pre ++ (bl ++ (key ++ (xs ++ 0 :: bl')))).length tab)) := by
  obtain ⟨k, key, rfl⟩ := List.exists_cons_of_ne_nil hne
  have hk0 : k ≠ 0 := fun h => h0 (h ▸ List.mem_cons_self)
  have hb0 : b ≠ 0 := fun h => absurd (h ▸ hb) (by decide)
  have hword : ∀ b ∈ k :: key ++ xs, (!isBlank b) = true := fun b hb => by
    rw [Bool.not_eq_true']
    exact (List.mem_append.1 hb).elim (hkey b) (hxs b)
  rw [parseLine, List.cons_append, skipWhile_append pre _ hbl (hkey k List.mem_cons_self),
    Exec.ok_bind, ← List.append_assoc, charAt_append, Exec.ok_bind, if_neg hk0,
    ← List.cons_append, ← List.append_assoc (k :: key), skipWhile_append (pre ++ bl) _ hword
      (by rw [hb]; rfl), Exec.ok_bind, ← List.append_assoc, charAt_append, Exec.ok_bind, if_neg hb0]
  -- the blank is cut
  have hset : (pre ++ bl ++ (k :: key ++ xs) ++ b :: (bl' ++ c :: post)).set
      (pre ++ bl ++ (k :: key ++ xs)).length 0 =
        pre ++ bl ++ (k :: key ++ xs) ++ [0] ++ (bl' ++ c :: post) := by
    rw [List.set_append_right _ _ le_rfl, Nat.sub_self, List.append_assoc _ [0]]
    rfl
  have hlen : (pre ++ bl ++ (k :: key ++ xs)).length + 1 =
      (pre ++ bl ++ (k :: key ++ xs) ++ [0]).length := by
    rw [@List.length_append _ _ [0]]
    rfl
  rw [hset, hlen]
  dsimp only
  rw [skipWhile_append _ _ hbl' hc, Exec.ok_bind, ← List.append_assoc, charAt_append, Exec.ok_bind]
  split_ifs
  · rfl
  · have hbuf : pre ++ bl ++ (k :: key ++ xs) ++ [0] ++ bl' ++ c :: post =
        pre ++ bl ++ (k :: key ++ (xs ++ 0 :: (bl' ++ c :: post))) := by
      simp only [List.append_assoc, List.cons_append, List.nil_append]
    rw [hbuf, List.drop_left]
    simp only [List.append_assoc, List.cons_append, List.nil_append]
    rfl

/-- A key without a blank behind it, in its line or another, ends beyond the message. -/
theorem parseLine_fault (pre : Bytes) (hbl : ∀ b ∈ bl, isBlank b = true) (hne : key ≠ [])
    (hkey : ∀ b ∈ key, isBlank b = false) (h0 : 0 ∉ key) (hxs : ∀ b ∈ xs, isBlank b = false) :
    parseLine (pre ++ (bl ++ (key ++ xs))) tab pre.length = .error .fault := by
  obtain ⟨k, key, rfl⟩ := List.exists_cons_of_ne_nil hne
  have hk0 : k ≠ 0 := fun h => h0 (h ▸ List.mem_cons_self)
  have hword : ∀ b ∈ k :: key ++ xs, (!isBlank b) = true := fun b hb => by
    rw [Bool.not_eq_true']
    exact (List.mem_append.1 hb).elim (hkey b) (hxs b)
  rw [parseLine, List.cons_append, skipWhile_append pre _ hbl (hkey k List.mem_cons_self),
    Exec.ok_bind, ← List.append_assoc, charAt_append, Exec.ok_bind, if_neg hk0,
    ← List.cons_append, skipWhile_fault (pre ++ bl) hword]
  rfl

/-! ## From line to line -/

theorem parseMsgFrom_end (pre post : Bytes) :
    parseMsgFrom (pre ++ 0 :: post) tab pre.length = .ok (some (pre ++ 0 :: post, tab)) := by
  rw [parseMsgFrom, charAt_append, Exec.ok_bind, if_pos rfl]
  rfl

theorem cstr_append_zero (h0 : 0 ∉ w) (post : Bytes) : cstr (w ++ 0 :: post) = w := by
  rw [cstr, List.takeWhile_append_of_pos fun b hb => by simpa using fun h : b = 0 => h0 (h ▸ hb)]
  simp

theorem charAt_ne_zero (pre : Bytes) (hne : w ≠ []) (h0 : 0 ∉ w) (post : Bytes) :
    ∃ c ≠ 0, charAt (pre ++ (w ++ post)) pre.length = .ok c := by
  obtain ⟨c, w, rfl⟩ := List.exists_cons_of_ne_nil hne
  exact ⟨c, fun h => h0 (h ▸ List.mem_cons_self), charAt_append _ _ _⟩

/-- The last line, which has no newline, is taken apart. -/
theorem parseMsgFrom_last (pre post : Bytes) (hne : w ≠ []) (h0 : 0 ∉ w) (hnl : ch '\n' ∉ w) :
    parseMsgFrom (pre ++ (w ++ 0 :: post)) tab pre.length =
      parseLine (pre ++ (w ++ 0 :: post)) tab pre.length := by
  have hend : lineEnd (pre ++ (w ++ 0 :: post)) pre.length = none := by
    rw [lineEnd, List.drop_left, cstr_append_zero h0, List.idxOf?_eq_none_iff.2 hnl]
    rfl
  obtain ⟨c, hc, hchar⟩ := charAt_ne_zero pre hne h0 (0 :: post)
  rw [parseMsgFrom, hchar, Exec.ok_bind, if_neg hc]
  split
  · rfl
  · rename_i k heq
    exact absurd (heq.symm.trans hend) (Option.some_ne_none k)

/-- Any other line is cut at its newline and taken apart, and then what follows is. -/
theorem parseMsgFrom_line (pre post : Bytes) (h0 : 0 ∉ w) (hnl : ch '\n' ∉ w) :
    parseMsgFrom (pre ++ (w ++ ch '\n' :: post)) tab pre.length =
      parseLine (pre ++ (w ++ 0 :: post)) tab pre.length >>= fun
        | none => .ok none
        | some (buf, tab) => parseMsgFrom buf tab (pre ++ (w ++ [0])).length := by
  have hend : lineEnd (pre ++ (w ++ ch '\n' :: post)) pre.length = some (pre ++ w).length := by
    have hcstr : cstr (w ++ ch '\n' :: post) = w ++ ch '\n' :: cstr post := by
      rw [cstr, List.takeWhile_append_of_pos fun b hb => by
        simpa using fun h : b = 0 => h0 (h ▸ hb), List.takeWhile_cons_of_pos (by decide)]
      rfl
    rw [lineEnd, List.drop_left, hcstr, idxOf?_append_cons hnl, List.length_append]
    rfl
  have hset : (pre ++ (w ++ ch '\n' :: post)).set (pre ++ w).length 0 = pre ++ (w ++ 0 :: post) := by
    rw [← List.append_assoc, List.set_append_right _ _ le_rfl, Nat.sub_self, ← List.append_assoc]
    rfl
  have hlen : (pre ++ w).length + 1 = (pre ++ (w ++ [0])).length := by
    rw [← List.append_assoc, @List.length_append _ _ [0]]
    rfl
  obtain ⟨c, hc, hchar⟩ := charAt_ne_zero pre (List.append_ne_nil_of_right_ne_nil w
    (List.cons_ne_nil (ch '\n') [])) (by
      rw [List.mem_append, List.mem_singleton]
      exact fun h => h.elim h0 (by decide)) post
  rw [List.append_assoc, List.singleton_append] at hchar
  rw [parseMsgFrom, hchar, Exec.ok_bind, if_neg hc]
  split
  · rename_i heq
    exact absurd (heq.symm.trans hend) (Option.some_ne_none _).symm
  · rename_i k heq
    obtain rfl := Option.some.inj (heq.symm.trans hend)
    rw [hset, ← hlen]
    cases parseLine (pre ++ (w ++ 0 :: post)) tab pre.length with
    | error e => rfl
    | ok r =>
      rcases r with _ | ⟨buf, tab⟩
      · rfl
      · rfl

end Line

/-! ## Cutting the message from blank to blank -/

section Cut

variable {pre A S x xs y bl key : Bytes} {b : UInt8} {tab : MsgPattern}

/-- The end of a list is dropped in its second part when there is something in it to stay. -/
theorem rdropWhile_append_of_exists {p : UInt8 → Bool} (xs : Bytes) (h : ∃ c ∈ y, p c = false) :
    (xs ++ y).rdropWhile p = xs ++ y.rdropWhile p := by
  obtain ⟨c, hc, hpc⟩ := h
  have hne : (y.reverse.dropWhile p).isEmpty = false := by
    rw [List.isEmpty_eq_false_iff, Ne, List.dropWhile_eq_nil_iff]
    exact fun hall => Bool.false_ne_true (hpc.symm.trans (hall c (List.mem_reverse.2 hc)))
  rw [List.rdropWhile, List.reverse_append, List.dropWhile_append, hne]
  simp [List.rdropWhile]

theorem rdropWhile_append_of_all {p : UInt8 → Bool} (xs : Bytes) (h : ∀ c ∈ y, p c = true) :
    (xs ++ y).rdropWhile p = xs.rdropWhile p := by
  rw [List.rdropWhile, List.reverse_append,
    List.dropWhile_append_of_pos fun c hc => h c (List.mem_reverse.1 hc)]
  rfl

/-- A string that is seen to have no blanks. -/
theorem notBlank_of_any {s : Bytes} (h : s.any isBlank = false) : ∀ b ∈ s, isBlank b = false :=
  fun b hb => Bool.eq_false_iff.2 (List.any_eq_false.1 h b hb)

theorem not_endsBlank (h : ∀ b ∈ S, isBlank b = false) : ¬EndsBlank S := by
  rintro ⟨b, hb, hblank⟩
  exact Bool.false_ne_true ((h b (List.mem_of_getLast? hb)).symm.trans hblank)

/-- The first blank is at the end, with others. -/
theorem endsBlank_of_all (hxs : ∀ b ∈ xs, isBlank b = false) (hb : isBlank b = true)
    (hy : ∀ c ∈ y, isBlank c = true) :
    EndsBlank (xs ++ b :: y) ∧ innerBlanks (xs ++ b :: y) = 0 := by
  have hall : ∀ c ∈ b :: y, isBlank c = true := List.forall_mem_cons.2 ⟨hb, hy⟩
  constructor
  · refine ⟨(b :: y).getLast (List.cons_ne_nil _ _), ?_, hall _ (List.getLast_mem _)⟩
    rw [List.getLast?_append_cons, List.getLast?_eq_some_getLast (List.cons_ne_nil _ _)]
    exact rfl
  · rw [innerBlanks, rdropWhile_append_of_all xs hall, List.countP_eq_zero]
    intro c hc
    rw [hxs c ((List.rdropWhile_prefix isBlank xs).subset hc)]
    exact Bool.false_ne_true

/-- The first blank is not at the end. -/
theorem endsBlank_of_exists (hxs : ∀ b ∈ xs, isBlank b = false) (hb : isBlank b = true)
    (hy : ∃ c ∈ y, isBlank c = false) : (EndsBlank (xs ++ b :: y) ↔ EndsBlank y) ∧
      innerBlanks (xs ++ b :: y) = innerBlanks y + 1 := by
  obtain ⟨c, hc, hcb⟩ := hy
  constructor
  · rw [EndsBlank, EndsBlank, List.getLast?_append_cons,
      List.getLast?_cons_of_ne_nil (List.ne_nil_of_mem hc)]
  · have hcons : xs ++ b :: y = xs ++ [b] ++ y := by
      rw [List.append_assoc, List.singleton_append]
    have hzero : xs.countP isBlank = 0 := List.countP_eq_zero.2 fun c hc => by simp [hxs c hc]
    rw [innerBlanks, innerBlanks, hcons, rdropWhile_append_of_exists _ ⟨c, hc, hcb⟩,
      List.countP_append, List.countP_append, hzero, List.countP_singleton, if_pos hb]
    omega

/-- A key without a blank behind it ends at the next blank, which is cut, unless the message has
    ended there. -/
theorem parseLine_bare (tab : MsgPattern) (pre : Bytes) (hbl : ∀ b ∈ bl, isBlank b = true)
    (hne : key ≠ [])
    (hkey : ∀ b ∈ key, isBlank b = false) (h0 : 0 ∉ key) (hxs : ∀ b ∈ xs, isBlank b = false)
    (hb : isBlank b = true) (hy : 0 ∉ y) :
    ((∀ c ∈ y, isBlank c = true) ∧
      parseLine (pre ++ (bl ++ key ++ 0 :: (xs ++ b :: y ++ [0]))) tab pre.length = .ok none) ∨
    (∃ c ∈ y, isBlank c = false) ∧ ∃ tab',
      parseLine (pre ++ (bl ++ key ++ 0 :: (xs ++ b :: y ++ [0]))) tab pre.length =
        .ok (some (pre ++ (bl ++ key ++ 0 :: (xs ++ 0 :: y ++ [0])), tab')) := by
  have hzxs : ∀ b ∈ 0 :: xs, isBlank b = false := List.forall_mem_cons.2 ⟨by decide, hxs⟩
  have hbuf : ∀ b, pre ++ (bl ++ key ++ 0 :: (xs ++ b :: y ++ [0])) =
      pre ++ (bl ++ (key ++ (0 :: xs ++ b :: (y ++ [0])))) := fun b => by
    simp only [List.append_assoc, List.cons_append]
  rw [hbuf, hbuf]
  obtain ⟨bl', hbl', -, ⟨rfl, -⟩ | ⟨c, val, rfl, hc, -⟩⟩ := takeWhile_cases isBlank y
  · refine .inl ⟨hbl', ?_⟩
    rw [parseLine_key pre [] hbl hne hkey h0 hzxs hb hbl' (by decide : isBlank 0 = false), if_pos rfl]
  · have hc0 : c ≠ 0 := fun h => hy (h ▸ List.mem_append_right _ List.mem_cons_self)
    refine .inr ⟨⟨c, List.mem_append_right _ List.mem_cons_self, hc⟩, ?_⟩
    rw [show bl' ++ c :: val ++ [0] = bl' ++ c :: (val ++ [0]) from List.append_assoc _ _ _,
      parseLine_key pre _ hbl hne hkey h0 hzxs hb hbl' hc, if_neg hc0]
    exact ⟨_, rfl⟩

/-- Bytes have no blank, or a first one. -/
theorem firstBlank_cases (s : Bytes) : (∀ b ∈ s, isBlank b = false) ∨
    ∃ xs b y, s = xs ++ b :: y ∧ (∀ b ∈ xs, isBlank b = false) ∧ isBlank b = true := by
  obtain ⟨xs, hxs, -, ⟨rfl, -⟩ | ⟨b, y, rfl, hb, -⟩⟩ := takeWhile_cases (!isBlank ·) s
  · exact .inl fun b hb => by simpa using hxs b hb
  · exact .inr ⟨xs, b, y, rfl, fun b hb => by simpa using hxs b hb, by simpa using hb⟩

/-- A text is a line or begins with one. -/
theorem firstLine_cases (s : Bytes) :
    ch '\n' ∉ s ∨ ∃ w post, s = w ++ ch '\n' :: post ∧ ch '\n' ∉ w := by
  by_cases h : ch '\n' ∈ s
  · obtain ⟨w, post, rfl, hw⟩ := List.eq_append_cons_of_mem h
    exact .inr ⟨w, post, rfl, hw⟩
  · exact .inl h

/-- A message that is cut in its last line. -/
theorem parseMsgFrom_cut_last (hA : ∀ b ∈ A, isBlank b = false) (hA0 : 0 ∉ A)
    (hx : ∀ b ∈ x, isBlank b = false) (hy : 0 ∉ y) (hne : A ≠ []) (hnl : ch '\n' ∉ A) :
    parseMsgFrom (pre ++ (A ++ 0 :: (x ++ y ++ [0]))) tab pre.length = .ok none ↔
      EndsBlank y ∧ innerBlanks y = 0 := by
  rw [parseMsgFrom_last pre _ hne hA0 hnl]
  rcases firstBlank_cases y with hnone | ⟨xs, b, y, rfl, hxs, hb⟩
  · have hzero : ∀ b ∈ 0 :: (x ++ y ++ [0]), isBlank b = false := by
      simp only [List.forall_mem_cons, List.forall_mem_append]
      exact ⟨rfl, ⟨hx, hnone⟩, rfl, List.forall_mem_nil _⟩
    rw [← List.nil_append A, List.append_assoc, parseLine_fault pre (List.forall_mem_nil _) hne hA
      hA0 hzero]
    exact iff_of_false nofun fun h => not_endsBlank hnone h.1
  · have hxxs : ∀ b ∈ x ++ xs, isBlank b = false := List.forall_mem_append.2 ⟨hx, hxs⟩
    have hy0 : 0 ∉ y := fun h => hy (List.mem_append_right _ (List.mem_cons_of_mem _ h))
    rw [← List.append_assoc x]
    rcases parseLine_bare tab pre (List.forall_mem_nil _) hne hA hA0 hxxs hb hy0 with
      ⟨hall, h⟩ | ⟨hsome, tab', h⟩
    · rw [List.nil_append] at h
      exact iff_of_true h (endsBlank_of_all hxs hb hall)
    · rw [List.nil_append] at h
      rw [h, (endsBlank_of_exists hxs hb hsome).2]
      exact iff_of_false nofun fun h => Nat.succ_ne_zero _ h.2

/-- A message that is cut behind a line: the line cuts it once more, and the rest is parsed
    as a message that is cut there. -/
theorem parseMsgFrom_cut_line {w : Bytes} {n : ℕ}
    (hrest : ∀ {pre x y tab}, (∀ b ∈ x, isBlank b = false) → 0 ∉ y →
      (parseMsgFrom (pre ++ (A ++ 0 :: (x ++ y ++ [0]))) tab pre.length = .ok none ↔
        EndsBlank y ∧ innerBlanks y < n))
    (hw : ∀ b ∈ w, isBlank b = false) (hw0 : 0 ∉ w) (hne : w ≠ []) (hnl : ch '\n' ∉ w)
    (hA : ∀ b ∈ A, isBlank b = false) (hx : ∀ b ∈ x, isBlank b = false) (hy : 0 ∉ y) :
    parseMsgFrom (pre ++ (w ++ ch '\n' :: (A ++ 0 :: (x ++ y ++ [0])))) tab pre.length =
      .ok none ↔ EndsBlank y ∧ innerBlanks y < n + 1 := by
  rw [parseMsgFrom_line pre _ hw0 hnl]
  rcases firstBlank_cases y with hnone | ⟨xs, b, y, rfl, hxs, hb⟩
  · have hzero : ∀ b ∈ 0 :: (A ++ 0 :: (x ++ y ++ [0])), isBlank b = false := by
      simp only [List.forall_mem_cons, List.forall_mem_append]
      exact ⟨rfl, hA, rfl, ⟨hx, hnone⟩, rfl, List.forall_mem_nil _⟩
    rw [← List.nil_append w, List.append_assoc, parseLine_fault pre (List.forall_mem_nil _) hne hw
      hw0 hzero]
    exact iff_of_false nofun fun h => not_endsBlank hnone h.1
  · have hxxs : ∀ b ∈ A ++ 0 :: (x ++ xs), isBlank b = false := by
      simp only [List.forall_mem_cons, List.forall_mem_append]
      exact ⟨hA, by decide, hx, hxs⟩
    have hy0 : 0 ∉ y := fun h => hy (List.mem_append_right _ (List.mem_cons_of_mem _ h))
    have hbuf : ∀ b, A ++ 0 :: (x ++ (xs ++ b :: y) ++ [0]) =
        A ++ 0 :: (x ++ xs) ++ b :: y ++ [0] := fun b => by
      simp only [List.append_assoc, List.cons_append]
    rw [hbuf]
    rcases parseLine_bare tab pre (List.forall_mem_nil _) hne hw hw0 hxxs hb hy0 with
      ⟨hall, h⟩ | ⟨hsome, tab', h⟩
    · obtain ⟨hends, hinner⟩ := endsBlank_of_all hxs hb hall
      rw [List.nil_append] at h
      rw [h]
      exact iff_of_true rfl ⟨hends, by omega⟩
    · -- the blank that is cut is not the last one, and the lines behind the cut come next
      obtain ⟨hends, hinner⟩ := endsBlank_of_exists hxs hb hsome
      have hx' : ∀ b ∈ x ++ xs ++ [0], isBlank b = false := by
        simp only [List.forall_mem_append]
        exact ⟨⟨hx, hxs⟩, notBlank_of_any rfl⟩
      have hcut : pre ++ (w ++ 0 :: (A ++ 0 :: (x ++ xs) ++ 0 :: y ++ [0])) =
          pre ++ (w ++ [0]) ++ (A ++ 0 :: (x ++ xs ++ [0] ++ y ++ [0])) := by
        simp only [List.append_assoc, List.cons_append, List.nil_append]
      rw [List.nil_append] at h
      rw [h, Exec.ok_bind, hcut, hends, hinner, Nat.succ_lt_succ_iff]
      exact hrest hx' hy0

/-- From a line on, with a message cut behind it, each line that is not empty cuts the message
    at its next blank; the parsing ends early when that is at the end. -/
theorem parseMsgFrom_cut (hA : ∀ b ∈ A, isBlank b = false) (hA0 : 0 ∉ A)
    (hx : ∀ b ∈ x, isBlank b = false) (hy : 0 ∉ y) :
    parseMsgFrom (pre ++ (A ++ 0 :: (x ++ y ++ [0]))) tab pre.length = .ok none ↔
      EndsBlank y ∧ innerBlanks y < (strtok (ch '\n') A).length := by
  induction hn : A.length using Nat.strong_induction_on generalizing pre A x y tab with
  | _ n ih =>
  rcases firstLine_cases A with hnl | ⟨w, A, rfl, hnl⟩
  · by_cases hne : A = []
    · rw [hne, List.nil_append, parseMsgFrom_end]
      exact iff_of_false nofun fun h => Nat.not_lt_zero _ h.2
    rw [parseMsgFrom_cut_last hA hA0 hx hy hne hnl, strtok_of_notMem hnl,
      List.filter_cons_of_pos (by simpa using hne), List.filter_nil, List.length_singleton,
      Nat.lt_one_iff]
  · have hw0 : 0 ∉ w := fun h => hA0 (List.mem_append_left _ h)
    have hA0' : 0 ∉ A := fun h => hA0 (List.mem_append_right _ (List.mem_cons_of_mem _ h))
    obtain ⟨hw, -, hA⟩ : (∀ b ∈ w, isBlank b = false) ∧ isBlank (ch '\n') = false ∧
        ∀ b ∈ A, isBlank b = false := by
      rwa [List.forall_mem_append, List.forall_mem_cons] at hA
    have hlen : A.length < n := by
      rw [← hn, List.length_append, List.length_cons]
      omega
    rw [List.append_assoc, List.cons_append, strtok_append_cons, List.length_append,
      strtok_of_notMem hnl]
    by_cases hne : w = []
    · have hnext : pre ++ (w ++ 0 :: (A ++ 0 :: (x ++ y ++ [0]))) =
          pre ++ (w ++ [0]) ++ (A ++ 0 :: (x ++ y ++ [0])) := by
        simp only [List.append_assoc, List.cons_append, List.nil_append]
      rw [parseMsgFrom_line pre _ hw0 hnl,
        parseLine_blank pre _ (by rw [hne]; exact List.forall_mem_nil _), Exec.ok_bind, hnext,
        List.filter_cons_of_neg (by simpa using hne), List.filter_nil, List.length_nil,
        Nat.zero_add]
      exact ih _ hlen hA hA0' hx hy rfl
    rw [List.filter_cons_of_pos (by simpa using hne), List.filter_nil, List.length_singleton,
      Nat.add_comm 1]
    exact parseMsgFrom_cut_line (fun hx hy => ih _ hlen hA hA0' hx hy rfl) hw hw0 hne hnl hA hx hy

end Cut

/-! ## Messages with a faulty line -/

section Faulty

variable {pre text w post : Bytes} {tab : MsgPattern}

theorem msgLines_of_notMem (h : ch '\n' ∉ w) : msgLines w = [w] := List.splitOn_eq_singleton h

theorem msgLines_append (h : ch '\n' ∉ w) (post : Bytes) :
    msgLines (w ++ ch '\n' :: post) = w :: msgLines post := by
  rw [msgLines, List.splitOn_append_cons_self, List.splitOn_eq_singleton h]
  rfl

theorem intercalate_msgLines (text : Bytes) : [ch '\n'].intercalate (msgLines text) = text :=
  List.intercalate_splitOn _

theorem lineEntries_cons {lines : List Bytes} {entry : Option (Bytes × Bytes)}
    (h : lineEntry w = some entry) :
    lineEntries (w :: lines) = (lineEntries lines).map (entry.toList ++ ·) := by
  rw [lineEntries, h]
  cases lineEntries lines <;> rfl

/-- What a faulty line does depends on whether there is a blank behind its key. -/
theorem parseLine_faulty (hw : lineEntry w = none) (h0 : 0 ∉ w) (pre post : Bytes) :
    (∃ b ∈ w.dropWhile isBlank, isBlank b = true) ∧
        parseLine (pre ++ (w ++ 0 :: post)) tab pre.length = .ok none ∨
      (¬∃ b ∈ w.dropWhile isBlank, isBlank b = true) ∧ ∃ bl key, w = bl ++ key ∧
        (∀ b ∈ bl, isBlank b = true) ∧ key ≠ [] ∧ (∀ b ∈ key, isBlank b = false) ∧ 0 ∉ key := by
  have hdrop : ∀ {bl key rest : Bytes}, (∀ b ∈ bl, isBlank b = true) → key ≠ [] →
      (∀ b ∈ key, isBlank b = false) → (bl ++ (key ++ rest)).dropWhile isBlank = key ++ rest := by
    intro bl key rest hbl hne hkey
    obtain ⟨k, key, rfl⟩ := List.exists_cons_of_ne_nil hne
    rw [List.dropWhile_append_of_pos hbl, List.cons_append,
      List.dropWhile_cons_of_neg (by simp [hkey k List.mem_cons_self])]
  have hshape := lineShape w
  rw [hw] at hshape
  rcases hshape with _ | _ | @⟨bl, key, bl', b, hbl, hne, hkey, hb, hbl'⟩ |
    @⟨bl, key, hbl, hne, hkey⟩
  · refine .inl ⟨⟨b, ?_, hb⟩, ?_⟩
    · rw [hdrop hbl hne hkey]
      exact List.mem_append_right _ List.mem_cons_self
    · have h0key : 0 ∉ key := fun h =>
        h0 (List.mem_append_right _ (List.mem_append_left _ h))
      have hline := @parseLine_key [] bl bl' key b 0 tab pre post hbl hne hkey h0key
        (List.forall_mem_nil _) hb hbl' (by decide)
      rw [if_pos rfl, List.nil_append] at hline
      simpa only [List.append_assoc, List.cons_append] using hline
  · refine .inr ⟨?_, bl, key, rfl, hbl, hne, hkey, fun h => h0 (List.mem_append_right _ h)⟩
    rw [← List.append_nil key, hdrop hbl hne hkey, List.append_nil]
    rintro ⟨b, hb, hblank⟩
    exact Bool.false_ne_true ((hkey b hb).symm.trans hblank)

/-- Sets the values of several keys, one after the other. -/
def setEntries (tab : MsgPattern) (entries : List (Bytes × ℕ)) : MsgPattern :=
  entries.foldl (fun tab entry => setTabVal entry.1 entry.2 tab) tab

/-- The values of keys begin at some places of a message. -/
def StandAt (buf : Bytes) (entries : List (Bytes × Bytes)) (places : List (Bytes × ℕ)) : Prop :=
  List.Forall₂ (fun entry place => place.1 = entry.1 ∧ cstr (buf.drop place.2) = entry.2) entries
    places

/-- A line that is not faulty sets the value of its key, if it is not blank. -/
theorem parseLine_entry {entry : Option (Bytes × Bytes)} (hw : lineEntry w = some entry)
    (h0 : 0 ∉ w) (pre post : Bytes) : ∃ w' places, w'.length = w.length ∧
      parseLine (pre ++ (w ++ 0 :: post)) tab pre.length =
        .ok (some (pre ++ (w' ++ 0 :: post), setEntries tab places)) ∧
      ∀ post, StandAt (pre ++ (w' ++ 0 :: post)) entry.toList places := by
  have hshape := lineShape w
  rw [hw] at hshape
  rcases hshape with hblank | @⟨bl, key, bl', val, b, c, hbl, hne, hkey, hb, hbl', hc⟩
  · exact ⟨w, [], rfl, parseLine_blank pre post hblank, fun _ => .nil⟩
  · obtain ⟨h0key, h0val⟩ : 0 ∉ key ∧ 0 ∉ c :: val := by
      simp only [List.mem_append, not_or, List.mem_cons] at h0 ⊢
      exact ⟨h0.2.1, h0.2.2.2.2⟩
    have hc0 : c ≠ 0 := fun h => h0val (h ▸ List.mem_cons_self)
    have hline := @parseLine_key [] bl bl' key b c tab pre (val ++ 0 :: post) hbl hne hkey h0key
      (List.forall_mem_nil _) hb hbl' hc
    rw [if_neg hc0, List.nil_append, List.nil_append, cstr_append_zero h0key] at hline
    refine ⟨bl ++ (key ++ 0 :: (bl' ++ c :: val)), [(key, (pre ++ (bl ++ (key ++ 0 :: bl'))).length)],
      by simp, ?_, fun post => .cons ⟨rfl, ?_⟩ .nil⟩
    · rw [setEntries, List.foldl_cons, List.foldl_nil]
      simpa only [List.append_assoc, List.cons_append, List.nil_append] using hline
    · have hbuf : pre ++ (bl ++ (key ++ 0 :: (bl' ++ c :: val)) ++ 0 :: post) =
          pre ++ (bl ++ (key ++ 0 :: bl')) ++ (c :: val ++ 0 :: post) := by
        simp only [List.append_assoc, List.cons_append]
      rw [hbuf, List.drop_left, cstr_append_zero h0val]

/-- A message without faulty lines is parsed up to its end. -/
theorem parseMsgFrom_entries {entries : List (Bytes × Bytes)} (h0 : 0 ∉ text)
    (h : lineEntries (msgLines text) = some entries) : ∃ post places,
      parseMsgFrom (pre ++ (text ++ [0])) tab pre.length =
        .ok (some (pre ++ post, setEntries tab places)) ∧
      StandAt (pre ++ post) entries places := by
  induction hn : text.length using Nat.strong_induction_on generalizing pre text tab entries with
  | _ n ih =>
  rcases firstLine_cases text with hnl | ⟨w, text, rfl, hnl⟩
  · rw [msgLines_of_notMem hnl] at h
    cases hw : lineEntry text with
    | none => rw [lineEntries, hw] at h; cases h
    | some entry =>
      rw [lineEntries_cons hw, lineEntries, Option.map_some, List.append_nil] at h
      obtain rfl := Option.some.inj h
      by_cases hne : text = []
      · rw [hne] at hw ⊢
        obtain rfl := Option.some.inj hw
        exact ⟨[0], [], parseMsgFrom_end pre [], .nil⟩
      · rw [parseMsgFrom_last pre [] hne h0 hnl]
        obtain ⟨w', places, -, hline, hstand⟩ := @parseLine_entry text tab entry hw h0 pre []
        exact ⟨w' ++ [0], places, hline, hstand []⟩
  · have hw0 : 0 ∉ w := fun h => h0 (List.mem_append_left _ h)
    have h0' : 0 ∉ text := fun h => h0 (List.mem_append_right _ (List.mem_cons_of_mem _ h))
    rw [msgLines_append hnl] at h
    cases hw : lineEntry w with
    | none => rw [lineEntries, hw] at h; cases h
    | some entry =>
      rw [lineEntries_cons hw] at h
      obtain ⟨entries, hentries, rfl⟩ := Option.map_eq_some_iff.1 h
      obtain ⟨w', places, hlen, hline, hstand⟩ := @parseLine_entry w tab entry hw hw0 pre
        (text ++ [0])
      have hlt : text.length < n := by
        rw [← hn, List.length_append, List.length_cons]
        omega
      obtain ⟨post, places', hparse, hstand'⟩ := @ih text.length hlt (pre ++ (w' ++ [0])) text
        (setEntries tab places) entries h0' hentries rfl
      have hnext : ∀ r : Bytes, pre ++ (w' ++ 0 :: r) = pre ++ (w' ++ [0]) ++ r := fun r => by
        simp only [List.append_assoc, List.cons_append, List.nil_append]
      have hlength : (pre ++ (w ++ [0])).length = (pre ++ (w' ++ [0])).length := by
        simp only [List.length_append, hlen]
      refine ⟨w' ++ 0 :: post, places ++ places', ?_, ?_⟩
      · rw [List.append_assoc, List.cons_append, parseMsgFrom_line pre _ hw0 hnl, hline, Exec.ok_bind,
          hnext (text ++ [0]), hlength]
        dsimp only
        rw [hparse, hnext post, setEntries, setEntries, setEntries, List.foldl_append]
      · have hstand := hstand post
        rw [hnext post] at hstand ⊢
        exact List.rel_append hstand hstand'

/-- Whether the parsing ends at the first faulty line. -/
theorem parseMsgFrom_faulty (h0 : 0 ∉ text) (h : lineEntries (msgLines text) = none) :
    parseMsgFrom (pre ++ (text ++ [0])) tab pre.length = .ok none ↔
      EndsAtFault (msgLines text) := by
  induction hn : text.length using Nat.strong_induction_on generalizing pre text tab with
  | _ n ih =>
  rcases firstLine_cases text with hnl | ⟨w, text, rfl, hnl⟩
  · rw [msgLines_of_notMem hnl] at h ⊢
    cases hw : lineEntry text with
    | some entry => rw [lineEntries_cons hw] at h; cases h
    | none =>
      have hne : text ≠ [] := fun h => by rw [h] at hw; cases hw
      rw [parseMsgFrom_last pre [] hne h0 hnl, EndsAtFault, hw]
      rcases parseLine_faulty hw h0 pre [] with ⟨hb, hline⟩ |
        ⟨hb, bl, key, rfl, hbl, hne, hkey, h0key⟩
      · exact iff_of_true hline (.inl hb)
      · rw [List.append_assoc, parseLine_fault pre hbl hne hkey h0key (notBlank_of_any rfl)]
        exact iff_of_false nofun fun h => h.elim hb fun hcut =>
          not_endsBlank (List.forall_mem_nil _) hcut.1
  · have hw0 : 0 ∉ w := fun h => h0 (List.mem_append_left _ h)
    have h0' : 0 ∉ text := fun h => h0 (List.mem_append_right _ (List.mem_cons_of_mem _ h))
    have hlt : text.length < n := by
      rw [← hn, List.length_append, List.length_cons]
      omega
    have hnext : ∀ w r : Bytes, pre ++ (w ++ 0 :: r) = pre ++ (w ++ [0]) ++ r := fun w r => by
      simp only [List.append_assoc, List.cons_append, List.nil_append]
    rw [msgLines_append hnl] at h ⊢
    rw [List.append_assoc, List.cons_append, parseMsgFrom_line pre _ hw0 hnl, EndsAtFault]
    cases hw : lineEntry w with
    | some entry =>
      rw [lineEntries_cons hw, Option.map_eq_none_iff] at h
      obtain ⟨w', places, hlen, hline, -⟩ := @parseLine_entry w tab entry hw hw0 pre (text ++ [0])
      have hlength : (pre ++ (w ++ [0])).length = (pre ++ (w' ++ [0])).length := by
        simp only [List.length_append, hlen]
      rw [hline, Exec.ok_bind, hnext w' (text ++ [0]), hlength]
      exact ih _ hlt h0' h rfl
    | none =>
      rw [intercalate_msgLines]
      rcases parseLine_faulty hw hw0 pre (text ++ [0]) with ⟨hb, hline⟩ |
        ⟨hb, bl, key, rfl, hbl, hne, hkey, h0key⟩
      · rw [hline]
        exact iff_of_true rfl (.inl hb)
      rw [or_iff_right hb, CutToEnd]
      rcases firstBlank_cases text with hnone | ⟨A, b, y, rfl, hA, hb⟩
      · have hzero : ∀ b ∈ 0 :: (text ++ [0]), isBlank b = false := by
          simp only [List.forall_mem_cons, List.forall_mem_append]
          exact ⟨rfl, hnone, rfl, List.forall_mem_nil _⟩
        rw [List.append_assoc, parseLine_fault pre hbl hne hkey h0key hzero]
        exact iff_of_false nofun fun h => not_endsBlank hnone h.1
      · have hA0 : 0 ∉ A := fun h => h0' (List.mem_append_left _ h)
        have hy0 : 0 ∉ y := fun h => h0' (List.mem_append_right _ (List.mem_cons_of_mem _ h))
        have htake : (A ++ b :: y).takeWhile (!isBlank ·) = A := by
          rw [List.takeWhile_append_of_pos fun b hb => by simp [hA b hb],
            List.takeWhile_cons_of_neg (by simp [hb]), List.append_nil]
        rw [htake]
        rcases parseLine_bare tab pre hbl hne hkey h0key hA hb hy0 with ⟨hall, hline⟩ |
          ⟨hsome, tab', hline⟩
        · obtain ⟨hends, hinner⟩ := endsBlank_of_all hA hb hall
          rw [hline]
          exact iff_of_true rfl ⟨hends, hinner ▸ Nat.zero_le _⟩
        · obtain ⟨hends, hinner⟩ := endsBlank_of_exists hA hb hsome
          rw [hline, Exec.ok_bind, hends, hinner, Nat.succ_le_iff, List.append_assoc A,
            hnext (bl ++ key)]
          exact @parseMsgFrom_cut _ A [] y tab' hA hA0 (List.forall_mem_nil _) hy0

end Faulty

/-! ## The table -/

section Tables

variable {tab : MsgPattern} {key : Bytes} {buf : Bytes} {entries : List (Bytes × Bytes)}
  {places : List (Bytes × ℕ)}

theorem keys_setTabVal (k : Bytes) (val : ℕ) (tab : MsgPattern) :
    (setTabVal k val tab).map Prod.fst = tab.map Prod.fst := by
  induction tab with
  | nil => rfl
  | cons entry tab ih =>
    rw [setTabVal]
    split_ifs
    · rfl
    · rw [List.map_cons, List.map_cons, ih]

theorem find?_setTabVal (k : Bytes) (val : ℕ) (tab : MsgPattern) :
    (setTabVal k val tab).find? (·.1 = key) = if k = key
      then (tab.find? (·.1 = key)).map fun entry => (entry.1, some val)
      else tab.find? (·.1 = key) := by
  induction tab with
  | nil => simp [setTabVal]
  | cons entry tab ih =>
    rw [setTabVal]
    by_cases hk : entry.1 = k
    · rw [if_pos hk]
      by_cases hkey : k = key
      · simp [hk, hkey]
      · simp [hk, hkey]
    · rw [if_neg hk]
      by_cases hkey : entry.1 = key
      · rw [if_neg fun h => hk (hkey.trans h.symm), List.find?_cons_of_pos (by simpa using hkey),
          List.find?_cons_of_pos (by simpa using hkey)]
      · rw [List.find?_cons_of_neg (by simpa using hkey), List.find?_cons_of_neg (by simpa using hkey),
          ih]

theorem getElem?_setTabVal {k : Bytes} (val : ℕ) {i : ℕ} {entry : Bytes × Option ℕ}
    (h : tab[i]? = some entry) (hk : entry.1 ≠ k) : (setTabVal k val tab)[i]? = some entry := by
  induction tab generalizing i with
  | nil => cases h
  | cons e tab ih =>
    rw [setTabVal]
    cases i with
    | zero =>
      obtain rfl := Option.some.inj h
      rw [if_neg hk]
      rfl
    | succ i =>
      split_ifs
      · exact h
      · exact ih h

theorem setEntries_concat (tab : MsgPattern) (places : List (Bytes × ℕ)) (place : Bytes × ℕ) :
    setEntries tab (places ++ [place]) = setTabVal place.1 place.2 (setEntries tab places) := by
  rw [setEntries, List.foldl_concat]
  rfl

theorem lastValue_concat {α : Type} (entries : List (Bytes × α)) (entry : Bytes × α) :
    lastValue (entries ++ [entry]) key =
      if entry.1 = key then some entry.2 else lastValue entries key := by
  rw [lastValue, List.reverse_append, List.reverse_singleton, List.singleton_append,
    List.find?_cons]
  by_cases h : entry.1 = key
  · simp [h]
  · simp [h, lastValue]

theorem keys_setEntries (tab : MsgPattern) (places : List (Bytes × ℕ)) :
    (setEntries tab places).map Prod.fst = tab.map Prod.fst := by
  induction places using List.reverseRecOn with
  | nil => rfl
  | append_singleton places place ih => rw [setEntries_concat, keys_setTabVal, ih]

theorem getElem?_setEntries {i : ℕ} {entry : Bytes × Option ℕ} (h : tab[i]? = some entry)
    (hkey : entry.1 ∉ places.map Prod.fst) : (setEntries tab places)[i]? = some entry := by
  induction places using List.reverseRecOn with
  | nil => exact h
  | append_singleton places place ih =>
    rw [List.map_append, List.mem_append, not_or] at hkey
    rw [setEntries_concat]
    exact getElem?_setTabVal _ (ih hkey.1) fun h => hkey.2 (by simp [h])

/-- A key of the table has the last of its values. -/
theorem find?_setEntries (places : List (Bytes × ℕ)) (hkey : key ∈ tab.map Prod.fst) :
    (setEntries tab places).find? (·.1 = key) = match lastValue places key with
      | some val => some (key, some val)
      | none => tab.find? (·.1 = key) := by
  induction places using List.reverseRecOn with
  | nil => rfl
  | append_singleton places place ih =>
    rw [setEntries_concat, find?_setTabVal, lastValue_concat]
    split_ifs with h
    · have hsome : ((setEntries tab places).find? (·.1 = key)).isSome := by
        rw [List.find?_isSome]
        rw [← keys_setEntries tab places] at hkey
        obtain ⟨entry, hentry, rfl⟩ := List.mem_map.1 hkey
        exact ⟨entry, hentry, by simp⟩
      obtain ⟨entry, hentry⟩ := Option.isSome_iff_exists.1 hsome
      have hfst : entry.1 = key := by simpa using List.find?_some hentry
      rw [hentry, Option.map_some, hfst]
    · exact ih

theorem StandAt.lastValue (h : StandAt buf entries places) (key : Bytes) :
    lastValue entries key = (lastValue places key).map fun place => cstr (buf.drop place) := by
  have hfind : ∀ {es : List (Bytes × Bytes)} {ps : List (Bytes × ℕ)}, StandAt buf es ps →
      (es.find? (·.1 = key)).map Prod.snd =
        ((ps.find? (·.1 = key)).map Prod.snd).map fun place => cstr (buf.drop place) := by
    intro es ps h
    induction h with
    | nil => rfl
    | @cons e p es ps hp _ ih =>
      by_cases hkey : e.1 = key
      · rw [List.find?_cons_of_pos (by simpa using hkey),
          List.find?_cons_of_pos (by simpa [hp.1] using hkey), Option.map_some, Option.map_some,
          Option.map_some, hp.2]
      · rw [List.find?_cons_of_neg (by simpa using hkey),
          List.find?_cons_of_neg (by simpa [hp.1] using hkey), ih]
  exact hfind (List.rel_reverse h)

/-- The value of a key of the table is the last of those that are set, or the one before. -/
theorem msgValue_setEntries (h : StandAt buf entries places) (hkey : key ∈ tab.map Prod.fst) :
    msgValue buf (setEntries tab places) key = (lastValue entries key).or (msgValue buf tab key) := by
  rw [msgValue, find?_setEntries places hkey, h.lastValue]
  cases lastValue places key <;> rfl

/-- The table after the values of some keys have been set. -/
theorem tableFilled_setEntries (h : StandAt buf entries places) (tab : MsgPattern) :
    TableFilled entries tab buf (setEntries tab places) := by
  refine ⟨keys_setEntries tab places, fun key hkey val hval => ?_, fun i entry hentry hkey => ?_⟩
  · rw [msgValue_setEntries h hkey, hval, Option.some_or]
  · refine getElem?_setEntries hentry fun hmem => hkey ?_
    obtain ⟨place, hplace, hfst⟩ := List.mem_map.1 hmem
    obtain ⟨e, he, hp⟩ := (Exec.mem_of_forall₂ h).2 place hplace
    exact List.mem_map.2 ⟨e, he, hp.1.symm.trans hfst⟩

theorem parseMsg_of_entries {msg : Bytes} (h0 : 0 ∉ msg)
    (h : lineEntries (msgLines msg) = some entries) (tab : MsgPattern) :
    ∃ buf places, parseMsg msg tab = .ok (some (buf, setEntries tab places)) ∧
      StandAt buf entries places := by
  obtain ⟨buf, places, hparse, hstand⟩ := @parseMsgFrom_entries [] msg tab entries h0 h
  exact ⟨buf, places, hparse, hstand⟩

end Tables

theorem endsAtFault_of_entries {lines : List Bytes} {entries : List (Bytes × Bytes)}
    (h : lineEntries lines = some entries) : EndsAtFault lines := by
  induction lines generalizing entries with
  | nil => trivial
  | cons w lines ih =>
    rw [EndsAtFault]
    cases hw : lineEntry w with
    | none => rw [lineEntries, hw] at h; cases h
    | some entry =>
      rw [lineEntries_cons hw] at h
      obtain ⟨entries, hentries, -⟩ := Option.map_eq_some_iff.1 h
      exact ih hentries

/-- A message is parsed as it is meant exactly when the first faulty line, if there is one, has
    a blank behind its key, or the cuts behind it meet the end. -/
theorem parsedAsMeant_iff {msg : Bytes} (h0 : 0 ∉ msg) (tab : MsgPattern) :
    ParsedAsMeant msg tab ↔ EndsAtFault (msgLines msg) := by
  rw [ParsedAsMeant]
  cases h : lineEntries (msgLines msg) with
  | none => exact @parseMsgFrom_faulty [] msg tab h0 h
  | some entries =>
    obtain ⟨buf, places, hparse, hstand⟩ := parseMsg_of_entries h0 h tab
    exact iff_of_true ⟨buf, _, hparse, tableFilled_setEntries hstand tab⟩
      (endsAtFault_of_entries h)

/-- Of a key alone in a line, the next line's blank is cut. -/
theorem parsedAsMeant_iff_sample :
    (0 : UInt8) ∉ ascii "jobid\nfile x" ∧ (ParsedAsMeant (ascii "jobid\nfile x") [] ↔
      EndsAtFault (msgLines (ascii "jobid\nfile x"))) :=
  ⟨by decide, parsedAsMeant_iff (by decide) []⟩

/-- `jobid` gets the value of the next line, of which only the key is left then, and behind
    this one the parser runs over the end of the message. -/
theorem not_parsedAsMeant_keyAlone :
    ¬ParsedAsMeant (ascii "jobid\nfile x") [(ascii "jobid", none)] := by
  have hnone : lineEntries (msgLines (ascii "jobid\nfile x")) = none := by decide
  rw [ParsedAsMeant, hnone]
  intro h
  have hfault : (∃ b ∈ ascii "jobid", isBlank b = true) ∨ CutToEnd (ascii "file x") :=
    (@parseMsgFrom_faulty [] _ _ (by decide) hnone).1 h
  rcases hfault with h | ⟨h, -⟩
  · exact absurd h (by decide)
  · exact absurd h (by rw [EndsBlank]; decide)

end JobProvenance
