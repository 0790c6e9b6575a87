import JobProvenance.Common.Attr
import JobProvenance.Common.Schema
import Mathlib.Data.List.DropRight

/-!
# Feeding from a file

`glite_jpis_feeding` fills the index from a file, each line of which has the values of a
job, separated by semicolons. The values are meant for the configured attributes in turn,
those left out that say which job it is and whose. `readAttrs` reads a line and assigns its
fields to the attributes; a job is then made up for them.

* `assignTokens_eq`: the attributes that are assigned, unless the loop that leaves some out
  runs over the end of their list (`Overruns`);
* `trim_eq_strip_iff`: a field is trimmed to its first word;
* `take_tokens_eq_iff`: empty fields are left out, too, and those behind them moved up;
* `assignsColumns_iff`: when every attribute has its own field.
-/

namespace JobProvenance

/-! ## Reading a line -/

/-- The size of the buffer a line is read to. -/
def LINE_SIZE : ℕ := 1024

/-- Reads a line, or as much of it as there is room for: what is read, whether the end of the
    file has been seen, and what follows. -/
def fgets (size : ℕ) (f : Bytes) : Bytes × Bool × Bytes :=
  match (f.take (size - 1)).idxOf? (ch '\n') with
  | some k => (f.take (k + 1), false, f.drop (k + 1))
  | none => (f.take (size - 1), f.length < size - 1, f.drop (size - 1))

/-- A byte of the end of a line. -/
def isLineEnd (b : UInt8) : Bool := b = ch '\r' || b = ch '\n'

/-- Whether a line seems to go on behind what is read of it. -/
def tooLarge (line : Bytes) (feof : Bool) : Bool :=
  line.getLast?.any (!isLineEnd ·) && !feof

/-- White space. -/
def isWhite (b : UInt8) : Bool := b = ch '\n' || b = ch '\r' || b = ch ' ' || b = ch '\t'

/-- What is left of a string when it is trimmed: the bytes between its first white space and
    the next. -/
def trim (str : Bytes) : Bytes := (str.dropWhile isWhite).takeWhile (!isWhite ·)

/-- Whether an attribute is left out: it says which job, or whose. -/
def isLeftOut (attr : Bytes) : Bool :=
  sameIgnoringCase attr GLITE_JP_ATTR_JOBID || sameIgnoringCase attr GLITE_JP_ATTR_OWNER

/-- The next attribute that is not left out, and those behind it. The end of the list is
    compared like an attribute. -/
def nextAttr : List Bytes → Exec (Bytes × List Bytes)
  | [] => .error .fault
  | attr :: attrs => if isLeftOut attr then nextAttr attrs else .ok (attr, attrs)

/-- The value of an attribute that is found in a file. -/
def csvValue (now : ℤ) (name value : Bytes) : Attrval where
  name := name
  value := value
  binary := false
  size := 0
  origin := .file
  originDetail := none
  timestamp := now

/-- Assigns the parts of a line to attributes. -/
def assignTokens (now : ℤ) : List Bytes → List Bytes → Exec (List Attrval)
  | _, [] => .ok []
  | [], _ :: _ => .ok []
  | attr :: attrs, token :: tokens => do
    let (name, rest) ← nextAttr (attr :: attrs)
    let avs ← assignTokens now rest tokens
    return csvValue now name (trim token) :: avs

/-- Reads a line from a file and assigns what is in it to attributes: the values, and what
    follows in the file, unless the line is too large. -/
def readAttrs (now : ℤ) (attrs : List Bytes) (f : Bytes) : Exec (Option (List Attrval × Bytes)) :=
  let (line, feof, f) := fgets LINE_SIZE f
  if tooLarge line feof then return none
  else do
    let avs ← assignTokens now attrs (strtok (ch ';') (line.rdropWhile isLineEnd))
    return some (avs, f)

/-! ## What is meant -/

/-- The attributes that get values. -/
def columns (attrs : List Bytes) : List Bytes := attrs.filter (!isLeftOut ·)

/-- A string without the white space around it. -/
def strip (s : Bytes) : Bytes := (s.dropWhile isWhite).rdropWhile isWhite

/-- A line of a text file; the last one may have no newline. -/
structure FileLine where
  text : Bytes
  ended : Bool
  nul_notMem : 0 ∉ text
  newline_notMem : ch '\n' ∉ text

namespace FileLine

variable (l : FileLine)

/-- The line as it stands in the file. -/
def bytes : Bytes := l.text ++ if l.ended then [ch '\n'] else []

/-- The fields of the line. -/
def fields : List Bytes := (l.text.rdropWhile isLineEnd).splitOn (ch ';')

end FileLine

/-- The values a line has for the attributes: each field for an attribute, fields and
    attributes in the same order. -/
def columnValues (now : ℤ) (attrs : List Bytes) (fields : List Bytes) : List Attrval :=
  List.zipWith (csvValue now) (columns attrs) (fields.map strip)

/-- A line of a file is read as it is meant. -/
def AssignsColumns (now : ℤ) (attrs : List Bytes) (l : FileLine) (rest : Bytes) : Prop :=
  readAttrs now attrs (l.bytes ++ rest) = .ok (some (columnValues now attrs l.fields, rest))

/-- The loop that leaves out attributes runs over the end of the list: there are more parts
    than attributes for them, and the last attribute is one to be left out. -/
def Overruns (attrs tokens : List Bytes) : Prop :=
  (columns attrs).length < tokens.length ∧ ∃ attr ∈ attrs.getLast?, isLeftOut attr = true

/-- A field without white space inside. -/
def IsOneWord (f : Bytes) : Prop := ∀ b ∈ strip f, isWhite b = false

/-- The fields that are not empty. -/
def fullFields (fields : List Bytes) : List Bytes := fields.filter (· ≠ [])

/-- None of the first fields is empty; or there are enough others, and those that stand for
    the first empty one and the ones behind it have white space only. -/
def Unshifted (n : ℕ) (fields : List Bytes) : Prop :=
  (∀ f ∈ fields.take n, f ≠ []) ∨ n ≤ (fullFields fields).length ∧
    ∀ t ∈ ((fullFields fields).take n).drop (fields.takeWhile (· ≠ [])).length,
      ∀ b ∈ t, isWhite b = true

/-- The end of the file is seen with a line that fills the buffer. -/
def EndSeen (l : FileLine) : Prop :=
  l.ended = false → l.text.length = LINE_SIZE - 1 → l.text.getLast? = some (ch '\r')

/-! ## Trimming -/

section Trim

variable {s : Bytes}

theorem strip_eq_nil_iff : strip s = [] ↔ ∀ b ∈ s, isWhite b = true := by
  rw [strip, List.rdropWhile_eq_nil_iff, ← List.dropWhile_eq_nil_iff, List.dropWhile_idempotent,
    List.dropWhile_eq_nil_iff]

theorem trim_eq_nil_iff : trim s = [] ↔ ∀ b ∈ s, isWhite b = true := by
  rw [trim, ← List.dropWhile_eq_nil_iff]
  constructor
  · intro h
    by_contra hne
    have hpos := List.length_pos_iff.2 hne
    have hhead := List.takeWhile_eq_nil_iff.1 h hpos
    rw [Bool.not_eq_true', Bool.not_eq_false] at hhead
    exact List.dropWhile_get_zero_not isWhite s hpos hhead
  · intro h
    rw [h]
    rfl

/-- A field is trimmed as it is meant exactly when there is no white space inside. -/
theorem trim_eq_strip_iff : trim s = strip s ↔ IsOneWord s := by
  constructor
  · intro h b hb
    rw [← h] at hb
    simpa using List.mem_takeWhile_imp hb
  · intro h
    have hsplit : s.dropWhile isWhite = strip s ++ (s.dropWhile isWhite).rtakeWhile isWhite :=
      List.rdropWhile_append_rtakeWhile.symm
    have hnone : ((s.dropWhile isWhite).rtakeWhile isWhite).takeWhile (!isWhite ·) = [] :=
      List.takeWhile_eq_nil_iff.2 fun hpos => by
        have hw := List.mem_rtakeWhile_imp (List.getElem_mem hpos)
        simpa using hw
    rw [trim, hsplit, List.takeWhile_append_of_pos fun b hb => by simp [h b hb], hnone,
      List.append_nil]

end Trim

/-! ## Attributes that are left out -/

section Assign

variable {now : ℤ} {attrs tokens : List Bytes}

/-- The next attribute is the next that gets a value, if there is one. -/
theorem nextAttr_cases (attrs : List Bytes) :
    (∃ pre name rest, attrs = pre ++ name :: rest ∧ isLeftOut name = false ∧
      columns attrs = name :: columns rest ∧ nextAttr attrs = .ok (name, rest)) ∨
    (∀ attr ∈ attrs, isLeftOut attr = true) ∧ nextAttr attrs = .error .fault := by
  induction attrs with
  | nil => exact .inr ⟨List.forall_mem_nil _, rfl⟩
  | cons attr attrs ih =>
    rw [nextAttr]
    cases hattr : isLeftOut attr with
    | false =>
      refine .inl ⟨[], attr, attrs, rfl, hattr, ?_, rfl⟩
      rw [columns, List.filter_cons_of_pos (by simp [hattr]), ← columns]
    | true =>
      have hcols : columns (attr :: attrs) = columns attrs :=
        List.filter_cons_of_neg (by simp [hattr])
      rw [if_pos rfl, hcols]
      rcases ih with ⟨pre, name, rest, rfl, hname, hcols, hnext⟩ | ⟨hall, hnext⟩
      · exact .inl ⟨attr :: pre, name, rest, rfl, hname, hcols, hnext⟩
      · exact .inr ⟨List.forall_mem_cons.2 ⟨hattr, hall⟩, hnext⟩

/-- Behind an attribute that gets a value the loop runs over the end when it does so in what
    follows. -/
theorem overruns_cons {pre rest : List Bytes} {name token : Bytes} (hname : isLeftOut name = false)
    (hcols : columns (pre ++ name :: rest) = name :: columns rest) :
    Overruns (pre ++ name :: rest) (token :: tokens) ↔ Overruns rest tokens := by
  have hlast : (∃ attr ∈ (pre ++ name :: rest).getLast?, isLeftOut attr = true) ↔
      ∃ attr ∈ rest.getLast?, isLeftOut attr = true := by
    rw [List.getLast?_append_cons]
    cases rest with
    | nil => simp [hname]
    | cons attr rest => rw [List.getLast?_cons_cons]
  rw [Overruns, Overruns, hlast, hcols, List.length_cons, List.length_cons, Nat.succ_lt_succ_iff]

theorem assignTokens_cons {name token : Bytes} {rest : List Bytes}
    (h : nextAttr attrs = .ok (name, rest)) : assignTokens now attrs (token :: tokens) =
      assignTokens now rest tokens >>= fun avs =>
        return csvValue now name (trim token) :: avs := by
  cases attrs with
  | nil => cases h
  | cons attr attrs =>
    rw [assignTokens, h]
    rfl

/-- The parts of a line are assigned to the attributes that get values. -/
theorem assignTokens_eq (h : ¬Overruns attrs tokens) : assignTokens now attrs tokens =
    .ok (List.zipWith (csvValue now) (columns attrs) (tokens.map trim)) := by
  induction tokens generalizing attrs with
  | nil =>
    rw [List.map_nil, List.zipWith_nil_right]
    cases attrs <;> rfl
  | cons token tokens ih =>
    cases attrs with
    | nil => rfl
    | cons attr attrs =>
      rcases nextAttr_cases (attr :: attrs) with ⟨pre, name, rest, hattrs, hname, hcols, hnext⟩ |
        ⟨hall, -⟩
      · rw [hattrs] at h
        rw [assignTokens_cons hnext, ih fun hr => h ((overruns_cons hname (hattrs ▸ hcols)).2 hr), hcols]
        rfl
      · refine absurd ⟨?_, _, List.getLast?_eq_some_getLast (List.cons_ne_nil attr attrs),
          hall _ (List.getLast_mem _)⟩ h
        have hnil : columns (attr :: attrs) = [] :=
          List.filter_eq_nil_iff.2 fun attr hattr => by simp [hall attr hattr]
        rw [hnil]
        exact Nat.succ_pos _

/-- Where the loop runs over the end of the attributes, the end is compared as one. -/
theorem assignTokens_of_overruns (h : Overruns attrs tokens) :
    assignTokens now attrs tokens = .error .fault := by
  induction tokens generalizing attrs with
  | nil => exact absurd h.1 (Nat.not_lt_zero _)
  | cons token tokens ih =>
    cases attrs with
    | nil => exact absurd h.2 (by simp)
    | cons attr attrs =>
      rcases nextAttr_cases (attr :: attrs) with ⟨pre, name, rest, hattrs, hname, hcols, hnext⟩ |
        ⟨-, hnext⟩
      · rw [hattrs] at h
        rw [assignTokens_cons hnext, ih ((overruns_cons hname (hattrs ▸ hcols)).1 h)]
        rfl
      · rw [assignTokens, hnext]
        rfl

end Assign

/-! ## Fields that are left out -/

section Shift

variable {n : ℕ} {fields : List Bytes}

/-- Values are assigned alike exactly when as many as there are attributes are the same. -/
theorem zipWith_csvValue_eq_iff {now : ℤ} {names xs ys : List Bytes} :
    List.zipWith (csvValue now) names xs = List.zipWith (csvValue now) names ys ↔
      xs.take names.length = ys.take names.length := by
  induction names generalizing xs ys with
  | nil => simp
  | cons name names ih =>
    cases xs with
    | nil => cases ys <;> simp
    | cons x xs =>
      cases ys with
      | nil => simp
      | cons y ys =>
        have hvalue : csvValue now name x = csvValue now name y ↔ x = y :=
          ⟨congrArg Attrval.value, fun h => h ▸ rfl⟩
        simp only [List.zipWith_cons_cons, List.length_cons, List.take_succ_cons, List.cons.injEq,
          ih, hvalue]

theorem fullFields_cons_nil : fullFields ([] :: fields) = fullFields fields :=
  List.filter_cons_of_neg (by simp)

theorem fullFields_cons_of_ne {f : Bytes} (hf : f ≠ []) :
    fullFields (f :: fields) = f :: fullFields fields :=
  List.filter_cons_of_pos (by simpa using hf)

/-- Fields that have moved up by some places stand for empty ones exactly when they are white
    space. -/
theorem take_moved_iff {d : ℕ} (hd : 0 < d ∨ n = 0) :
    ((fullFields fields).map trim).take (n + d) =
        List.replicate d [] ++ (fields.map strip).take n ↔
      ((fullFields fields).map trim).take (n + d) = List.replicate (n + d) [] := by
  induction fields generalizing n d with
  | nil =>
    rw [fullFields, List.filter_nil, List.map_nil, List.take_nil, List.map_nil, List.take_nil,
      List.append_nil, eq_comm, List.replicate_eq_nil_iff, @eq_comm _ [], List.replicate_eq_nil_iff]
    omega
  | cons f fields ih =>
    by_cases hf : f = []
    · -- one more place
      rw [hf, fullFields_cons_nil, List.map_cons]
      cases n with
      | zero => rw [List.take_zero, List.append_nil, Nat.zero_add]
      | succ n =>
        have hcons : List.replicate d [] ++ (strip [] :: fields.map strip).take (n + 1) =
            List.replicate (d + 1) [] ++ (fields.map strip).take n := by
          rw [List.take_succ_cons, List.replicate_succ', List.append_assoc]
          rfl
        rw [hcons, Nat.succ_add_eq_add_succ]
        exact ih (.inl (Nat.succ_pos d))
    · rw [fullFields_cons_of_ne hf, List.map_cons, List.map_cons]
      cases d with
      | zero =>
        obtain rfl : n = 0 := hd.resolve_left (lt_irrefl 0)
        exact iff_of_true rfl rfl
      | succ d =>
        rw [← Nat.add_assoc, List.take_succ_cons, List.replicate_succ, List.cons_append,
          List.replicate_succ, List.cons.injEq, List.cons.injEq]
        refine and_congr_right fun htrim => ?_
        cases n with
        | zero => rw [List.take_zero, List.append_nil, Nat.zero_add]
        | succ n =>
          have hstrip : strip f = [] := strip_eq_nil_iff.2 (trim_eq_nil_iff.1 htrim)
          have hcons : List.replicate d [] ++ (strip f :: fields.map strip).take (n + 1) =
              List.replicate (d + 1) [] ++ (fields.map strip).take n := by
            rw [hstrip, List.take_succ_cons, List.replicate_succ', List.append_assoc]
            rfl
          rw [hcons, Nat.succ_add_eq_add_succ]
          exact ih (.inl (Nat.succ_pos d))

theorem unshifted_cons_of_ne {f : Bytes} (hf : f ≠ []) :
    Unshifted (n + 1) (f :: fields) ↔ Unshifted n fields := by
  rw [Unshifted, Unshifted, fullFields_cons_of_ne hf, List.take_succ_cons, List.forall_mem_cons,
    and_iff_right hf, List.takeWhile_cons_of_pos (by simpa using hf), List.length_cons,
    List.length_cons, Nat.succ_le_succ_iff, List.take_succ_cons, List.drop_succ_cons]

theorem unshifted_cons_nil : Unshifted (n + 1) ([] :: fields) ↔
    ((fullFields fields).map trim).take (n + 1) = List.replicate (n + 1) [] := by
  have hfirst : ¬∀ f ∈ ([] :: fields).take (n + 1), f ≠ [] := fun h => h [] (by simp) rfl
  rw [Unshifted, or_iff_right hfirst, fullFields_cons_nil, List.takeWhile_cons_of_neg (by simp),
    List.length_nil, List.drop_zero, ← List.map_take, List.eq_replicate_iff, List.length_map,
    List.length_take, List.forall_mem_map, min_eq_left_iff]
  exact and_congr_right' (forall₂_congr fun t _ => trim_eq_nil_iff.symm)

/-- The first fields are empty or among the first that are not. -/
theorem mem_take_fullFields {f : Bytes} (h : f ∈ fields.take n) (hf : f ≠ []) :
    f ∈ (fullFields fields).take n := by
  have hprefix : fullFields (fields.take n) <+: (fullFields fields).take n :=
    List.prefix_take_iff.2 ⟨(List.take_prefix n fields).filter _,
      (List.length_filter_le _ _).trans (List.length_take_le n fields)⟩
  exact hprefix.subset (List.mem_filter.2 ⟨h, by simpa using hf⟩)

/-- The fields that are not empty, trimmed, are the fields that are meant exactly when these
    are words and none of them has moved. -/
theorem take_fullFields_eq_iff :
    ((fullFields fields).map trim).take n = (fields.map strip).take n ↔
      (∀ f ∈ fields.take n, IsOneWord f) ∧ Unshifted n fields := by
  induction fields generalizing n with
  | nil => exact iff_of_true rfl ⟨by simp, .inl (by simp)⟩
  | cons f fields ih =>
    cases n with
    | zero => exact iff_of_true rfl ⟨by simp, .inl (by simp)⟩
    | succ n =>
      by_cases hf : f = []
      · have hmoved := @take_moved_iff n fields 1 (.inl Nat.one_pos)
        rw [hf, unshifted_cons_nil, fullFields_cons_nil, List.map_cons, List.take_succ_cons]
        refine hmoved.trans (iff_and_self.2 fun hblank => ?_)
        rw [List.take_succ_cons, List.forall_mem_cons]
        refine ⟨fun _ hb => (nomatch hb), fun f hmem b hb => ?_⟩
        -- a field that is not empty is one of white space
        have hstrip : strip f = [] := by
          by_cases hf : f = []
          · rw [hf]
            rfl
          · have hmem := List.take_subset_take_left _ n.le_succ (mem_take_fullFields hmem hf)
            rw [← List.map_take, List.eq_replicate_iff] at hblank
            exact strip_eq_nil_iff.2 (trim_eq_nil_iff.1
              (hblank.2 _ (List.mem_map_of_mem hmem)))
        rw [hstrip] at hb
        cases hb
      · rw [unshifted_cons_of_ne hf, fullFields_cons_of_ne hf, List.map_cons, List.map_cons,
          List.take_succ_cons, List.take_succ_cons, List.take_succ_cons, List.forall_mem_cons,
          List.cons.injEq, trim_eq_strip_iff, ih, and_assoc]

end Shift

/-! ## A line of a file -/

section Line

variable {l : FileLine} {rest : Bytes}

/-- A line that fits is read whole; the end of the file is seen unless the buffer is full. -/
theorem fgets_bytes (hfit : l.bytes.length < LINE_SIZE) (hrest : l.ended = true ∨ rest = []) :
    fgets LINE_SIZE (l.bytes ++ rest) =
      (l.bytes, !l.ended && decide (l.text.length < LINE_SIZE - 1), rest) := by
  have htake : (l.bytes ++ rest).take (LINE_SIZE - 1) =
      l.bytes ++ rest.take (LINE_SIZE - 1 - l.bytes.length) := by
    rw [List.take_append, List.take_of_length_le (Nat.le_sub_one_of_lt hfit)]
  rw [fgets, htake]
  cases hended : l.ended with
  | true =>
    have hbytes : l.bytes = l.text ++ [ch '\n'] := by rw [FileLine.bytes, if_pos hended]
    have hlen : l.text.length + 1 = l.bytes.length := by rw [hbytes, List.length_append]; rfl
    have hidx : (l.bytes ++ rest.take (LINE_SIZE - 1 - l.bytes.length)).idxOf? (ch '\n') =
        some l.text.length := by
      rw [hbytes, List.append_assoc]
      exact idxOf?_append_cons l.newline_notMem _
    rw [hidx]
    simp only [hlen, List.take_left, List.drop_left, Bool.not_true, Bool.false_and]
  | false =>
    obtain rfl : rest = [] := hrest.resolve_left (by simp [hended])
    have hbytes : l.bytes = l.text := by rw [FileLine.bytes, hended]; exact List.append_nil _
    have hidx : (l.bytes ++ [].take (LINE_SIZE - 1 - l.bytes.length)).idxOf? (ch '\n') = none := by
      rw [List.take_nil, List.append_nil, hbytes, List.idxOf?_eq_none_iff]
      exact l.newline_notMem
    rw [hidx]
    simp only [List.take_nil, List.append_nil, hbytes, Bool.not_false, Bool.true_and]
    rw [List.drop_eq_nil_of_le (hbytes ▸ Nat.le_sub_one_of_lt hfit)]

/-- A line that fits is found too large exactly when the end of the file behind it is not
    seen. -/
theorem tooLarge_iff (hfit : l.bytes.length < LINE_SIZE) :
    tooLarge l.bytes (!l.ended && decide (l.text.length < LINE_SIZE - 1)) = true ↔ ¬EndSeen l := by
  rw [tooLarge]
  cases hended : l.ended with
  | true =>
    refine iff_of_false ?_ fun h => h fun hfalse => absurd (hended.symm.trans hfalse) (by decide)
    rw [FileLine.bytes, if_pos hended, List.getLast?_concat]
    exact Bool.false_ne_true
  | false =>
    have hbytes : l.bytes = l.text := by rw [FileLine.bytes, hended]; exact List.append_nil _
    rw [hbytes] at hfit ⊢
    by_cases hlt : l.text.length < LINE_SIZE - 1
    · refine iff_of_false (by simp [hlt]) fun h => h fun _ hlen => absurd hlen hlt.ne
    · have hlen : l.text.length = LINE_SIZE - 1 :=
        le_antisymm (Nat.le_sub_one_of_lt hfit) (Nat.le_of_not_lt hlt)
      have hne : l.text ≠ [] := List.ne_nil_of_length_pos (by rw [hlen]; decide)
      have hlast : l.text.getLast hne ≠ ch '\n' := fun h =>
        l.newline_notMem (h ▸ List.getLast_mem hne)
      have hseen : EndSeen l ↔ l.text.getLast hne = ch '\r' := by
        rw [EndSeen, List.getLast?_eq_some_getLast hne, Option.some.injEq]
        exact ⟨fun h => h hended hlen, fun h _ _ => h⟩
      rw [hseen, List.getLast?_eq_some_getLast hne]
      simp [isLineEnd, hlast, hlt]

theorem rdropWhile_bytes : l.bytes.rdropWhile isLineEnd = l.text.rdropWhile isLineEnd := by
  rw [FileLine.bytes]
  split_ifs
  · exact List.rdropWhile_concat_pos _ _ _ (by decide)
  · rw [List.append_nil]

/-- A line of two words for two attributes. -/
def sampleFileLine : FileLine where
  text := ascii "red; large"
  ended := true
  nul_notMem := by decide
  newline_notMem := by decide

/-- A line that begins with an empty field. -/
def sampleShiftedLine : FileLine where
  text := ascii ";large"
  ended := true
  nul_notMem := by decide
  newline_notMem := by decide

end Line

end JobProvenance
