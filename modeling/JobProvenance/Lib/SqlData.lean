import JobProvenance.Lib.Sql

/-!
# Data in statements

A statement is put together from a fixed text and strings that are data, each of
which stands between quotes at its place. It stays data when the lexer is still in
the literal at the end of the string, having read the string, and the tokens are
those of a harmless string but for this literal (`StaysData`).

* `feed_lit_eq_iff`: a string that is put in as it is denotes itself in a literal
  exactly when it is `verbatim`: it has no quotes, and no backslashes but those of
  the two sequences that stand for themselves;
* `staysData_iff_verbatim`: these are the strings that stay data;
* `staysData_of_denotes`: a string that is escaped stays data, whatever it is.
-/

namespace JobProvenance

namespace Sql

/-- A string without anything the lexer treats specially in a literal. -/
def Harmless (s : Bytes) : Prop := ch '\'' ∉ s ∧ ch '\\' ∉ s

/-- Whether a string denotes itself in a literal. -/
def verbatim : Bytes → Bool
  | [] => true
  | b :: bs =>
    if b = ch '\'' then false
    else if b = ch '\\' then
      match bs with
      | [] => false
      | c :: cs => (c = ch '%' || c = ch '_') && verbatim cs
    else verbatim bs

theorem verbatim_quote (s : Bytes) : verbatim (ch '\'' :: s) = false := by
  rw [verbatim.eq_def]
  rfl

theorem verbatim_plain {b : UInt8} {s : Bytes} (hq : b ≠ ch '\'') (he : b ≠ ch '\\') :
    verbatim (b :: s) = verbatim s := by
  rw [verbatim.eq_def]
  simp only [if_neg hq, if_neg he]

theorem verbatim_escape (c : UInt8) (s : Bytes) : verbatim (ch '\\' :: c :: s) = true ↔
    (c = ch '%' ∨ c = ch '_') ∧ verbatim s = true := by
  rw [verbatim.eq_def]
  have hne : ch '\\' ≠ ch '\'' := by decide
  simp [hne]

theorem verbatim_of_harmless {s : Bytes} (h : Harmless s) : verbatim s = true := by
  obtain ⟨hq, he⟩ := h
  induction s with
  | nil => rfl
  | cons b s ih =>
    rw [List.mem_cons, not_or] at hq he
    rw [verbatim_plain (Ne.symm hq.1) (Ne.symm he.1)]
    exact ih hq.2 he.2

/-! ## Strings in a literal -/

namespace Lexer

/-- The lexer is in a literal behind some tokens, of which it has read `n` bytes at
    most, or it has cut more tokens and read less of another literal. -/
def Within (ts : List Token) (n : ℕ) : Lexer → Prop
  | lit ts' s => ts' = ts ∧ s.length ≤ n ∨ ts.length < ts'.length ∧ s.length < n
  | escape ts' s | quote ts' s => ts' = ts ∧ s.length < n ∨ ts.length < ts'.length ∧ s.length + 1 < n
  | idle ts' | word ts' _ | bang ts' => ts.length < ts'.length
  | stopped => True

variable {ts : List Token} {n : ℕ} {l : Lexer} {s s' : Bytes} {b : UInt8}

theorem length_unescape_le : (unescape b).length ≤ 2 := by
  unfold unescape
  split_ifs <;> simp

theorem within_start {ts' : List Token} (h : ts.length < ts'.length) :
    Within ts (n + 1) (start ts' b) := by
  have hmore : ∀ t : Token, ts.length < (ts' ++ [t]).length := fun t => by
    rw [List.length_append]
    exact Nat.lt_add_right _ h
  unfold start
  split_ifs
  all_goals first | exact h | exact hmore _ | exact .inr ⟨h, Nat.succ_pos n⟩ | trivial

theorem length_lt_append {ts' : List Token} {t : Token} (h : ts.length < ts'.length) :
    ts.length < (ts' ++ [t]).length := by
  rw [List.length_append]
  exact Nat.lt_add_right _ h

/-- A byte makes a literal longer by one byte at most. -/
theorem Within.step (h : l.Within ts n) : (l.step b).Within ts (n + 1) := by
  cases l with
  | idle ts' => exact within_start h
  | word ts' w =>
    rw [Lexer.step]
    split_ifs
    · exact h
    · exact within_start (length_lt_append h)
  | bang ts' =>
    rw [Lexer.step]
    split_ifs
    · exact length_lt_append h
    · trivial
  | lit ts' s =>
    rw [Lexer.step]
    split_ifs
    · exact h.imp (fun h => ⟨h.1, Nat.lt_succ_of_le h.2⟩) fun h => ⟨h.1, Nat.succ_lt_succ h.2⟩
    · exact h.imp (fun h => ⟨h.1, Nat.lt_succ_of_le h.2⟩) fun h => ⟨h.1, Nat.succ_lt_succ h.2⟩
    · have hlength : (s ++ [b]).length = s.length + 1 := List.length_append
      exact h.imp (fun h => ⟨h.1, hlength ▸ Nat.succ_le_succ h.2⟩) fun h =>
        ⟨h.1, hlength ▸ Nat.succ_lt_succ h.2⟩
  | escape ts' s =>
    have hlength : (s ++ unescape b).length ≤ s.length + 2 := by
      rw [List.length_append]
      exact Nat.add_le_add_left length_unescape_le _
    exact h.imp (fun h => ⟨h.1, hlength.trans (Nat.succ_le_succ h.2)⟩) fun h =>
      ⟨h.1, lt_of_le_of_lt hlength (Nat.succ_lt_succ h.2)⟩
  | quote ts' s =>
    rw [Lexer.step]
    split_ifs
    · have hlength : (s ++ [b]).length = s.length + 1 := List.length_append
      exact h.imp (fun h => ⟨h.1, hlength ▸ Nat.le_succ_of_le h.2⟩) fun h =>
        ⟨h.1, hlength ▸ Nat.lt_succ_of_lt h.2⟩
    · refine within_start ?_
      rcases h with ⟨rfl, -⟩ | ⟨h, -⟩
      · rw [List.length_append]
        exact Nat.lt_succ_self _
      · exact length_lt_append h
  | stopped => trivial

theorem Within.feed (h : l.Within ts n) : (l.feed s).Within ts (n + s.length) := by
  induction s generalizing l n with
  | nil => exact h
  | cons b s ih =>
    rw [feed_cons, List.length_cons, Nat.add_comm s.length, ← Nat.add_assoc]
    exact ih h.step

/-- What is read of a literal is not longer than the text. -/
theorem length_le_of_feed {ts' : List Token} (h : l.Within ts n) (hl : l.feed s = lit ts' s') :
    s'.length ≤ n + s.length := by
  have hfeed := h.feed (s := s)
  rw [hl] at hfeed
  exact hfeed.elim And.right fun h => h.2.le

/-- A string denotes itself in a literal exactly when it is verbatim. -/
theorem feed_lit_eq_iff : (lit ts s').feed s = lit ts (s' ++ s) ↔ verbatim s = true := by
  have hne : ch '\\' ≠ ch '\'' := by decide
  induction s using verbatim.induct generalizing s' with
  | case1 => simp [Lexer.feed, verbatim]
  | case2 s =>
    -- the quote is the end of the literal, or what is read is shorter than the text
    refine iff_of_false (fun h => ?_) (by simp [verbatim_quote])
    rw [feed_cons, Lexer.step, if_pos rfl] at h
    cases s with
    | nil => cases h
    | cons c s =>
      have hwithin : ((quote ts s').step c).Within ts (s'.length + 1) := by
        rw [Lexer.step]
        split_ifs
        · exact .inl ⟨rfl, List.length_append.le⟩
        · exact within_start (by rw [List.length_append]; exact Nat.lt_succ_self _)
      have hlength := length_le_of_feed hwithin h
      simp only [List.length_append, List.length_cons] at hlength
      omega
  | case3 => simp [Lexer.feed, Lexer.step, verbatim, hne]
  | case4 c s _ ih =>
    rw [feed_cons, Lexer.step, if_neg hne, if_pos rfl, feed_cons, Lexer.step]
    by_cases hc : c = ch '%' ∨ c = ch '_'
    · have hself : unescape c = [ch '\\', c] := by
        rcases hc with rfl | rfl <;> rfl
      have hrest := @ih (s' ++ [ch '\\', c])
      rw [List.append_assoc] at hrest
      rw [hself, verbatim_escape, and_iff_right hc]
      exact hrest
    · -- the sequence stands for one byte
      refine iff_of_false (fun h => ?_) fun h => hc ((verbatim_escape c s).1 h).1
      have hone : (unescape c).length = 1 := by
        unfold unescape
        rw [if_neg hc]
        split_ifs <;> rfl
      have hwithin : (lit ts (s' ++ unescape c)).Within ts (s'.length + 1) := by
        refine .inl ⟨rfl, ?_⟩
        rw [List.length_append, hone]
      have hlength := length_le_of_feed hwithin h
      simp only [List.length_append, List.length_cons] at hlength
      omega
  | case5 b s hq he ih =>
    have hrest := @ih (s' ++ [b])
    rw [List.append_assoc] at hrest
    rw [feed_cons, Lexer.step, if_neg hq, if_neg he, verbatim_plain hq he]
    exact hrest

/-- A literal that is read with its text is the one it is read in. -/
theorem eq_of_feed_lit {ts' : List Token} (h : (lit ts []).feed s = lit ts' s) : ts' = ts := by
  have hwithin : ((lit ts []).feed s).Within ts (0 + s.length) :=
    Within.feed (.inl ⟨rfl, le_rfl⟩)
  rw [h, Nat.zero_add] at hwithin
  exact hwithin.elim And.left fun h => absurd h.2 (lt_irrefl _)

end Lexer

/-! ## Places -/

/-- A place for data in a statement: what stands in front of the quotes, and behind
    them. -/
structure Place where
  before : Bytes
  after : Bytes

/-- The statement with a text at the place. -/
def Place.text (p : Place) (q : Bytes) : Bytes :=
  p.before ++ (ascii "'" ++ (q ++ (ascii "'" ++ p.after)))

/-- A string that is put in as `q` stays data: the literal at the place denotes it
    when its text ends, and the other tokens are those there are when the string is
    harmless. -/
def StaysData (p : Place) (q s : Bytes) : Prop := ∃ ts ts',
  (Lexer.idle []).feed (p.before ++ (ascii "'" ++ q)) = .lit ts s ∧
  lex (p.text q) = some (ts ++ .lit s :: ts') ∧
  ∀ h, Harmless h → lex (p.text h) = some (ts ++ .lit h :: ts')

/-- A place between two tokens: what stands in front ends between two tokens, and
    behind it is nothing, or a text that ends the literal. -/
structure Place.Between (p : Place) (ts ts' : List Token) : Prop where
  before : LexesIdle p.before ts
  after : Lexes p.after ts'
  ends : p.after = [] ∨ endsToken p.after = true

section Places

variable {p : Place} {ts ts' : List Token} {q s : Bytes}

theorem Place.feed_before (hb : LexesIdle p.before ts) :
    (Lexer.idle []).feed (p.before ++ (ascii "'" ++ q)) = (Lexer.lit ts []).feed q := by
  rw [Lexer.feed_append, hb [], List.nil_append, Lexer.feed_append]
  rfl

/-- The tokens of a statement with a literal at the place. -/
theorem Place.Between.lex (h : p.Between ts ts')
    (hq : ∀ ts, (Lexer.lit ts []).feed q = .lit ts s) :
    Sql.lex (p.text q) = some (ts ++ .lit s :: ts') := by
  have hlit : Lexes (ascii "'" ++ (q ++ ascii "'")) [.lit s] := .lit hq
  have hrest : Lexes ((ascii "'" ++ (q ++ ascii "'")) ++ p.after) ([.lit s] ++ ts') := by
    rcases h.ends with hnil | hends
    · have hts : ts' = [] := by
        have hempty := h.after []
        rw [hnil] at hempty
        exact (Lexer.idle.inj hempty).symm
      rw [hnil, hts, List.append_nil, List.append_nil]
      exact hlit
    · exact hlit.append hends h.after
  rw [List.append_assoc, List.append_assoc] at hrest
  exact (h.before.append hrest).lex

/-- A string that the text at the place denotes stays data. -/
theorem staysData_of_denotes (h : p.Between ts ts')
    (hq : ∀ ts, (Lexer.lit ts []).feed q = .lit ts s) : StaysData p q s :=
  ⟨ts, ts', (Place.feed_before h.before).trans (hq ts), h.lex hq, fun _ ⟨hquote, hescape⟩ =>
    h.lex fun _ => Lexer.feed_lit hquote hescape⟩

/-- A string that is put in as it is, and stays data, is verbatim. -/
theorem verbatim_of_staysData (hb : LexesIdle p.before ts) (h : StaysData p s s) :
    verbatim s = true := by
  obtain ⟨ts₁, -, hfeed, -⟩ := h
  rw [Place.feed_before hb] at hfeed
  obtain rfl := Lexer.eq_of_feed_lit hfeed
  exact (@Lexer.feed_lit_eq_iff _ s []).1 hfeed

/-- A string that is put in as it is stays data exactly when it is verbatim. -/
theorem staysData_iff_verbatim (h : p.Between ts ts') : StaysData p s s ↔ verbatim s = true :=
  ⟨verbatim_of_staysData h.before, fun hs => staysData_of_denotes h fun _ =>
    Lexer.feed_lit_eq_iff.2 hs⟩

end Places

end Sql

end JobProvenance
