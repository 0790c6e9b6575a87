import JobProvenance.Lib.CString

/-!
# SQL statements

The part of SQL that `SELECT DISTINCT` queries and updates with a condition need:
the text, its tokens, the grammar of the conditions, and what a query selects.

* `lex` cuts a text into tokens, one byte at a time, so that the tokens of a
  text that is put together from pieces are those of the pieces (`Lexes.append`,
  `Lexes.of_lex`);
* `Parser.step` reads a condition one token at a time, with a stack for the
  parentheses; `Parses` says what a sequence of tokens contributes
  (`Parses.cmp`, `Parses.between`, `Parses.and`, `Parses.parens`);
* `Expr.eval` and `Select.eval` are the meaning of a condition and of a query,
  a query ranging over one row of each of its tables (`mem_envs`);
* `Update.apply` is what an update does to the rows of a table.

String values are compared by the collation of the database.
-/

namespace JobProvenance

namespace Sql

/-! ## Tokens -/

/-- A token: names (with the table in front, if there is one), keywords and
    numbers are words. -/
inductive Token
  | word (w : Bytes)
  | lit (s : Bytes)
  | comma
  | lpar
  | rpar
  | eq
  | ne
  | lt
  | gt
  deriving DecidableEq

/-- Whether a byte belongs to a word. -/
def isWord (b : UInt8) : Bool :=
  (ch 'a' ≤ b && b ≤ ch 'z') || (ch 'A' ≤ b && b ≤ ch 'Z') || (ch '0' ≤ b && b ≤ ch '9') ||
    b = ch '_' || b = ch '.'

/-- The lexer with the tokens it has cut: between tokens, in a word, behind an
    exclamation mark, in a literal, behind a backslash in it, behind a quote in
    it, or stopped. -/
inductive Lexer
  | idle (ts : List Token)
  | word (ts : List Token) (w : Bytes)
  | bang (ts : List Token)
  | lit (ts : List Token) (s : Bytes)
  | escape (ts : List Token) (s : Bytes)
  | quote (ts : List Token) (s : Bytes)
  | stopped

/-- The bytes an escape sequence of a literal stands for. -/
def unescape (b : UInt8) : Bytes :=
  if b = ch '0' then [0]
  else if b = ch 'b' then [8]
  else if b = ch 'n' then [10]
  else if b = ch 'r' then [13]
  else if b = ch 't' then [9]
  else if b = ch 'Z' then [26]
  else if b = ch '%' ∨ b = ch '_' then [ch '\\', b]
  else [b]

namespace Lexer

/-- The first byte behind a token. -/
def start (ts : List Token) (b : UInt8) : Lexer :=
  if isSpace b then idle ts
  else if isWord b then word ts [b]
  else if b = ch '\'' then lit ts []
  else if b = ch '!' then bang ts
  else if b = ch ',' then idle (ts ++ [Token.comma])
  else if b = ch '(' then idle (ts ++ [Token.lpar])
  else if b = ch ')' then idle (ts ++ [Token.rpar])
  else if b = ch '=' then idle (ts ++ [Token.eq])
  else if b = ch '<' then idle (ts ++ [Token.lt])
  else if b = ch '>' then idle (ts ++ [Token.gt])
  else stopped

/-- Reads a byte. -/
def step : Lexer → UInt8 → Lexer
  | idle ts, b => start ts b
  | word ts w, b => if isWord b then .word ts (w ++ [b]) else start (ts ++ [.word w]) b
  | bang ts, b => if b = ch '=' then .idle (ts ++ [.ne]) else .stopped
  | lit ts s, b =>
    if b = ch '\'' then .quote ts s
    else if b = ch '\\' then .escape ts s
    else .lit ts (s ++ [b])
  | escape ts s, b => .lit ts (s ++ unescape b)
  | quote ts s, b => if b = ch '\'' then .lit ts (s ++ [b]) else start (ts ++ [.lit s]) b
  | stopped, _ => .stopped

/-- Reads a text. -/
def feed (l : Lexer) (s : Bytes) : Lexer := s.foldl step l

/-- The lexer once the token it may be in has ended. -/
def settle : Lexer → Lexer
  | word ts w => .idle (ts ++ [.word w])
  | quote ts s => .idle (ts ++ [.lit s])
  | l => l

theorem feed_append (l : Lexer) (s s' : Bytes) : l.feed (s ++ s') = (l.feed s).feed s' :=
  List.foldl_append

theorem feed_cons (l : Lexer) (b : UInt8) (s : Bytes) : l.feed (b :: s) = (l.step b).feed s := rfl

/-- A byte that belongs to no word and is no quote ends the token before it. -/
theorem step_of_settle {l : Lexer} {ts : List Token} {b : UInt8} (hl : l.settle = .idle ts)
    (hw : isWord b = false) (hq : b ≠ ch '\'') : l.step b = start ts b := by
  cases l with
  | idle ts' => exact congrArg (start · b) (Lexer.idle.inj hl)
  | word ts' w =>
    obtain rfl := Lexer.idle.inj hl
    simp [step, hw]
  | quote ts' s =>
    obtain rfl := Lexer.idle.inj hl
    simp [step, hq]
  | bang ts' => cases hl
  | lit ts' s => cases hl
  | escape ts' s => cases hl
  | stopped => cases hl

/-- Reading a word. -/
theorem feed_word {w w' : Bytes} {ts : List Token} (hw : ∀ b ∈ w', isWord b = true) :
    (word ts w).feed w' = .word ts (w ++ w') := by
  induction w' generalizing w with
  | nil => simp [feed]
  | cons b w' ih =>
    rw [List.forall_mem_cons] at hw
    rw [feed_cons, step, if_pos hw.1, ih hw.2, List.append_assoc, List.singleton_append]

/-- Reading the text of a literal that has nothing to escape. -/
theorem feed_lit {s s' : Bytes} {ts : List Token} (hq : ch '\'' ∉ s') (he : ch '\\' ∉ s') :
    (lit ts s).feed s' = .lit ts (s ++ s') := by
  induction s' generalizing s with
  | nil => simp [feed]
  | cons b s' ih =>
    rw [List.mem_cons, not_or] at hq he
    rw [feed_cons, step, if_neg (Ne.symm hq.1), if_neg (Ne.symm he.1), ih hq.2 he.2,
      List.append_assoc, List.singleton_append]

/-- The lexer with some tokens in front of those it has cut. -/
def prepend (ts₀ : List Token) : Lexer → Lexer
  | idle ts => .idle (ts₀ ++ ts)
  | word ts w => .word (ts₀ ++ ts) w
  | bang ts => .bang (ts₀ ++ ts)
  | lit ts s => .lit (ts₀ ++ ts) s
  | escape ts s => .escape (ts₀ ++ ts) s
  | quote ts s => .quote (ts₀ ++ ts) s
  | stopped => .stopped

theorem prepend_start (ts₀ ts : List Token) (b : UInt8) :
    start (ts₀ ++ ts) b = (start ts b).prepend ts₀ := by
  simp only [start, apply_ite (prepend ts₀)]
  simp only [prepend, List.append_assoc]

/-- What the lexer reads does not depend on what it has cut. -/
theorem prepend_step (ts₀ : List Token) (l : Lexer) (b : UInt8) :
    (l.prepend ts₀).step b = (l.step b).prepend ts₀ := by
  rcases l with ts | ⟨ts, w⟩ | ts | ⟨ts, s⟩ | ⟨ts, s⟩ | ⟨ts, s⟩ | _
  · exact prepend_start ts₀ ts b
  · rw [step, apply_ite (prepend ts₀), ← prepend_start, ← List.append_assoc]
    rfl
  · rw [step, apply_ite (prepend ts₀), prepend, ← List.append_assoc]
    rfl
  · simp only [step, apply_ite (prepend ts₀)]
    rfl
  · rfl
  · rw [step, apply_ite (prepend ts₀), ← prepend_start, ← List.append_assoc]
    rfl
  · rfl

theorem prepend_feed (ts₀ : List Token) (l : Lexer) (s : Bytes) :
    (l.prepend ts₀).feed s = (l.feed s).prepend ts₀ := by
  induction s generalizing l with
  | nil => rfl
  | cons b s ih => rw [feed_cons, prepend_step, ih, feed_cons]

theorem prepend_settle (ts₀ : List Token) (l : Lexer) :
    (l.prepend ts₀).settle = l.settle.prepend ts₀ := by
  cases l <;> simp [prepend, settle]

end Lexer

/-- The tokens of a text. -/
def lex (s : Bytes) : Option (List Token) :=
  match ((Lexer.idle []).feed s).settle with
  | .idle ts => some ts
  | _ => none

/-- A text has some tokens, wherever between two tokens it stands. -/
def Lexes (s : Bytes) (ts : List Token) : Prop :=
  ∀ ts₀, ((Lexer.idle ts₀).feed s).settle = .idle (ts₀ ++ ts)

/-- A text that in addition ends between two tokens. -/
def LexesIdle (s : Bytes) (ts : List Token) : Prop :=
  ∀ ts₀, (Lexer.idle ts₀).feed s = .idle (ts₀ ++ ts)

section Lexes

variable {s s' : Bytes} {ts ts' : List Token} {b : UInt8}

theorem Lexes.lex (h : Lexes s ts) : Sql.lex s = some ts := by
  rw [Sql.lex, h []]
  rfl

theorem Lexes.of_eq (h : Lexes s ts) (hts : ts' = ts) : Lexes s ts' := hts ▸ h

/-- A text has the tokens that are cut from it alone. -/
theorem Lexes.of_lex (h : Sql.lex s = some ts) : Lexes s ts := by
  intro ts₀
  have hidle : Lexer.idle ts₀ = (Lexer.idle []).prepend ts₀ := by rw [Lexer.prepend, List.append_nil]
  rw [hidle, Lexer.prepend_feed, Lexer.prepend_settle]
  unfold Sql.lex at h
  split at h
  · rename_i ts' hts
    rw [hts, ← Option.some.inj h]
    rfl
  · cases h

/-- The same for a text that ends between two tokens. -/
theorem LexesIdle.of_feed (h : (Lexer.idle []).feed s = .idle ts) : LexesIdle s ts := by
  intro ts₀
  have hidle : Lexer.idle ts₀ = (Lexer.idle []).prepend ts₀ := by rw [Lexer.prepend, List.append_nil]
  rw [hidle, Lexer.prepend_feed, h]
  rfl

theorem LexesIdle.lexes (h : LexesIdle s ts) : Lexes s ts := fun ts₀ => by
  rw [h ts₀]
  rfl

theorem Lexes.nil : Lexes [] [] := fun ts₀ => by
  rw [List.append_nil]
  rfl

/-- The tokens of a text in front of which a token has just ended. -/
theorem LexesIdle.append (h : LexesIdle s ts) (h' : Lexes s' ts') : Lexes (s ++ s') (ts ++ ts') :=
  fun ts₀ => by rw [Lexer.feed_append, h ts₀, h' (ts₀ ++ ts), List.append_assoc]

theorem LexesIdle.append_idle (h : LexesIdle s ts) (h' : LexesIdle s' ts') :
    LexesIdle (s ++ s') (ts ++ ts') :=
  fun ts₀ => by rw [Lexer.feed_append, h ts₀, h' (ts₀ ++ ts), List.append_assoc]

/-- Behind a text that ends between two tokens, the tokens of the rest follow. -/
theorem LexesIdle.lex_append (h : LexesIdle s ts) : lex (s ++ s') = (lex s').map (ts ++ ·) := by
  have hidle : Lexer.idle ts = (Lexer.idle []).prepend ts := by rw [Lexer.prepend, List.append_nil]
  have hfeed : ((Lexer.idle []).feed (s ++ s')).settle =
      (((Lexer.idle []).feed s').settle).prepend ts := by
    rw [Lexer.feed_append, h [], List.nil_append, hidle, Lexer.prepend_feed, Lexer.prepend_settle]
  rw [lex, hfeed, lex]
  cases ((Lexer.idle []).feed s').settle <;> rfl

/-- Whether a text ends the token in front of it: it starts with a byte that
    belongs to no word and is no quote. -/
def endsToken (s : Bytes) : Bool := s.head?.any fun b => !isWord b && b ≠ ch '\''

/-- A text that ends the last token of another is read behind the tokens of the other. -/
theorem Lexes.feed_append (h : Lexes s ts) (hs : endsToken s' = true) (ts₀ : List Token) :
    (Lexer.idle ts₀).feed (s ++ s') = (Lexer.idle (ts₀ ++ ts)).feed s' := by
  rcases s' with _ | ⟨b, s'⟩
  · cases hs
  · obtain ⟨hw, hq⟩ : isWord b = false ∧ b ≠ ch '\'' := by
      simpa [endsToken] using hs
    rw [Lexer.feed_append, Lexer.feed_cons, Lexer.step_of_settle (h ts₀) hw hq]
    rfl

/-- The tokens of a text with another that ends its last token. -/
theorem Lexes.append (h : Lexes s ts) (hs : endsToken s' = true) (h' : Lexes s' ts') :
    Lexes (s ++ s') (ts ++ ts') := by
  intro ts₀
  rw [h.feed_append hs, ← List.append_assoc]
  exact h' (ts₀ ++ ts)

/-- The same when the other text ends between two tokens. -/
theorem Lexes.append_idle (h : Lexes s ts) (hs : endsToken s' = true) (h' : LexesIdle s' ts') :
    LexesIdle (s ++ s') (ts ++ ts') := by
  intro ts₀
  rw [h.feed_append hs, ← List.append_assoc]
  exact h' (ts₀ ++ ts)

theorem Lexes.word {w : Bytes} (hne : w ≠ []) (hw : ∀ b ∈ w, isWord b = true) :
    Lexes w [.word w] := by
  intro ts₀
  obtain ⟨b, w, rfl⟩ := List.exists_cons_of_ne_nil hne
  rw [List.forall_mem_cons] at hw
  have hspace : isSpace b = false := by
    rcases Bool.eq_false_or_eq_true (isSpace b) with h | h
    · simp only [isSpace, Bool.or_eq_true, decide_eq_true_eq, Bool.and_eq_true] at h
      rcases h with rfl | ⟨-, h⟩
      · exact absurd hw.1 (by decide)
      · have hlt : b.toNat ≤ 13 := UInt8.le_iff_toNat_le.1 h
        have hge : ∀ c : Char, 13 < (ch c).toNat → ¬ch c ≤ b := fun c hc hle => by
          have := UInt8.le_iff_toNat_le.1 hle
          omega
        have hne : ∀ c : Char, 13 < (ch c).toNat → b ≠ ch c := by
          rintro c hc rfl
          omega
        simp [isWord, hge 'a' (by decide), hge 'A' (by decide), hge '0' (by decide),
          hne '_' (by decide), hne '.' (by decide)] at hw
    · exact h
  rw [Lexer.feed_cons, Lexer.step, Lexer.start, if_neg (by simp [hspace]), if_pos hw.1,
    Lexer.feed_word hw.2]
  rfl

/-- Texts with a blank between them. -/
theorem Lexes.space (h : Lexes s ts) (h' : Lexes s' ts') :
    Lexes (s ++ (ascii " " ++ s')) (ts ++ ts') := by
  have hblank : LexesIdle (ascii " ") [] := fun ts₀ => by
    rw [List.append_nil]
    rfl
  exact h.append rfl (hblank.append h')

/-- A text in parentheses. -/
theorem Lexes.parens (h : Lexes s ts) :
    Lexes (ascii "(" ++ (s ++ ascii ")")) (Token.lpar :: (ts ++ [Token.rpar])) := by
  have hopen : LexesIdle (ascii "(") [.lpar] := fun ts₀ => rfl
  have hclose : Lexes (ascii ")") [.rpar] := fun ts₀ => rfl
  exact hopen.append (h.append rfl hclose)

/-- A literal, in whatever way its text is escaped. -/
theorem Lexes.lit {q : Bytes} (hq : ∀ ts, (Lexer.lit ts []).feed q = .lit ts s) :
    Lexes (ascii "'" ++ (q ++ ascii "'")) [.lit s] := by
  intro ts₀
  have hstart : (Lexer.idle ts₀).feed (ascii "'") = .lit ts₀ [] := rfl
  rw [Lexer.feed_append, hstart, Lexer.feed_append, hq]
  rfl

end Lexes

/-- A conversion of `printf` that puts a string into a literal, escaped: the
    literal is the string, and one without a quote or backslash stays as it is. -/
structure Quoting where
  quote : Option Bytes → Bytes
  feed_quote : ∀ v ts, (Lexer.lit ts []).feed (quote v) = .lit ts (v.getD nullText)
  quote_plain : ∀ {s}, ch '\'' ∉ s → ch '\\' ∉ s → quote (some s) = s

/-- The escaped text of a string: quotes are doubled, backslashes escaped. -/
def escapeQuotes : Bytes → Bytes
  | [] => []
  | b :: bs =>
    if b = ch '\'' then ch '\'' :: ch '\'' :: escapeQuotes bs
    else if b = ch '\\' then ch '\\' :: ch '\\' :: escapeQuotes bs
    else b :: escapeQuotes bs

theorem feed_escapeQuotes (s s' : Bytes) (ts : List Token) :
    (Lexer.lit ts s').feed (escapeQuotes s) = .lit ts (s' ++ s) := by
  induction s generalizing s' with
  | nil => simp [escapeQuotes, Lexer.feed]
  | cons b s ih =>
    unfold escapeQuotes
    split_ifs with hq he
    · have hstep : ((Lexer.lit ts s').step (ch '\'')).step (ch '\'') = .lit ts (s' ++ [ch '\'']) := rfl
      rw [Lexer.feed_cons, Lexer.feed_cons, hstep, ih, hq, List.append_assoc, List.singleton_append]
    · have hstep : ((Lexer.lit ts s').step (ch '\\')).step (ch '\\') = .lit ts (s' ++ [ch '\\']) := rfl
      rw [Lexer.feed_cons, Lexer.feed_cons, hstep, ih, he, List.append_assoc, List.singleton_append]
    · rw [Lexer.feed_cons, Lexer.step, if_neg hq, if_neg he, ih, List.append_assoc,
        List.singleton_append]

theorem escapeQuotes_plain {s : Bytes} (hq : ch '\'' ∉ s) (he : ch '\\' ∉ s) :
    escapeQuotes s = s := by
  induction s with
  | nil => rfl
  | cons b s ih =>
    rw [List.mem_cons, not_or] at hq he
    rw [escapeQuotes, if_neg (Ne.symm hq.1), if_neg (Ne.symm he.1), ih hq.2 he.2]

/-- The usual escaping. -/
def Quoting.standard : Quoting where
  quote v := escapeQuotes (v.getD nullText)
  feed_quote v ts := by rw [feed_escapeQuotes, List.nil_append]
  quote_plain := escapeQuotes_plain

/-! ## Conditions -/

/-- A comparison. -/
inductive Op
  | eq
  | ne
  | lt
  | gt
  deriving DecidableEq

/-- What is compared: a column, a number or a string. -/
inductive Operand
  | col (name : Bytes)
  | num (n : ℕ)
  | lit (s : Bytes)
  deriving DecidableEq

/-- A condition. -/
inductive Expr
  | cmp (op : Op) (a b : Operand)
  | between (a lo hi : Operand)
  | and (a b : Expr)
  | or (a b : Expr)
  deriving DecidableEq

/-- The keywords of a condition. -/
def keywords : List Bytes := [ascii "AND", ascii "OR", ascii "BETWEEN"]

def Token.and : Token := .word (ascii "AND")

def Token.or : Token := .word (ascii "OR")

def Token.between : Token := .word (ascii "BETWEEN")

/-- The operand of a token. -/
def operandOf : Token → Option Operand
  | .lit s => some (.lit s)
  | .word w =>
    if w ∈ keywords then none
    else if w.all isDigit then some (.num (digitsValue w))
    else some (.col w)
  | _ => none

/-- The comparison of a token. -/
def opOf : Token → Option Op
  | .eq => some .eq
  | .ne => some .ne
  | .lt => some .lt
  | .gt => some .gt
  | _ => none

/-- What was read between two parentheses: the alternatives before the last
    `OR`, and the conjunction behind it. -/
structure Frame where
  ors : Option Expr
  ands : Option Expr
  deriving DecidableEq

/-- Nothing. -/
def Frame.empty : Frame := ⟨none, none⟩

/-- One more conjunct. -/
def Frame.push (f : Frame) (e : Expr) : Frame := { f with ands := some (f.ands.elim e (.and · e)) }

/-- The condition that was read. -/
def Frame.close (f : Frame) : Option Expr := f.ands.map fun e => f.ors.elim e (.or · e)

/-- What the parser expects: the start of a condition, the comparison behind an
    operand, its other operand, the parts of `BETWEEN`, or what may follow a
    condition. -/
inductive Mode
  | start
  | lhs (a : Operand)
  | rhs (a : Operand) (op : Op)
  | low (a : Operand)
  | mid (a lo : Operand)
  | high (a lo : Operand)
  | done
  deriving DecidableEq

/-- The parser: the frames around the innermost open parenthesis, that
    parenthesis' own, and the mode. -/
structure Parser where
  stack : List Frame
  cur : Frame
  mode : Mode
  deriving DecidableEq

/-- Reads a token. -/
def Parser.step (p : Parser) (t : Token) : Option Parser :=
  match p.mode with
  | .start =>
    if t = .lpar then some ⟨p.cur :: p.stack, .empty, .start⟩
    else (operandOf t).map fun a => { p with mode := .lhs a }
  | .lhs a =>
    match opOf t with
    | some op => some { p with mode := .rhs a op }
    | none => if t = .between then some { p with mode := .low a } else none
  | .rhs a op => (operandOf t).map fun b => { p with cur := p.cur.push (.cmp op a b), mode := .done }
  | .low a => (operandOf t).map fun lo => { p with mode := .mid a lo }
  | .mid a lo => if t = .and then some { p with mode := .high a lo } else none
  | .high a lo =>
    (operandOf t).map fun hi => { p with cur := p.cur.push (.between a lo hi), mode := .done }
  | .done =>
    if t = .and then some { p with mode := .start }
    else if t = .or then p.cur.close.map fun e => { p with cur := ⟨some e, none⟩, mode := .start }
    else if t = .rpar then
      match p.stack, p.cur.close with
      | f :: stack, some e => some ⟨stack, f.push e, .done⟩
      | _, _ => none
    else none

/-- The condition of all tokens. -/
def parseExpr (ts : List Token) : Option Expr := do
  let p ← ts.foldlM Parser.step ⟨[], .empty, .start⟩
  if p.mode = .done ∧ p.stack = [] then p.cur.close else none

/-- Tokens that contribute some conjuncts where a condition may start. -/
def Parses (ts : List Token) (es : List Expr) : Prop :=
  ∀ stack f,
    ts.foldlM Parser.step ⟨stack, f, .start⟩ = some ⟨stack, es.foldl Frame.push f, .done⟩

/-- Tokens that make up what is between two parentheses. -/
def Contents (ts : List Token) (f : Frame) : Prop :=
  ∀ stack, ts.foldlM Parser.step ⟨stack, .empty, .start⟩ = some ⟨stack, f, .done⟩

section Parses

variable {t t' t'' op : Token} {a b c : Operand} {o : Op} {ts ts' : List Token} {e e' : Expr}
  {es es' : List Expr} {f : Frame} {stack : List Frame}

theorem Parses.cmp (ha : operandOf t = some a) (ho : opOf op = some o) (hb : operandOf t' = some b) :
    Parses [t, op, t'] [.cmp o a b] := by
  intro stack f
  have hne : t ≠ .lpar := by
    rintro rfl
    cases ha
  simp [Parser.step, ha, ho, hb, hne]

theorem Parses.between (ha : operandOf t = some a) (hb : operandOf t' = some b)
    (hc : operandOf t'' = some c) :
    Parses [t, .between, t', .and, t''] [.between a b c] := by
  intro stack f
  have hne : t ≠ .lpar := by
    rintro rfl
    cases ha
  have hop : opOf .between = none := rfl
  simp [Parser.step, ha, hb, hc, hne, hop]

/-- Behind a condition, more of them may follow an `AND`, … -/
theorem step_and : Parser.step ⟨stack, f, .done⟩ .and = some ⟨stack, f, .start⟩ := by
  simp [Parser.step]

/-- … but none without it; … -/
theorem step_lpar : Parser.step ⟨stack, f, .done⟩ .lpar = none := by
  simp [Parser.step, Token.and, Token.or]

/-- … and no `AND` starts one. -/
theorem step_and_start : Parser.step ⟨stack, f, .start⟩ .and = none := by
  have hne : Token.and ≠ .lpar := by decide
  have hop : operandOf .and = none := rfl
  simp [Parser.step, hne, hop]

theorem Parses.and (h : Parses ts es) (h' : Parses ts' es') :
    Parses (ts ++ .and :: ts') (es ++ es') := by
  intro stack f
  rw [List.foldlM_append, h, Option.bind_eq_bind, Option.bind_some, List.foldlM_cons, step_and,
    List.foldl_append]
  exact h' stack _

/-- A condition in parentheses. -/
theorem Parses.parens (h : Contents ts f) (hf : f.close = some e) :
    Parses (Token.lpar :: (ts ++ [Token.rpar])) [e] := by
  intro stack g
  have hne : Token.rpar ≠ .and ∧ Token.rpar ≠ .or := by decide
  rw [List.foldlM_cons, Parser.step, if_pos rfl, Option.bind_eq_bind, Option.bind_some,
    List.foldlM_append, h, Option.bind_eq_bind, Option.bind_some]
  simp [Parser.step, hne.1, hne.2, hf]

theorem Contents.of_parses (h : Parses ts es) : Contents ts (es.foldl Frame.push .empty) :=
  fun stack => h stack _

/-- One more alternative. -/
theorem Contents.or (h : Contents ts f) (hf : f.close = some e) (h' : Parses ts' [e']) :
    Contents (ts ++ .or :: ts') ⟨some e, some e'⟩ := by
  intro stack
  have hne : Token.or ≠ .and := by decide
  rw [List.foldlM_append, h, Option.bind_eq_bind, Option.bind_some, List.foldlM_cons, Parser.step]
  simp only [if_neg hne, if_true, hf, Option.map_some, Option.bind_eq_bind, Option.bind_some]
  exact h' stack _

end Parses

/-! ## Queries -/

/-- A query for the different values of some columns. -/
structure Select where
  cols : List Bytes
  tables : List Bytes
  cond : Expr
  deriving DecidableEq

/-- The names of a list separated by commas, and what follows it. -/
def takeNames : List Token → Option (List Bytes × List Token)
  | .word w :: .comma :: ts => (takeNames ts).map fun r => (w :: r.1, r.2)
  | .word w :: ts => some ([w], ts)
  | _ => none

/-- The query of some tokens. -/
def parseSelect : List Token → Option Select
  | .word select :: .word distinct :: ts => do
    if select ≠ ascii "SELECT" ∨ distinct ≠ ascii "DISTINCT" then none
    let (cols, ts) ← takeNames ts
    let .word from_ :: ts := ts | none
    if from_ ≠ ascii "FROM" then none
    let (tables, ts) ← takeNames ts
    let .word where_ :: ts := ts | none
    if where_ ≠ ascii "WHERE" then none
    let cond ← parseExpr ts
    return { cols, tables, cond }
  | _ => none

/-- The tokens of names separated by commas. -/
def nameTokens (w : Bytes) (ws : List Bytes) : List Token :=
  .word w :: ws.flatMap fun w => [.comma, .word w]

theorem takeNames_nameTokens (w w' : Bytes) (ws : List Bytes) (ts : List Token) :
    takeNames (nameTokens w ws ++ .word w' :: ts) = some (w :: ws, .word w' :: ts) := by
  induction ws generalizing w with
  | nil => rfl
  | cons v ws ih =>
    have hcons : nameTokens w (v :: ws) = .word w :: .comma :: nameTokens v ws := rfl
    rw [hcons, List.cons_append, List.cons_append, takeNames, ih]
    rfl

/-- The tokens of a query in front of its condition. -/
def headTokens (c : Bytes) (cs : List Bytes) (t : Bytes) (tables : List Bytes) : List Token :=
  [Token.word (ascii "SELECT"), Token.word (ascii "DISTINCT")] ++ (nameTokens c cs ++
    Token.word (ascii "FROM") :: (nameTokens t tables ++ [Token.word (ascii "WHERE")]))

/-- The query of its parts. -/
theorem parseSelect_headTokens (c : Bytes) (cs : List Bytes) (t : Bytes) (tables : List Bytes)
    (ts : List Token) : parseSelect (headTokens c cs t tables ++ ts) =
      (parseExpr ts).map (Select.mk (c :: cs) (t :: tables)) := by
  simp only [headTokens, List.append_assoc, List.cons_append, List.nil_append, parseSelect,
    takeNames_nameTokens, Option.bind_eq_bind, Option.bind_some, ne_eq,
    not_true_eq_false, or_self, if_false]
  cases parseExpr ts <;> rfl

/-- The query of a text. -/
def parse (s : Bytes) : Option Select := (lex s).bind parseSelect

/-- A value of a column. -/
inductive Value
  | str (s : Bytes)
  | int (z : ℤ)
  deriving DecidableEq

/-- A row, by the names of its columns. -/
abbrev Row := List (Bytes × Value)

/-- The rows of the tables, by their names. -/
abbrev Database := Bytes → List Row

/-- One row of each table of a query. -/
abbrev Env := List (Bytes × Row)

/-- The order of strings. -/
structure Collation where
  cmp : Bytes → Bytes → Ordering
  eq_iff : ∀ {a b}, cmp a b = .eq ↔ a = b

/-- The order by bytes. -/
def Collation.binary : Collation where
  cmp := compare
  eq_iff := Std.compare_eq_iff_eq

/-- The value of a column; a name without a table is that of the first table
    that has one. -/
def Env.col (env : Env) (name : Bytes) : Option Value :=
  match afterFirst (ch '.') name with
  | some c => (env.lookup (name.takeWhile (· ≠ ch '.'))).bind (·.lookup c)
  | none => env.findSome? (·.2.lookup name)

/-- The value of an operand. -/
def Operand.value (env : Env) : Operand → Option Value
  | .col name => env.col name
  | .num n => some (.int n)
  | .lit s => some (.str s)

/-- The order of two values of one type. -/
def Value.cmp (coll : Collation) : Value → Value → Option Ordering
  | .str a, .str b => some (coll.cmp a b)
  | .int a, .int b => some (compare a b)
  | _, _ => none

/-- Whether a comparison holds of two values in a given order. -/
def Op.holds : Op → Ordering → Bool
  | .eq, o => o = .eq
  | .ne, o => o ≠ .eq
  | .lt, o => o = .lt
  | .gt, o => o = .gt

/-- The order of the values of two operands. -/
def compareOperands (coll : Collation) (env : Env) (a b : Operand) : Option Ordering := do
  (← a.value env).cmp coll (← b.value env)

/-- Whether a condition holds. -/
def Expr.eval (coll : Collation) (env : Env) : Expr → Bool
  | .cmp op a b => (compareOperands coll env a b).any op.holds
  | .between a lo hi =>
    (compareOperands coll env a lo).any (· ≠ .lt) && (compareOperands coll env a hi).any (· ≠ .gt)
  | .and a b => a.eval coll env && b.eval coll env
  | .or a b => a.eval coll env || b.eval coll env

section Eval

variable {coll : Collation} {env : Env} {es : List Expr} {f : Frame} {a e : Expr}

/-- A condition with more alternatives. -/
theorem eval_foldl_or :
    (es.foldl .or e).eval coll env = (e.eval coll env || es.any (·.eval coll env)) := by
  induction es generalizing e with
  | nil => rw [List.foldl_nil, List.any_nil, Bool.or_false]
  | cons e' es ih => rw [List.foldl_cons, ih, Expr.eval, List.any_cons, Bool.or_assoc]

/-- A frame with more conjuncts. -/
theorem foldl_push (ha : f.ands = some a) : ∃ b, es.foldl Frame.push f = { f with ands := some b } ∧
    ∀ coll env, b.eval coll env = (a.eval coll env && es.all (·.eval coll env)) := by
  induction es generalizing f a with
  | nil => exact ⟨a, by rw [← ha]; rfl, fun coll env => (Bool.and_true _).symm⟩
  | cons e es ih =>
    have hpush : (f.push e).ands = some (.and a e) := by rw [Frame.push, ha]; rfl
    obtain ⟨b, hb, heval⟩ := ih hpush
    refine ⟨b, hb, fun coll env => ?_⟩
    rw [heval, Expr.eval, List.all_cons, Bool.and_assoc]

/-- The condition of some conjuncts. -/
theorem close_foldl_push (hes : es ≠ []) : ∃ e, (es.foldl Frame.push .empty).close = some e ∧
    ∀ coll env, e.eval coll env = es.all (·.eval coll env) := by
  obtain ⟨a, es, rfl⟩ := List.exists_cons_of_ne_nil hes
  have hands : (Frame.empty.push a).ands = some a := rfl
  obtain ⟨b, hb, heval⟩ := @foldl_push es _ a hands
  exact ⟨b, by rw [List.foldl_cons, hb]; rfl, heval⟩

end Eval

/-- The choices of one row of each table. -/
def envs (db : Database) : List Bytes → List Env
  | [] => [[]]
  | t :: ts => (db t).flatMap fun r => (envs db ts).map ((t, r) :: ·)

/-- The rows a query selects. -/
def Select.eval (coll : Collation) (db : Database) (q : Select) : List (List Value) :=
  (((envs db q.tables).filter (q.cond.eval coll)).filterMap fun env => q.cols.mapM env.col).dedup

/-- The environment of a choice of rows. -/
def envOf (tables : List Bytes) (row : Bytes → Row) : Env := tables.map fun t => (t, row t)

section Semantics

variable {coll : Collation} {db : Database} {tables : List Bytes} {row : Bytes → Row} {env : Env}

theorem mem_envs (ht : tables.Nodup) :
    env ∈ envs db tables ↔
      ∃ row : Bytes → Row, (∀ t ∈ tables, row t ∈ db t) ∧ env = envOf tables row := by
  induction tables generalizing env with
  | nil => simp [envs, envOf]
  | cons t tables ih =>
    rw [List.nodup_cons] at ht
    have hne : ∀ t' ∈ tables, t' ≠ t := by
      rintro t' ht' rfl
      exact ht.1 ht'
    simp only [envs, List.mem_flatMap, List.mem_map, ih ht.2]
    constructor
    · rintro ⟨r, hr, env, ⟨row, hrow, rfl⟩, rfl⟩
      refine ⟨Function.update row t r, ?_, ?_⟩
      · rw [List.forall_mem_cons, Function.update_self]
        refine ⟨hr, fun t' ht' => ?_⟩
        rw [Function.update_of_ne (hne t' ht')]
        exact hrow t' ht'
      · rw [envOf, envOf, List.map_cons, Function.update_self]
        refine congrArg ((t, r) :: ·) (List.map_congr_left fun t' ht' => ?_)
        rw [Function.update_of_ne (hne t' ht')]
    · rintro ⟨row, hrow, rfl⟩
      rw [List.forall_mem_cons] at hrow
      exact ⟨row t, hrow.1, envOf tables row, ⟨row, hrow.2, rfl⟩, rfl⟩

/-- What a query selects: the values of its columns for each choice of rows that
    meets its condition. -/
theorem mem_eval {q : Select} (ht : q.tables.Nodup) {vs : List Value} :
    vs ∈ q.eval coll db ↔ ∃ row : Bytes → Row, (∀ t ∈ q.tables, row t ∈ db t) ∧
      q.cond.eval coll (envOf q.tables row) = true ∧
      q.cols.mapM (envOf q.tables row).col = some vs := by
  simp only [Select.eval, List.mem_dedup, List.mem_filterMap, List.mem_filter, mem_envs ht]
  constructor
  · rintro ⟨_, ⟨⟨row, hrow, rfl⟩, hc⟩, hvs⟩
    exact ⟨row, hrow, hc, hvs⟩
  · rintro ⟨row, hrow, hc, hvs⟩
    exact ⟨_, ⟨⟨row, hrow, rfl⟩, hc⟩, hvs⟩

theorem lookup_envOf {t : Bytes} (ht : t ∈ tables) : (envOf tables row).lookup t = some (row t) := by
  induction tables with
  | nil => simp at ht
  | cons t' tables ih =>
    rw [envOf, List.map_cons, List.lookup_cons]
    by_cases h : t = t'
    · simp [h]
    · rw [show (t == t') = false by simpa using h]
      exact ih ((List.mem_cons.1 ht).resolve_left h)

/-- The value of a column of a table. -/
theorem col_envOf {t c : Bytes} (ht : t ∈ tables) (hdot : ch '.' ∉ t) :
    (envOf tables row).col (t ++ ch '.' :: c) = (row t).lookup c := by
  have hall : ∀ b ∈ t, decide (b ≠ ch '.') = true := fun b hb => by
    rw [decide_eq_true_iff]
    rintro rfl
    exact hdot hb
  have hafter : afterFirst (ch '.') (t ++ ch '.' :: c) = some c := by
    rw [afterFirst, List.dropWhile_append_of_pos hall]
    simp
  have htake : (t ++ ch '.' :: c).takeWhile (· ≠ ch '.') = t := by
    rw [List.takeWhile_append_of_pos hall]
    simp
  rw [Env.col, hafter]
  simp only [htake, lookup_envOf ht, Option.bind_some]

end Semantics

/-! ## Updates -/

/-- An update of some columns of a table, in the rows that meet a condition. -/
structure Update where
  table : Bytes
  sets : List (Bytes × Bytes)
  cond : Expr
  deriving DecidableEq

/-- The assignments of a list separated by commas, and what follows it. -/
def takeSets : List Token → Option (List (Bytes × Bytes) × List Token)
  | .word c :: .eq :: .lit v :: .comma :: ts => (takeSets ts).map fun r => ((c, v) :: r.1, r.2)
  | .word c :: .eq :: .lit v :: ts => some ([(c, v)], ts)
  | _ => none

/-- The update of some tokens. -/
def updateOfTokens : List Token → Option Update
  | .word update :: .word table :: .word set :: ts => do
    if update ≠ ascii "UPDATE" ∨ set ≠ ascii "SET" then none
    let (sets, ts) ← takeSets ts
    let .word where_ :: ts := ts | none
    if where_ ≠ ascii "WHERE" then none
    let cond ← parseExpr ts
    return { table, sets, cond }
  | _ => none

/-- The update of a text. -/
def parseUpdate (s : Bytes) : Option Update := (lex s).bind updateOfTokens

/-- The tokens of an update of a column in front of its condition. -/
def updateTokens (t c v : Bytes) : List Token :=
  [Token.word (ascii "UPDATE"), Token.word t, Token.word (ascii "SET"), Token.word c, Token.eq,
    Token.lit v, Token.word (ascii "WHERE")]

/-- The update of its parts. -/
theorem updateOfTokens_updateTokens (t c v : Bytes) (ts : List Token) :
    updateOfTokens (updateTokens t c v ++ ts) = (parseExpr ts).map (Update.mk t [(c, v)]) := by
  simp only [updateTokens, List.cons_append, List.nil_append, updateOfTokens, takeSets,
    Option.bind_eq_bind, Option.bind_some, ne_eq, not_true_eq_false, or_self, if_false]
  cases parseExpr ts <;> rfl

/-- What an update does to some rows, which are of a type with a way to set a
    column: the number of rows that change, and the new rows; `none` when a
    column cannot be set. -/
def Update.apply {α : Type} [DecidableEq α] (coll : Collation) (toRow : α → Row)
    (set : α → Bytes × Bytes → Option α) (u : Update) (rows : List α) : Option (ℕ × List α) := do
  let rows' ← rows.mapM fun r =>
    if u.cond.eval coll [(u.table, toRow r)] then u.sets.foldlM set r else some r
  return ((rows.zip rows').countP fun r => r.1 ≠ r.2, rows')

/-- Each row has one that an update makes of it: itself, or what the columns that are
    set make of it. -/
theorem Update.exists_of_apply {α : Type} [DecidableEq α] {coll : Collation} {toRow : α → Row}
    {set : α → Bytes × Bytes → Option α} {u : Update} {rows rows' : List α} {n : ℕ}
    (h : u.apply coll toRow set rows = some (n, rows')) {r : α} (hr : r ∈ rows) :
    ∃ r' ∈ rows', r' = r ∨ u.sets.foldlM set r = some r' := by
  obtain ⟨rows₁, hrows, heq⟩ := Option.bind_eq_some_iff.1 h
  obtain ⟨-, rfl⟩ := Prod.mk.inj (Option.some.inj heq)
  clear h heq
  induction rows generalizing rows₁ with
  | nil => cases hr
  | cons a rows ih =>
    rw [List.mapM_cons] at hrows
    obtain ⟨b, hb, hrows⟩ := Option.bind_eq_some_iff.1 hrows
    obtain ⟨bs, hbs, hrows⟩ := Option.bind_eq_some_iff.1 hrows
    obtain rfl := Option.some.inj hrows
    rcases List.mem_cons.1 hr with rfl | hr
    · refine ⟨b, List.mem_cons_self, ?_⟩
      split_ifs at hb
      · exact .inr hb
      · exact .inl (Option.some.inj hb).symm
    · obtain ⟨r', hr', h⟩ := ih hr bs hbs
      exact ⟨r', List.mem_cons_of_mem _ hr', h⟩

/-- A row an update leaves was there, or is what the columns that are set make of one
    that was. -/
theorem Update.mem_of_apply {α : Type} [DecidableEq α] {coll : Collation} {toRow : α → Row}
    {set : α → Bytes × Bytes → Option α} {u : Update} {rows rows' : List α} {n : ℕ}
    (h : u.apply coll toRow set rows = some (n, rows')) {r' : α} (hr' : r' ∈ rows') :
    ∃ r ∈ rows, r' = r ∨ u.sets.foldlM set r = some r' := by
  obtain ⟨rows₁, hrows, heq⟩ := Option.bind_eq_some_iff.1 h
  obtain ⟨-, rfl⟩ := Prod.mk.inj (Option.some.inj heq)
  clear h heq
  induction rows generalizing rows₁ with
  | nil =>
    obtain rfl := Option.some.inj hrows
    cases hr'
  | cons a rows ih =>
    rw [List.mapM_cons] at hrows
    obtain ⟨b, hb, hrows⟩ := Option.bind_eq_some_iff.1 hrows
    obtain ⟨bs, hbs, hrows⟩ := Option.bind_eq_some_iff.1 hrows
    obtain rfl := Option.some.inj hrows
    rcases List.mem_cons.1 hr' with rfl | hr'
    · refine ⟨a, List.mem_cons_self, ?_⟩
      split_ifs at hb
      · exact .inr hb
      · exact .inl (Option.some.inj hb).symm
    · obtain ⟨r, hr, h⟩ := ih bs hbs hr'
      exact ⟨r, List.mem_cons_of_mem _ hr, h⟩

end Sql

end JobProvenance
