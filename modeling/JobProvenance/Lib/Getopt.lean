import JobProvenance.Lib.CString

/-!
# Command lines

What `getopt_long` returns for the words of a command line, one after the other:
the options, each with its argument when it takes one, and `none` where it finds
no option it knows, an ambiguous one, or one with an argument missing or too
many. An option is a letter in a word after `-`, several of them standing in one
word, or a name after `--`, which may be shortened as long as it is not ambiguous;
its argument is the rest of the word, or the next word. Words that are no options
are skipped, or end the options (`posixlyCorrect`). Arguments that may be left out
are not modelled.

`render` writes options out as words, and they are read back (`options_render`).
-/

namespace JobProvenance

/-- A long option: its name, whether it takes an argument, and its letter. -/
structure LongOption where
  name : Bytes
  hasArg : Bool
  val : UInt8

/-- An option of a command line. -/
structure Opt where
  val : UInt8
  optarg : Option Bytes
  deriving DecidableEq

/-- What the options are: the letters, each with a colon behind it when it takes an
    argument, and the long options. -/
structure Getopt where
  optstring : Bytes
  longopts : List LongOption
  posixlyCorrect : Bool

namespace Getopt

variable (g : Getopt)

/-- Whether the option of a letter takes an argument; `none` when there is no such
    option. -/
def hasArg (c : UInt8) : Option Bool :=
  if c = ch ':' ∨ c = ch ';' then none
  else
    match g.optstring.dropWhile (· ≠ c) with
    | [] => none
    | _ :: rest => some (rest.head? = some (ch ':'))

/-- The options of letters in one word, and the one that takes the next word. -/
def shorts : Bytes → List (Option Opt) × Option UInt8
  | [] => ([], none)
  | c :: cs =>
    match g.hasArg c with
    | none => (none :: (shorts cs).1, (shorts cs).2)
    | some false => (some ⟨c, none⟩ :: (shorts cs).1, (shorts cs).2)
    | some true => if cs = [] then ([], some c) else ([some ⟨c, some cs⟩], none)

/-- The long option of a name, or of the start of one: of one option only, or of
    some that do not differ otherwise. -/
def findLong (name : Bytes) : Option LongOption :=
  match g.longopts.find? fun o => o.name = name with
  | some o => some o
  | none =>
    match g.longopts.filter fun o => name.isPrefixOf o.name with
    | [] => none
    | o :: os => if os.all fun o' => o'.hasArg = o.hasArg ∧ o'.val = o.val then some o else none

/-- The long option in a word, or the one that takes the next word. -/
def long (word : Bytes) : List (Option Opt) × Option UInt8 :=
  match g.findLong (word.takeWhile (· ≠ ch '=')) with
  | none => ([none], none)
  | some o =>
    match word.dropWhile (· ≠ ch '=') with
    | [] => if o.hasArg then ([], some o.val) else ([some ⟨o.val, none⟩], none)
    | _ :: arg => if o.hasArg then ([some ⟨o.val, some arg⟩], none) else ([none], none)

/-- The options in a word; `none` when it is no option. -/
def word : Bytes → Option (List (Option Opt) × Option UInt8)
  | d :: c :: cs =>
    if d = ch '-' then some (if c = ch '-' then g.long cs else g.shorts (c :: cs)) else none
  | _ => none

/-- The options of a command line, the first word being the argument of an option
    in front of it, if there is one that takes it. -/
def options : Option UInt8 → List Bytes → List (Option Opt)
  | some _, [] => [none]
  | some c, w :: ws => some ⟨c, some w⟩ :: options none ws
  | none, [] => []
  | none, w :: ws =>
    if w = ascii "--" then []
    else
      match g.word w with
      | some (os, takes) => os ++ options takes ws
      | none => if g.posixlyCorrect then [] else options none ws

/-- What `getopt_long` returns, call by call: the first word is the program. -/
def getoptLong (argv : List Bytes) : List (Option Opt) := g.options none argv.tail

/-! ## Options written out -/

/-- An option as words. -/
def render (o : Opt) : List Bytes := [ch '-', o.val] :: o.optarg.toList

/-- The options there are: with an argument when they take one. -/
def Takes (o : Opt) : Prop := o.val ≠ ch '-' ∧ g.hasArg o.val = some o.optarg.isSome

variable {g}

theorem options_render_cons {o : Opt} (h : g.Takes o) (ws : List Bytes) :
    g.options none (render o ++ ws) = some o :: g.options none ws := by
  obtain ⟨c, optarg⟩ := o
  obtain ⟨hc, harg⟩ := h
  have hne : [ch '-', c] ≠ ascii "--" := fun h => hc (List.cons.inj (List.cons.inj h).2).1
  have hword : g.word [ch '-', c] = some (g.shorts [c]) := by
    rw [word, if_pos rfl, if_neg hc]
  cases optarg with
  | none =>
    change g.options none ([ch '-', c] :: ws) = _
    have hshorts : g.shorts [c] = ([some ⟨c, none⟩], none) := by rw [shorts, harg]; rfl
    rw [options, if_neg hne, hword, hshorts]
    rfl
  | some arg =>
    change g.options none ([ch '-', c] :: arg :: ws) = _
    have hshorts : g.shorts [c] = ([], some c) := by rw [shorts, harg]; rfl
    rw [options, if_neg hne, hword, hshorts]
    rfl

/-- Options that are written out are read back. -/
theorem options_render {os : List Opt} (h : ∀ o ∈ os, g.Takes o) (ws : List Bytes) :
    g.options none (os.flatMap render ++ ws) = os.map some ++ g.options none ws := by
  induction os with
  | nil => rfl
  | cons o os ih =>
    rw [List.forall_mem_cons] at h
    rw [List.flatMap_cons, List.append_assoc, options_render_cons h.1, ih h.2]
    rfl

end Getopt

end JobProvenance
