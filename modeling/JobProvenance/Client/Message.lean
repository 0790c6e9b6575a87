import JobProvenance.Lib.CString
import JobProvenance.Lib.Exec

/-!
# Messages of the importer

A message has lines of a key and a value, with blanks between them. `parseMsg` takes it
apart where it lies in memory: it ends keys and lines with zero bytes, and the values it
finds stand in the message. A key without a blank behind it is looked for its end beyond
the line, and beyond the message.
-/

namespace JobProvenance

/-- The keys of the values to be found, and where these begin. -/
abbrev MsgPattern := List (Bytes × Option ℕ)

/-- A space or a tab. -/
def isBlank (c : UInt8) : Bool := c = ch ' ' || c = 9

/-- The byte at a place of memory. -/
def charAt (buf : Bytes) (i : ℕ) : Exec UInt8 :=
  match buf[i]? with
  | some c => .ok c
  | none => .error .fault

/-- The first place from which on something no longer holds. -/
def skipWhile (p : UInt8 → Bool) (buf : Bytes) (i : ℕ) : Exec ℕ :=
  match (buf.drop i).findIdx? fun c => !p c with
  | some k => .ok (i + k)
  | none => .error .fault

/-- Where the line at a place ends, if another line follows. -/
def lineEnd (buf : Bytes) (i : ℕ) : Option ℕ :=
  ((cstr (buf.drop i)).idxOf? (ch '\n')).map (i + ·)

/-- The value of a key begins at a place. -/
def setTabVal (key : Bytes) (val : ℕ) : MsgPattern → MsgPattern
  | [] => []
  | (k, v) :: tab => if k = key then (k, some val) :: tab else (k, v) :: setTabVal key val tab

/-- Takes a line apart that begins at a place: the message and the values then, unless
    there is no value. -/
def parseLine (buf : Bytes) (tab : MsgPattern) (line : ℕ) : Exec (Option (Bytes × MsgPattern)) := do
  let key ← skipWhile isBlank buf line
  if (← charAt buf key) = 0 then return some (buf, tab)
  else
    let val ← skipWhile (!isBlank ·) buf key
    if (← charAt buf val) = 0 then return none
    else
      let buf := buf.set val 0
      let val ← skipWhile isBlank buf (val + 1)
      if (← charAt buf val) = 0 then return none
      else return some (buf, setTabVal (cstr (buf.drop key)) val tab)

theorem length_parseLine {buf buf' : Bytes} {tab tab' : MsgPattern} {line : ℕ}
    (h : parseLine buf tab line = .ok (some (buf', tab'))) : buf'.length = buf.length := by
  obtain ⟨key, -, h⟩ := Exec.bind_eq_ok.1 h
  obtain ⟨c, -, h⟩ := Exec.bind_eq_ok.1 h
  split_ifs at h
  · cases h
    rfl
  · obtain ⟨val, -, h⟩ := Exec.bind_eq_ok.1 h
    obtain ⟨c, -, h⟩ := Exec.bind_eq_ok.1 h
    split_ifs at h
    · cases h
    · obtain ⟨val', -, h⟩ := Exec.bind_eq_ok.1 h
      obtain ⟨c, -, h⟩ := Exec.bind_eq_ok.1 h
      split_ifs at h
      · cases h
      · cases h
        rw [List.length_set]

theorem lineEnd_lt {buf : Bytes} {i k : ℕ} (h : lineEnd buf i = some k) : i ≤ k ∧ k < buf.length := by
  obtain ⟨j, hj, rfl⟩ := Option.map_eq_some_iff.1 h
  obtain ⟨hlt, -⟩ := List.idxOf?_eq_some_iff.1 hj
  have hle : (cstr (buf.drop i)).length ≤ (buf.drop i).length :=
    (List.takeWhile_prefix _).length_le
  rw [List.length_drop] at hle
  omega

/-- Takes the lines of a message apart, from a place on: the message and the values then,
    unless a line has no value. -/
def parseMsgFrom (buf : Bytes) (tab : MsgPattern) (line : ℕ) : Exec (Option (Bytes × MsgPattern)) := do
  if (← charAt buf line) = 0 then return some (buf, tab)
  else
    match _hend : lineEnd buf line with
    | none => parseLine buf tab line
    | some k =>
      match hline : parseLine (buf.set k 0) tab line with
      | .error e => throw e
      | .ok none => return none
      | .ok (some (buf', tab')) => parseMsgFrom buf' tab' (k + 1)
termination_by buf.length - line
decreasing_by
  rw [length_parseLine hline, List.length_set]
  have := lineEnd_lt _hend
  omega

/-- Takes a message apart. -/
def parseMsg (msg : Bytes) (tab : MsgPattern) : Exec (Option (Bytes × MsgPattern)) :=
  parseMsgFrom (msg ++ [0]) tab 0

/-- The value of a key, as it stands in the message then. -/
def msgValue (buf : Bytes) (tab : MsgPattern) (key : Bytes) : Option Bytes :=
  (tab.find? (·.1 = key)).bind fun entry => entry.2.map fun val => cstr (buf.drop val)

end JobProvenance
