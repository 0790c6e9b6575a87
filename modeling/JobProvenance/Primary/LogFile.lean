import JobProvenance.Lib.CString
import JobProvenance.Lib.Exec
import JobProvenance.Lib.NamedFile
import JobProvenance.Lib.System

/-!
# Messages by way of a log file

A server that is given the socket of an interlogger does not call the index servers. What
it would send to one is appended to a file, a message and a newline, and the interlogger
is to send it from there and to remove the file. Any number of slaves do this at a time:
`myopen` opens the file, locks it, and looks whether there is still a file of this name,
`mysend` writes, and `myclose` ends the message and with it the lock.

* `logStep`: one step of one slave, which may end at any time, or of whoever removes the
  file;
* `wholeMessages_of_reachable`: every file there ever was holds message after message, the
  last maybe not yet complete: its writer has the lock, and nobody else writes.
-/

namespace JobProvenance

/-! ## Errors -/

def EINTR : ℤ := 4

def EAGAIN : ℤ := 11

def EACCES : ℤ := 13

def ETIMEDOUT : ℤ := 110

/-! ## Steps -/

/-- Where a slave is with the file: in `myopen` before it is opened, before the `i`-th try
    to lock it, or locked; sending; or `myopen` has failed and has returned the number of
    the error as if it were that of a file. -/
inductive LogPhase
  | idle
  | opening
  | locking (file i : ℕ)
  | locked (file : ℕ)
  | sending (file : ℕ)
  | failed (errno : ℤ)
  deriving DecidableEq

/-- The files of the name, and where the slaves are. -/
structure LogState where
  file : NamedFile UInt8
  phase : ℕ → LogPhase

/-- A step, of a slave or of whoever removes the file. A call of the system may fail with
    an error of its own, and a write may be cut. -/
inductive LogAction
  | myopen (slave : ℕ)
  | fopen (slave : ℕ) (err : Option ℤ)
  | setlk (slave : ℕ) (err : Option ℤ)
  | stat (slave : ℕ) (err : Option ℤ)
  | mysend (slave : ℕ) (s : Bytes) (written : ℕ)
  | myclose (slave : ℕ) (written : Bool)
  | exit (slave : ℕ)
  | remove
  deriving DecidableEq

/-- The file a slave has open. -/
def LogPhase.file : LogPhase → Option ℕ
  | .locking file _ | .locked file | .sending file => some file
  | _ => none

/-- The file a slave has locked. -/
def LogPhase.held : LogPhase → Option ℕ
  | .locked file | .sending file => some file
  | _ => none

/-- How often `myopen` tries to lock a file. -/
def LOCK_TRIES : ℕ := 5

/-- Where `myopen` is when the `i`-th try to lock the file has failed. -/
def lockFailed (file i : ℕ) (errno : ℤ) : LogPhase :=
  if errno = EAGAIN ∨ errno = EACCES ∨ errno = EINTR then
    if i + 1 < LOCK_TRIES then .locking file (i + 1) else .failed ETIMEDOUT
  else .failed errno

/-- Where `myopen` is when it has looked for the file it has locked. -/
def statDone (file : ℕ) : Option ℤ → LogPhase
  | none => .sending file
  | some errno => if errno = Errno.ENOENT.code then .opening else .failed errno

/-- The state when a slave has moved on. -/
def LogState.put (s : LogState) (slave : ℕ) (phase : LogPhase) (file : NamedFile UInt8) :
    LogState where
  file := file
  phase := Function.update s.phase slave phase

/-- What looking for a file of the name ends with; which file it is is not looked at. -/
def LogState.stat (s : LogState) (err : Option ℤ) : Option ℤ :=
  if s.file.current = none then some Errno.ENOENT.code else err

/-- The step of an action, if it can be taken. -/
def logStep (s : LogState) : LogAction → Option LogState
  | .myopen slave =>
    match s.phase slave with
    | .idle => some (s.put slave .opening s.file)
    | _ => none
  | .fopen slave err =>
    match s.phase slave with
    | .opening =>
      match err with
      | none => some (s.put slave (.locking s.file.openAppend.1 0) s.file.openAppend.2)
      | some errno => some (s.put slave (.failed errno) s.file)
    | _ => none
  | .setlk slave err =>
    match s.phase slave with
    | .locking file i =>
      match err, s.file.setlk slave file with
      | none, some files => some (s.put slave (.locked file) files)
      | none, none => some (s.put slave (lockFailed file i EAGAIN) s.file)
      | some errno, _ => some (s.put slave (lockFailed file i errno) s.file)
    | _ => none
  | .stat slave err =>
    match s.phase slave with
    | .locked file =>
      match statDone file (s.stat err) with
      | .sending file => some (s.put slave (.sending file) s.file)
      -- the file is closed, which gives the lock back
      | phase => some (s.put slave phase (s.file.setLock file none))
    | _ => none
  | .mysend slave buf written =>
    match s.phase slave with
    | .sending file => some { s with file := s.file.append file (buf.take written) }
    -- nothing was opened: what is written goes to no file of the name
    | .failed _ => some s
    | _ => none
  | .myclose slave written =>
    match s.phase slave with
    | .sending file =>
      let files := s.file.append file (if written then [ch '\n'] else [])
      some (s.put slave .idle (files.setLock file none))
    | .failed _ => some (s.put slave .idle s.file)
    | _ => none
  | .exit slave =>
    match (s.phase slave).held with
    | some file => some (s.put slave .idle (s.file.setLock file none))
    | none => some (s.put slave .idle s.file)
  | .remove => some { s with file := s.file.remove }

/-- Slaves that have yet to open the file, which is not there. -/
def logSystem : System LogState LogAction where
  init s := s.file = .empty ∧ ∀ slave, s.phase slave = .idle
  step s a t := logStep s a = some t

/-! ## Messages -/

/-- A message: the file it is in, whether this was the file of the name when the slave
    looked, what `mysend` was given with how much of it was written, and whether the
    newline was. -/
structure LogMessage where
  file : ℕ
  found : Bool
  pieces : List (Bytes × ℕ)
  newline : Bool

/-- What was written of a message. -/
def LogMessage.written (m : LogMessage) : Bytes :=
  m.pieces.flatMap (fun piece => piece.1.take piece.2) ++ if m.newline then [ch '\n'] else []

/-- No message. -/
def LogMessage.none : LogMessage := ⟨0, false, [], false⟩

/-- What has been done so far: what was in the files when they were removed, the messages
    that the slaves are sending, and those that are ended, in order. -/
structure LogPast where
  taken : Bytes
  begun : ℕ → LogMessage
  ended : List LogMessage

/-- The message a slave is sending is another. -/
def LogPast.begin (past : LogPast) (slave : ℕ) (m : LogMessage) : LogPast :=
  { past with begun := Function.update past.begun slave m }

/-- The message of a slave is ended. -/
def LogPast.finish (past : LogPast) (slave : ℕ) (newline : Bool) : LogPast :=
  { past.begin slave .none with
    ended := past.ended ++ [{ past.begun slave with newline }] }

/-- What a step adds to the past. -/
def LogPast.record (s : LogState) (a : LogAction) (t : LogState) (past : LogPast) : LogPast :=
  match a with
  | .stat slave _ =>
    match t.phase slave with
    | .sending file => past.begin slave ⟨file, s.file.current = some file, [], false⟩
    | _ => past
  | .mysend slave buf written =>
    match s.phase slave with
    | .sending _ =>
      let m := past.begun slave
      past.begin slave { m with pieces := m.pieces ++ [(buf, written)] }
    | _ => past
  | .myclose slave written =>
    match s.phase slave with
    | .sending _ => past.finish slave written
    | _ => past
  | .exit slave =>
    match s.phase slave with
    | .sending _ => past.finish slave false
    | _ => past
  | .remove => { past with taken := past.taken ++ s.file.named }
  | _ => past

/-- The slaves and what they have done. -/
def logHistory : System (LogState × LogPast) LogAction :=
  logSystem.recorded ⟨[], fun _ => .none, []⟩ LogPast.record

/-- What was written of the message of the slave that has a lock. -/
def LogPast.writing (past : LogPast) (lock : Option ℕ) : Bytes :=
  lock.elim [] fun slave => (past.begun slave).written

section Put

variable (s : LogState) (past : LogPast) {slave other : ℕ} {phase : LogPhase}
  {file : NamedFile UInt8} {m : LogMessage}

@[simp] theorem put_file : (s.put slave phase file).file = file := rfl

@[simp] theorem put_phase_self : (s.put slave phase file).phase slave = phase :=
  Function.update_self ..

@[simp] theorem put_phase_of_ne (h : other ≠ slave) :
    (s.put slave phase file).phase other = s.phase other :=
  Function.update_of_ne h ..

@[simp] theorem begin_taken : (past.begin slave m).taken = past.taken := rfl

@[simp] theorem begin_ended : (past.begin slave m).ended = past.ended := rfl

@[simp] theorem begin_begun_self : (past.begin slave m).begun slave = m := Function.update_self ..

@[simp] theorem begin_begun_of_ne (h : other ≠ slave) :
    (past.begin slave m).begun other = past.begun other :=
  Function.update_of_ne h ..

end Put

/-! ## What a step does -/

/-- What a step does to the files, the slaves and the past. -/
inductive LogEffect (s : LogState) (past : LogPast) (a : LogAction) : LogState → LogPast → Prop
  | moves {slave : ℕ} {phase : LogPhase} : (s.phase slave).held = none → phase.held = none →
      (∀ file ∈ phase.file, (s.phase slave).file = some file) →
      LogEffect s past a (s.put slave phase s.file) past
  | opens {slave : ℕ} : s.phase slave = .opening →
      LogEffect s past a (s.put slave (.locking s.file.openAppend.1 0) s.file.openAppend.2) past
  | locks {slave file i : ℕ} {files : NamedFile UInt8} : s.phase slave = .locking file i →
      s.file.setlk slave file = some files →
      LogEffect s past a (s.put slave (.locked file) files) past
  | begins {slave file : ℕ} : s.phase slave = .locked file →
      LogEffect s past a (s.put slave (.sending file) s.file)
        (past.begin slave ⟨file, s.file.current = some file, [], false⟩)
  | leaves {slave file : ℕ} {phase : LogPhase} : s.phase slave = .locked file →
      phase.file = none → LogEffect s past a (s.put slave phase (s.file.setLock file none)) past
  | sends {slave file : ℕ} {buf : Bytes} {written : ℕ} : s.phase slave = .sending file →
      LogEffect s past a { s with file := s.file.append file (buf.take written) }
        (past.begin slave { past.begun slave with
          pieces := (past.begun slave).pieces ++ [(buf, written)] })
  | ends {slave file : ℕ} {newline : Bool} : s.phase slave = .sending file →
      LogEffect s past a (s.put slave .idle
        ((s.file.append file (if newline then [ch '\n'] else [])).setLock file none))
        (past.finish slave newline)
  | removes : a = .remove → LogEffect s past a { s with file := s.file.remove }
      { past with taken := past.taken ++ s.file.named }
  | stays : LogEffect s past a s past

theorem held_of_file_eq_none {phase : LogPhase} (h : phase.file = none) : phase.held = none := by
  cases phase <;> first | rfl | cases h

theorem lockFailed_held (file i : ℕ) (errno : ℤ) : (lockFailed file i errno).held = none := by
  unfold lockFailed
  split_ifs <;> rfl

theorem lockFailed_file {file i : ℕ} {errno : ℤ} :
    ∀ f ∈ (lockFailed file i errno).file, f = file := by
  unfold lockFailed
  split_ifs <;> simp [LogPhase.file]

section Effects

variable {s t : LogState} {past : LogPast} {slave : ℕ} {err : Option ℤ}

theorem effect_of_myopen (h : logStep s (.myopen slave) = some t) :
    LogEffect s past (.myopen slave) t (past.record s (.myopen slave) t) := by
  simp only [logStep] at h
  split at h
  · rename_i hphase
    obtain rfl := Option.some.inj h
    exact .moves (by rw [hphase]; rfl) rfl (by simp [LogPhase.file])
  · cases h

theorem effect_of_fopen (h : logStep s (.fopen slave err) = some t) :
    LogEffect s past (.fopen slave err) t (past.record s (.fopen slave err) t) := by
  simp only [logStep] at h
  split at h
  · rename_i hphase
    split at h <;> obtain rfl := Option.some.inj h
    · exact .opens hphase
    · exact .moves (by rw [hphase]; rfl) rfl (by simp [LogPhase.file])
  · cases h

/-- A lock that is not given leaves the file as it is. -/
theorem effect_of_setlk (h : logStep s (.setlk slave err) = some t) :
    LogEffect s past (.setlk slave err) t (past.record s (.setlk slave err) t) := by
  simp only [logStep] at h
  split at h
  · rename_i file i hphase
    have hfails : ∀ errno, LogEffect s past (.setlk slave err)
        (s.put slave (lockFailed file i errno) s.file) past :=
      fun errno => .moves (by rw [hphase]; rfl) (lockFailed_held file i errno) fun f hf => by
        rw [hphase, lockFailed_file f hf]
        rfl
    split at h <;> obtain rfl := Option.some.inj h
    · rename_i hlock
      exact .locks hphase hlock
    · exact hfails _
    · exact hfails _
  · cases h

theorem statDone_file (file : ℕ) (errno : ℤ) : (statDone file (some errno)).file = none := by
  simp only [statDone]
  split_ifs <;> rfl

/-- A slave that has looked at the locked file begins its message, or leaves the file. -/
theorem effect_of_stat (h : logStep s (.stat slave err) = some t) :
    LogEffect s past (.stat slave err) t (past.record s (.stat slave err) t) := by
  simp only [logStep] at h
  split at h
  · rename_i file hphase
    cases hstat : s.stat err with
    | none =>
      simp only [hstat, statDone] at h
      obtain rfl := Option.some.inj h
      simp only [LogPast.record, put_phase_self]
      exact .begins hphase
    | some errno =>
      have hfile := statDone_file file errno
      simp only [hstat] at h
      split at h
      · rename_i hdone
        rw [hdone] at hfile
        cases hfile
      · obtain rfl := Option.some.inj h
        have hrec : past.record s (.stat slave err)
            (s.put slave (statDone file (some errno)) (s.file.setLock file none)) = past := by
          simp only [LogPast.record, put_phase_self]
        rw [hrec]
        exact .leaves hphase hfile
  · cases h

theorem effect_of_mysend {buf : Bytes} {written : ℕ}
    (h : logStep s (.mysend slave buf written) = some t) :
    LogEffect s past (.mysend slave buf written) t
      (past.record s (.mysend slave buf written) t) := by
  simp only [logStep] at h
  split at h
  · rename_i file hphase
    obtain rfl := Option.some.inj h
    simp only [LogPast.record, hphase]
    exact .sends hphase
  · rename_i errno hphase
    obtain rfl := Option.some.inj h
    simp only [LogPast.record, hphase]
    exact .stays
  · cases h

theorem effect_of_myclose {newline : Bool} (h : logStep s (.myclose slave newline) = some t) :
    LogEffect s past (.myclose slave newline) t (past.record s (.myclose slave newline) t) := by
  simp only [logStep] at h
  split at h
  · rename_i file hphase
    obtain rfl := Option.some.inj h
    simp only [LogPast.record, hphase]
    exact .ends hphase
  · rename_i errno hphase
    obtain rfl := Option.some.inj h
    simp only [LogPast.record, hphase]
    exact .moves (by rw [hphase]; rfl) rfl (by simp [LogPhase.file])
  · cases h

/-- A slave that ends leaves its file unlocked, and the message without its end. -/
theorem effect_of_exit (h : logStep s (.exit slave) = some t) :
    LogEffect s past (.exit slave) t (past.record s (.exit slave) t) := by
  simp only [logStep] at h
  cases hphase : s.phase slave
  all_goals
    simp only [hphase, LogPhase.held] at h
    obtain rfl := Option.some.inj h
    simp only [LogPast.record, hphase]
  case locked file => exact .leaves hphase rfl
  case sending file =>
    have hends : LogEffect s past (.exit slave) (s.put slave .idle
      ((s.file.append file (if false then [ch '\n'] else [])).setLock file none))
      (past.finish slave false) := .ends hphase
    rwa [if_neg Bool.false_ne_true, NamedFile.append_nil] at hends
  all_goals exact .moves (by rw [hphase]; rfl) rfl (by simp [LogPhase.file])

end Effects

theorem logStep_effect {s t : LogState} {a : LogAction} (past : LogPast)
    (h : logStep s a = some t) : LogEffect s past a t (past.record s a t) := by
  cases a with
  | myopen slave => exact effect_of_myopen h
  | fopen slave err => exact effect_of_fopen h
  | setlk slave err => exact effect_of_setlk h
  | stat slave err => exact effect_of_stat h
  | mysend slave buf written => exact effect_of_mysend h
  | myclose slave newline => exact effect_of_myclose h
  | exit slave => exact effect_of_exit h
  | remove =>
    obtain rfl := Option.some.inj h
    exact .removes rfl

/-! ## Whole messages -/

/-- What a slave has begun to send: nothing, unless it is sending. -/
def LogPhase.Begun : LogPhase → LogMessage → Prop
  | .sending file, m => m.file = file ∧ m.newline = false
  | _, m => m = .none

/-- Files are made before they are opened, and those that are locked are those the slaves
    have locked. -/
structure LocksSound (s : LogState) : Prop where
  opened : ∀ slave, ∀ file ∈ (s.phase slave).file, file < s.file.next
  current : ∀ file ∈ s.file.current, file < s.file.next
  locks : ∀ file slave, s.file.lock file = some slave ↔ (s.phase slave).held = some file

/-- Every file holds the messages that were ended in it, and then what was written of the
    one of the slave that has it locked. -/
structure WholeMessages (s : LogState) (past : LogPast) : Prop extends LocksSound s where
  begun : ∀ slave, (s.phase slave).Begun (past.begun slave)
  ended : ∀ m ∈ past.ended, m.file < s.file.next
  contents : ∀ file, s.file.contents file =
    (past.ended.filter (·.file = file)).flatMap LogMessage.written ++
      past.writing (s.file.lock file)

variable {s t : LogState} {past past' : LogPast} {slave file : ℕ} {phase : LogPhase}
  {m : LogMessage} {files : NamedFile UInt8}

theorem held_sub_file (phase : LogPhase) : ∀ file ∈ phase.held, phase.file = some file := by
  cases phase <;> simp [LogPhase.held, LogPhase.file]

theorem begun_eq_none (h : phase.Begun m) (hphase : ∀ file, phase ≠ .sending file) :
    m = .none := by
  cases phase with
  | sending file => exact absurd rfl (hphase file)
  | _ => exact h

theorem begun_of_held (h : phase.held = none) : phase.Begun .none := by
  cases phase <;> first | rfl | cases h

@[simp] theorem writing_none : past.writing none = [] := rfl

@[simp] theorem writing_some : past.writing (some slave) = (past.begun slave).written := rfl

@[simp] theorem written_none : LogMessage.none.written = [] := rfl

theorem begin_writing_of_ne {lock : Option ℕ} (h : lock ≠ some slave) :
    (past.begin slave m).writing lock = past.writing lock := by
  cases lock with
  | none => rfl
  | some other =>
    have hne : other ≠ slave := fun he => h (congrArg some he)
    simp [LogPast.begin, Function.update_of_ne hne]

/-- A slave that has written nothing, and has a file locked that is free otherwise. -/
theorem writing_silent {lock : Option ℕ} (hlock : lock = none ∨ lock = some slave)
    (hw : (past.begun slave).written = []) : past.writing lock = [] := by
  rcases hlock with rfl | rfl
  · rfl
  · exact hw

theorem written_append_piece (h : m.newline = false) (piece : Bytes × ℕ) :
    LogMessage.written { m with pieces := m.pieces ++ [piece] } =
      m.written ++ piece.1.take piece.2 := by
  simp [LogMessage.written, h]

theorem written_newline (h : m.newline = false) (newline : Bool) :
    LogMessage.written { m with newline } =
      m.written ++ if newline then [ch '\n'] else [] := by
  simp [LogMessage.written, h]

/-- A slave has one file locked at most. -/
theorem LocksSound.lock_ne (h : LocksSound s) {other : ℕ}
    (hheld : (s.phase slave).held = some file) (hne : other ≠ file) :
    s.file.lock other ≠ some slave := fun hlock => by
  rw [h.locks, hheld, Option.some_inj] at hlock
  exact hne hlock.symm

/-- A slave moves on, and changes no lock but its own. -/
theorem LocksSound.put (h : LocksSound s) (hnext : s.file.next ≤ files.next)
    (hcur : ∀ file ∈ files.current, file < files.next)
    (hfile : ∀ file ∈ phase.file, file < files.next)
    (hothers : ∀ file other, other ≠ slave →
      (files.lock file = some other ↔ s.file.lock file = some other))
    (hown : ∀ file, files.lock file = some slave ↔ phase.held = some file) :
    LocksSound (s.put slave phase files) where
  opened q file hf := by
    rcases eq_or_ne q slave with rfl | hne
    · rw [put_phase_self] at hf
      exact hfile file hf
    · rw [put_phase_of_ne _ hne] at hf
      exact (h.opened q file hf).trans_le hnext
  current := hcur
  locks file q := by
    rcases eq_or_ne q slave with rfl | hne
    · rw [put_phase_self, put_file, hown]
    · rw [put_phase_of_ne _ hne, put_file, hothers file q hne, h.locks]

/-- The locks of the others, when a slave changes that of a file it has, or that is free. -/
theorem lock_others
    (hlock : s.file.lock file = none ∨ s.file.lock file = some slave) {lock : Option ℕ}
    (hmine : lock = none ∨ lock = some slave) (f other : ℕ) (hne : other ≠ slave) :
    (s.file.setLock file lock).lock f = some other ↔ s.file.lock f = some other := by
  rcases eq_or_ne f file with rfl | hf
  · rw [NamedFile.setLock_lock_self]
    refine iff_of_false ?_ ?_
    · rcases hmine with rfl | rfl
      · nofun
      · exact fun he => hne (Option.some.inj he).symm
    · rcases hlock with hl | hl <;> rw [hl]
      · nofun
      · exact fun he => hne (Option.some.inj he).symm
  · rw [NamedFile.setLock_lock_of_ne hf]

/-- What the slaves have begun, when one of them moves on. -/
theorem begun_put (h : ∀ slave, (s.phase slave).Begun (past.begun slave)) (hm : phase.Begun m)
    (q : ℕ) : ((s.put slave phase files).phase q).Begun ((past.begin slave m).begun q) := by
  rcases eq_or_ne q slave with rfl | hne
  · rwa [put_phase_self, begin_begun_self]
  · rw [put_phase_of_ne _ hne, begin_begun_of_ne _ hne]
    exact h q

theorem begin_begun (past : LogPast) (slave : ℕ) : past.begin slave (past.begun slave) = past := by
  rw [LogPast.begin, Function.update_eq_self]

/-- A slave that has no file locked moves on. -/
theorem WholeMessages.moves (h : WholeMessages s past) (hheld : (s.phase slave).held = none)
    (hheld' : phase.held = none) (hfile : ∀ file ∈ phase.file, file < s.file.next) :
    WholeMessages (s.put slave phase s.file) past where
  toLocksSound := h.put le_rfl h.current hfile (fun _ _ _ => Iff.rfl) fun file => by
    rw [h.locks, hheld, hheld']
  begun q := by
    have hnone : past.begun slave = .none := begun_eq_none (h.begun slave) fun file hs => by
      rw [hs] at hheld
      cases hheld
    have hbegun : phase.Begun (past.begun slave) := hnone ▸ begun_of_held hheld'
    have hq := @begun_put _ _ slave _ _ s.file h.begun hbegun q
    rwa [begin_begun] at hq
  ended := h.ended
  contents := h.contents

/-- The file of the name is made. -/
theorem WholeMessages.create (h : WholeMessages s past) :
    WholeMessages { s with file := s.file.openAppend.2 } past ∧
      s.file.openAppend.1 < s.file.openAppend.2.next := by
  rcases s.file.openAppend_cases with ⟨hcur, hfile⟩ | ⟨-, hnext, hfile⟩
  · rw [hfile]
    exact ⟨h, h.current _ hcur⟩
  · rw [hfile, hnext]
    have hfree : ∀ q, (s.phase q).held ≠ some s.file.next := fun q hq =>
      absurd (h.opened q _ (held_sub_file _ _ hq)) (lt_irrefl _)
    refine ⟨⟨⟨fun q file hf => Nat.lt_succ_of_lt (h.opened q file hf), ?_, fun file q => ?_⟩,
      h.begun, fun m hm => Nat.lt_succ_of_lt (h.ended m hm), fun file => ?_⟩, Nat.lt_succ_self _⟩
    · rintro file ⟨⟩
      exact Nat.lt_succ_self _
    · rcases eq_or_ne file s.file.next with rfl | hne
      · simp only [Function.update_self]
        exact iff_of_false nofun (hfree q)
      · simp only [Function.update_of_ne hne, h.locks]
    · rcases eq_or_ne file s.file.next with rfl | hne
      · -- no message can be in the new file
        have hnil : past.ended.filter (·.file = s.file.next) = [] :=
          List.filter_eq_nil_iff.2 fun m hm => by
            have := h.ended m hm
            simp only [decide_eq_true_eq]
            omega
        simp only [Function.update_self, hnil, List.flatMap_nil, List.nil_append, writing_none]
      · simp only [Function.update_of_ne hne, h.contents]

/-- A slave locks a file, gives the lock back or begins to send, and has written nothing. -/
theorem WholeMessages.quiet (h : WholeMessages s past)
    (hlock : s.file.lock file = none ∨ s.file.lock file = some slave)
    (honly : ∀ f, f ≠ file → s.file.lock f ≠ some slave) {lock : Option ℕ}
    (hmine : lock = none ∨ lock = some slave) (hold : (past.begun slave).written = [])
    (hnew : m.written = []) (hm : phase.Begun m) (hheld : phase.held = lock.map fun _ => file)
    (hfile : ∀ f ∈ phase.file, f < s.file.next) :
    WholeMessages (s.put slave phase (s.file.setLock file lock))
      (past.begin slave m) := by
  refine ⟨h.put le_rfl h.current hfile (lock_others hlock hmine) fun f => ?_,
    fun q => begun_put h.begun hm q, h.ended, fun f => ?_⟩
  · rw [hheld]
    rcases eq_or_ne f file with rfl | hf
    · rw [NamedFile.setLock_lock_self]
      rcases hmine with rfl | rfl <;> simp
    · rw [NamedFile.setLock_lock_of_ne hf]
      refine iff_of_false (honly f hf) ?_
      rcases hmine with rfl | rfl
      · nofun
      · exact fun he => hf (Option.some.inj he).symm
  · have hc := h.contents f
    rcases eq_or_ne f file with rfl | hf
    · rw [writing_silent hlock hold] at hc
      rw [put_file, NamedFile.setLock_lock_self, writing_silent hmine (by rwa [begin_begun_self])]
      exact hc
    · rw [put_file, NamedFile.setLock_lock_of_ne hf, begin_writing_of_ne (honly f hf)]
      exact hc

/-- A slave sends a piece of its message, or the newline behind it. -/
theorem WholeMessages.append (h : WholeMessages s past) (hheld : (s.phase slave).held = some file)
    (xs : Bytes) (f : ℕ) : (s.file.append file xs).contents f =
      (past.ended.filter (·.file = f)).flatMap LogMessage.written ++
        (past.writing (s.file.lock f) ++ if f = file then xs else []) := by
  rcases eq_or_ne f file with rfl | hf
  · rw [NamedFile.append_contents_self, h.contents, if_pos rfl, List.append_assoc]
  · rw [NamedFile.append_contents_of_ne hf, h.contents, if_neg hf, List.append_nil]

/-- A slave ends its message. -/
theorem WholeMessages.finish (h : WholeMessages s past) (hphase : s.phase slave = .sending file)
    (newline : Bool) : WholeMessages (s.put slave .idle
      ((s.file.append file (if newline then [ch '\n'] else [])).setLock file none))
      (past.finish slave newline) := by
  have hheld : (s.phase slave).held = some file := by rw [hphase]; rfl
  have hlock := (h.locks file slave).2 hheld
  obtain ⟨hfile, hnl⟩ : (past.begun slave).file = file ∧ (past.begun slave).newline = false := by
    have hb := h.begun slave
    rwa [hphase] at hb
  have hended : (past.finish slave newline).ended =
    past.ended ++ [{ past.begun slave with newline }] := rfl
  have hwritten := written_newline hnl newline
  have hidle : LogPhase.idle.Begun .none := rfl
  refine ⟨h.put le_rfl h.current (by rintro f ⟨⟩) (lock_others (.inr hlock) (.inl rfl)) fun f => ?_,
    fun q => begun_put h.begun hidle q, fun m hm => ?_, fun f => ?_⟩
  · refine iff_of_false (fun hl => ?_) nofun
    rcases eq_or_ne f file with rfl | hf
    · rw [NamedFile.setLock_lock_self] at hl
      cases hl
    · rw [NamedFile.setLock_lock_of_ne hf] at hl
      exact h.lock_ne hheld hf hl
  · rcases List.mem_append.1 hm with hm | hm
    · exact h.ended m hm
    · rw [List.mem_singleton.1 hm]
      exact hfile.symm ▸ h.opened slave file (held_sub_file _ _ hheld)
  · rw [put_file, NamedFile.setLock_contents, h.append hheld, hended, List.filter_append]
    rcases eq_or_ne f file with rfl | hf
    · rw [hlock, writing_some, if_pos rfl, List.filter_cons_of_pos (by simpa using hfile),
        List.filter_nil, List.flatMap_append, List.flatMap_singleton, hwritten,
        NamedFile.setLock_lock_self, writing_none, List.append_nil]
    · have hw : (past.finish slave newline).writing (s.file.lock f) =
          past.writing (s.file.lock f) :=
        begin_writing_of_ne (h.lock_ne hheld hf)
      rw [if_neg hf, List.filter_cons_of_neg (by simpa [hfile] using hf.symm), List.filter_nil,
        NamedFile.setLock_lock_of_ne hf, NamedFile.append_lock, hw, List.append_nil,
        List.append_nil]

/-- A slave opens the file, and will lock it. -/
theorem WholeMessages.opens (h : WholeMessages s past) (hphase : s.phase slave = .opening) :
    WholeMessages (s.put slave (.locking s.file.openAppend.1 0) s.file.openAppend.2) past := by
  obtain ⟨hs, hlt⟩ := h.create
  have hheld : (s.phase slave).held = none := by rw [hphase]; rfl
  refine hs.moves hheld rfl ?_
  rintro file ⟨⟩
  exact hlt

/-- A slave locks the file. -/
theorem WholeMessages.lock (h : WholeMessages s past) {i : ℕ}
    (hphase : s.phase slave = .locking file i) (hlock : s.file.setlk slave file = some files) :
    WholeMessages (s.put slave (.locked file) files) past := by
  obtain ⟨hfree, rfl⟩ := NamedFile.setlk_eq_some.1 hlock
  have hnone : past.begun slave = .none := begun_eq_none (h.begun slave) (by simp [hphase])
  have hnot : ∀ f, s.file.lock f ≠ some slave := fun f hl => by
    rw [h.locks, hphase] at hl
    cases hl
  have hlocked : (LogPhase.locked file).Begun (past.begun slave) := hnone
  have hq := h.quiet hfree (fun f _ => hnot f) (.inr rfl) (by rw [hnone]; rfl)
    (by rw [hnone]; rfl) hlocked rfl (by
      rintro f ⟨⟩
      exact h.opened slave _ (by rw [hphase]; rfl))
  rwa [begin_begun] at hq

/-- A slave that has the file locked begins its message. -/
theorem WholeMessages.begins (h : WholeMessages s past) (hphase : s.phase slave = .locked file) :
    WholeMessages (s.put slave (.sending file) s.file)
      (past.begin slave ⟨file, s.file.current = some file, [], false⟩) := by
  have hheld : (s.phase slave).held = some file := by rw [hphase]; rfl
  have hlock := (h.locks file slave).2 hheld
  have hnone : past.begun slave = .none := begun_eq_none (h.begun slave) (by simp [hphase])
  have hbegun : (LogPhase.sending file).Begun ⟨file, s.file.current = some file, [], false⟩ :=
    ⟨rfl, rfl⟩
  have hq := h.quiet (.inr hlock) (fun f => h.lock_ne hheld) (.inr rfl) (by rw [hnone]; rfl) rfl
    hbegun rfl (by
      rintro f ⟨⟩
      exact h.opened slave _ (held_sub_file _ _ hheld))
  rwa [NamedFile.setLock_eq_self hlock] at hq

/-- A slave that has the file locked leaves it. -/
theorem WholeMessages.leaves (h : WholeMessages s past) (hphase : s.phase slave = .locked file)
    (hfile : phase.file = none) :
    WholeMessages (s.put slave phase (s.file.setLock file none)) past := by
  have hheld : (s.phase slave).held = some file := by rw [hphase]; rfl
  have hlock := (h.locks file slave).2 hheld
  have hnone : past.begun slave = .none := begun_eq_none (h.begun slave) (by simp [hphase])
  have hheld' := held_of_file_eq_none hfile
  have hbegun : phase.Begun (past.begun slave) := hnone ▸ begun_of_held hheld'
  have hq := h.quiet (.inr hlock) (fun f => h.lock_ne hheld) (.inl rfl) (by rw [hnone]; rfl)
    (by rw [hnone]; rfl) hbegun hheld' (by rw [hfile]; rintro f ⟨⟩)
  rwa [begin_begun] at hq

/-- A slave writes a piece of its message; nobody else writes to a file it has locked. -/
theorem WholeMessages.sends (h : WholeMessages s past) (hphase : s.phase slave = .sending file)
    (buf : Bytes) (written : ℕ) :
    WholeMessages { s with file := s.file.append file (buf.take written) }
      (past.begin slave { past.begun slave with
        pieces := (past.begun slave).pieces ++ [(buf, written)] }) := by
  have hheld : (s.phase slave).held = some file := by rw [hphase]; rfl
  have hlock := (h.locks file slave).2 hheld
  have hb : (LogPhase.sending file).Begun (past.begun slave) := hphase ▸ h.begun slave
  have hb' : (LogPhase.sending file).Begun { past.begun slave with
    pieces := (past.begun slave).pieces ++ [(buf, written)] } := hb
  refine ⟨⟨h.opened, h.current, h.locks⟩, fun q => ?_, h.ended, fun f => ?_⟩
  · rcases eq_or_ne q slave with rfl | hne
    · rw [begin_begun_self, hphase]
      exact hb'
    · rw [begin_begun_of_ne _ hne]
      exact h.begun q
  · rw [h.append hheld, NamedFile.append_lock, begin_ended]
    rcases eq_or_ne f file with rfl | hf
    · rw [hlock, writing_some, writing_some, begin_begun_self, if_pos rfl,
        written_append_piece hb.2]
    · rw [begin_writing_of_ne (h.lock_ne hheld hf), if_neg hf, List.append_nil]

/-- Every step keeps the messages whole. -/
theorem WholeMessages.step (h : WholeMessages s past) {a : LogAction}
    (he : LogEffect s past a t past') : WholeMessages t past' := by
  cases he with
  | moves hheld hheld' hfile =>
    exact h.moves hheld hheld' fun file hf => h.opened _ _ (hfile file hf)
  | opens hphase => exact h.opens hphase
  | locks hphase hlock => exact h.lock hphase hlock
  | begins hphase => exact h.begins hphase
  | leaves hphase hfile => exact h.leaves hphase hfile
  | sends hphase => exact h.sends hphase _ _
  | ends hphase => exact h.finish hphase _
  | removes _ => exact ⟨⟨h.opened, by rintro file ⟨⟩, h.locks⟩, h.begun, h.ended, h.contents⟩
  | stays => exact h

theorem WholeMessages.init {s : LogState × LogPast} (h : logHistory.init s) :
    WholeMessages s.1 s.2 := by
  obtain ⟨⟨hfile, hidle⟩, hpast⟩ := h
  refine ⟨⟨fun q f hf => ?_, fun f hf => ?_, fun f q => ?_⟩, fun q => ?_, fun m hm => ?_,
    fun f => ?_⟩
  · rw [hidle] at hf
    cases hf
  · rw [hfile] at hf
    cases hf
  · rw [hfile, hidle]
    exact iff_of_false nofun nofun
  · rw [hidle, hpast]
    rfl
  · rw [hpast] at hm
    cases hm
  · rw [hfile, hpast]
    rfl

/-- In every run, every file there ever was holds the messages that were ended in it, in
    order, and then what was written of the message of the slave that has it locked; nobody
    else sends to it. -/
theorem wholeMessages_of_reachable {s : LogState × LogPast}
    (h : logHistory.Reachable System.Always s) :
    (∀ file, s.1.file.contents file =
      (s.2.ended.filter (·.file = file)).flatMap LogMessage.written ++
        s.2.writing (s.1.file.lock file)) ∧
    ∀ slave file, s.1.phase slave = .sending file → s.1.file.lock file = some slave := by
  have hwhole : WholeMessages s.1 s.2 := h.invariant (fun _ => WholeMessages.init)
    fun s a t hs _ hst => hst.2 ▸ hs.step (logStep_effect s.2 hst.1)
  exact ⟨hwhole.contents, fun slave file hsend => (hwhole.locks file slave).2 (by rw [hsend]; rfl)⟩

/-- Whoever removes the file finds it unlocked. -/
def RemovesUnlocked (s : LogState × LogPast) (a : LogAction) : Prop :=
  a = .remove → ∀ file ∈ s.1.file.current, s.1.file.lock file = none

instance (s : LogState × LogPast) (a : LogAction) : Decidable (RemovesUnlocked s a) :=
  inferInstanceAs (Decidable (a = .remove →
    ∀ file ∈ s.1.file.current, s.1.file.lock file = none))

/-- Three slaves send one message each. The file is removed after the first one, and made
    again by the last one, while the second one has it open. -/
def threeMessages : List LogAction :=
  [.myopen 0, .fopen 0 none, .setlk 0 none, .stat 0 none, .mysend 0 (ascii "a") 1, .myopen 1,
    .fopen 1 none, .setlk 1 none, .myclose 0 true, .remove, .myopen 2, .fopen 2 none, .setlk 1 none,
    .stat 1 none, .mysend 1 (ascii "b") 1, .myclose 1 true, .setlk 2 none, .stat 2 none,
    .mysend 2 (ascii "c") 1]

/-- The message of the second one is lost. -/
theorem exists_threeMessages : ∃ s, logHistory.Reachable RemovesUnlocked s ∧
    s.2.taken = ascii "a\n" ∧ s.1.file.named = ascii "c" ∧
    s.2.ended.map (·.found) = [true, false] ∧ s.1.phase 2 = .sending 1 := by
  let start : LogState × LogPast := (⟨.empty, fun _ => .idle⟩, ⟨[], fun _ => .none, []⟩)
  let run := threeMessages.foldlM (fun s a => if RemovesUnlocked s a then
    System.recordedStep LogPast.record logStep s a else none) start
  obtain ⟨s, hs⟩ : ∃ s, run = some s := Option.isSome_iff_exists.1 (by decide)
  have hsteps : logHistory.Steps RemovesUnlocked start s :=
    System.Steps.of_foldlM (fun s a t h => System.recordedStep_eq_some.1 h) hs
  have hfacts : ∀ s ∈ run, s.2.taken = ascii "a\n" ∧ s.1.file.named = ascii "c" ∧
      s.2.ended.map (·.found) = [true, false] ∧ s.1.phase 2 = .sending 1 := by decide
  exact ⟨s, ⟨start, ⟨⟨rfl, fun _ => rfl⟩, rfl⟩, hsteps⟩, hfacts s hs⟩

theorem wholeMessages_sample : ∃ s : LogState × LogPast, s.1.phase 2 = .sending 1 ∧
    (∀ file, s.1.file.contents file =
      (s.2.ended.filter (·.file = file)).flatMap LogMessage.written ++
        s.2.writing (s.1.file.lock file)) ∧
    ∀ slave file, s.1.phase slave = .sending file → s.1.file.lock file = some slave :=
  let ⟨s, hs, _, _, _, hsend⟩ := exists_threeMessages
  ⟨s, hsend, wholeMessages_of_reachable (hs.mono fun _ _ _ => trivial)⟩

end JobProvenance
