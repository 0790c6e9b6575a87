import JobProvenance.Primary.LogFile

/-!
# Messages in a log file are not lost

What becomes of the messages that the slaves append to the file of an index server, and
that the interlogger takes when it removes the file (`taken`).

* `takenInOrder_of_reachable`: if the file is removed only while it is not locked, what was
  taken and what is there now are the messages in the order in which they were ended, each
  once. Those are missing whose slave has found another file in place of its own;
* `noneLost_of_reachable`: there are none of these if the file is removed only while no
  slave has it open.
-/

namespace JobProvenance

variable {s t : LogState} {past past' : LogPast} {slave file : ℕ} {phase : LogPhase}
  {m : LogMessage} {files : NamedFile UInt8}

/-! ## Messages in order -/

/-- What was taken, and what is in the file of the name, are the messages that were ended in
    a file their slave has found to be that of the name, and what is written to it now. -/
structure TakenInOrder (s : LogState) (past : LogPast) : Prop where
  found : ∀ slave file, s.phase slave = .sending file →
    (past.begun slave).found = decide (s.file.current = some file)
  queue : past.taken ++ s.file.named = (past.ended.filter (·.found)).flatMap LogMessage.written ++
    past.writing (s.file.current.bind s.file.lock)

theorem named_eq (n : NamedFile UInt8) : n.named = n.current.elim [] n.contents := rfl

/-- What is written to the file of the name, if there is one. -/
theorem TakenInOrder.queue_some (h : TakenInOrder s past) (hcur : s.file.current = some file) :
    past.taken ++ s.file.contents file =
      (past.ended.filter (·.found)).flatMap LogMessage.written ++
        past.writing (s.file.lock file) := by
  have hq := h.queue
  rwa [named_eq, hcur] at hq

theorem TakenInOrder.queue_none (h : TakenInOrder s past) (hcur : s.file.current = none) :
    past.taken = (past.ended.filter (·.found)).flatMap LogMessage.written := by
  have hq := h.queue
  rw [named_eq, hcur] at hq
  simpa using hq

/-- A step that leaves the name to its file keeps the order when what it writes to this file
    is the end of what the slaves write. -/
theorem TakenInOrder.of_current (hcur : t.file.current = s.file.current)
    (hfound : ∀ slave file, t.phase slave = .sending file →
      (past'.begun slave).found = decide (s.file.current = some file))
    (hnone : s.file.current = none → past'.taken =
      (past'.ended.filter (·.found)).flatMap LogMessage.written)
    (hsome : ∀ file, s.file.current = some file → past'.taken ++ t.file.contents file =
      (past'.ended.filter (·.found)).flatMap LogMessage.written ++
        past'.writing (t.file.lock file)) : TakenInOrder t past' where
  found slave file hq := by
    rw [hcur]
    exact hfound slave file hq
  queue := by
    rw [named_eq, hcur]
    cases hc : s.file.current with
    | none => simpa using hnone hc
    | some file => exact hsome file hc

/-- What the messages know of their files, when a slave moves on. -/
theorem found_put {cur : Option ℕ} (h : ∀ slave file, s.phase slave = .sending file →
      (past.begun slave).found = decide (cur = some file))
    (hm : ∀ file, phase = .sending file → m.found = decide (cur = some file)) (q f : ℕ)
    (hq : (s.put slave phase files).phase q = .sending f) :
    ((past.begin slave m).begun q).found = decide (cur = some f) := by
  rcases eq_or_ne q slave with rfl | hne
  · rw [put_phase_self] at hq
    rw [begin_begun_self]
    exact hm f hq
  · rw [put_phase_of_ne _ hne] at hq
    rw [begin_begun_of_ne _ hne]
    exact h q f hq

/-- A slave locks a file, gives the lock back or begins to send, and has written nothing. -/
theorem TakenInOrder.quiet (h : TakenInOrder s past)
    (hlock : s.file.lock file = none ∨ s.file.lock file = some slave)
    (honly : ∀ f, f ≠ file → s.file.lock f ≠ some slave) {lock : Option ℕ}
    (hmine : lock = none ∨ lock = some slave) (hold : (past.begun slave).written = [])
    (hnew : m.written = [])
    (hm : ∀ f, phase = .sending f → m.found = decide (s.file.current = some f)) :
    TakenInOrder (s.put slave phase (s.file.setLock file lock)) (past.begin slave m) := by
  refine .of_current (s := s) rfl (found_put h.found hm) h.queue_none fun f hf => ?_
  have hq := h.queue_some hf
  rcases eq_or_ne f file with rfl | hne
  · rw [writing_silent hlock hold] at hq
    rw [put_file, NamedFile.setLock_lock_self, writing_silent hmine (by rwa [begin_begun_self])]
    exact hq
  · rw [put_file, NamedFile.setLock_lock_of_ne hne, begin_writing_of_ne (honly f hne)]
    exact hq

/-- A slave opens the file, and it is made if there is none. -/
theorem TakenInOrder.create (h : TakenInOrder s past) (hw : WholeMessages s past) :
    TakenInOrder { s with file := s.file.openAppend.2 } past := by
  rcases s.file.openAppend_cases with ⟨-, hfile⟩ | ⟨hcur, -, hfile⟩
  · rwa [hfile]
  · -- nothing is in the new file, and nobody sends to it yet
    rw [hfile]
    refine ⟨fun q f hq => ?_, ?_⟩
    · have hlt := hw.opened q f (by rw [show s.phase q = .sending f from hq]; rfl)
      have hne : s.file.next ≠ f := by omega
      rw [h.found q f hq, hcur]
      simp [hne]
    · rw [named_eq]
      simpa using h.queue_none hcur

/-- A slave ends its message, which counts if its file has the name. -/
theorem TakenInOrder.finish (h : TakenInOrder s past) (hw : WholeMessages s past)
    (hphase : s.phase slave = .sending file) (newline : Bool) : TakenInOrder (s.put slave .idle
      ((s.file.append file (if newline then [ch '\n'] else [])).setLock file none))
      (past.finish slave newline) := by
  have hheld : (s.phase slave).held = some file := by rw [hphase]; rfl
  have hended : (past.finish slave newline).ended =
    past.ended ++ [{ past.begun slave with newline }] := rfl
  have hfound := h.found slave file hphase
  have hlost : s.file.current ≠ some file → (past.finish slave newline).ended.filter (·.found) =
      past.ended.filter (·.found) := fun hne => by
    rw [hended, List.filter_append, List.filter_cons_of_neg (by simpa [hfound] using hne),
      List.filter_nil, List.append_nil]
  refine .of_current (s := s) rfl (found_put h.found (by rintro f ⟨⟩)) (fun hcur => ?_)
    fun f hf => ?_
  · rw [hlost (by rw [hcur]; nofun)]
    exact h.queue_none hcur
  · have hq := h.queue_some hf
    rcases eq_or_ne f file with rfl | hne
    · have hb : (LogPhase.sending f).Begun (past.begun slave) := hphase ▸ hw.begun slave
      have hwritten := written_newline hb.2 newline
      rw [(hw.locks f slave).2 hheld, writing_some] at hq
      rw [put_file, NamedFile.setLock_contents, NamedFile.append_contents_self,
        NamedFile.setLock_lock_self, writing_none, List.append_nil, hended, List.filter_append,
        List.filter_cons_of_pos (by simpa [hfound] using hf), List.filter_nil, List.flatMap_append,
        List.flatMap_singleton, hwritten, ← List.append_assoc, ← List.append_assoc, ← hq]
      rfl
    · have hw' : (past.finish slave newline).writing (s.file.lock f) =
          past.writing (s.file.lock f) :=
        begin_writing_of_ne (hw.lock_ne hheld hne)
      rw [hlost (by rw [hf]; exact fun he => hne (Option.some.inj he)), put_file,
        NamedFile.setLock_contents, NamedFile.append_contents_of_ne hne,
        NamedFile.setLock_lock_of_ne hne, NamedFile.append_lock, hw']
      exact hq

/-- A slave that holds no lock turns to something else. -/
theorem TakenInOrder.moves (h : TakenInOrder s past) (hheld : phase.held = none) :
    TakenInOrder (s.put slave phase s.file) past := by
  refine .of_current (s := s) rfl (fun q f hq => ?_) h.queue_none fun f => h.queue_some
  have hf := found_put (m := past.begun slave) h.found (fun f hs => by
    rw [hs] at hheld
    cases hheld) q f hq
  rwa [begin_begun] at hf

/-- A slave opens the file, and will lock it. -/
theorem TakenInOrder.opens (h : TakenInOrder s past) (hw : WholeMessages s past) :
    TakenInOrder (s.put slave (.locking s.file.openAppend.1 0) s.file.openAppend.2) past :=
  (h.create hw).moves rfl

/-- A slave locks the file. -/
theorem TakenInOrder.locks (h : TakenInOrder s past) (hw : WholeMessages s past) {i : ℕ}
    {files : NamedFile UInt8} (hphase : s.phase slave = .locking file i)
    (hlock : s.file.setlk slave file = some files) :
    TakenInOrder (s.put slave (.locked file) files) past := by
  obtain ⟨hfree, rfl⟩ := NamedFile.setlk_eq_some.1 hlock
  have hnone : past.begun slave = .none := begun_eq_none (hw.begun slave) (by simp [hphase])
  have hnot : ∀ f, s.file.lock f ≠ some slave := fun f hl => by
    rw [hw.locks, hphase] at hl
    cases hl
  have hm : ∀ f, LogPhase.locked file = .sending f →
      (past.begun slave).found = decide (s.file.current = some f) := by rintro f ⟨⟩
  have hq := h.quiet hfree (fun f _ => hnot f) (.inr rfl) (by rw [hnone]; rfl)
    (by rw [hnone]; rfl) hm
  rwa [begin_begun] at hq

/-- A slave that has the file locked begins its message. -/
theorem TakenInOrder.begins (h : TakenInOrder s past) (hw : WholeMessages s past)
    (hphase : s.phase slave = .locked file) :
    TakenInOrder (s.put slave (.sending file) s.file)
      (past.begin slave ⟨file, s.file.current = some file, [], false⟩) := by
  have hheld : (s.phase slave).held = some file := by rw [hphase]; rfl
  have hlock := (hw.locks file slave).2 hheld
  have hnone : past.begun slave = .none := begun_eq_none (hw.begun slave) (by simp [hphase])
  have hm : ∀ f, LogPhase.sending file = .sending f →
      LogMessage.found ⟨file, s.file.current = some file, [], false⟩ =
        decide (s.file.current = some f) := by
    rintro f ⟨⟩
    rfl
  have hq := h.quiet (.inr hlock) (fun f => hw.lock_ne hheld) (.inr rfl) (by rw [hnone]; rfl) rfl hm
  rwa [NamedFile.setLock_eq_self hlock] at hq

/-- A slave that has the file locked leaves it. -/
theorem TakenInOrder.leaves (h : TakenInOrder s past) (hw : WholeMessages s past)
    (hphase : s.phase slave = .locked file) (hfile : phase.file = none) :
    TakenInOrder (s.put slave phase (s.file.setLock file none)) past := by
  have hheld : (s.phase slave).held = some file := by rw [hphase]; rfl
  have hnone : past.begun slave = .none := begun_eq_none (hw.begun slave) (by simp [hphase])
  have hm : ∀ f, phase = .sending f →
      (past.begun slave).found = decide (s.file.current = some f) := fun f hs => by
    rw [hs] at hfile
    cases hfile
  have hq := h.quiet (.inr ((hw.locks file slave).2 hheld)) (fun f => hw.lock_ne hheld) (.inl rfl)
    (by rw [hnone]; rfl) (by rw [hnone]; rfl) hm
  rwa [begin_begun] at hq

/-- A slave writes a piece of its message. -/
theorem TakenInOrder.sends (h : TakenInOrder s past) (hw : WholeMessages s past)
    (hphase : s.phase slave = .sending file) (buf : Bytes) (written : ℕ) :
    TakenInOrder { s with file := s.file.append file (buf.take written) }
      (past.begin slave { past.begun slave with
        pieces := (past.begun slave).pieces ++ [(buf, written)] }) := by
  have hheld : (s.phase slave).held = some file := by rw [hphase]; rfl
  have hlock := (hw.locks file slave).2 hheld
  refine .of_current (s := s) rfl (fun q f hq => ?_) h.queue_none fun f hf => ?_
  · rcases eq_or_ne q slave with rfl | hne
    · rw [begin_begun_self]
      exact h.found q f hq
    · rw [begin_begun_of_ne _ hne]
      exact h.found q f hq
  · have hq := h.queue_some hf
    rw [NamedFile.append_lock]
    rcases eq_or_ne f file with rfl | hne
    · have hb : (LogPhase.sending f).Begun (past.begun slave) := hphase ▸ hw.begun slave
      have hwritten := written_append_piece hb.2 (buf, written)
      rw [hlock, writing_some] at hq
      rw [NamedFile.append_contents_self, hlock, writing_some, begin_begun_self, hwritten,
        ← List.append_assoc, ← List.append_assoc, begin_ended, ← hq]
      rfl
    · rw [NamedFile.append_contents_of_ne hne, begin_writing_of_ne (hw.lock_ne hheld hne)]
      exact hq

/-- What was in an unlocked file is taken with it. -/
theorem TakenInOrder.removes (h : TakenInOrder s past) (hw : WholeMessages s past)
    (hfree : ∀ file ∈ s.file.current, s.file.lock file = none) :
    TakenInOrder { s with file := s.file.remove }
      { past with taken := past.taken ++ s.file.named } := by
  refine ⟨fun q f hq => ?_, ?_⟩
  · have hlock := (hw.locks f q).2 (by rw [show s.phase q = .sending f from hq]; rfl)
    have hne : s.file.current ≠ some f := fun hcur => by
      rw [hfree f hcur] at hlock
      cases hlock
    rw [h.found q f hq]
    simpa [NamedFile.remove] using hne
  · rw [named_eq]
    cases hcur : s.file.current with
    | none => simpa [NamedFile.remove, named_eq, hcur] using h.queue_none hcur
    | some f =>
      have hq := h.queue_some hcur
      rw [hfree f hcur, writing_none, List.append_nil] at hq
      simpa [NamedFile.remove, named_eq, hcur] using hq

/-- Every step keeps the order, if the file is removed only while it is not locked. -/
theorem TakenInOrder.step (h : TakenInOrder s past) (hw : WholeMessages s past) {a : LogAction}
    (ha : RemovesUnlocked (s, past) a) (he : LogEffect s past a t past') :
    TakenInOrder t past' := by
  cases he with
  | moves _ hheld _ => exact h.moves hheld
  | opens _ => exact h.opens hw
  | locks hphase hlock => exact h.locks hw hphase hlock
  | begins hphase => exact h.begins hw hphase
  | leaves hphase hfile => exact h.leaves hw hphase hfile
  | sends hphase => exact h.sends hw hphase _ _
  | ends hphase => exact h.finish hw hphase _
  | removes hrem => exact h.removes hw (ha hrem)
  | stays => exact h

theorem takenInOrder_init {s : LogState × LogPast} (h : logHistory.init s) :
    WholeMessages s.1 s.2 ∧ TakenInOrder s.1 s.2 := by
  refine ⟨.init h, ?_⟩
  obtain ⟨⟨hfile, hidle⟩, hpast⟩ := h
  refine ⟨fun q f hq => ?_, ?_⟩
  · rw [hidle] at hq
    cases hq
  · rw [hfile, hpast]
    rfl

/-- If the file is removed only while it is not locked, then what was taken with it, and what
    is in it now, are the messages that were ended in a file that their slave has found to be
    that of the name, in order and each once, and what is written to it now. -/
theorem takenInOrder_of_reachable {s : LogState × LogPast}
    (h : logHistory.Reachable RemovesUnlocked s) :
    s.2.taken ++ s.1.file.named = (s.2.ended.filter (·.found)).flatMap LogMessage.written ++
      s.2.writing (s.1.file.current.bind s.1.file.lock) := by
  refine (h.invariant (fun s => takenInOrder_init) fun s a t hs ha hst => ?_).2.queue
  have heff := logStep_effect s.2 hst.1
  rw [← hst.2] at heff
  exact ⟨hs.1.step heff, hs.2.step hs.1 ha heff⟩

theorem takenInOrder_sample : ∃ s : LogState × LogPast, s.2.taken = ascii "a\n" ∧
    s.1.file.named = ascii "c" ∧ s.2.ended.map (·.found) = [true, false] ∧
    s.2.taken ++ s.1.file.named = (s.2.ended.filter (·.found)).flatMap LogMessage.written ++
      s.2.writing (s.1.file.current.bind s.1.file.lock) :=
  let ⟨s, hs, htaken, hnamed, hfound, _⟩ := exists_threeMessages
  ⟨s, htaken, hnamed, hfound, takenInOrder_of_reachable hs⟩

/-! ## A file that nobody has open -/

/-- Whoever removes the file finds no slave that has it open. -/
def RemovesUnused (s : LogState × LogPast) (a : LogAction) : Prop :=
  a = .remove → ∀ file ∈ s.1.file.current, ∀ slave, (s.1.phase slave).file ≠ some file

/-- Whoever has a file open has the one of the name, and every message counts. -/
structure AllFound (s : LogState) (past : LogPast) : Prop where
  inPlace : ∀ slave, ∀ file ∈ (s.phase slave).file, s.file.current = some file
  found : ∀ m ∈ past.ended, m.found = true

theorem AllFound.step (h : AllFound s past) (hq : TakenInOrder s past) {a : LogAction}
    (ha : RemovesUnused (s, past) a) (he : LogEffect s past a t past') : AllFound t past' := by
  -- a slave that has moved on, and left the name where it was
  have hput : ∀ {slave phase} {files : NamedFile UInt8}, files.current = s.file.current →
      (∀ file ∈ phase.file, s.file.current = some file) →
      ∀ q, ∀ file ∈ ((s.put slave phase files).phase q).file,
        (s.put slave phase files).file.current = some file := by
    intro slave phase files hcur hphase q file hf
    rw [put_file, hcur]
    rcases eq_or_ne q slave with rfl | hne
    · rw [put_phase_self] at hf
      exact hphase file hf
    · rw [put_phase_of_ne _ hne] at hf
      exact h.inPlace q file hf
  cases he with
  | @moves slave phase hheld hheld' hfile =>
    exact ⟨hput rfl fun file hf => h.inPlace slave file (hfile file hf), h.found⟩
  | @opens slave hphase =>
    refine ⟨?_, h.found⟩
    rcases s.file.openAppend_cases with ⟨hcur, hfile⟩ | ⟨hcur, hnext, hfile⟩
    · rw [hfile]
      refine hput rfl ?_
      rintro file ⟨⟩
      exact hcur
    · -- nobody had a file open
      intro q file hf
      rcases eq_or_ne q slave with rfl | hne
      · rw [put_phase_self] at hf
        cases hf
        rw [put_file, hfile, hnext]
      · rw [put_phase_of_ne _ hne] at hf
        cases hcur.symm.trans (h.inPlace q file hf)
  | @locks slave file i files hphase hlock =>
    obtain ⟨-, rfl⟩ := NamedFile.setlk_eq_some.1 hlock
    refine ⟨hput rfl ?_, h.found⟩
    rintro f ⟨⟩
    exact h.inPlace slave _ (by rw [hphase]; rfl)
  | @begins slave file hphase =>
    refine ⟨hput rfl ?_, h.found⟩
    rintro f ⟨⟩
    exact h.inPlace slave _ (by rw [hphase]; rfl)
  | @leaves slave file phase hphase hfile =>
    exact ⟨hput rfl (by rw [hfile]; rintro f ⟨⟩), h.found⟩
  | sends hphase => exact ⟨h.inPlace, h.found⟩
  | @ends slave file newline hphase =>
    refine ⟨hput rfl (by rintro f ⟨⟩), fun m hm => ?_⟩
    rcases List.mem_append.1 hm with hm | hm
    · exact h.found m hm
    · have hcur := h.inPlace slave file (by rw [hphase]; rfl)
      rw [List.mem_singleton.1 hm]
      simpa [hcur] using hq.found slave file hphase
  | removes hrem =>
    refine ⟨fun q f hf => ?_, h.found⟩
    exact absurd hf (ha hrem f (h.inPlace q f hf) q)
  | stays => exact h

/-- If the file is removed only while no slave has it open, no message is lost: what was taken
    and what is there are all messages that were ended, in order and each once, and what is
    written now. -/
theorem noneLost_of_reachable {s : LogState × LogPast} (h : logHistory.Reachable RemovesUnused s) :
    s.2.taken ++ s.1.file.named = s.2.ended.flatMap LogMessage.written ++
      s.2.writing (s.1.file.current.bind s.1.file.lock) := by
  have hinv : (WholeMessages s.1 s.2 ∧ TakenInOrder s.1 s.2) ∧ AllFound s.1 s.2 := by
    refine h.invariant (I := fun s => (WholeMessages s.1 s.2 ∧ TakenInOrder s.1 s.2) ∧
      AllFound s.1 s.2) (fun s hs => ⟨takenInOrder_init hs, ?_⟩) fun s a t hs ha hst => ?_
    · obtain ⟨⟨-, hidle⟩, hpast⟩ := hs
      refine ⟨fun q f hf => ?_, fun m hm => ?_⟩
      · rw [hidle] at hf
        cases hf
      · rw [hpast] at hm
        cases hm
    · have heff := logStep_effect s.2 hst.1
      rw [← hst.2] at heff
      have hunlocked : RemovesUnlocked s a := fun hrem file hcur => by
        refine Option.eq_none_iff_forall_not_mem.2 fun q hlock => ?_
        exact ha hrem file hcur q (held_sub_file _ _ ((hs.1.1.locks file q).1 hlock))
      exact ⟨⟨hs.1.1.step heff, hs.1.2.step hs.1.1 hunlocked heff⟩, hs.2.step hs.1.2 ha heff⟩
  have hall : s.2.ended.filter (·.found) = s.2.ended := List.filter_eq_self.2 hinv.2.found
  have hqueue := hinv.1.2.queue
  rwa [hall] at hqueue

end JobProvenance
