import JobProvenance.Lib.CString
import JobProvenance.Lib.Exec
import JobProvenance.Lib.System

/-!
# Transfers of files

How an importer sends a file: it reads a block and registers a write of it, and when it
is told that a block was written, reads the next one, until there is nothing more to
read. An attempt that breaks is made once more, from where the file was read up to. The
offset of the writes belongs to the process: it is zero when the process starts, and
goes on from transfer to transfer.

* `gftpPutFile`: a transfer, of one attempt or two;
* `gOffset_eq_zero_iff`: the offset is zero as long as nothing was read;
* `carriesWhole_iff`: the writes of an attempt that succeeds carry the whole file from
  offset zero on exactly when the process has read nothing before that attempt.
-/

namespace JobProvenance

/-- The number of bytes that are read at once. -/
def BUFSZ : ℕ := 1024

/-- A write that is registered: where it goes, what is written, and whether it is the last. -/
structure RegisteredWrite where
  offset : ℕ
  data : Bytes
  eof : Bool
  deriving DecidableEq

/-- How an attempt ends: it is not set up, or not started; it breaks after a number of
    reads, or when there is nothing more to read; or it goes on to the end. How much is read
    at once, of what is left of the file, is part of it. -/
inductive PutOutcome
  | setupFails
  | putFails
  | breaks (reads : ℕ) (atMost : ℕ → ℕ)
  | completes (atMost : ℕ → ℕ)

/-- Reads from a file: what is read, one byte at least if there is one, and what is left. -/
def readBlock (atMost : ℕ → ℕ) (rest : Bytes) : Bytes × Bytes :=
  rest.splitAt (min BUFSZ (atMost rest.length + 1))

theorem readBlock_append {atMost : ℕ → ℕ} {rest : Bytes} :
    (readBlock atMost rest).1 ++ (readBlock atMost rest).2 = rest := by
  rw [readBlock, List.splitAt_eq]
  exact List.take_append_drop ..

theorem readBlock_fst_eq_nil {atMost : ℕ → ℕ} {rest : Bytes} :
    (readBlock atMost rest).1 = [] ↔ rest = [] := by
  rw [readBlock, List.splitAt_eq]
  exact List.take_eq_nil_iff.trans (or_iff_right (by simp [BUFSZ]))

/-- Writes what is left of a file, in a limited number of reads: the writes, and then what
    is left of the file, and the offset of the next write. -/
def putWrites (atMost : ℕ → ℕ) (limit : Option ℕ) (rest : Bytes) (gOffset : ℕ) :
    Exec (List RegisteredWrite × Bytes × ℕ) :=
  if limit = some 0 then .ok ([], rest, gOffset)
  else do
    let next ← Exec.toInt (gOffset + (readBlock atMost rest).1.length)
    if (readBlock atMost rest).1 = [] then return ([⟨gOffset, [], true⟩], rest, next)
    else
      let left ← putWrites atMost (limit.map (· - 1)) (readBlock atMost rest).2 next
      return (⟨gOffset, (readBlock atMost rest).1, false⟩ :: left.1, left.2)
termination_by rest.length
decreasing_by
  rename_i hread
  have hlen := congrArg List.length (@readBlock_append atMost rest)
  rw [List.length_append] at hlen
  have := List.length_pos_of_ne_nil hread
  omega

/-- What an attempt leaves: whether it has failed, its writes, what is left of the file,
    and the offset of the next write. -/
structure PutAttempt where
  gError : Bool
  writes : List RegisteredWrite
  rest : Bytes
  gOffset : ℕ

/-- Makes an attempt; there is none when it is not set up. -/
def putAttempt (outcome : PutOutcome) (rest : Bytes) (gOffset : ℕ) : Exec (Option PutAttempt) :=
  match outcome with
  | .setupFails => .ok none
  | .putFails => .ok (some ⟨true, [], rest, gOffset⟩)
  | .breaks reads atMost => do
    let left ← putWrites atMost (some reads) rest gOffset
    return some ⟨true, left.1, left.2.1, left.2.2⟩
  | .completes atMost => do
    let left ← putWrites atMost none rest gOffset
    return some ⟨false, left.1, left.2.1, left.2.2⟩

/-- A file that was just opened, and how the attempts to send it end. -/
structure PutCall where
  content : Bytes
  first : PutOutcome
  second : PutOutcome

/-- What a transfer leaves: the return value, the writes of the last attempt, and the offset
    of the next write. -/
structure PutResult where
  ret : ℤ
  writes : List RegisteredWrite
  gOffset : ℕ
  deriving DecidableEq

/-- Sends a file, in a second attempt if the first has failed. -/
def gftpPutFile (c : PutCall) (gOffset : ℕ) : Exec PutResult := do
  match ← putAttempt c.first c.content gOffset with
  | none => return ⟨1, [], gOffset⟩
  | some a =>
    if a.gError = false then return ⟨0, a.writes, a.gOffset⟩
    else
      match ← putAttempt c.second a.rest a.gOffset with
      | none => return ⟨1, [], a.gOffset⟩
      | some b => return ⟨if b.gError then 1 else 0, b.writes, b.gOffset⟩

/-! ## What the writes carry -/

/-- Writes go one behind the other. -/
def Consecutive : ℕ → List RegisteredWrite → Prop
  | _, [] => True
  | offset, w :: ws => w.offset = offset ∧ Consecutive (offset + w.data.length) ws

/-- The last write is the only one that is marked as such. -/
def EndsOnce (writes : List RegisteredWrite) : Prop :=
  ∃ ws w, writes = ws ++ [w] ∧ w.eof = true ∧ ∀ w ∈ ws, w.eof = false

/-- What writes carry. -/
def carried (writes : List RegisteredWrite) : Bytes := writes.flatMap (·.data)

/-- Writes carry a file, from offset zero on. -/
def CarriesWhole (content : Bytes) (writes : List RegisteredWrite) : Prop :=
  carried writes = content ∧ Consecutive 0 writes ∧ EndsOnce writes

section Writes

variable {atMost : ℕ → ℕ} {limit : Option ℕ} {rest : Bytes} {gOffset : ℕ}
  {left : List RegisteredWrite × Bytes × ℕ}

theorem Consecutive.head_eq {offset : ℕ} {writes : List RegisteredWrite} (h : Consecutive offset writes)
    (h' : Consecutive gOffset writes) (hne : writes ≠ []) : offset = gOffset := by
  cases writes with
  | nil => exact absurd rfl hne
  | cons w ws => exact h.1.symm.trans h'.1

theorem EndsOnce.ne_nil {writes : List RegisteredWrite} (h : EndsOnce writes) : writes ≠ [] := by
  obtain ⟨ws, w, rfl, -, -⟩ := h
  exact List.append_ne_nil_of_right_ne_nil _ (List.cons_ne_nil _ _)

theorem EndsOnce.cons {writes : List RegisteredWrite} {w : RegisteredWrite} (h : EndsOnce writes)
    (hw : w.eof = false) : EndsOnce (w :: writes) := by
  obtain ⟨ws, w', rfl, hw', hws⟩ := h
  exact ⟨w :: ws, w', rfl, hw', List.forall_mem_cons.2 ⟨hw, hws⟩⟩

/-- What is read is written at consecutive offsets, up to the end if nothing limits it. -/
structure WritesRead (limit : Option ℕ) (rest : Bytes) (gOffset : ℕ)
    (writes : List RegisteredWrite) (rest' : Bytes) (next : ℕ) : Prop where
  carried_append : carried writes ++ rest' = rest
  next_eq : next = gOffset + (carried writes).length
  consecutive : Consecutive gOffset writes
  lt : limit ≠ some 0 → next < 2 ^ 31
  complete : limit = none → rest' = [] ∧ EndsOnce writes
  nothing : carried writes = [] ↔ limit = some 0 ∨ rest = []

theorem writesRead_putWrites (h : putWrites atMost limit rest gOffset = .ok left) :
    WritesRead limit rest gOffset left.1 left.2.1 left.2.2 := by
  induction limit, rest, gOffset using putWrites.induct atMost generalizing left with
  | case1 rest gOffset =>
    rw [putWrites, if_pos rfl] at h
    cases h
    exact ⟨rfl, rfl, trivial, fun h => absurd rfl h, nofun, iff_of_true rfl (.inl rfl)⟩
  | case2 limit rest gOffset hlimit ih =>
    rw [putWrites, if_neg hlimit] at h
    obtain ⟨next, hnext, h⟩ := Exec.bind_eq_ok.1 h
    obtain ⟨hlt, rfl⟩ := Exec.toInt_eq_ok.1 hnext
    by_cases hread : (readBlock atMost rest).1 = []
    · -- nothing is left, so that this write is the last
      rw [if_pos hread] at h
      cases h
      have hrest := readBlock_fst_eq_nil.1 hread
      exact ⟨rfl, by rw [hread]; rfl, ⟨rfl, trivial⟩, fun _ => hlt,
        fun _ => ⟨hrest, [], _, rfl, rfl, nofun⟩, iff_of_true rfl (.inr hrest)⟩
    · rw [if_neg hread] at h
      obtain ⟨left', hleft, h⟩ := Exec.bind_eq_ok.1 h
      cases h
      have ih := ih _ hread hleft
      have hcarried : carried (⟨gOffset, (readBlock atMost rest).1, false⟩ :: left'.1) =
          (readBlock atMost rest).1 ++ carried left'.1 := List.flatMap_cons
      refine ⟨?_, ?_, ⟨rfl, ih.consecutive⟩, fun _ => ?_, fun h => ?_, ?_⟩
      · rw [hcarried, List.append_assoc, ih.carried_append, readBlock_append]
      · rw [hcarried, List.length_append, ← add_assoc]
        exact ih.next_eq
      · by_cases hlimit' : limit.map (· - 1) = some 0
        · -- it was the last read before the break
          rw [ih.next_eq, ih.nothing.2 (.inl hlimit')]
          exact hlt
        · exact ih.lt hlimit'
      · have hleft := ih.complete (by rw [h]; rfl)
        exact ⟨hleft.1, hleft.2.cons rfl⟩
      · rw [hcarried]
        refine iff_of_false (fun h => hread (List.append_eq_nil_iff.1 h).1) ?_
        rintro (h | h)
        · exact hlimit h
        · exact hread (readBlock_fst_eq_nil.2 h)

theorem exists_putWrites (h : gOffset + rest.length < 2 ^ 31) :
    ∃ left, putWrites atMost limit rest gOffset = .ok left := by
  induction limit, rest, gOffset using putWrites.induct atMost with
  | case1 rest gOffset => exact ⟨_, by rw [putWrites, if_pos rfl]⟩
  | case2 limit rest gOffset hlimit ih =>
    have hlen := congrArg List.length (@readBlock_append atMost rest)
    rw [List.length_append] at hlen
    rw [putWrites, if_neg hlimit, Exec.toInt_of_lt (by omega), Exec.ok_bind]
    split
    · exact ⟨_, rfl⟩
    · next hread =>
      obtain ⟨left, hleft⟩ := ih (gOffset + (readBlock atMost rest).1.length) hread (by omega)
      exact ⟨_, Exec.bind_eq_ok.2 ⟨left, hleft, rfl⟩⟩

end Writes

/-! ## What a transfer leaves -/

/-- How many reads an attempt makes before it breaks. -/
def PutOutcome.limit : PutOutcome → Option ℕ
  | .setupFails => some 0
  | .putFails => some 0
  | .breaks reads _ => some reads
  | .completes _ => none

/-- An attempt that reads nothing of any file. -/
def PutOutcome.ReadsNothing (outcome : PutOutcome) : Prop := outcome.limit = some 0

/-- An attempt that is not broken. -/
def PutOutcome.Completes (outcome : PutOutcome) : Prop := outcome.limit = none

/-- A transfer that reads no byte. -/
def PutCall.ReadsNothing (c : PutCall) : Prop :=
  c.content = [] ∨ c.first.ReadsNothing ∧ (c.first = .setupFails ∨ c.second.ReadsNothing)

/-- A transfer one of whose attempts is not broken. -/
def PutCall.Completes (c : PutCall) : Prop :=
  c.first.Completes ∨ c.first ≠ .setupFails ∧ c.second.Completes

section Attempts

variable {outcome : PutOutcome} {rest : Bytes} {gOffset : ℕ} {a : PutAttempt} {c : PutCall}
  {r : PutResult}

theorem writesRead_putAttempt (h : putAttempt outcome rest gOffset = .ok (some a)) :
    WritesRead outcome.limit rest gOffset a.writes a.rest a.gOffset ∧
      (a.gError = false ↔ outcome.Completes) := by
  cases outcome with
  | setupFails => cases h
  | putFails =>
    cases h
    exact ⟨⟨rfl, rfl, trivial, fun h => absurd rfl h, nofun, iff_of_true rfl (.inl rfl)⟩,
      iff_of_false Bool.true_eq_false_eq_False nofun⟩
  | breaks reads atMost =>
    obtain ⟨left, hleft, h⟩ := Exec.bind_eq_ok.1 h
    cases h
    exact ⟨writesRead_putWrites hleft, iff_of_false Bool.true_eq_false_eq_False nofun⟩
  | completes atMost =>
    obtain ⟨left, hleft, h⟩ := Exec.bind_eq_ok.1 h
    cases h
    exact ⟨writesRead_putWrites hleft, iff_of_true rfl rfl⟩

theorem exists_putAttempt (h : gOffset + rest.length < 2 ^ 31) (hsetup : outcome ≠ .setupFails) :
    ∃ a, putAttempt outcome rest gOffset = .ok (some a) := by
  cases outcome with
  | setupFails => exact absurd rfl hsetup
  | putFails => exact ⟨_, rfl⟩
  | breaks reads atMost =>
    obtain ⟨left, hleft⟩ := @exists_putWrites atMost (some reads) _ _ h
    exact ⟨_, Exec.bind_eq_ok.2 ⟨left, hleft, rfl⟩⟩
  | completes atMost =>
    obtain ⟨left, hleft⟩ := @exists_putWrites atMost none _ _ h
    exact ⟨_, Exec.bind_eq_ok.2 ⟨left, hleft, rfl⟩⟩

theorem putAttempt_eq_none (h : putAttempt outcome rest gOffset = .ok none) :
    outcome = .setupFails := by
  cases outcome with
  | setupFails => rfl
  | putFails => cases h
  | breaks reads atMost =>
    obtain ⟨left, -, h⟩ := Exec.bind_eq_ok.1 h
    cases h
  | completes atMost =>
    obtain ⟨left, -, h⟩ := Exec.bind_eq_ok.1 h
    cases h

/-- A transfer is not set up, or its first attempt succeeds, or it takes a second one. -/
theorem gftpPutFile_cases (h : gftpPutFile c gOffset = .ok r) :
    (c.first = .setupFails ∧ r = ⟨1, [], gOffset⟩) ∨
      ∃ a, putAttempt c.first c.content gOffset = .ok (some a) ∧
        (a.gError = false ∧ r = ⟨0, a.writes, a.gOffset⟩ ∨
          a.gError = true ∧ c.second = .setupFails ∧ r = ⟨1, [], a.gOffset⟩ ∨
          a.gError = true ∧ ∃ b, putAttempt c.second a.rest a.gOffset = .ok (some b) ∧
            r = ⟨if b.gError then 1 else 0, b.writes, b.gOffset⟩) := by
  obtain ⟨_ | a, ha, h⟩ := Exec.bind_eq_ok.1 h
  · exact .inl ⟨putAttempt_eq_none ha, (Except.ok.inj h).symm⟩
  · refine .inr ⟨a, ha, ?_⟩
    dsimp only at h
    cases hgError : a.gError with
    | false =>
      rw [hgError, if_pos rfl] at h
      exact .inl ⟨rfl, (Except.ok.inj h).symm⟩
    | true =>
      rw [hgError, if_neg Bool.noConfusion] at h
      obtain ⟨_ | b, hb, h⟩ := Exec.bind_eq_ok.1 h
      · exact .inr (.inl ⟨rfl, putAttempt_eq_none hb, (Except.ok.inj h).symm⟩)
      · exact .inr (.inr ⟨rfl, b, hb, (Except.ok.inj h).symm⟩)

section Read

variable {limit : Option ℕ} {writes : List RegisteredWrite} {rest' : Bytes} {next : ℕ}

/-- An attempt leaves the offset at zero if it was and nothing is read. -/
theorem WritesRead.next_eq_zero (h : WritesRead limit rest gOffset writes rest' next) :
    next = 0 ↔ gOffset = 0 ∧ (limit = some 0 ∨ rest = []) := by
  rw [h.next_eq, Nat.add_eq_zero_iff, List.length_eq_zero_iff, h.nothing]

/-- An attempt that reads nothing leaves the file as it was. -/
theorem WritesRead.rest_eq (h : WritesRead limit rest gOffset writes rest' next)
    (hnothing : limit = some 0 ∨ rest = []) : rest' = rest := by
  have := h.carried_append
  rwa [h.nothing.2 hnothing, List.nil_append] at this

end Read

/-- A transfer leaves the offset at zero if it was and no byte is read. -/
theorem gOffset_gftpPutFile (h : gftpPutFile c gOffset = .ok r) :
    r.gOffset = 0 ↔ gOffset = 0 ∧ c.ReadsNothing := by
  rcases gftpPutFile_cases h with ⟨hsetup, rfl⟩ | ⟨a, ha, h⟩
  · exact (and_iff_left (.inr ⟨by rw [hsetup]; rfl, .inl hsetup⟩)).symm
  · obtain ⟨hread, hcompletes⟩ := writesRead_putAttempt ha
    have hfirst := hread.next_eq_zero
    have hsetup : c.first ≠ .setupFails := fun h => by rw [h] at ha; cases ha
    rw [PutCall.ReadsNothing, or_iff_right hsetup]
    rcases h with ⟨hgError, rfl⟩ | ⟨-, hsetup', rfl⟩ | ⟨-, b, hb, rfl⟩
    · have hnone := hcompletes.1 hgError
      have hne : ¬c.first.ReadsNothing := fun h => Option.some_ne_none _ (h.symm.trans hnone)
      exact hfirst.trans (and_congr_right' ((or_iff_right hne).trans (or_iff_left fun h => hne h.1).symm))
    · have hsecond : c.second.ReadsNothing := by rw [hsetup']; rfl
      rw [hfirst, and_iff_left hsecond]
      exact and_congr_right' or_comm
    · rw [(writesRead_putAttempt hb).1.next_eq_zero, hfirst, and_assoc, or_comm, or_and_left]
      -- the second attempt starts with the file as it was
      refine and_congr_right' (and_congr_right fun hnothing => ?_)
      rw [hread.rest_eq hnothing.symm, or_comm]
      rfl

section Whole

variable {limit : Option ℕ} {writes : List RegisteredWrite} {rest' content : Bytes} {next : ℕ}

/-- An attempt that is not broken counts the offset up to the end of the file. -/
theorem WritesRead.written (h : WritesRead limit rest gOffset writes rest' next)
    (hlimit : limit = none) : gOffset + rest.length < 2 ^ 31 := by
  have hcarried := h.carried_append
  rw [(h.complete hlimit).1, List.append_nil] at hcarried
  rw [← hcarried, ← h.next_eq]
  exact h.lt (hlimit ▸ nofun)

/-- It writes the whole file from offset zero on if it finds it whole and the offset at
    zero. -/
theorem WritesRead.carries_iff (h : WritesRead limit rest gOffset writes rest' next)
    (hlimit : limit = none) : CarriesWhole content writes ↔ gOffset = 0 ∧ rest = content := by
  obtain ⟨hrest, hends⟩ := h.complete hlimit
  have hcarried := h.carried_append
  rw [hrest, List.append_nil] at hcarried
  constructor
  · rintro ⟨rfl, hconsecutive, -⟩
    exact ⟨h.consecutive.head_eq hconsecutive hends.ne_nil, hcarried.symm⟩
  · rintro ⟨rfl, rfl⟩
    exact ⟨hcarried, h.consecutive, hends⟩

end Whole

/-- A transfer returns if the offset can be counted up to the end of the file. -/
theorem exists_gftpPutFile (h : gOffset + c.content.length < 2 ^ 31) :
    ∃ r, gftpPutFile c gOffset = .ok r := by
  by_cases hsetup : c.first = .setupFails
  · exact ⟨_, by rw [gftpPutFile, hsetup]; rfl⟩
  obtain ⟨a, ha⟩ := exists_putAttempt h hsetup
  rw [gftpPutFile, ha, Exec.ok_bind]
  dsimp only
  split
  · exact ⟨_, rfl⟩
  by_cases hsetup' : c.second = .setupFails
  · exact ⟨_, by rw [hsetup']; rfl⟩
  have hread := (writesRead_putAttempt ha).1
  have hlen := congrArg List.length hread.carried_append
  rw [List.length_append] at hlen
  have hlt : a.gOffset + a.rest.length < 2 ^ 31 := by rw [hread.next_eq]; omega
  obtain ⟨b, hb⟩ := exists_putAttempt hlt hsetup'
  exact ⟨_, by rw [hb]; rfl⟩

end Attempts

/-! ## Transfer after transfer -/

/-- A process that sends files: its offset is that of the next write. -/
def putSystem : System ℕ PutCall where
  init gOffset := gOffset = 0
  step gOffset c gOffset' := ∃ r, gftpPutFile c gOffset = .ok r ∧ r.gOffset = gOffset'

/-- The process, and the transfers it has made. -/
def putHistory : System (ℕ × List PutCall) PutCall :=
  putSystem.recorded [] fun _ c _ calls => calls ++ [c]

section History

variable {gOffset : ℕ} {calls : List PutCall} {c : PutCall}

/-- The offset is zero as long as nothing was read. -/
theorem gOffset_eq_zero_iff (h : putHistory.Reachable System.Always (gOffset, calls)) :
    gOffset = 0 ↔ ∀ c ∈ calls, c.ReadsNothing := by
  refine h.invariant (I := fun s => s.1 = 0 ↔ ∀ c ∈ s.2, c.ReadsNothing) ?_ ?_
  · rintro ⟨_, _⟩ ⟨rfl, rfl⟩
    exact iff_of_true rfl nofun
  · rintro ⟨gOffset, calls⟩ c ⟨_, calls'⟩ ih - ⟨⟨r, hr, rfl⟩, hcalls⟩
    rw [hcalls, gOffset_gftpPutFile hr, ih, List.forall_mem_append, List.forall_mem_singleton]

/-- What is required of a transfer that returns zero: it carries the whole file. -/
def PutCall.TransfersWhole (c : PutCall) (gOffset : ℕ) : Prop :=
  ∃ r, gftpPutFile c gOffset = .ok r ∧ r.ret = 0 ∧ CarriesWhole c.content r.writes

/-- A transfer that is not broken twice carries the whole file exactly when no byte was read
    before its last attempt, by the transfers before or by its first attempt, and the offset
    can be counted up to the end of the file. -/
theorem carriesWhole_iff (h : putHistory.Reachable System.Always (gOffset, calls))
    (hc : c.Completes) : c.TransfersWhole gOffset ↔
      (∀ c' ∈ calls, c'.ReadsNothing) ∧
        (c.first.Completes ∨ c.first.ReadsNothing ∨ c.content = []) ∧ c.content.length < 2 ^ 31 := by
  rw [← gOffset_eq_zero_iff h]
  constructor
  · rintro ⟨r, hr, hret, hwhole⟩
    rcases gftpPutFile_cases hr with ⟨-, rfl⟩ | ⟨a, ha, ⟨hgError, rfl⟩ | ⟨-, -, rfl⟩ | ⟨-, b, hb, rfl⟩⟩
    · cases hret
    · obtain ⟨hread, hcompletes⟩ := writesRead_putAttempt ha
      have hfirst := hcompletes.1 hgError
      have hwritten := hread.written hfirst
      obtain ⟨rfl, -⟩ := (hread.carries_iff hfirst).1 hwhole
      exact ⟨rfl, .inl hfirst, by omega⟩
    · cases hret
    · obtain ⟨hread, -⟩ := writesRead_putAttempt ha
      obtain ⟨hread', hcompletes⟩ := writesRead_putAttempt hb
      have hsecond := hcompletes.1 (Bool.eq_false_iff.2 fun h => by rw [h] at hret; cases hret)
      have hwritten := hread'.written hsecond
      obtain ⟨hgOffset, hrest⟩ := (hread'.carries_iff hsecond).1 hwhole
      obtain ⟨rfl, hnothing⟩ := hread.next_eq_zero.1 hgOffset
      rw [hgOffset, hrest] at hwritten
      exact ⟨rfl, .inr hnothing, by omega⟩
  · rintro ⟨rfl, hbefore, hlt⟩
    obtain ⟨r, hr⟩ := @exists_gftpPutFile 0 c (by omega)
    refine ⟨r, hr, ?_⟩
    rcases gftpPutFile_cases hr with ⟨hsetup, rfl⟩ | ⟨a, ha, h⟩
    · rcases hc with hc | hc
      · rw [hsetup] at hc
        cases hc
      · exact absurd hsetup hc.1
    obtain ⟨hread, hcompletes⟩ := writesRead_putAttempt ha
    rcases h with ⟨hgError, rfl⟩ | ⟨hgError, hsetup, rfl⟩ | ⟨hgError, b, hb, rfl⟩
    · exact ⟨rfl, (hread.carries_iff (hcompletes.1 hgError)).2 ⟨rfl, rfl⟩⟩
    all_goals
      have hfirst : ¬c.first.Completes := fun h => by rw [hcompletes.2 h] at hgError; cases hgError
      have hsecond := (hc.resolve_left hfirst).2
    · rw [hsetup] at hsecond
      cases hsecond
    · -- the second attempt finds the file and the offset as they were
      obtain ⟨hread', hcompletes'⟩ := writesRead_putAttempt hb
      have hnothing := hbefore.resolve_left hfirst
      have hgOffset := hread.next_eq_zero.2 ⟨rfl, hnothing⟩
      have hrest := hread.rest_eq hnothing
      exact ⟨by rw [hcompletes'.2 hsecond]; rfl,
        (hread'.carries_iff hsecond).2 ⟨hgOffset, hrest⟩⟩

/-- A file of one byte. -/
def byteFile : PutCall := ⟨[0], .completes fun _ => 0, .setupFails⟩

/-- It is sent whole when it is sent first. -/
theorem carriesWhole_iff_sample : byteFile.TransfersWhole 0 :=
  have hcompletes : byteFile.first.Completes := rfl
  have hinit : putHistory.Reachable System.Always (0, []) := .init ⟨rfl, rfl⟩
  (carriesWhole_iff hinit (.inl hcompletes)).2 ⟨nofun, .inl hcompletes, by decide⟩

theorem gftpPutFile_byteFile : ∀ gOffset ∈ [0, 1], gftpPutFile byteFile gOffset =
    .ok ⟨0, [⟨gOffset, [0], false⟩, ⟨gOffset + 1, [], true⟩], gOffset + 1⟩ := by
  decide +kernel

/-- When it is sent once more, it is written behind where it ended before. -/
theorem not_transfersWhole_again : ∃ s r, putHistory.Reachable System.Always s ∧
    gftpPutFile byteFile s.1 = .ok r ∧ r.ret = 0 ∧ ¬CarriesWhole byteFile.content r.writes := by
  have hfirst := gftpPutFile_byteFile 0 (by decide)
  refine ⟨(1, [byteFile]), _, ?_, gftpPutFile_byteFile 1 (by decide), rfl, ?_⟩
  · exact System.Reachable.tail (s := (0, [])) (a := byteFile) (.init ⟨rfl, rfl⟩) trivial
      ⟨⟨_, hfirst, rfl⟩, rfl⟩
  · rintro ⟨-, hconsecutive, -⟩
    cases hconsecutive.1

end History

end JobProvenance
