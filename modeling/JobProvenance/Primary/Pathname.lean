import JobProvenance.Lib.Terminated
import JobProvenance.Primary.Registration

/-!
# The unique part of a job identifier

Each operation of the storage starts with `jobid_unique_pathname`, which copies what
stands behind the last slash of a job identifier and, where a path is asked for, copies it
once more and puts a terminator at a fixed place of the second copy, to cut it there. Here
the identifier and the copies are blocks of memory.

* `jobidUniquePathnameAt_of_afterLast`: what the function does with what it finds;
* `jobidUniquePathnameAt_eq`: where there is memory, `jobidUniquePathname` is the function
  without the blocks;
* `text_of_write`, `write_of_lt`: the place is in the copy when there are enough characters;
* `safePathname_iff`: when the function is safe;
* `gliteJppsbeRegisterJob_eq_fault`: which registrations of a job leave the copy.
-/

namespace JobProvenance

/-! ## The function -/

/-- For which of the two copies there is memory. -/
structure Room where
  unique : Bool
  juPath : Bool

/-- There is memory for the copies that are made. -/
def Room.Enough (room : Room) (getPath : Bool) : Prop :=
  room.unique = true ∧ (getPath = true → room.juPath = true)

instance (room : Room) (getPath : Bool) : Decidable (room.Enough getPath) :=
  inferInstanceAs (Decidable (_ ∧ (_ → _)))

/-- What the function leaves: what it returns, and what the pointers of its caller point
    to, where it has set them. -/
structure UniquePathname where
  ret : Ret
  unique : Option (Block UInt8)
  juPath : Option (Block UInt8)

/-- Finds the unique part of a job identifier. -/
def jobidUniquePathnameAt (job : Block UInt8) (getPath : Bool) (room : Room) :
    Exec UniquePathname := do
  match ← job.strrchr (ch '/') with
  | none => return ⟨some .EINVAL, none, none⟩
  | some p =>
    match ← Block.strdup room.unique (job.drop (p + 1)) with
    | none => return ⟨some .ENOMEM, none, none⟩
    | some unique =>
      if getPath then
        match ← Block.strdup room.juPath (job.drop (p + 1)) with
        -- the first copy is freed: its caller points to no cells
        | none => return ⟨some .ENOMEM, some [], none⟩
        | some juPath => return ⟨none, some unique, some (← juPath.write 10 0)⟩
      else return ⟨none, some unique, none⟩

/-- The unique part as the caller reads it. -/
def UniquePathname.result (r : UniquePathname) : Exec Bytes :=
  match r.ret with
  | some e => .error (.errno e)
  | none => do
    let unique ← Exec.deref r.unique
    unique.text

/-- The function leaves the unique part and, where it is asked for, the start of it. -/
structure UniquePathname.Delivers (r : UniquePathname) (getPath : Bool) (u : Bytes) : Prop where
  ret : r.ret = none
  unique : ∃ b, r.unique = some b ∧ b.text = .ok u
  juPath : getPath = true → ∃ b, r.juPath = some b ∧ b.text = .ok (u.take 10)

/-- The function is safe for a job identifier: whatever memory there is, it stays inside of
    the strings, refuses exactly the identifiers without a slash, and leaves what is behind
    the last slash, unless there is no memory for it. -/
def SafePathname (job : CString) (getPath : Bool) : Prop :=
  ∀ room, ∃ r, jobidUniquePathnameAt (.ofString job.bytes) getPath room = .ok r ∧
    (r.ret = some .EINVAL ↔ ch '/' ∉ job.bytes) ∧
    ∀ u, afterLast (ch '/') job.bytes = some u →
      if room.Enough getPath then r.Delivers getPath u else r.ret = some .ENOMEM

/-! ## What it does -/

section Blocks

variable {job : CString} {getPath : Bool} {room : Room} {u : Bytes}

/-- An identifier without a slash is refused. -/
theorem jobidUniquePathnameAt_of_notMem (h : ch '/' ∉ job.bytes) :
    jobidUniquePathnameAt (.ofString job.bytes) getPath room =
      .ok ⟨some .EINVAL, none, none⟩ := by
  rw [jobidUniquePathnameAt, (Block.holds_ofString job.bytes).strrchr_eq_none job.nul_notMem
    (by decide) h]
  rfl

/-- A job identifier with a slash is what stands in front of the last one and behind it. -/
theorem split_of_afterLast (h : afterLast (ch '/') job.bytes = some u) :
    ∃ p, job.bytes = p ++ ch '/' :: u ∧ 0 ∉ p ∧ 0 ∉ u := by
  obtain ⟨p, hjob⟩ := exists_of_afterLast h
  have hnul := job.nul_notMem
  rw [hjob, List.mem_append, List.mem_cons, not_or, not_or] at hnul
  exact ⟨p, hjob, hnul.1, hnul.2.2⟩

/-- What is found behind the last slash is copied. -/
theorem jobidUniquePathnameAt_of_afterLast (h : afterLast (ch '/') job.bytes = some u) :
    jobidUniquePathnameAt (.ofString job.bytes) getPath room =
      if room.unique = false then .ok ⟨some .ENOMEM, none, none⟩
      else if getPath = false then .ok ⟨none, some (.ofString u), none⟩
      else if room.juPath = false then .ok ⟨some .ENOMEM, some [], none⟩
      else do return ⟨none, some (.ofString u), some (← (Block.ofString u).write 10 0)⟩ := by
  obtain ⟨p, hjob, hp, hu⟩ := split_of_afterLast h
  have hholds : Block.Holds (.ofString job.bytes) (p ++ ch '/' :: (u ++ [0])) := by
    have hbytes := Block.holds_ofString job.bytes
    rwa [hjob, List.append_assoc, List.cons_append, ← hjob] at hbytes
  have hslash := hholds.strrchr_eq_some hp hu (by decide) (notMem_of_afterLast h)
  -- the cells behind the slash
  have hbehind : Block.Holds ((Block.ofString job.bytes).drop (p.length + 1)) (u ++ [0]) := by
    rw [← List.drop_drop]
    exact @Block.Holds.drop _ _ [ch '/'] _ hholds.drop
  have hdup := hbehind.strdup hu
  rw [jobidUniquePathnameAt, hslash, Exec.ok_bind]
  dsimp only
  rw [hdup, Exec.ok_bind, hdup]
  cases room.unique <;> cases getPath <;> cases room.juPath <;> rfl

/-- The terminator cuts the copy when there are enough characters. -/
theorem text_of_write (h : 10 ≤ u.length) (hnul : 0 ∉ u) :
    ∃ b, (Block.ofString u).write 10 0 = .ok b ∧ b.text = .ok (u.take 10) := by
  have hlen : (u.take 10).length = 10 := List.length_take_of_le h
  -- a character, or the terminator of the copy
  obtain ⟨y, ys, hrest⟩ := List.exists_cons_of_ne_nil
    (List.append_ne_nil_of_right_ne_nil (u.drop 10) (List.cons_ne_nil 0 []))
  have hholds : (Block.ofString u).Holds (u.take 10 ++ y :: ys) := by
    rw [← hrest, ← List.append_assoc, List.take_append_drop]
    exact Block.holds_ofString u
  obtain ⟨b, hb, hcut⟩ := hholds.overwrite 0
  rw [hlen] at hb
  exact ⟨b, hb, hcut.text fun h => hnul (List.mem_of_mem_take h)⟩

/-- It is put behind the end of the copy when there are fewer. -/
theorem write_of_lt (h : u.length < 10) : (Block.ofString u).write 10 0 = .error .fault := by
  have hlen : (Block.ofString u).length = u.length + 1 := by
    rw [Block.ofString, List.length_map, List.length_append, List.length_singleton]
  rw [Block.write, hlen]
  exact if_neg (Nat.not_lt.2 h)

/-- With enough characters, the copies are left that there is memory for. -/
theorem leaves_of_afterLast (room : Room) (hu : afterLast (ch '/') job.bytes = some u)
    (hlong : getPath = true → 10 ≤ u.length) :
    ∃ r, jobidUniquePathnameAt (.ofString job.bytes) getPath room = .ok r ∧
      r.ret ≠ some .EINVAL ∧
      if room.Enough getPath then r.Delivers getPath u else r.ret = some .ENOMEM := by
  obtain ⟨-, -, -, hnul⟩ := split_of_afterLast hu
  have htext := Block.text_ofString hnul
  rw [jobidUniquePathnameAt_of_afterLast hu]
  obtain ⟨unique, juPath⟩ := room
  cases unique with
  | false => exact ⟨_, rfl, nofun, by rw [if_neg fun h => Bool.false_ne_true h.1]⟩
  | true =>
    rw [if_neg nofun]
    cases getPath with
    | false =>
      refine ⟨_, rfl, nofun, ?_⟩
      rw [if_pos ⟨rfl, nofun⟩]
      exact ⟨rfl, ⟨_, rfl, htext⟩, nofun⟩
    | true =>
      rw [if_neg (by decide)]
      cases juPath with
      | false => exact ⟨_, rfl, nofun, by rw [if_neg fun h => Bool.false_ne_true (h.2 rfl)]⟩
      | true =>
        obtain ⟨b, hb, hcut⟩ := text_of_write (hlong rfl) hnul
        rw [if_neg (by decide), hb]
        refine ⟨_, rfl, nofun, ?_⟩
        rw [if_pos ⟨rfl, fun _ => rfl⟩]
        exact ⟨rfl, ⟨_, rfl, htext⟩, fun _ => ⟨b, rfl, hcut⟩⟩

end Blocks

/-- Where there is memory, the unique part is what `jobidUniquePathname` says. -/
theorem jobidUniquePathnameAt_eq (job : CString) (getPath : Bool) :
    (jobidUniquePathnameAt (.ofString job.bytes) getPath ⟨true, true⟩ >>= UniquePathname.result) =
      jobidUniquePathname job.bytes getPath := by
  rw [jobidUniquePathname]
  cases h : afterLast (ch '/') job.bytes with
  | none =>
    rw [jobidUniquePathnameAt_of_notMem fun hc => Option.some_ne_none _ ((if_pos hc).symm.trans h)]
    rfl
  | some u =>
    obtain ⟨-, -, -, hnul⟩ := split_of_afterLast h
    rw [jobidUniquePathnameAt_of_afterLast h]
    dsimp only
    cases getPath with
    | false =>
      rw [if_neg (by decide), if_pos rfl, if_neg (fun h => Bool.false_ne_true h.1), Exec.ok_bind]
      exact Block.text_ofString hnul
    | true =>
      rw [if_neg (by decide), if_neg (by decide), if_neg (by decide)]
      rcases Nat.lt_or_ge u.length 10 with hlen | hlen
      · rw [write_of_lt hlen, if_pos ⟨rfl, hlen⟩]
        rfl
      · obtain ⟨b, hb, -⟩ := text_of_write hlen hnul
        rw [hb, if_neg fun h => absurd hlen (Nat.not_le.2 h.2)]
        exact Block.text_ofString hnul

/-! ## When it is safe -/

/-- The function is safe exactly when no path is asked for or there are enough characters
    behind the last slash, if there is one. -/
theorem safePathname_iff (job : CString) (getPath : Bool) : SafePathname job getPath ↔
    (getPath = true → ∀ u, afterLast (ch '/') job.bytes = some u → 10 ≤ u.length) := by
  constructor
  · rintro hsafe rfl u hu
    obtain ⟨r, hr, -⟩ := hsafe ⟨true, true⟩
    rw [jobidUniquePathnameAt_of_afterLast hu] at hr
    by_contra hlen
    rw [write_of_lt (Nat.lt_of_not_le hlen)] at hr
    cases hr
  · intro hlong room
    by_cases hslash : ch '/' ∈ job.bytes
    · obtain ⟨u, hu⟩ : ∃ u, afterLast (ch '/') job.bytes = some u := ⟨_, if_pos hslash⟩
      obtain ⟨r, hr, hret, hleft⟩ := leaves_of_afterLast room hu fun h => hlong h u hu
      refine ⟨r, hr, iff_of_false hret (not_not_intro hslash), fun u' hu' => ?_⟩
      obtain rfl := Option.some.inj (hu.symm.trans hu')
      exact hleft
    · rw [jobidUniquePathnameAt_of_notMem hslash]
      refine ⟨_, rfl, iff_of_true rfl hslash, fun u hu => absurd ?_ hslash⟩
      obtain ⟨p, hjob⟩ := exists_of_afterLast hu
      rw [hjob]
      exact List.mem_append_right p List.mem_cons_self

/-- An identifier whose last part has only three characters. -/
theorem not_safePathname_short :
    jobidUniquePathnameAt (.ofString (ascii "https://lb/job")) true ⟨true, true⟩ =
        .error .fault ∧
      ¬SafePathname ⟨ascii "https://lb/job", by decide⟩ true := by
  have hfault : jobidUniquePathnameAt (.ofString (ascii "https://lb/job")) true ⟨true, true⟩ =
      .error .fault := rfl
  refine ⟨hfault, fun h => ?_⟩
  obtain ⟨r, hr, -⟩ := h ⟨true, true⟩
  cases hfault.symm.trans hr

/-- The registration of a job leaves the copy exactly when there is memory for it and there
    are not enough characters. -/
theorem gliteJppsbeRegisterJob_eq_fault {config : Config} {md5 : Bytes → Bytes}
    {o : RegisterOutcome} {job owner : Bytes} {s : RegisterState} :
    gliteJppsbeRegisterJob config md5 o job owner s = .error .fault ↔
      o.pathname = true ∧ ∃ u, afterLast (ch '/') job = some u ∧ u.length < 10 := by
  cases hu : afterLast (ch '/') job with
  | none =>
    rw [gliteJppsbeRegisterJob, jobidUniquePathname, hu]
    refine iff_of_false (by rintro ⟨⟩) ?_
    rintro ⟨-, u, ⟨⟩, -⟩
  | some u =>
    have hju : jobidUniquePathname job true =
        if true = true ∧ u.length < 10 then .error .fault else .ok u := by
      rw [jobidUniquePathname, hu]
    by_cases hlen : u.length < 10
    · rw [if_pos ⟨rfl, hlen⟩] at hju
      rw [gliteJppsbeRegisterJob, hju]
      cases o.pathname with
      | false => exact iff_of_false (by rintro ⟨⟩) fun h => Bool.false_ne_true h.1
      | true => exact iff_of_true rfl ⟨rfl, u, rfl, hlen⟩
    · rw [if_neg fun h => hlen h.2] at hju
      obtain ⟨s', ret, h⟩ := @exists_gliteJppsbeRegisterJob config md5 o job owner u s hju
      rw [h]
      refine iff_of_false (by rintro ⟨⟩) ?_
      rintro ⟨-, u', hu', hlen'⟩
      exact hlen (Option.some.inj hu' ▸ hlen')

end JobProvenance
