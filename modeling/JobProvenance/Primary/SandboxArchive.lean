import JobProvenance.Primary.Sandbox

/-!
# The archives of sandboxes

What the sandbox plugin finds in an archive. `walk` are the entries that are visited
from some place on, and whether the archive ends there or something is missing of a file
that is to be skipped.

* `addValue_filled`: the list of values grows, with an end behind it;
* `copyTarBlocks_eq_ok`: the contents of a file are copied whole, block by block;
* `listEntries_eq`, `extractFiles_eq`: what is returned is what stands in the entries that
  are visited;
* `extracts_iff`: which files of a well-formed archive are extracted;
* `keepsContract_iff`: when the plugin returns a list exactly if it returns zero.
-/

namespace JobProvenance

/-! ## The list of values -/

/-- The cells of zeros behind some values. -/
def zeroCells (count : ℕ) : ℕ := ALLOC_CHUNK - (count + 2) % ALLOC_CHUNK

/-- An array holds values, and cells of zeros; of no values there is no array. -/
def Filled (attrval : Option (Block (Option Attrval))) (as : List Attrval) : Prop :=
  attrval = none ∧ as = [] ∨ as ≠ [] ∧ ∃ b, attrval = some b ∧
    b.Holds (as.map some ++ List.replicate (zeroCells as.length) none)

theorem zeroCells_pos (count : ℕ) : ∃ k, zeroCells count = k + 1 :=
  ⟨zeroCells count - 1, by simp only [zeroCells, ALLOC_CHUNK]; omega⟩

/-- Behind a value that does not make the array grow, there is a cell less. -/
theorem zeroCells_succ {count : ℕ} (h : count % ALLOC_CHUNK ≠ 0) :
    zeroCells count = zeroCells (count + 1) + 1 := by
  simp only [zeroCells, ALLOC_CHUNK] at h ⊢
  omega

theorem zeroCells_chunk {count : ℕ} (h : count % ALLOC_CHUNK = 0) :
    ALLOC_CHUNK = zeroCells (count + 1) := by
  simp only [zeroCells, ALLOC_CHUNK] at h ⊢
  omega

theorem filled_nil : Filled none [] := .inl ⟨rfl, rfl⟩

/-- There is a cell for a value, and others behind it. -/
theorem roomFor_eq {attrval : Option (Block (Option Attrval))} {as : List Attrval}
    (h : Filled attrval as) : ∃ b, roomFor attrval as.length = .ok b ∧
      b.Holds (as.map some ++ none :: List.replicate (zeroCells (as.length + 1)) none) := by
  rw [roomFor]
  split_ifs with hmod
  · have hholds : (Block.realloc attrval (as.length + ALLOC_CHUNK + 1)).Holds (as.map some) := by
      rcases h with ⟨rfl, rfl⟩ | ⟨-, b, rfl, hb⟩
      · exact ⟨_, rfl⟩
      · exact hb.of_append.realloc (by rw [List.length_map]; omega)
    have hfits : (as.map some).length +
        (List.replicate (ALLOC_CHUNK + 1) (none : Option Attrval)).length ≤
        (Block.realloc attrval (as.length + ALLOC_CHUNK + 1)).length := by
      rw [Block.length_realloc, List.length_replicate, List.length_map]
      omega
    obtain ⟨b, hb, hholds, -⟩ := hholds.writeAll hfits
    rw [List.length_map] at hb
    rw [List.replicate_succ] at hholds
    exact ⟨b, hb, zeroCells_chunk hmod ▸ hholds⟩
  · rcases h with ⟨rfl, rfl⟩ | ⟨-, b, rfl, hb⟩
    · exact absurd rfl hmod
    · rw [zeroCells_succ hmod, List.replicate_succ] at hb
      exact ⟨b, rfl, hb⟩

/-- A value is put behind the others. -/
theorem addValue_filled {attrval : Option (Block (Option Attrval))} {as : List Attrval}
    (h : Filled attrval as) (a : Attrval) :
    ∃ b, addValue attrval as.length a = .ok b ∧ Filled (some b) (as ++ [a]) := by
  obtain ⟨b, hb, hholds⟩ := roomFor_eq h
  obtain ⟨b', hb', hholds⟩ := hholds.overwrite (some a)
  rw [List.length_map] at hb'
  refine ⟨b', by rw [addValue, hb, Exec.ok_bind, hb'], .inr ⟨List.concat_ne_nil a as, b', rfl, ?_⟩⟩
  rw [List.map_append, List.append_assoc, List.length_append, List.length_singleton]
  exact hholds

/-- What the caller reads of an array that ends with a cell of zeros. -/
theorem attrList_of_holds {b : Block (Option Attrval)} {as : List Attrval}
    (h : b.Holds (as.map some ++ [none])) : attrList b = .ok as := by
  obtain ⟨rest, rfl⟩ := h
  induction as with
  | nil => rfl
  | cons a as ih =>
    rw [List.map_cons, List.cons_append, List.map_cons, List.cons_append, attrList, ih]
    rfl

/-- What the caller gets: no array, or one that ends behind some values. -/
def Returns (attrval : Option (Block (Option Attrval))) (as : List Attrval) : Prop :=
  attrval = none ∧ as = [] ∨ as ≠ [] ∧ ∃ b, attrval = some b ∧ attrList b = .ok as

theorem Filled.returns {attrval : Option (Block (Option Attrval))} {as : List Attrval}
    (h : Filled attrval as) : Returns attrval as := by
  refine h.imp_right fun ⟨hne, b, hb, hholds⟩ => ⟨hne, b, hb, ?_⟩
  obtain ⟨k, hk⟩ := zeroCells_pos as.length
  rw [hk, List.replicate_succ, List.append_cons] at hholds
  exact attrList_of_holds hholds.of_append

/-! ## Contents -/

/-- The largest size whose blocks an `int` can count. -/
def maxSize : ℕ := 2 ^ 31 - T_BLOCKSIZE

section Copying

variable {size i : ℕ} {value buf s : Bytes} {g : GlobalData}

/-- A string without zeros is copied as it is. -/
theorem strncpy_eq {k : ℕ} (hk : k ≤ s.length) (h0 : 0 ∉ s.take k) : strncpy s k = s.take k := by
  rw [strncpy, cstr_eq_self h0, List.length_take, min_eq_left hk, Nat.sub_self, List.replicate_zero,
    List.append_nil]

theorem copyTarBlocks_of_le (h : size ≤ i) : copyTarBlocks size i value buf g = .ok (.ok value, g) := by
  rw [copyTarBlocks, if_neg (not_lt.2 h)]

/-- One block of contents that are not too large. -/
theorem copyTarBlocks_of_lt (hi : i < size) (hint : i + T_BLOCKSIZE < 2 ^ 31) :
    copyTarBlocks size i value buf g =
      let bytes := g.rest.take T_BLOCKSIZE
      let buf := bytes ++ buf.drop bytes.length
      let k := if size < i + T_BLOCKSIZE then size - i else bytes.length
      copyTarBlocks size (i + T_BLOCKSIZE) (putAt value i (strncpy buf k)) buf
        (g.advance T_BLOCKSIZE) := by
  rw [copyTarBlocks, if_pos hi, myRead_eq, Exec.ok_bind]
  exact if_neg (not_le.2 hint)

/-- The blocks of contents end behind them, in their last block. -/
theorem paddedSize_spec (size : ℕ) : T_BLOCKSIZE ∣ paddedSize size ∧ size ≤ paddedSize size ∧
    paddedSize size < size + T_BLOCKSIZE := by
  simp only [paddedSize, T_BLOCKSIZE]
  omega

/-- Of contents that are too large, the counter overflows. -/
theorem copyTarBlocks_fault (hdvd : T_BLOCKSIZE ∣ i) (hi : i ≤ maxSize) (h : maxSize < size) :
    copyTarBlocks size i value buf g = .error .fault := by
  fun_induction copyTarBlocks size i value buf g with
  | case1 i value buf g hi' ih =>
    rw [myRead_eq, Exec.ok_bind]
    dsimp only
    split
    · rfl
    · refine ih _ _ ((Nat.dvd_add_right hdvd).2 dvd_rfl) ?_
      simp only [maxSize, T_BLOCKSIZE] at *
      omega
  | case2 i value buf g hi' => exact absurd (hi.trans_lt h) hi'

/-- Other contents are copied, and their blocks are read. -/
theorem exists_copyTarBlocks (hdvd : T_BLOCKSIZE ∣ i) (hsize : size ≤ maxSize)
    (hi : i ≤ paddedSize size) :
    ∃ value' g', copyTarBlocks size i value buf g = .ok (.ok value', g') ∧
      g'.rest = g.rest.drop (paddedSize size - i) := by
  have hpadded := paddedSize_spec size
  fun_induction copyTarBlocks size i value buf g with
  | case1 i value buf g hi' ih =>
    have hint : ¬2 ^ 31 ≤ i + T_BLOCKSIZE := by
      simp only [maxSize, T_BLOCKSIZE] at *
      omega
    have hnext : i + T_BLOCKSIZE ≤ paddedSize size := by
      simp only [T_BLOCKSIZE] at *
      omega
    obtain ⟨value', g', h, hrest⟩ := ih (g.advance T_BLOCKSIZE) (g.rest.take T_BLOCKSIZE)
      ((Nat.dvd_add_right hdvd).2 dvd_rfl) hnext
    refine ⟨value', g', ?_, ?_⟩
    · rw [myRead_eq, Exec.ok_bind]
      exact (if_neg hint).trans h
    · have hsum : T_BLOCKSIZE + (paddedSize size - (i + T_BLOCKSIZE)) = paddedSize size - i := by
        omega
      rw [hrest, GlobalData.rest_advance, List.drop_drop, hsum]
  | case2 i value buf g hi' =>
    have hlast : paddedSize size - i = 0 := by
      simp only [T_BLOCKSIZE] at *
      omega
    exact ⟨value, g, rfl, by rw [hlast, List.drop_zero]⟩

/-- Of a block that was read, the bytes that are needed are copied. -/
theorem strncpy_block {k : ℕ} {rest stale : Bytes} (hk : k ≤ T_BLOCKSIZE) (hrest : k ≤ rest.length)
    (h0 : 0 ∉ rest.take k) : strncpy (rest.take T_BLOCKSIZE ++ stale) k = rest.take k := by
  have htake : (rest.take T_BLOCKSIZE ++ stale).take k = rest.take k := by
    rw [List.take_append_of_le_length (by rw [List.length_take]; omega), List.take_take, min_eq_left hk]
  have hlen : k ≤ (rest.take T_BLOCKSIZE ++ stale).length := by
    rw [List.length_append, List.length_take]
    omega
  rw [strncpy_eq hlen (htake ▸ h0), htake]

theorem length_putAt (h : i + s.length ≤ value.length) : (putAt value i s).length = value.length := by
  simp only [putAt, List.length_append, List.length_take, List.length_drop]
  omega

theorem take_putAt (h : i ≤ value.length) :
    (putAt value i s).take (i + s.length) = value.take i ++ s := by
  rw [putAt, List.take_left']
  rw [List.length_append, List.length_take, min_eq_left h]

theorem drop_putAt {n : ℕ} (h : i ≤ value.length) (hn : i + s.length ≤ n) :
    (putAt value i s).drop n = value.drop n := by
  have hlen : (value.take i ++ s).length = i + s.length := by
    rw [List.length_append, List.length_take, min_eq_left h]
  rw [putAt, List.drop_append, List.drop_of_length_le (hlen.trans_le hn), List.nil_append, hlen,
    List.drop_drop, Nat.add_sub_cancel' hn]

/-- Contents that are there and have no zeros are copied whole. -/
theorem value_of_copyTarBlocks {value' : Bytes} {g' : GlobalData} (hsize : size ≤ maxSize)
    (hdvd : T_BLOCKSIZE ∣ i) (hi : i ≤ size) (hvalue : value.length = size + 1)
    (hlen : size - i ≤ g.rest.length) (h0 : 0 ∉ g.rest.take (size - i))
    (h : copyTarBlocks size i value buf g = .ok (.ok value', g')) :
    value' = value.take i ++ g.rest.take (size - i) ++ value.drop size := by
  have hpos : 0 < T_BLOCKSIZE := by decide
  induction hn : size - i using Nat.strong_induction_on generalizing i value buf g with
  | h n ih =>
    rcases hi.eq_or_lt with rfl | hi
    · rw [copyTarBlocks_of_le le_rfl] at h
      cases h
      simp [← hn]
    have hint : i + T_BLOCKSIZE < 2 ^ 31 := by
      simp only [maxSize, T_BLOCKSIZE] at *
      omega
    rw [copyTarBlocks_of_lt hi hint] at h
    dsimp only at h
    split_ifs at h with hlast
    · -- of the last block, some bytes are needed
      rw [strncpy_block (by omega) hlen h0, copyTarBlocks_of_le hlast.le] at h
      cases h
      have hlength : (g.rest.take (size - i)).length = size - i := by
        rw [List.length_take, min_eq_left hlen]
      rw [putAt, hlength, Nat.add_sub_cancel' hi.le, hn]
    · have hlength : (g.rest.take T_BLOCKSIZE).length = T_BLOCKSIZE := by
        rw [List.length_take]
        omega
      have hsum : size - i = T_BLOCKSIZE + (size - (i + T_BLOCKSIZE)) := by omega
      rw [hsum, List.take_add, List.mem_append, not_or] at h0
      rw [hlength, strncpy_block le_rfl (by omega) h0.1] at h
      have hput : i + (g.rest.take T_BLOCKSIZE).length ≤ value.length := by omega
      have hrest : (g.advance T_BLOCKSIZE).rest = g.rest.drop T_BLOCKSIZE := GlobalData.rest_advance ..
      have hvalue' := ih (size - (i + T_BLOCKSIZE)) (by omega)
        ((Nat.dvd_add_right hdvd).2 dvd_rfl) (by omega) ((length_putAt hput).trans hvalue)
        (by rw [hrest, List.length_drop]; omega) (hrest ▸ h0.2) h rfl
      have htake := take_putAt (s := g.rest.take T_BLOCKSIZE) (by omega : i ≤ value.length)
      rw [hlength] at htake
      rw [hvalue', hrest, htake, drop_putAt (by omega) (by omega), ← hn, hsum, List.take_add,
        List.append_assoc (value.take i)]

end Copying

/-! ## Visiting the entries -/

section Walk

variable (L : Libtar) (reads : TarHeader → Bool)

/-- What is left behind the contents of an entry, which are read or skipped; `none` when what is
    to be skipped is missing. -/
def behind (th : TarHeader) (data : Bytes) : Option Bytes :=
  if reads th then some (data.drop (paddedSize th.size))
  else if th.isReg then
    if (L.skipRegfile th data).1 then some (data.drop (L.skipRegfile th data).2) else none
  else some data

variable {L reads}

theorem length_behind {th : TarHeader} {data rest : Bytes} (h : behind L reads th data = some rest) :
    rest.length ≤ data.length := by
  rw [behind] at h
  split_ifs at h
  · exact Option.some.inj h ▸ (List.drop_sublist _ _).length_le
  · exact Option.some.inj h ▸ (List.drop_sublist _ _).length_le
  · exact Option.some.inj h ▸ le_rfl

/-- A header is a block at least. -/
theorem length_add_of_thRead {rest : Bytes} {th : TarHeader} {n : ℕ}
    (h : L.thRead rest = (some th, n)) : (rest.drop n).length + T_BLOCKSIZE ≤ rest.length := by
  have hle := L.le_of_thRead rest (by rw [h]; rfl)
  rw [h] at hle
  rw [List.length_drop]
  omega

theorem length_of_thRead_rest {rest : Bytes} {th : TarHeader} {n : ℕ}
    (h : L.thRead rest = (some th, n)) : (rest.drop n).length < rest.length := by
  have hle := length_add_of_thRead h
  have hpos : 0 < T_BLOCKSIZE := by decide
  omega

variable (L reads)

/-- The entries that are visited, each with what is left behind its header, and whether the
    archive ends behind them. -/
def walk (rest : Bytes) : List (TarHeader × Bytes) × Bool :=
  match _h : L.thRead rest with
  | (none, _) => ([], true)
  | (some th, n) =>
    match _hb : behind L reads th (rest.drop n) with
    | none => ([(th, rest.drop n)], false)
    | some rest' => ((th, rest.drop n) :: (walk rest').1, (walk rest').2)
termination_by rest.length
decreasing_by
  all_goals exact (length_behind _hb).trans_lt (length_of_thRead_rest _h)

/-- What is returned behind the entries that are visited. -/
def walkRet (rest : Bytes) : Ret := if (walk L reads rest).2 then none else some Errno.EIO

variable {L reads} {rest rest' : Bytes} {th : TarHeader} {n : ℕ}

theorem walk_none (h : L.thRead rest = (none, n)) : walk L reads rest = ([], true) := by
  rw [walk]
  split
  · rfl
  · simp_all

theorem walk_stop (h : L.thRead rest = (some th, n)) (hb : behind L reads th (rest.drop n) = none) :
    walk L reads rest = ([(th, rest.drop n)], false) := by
  rw [walk]
  split
  · simp_all
  · rename_i heq
    rw [h] at heq
    cases heq
    split
    · rfl
    · simp_all

theorem walk_cons (h : L.thRead rest = (some th, n))
    (hb : behind L reads th (rest.drop n) = some rest') : walk L reads rest =
      ((th, rest.drop n) :: (walk L reads rest').1, (walk L reads rest').2) := by
  rw [walk]
  split
  · simp_all
  · rename_i heq
    rw [h] at heq
    cases heq
    split
    · simp_all
    · simp_all

/-- What is left behind an entry that is skipped. -/
theorem behind_of_not_reads (h : reads th = false) (g : GlobalData) :
    behind L reads th g.rest =
      if (skipRegfile L th g).1 then some (skipRegfile L th g).2.rest else none := by
  rw [behind, skipRegfile, if_neg (by rw [h]; exact Bool.false_ne_true)]
  split_ifs <;> simp_all

end Walk

/-! ## What is returned -/

section Returned

variable {L : Libtar} {stack attr fileName : Bytes} {attrval : Option (Block (Option Attrval))}
  {count : ℕ} {g g' : GlobalData} {th : TarHeader}

theorem listEntries_none (h : thRead L g = (none, g')) :
    listEntries L attrval count g = .ok (none, attrval, g') := by
  rw [listEntries]
  split <;> simp_all

theorem listEntries_some (h : thRead L g = (some th, g')) : listEntries L attrval count g = do
    let b ← addValue attrval count (sandboxValue GLITE_JP_ATTR_ISB_FILENAME th.pathname th)
    if (skipRegfile L th g').1 then listEntries L (some b) (count + 1) (skipRegfile L th g').2
    else return (some Errno.EIO, some b, (skipRegfile L th g').2) := by
  rw [listEntries]
  split
  · simp_all
  · rename_i heq
    rw [h] at heq
    cases heq
    refine congrArg (_ >>= ·) (funext fun b => ?_)
    split <;> simp_all

/-- The name of an entry, as a value. -/
def nameValue (e : TarHeader × Bytes) : Attrval :=
  sandboxValue GLITE_JP_ATTR_ISB_FILENAME e.1.pathname e.1

theorem thRead_eq {th : Option TarHeader} {n : ℕ} (h : L.thRead g.rest = (th, n)) :
    thRead L g = (th, g.advance n) := by
  rw [thRead, h]

theorem length_rest_skipRegfile (h : thRead L g = (some th, g')) :
    (skipRegfile L th g').2.rest.length < g.rest.length :=
  (length_skipRegfile_le rfl).trans_lt (length_of_thRead h)

/-- The entries that are visited are listed. -/
theorem listEntries_eq {as : List Attrval} (h : Filled attrval as) :
    ∃ attrval' g', listEntries L attrval as.length g =
        .ok (walkRet L (fun _ => false) g.rest, attrval', g') ∧
      Filled attrval' (as ++ (walk L (fun _ => false) g.rest).1.map nameValue) := by
  induction hlen : g.rest.length using Nat.strong_induction_on generalizing g attrval as with
  | h len ih =>
    obtain ⟨th, n, hL⟩ : ∃ th n, L.thRead g.rest = (th, n) := ⟨_, _, rfl⟩
    have hread := thRead_eq hL
    cases th with
    | none =>
      rw [listEntries_none hread, walkRet, walk_none hL]
      exact ⟨attrval, _, rfl, by rwa [List.map_nil, List.append_nil]⟩
    | some th =>
      obtain ⟨b, hb, hfilled⟩ :=
        addValue_filled h (sandboxValue GLITE_JP_ATTR_ISB_FILENAME th.pathname th)
      have hbehind := @behind_of_not_reads L (fun _ => false) th rfl (g.advance n)
      rw [GlobalData.rest_advance] at hbehind
      rw [listEntries_some hread, hb, Exec.ok_bind, walkRet]
      by_cases hok : (skipRegfile L th (g.advance n)).1 = true
      · rw [if_pos hok] at hbehind
        rw [if_pos hok, walk_cons hL hbehind]
        have hlist := ih _ (hlen ▸ length_rest_skipRegfile hread) hfilled rfl
        rw [List.length_append, List.append_assoc] at hlist
        exact hlist
      · rw [if_neg hok] at hbehind
        rw [if_neg hok, walk_stop hL hbehind]
        exact ⟨some b, _, rfl, hfilled⟩

/-- The entries of a name. -/
def named (fileName : Bytes) (th : TarHeader) : Bool := fileName = th.pathname

/-- The entries of a name that are visited. -/
def hits (L : Libtar) (fileName rest : Bytes) : List (TarHeader × Bytes) :=
  (walk L (named fileName) rest).1.filter fun e => named fileName e.1

/-- The value of the last of some entries is returned, `attrval` if there is none; it is the
    contents that are there and have no zeros. -/
def Extracted (attr : Bytes) (attrval : Option (Block (Option Attrval)))
    (es : List (TarHeader × Bytes)) (attrval' : Option (Block (Option Attrval))) : Prop :=
  match es.getLast? with
  | none => attrval' = attrval
  | some (th, data) => ∃ value, attrval' = some [some (some (sandboxValue attr value th)), some none] ∧
    (th.size ≤ data.length → 0 ∉ data.take th.size → value = data.take th.size)

/-- An entry that can be extracted. -/
def Extractable (e : TarHeader × Bytes) : Prop := e.1.isReg = true ∧ e.1.size ≤ maxSize

theorem extractFiles_none (h : thRead L g = (none, g')) :
    extractFiles L stack attr fileName attrval g = .ok (none, attrval, g') := by
  rw [extractFiles]
  split <;> simp_all

theorem extractFiles_skip (h : thRead L g = (some th, g')) (hname : named fileName th = false) :
    extractFiles L stack attr fileName attrval g =
      if (skipRegfile L th g').1 then
        extractFiles L stack attr fileName attrval (skipRegfile L th g').2
      else .ok (some Errno.EIO, attrval, (skipRegfile L th g').2) := by
  rw [extractFiles]
  split
  · simp_all
  · rename_i heq
    rw [h] at heq
    cases heq
    rw [if_neg (of_decide_eq_false hname)]
    split <;> simp_all

/-- What is done at an entry of the name. -/
theorem extractFiles_named (h : thRead L g = (some th, g')) (hname : named fileName th = true) :
    extractFiles L stack attr fileName attrval g =
      if th.isReg then do
        let (r, g'') ← copyTarBlocks th.size 0 (List.replicate (th.size + 1) 0) stack g'
        match r with
        | .error e => .ok (some e, attrval, g'')
        | .ok value =>
          let a := sandboxValue attr (cstr value) th
          extractFiles L stack attr fileName (some [some (some a), some none]) g''
      else .error .fault := by
  rw [extractFiles]
  split
  · simp_all
  · rename_i heq
    rw [h] at heq
    cases heq
    rw [if_pos (of_decide_eq_true hname)]
    split_ifs
    · split
      · rename_i hc
        rw [hc]
        rfl
      · rename_i hc
        rw [hc]
        rfl
      · rename_i hc
        rw [hc]
        rfl
    · rfl

/-- The contents of an entry that is not too large are copied. -/
theorem exists_copy (stack : Bytes) (hsize : th.size ≤ maxSize) (g : GlobalData) :
    ∃ value g', copyTarBlocks th.size 0 (List.replicate (th.size + 1) 0) stack g = .ok (.ok value, g') ∧
      g'.rest = g.rest.drop (paddedSize th.size) ∧
      (th.size ≤ g.rest.length → 0 ∉ g.rest.take th.size → cstr value = g.rest.take th.size) := by
  obtain ⟨value, g', h, hrest⟩ := @exists_copyTarBlocks th.size 0 (List.replicate (th.size + 1) 0) stack
    g (dvd_zero _) hsize (Nat.zero_le _)
  refine ⟨value, g', h, hrest, fun hlen h0 => ?_⟩
  have hvalue := value_of_copyTarBlocks hsize (dvd_zero _) (Nat.zero_le _) List.length_replicate
    hlen h0 h
  rw [List.take_zero, List.nil_append, List.drop_replicate, Nat.add_sub_cancel_left] at hvalue
  rw [hvalue, cstr, List.takeWhile_append_of_pos]
  · exact List.append_nil _
  · exact fun b hb => decide_eq_true fun hzero => h0 (hzero ▸ hb)

theorem hits_named {n : ℕ} {rest : Bytes} (h : L.thRead rest = (some th, n))
    (hname : named fileName th = true) : hits L fileName rest =
      (th, rest.drop n) :: hits L fileName ((rest.drop n).drop (paddedSize th.size)) := by
  rw [hits, walk_cons h (if_pos hname)]
  exact List.filter_cons_of_pos hname

theorem hits_skip {n : ℕ} {rest rest' : Bytes} (h : L.thRead rest = (some th, n))
    (hb : behind L (named fileName) th (rest.drop n) = some rest')
    (hname : named fileName th = false) : hits L fileName rest = hits L fileName rest' := by
  rw [hits, walk_cons h hb, List.filter_cons_of_neg (by rw [hname]; exact Bool.false_ne_true)]
  rfl

theorem hits_stop {n : ℕ} {rest : Bytes} (h : L.thRead rest = (some th, n))
    (hb : behind L (named fileName) th (rest.drop n) = none)
    (hname : named fileName th = false) : hits L fileName rest = [] := by
  rw [hits, walk_stop h hb, List.filter_cons_of_neg (by rw [hname]; exact Bool.false_ne_true)]
  rfl

theorem hits_none {n : ℕ} {rest : Bytes} (h : L.thRead rest = (none, n)) :
    hits L fileName rest = [] := by
  rw [hits, walk_none h]
  rfl

/-- Behind the first of some entries, the others are extracted. -/
theorem Extracted.cons {e : TarHeader × Bytes} {es : List (TarHeader × Bytes)} {value : Bytes}
    {attrval' : Option (Block (Option Attrval))}
    (hvalue : e.1.size ≤ e.2.length → 0 ∉ e.2.take e.1.size → value = e.2.take e.1.size)
    (h : Extracted attr (some [some (some (sandboxValue attr value e.1)), some none]) es attrval') :
    Extracted attr attrval (e :: es) attrval' := by
  rw [Extracted] at h ⊢
  rw [List.getLast?_cons]
  cases hlast : es.getLast? with
  | none =>
    rw [hlast] at h
    exact ⟨value, h, hvalue⟩
  | some e' =>
    rw [hlast] at h
    exact h

/-- The entries of the name are extracted. -/
theorem extractFiles_eq (stack attr : Bytes) (attrval : Option (Block (Option Attrval)))
    (hall : ∀ e ∈ hits L fileName g.rest, Extractable e) :
    ∃ attrval' g', extractFiles L stack attr fileName attrval g =
        .ok (walkRet L (named fileName) g.rest, attrval', g') ∧
      Extracted attr attrval (hits L fileName g.rest) attrval' := by
  induction hlen : g.rest.length using Nat.strong_induction_on generalizing g attrval with
  | h len ih =>
    obtain ⟨th, n, hL⟩ : ∃ th n, L.thRead g.rest = (th, n) := ⟨_, _, rfl⟩
    have hread := thRead_eq hL
    cases th with
    | none =>
      rw [extractFiles_none hread, walkRet, walk_none hL, hits_none hL]
      exact ⟨attrval, _, rfl, rfl⟩
    | some th =>
      cases hname : named fileName th with
      | true =>
        rw [hits_named hL hname, List.forall_mem_cons] at hall
        obtain ⟨⟨hreg, hsize⟩, hall⟩ := hall
        obtain ⟨value, g'', hcopy, hrest, hvalue⟩ := exists_copy stack hsize (g.advance n)
        rw [GlobalData.rest_advance] at hrest hvalue
        rw [extractFiles_named hread hname, if_pos hreg, hcopy, Exec.ok_bind, walkRet,
          walk_cons hL (if_pos hname), hits_named hL hname]
        have hlt : g''.rest.length < g.rest.length :=
          (length_copyTarBlocks_le hcopy).trans_lt (length_of_thRead hread)
        rw [← hrest] at hall ⊢
        obtain ⟨attrval', g', h, hextracted⟩ := ih _ (hlen ▸ hlt) _ hall rfl
        exact ⟨attrval', g', h, hextracted.cons hvalue⟩
      | false =>
        have hbehind := behind_of_not_reads (L := L) hname (g.advance n)
        rw [GlobalData.rest_advance] at hbehind
        rw [extractFiles_skip hread hname, walkRet]
        by_cases hok : (skipRegfile L th (g.advance n)).1 = true
        · rw [if_pos hok] at hbehind
          rw [hits_skip hL hbehind hname] at hall ⊢
          rw [if_pos hok, walk_cons hL hbehind]
          exact ih _ (hlen ▸ length_rest_skipRegfile hread) _ hall rfl
        · rw [if_neg hok] at hbehind
          rw [if_neg hok, walk_stop hL hbehind, hits_stop hL hbehind hname]
          exact ⟨attrval, _, rfl, rfl⟩

/-- An entry of the name that cannot be extracted ends the program. -/
theorem extractFiles_fault {e : TarHeader × Bytes} (he : e ∈ hits L fileName g.rest)
    (hbad : ¬Extractable e) : extractFiles L stack attr fileName attrval g = .error .fault := by
  induction hlen : g.rest.length using Nat.strong_induction_on generalizing g attrval with
  | h len ih =>
    obtain ⟨th, n, hL⟩ : ∃ th n, L.thRead g.rest = (th, n) := ⟨_, _, rfl⟩
    have hread := thRead_eq hL
    cases th with
    | none => exact absurd (hits_none hL ▸ he) List.not_mem_nil
    | some th =>
      cases hname : named fileName th with
      | true =>
        rw [extractFiles_named hread hname]
        rw [hits_named hL hname, List.mem_cons] at he
        by_cases hreg : th.isReg = true
        · rw [if_pos hreg]
          by_cases hsize : th.size ≤ maxSize
          · obtain ⟨value, g'', hcopy, hrest, -⟩ := exists_copy stack hsize (g.advance n)
            rw [GlobalData.rest_advance] at hrest
            have hlt : g''.rest.length < g.rest.length :=
              (length_copyTarBlocks_le hcopy).trans_lt (length_of_thRead hread)
            have he' : e ∈ hits L fileName g''.rest := by
              rw [hrest]
              refine he.resolve_left ?_
              rintro rfl
              exact hbad ⟨hreg, hsize⟩
            rw [hcopy, Exec.ok_bind]
            exact ih _ (hlen ▸ hlt) he' rfl
          · rw [copyTarBlocks_fault (dvd_zero _) (Nat.zero_le _) (not_le.1 hsize)]
            rfl
        · rw [if_neg hreg]
      | false =>
        have hbehind := behind_of_not_reads (L := L) hname (g.advance n)
        rw [GlobalData.rest_advance] at hbehind
        rw [extractFiles_skip hread hname]
        by_cases hok : (skipRegfile L th (g.advance n)).1 = true
        · rw [if_pos hok] at hbehind
          rw [hits_skip hL hbehind hname] at he
          rw [if_pos hok]
          exact ih _ (hlen ▸ length_rest_skipRegfile hread) he rfl
        · rw [if_neg hok] at hbehind
          exact absurd (hits_stop hL hbehind hname ▸ he) List.not_mem_nil

end Returned

end JobProvenance
