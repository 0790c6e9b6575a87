import JobProvenance.Lib.Terminated
import JobProvenance.Primary.NullLists

/-!
# Sorting a feed in memory

Before the past is fed, the attributes and the conditions of a feed are sorted: into those
the backend knows and others. They are counted, arrays are allocated for as many, and
filled; what is sent anyway is left out and counted down, and the attributes of the other
conditions are put behind the other attributes, which makes their array grow.

* `Fills`: what an array has while it is filled;
* `exists_foldlM_put`: a pass over what is sorted;
* `exists_foldlM_addMissing`: a pass over the other conditions;
* `exists_splitArrays`: the feed has become what `splitFeed` says when the backend is asked;
* `splitArrays_exact`: its arrays and their counts.
-/

namespace JobProvenance

/-! ## Arrays that are filled -/

section Filling

variable {α : Type}

/-- An array that is filled, as far as it is used, and how many entries it is to have. -/
structure Filling (α : Type) where
  array : Option (Block (Option α))
  used : ℕ
  count : ℕ

namespace Filling

/-- An array for some entries and the terminator; for none, there is no array. -/
def alloc (cnt : ℕ) : Filling α where
  array := if cnt = 0 then none else some (Block.malloc (cnt + 1))
  used := 0
  count := cnt

/-- Writes an entry behind the others. -/
def store (f : Filling α) (x : α) : Exec (Filling α) := do
  let b ← Exec.deref f.array
  let b ← b.write f.used (some x)
  return { f with array := some b, used := f.used + 1 }

/-- Writes a terminator behind the place for the last entry, if there is an array. -/
def clearLast (f : Filling α) : Exec (Filling α) :=
  match f.array with
  | none => .ok f
  | some b => do return { f with array := some (← b.write f.count none) }

/-- Leaves an entry out. -/
def drop (f : Filling α) : Filling α := { f with count := f.count - 1 }

/-- Frees an array without entries. -/
def freeEmpty (f : Filling α) : Filling α :=
  if f.count = 0 then { f with array := none } else f

/-- Writes the terminator, if there is an array. -/
def terminate (f : Filling α) : Exec (Filling α) :=
  match f.array with
  | none => .ok f
  | some b => do return { f with array := some (← b.write f.used none) }

end Filling

/-- What is sorted into two arrays. -/
structure Fillings (α : Type) where
  metas : Filling α
  others : Filling α

/-- Sorts an entry, or leaves it out. -/
def Fillings.put (isMeta dropped : α → Bool) (s : Fillings α) (x : α) : Exec (Fillings α) :=
  if isMeta x then
    if dropped x then .ok { s with metas := s.metas.drop }
    else do return { s with metas := ← s.metas.store x }
  else
    if dropped x then .ok { s with others := s.others.drop }
    else do return { s with others := ← s.others.store x }

/-- Writes a terminator behind the place for the last of the first kind. -/
def Fillings.clearLast (s : Fillings α) : Exec (Fillings α) := do
  return { s with metas := ← s.metas.clearLast }

/-- Counts entries, and allocates arrays for them. -/
def Fillings.alloc (isMeta : α → Bool) (xs : List α) : Fillings α where
  metas := .alloc (xs.countP isMeta)
  others := .alloc (xs.length - xs.countP isMeta)

end Filling

/-! ## The feed -/

/-- The arrays of a feed, with their counts. -/
structure FeedArrays where
  attrs : Strings
  qry : Option (Block (Option QueryRec))
  metaAttr : Strings
  nmetaAttr : ℕ
  otherAttr : Strings
  notherAttr : ℕ
  intOtherAttr : ℕ
  metaQry : Option (Block (Option QueryRec))
  nmetaQry : ℕ
  otherQry : Option (Block (Option QueryRec))
  notherQry : ℕ

/-- Whether an attribute of a list is the one that is looked for. -/
def entryIs (p : Strings) (attr : Bytes) (j : ℕ) : Exec Bool := do
  return decide (strcmp (← readEntry p j) attr = .eq)

/-- Puts an attribute behind the others, unless it is one of the first; the array grows. -/
def addMissing (intOtherAttr : ℕ) (s : Strings × ℕ) (attr : Bytes) : Exec (Strings × ℕ) := do
  if ← (List.range intOtherAttr).anyM (entryIs s.1 attr) then return s
  else
    let b ← (Block.realloc s.1 (s.2 + 2)).write s.2 (some attr)
    return (some b, s.2 + 1)

/-- The attributes the backend is asked for: the owner, and those it knows. -/
def askedAttrs (metaAttr : Strings) (nmetaAttr : ℕ) :
    Exec (Block (Option Bytes)) := do
  let asked ← (Block.calloc (nmetaAttr + 2)).write 0 (some GLITE_JP_ATTR_OWNER)
  match metaAttr with
  | some metaAttr => asked.memcpy 1 metaAttr (nmetaAttr + 1)
  | none => asked.write 1 none

/-- Sorts the attributes and the conditions of a feed: the feed, and the attributes the
    backend is asked for. -/
def splitArrays (f : FeedArrays) : Exec (FeedArrays × Block (Option Bytes)) := do
  let attrs ← (← Exec.deref f.attrs).entries
  let s ← attrs.foldlM (Fillings.put isMetadata sentAnyway) (.alloc isMetadata attrs)
  let metaAttr ← s.metas.freeEmpty.terminate
  let otherAttr ← s.others.freeEmpty.terminate
  let qry ← (← Exec.deref f.qry).entries
  let q ← (Fillings.alloc (fun qr => isMetadata qr.attr) qry).clearLast
  let q ← qry.foldlM (Fillings.put (fun qr => isMetadata qr.attr) fun _ => false) q
  if q.metas.array = none then .error (.errno .EINVAL)
  else
    let metaQry ← q.metas.terminate
    let otherQry ← q.others.terminate
    let conds ← readCounted otherQry.array otherQry.count
    let (other, o) ← (conds.map QueryRec.attr).foldlM (addMissing otherAttr.count)
      (otherAttr.array, otherAttr.count)
    let other ← Filling.terminate ⟨other, o, o⟩
    let asked ← askedAttrs metaAttr.array metaAttr.count
    return ({
      attrs := none
      qry := none
      metaAttr := metaAttr.array
      nmetaAttr := metaAttr.count
      otherAttr := other.array
      notherAttr := o
      intOtherAttr := otherAttr.count
      metaQry := metaQry.array
      nmetaQry := metaQry.count
      otherQry := otherQry.array
      notherQry := otherQry.count }, asked)

/-- Reads what is freed with a feed. -/
def freedEntries (f : FeedArrays) :
    Exec ((List Bytes × List Bytes) × List QueryRec × List QueryRec) := do
  let metaAttr ← readCounted f.metaAttr f.nmetaAttr
  let otherAttr ← readCounted f.otherAttr f.notherAttr
  let metaQry ← readCounted f.metaQry f.nmetaQry
  let otherQry ← readCounted f.otherQry f.notherQry
  return ((metaAttr, otherAttr), metaQry, otherQry)

/-- The arrays of a feed that is sorted, and their counts. -/
structure FeedArrays.Represents (f : FeedArrays) (hf : HistoryFeed) : Prop where
  metaAttr : ListAt f.metaAttr hf.metaAttr
  nmetaAttr : f.nmetaAttr = hf.metaAttr.length
  otherAttr : ListAt f.otherAttr hf.otherAttr
  notherAttr : f.notherAttr = hf.otherAttr.length
  intOtherAttr : f.intOtherAttr = hf.intOtherAttr
  metaQry : ListAt f.metaQry hf.metaQry
  nmetaQry : f.nmetaQry = hf.metaQry.length
  otherQry : ListAt f.otherQry hf.otherQry
  notherQry : f.notherQry = hf.otherQry.length

/-- The arrays of a sorted feed by its attributes and conditions: what the backend knows,
    without the owner; the other attributes, without the job identifier, and behind them
    those of the other conditions; and the conditions of both kinds, all of them in their
    order and counted. -/
structure FeedArrays.SplitOf (f : FeedArrays) (attrs : List Bytes) (qry : List QueryRec) :
    Prop where
  metaAttr : ListAt f.metaAttr (attrs.filter fun a => isMetadata a && a ≠ GLITE_JP_ATTR_OWNER)
  nmetaAttr : f.nmetaAttr =
    (attrs.filter fun a => isMetadata a && a ≠ GLITE_JP_ATTR_OWNER).length
  otherAttr : ∃ others, ListAt f.otherAttr others ∧ f.notherAttr = others.length ∧
    others.take f.intOtherAttr =
      attrs.filter (fun a => !isMetadata a && a ≠ GLITE_JP_ATTR_JOBID) ∧
    ∀ qr ∈ qry, isMetadata qr.attr = false → qr.attr ∈ others
  intOtherAttr : f.intOtherAttr =
    (attrs.filter fun a => !isMetadata a && a ≠ GLITE_JP_ATTR_JOBID).length
  metaQry : ListAt f.metaQry (qry.filter fun qr => isMetadata qr.attr)
  nmetaQry : f.nmetaQry = (qry.filter fun qr => isMetadata qr.attr).length
  otherQry : ListAt f.otherQry (qry.filter fun qr => !isMetadata qr.attr)
  notherQry : f.notherQry = (qry.filter fun qr => !isMetadata qr.attr).length

/-! ## Filling -/

section Fills

variable {α : Type} {f : Filling α} {n d e : ℕ} {xs ys rest : List α} {x : α}

/-- An array for `n` entries has some of them, and others of them were left out. -/
structure Fills (n : ℕ) (f : Filling α) (xs : List α) (d : ℕ) : Prop where
  array : n ≠ 0 → ∃ b, f.array = some b ∧ b.length = n + 1 ∧ b.Holds (xs.map some)
  null : n = 0 → f.array = none
  used : f.used = xs.length
  count : f.count = n - d

theorem fills_alloc (n : ℕ) : Fills n (Filling.alloc n : Filling α) [] 0 where
  array h := ⟨_, if_neg h, Block.length_malloc _, Block.holds_malloc _⟩
  null h := if_pos h
  used := rfl
  count := rfl

namespace Fills

theorem store (h : Fills n f xs d) (hlt : xs.length + d < n) (x : α) :
    ∃ f', f.store x = .ok f' ∧ Fills n f' (xs ++ [x]) d := by
  obtain ⟨b, hb, hlen, hholds⟩ := h.array (by omega)
  obtain ⟨b', hw, hholds', hlen'⟩ := hholds.write (by rw [List.length_map]; omega) (some x)
  rw [List.length_map] at hw
  refine ⟨{ f with array := some b', used := f.used + 1 }, ?_, fun _ => ⟨b', rfl, ?_, ?_⟩, ?_, ?_,
    h.count⟩
  · rw [Filling.store, hb, Exec.deref, Exec.ok_bind, h.used, hw]
    rfl
  · rw [hlen', hlen]
  · rwa [List.map_append]
  · exact fun h0 => absurd h0 (by omega)
  · rw [List.length_append, List.length_singleton, ← h.used]

theorem drop (h : Fills n f xs d) : Fills n f.drop xs (d + 1) where
  array := h.array
  null := h.null
  used := h.used
  count := by rw [Filling.drop, h.count, Nat.sub_sub]

theorem clearLast (h : Fills n f [] 0) : ∃ f', f.clearLast = .ok f' ∧ Fills n f' [] 0 := by
  unfold Filling.clearLast
  by_cases hn : n = 0
  · rw [h.null hn]
    exact ⟨f, rfl, h⟩
  · obtain ⟨b, hb, hlen, -⟩ := h.array hn
    rw [hb]
    have hlt : f.count < b.length := by rw [h.count, hlen]; omega
    refine ⟨{ f with array := some (b.set f.count (some none)) }, ?_, fun _ => ⟨_, rfl, ?_, ?_⟩,
      fun h0 => absurd h0 hn, h.used, h.count⟩
    · simp only [Block.write, if_pos hlt]
      rfl
    · rw [List.length_set, hlen]
    · exact ⟨_, rfl⟩

/-- An array that has all its entries is terminated. -/
theorem exists_terminate (h : Fills n f xs d) (hn : xs.length + d = n) :
    ∃ f', f.terminate = .ok f' ∧ ListAt f'.array xs ∧ f'.count = xs.length := by
  have hcount : f.count = xs.length := by rw [h.count]; omega
  unfold Filling.terminate
  by_cases h0 : n = 0
  · rw [h.null h0]
    refine ⟨f, rfl, ?_, hcount⟩
    rw [h.null h0]
    exact List.length_eq_zero_iff.1 (by omega)
  · obtain ⟨b, hb, hlen, hholds⟩ := h.array h0
    obtain ⟨b', hw, hterm, -⟩ := hholds.terminate (by omega)
    rw [hb]
    refine ⟨{ f with array := some b' }, ?_, hterm, hcount⟩
    simp only [h.used, hw]
    rfl

/-- So is it when it is freed first if all were left out. -/
theorem exists_freeEmpty_terminate (h : Fills n f xs d) (hn : xs.length + d = n) :
    ∃ f', f.freeEmpty.terminate = .ok f' ∧ ListAt f'.array xs ∧ f'.count = xs.length := by
  have hcount : f.count = xs.length := by rw [h.count]; omega
  unfold Filling.freeEmpty
  split_ifs with h0
  · exact ⟨_, rfl, List.length_eq_zero_iff.1 (hcount.symm.trans h0), hcount⟩
  · exact h.exists_terminate hn

end Fills

variable {isMeta dropped : α → Bool} {s : Fillings α} {nm no : ℕ}

/-- A pass over what is sorted fills the arrays. -/
theorem exists_foldlM_put (hm : Fills nm s.metas xs d)
    (hm' : xs.length + d + rest.countP isMeta ≤ nm) (ho : Fills no s.others ys e)
    (ho' : ys.length + e + rest.countP (! isMeta ·) ≤ no) :
    ∃ s', rest.foldlM (Fillings.put isMeta dropped) s = .ok s' ∧
      Fills nm s'.metas (xs ++ rest.filter fun x => isMeta x && !dropped x)
        (d + rest.countP fun x => isMeta x && dropped x) ∧
      Fills no s'.others (ys ++ rest.filter fun x => !isMeta x && !dropped x)
        (e + rest.countP fun x => !isMeta x && dropped x) := by
  induction rest generalizing s xs ys d e with
  | nil => exact ⟨s, rfl, by simpa using hm, by simpa using ho⟩
  | cons x rest ih =>
    rw [List.countP_cons] at hm' ho'
    rw [List.foldlM_cons, Fillings.put]
    cases hx : isMeta x with
    | true =>
      simp only [hx, if_true, Bool.not_true, Bool.false_eq_true, if_false] at hm' ho' ⊢
      cases hd : dropped x with
      | true =>
        have hfills := ih (s := { s with metas := s.metas.drop }) hm.drop (by omega) ho (by omega)
        simp only [List.filter_cons, List.countP_cons, hx, hd] at hfills ⊢
        simpa [Nat.add_assoc, Nat.add_comm] using hfills
      | false =>
        obtain ⟨metas, hstore, hm⟩ := hm.store (by omega) x
        have hfills := ih (s := { s with metas := metas }) hm
          (by rw [List.length_append, List.length_singleton]; omega) ho (by omega)
        simpa [hstore, hx, hd] using hfills
    | false =>
      simp only [hx, Bool.false_eq_true, if_false, Bool.not_false, if_true] at hm' ho' ⊢
      cases hd : dropped x with
      | true =>
        have hfills := ih (s := { s with others := s.others.drop }) hm (by omega) ho.drop (by omega)
        simpa [hx, hd, Nat.add_assoc, Nat.add_comm] using hfills
      | false =>
        obtain ⟨others, hstore, ho⟩ := ho.store (by omega) x
        have hfills := ih (s := { s with others := others }) hm (by omega) ho
          (by rw [List.length_append, List.length_singleton]; omega)
        simpa [hstore, hx, hd] using hfills

/-- What is sorted into arrays that were allocated for it. -/
theorem exists_sorted (hm : Fills (xs.countP isMeta) s.metas [] 0)
    (ho : Fills (xs.length - xs.countP isMeta) s.others [] 0) :
    ∃ s', xs.foldlM (Fillings.put isMeta dropped) s = .ok s' ∧
      Fills (xs.countP isMeta) s'.metas (xs.filter fun x => isMeta x && !dropped x)
        (xs.countP fun x => isMeta x && dropped x) ∧
      Fills (xs.countP (! isMeta ·)) s'.others (xs.filter fun x => !isMeta x && !dropped x)
        (xs.countP fun x => !isMeta x && dropped x) := by
  have hlen : xs.length - xs.countP isMeta = xs.countP (! isMeta ·) := by
    rw [List.length_eq_countP_add_countP isMeta, Nat.add_sub_cancel_left]
    simp only [Bool.not_eq_true, Bool.decide_eq_false]
  rw [hlen] at ho
  have hput := @exists_foldlM_put α 0 0 [] [] xs isMeta dropped s _ _ hm (by simp) ho (by simp)
  simpa using hput

end Fills

/-! ## The attributes of the other conditions -/

section Missing

variable {α : Type} {p : Option (Block (Option α))} {xs : List α} {x : α}

theorem Holding.terminate (h : Holding p xs) :
    ∃ f', Filling.terminate ⟨p, xs.length, xs.length⟩ = .ok f' ∧ ListAt f'.array xs := by
  cases p with
  | none => exact ⟨_, rfl, h⟩
  | some b =>
    obtain ⟨hholds, hlt⟩ := h
    obtain ⟨b', hw, hterm, -⟩ := hholds.terminate hlt
    exact ⟨⟨some b', xs.length, xs.length⟩, by simp only [Filling.terminate, hw]; rfl, hterm⟩

/-- The attributes of conditions that are not among the first are put behind the others. -/
theorem exists_foldlM_addMissing {p : Strings} {asked rest : List Bytes}
    (h : Holding p (asked ++ rest)) (attrs : List Bytes) :
    ∃ p', attrs.foldlM (addMissing asked.length) (p, (asked ++ rest).length) =
        .ok (p', (asked ++ rest ++ attrs.filter (· ∉ asked)).length) ∧
      Holding p' (asked ++ rest ++ attrs.filter (· ∉ asked)) := by
  induction attrs generalizing p rest with
  | nil => exact ⟨p, by rw [List.filter_nil, List.append_nil]; rfl, by simpa using h⟩
  | cons attr attrs ih =>
    have hfound : (List.range asked.length).anyM (entryIs p attr) =
        .ok (decide (attr ∈ asked)) := by
      have hread : ∀ j ∈ List.range asked.length,
          entryIs p attr j = .ok (decide (asked[j]? = some attr)) := fun j hj => by
        have hlt := List.mem_range.1 hj
        have hj' : (asked ++ rest)[j]? = some asked[j] := by
          rw [List.getElem?_append_left hlt, List.getElem?_eq_getElem hlt]
        rw [entryIs, h.readEntry hj', Exec.ok_bind, List.getElem?_eq_getElem hlt]
        simp only [strcmp_eq_iff, Option.some.injEq]
        rfl
      rw [Exec.anyM_of_ok hread]
      refine congrArg Except.ok (Bool.eq_iff_iff.2 ?_)
      simp only [List.any_eq_true, List.mem_range, decide_eq_true_eq]
      rw [List.mem_iff_getElem?]
      exact ⟨fun ⟨j, _, hj⟩ => ⟨j, hj⟩, fun ⟨j, hj⟩ => ⟨j, (List.getElem?_eq_some_iff.1 hj).1, hj⟩⟩
    rw [List.foldlM_cons, addMissing, hfound, Exec.ok_bind]
    by_cases hmem : attr ∈ asked
    · rw [List.filter_cons_of_neg (by simpa using hmem), decide_eq_true hmem, if_pos rfl]
      exact ih h
    · obtain ⟨b, hw, hb⟩ := h.grow attr
      rw [List.filter_cons_of_pos (by simpa using hmem), decide_eq_false hmem,
        if_neg Bool.false_ne_true, hw, Exec.ok_bind]
      have hrest := @ih (some b) (rest ++ [attr]) (by rwa [← List.append_assoc])
      simpa [Nat.add_assoc] using hrest

theorem exists_askedAttrs {p : Strings} {attrs : List Bytes}
    (h : ListAt p attrs) : ∃ asked, askedAttrs p attrs.length = .ok asked ∧
      asked.Terminated (GLITE_JP_ATTR_OWNER :: attrs) := by
  cases p with
  | none =>
    obtain rfl : attrs = [] := h
    exact ⟨_, rfl, [], rfl⟩
  | some b =>
    have hzero := @Block.holds_calloc Bytes (attrs.length + 2)
    rw [List.replicate_succ, ← List.nil_append (none :: _)] at hzero
    obtain ⟨b₁, h₁, hholds⟩ := hzero.overwrite (some GLITE_JP_ATTR_OWNER)
    have hlen : b₁.length = attrs.length + 2 := by
      rw [Block.length_write h₁, Block.length_calloc]
    rw [List.nil_append] at hholds
    have howner : b₁.Holds [some GLITE_JP_ATTR_OWNER] := by
      rw [← List.singleton_append] at hholds
      exact hholds.of_append
    have hterm : b.Holds (attrs.map some ++ [none]) := h
    obtain ⟨b₂, h₂, hholds₂, -⟩ := howner.memcpy hterm (by
      rw [hlen, List.length_append, List.length_map]
      simp only [List.length_singleton]
      omega)
    rw [List.length_append, List.length_map] at h₂
    refine ⟨b₂, ?_, hholds₂⟩
    rw [askedAttrs, show (Block.calloc (attrs.length + 2)).write 0 _ = .ok b₁ from h₁,
      Exec.ok_bind]
    exact h₂

end Missing

/-! ## The feed that is sorted -/

section Split

variable {f : FeedArrays} {feed : Jpfeed} {hf : HistoryFeed} {a : Block (Option Bytes)}
  {q : Block (Option QueryRec)} {attrs : List Bytes} {qry : List QueryRec}

/-- The attributes are sorted into two arrays, without those that are sent anyway. -/
theorem exists_sortedAttrs (attrs : List Bytes) : ∃ s metaAttr otherAttr,
    attrs.foldlM (Fillings.put isMetadata sentAnyway) (.alloc isMetadata attrs) = .ok s ∧
      s.metas.freeEmpty.terminate = .ok metaAttr ∧
      ListAt metaAttr.array (attrs.filter fun a => isMetadata a && a ≠ GLITE_JP_ATTR_OWNER) ∧
      metaAttr.count = (attrs.filter fun a => isMetadata a && a ≠ GLITE_JP_ATTR_OWNER).length ∧
      s.others.freeEmpty.terminate = .ok otherAttr ∧
      ListAt otherAttr.array (attrs.filter fun a => !isMetadata a && a ≠ GLITE_JP_ATTR_JOBID) ∧
      otherAttr.count =
        (attrs.filter fun a => !isMetadata a && a ≠ GLITE_JP_ATTR_JOBID).length := by
  obtain ⟨s, hs, hmetas, hothers⟩ := @exists_sorted _ attrs isMetadata sentAnyway
    (.alloc isMetadata attrs) (fills_alloc _) (fills_alloc _)
  obtain ⟨metaAttr, hm, hmlist, hmcount⟩ :=
    hmetas.exists_freeEmpty_terminate (countP_kept sentAnyway attrs isMetadata).symm
  obtain ⟨otherAttr, ho, holist, hocount⟩ :=
    hothers.exists_freeEmpty_terminate (countP_kept sentAnyway attrs (! isMetadata ·)).symm
  rw [(filter_sentAnyway attrs).1] at hmlist hmcount
  rw [(filter_sentAnyway attrs).2] at holist hocount
  exact ⟨s, metaAttr, otherAttr, hs, hm, hmlist, hmcount, ho, holist, hocount⟩

/-- The conditions are sorted into two arrays; there is one for those the backend knows
    when there are any. -/
theorem exists_sortedQry (hmeta : qry.filter (fun qr => isMetadata qr.attr) ≠ []) :
    ∃ cleared s metaQry otherQry,
      (Fillings.alloc (fun qr : QueryRec => isMetadata qr.attr) qry).clearLast = .ok cleared ∧
      qry.foldlM (Fillings.put (fun qr => isMetadata qr.attr) fun _ => false) cleared = .ok s ∧
      s.metas.array ≠ none ∧ s.metas.terminate = .ok metaQry ∧
      ListAt metaQry.array (qry.filter fun qr => isMetadata qr.attr) ∧
      metaQry.count = (qry.filter fun qr => isMetadata qr.attr).length ∧
      s.others.terminate = .ok otherQry ∧
      ListAt otherQry.array (qry.filter fun qr => !isMetadata qr.attr) ∧
      otherQry.count = (qry.filter fun qr => !isMetadata qr.attr).length := by
  obtain ⟨metas, hmetas, hfills⟩ :=
    (@fills_alloc QueryRec (qry.countP fun qr => isMetadata qr.attr)).clearLast
  let cleared : Fillings QueryRec :=
    ⟨metas, .alloc (qry.length - qry.countP fun qr => isMetadata qr.attr)⟩
  have hcleared : (Fillings.alloc (fun qr : QueryRec => isMetadata qr.attr) qry).clearLast =
      .ok cleared := by
    rw [Fillings.clearLast, Fillings.alloc, hmetas]
    rfl
  obtain ⟨s, hs, hmetas, hothers⟩ :=
    @exists_sorted _ qry _ (fun _ => false) cleared hfills (fills_alloc _)
  obtain ⟨metaQry, hm, hmlist, hmcount⟩ := hmetas.exists_terminate
    (countP_kept (fun _ => false) qry fun qr => isMetadata qr.attr).symm
  obtain ⟨otherQry, ho, holist, hocount⟩ := hothers.exists_terminate
    (countP_kept (fun _ => false) qry fun qr => !isMetadata qr.attr).symm
  simp only [Bool.not_false, Bool.and_true] at hmlist hmcount holist hocount
  refine ⟨cleared, s, metaQry, otherQry, hcleared, hs, ?_, hm, hmlist, hmcount, ho, holist,
    hocount⟩
  obtain ⟨b, hb, -⟩ := hmetas.array fun h0 => hmeta (by
    rw [List.countP_eq_length_filter] at h0
    exact List.length_eq_zero_iff.1 h0)
  exact hb ▸ Option.some_ne_none b

/-- A feed that is sorted in memory is what `splitFeed` says, and no cell outside the arrays
    is used. -/
theorem exists_splitArrays (h : splitFeed feed = .ok hf) (ha : a.Terminated feed.attrs)
    (hq : q.Terminated feed.qry) (hfa : f.attrs = some a) (hfq : f.qry = some q) :
    ∃ f' asked, splitArrays f = .ok (f', asked) ∧ f'.Represents hf ∧
      asked.Terminated (GLITE_JP_ATTR_OWNER :: hf.metaAttr) := by
  obtain ⟨attrs, hattrs, h⟩ := Exec.bind_eq_ok.1 h
  obtain ⟨qry, hqry, h⟩ := Exec.bind_eq_ok.1 h
  obtain ⟨-, rfl⟩ := elements_eq_ok.1 hattrs
  obtain ⟨-, rfl⟩ := elements_eq_ok.1 hqry
  dsimp only at h
  split_ifs at h with hmeta
  obtain rfl := Except.ok.inj h
  obtain ⟨s, metaAttr, otherAttr, hs, hm, hmlist, hmcount, ho, holist, hocount⟩ :=
    exists_sortedAttrs feed.attrs
  obtain ⟨cleared, s', metaQry, otherQry, hcleared, hs', hsome, hmq, hmqlist, hmqcount, hoq,
    hoqlist, hoqcount⟩ := exists_sortedQry hmeta
  obtain ⟨other, hother, hholding⟩ := @exists_foldlM_addMissing _ _ []
    (by rw [List.append_nil]; exact holist.holding)
    ((feed.qry.filter fun qr => !isMetadata qr.attr).map QueryRec.attr)
  rw [List.append_nil] at hother hholding
  obtain ⟨other', hterm, holist'⟩ := hholding.terminate
  obtain ⟨asked, hasked, hterminated⟩ := exists_askedAttrs hmlist
  refine ⟨⟨none, none, metaAttr.array, metaAttr.count, other'.array, _, otherAttr.count,
    metaQry.array, metaQry.count, otherQry.array, otherQry.count⟩, asked, ?_,
    ⟨hmlist, hmcount, holist', rfl, hocount, hmqlist, hmqcount, hoqlist, hoqcount⟩, hterminated⟩
  rw [splitArrays, hfa, hfq]
  simp only [Exec.deref, Exec.ok_bind, Block.entries_eq_ok.2 ha, Block.entries_eq_ok.2 hq, hs, hm,
    ho, hcleared, hs', if_neg hsome, hmq, hoq, hoqcount, readCounted_eq hoqlist.holding, hocount,
    hother, hterm, hmcount, hasked]
  rfl

/-- What is freed with a sorted feed is all that it has. -/
theorem freedEntries_eq (h : f.Represents hf) : freedEntries f =
    .ok ((hf.metaAttr, hf.otherAttr), hf.metaQry, hf.otherQry) := by
  rw [freedEntries, h.nmetaAttr, h.notherAttr, h.nmetaQry, h.notherQry,
    readCounted_eq h.metaAttr.holding, Exec.ok_bind, readCounted_eq h.otherAttr.holding,
    Exec.ok_bind, readCounted_eq h.metaQry.holding, Exec.ok_bind,
    readCounted_eq h.otherQry.holding]
  rfl

/-- The arrays of a feed with attributes, one of whose conditions is on what the backend
    knows, are those of its sorted feed when the backend is asked. -/
theorem splitArrays_exact (ha : a.Terminated attrs) (hq : q.Terminated qry)
    (hfa : f.attrs = some a) (hfq : f.qry = some q) (hne : attrs ≠ [])
    (hmeta : ∃ qr ∈ qry, isMetadata qr.attr = true) :
    ∃ f' asked, splitArrays f = .ok (f', asked) ∧ f'.SplitOf attrs qry := by
  let feed : Jpfeed := ⟨[], [], 0, false, attrs, qry⟩
  have hnil : qry.filter (fun qr => isMetadata qr.attr) ≠ [] := fun h => by
    obtain ⟨qr, hqr, hm⟩ := hmeta
    exact absurd hm (by simpa using List.filter_eq_nil_iff.1 h qr hqr)
  have hsplit : ∃ hf, splitFeed feed = .ok hf ∧
      hf.metaAttr = attrs.filter (fun a => isMetadata a && a ≠ GLITE_JP_ATTR_OWNER) ∧
      hf.otherAttr = attrs.filter (fun a => !isMetadata a && a ≠ GLITE_JP_ATTR_JOBID) ++
        ((qry.filter fun qr => !isMetadata qr.attr).map (·.attr)).filter
          (· ∉ attrs.filter fun a => !isMetadata a && a ≠ GLITE_JP_ATTR_JOBID) ∧
      hf.intOtherAttr =
        (attrs.filter fun a => !isMetadata a && a ≠ GLITE_JP_ATTR_JOBID).length ∧
      hf.metaQry = qry.filter (fun qr => isMetadata qr.attr) ∧
      hf.otherQry = qry.filter fun qr => !isMetadata qr.attr := by
    rw [splitFeed, elements_eq_ok.2 ⟨hne, rfl⟩, Exec.ok_bind,
      elements_eq_ok.2 ⟨fun h => hnil (congrArg (List.filter _) h), rfl⟩, Exec.ok_bind]
    dsimp only
    rw [if_neg hnil]
    exact ⟨_, rfl, rfl, rfl, rfl, rfl, rfl⟩
  obtain ⟨hf, hsplit, hm, ho, hint, hmq, hoq⟩ := hsplit
  obtain ⟨f', asked, hf', hrep, -⟩ := exists_splitArrays hsplit ha hq hfa hfq
  refine ⟨f', asked, hf', hm ▸ hrep.metaAttr, hm ▸ hrep.nmetaAttr, ⟨hf.otherAttr, hrep.otherAttr,
    hrep.notherAttr, ?_, fun qr hqr hno => ?_⟩, hrep.intOtherAttr.trans hint, hmq ▸ hrep.metaQry,
    hmq ▸ hrep.nmetaQry, hoq ▸ hrep.otherQry, hoq ▸ hrep.notherQry⟩
  · rw [hrep.intOtherAttr, hint, ho, List.take_left]
  · -- it is among the first, or was put behind them
    rw [ho, List.mem_append, List.mem_filter (p := fun s => decide (s ∉ _))]
    by_cases hfirst : qr.attr ∈ attrs.filter fun a => !isMetadata a && a ≠ GLITE_JP_ATTR_JOBID
    · exact .inl hfirst
    · refine .inr ⟨List.mem_map_of_mem (List.mem_filter.2 ⟨hqr, by simpa using hno⟩), ?_⟩
      exact decide_eq_true hfirst

end Split

/-- The attributes of a feed that asks for a time of registration and a tag. -/
def splitSampleAttrs : List Bytes := [GLITE_JP_ATTR_REGTIME, ascii "urn:tag"]

/-- The conditions of a feed on the owner and on another tag. -/
def splitSampleQry : List QueryRec := [.zero GLITE_JP_ATTR_OWNER, .zero (ascii "urn:other")]

/-- The arrays of the feed. -/
def splitSample : FeedArrays where
  attrs := some (splitSampleAttrs.map (some ∘ some) ++ [some none])
  qry := some (splitSampleQry.map (some ∘ some) ++ [some none])
  metaAttr := none
  nmetaAttr := 0
  otherAttr := none
  notherAttr := 0
  intOtherAttr := 0
  metaQry := none
  nmetaQry := 0
  otherQry := none
  notherQry := 0

theorem splitArrays_exact_sample : ∃ f' asked, splitArrays splitSample = .ok (f', asked) ∧
    f'.SplitOf splitSampleAttrs splitSampleQry :=
  splitArrays_exact ⟨[], rfl⟩ ⟨[], rfl⟩ rfl rfl (List.cons_ne_nil _ _)
    ⟨_, List.mem_cons_self, rfl⟩

end JobProvenance
