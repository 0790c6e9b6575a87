import JobProvenance.Lib.Terminated
import JobProvenance.Primary.Server

/-!
# The attributes of all feeds

What is extracted of a file are the attributes of all feeds of a slave, each once: the
arrays of two lists are copied one behind the other and sorted, and then all but the first
string of each run of equal ones is squeezed out, in place, while the strings are counted
down.

* `exists_squeeze`: squeezing leaves each string once, in order;
* `exists_attrUnionArray`: the union of two lists of which one is not empty;
* `attrUnionArray_exact`: it is `attrUnion`;
* `exists_feedsUnion`: the union of the lists of all feeds.
-/

namespace JobProvenance

/-! ## The union -/

/-- The string a cell points to. -/
def readString (out : Block (Option Bytes)) (i : ℕ) : Exec Bytes := out.read i >>= Exec.deref

/-- Sorts the first cells by the strings they point to. -/
def qsortStrings (out : Block (Option Bytes)) (cnt : ℕ) : Exec (Block (Option Bytes)) := do
  let strings ← (List.range cnt).mapM (readString out)
  out.writeAll 0 ((strings.mergeSort fun a b => strcmp a b ≠ .gt).map some)

/-- The end of the run of strings that are equal to the one at an index. -/
def runEnd (out : Block (Option Bytes)) (i cnt j : ℕ) : Exec ℕ :=
  if j < cnt then do
    let a ← readString out i
    let b ← readString out j
    if strcmp a b = .eq then runEnd out i cnt (j + 1) else return j
  else return j
termination_by cnt - j

/-- Moves what is behind a run of strings over all of it but the first, if there is something
    to be moved. -/
def closeRun (out : Block (Option Bytes)) (i cnt j : ℕ) : Exec (Block (Option Bytes)) :=
  if j < cnt ∧ i + 1 < j then out.memmove (i + 1) j (cnt - j) else .ok out

/-- Squeezes out all but the first of each run of equal strings, from an index on. -/
def squeeze (out : Block (Option Bytes)) (cnt i : ℕ) : Exec (Block (Option Bytes) × ℕ) :=
  if i < cnt then do
    let j ← runEnd out i cnt i
    let out ← closeRun out i cnt j
    squeeze out (cnt - (j - i - 1)) (i + 1)
  else return (out, cnt)
termination_by cnt - i

/-- Copies the entries of a list into an array; the null pointer has none. -/
def copyStrings (out : Block (Option Bytes)) (dst : ℕ) (a : Strings) (ca : ℕ) :
    Exec (Block (Option Bytes)) :=
  match a with
  | none => .ok out
  | some a => out.memcpy dst a ca

/-- The union of two lists; there has to be something in it. -/
def attrUnionArray (a b : Strings) : Exec (Block (Option Bytes)) := do
  let ca := (← entriesOf a).length
  let cb := (← entriesOf b).length
  let out := Block.malloc (ca + cb + 1)
  let out ← copyStrings out 0 a ca
  let out ← copyStrings out ca b cb
  let cnt := ca + cb
  let out ← out.write cnt none
  let out ← qsortStrings out cnt
  let (out, cnt) ← squeeze out cnt 0
  if cnt = 0 then .error .fault else out.write cnt none

/-- The union of the lists of some feeds. -/
def feedsUnion (feeds : List Strings) : Exec Strings :=
  feeds.foldlM (fun attrs f => do return some (← attrUnionArray attrs f)) none

/-! ## The order of strings -/

section Order

variable {a b c : Bytes} {xs : List Bytes}

instance : Std.TransCmp strcmp :=
  inferInstanceAs (Std.TransCmp (compare : Bytes → Bytes → Ordering))

theorem strcmp_lt_of_lt_of_le (h : strcmp a b = .lt) (h' : strcmp b c ≠ .gt) : strcmp a c = .lt :=
  Std.TransCmp.lt_of_lt_of_isLE h (Ordering.isLE_iff_ne_gt.2 h')

theorem strcmp_lt_of_le_of_ne (h : strcmp a b ≠ .gt) (hne : a ≠ b) : strcmp a b = .lt := by
  cases hcmp : strcmp a b with
  | lt => rfl
  | eq => exact absurd (strcmp_eq_iff.1 hcmp) hne
  | gt => exact absurd hcmp h

/-- Strings that are sorted do not come back after another one. -/
theorem lt_of_head_ne {x y : Bytes} {ys : List Bytes}
    (h : (x :: y :: ys).Pairwise fun a b => strcmp a b ≠ .gt) (hne : x ≠ y) :
    ∀ z ∈ y :: ys, strcmp x z = .lt := by
  obtain ⟨hx, hy⟩ := List.pairwise_cons.1 h
  have hlt := strcmp_lt_of_le_of_ne (hx y List.mem_cons_self) hne
  refine List.forall_mem_cons.2 ⟨hlt, fun z hz => ?_⟩
  exact strcmp_lt_of_lt_of_le hlt ((List.pairwise_cons.1 hy).1 z hz)

end Order

theorem pairwise_mergeSort_strcmp (xs : List Bytes) :
    (xs.mergeSort fun a b => strcmp a b ≠ .gt).Pairwise fun a b => strcmp a b ≠ .gt := by
  refine (List.pairwise_mergeSort (fun a b c hab hbc => ?_) (fun a b => ?_) xs).imp
    fun {a b} h => of_decide_eq_true h
  · rw [decide_eq_true_eq] at hab hbc ⊢
    exact Ordering.isLE_iff_ne_gt.1 (Std.TransCmp.isLE_trans (Ordering.isLE_iff_ne_gt.2 hab)
      (Ordering.isLE_iff_ne_gt.2 hbc))
  · rw [Bool.or_eq_true, decide_eq_true_eq, decide_eq_true_eq, ← not_and_or]
    exact fun h => nomatch (Std.OrientedCmp.lt_of_gt h.1).symm.trans h.2

/-- Strings are in order, and none of them twice. -/
def Increasing (xs : List Bytes) : Prop := xs.Pairwise fun a b => strcmp a b = .lt

theorem Increasing.nodup {xs : List Bytes} (h : Increasing xs) : xs.Nodup :=
  h.imp fun {a b} hlt (heq : a = b) => by
    rw [strcmp_eq_iff.2 heq] at hlt
    cases hlt

/-! ## Squeezing -/

section Squeeze

variable {out : Block (Option Bytes)} {done rest xs : List Bytes} {x : Bytes} {i : ℕ}

theorem readString_eq (h : out.Holds (xs.map some)) (hx : xs[i]? = some x) :
    readString out i = .ok x := by
  have hcell : (xs.map some)[i]? = some (some x) := by
    rw [List.getElem?_map, hx]
    rfl
  rw [readString, h.read hcell, Exec.ok_bind, Exec.deref]

/-- A run of equal strings ends where another string, or the end of the array, follows. -/
theorem runEnd_eq {pre run tail : List Bytes} (h : out.Holds ((pre ++ (run ++ tail)).map some))
    (hx : (pre ++ (run ++ tail))[i]? = some x) (hrun : ∀ y ∈ run, y = x)
    (htail : ∀ t ∈ tail.head?, t ≠ x) :
    runEnd out i (pre ++ (run ++ tail)).length pre.length = .ok (pre.length + run.length) := by
  induction run generalizing pre with
  | nil =>
    rw [runEnd]
    cases tail with
    | nil => exact if_neg (by simp)
    | cons t tail =>
      have ht : (pre ++ ([] ++ t :: tail))[pre.length]? = some t := by simp
      rw [if_pos (by simp), readString_eq h hx, Exec.ok_bind, readString_eq h ht, Exec.ok_bind,
        if_neg fun heq => htail t rfl (strcmp_eq_iff.1 heq).symm]
      rfl
  | cons y run ih =>
    rw [List.forall_mem_cons] at hrun
    obtain ⟨rfl, hrun⟩ := hrun
    have hy : (pre ++ (y :: run ++ tail))[pre.length]? = some y := by simp
    rw [runEnd, if_pos (by simp), readString_eq h hx, Exec.ok_bind, readString_eq h hy,
      Exec.ok_bind, if_pos (strcmp_eq_iff.2 rfl)]
    rw [List.cons_append, List.append_cons] at h hx ⊢
    have hend := ih h hx hrun
    have hlen : (pre ++ [y]).length = pre.length + 1 := List.length_append
    rw [hlen] at hend
    rw [hend, List.length_cons]
    exact congrArg Except.ok (by omega)

/-- The strings behind a run are moved over all of it but the first. -/
theorem exists_closeRun {run tail : List Bytes}
    (h : out.Holds ((done ++ x :: (run ++ tail)).map some)) : ∃ out',
      closeRun out done.length (done ++ x :: (run ++ tail)).length
        (done.length + (run.length + 1)) = .ok out' ∧
      out'.Holds ((done ++ [x] ++ tail).map some) ∧ out'.length = out.length := by
  have hmap : ((done ++ x :: (run ++ tail)).map some : List (Option Bytes)) =
      (done ++ [x]).map some ++ (run.map some ++ tail.map some) := by
    simp only [List.map_append, List.map_cons, List.map_nil, List.append_assoc,
      List.singleton_append]
  rw [hmap] at h
  rw [closeRun]
  split_ifs with hmove
  · obtain ⟨out', hout, hholds, hlen⟩ := h.closeGap
    refine ⟨out', ?_, by rwa [List.map_append], hlen⟩
    simp only [List.length_map, List.length_append, List.length_cons, List.length_nil] at hout ⊢
    rw [← hout]
    congr 1 <;> omega
  · refine ⟨out, rfl, ?_, rfl⟩
    simp only [List.length_append, List.length_cons, not_and_or, not_lt] at hmove
    rcases hmove with htail | hrun
    · -- nothing follows the run
      obtain rfl : tail = [] := List.length_eq_zero_iff.1 (by omega)
      rw [List.append_nil]
      exact h.of_append
    · -- nothing is repeated
      obtain rfl : run = [] := List.length_eq_zero_iff.1 (by omega)
      rwa [List.map_append]

/-- Squeezing leaves each string once, in order. -/
theorem exists_squeeze (h : out.Holds ((done ++ rest).map some))
    (hsorted : rest.Pairwise fun a b => strcmp a b ≠ .gt) (hdone : Increasing done)
    (hlt : ∀ a ∈ done, ∀ b ∈ rest, strcmp a b = .lt) :
    ∃ out' xs, squeeze out (done ++ rest).length done.length = .ok (out', xs.length) ∧
      out'.Holds (xs.map some) ∧ out'.length = out.length ∧ Increasing xs ∧
      ∀ a, a ∈ xs ↔ a ∈ done ∨ a ∈ rest := by
  induction hn : rest.length using Nat.strong_induction_on generalizing out done rest with
  | h n ih =>
    cases rest with
    | nil =>
      rw [List.append_nil] at h ⊢
      refine ⟨out, done, ?_, h, rfl, hdone, by simp⟩
      rw [squeeze, if_neg (lt_irrefl _)]
      rfl
    | cons x rest =>
      -- the run of `x`, and what follows it
      obtain ⟨run, tail, rfl, hrun, htail⟩ : ∃ run tail, rest = run ++ tail ∧
          (∀ y ∈ run, y = x) ∧ ∀ t ∈ tail.head?, t ≠ x := by
        refine ⟨rest.takeWhile (· = x), rest.dropWhile (· = x), ?_, fun y hy => ?_, fun t ht => ?_⟩
        · exact List.takeWhile_append_dropWhile.symm
        · simpa using List.mem_takeWhile_imp hy
        · have hhead := List.head?_dropWhile_not (· = x) rest
          rw [Option.mem_def.1 ht] at hhead
          simpa using hhead
      have hx : (done ++ (x :: run ++ tail))[done.length]? = some x := by simp
      have hend := @runEnd_eq _ _ _ done (x :: run) tail h hx
        (List.forall_mem_cons.2 ⟨rfl, hrun⟩) htail
      obtain ⟨out₁, hmove, hholds, hlen⟩ := exists_closeRun h
      have htailSorted : (x :: tail).Pairwise fun a b => strcmp a b ≠ .gt :=
        hsorted.sublist ((List.sublist_append_right run tail).cons_cons x)
      have hxt : ∀ t ∈ tail, strcmp x t = .lt := by
        cases tail with
        | nil => exact fun t ht => nomatch ht
        | cons t tail => exact lt_of_head_ne htailSorted (htail t rfl).symm
      have hdone' : Increasing (done ++ [x]) := List.pairwise_append.2
        ⟨hdone, List.pairwise_singleton _ _, fun a ha b hb =>
          hlt a ha b (List.mem_singleton.1 hb ▸ List.mem_cons_self)⟩
      have hlt' : ∀ a ∈ done ++ [x], ∀ b ∈ tail, strcmp a b = .lt := fun a ha b hb => by
        rcases List.mem_append.1 ha with ha | ha
        · exact hlt a ha b (List.mem_cons_of_mem _ (List.mem_append_right _ hb))
        · exact List.mem_singleton.1 ha ▸ hxt b hb
      obtain ⟨out', xs, hsq, hholds', hlen', hinc, hmem⟩ := ih tail.length
        (by rw [← hn, List.length_cons, List.length_append]; omega) hholds
        (List.Pairwise.of_cons htailSorted) hdone' hlt' rfl
      refine ⟨out', xs, ?_, hholds', hlen'.trans hlen, hinc, fun a => ?_⟩
      · rw [squeeze, if_pos (by simp)]
        rw [List.cons_append, List.length_cons] at hend
        rw [hend, Exec.ok_bind, hmove, Exec.ok_bind, ← hsq]
        have hcnt : (done ++ x :: (run ++ tail)).length -
            (done.length + (run.length + 1) - done.length - 1) = (done ++ [x] ++ tail).length := by
          simp only [List.length_append, List.length_cons, List.length_nil]
          omega
        have hidx : done.length + 1 = (done ++ [x]).length := by
          rw [List.length_append, List.length_singleton]
        rw [hcnt, hidx]
      · rw [hmem, List.mem_append, List.mem_singleton, List.mem_cons, List.mem_append, or_assoc]
        refine or_congr_right (or_congr_right' fun hax => ?_)
        exact ⟨.inr, fun ha => ha.resolve_left fun hr => hax (hrun a hr)⟩

end Squeeze

/-! ## The union of two lists -/

section Union

variable {a b : Strings} {as bs : List Bytes}

theorem exists_copyStrings {out : Block (Option Bytes)} {xs : List Bytes}
    (h : out.Holds (xs.map some)) (ha : ListAt a as) (hle : xs.length + as.length ≤ out.length) :
    ∃ out', copyStrings out xs.length a as.length = .ok out' ∧
      out'.Holds ((xs ++ as).map some) ∧ out'.length = out.length := by
  cases a with
  | none =>
    obtain rfl : as = [] := ha
    exact ⟨out, rfl, by rwa [List.append_nil], rfl⟩
  | some src =>
    have hsrc : src.Holds (as.map some) := Block.Holds.of_append ha
    have hcopy := h.memcpy hsrc (by rwa [List.length_map, List.length_map])
    rwa [List.length_map, List.length_map, ← List.map_append] at hcopy

theorem exists_qsortStrings {out : Block (Option Bytes)} {xs : List Bytes}
    (h : out.Holds (xs.map some)) : ∃ out', qsortStrings out xs.length = .ok out' ∧
      out'.Holds ((xs.mergeSort fun a b => strcmp a b ≠ .gt).map some) ∧
      out'.length = out.length := by
  have hread : (List.range xs.length).mapM (readString out) = .ok xs := by
    have hstring : ∀ i, (hi : i < xs.length) → readString out i = Except.ok xs[i] := fun i hi =>
      readString_eq h (List.getElem?_eq_getElem hi)
    rw [Exec.mapM_range hstring]
    exact Exec.mapM_eq_ok.2 (List.forall₂_same.2 fun _ _ => rfl)
  have hnil : out.Holds [] := ⟨out, rfl⟩
  have hwrite := @Block.Holds.writeAll _ _ _
    ((xs.mergeSort fun a b => strcmp a b ≠ .gt).map some) hnil (by
      have := h.length_le
      rw [List.length_map] at this ⊢
      rwa [List.length_mergeSort, List.length_nil, Nat.zero_add])
  obtain ⟨out', hout, hholds, hlen⟩ := hwrite
  exact ⟨out', by rw [qsortStrings, hread, Exec.ok_bind]; exact hout, hholds, hlen⟩

/-- Two lists, of which one is not empty, have a union, which is a terminated array, and no
    cell outside the arrays is used. -/
theorem exists_attrUnionArray (ha : ListAt a as) (hb : ListAt b bs) (hne : as ++ bs ≠ []) :
    ∃ out xs, attrUnionArray a b = .ok out ∧ out.Terminated xs ∧ Increasing xs ∧
      ∀ s, s ∈ xs ↔ s ∈ as ∨ s ∈ bs := by
  have hmalloc : (Block.malloc (as.length + bs.length + 1) : Block (Option Bytes)).Holds
      (([] : List Bytes).map some) := Block.holds_malloc _
  have hsize := @Block.length_malloc (Option Bytes) (as.length + bs.length + 1)
  obtain ⟨out₁, h₁, hholds₁, hlen₁⟩ := exists_copyStrings hmalloc ha (by
    rw [hsize, List.length_nil]
    omega)
  rw [List.nil_append] at hholds₁
  obtain ⟨out₂, h₂, hholds₂, hlen₂⟩ := exists_copyStrings hholds₁ hb (by
    rw [hlen₁, hsize]
    omega)
  obtain ⟨out₃, h₃, hterm, hlen₃⟩ := hholds₂.terminate (by
    rw [hlen₂, hlen₁, hsize, List.length_append]
    omega)
  obtain ⟨out₄, h₄, hholds₄, hlen₄⟩ := exists_qsortStrings (Block.Holds.of_append hterm)
  have hsorted : ((as ++ bs).mergeSort fun a b => strcmp a b ≠ .gt).Pairwise
      fun a b => strcmp a b ≠ .gt := pairwise_mergeSort_strcmp _
  obtain ⟨out₅, xs, h₅, hholds₅, hlen₅, hinc, hmem⟩ := @exists_squeeze _ [] _ hholds₄ hsorted
    List.Pairwise.nil fun a ha => nomatch ha
  simp only [List.mem_mergeSort, List.mem_append, List.not_mem_nil, false_or] at hmem
  rw [List.nil_append, List.length_mergeSort] at h₅
  have hpos : xs.length ≠ 0 := fun h0 => by
    obtain ⟨s, l, hs⟩ := List.exists_cons_of_ne_nil hne
    have hmem' := (hmem s).2 (List.mem_append.1 (hs ▸ List.mem_cons_self))
    rw [List.length_eq_zero_iff.1 h0] at hmem'
    cases hmem'
  obtain ⟨out₆, h₆, hterm₆, -⟩ := hholds₅.terminate (by
    have hsub : xs.length ≤ (as ++ bs).length := (List.subperm_of_subset hinc.nodup fun s hs =>
      List.mem_append.2 ((hmem s).1 hs)).length_le
    rw [List.length_append] at hsub
    rw [hlen₅, hlen₄, hlen₃, hlen₂, hlen₁, hsize]
    omega)
  refine ⟨out₆, xs, ?_, hterm₆, hinc, hmem⟩
  rw [List.length_append] at h₃ h₄ h₅
  rw [attrUnionArray, entriesOf_eq_ok.2 ha, Exec.ok_bind, entriesOf_eq_ok.2 hb, Exec.ok_bind]
  dsimp only
  rw [show copyStrings (Block.malloc (as.length + bs.length + 1)) 0 a as.length = .ok out₁ from h₁,
    Exec.ok_bind, h₂, Exec.ok_bind, h₃, Exec.ok_bind, h₄, Exec.ok_bind]
  rw [show squeeze out₄ (as.length + bs.length) 0 = .ok (out₅, xs.length) from h₅, Exec.ok_bind]
  dsimp only
  rw [if_neg hpos, h₆]

end Union

/-! ## The union as a list -/

section ListAt

variable {xs ys : List Bytes}

/-- Strings in order are given by what they are. -/
theorem Increasing.eq (h : Increasing xs) (h' : Increasing ys) (hmem : ∀ s, s ∈ xs ↔ s ∈ ys) :
    xs = ys := by
  refine List.Perm.eq_of_pairwise (fun a b _ _ hab hba => ?_) h h'
    ((List.perm_ext_iff_of_nodup h.nodup h'.nodup).2 hmem)
  rw [Std.OrientedCmp.gt_of_lt hab] at hba
  cases hba

end ListAt

/-- The union of two lists is `attrUnion`. -/
theorem attrUnion_eq_ok {as bs xs : List Bytes} (hne : as ++ bs ≠ []) (hinc : Increasing xs)
    (hmem : ∀ s, s ∈ xs ↔ s ∈ as ∨ s ∈ bs) : attrUnion as bs = .ok xs := by
  have hsorted := (pairwise_mergeSort_strcmp (as ++ bs)).sublist (List.dedup_sublist _)
  have hinc' : Increasing ((as ++ bs).mergeSort fun a b => strcmp a b ≠ .gt).dedup :=
    (hsorted.and (List.nodup_dedup _)).imp fun h => strcmp_lt_of_le_of_ne h.1 h.2
  have heq := hinc.eq hinc' fun s => by
    rw [hmem, List.mem_dedup, List.mem_mergeSort, List.mem_append]
  rw [attrUnion, ← heq, elements_eq_ok]
  refine ⟨fun hnil => ?_, rfl⟩
  obtain ⟨s, l, hs⟩ := List.exists_cons_of_ne_nil hne
  have hsx := (hmem s).2 (List.mem_append.1 (hs ▸ List.mem_cons_self))
  rw [hnil] at hsx
  cases hsx

/-- The union in memory of two lists of which one is not empty: a terminated array of all
    their strings, in order and each once, which are those of `attrUnion`. -/
theorem attrUnionArray_exact {a b : Strings} {as bs : List Bytes} (ha : ListAt a as)
    (hb : ListAt b bs) (hne : as ++ bs ≠ []) : ∃ out xs, attrUnionArray a b = .ok out ∧
      out.Terminated xs ∧ Increasing xs ∧ (∀ s, s ∈ xs ↔ s ∈ as ∨ s ∈ bs) ∧
      attrUnion as bs = .ok xs := by
  obtain ⟨out, xs, hout, hterm, hinc, hmem⟩ := exists_attrUnionArray ha hb hne
  exact ⟨out, xs, hout, hterm, hinc, hmem, attrUnion_eq_ok hne hinc hmem⟩

theorem attrUnionArray_exact_sample : ∃ out xs,
    attrUnionArray (some [some (some (ascii "b")), some (some (ascii "a")), some none])
        (some [some (some (ascii "b")), some none]) = .ok out ∧
      out.Terminated xs ∧ Increasing xs ∧
      (∀ s, s ∈ xs ↔ s ∈ [ascii "b", ascii "a"] ∨ s ∈ [ascii "b"]) ∧
      attrUnion [ascii "b", ascii "a"] [ascii "b"] = .ok xs :=
  attrUnionArray_exact ⟨[], rfl⟩ ⟨[], rfl⟩ (List.cons_ne_nil _ _)

/-! ## The attributes of all feeds -/

/-- Feeds of which each asks for something are asked for what one of them asks for. -/
theorem exists_feedsUnion {feeds : List Strings} {lists : List (List Bytes)}
    (h : List.Forall₂ ListAt feeds lists) (hne : ∀ as ∈ lists, as ≠ []) (hsome : lists ≠ []) :
    ∃ out xs, feedsUnion feeds = .ok (some out) ∧ out.Terminated xs ∧ Increasing xs ∧
      ∀ s, s ∈ xs ↔ ∃ as ∈ lists, s ∈ as := by
  -- the union with what was collected before
  have hrun : ∀ (p : Strings) (xs : List Bytes), ListAt p xs → Increasing xs →
      ∃ p' xs', feeds.foldlM (fun attrs f => do return some (← attrUnionArray attrs f)) p =
          .ok p' ∧ ListAt p' xs' ∧ Increasing xs' ∧
        ∀ s, s ∈ xs' ↔ s ∈ xs ∨ ∃ as ∈ lists, s ∈ as := by
    clear hsome
    induction h with
    | nil => exact fun p xs hp hinc => ⟨p, xs, rfl, hp, hinc, by simp⟩
    | @cons f as feeds lists hf _ ih =>
      intro p xs hp hinc
      rw [List.forall_mem_cons] at hne
      obtain ⟨out, ys, hout, hterm, hinc', hmem⟩ :=
        exists_attrUnionArray hp hf (List.append_ne_nil_of_right_ne_nil xs hne.1)
      obtain ⟨p', xs', hfold, hlists, hinc'', hmem'⟩ := ih hne.2 (some out) ys hterm hinc'
      refine ⟨p', xs', ?_, hlists, hinc'', fun s => ?_⟩
      · rw [List.foldlM_cons, hout]
        exact hfold
      · rw [hmem', hmem, or_assoc, List.exists_mem_cons_iff]
  obtain ⟨p, xs, hfold, hlists, hinc, hmem⟩ := hrun none [] rfl List.Pairwise.nil
  have hmem' : ∀ s, s ∈ xs ↔ ∃ as ∈ lists, s ∈ as := fun s =>
    (hmem s).trans (or_iff_right List.not_mem_nil)
  cases p with
  | some out => exact ⟨out, xs, hfold, hlists, hinc, hmem'⟩
  | none =>
    -- an attribute of the first feed is among them
    obtain rfl : xs = [] := hlists
    obtain ⟨as, rest, hfirst⟩ := List.exists_cons_of_ne_nil hsome
    have has : as ∈ lists := hfirst ▸ List.mem_cons_self
    obtain ⟨s, l, hs⟩ := List.exists_cons_of_ne_nil (hne as has)
    exact absurd ((hmem' s).2 ⟨as, has, hs ▸ List.mem_cons_self⟩) List.not_mem_nil

end JobProvenance
