import JobProvenance.Lib.Terminated
import JobProvenance.Primary.Registration

/-!
# Making the directories of a path

`mkdirpath` makes the directories of a path in a copy of it, which it cuts off
behind one name after the other. Here the copy is a block of memory, and what the
system says to a call of `mkdir` may differ from call to call.

* `mkdirpathCopy_eq`: the function returns, without leaving its copy, what
  `mkdirEach` says of the paths of its calls, in turn (`callPaths`);
* `mkdirEach_paths`: which calls fail, and whether there is a directory at the end,
  by what stood in the tree before;
* `mkdirpath_truth`: when zero means that there are all the directories. The loop
  decides that it is at its end before it makes the last of them, and does not
  report that this one is not made.
-/

namespace JobProvenance

/-! ## The loop -/

section Loop

variable (refused : ℕ → List Bytes → Option Refusal)

/-- The loop, with `p` where it stands in the copy, and the number of the call. -/
def mkdirpathLoop : ℕ → ℕ → Block UInt8 → ℕ → FileTree Bytes → Exec (FileTree Bytes × Ret)
  | 0, _, _, _, _ => .error .hang
  | fuel + 1, n, wpath, p, t => do
    let p := p + (← Block.scan (· = ch '/') (wpath.drop p))
    let p := p + (← Block.scan (fun c => c ≠ ch '/' ∧ c ≠ 0) (wpath.drop p))
    let goout := decide ((← wpath.read p) = 0)
    let wpath ← wpath.write p 0
    let path ← wpath.text
    let (t, ret) := t.mkdir (refused n) (strtok (ch '/') path)
    match ret with
    | none | some .present => do
      let wpath ← wpath.write p (ch '/')
      if goout then return (t, none) else mkdirpathLoop fuel (n + 1) wpath p t
    | some e => return (t, if goout then none else some e.errno)

/-- Makes the directories of a path behind a prefix of it; there are no more rounds
    than characters, and one more. -/
def mkdirpathCopy (path : CString) (prefixlen : ℕ) (t : FileTree Bytes) :
    Exec (FileTree Bytes × Ret) :=
  mkdirpathLoop refused (path.bytes.length + 1) 0 (path.bytes.map some ++ [some 0]) prefixlen t

/-- Makes directories, call by call: the last call is not reported when it fails. -/
def mkdirEach : ℕ → List (List Bytes) → FileTree Bytes → FileTree Bytes × Ret
  | _, [], t => (t, none)
  | n, [q], t => ((t.mkdir (refused n) q).1, none)
  | n, q :: q' :: qs, t =>
    match t.mkdir (refused n) q with
    | (t', none) => mkdirEach (n + 1) (q' :: qs) t'
    | (t', some .present) => mkdirEach (n + 1) (q' :: qs) t'
    | (t', some e) => (t', some e.errno)

end Loop

/-- The paths of the calls, of a path of which a part is behind already. -/
def callPaths (wpath p : Bytes) : List (List Bytes) :=
  strtok (ch '/') (wpath ++ nextName p) ::
    if _ : behindName p = [] then [] else callPaths (wpath ++ nextName p) (behindName p)
termination_by p.length
decreasing_by exact length_behindName_lt ‹_›

section Copy

variable {refused : ℕ → List Bytes → Option Refusal} {wpath p : Bytes} {b : Block UInt8}
  {n : ℕ} {t : FileTree Bytes}

theorem nextName_append_behindName (p : Bytes) : nextName p ++ behindName p = p := by
  rw [nextName, behindName, List.append_assoc, List.takeWhile_append_dropWhile,
    List.takeWhile_append_dropWhile]

/-- What follows a name is the end, or a slash. -/
theorem behindName_cases (p : Bytes) : behindName p = [] ∨ ∃ r, behindName p = ch '/' :: r := by
  rw [behindName]
  induction p.dropWhile (· = ch '/') with
  | nil => exact .inl rfl
  | cons c q ih =>
    by_cases hc : c = ch '/'
    · exact .inr ⟨q, by rw [List.dropWhile_cons_of_neg (by simpa using hc), hc]⟩
    · rwa [List.dropWhile_cons_of_pos (by simpa using hc)]

/-- What stands behind a name in the copy: a slash, or the terminator at the end. -/
theorem behindName_cons (p : Bytes) : ∃ y ys, behindName p ++ [0] = y :: ys ∧
    (y = ch '/' ∨ y = 0) ∧ (y = 0 ↔ behindName p = []) ∧
    (behindName p ≠ [] → ch '/' :: ys = behindName p ++ [0]) := by
  rcases behindName_cases p with h | ⟨r, h⟩
  · exact ⟨0, [], by rw [h, List.nil_append], .inr rfl, by simp [h], fun hne => absurd h hne⟩
  · refine ⟨ch '/', r ++ [0], by rw [h, List.cons_append], .inl rfl, ?_, fun _ => by
      rw [h, List.cons_append]⟩
    exact iff_of_false (by decide) (h ▸ List.cons_ne_nil _ _)

/-- The loop gets behind the next name. -/
theorem scan_nextName (h : b.Holds (wpath ++ p ++ [0])) (hnul : 0 ∉ p) :
    ∃ m k, Block.scan (· = ch '/') (b.drop wpath.length) = .ok m ∧
      Block.scan (fun c => c ≠ ch '/' ∧ c ≠ 0) (b.drop (wpath.length + m)) = .ok k ∧
      wpath.length + m + k = (wpath ++ nextName p).length := by
  obtain ⟨y, ys, hslashes, hy⟩ :
      ∃ y ys, p.dropWhile (· = ch '/') ++ [0] = y :: ys ∧ y ≠ ch '/' := by
    have hnot := List.head?_dropWhile_not (fun c => decide (c = ch '/')) p
    cases hcons : p.dropWhile (· = ch '/') with
    | nil => exact ⟨0, [], rfl, by decide⟩
    | cons y q =>
      rw [hcons] at hnot
      exact ⟨y, q ++ [0], rfl, of_decide_eq_false hnot⟩
  obtain ⟨z, zs, hname, hz, -⟩ := behindName_cons p
  have hp : p = p.takeWhile (· = ch '/') ++ p.dropWhile (· = ch '/') :=
    List.takeWhile_append_dropWhile.symm
  have hq : p.dropWhile (· = ch '/') =
      (p.dropWhile (· = ch '/')).takeWhile (· ≠ ch '/') ++ behindName p :=
    List.takeWhile_append_dropWhile.symm
  have hm : Block.Holds (b.drop wpath.length) (p.takeWhile (· = ch '/') ++ y :: ys) := by
    rw [← hslashes, ← List.append_assoc, ← hp]
    exact Block.Holds.drop (by rwa [← List.append_assoc])
  have hk : Block.Holds (b.drop (wpath.length + (p.takeWhile (· = ch '/')).length))
      ((p.dropWhile (· = ch '/')).takeWhile (· ≠ ch '/') ++ z :: zs) := by
    rw [← hname, ← List.append_assoc, ← hq, hslashes, ← List.drop_drop]
    exact hm.drop
  refine ⟨_, _, hm.scan (fun c hc => ?_) (by simpa using hy), hk.scan (fun c hc => ?_) ?_, ?_⟩
  · exact List.mem_takeWhile_imp (p := fun c => decide (c = ch '/')) hc
  · have hne : c ≠ 0 := fun h0 => hnul (h0 ▸ (List.dropWhile_sublist _).subset
      ((List.takeWhile_sublist _).subset hc))
    have hslash := List.mem_takeWhile_imp (p := fun c => decide (c ≠ ch '/')) hc
    exact decide_eq_true ⟨of_decide_eq_true hslash, hne⟩
  · rcases hz with rfl | rfl <;> decide
  · rw [nextName, List.length_append, List.length_append, Nat.add_assoc]

/-- One round: the loop gets behind the next name and cuts the copy off there. -/
theorem mkdirpathLoop_succ (fuel : ℕ) (h : b.Holds (wpath ++ p ++ [0])) (hnul : 0 ∉ wpath ++ p) :
    ∃ b', (behindName p ≠ [] → b'.Holds (wpath ++ nextName p ++ behindName p ++ [0])) ∧
      mkdirpathLoop refused (fuel + 1) n b wpath.length t =
        match t.mkdir (refused n) (strtok (ch '/') (wpath ++ nextName p)) with
        | (t', none) =>
          if behindName p = [] then .ok (t', none)
          else mkdirpathLoop refused fuel (n + 1) b' (wpath ++ nextName p).length t'
        | (t', some .present) =>
          if behindName p = [] then .ok (t', none)
          else mkdirpathLoop refused fuel (n + 1) b' (wpath ++ nextName p).length t'
        | (t', some e) => .ok (t', if behindName p = [] then none else some e.errno) := by
  obtain ⟨m, k, hm, hk, hlen⟩ := scan_nextName h fun h => hnul (List.mem_append_right _ h)
  obtain ⟨y, ys, hcons, -, hend, hback⟩ := behindName_cons p
  have hcut : b.Holds (wpath ++ nextName p ++ y :: ys) := by
    rw [← hcons, ← List.append_assoc, List.append_assoc wpath, nextName_append_behindName]
    exact h
  have hread : b.read (wpath ++ nextName p).length = .ok y := hcut.read (by simp)
  obtain ⟨b₁, hb₁, hholds₁⟩ := hcut.overwrite 0
  have hname : 0 ∉ wpath ++ nextName p := by
    rw [← nextName_append_behindName p, ← List.append_assoc] at hnul
    exact fun h => hnul (List.mem_append_left _ h)
  obtain ⟨b₂, hb₂, hholds₂⟩ := hholds₁.overwrite (ch '/')
  refine ⟨b₂, fun hne => ?_, ?_⟩
  · rw [List.append_assoc _ (behindName p), ← hback hne]
    exact hholds₂
  · rw [mkdirpathLoop, hm, Exec.ok_bind]
    dsimp only
    rw [hk, Exec.ok_bind, hlen, hread, Exec.ok_bind, hb₁, Exec.ok_bind, hholds₁.text hname,
      Exec.ok_bind]
    rcases t.mkdir (refused n) (strtok (ch '/') (wpath ++ nextName p)) with ⟨t', _ | _ | _ | e⟩
    all_goals dsimp only
    all_goals simp only [hend, decide_eq_true_eq, hb₂, Exec.ok_bind]
    all_goals rfl

theorem callPaths_ne_nil (wpath p : Bytes) : callPaths wpath p ≠ [] := by
  rw [callPaths]
  exact List.cons_ne_nil _ _

theorem mkdirEach_cons {q : List Bytes} {qs : List (List Bytes)} (h : qs ≠ []) :
    mkdirEach refused n (q :: qs) t =
      match t.mkdir (refused n) q with
      | (t', none) => mkdirEach refused (n + 1) qs t'
      | (t', some .present) => mkdirEach refused (n + 1) qs t'
      | (t', some e) => (t', some e.errno) := by
  cases qs with
  | nil => exact absurd rfl h
  | cons q' qs => rfl

theorem mkdirEach_of_through {q : List Bytes} {qs : List (List Bytes)} {t' : FileTree Bytes}
    (h : qs ≠ []) (hmk : t.mkdir (refused n) q = (t', none) ∨
      t.mkdir (refused n) q = (t', some .present)) :
    mkdirEach refused n (q :: qs) t = mkdirEach refused (n + 1) qs t' := by
  rw [mkdirEach_cons h]
  rcases hmk with hmk | hmk <;> rw [hmk]

theorem mkdirEach_of_stop {q : List Bytes} {qs : List (List Bytes)} {e : MkdirError Refusal}
    (h : qs ≠ []) (he : e ≠ .present) (hmk : t.mkdir (refused n) q = (t, some e)) :
    mkdirEach refused n (q :: qs) t = (t, some e.errno) := by
  rw [mkdirEach_cons h, hmk]
  cases e with
  | present => exact absurd rfl he
  | _ => rfl

/-- With more rounds than there are characters left, the loop returns: it makes the
    directories of the paths, in turn. -/
theorem mkdirpathLoop_eq {fuel : ℕ} (hfuel : p.length < fuel)
    (h : b.Holds (wpath ++ p ++ [0])) (hnul : 0 ∉ wpath ++ p) :
    mkdirpathLoop refused fuel n b wpath.length t =
      .ok (mkdirEach refused n (callPaths wpath p) t) := by
  induction fuel generalizing n b wpath p t with
  | zero => exact absurd hfuel (Nat.not_lt_zero _)
  | succ fuel ih =>
    obtain ⟨b', hb', hround⟩ := @mkdirpathLoop_succ refused wpath p b n t fuel h hnul
    rw [hround, callPaths]
    by_cases hend : behindName p = []
    · rw [dif_pos hend, mkdirEach]
      rcases t.mkdir (refused n) (strtok (ch '/') (wpath ++ nextName p)) with ⟨t', _ | _ | _ | e⟩
      all_goals simp only [if_pos hend]
    · have hlen := length_behindName_lt hend
      have hnul' : 0 ∉ wpath ++ nextName p ++ behindName p := by
        rwa [List.append_assoc, nextName_append_behindName]
      have hnext := fun t => ih (t := t) (n := n + 1) (by omega) (hb' hend) hnul'
      rw [dif_neg hend, mkdirEach_cons (callPaths_ne_nil _ _)]
      rcases t.mkdir (refused n) (strtok (ch '/') (wpath ++ nextName p)) with ⟨t', _ | _ | _ | e⟩
      all_goals simp only [if_neg hend, hnext]

/-- The function returns, without leaving its copy: it makes the directories of the
    paths, in turn. -/
theorem mkdirpathCopy_eq {path : CString} {prefixlen : ℕ} (h : prefixlen ≤ path.bytes.length) :
    mkdirpathCopy refused path prefixlen t = .ok (mkdirEach refused 0
      (callPaths (path.bytes.take prefixlen) (path.bytes.drop prefixlen)) t) := by
  have hlen : (path.bytes.take prefixlen).length = prefixlen := List.length_take_of_le h
  have hholds : Block.Holds (path.bytes.map some ++ [some 0])
      (path.bytes.take prefixlen ++ path.bytes.drop prefixlen ++ [0]) :=
    ⟨[], by rw [List.take_append_drop, List.map_append, List.append_nil]; rfl⟩
  have hnul : 0 ∉ path.bytes.take prefixlen ++ path.bytes.drop prefixlen := by
    rw [List.take_append_drop]
    exact path.nul_notMem
  have hfuel : (path.bytes.drop prefixlen).length < path.bytes.length + 1 := by
    rw [List.length_drop]
    omega
  have hloop := @mkdirpathLoop_eq refused _ _ _ 0 t _ hfuel hholds hnul
  rw [hlen] at hloop
  exact hloop

/-- A system that says the same to every call of a path: the calls are those of a
    registration. -/
theorem mkdirEach_callPaths {refused : List Bytes → Option Refusal} :
    mkdirEach (fun _ => refused) n (callPaths wpath p) t = mkdirpathFrom refused wpath p t := by
  induction hlen : p.length using Nat.strong_induction_on generalizing n wpath p t with
  | _ len ih =>
    rw [callPaths, mkdirpathFrom]
    by_cases hend : behindName p = []
    · rw [dif_pos hend, mkdirEach]
      rcases t.mkdir refused (strtok (ch '/') (wpath ++ nextName p)) with ⟨t', _ | _ | _ | e⟩
      all_goals simp only [hend, dite_true, if_true]
    · have hnext := fun t => @ih _ (hlen ▸ length_behindName_lt hend) (wpath ++ nextName p)
        (behindName p) (n + 1) t rfl
      rw [dif_neg hend, mkdirEach_cons (callPaths_ne_nil _ _)]
      rcases t.mkdir refused (strtok (ch '/') (wpath ++ nextName p)) with ⟨t', _ | _ | _ | e⟩
      all_goals simp only [dif_neg hend, if_neg hend, hnext]

/-- In memory, a registration makes its directories as it does without. -/
theorem mkdirpathCopy_eq_mkdirpath {refused : List Bytes → Option Refusal} {path : CString}
    {prefixlen : ℕ} (h : prefixlen ≤ path.bytes.length) :
    mkdirpathCopy (fun _ => refused) path prefixlen t =
      .ok (mkdirpath refused path.bytes prefixlen t) := by
  rw [mkdirpathCopy_eq h, mkdirEach_callPaths, mkdirpath]

end Copy

/-! ## Which calls fail -/

section Blocked

variable {refused : ℕ → List Bytes → Option Refusal} {n k : ℕ} {t t' : FileTree Bytes}
  {p cs : List Bytes} {c : Bytes}

/-- The directories below a path, one below the other. -/
def belowPaths (p : List Bytes) : List Bytes → List (List Bytes)
  | [] => []
  | c :: cs => (p ++ [c]) :: belowPaths (p ++ [c]) cs

/-- Something is in the way of the first `k` of the directories of `cs` below `p`: a
    file stands where one of them would have to be, or a call is refused, the calls
    being numbered from `n` on. -/
def InTheWay (refused : ℕ → List Bytes → Option Refusal) (n k : ℕ) (t : FileTree Bytes)
    (p cs : List Bytes) : Prop :=
  ∃ i < k, t.node (p ++ cs.take i) = some .file ∨ refused (n + i) (p ++ cs.take (i + 1)) ≠ none

/-- The first `k` of the directories cannot all be made, or are not all there. -/
def Blocked (refused : ℕ → List Bytes → Option Refusal) (n k : ℕ) (t : FileTree Bytes)
    (p cs : List Bytes) : Prop :=
  0 < k ∧ ¬t.IsDir p ∨ InTheWay refused n k t p cs

theorem not_blocked_zero : ¬Blocked refused n 0 t p cs := by
  rintro (⟨h, -⟩ | ⟨i, hi, -⟩)
  · exact absurd h (Nat.lt_irrefl 0)
  · exact absurd hi (Nat.not_lt_zero i)

theorem Blocked.mono {k' : ℕ} (h : Blocked refused n k t p cs) (hk : k ≤ k') :
    Blocked refused n k' t p cs :=
  h.imp (fun h => ⟨h.1.trans_le hk, h.2⟩) fun ⟨i, hi, h⟩ => ⟨i, hi.trans_le hk, h⟩

theorem inTheWay_cons : InTheWay refused n (k + 1) t p (c :: cs) ↔
    (t.node p = some .file ∨ refused n (p ++ [c]) ≠ none) ∨
      InTheWay refused (n + 1) k t (p ++ [c]) cs := by
  have hpath : ∀ i, p ++ (c :: cs).take (i + 1) = p ++ [c] ++ cs.take i := fun i => by
    rw [List.take_succ_cons, List.append_cons]
  rw [InTheWay, Nat.exists_lt_succ_left, hpath 0, List.take_zero, List.take_zero, List.append_nil,
    List.append_nil]
  refine or_congr_right (exists_congr fun i => and_congr_right fun _ => ?_)
  rw [hpath, hpath, Nat.add_comm i 1, ← Nat.add_assoc, Nat.add_comm 1 i]

/-- Directories that are only looked at below a path are in the way when they were
    before. -/
theorem inTheWay_congr (hp : t'.node p = some .file ↔ t.node p = some .file)
    (h : ∀ r, r ≠ [] → t'.node (p ++ r) = t.node (p ++ r)) :
    InTheWay refused n k t' p cs ↔ InTheWay refused n k t p cs := by
  refine exists_congr fun i => and_congr_right fun _ => or_congr_left ?_
  by_cases hnil : cs.take i = []
  · rwa [hnil, List.append_nil]
  · rw [h _ hnil]

/-- A call goes through, or it stops: the first when the directory above is there
    and nothing is refused. -/
theorem mkdir_through : (refused n (p ++ [c]) = none ∧ t.IsDir p ∧ ∃ t',
      (t.mkdir (refused n) (p ++ [c]) = (t', none) ∨
        t.mkdir (refused n) (p ++ [c]) = (t', some .present)) ∧
      t'.node (p ++ [c]) ≠ none ∧
      (t'.node (p ++ [c]) = some .file ↔ t.node (p ++ [c]) = some .file) ∧
      ∀ r, r ≠ [] → t'.node (p ++ [c] ++ r) = t.node (p ++ [c] ++ r)) ∨
    (refused n (p ++ [c]) ≠ none ∨ ¬t.IsDir p) ∧
      ∃ e, e ≠ .present ∧ t.mkdir (refused n) (p ++ [c]) = (t, some e) := by
  rcases @FileTree.mkdir_cases Bytes Refusal t p c _ (refused n) with
    ⟨e, he, hmk⟩ | ⟨hr, ⟨hnode, hmk⟩ | ⟨hnode, ⟨hp, hmk⟩ | ⟨hp, hmk⟩⟩⟩
  · exact .inr ⟨.inl (he ▸ Option.some_ne_none e), .refused e, nofun, hmk⟩
  · exact .inl ⟨hr, t.parent p c hnode, t, .inr hmk, hnode, Iff.rfl, fun _ _ => rfl⟩
  · exact .inr ⟨.inr hp, .noParent, nofun, hmk⟩
  · refine .inl ⟨hr, hp, _, .inl hmk, ?_, ?_, fun r hr => FileTree.node_addDir hp ?_⟩
    · rw [show (t.addDir p c hp).node (p ++ [c]) = _ from FileTree.isDir_addDir hp]
      exact Option.some_ne_none _
    · rw [show (t.addDir p c hp).node (p ++ [c]) = _ from FileTree.isDir_addDir hp, hnode]
      exact iff_of_false (by decide) (by decide)
    · exact fun h => hr (List.append_right_eq_self.1 h)

/-- Behind a call that goes through, the rest is blocked when all was. -/
theorem blocked_cons (hr : refused n (p ++ [c]) = none) (hp : t.IsDir p)
    (hdir : t'.node (p ++ [c]) ≠ none)
    (hfile : t'.node (p ++ [c]) = some .file ↔ t.node (p ++ [c]) = some .file)
    (hbelow : ∀ r, r ≠ [] → t'.node (p ++ [c] ++ r) = t.node (p ++ [c] ++ r)) :
    Blocked refused (n + 1) k t' (p ++ [c]) cs ↔ Blocked refused n (k + 1) t p (c :: cs) := by
  have hnotfile : t.node p ≠ some .file := by
    rw [show t.node p = _ from hp]
    decide
  rw [Blocked, Blocked, inTheWay_congr hfile hbelow, inTheWay_cons,
    FileTree.isDir_iff_of_ne_none hdir, not_not, hfile]
  constructor
  · rintro (⟨hk, h⟩ | h)
    · exact .inr (.inr ⟨0, hk, .inl (by rwa [List.take_zero, List.append_nil])⟩)
    · exact .inr (.inr h)
  · rintro (⟨-, h⟩ | (h | h) | h)
    · exact absurd hp h
    · exact absurd h hnotfile
    · exact absurd hr h
    · exact .inr h

/-- A call that stops blocks all that follow, and itself. -/
theorem blocked_of_stop (h : refused n (p ++ [c]) ≠ none ∨ ¬t.IsDir p) :
    Blocked refused n (k + 1) t p (c :: cs) :=
  h.elim (fun h => .inr (inTheWay_cons.2 (.inl (.inr h)))) fun h => .inl ⟨Nat.succ_pos k, h⟩

/-- A call for what is there leaves the tree as it is. -/
theorem mkdir_of_ne_none {q : List Bytes} (h : t.node q ≠ none) :
    (t.mkdir (refused n) q).1 = t := by
  rw [FileTree.mkdir]
  cases refused n q with
  | some e => rfl
  | none =>
    dsimp only
    rw [if_pos h]

/-- The calls for one directory. -/
theorem mkdirEach_single (again : Bool) :
    let r := mkdirEach refused n ((p ++ [c]) :: if again then [p ++ [c]] else []) t
    (r.2 = none ↔ ¬Blocked refused n (if again then 1 else 0) t p [c]) ∧
      (r.1.IsDir (p ++ [c]) ↔ t.IsDir (p ++ [c]) ∨
        ¬Blocked refused n 1 t p [c] ∧ t.node (p ++ [c]) = none) := by
  rcases @mkdir_through refused n t p c with ⟨hr, hp, t', hmk, hthere, hfile, hbelow⟩ |
    ⟨hstop, e, he, hmk⟩
  · have hfree : ¬Blocked refused n 1 t p [c] := by
      rw [← blocked_cons hr hp hthere hfile hbelow]
      exact not_blocked_zero
    have hdir : t'.IsDir (p ++ [c]) ↔ t.IsDir (p ++ [c]) ∨
        ¬Blocked refused n 1 t p [c] ∧ t.node (p ++ [c]) = none := by
      rw [FileTree.isDir_iff_of_ne_none hthere, ne_eq, hfile, and_iff_right hfree, FileTree.IsDir]
      rcases t.node (p ++ [c]) with _ | _ | _ <;> decide
    cases again with
    | false =>
      have hrun : mkdirEach refused n [p ++ [c]] t = (t', none) := by
        rw [mkdirEach]
        rcases hmk with hmk | hmk <;> rw [hmk]
      exact ⟨iff_of_true (congrArg Prod.snd hrun) not_blocked_zero, hrun ▸ hdir⟩
    | true =>
      have hrun : mkdirEach refused n [p ++ [c], p ++ [c]] t = (t', none) := by
        rw [mkdirEach_of_through (List.cons_ne_nil _ _) hmk, mkdirEach, mkdir_of_ne_none hthere]
      exact ⟨iff_of_true (congrArg Prod.snd hrun) hfree, hrun ▸ hdir⟩
  · have hblocked : Blocked refused n 1 t p [c] := blocked_of_stop hstop
    have hdir : t.IsDir (p ++ [c]) ↔ t.IsDir (p ++ [c]) ∨
        ¬Blocked refused n 1 t p [c] ∧ t.node (p ++ [c]) = none :=
      (or_iff_left fun h => h.1 hblocked).symm
    cases again with
    | false =>
      have hrun : mkdirEach refused n [p ++ [c]] t = (t, none) := by rw [mkdirEach, hmk]
      exact ⟨iff_of_true (congrArg Prod.snd hrun) not_blocked_zero, hrun ▸ hdir⟩
    | true =>
      have hrun := mkdirEach_of_stop (List.cons_ne_nil (p ++ [c]) []) he hmk
      exact ⟨iff_of_false (hrun ▸ Option.some_ne_none _) (not_not.2 hblocked), hrun ▸ hdir⟩

/-- What the calls for some directories say and leave, where a path that ends with a
    slash has one call more: they fail when something is in the way of those that are
    not the last call, and there is a directory at the end when there was one, or when
    nothing was there and nothing in the way. -/
theorem mkdirEach_belowPaths (again : Bool) (hcs : cs ≠ []) :
    let r := mkdirEach refused n (belowPaths p cs ++ if again then [p ++ cs] else []) t
    (r.2 = none ↔ ¬Blocked refused n (if again then cs.length else cs.length - 1) t p cs) ∧
      (r.1.IsDir (p ++ cs) ↔ t.IsDir (p ++ cs) ∨
        ¬Blocked refused n cs.length t p cs ∧ t.node (p ++ cs) = none) := by
  induction cs generalizing n t p with
  | nil => exact absurd rfl hcs
  | cons c cs ih =>
    cases cs with
    | nil => exact mkdirEach_single again
    | cons c' cs =>
      have hpath : p ++ c :: c' :: cs = p ++ [c] ++ c' :: cs := List.append_cons ..
      have hcount : (if again then (c :: c' :: cs).length else (c :: c' :: cs).length - 1) =
          (if again then (c' :: cs).length else (c' :: cs).length - 1) + 1 := by
        cases again <;> rfl
      have hne : belowPaths (p ++ [c]) (c' :: cs) ++
          (if again then [p ++ [c] ++ c' :: cs] else []) ≠ [] := List.cons_ne_nil _ _
      rw [hpath, hcount, belowPaths, List.cons_append]
      rcases @mkdir_through refused n t p c with ⟨hr, hp, t', hmk, hthere, hfile, hbelow⟩ |
        ⟨hstop, e, he, hmk⟩
      · have hnext := @ih (n + 1) t' (p ++ [c]) (List.cons_ne_nil _ _)
        rw [blocked_cons hr hp hthere hfile hbelow, blocked_cons hr hp hthere hfile hbelow,
          FileTree.IsDir, hbelow _ (List.cons_ne_nil _ _)] at hnext
        rw [mkdirEach_of_through hne hmk]
        exact hnext
      · rw [mkdirEach_of_stop hne he hmk]
        exact ⟨iff_of_false (Option.some_ne_none _) (not_not.2 (blocked_of_stop hstop)),
          (or_iff_left fun h => h.1 (blocked_of_stop hstop)).symm⟩

end Blocked

/-! ## The names of the path -/

section Names

variable {wpath p a b : Bytes}

theorem strtok_append_behind (a : Bytes) (hb : b = [] ∨ ∃ r, b = ch '/' :: r) :
    strtok (ch '/') (a ++ b) = strtok (ch '/') a ++ strtok (ch '/') b := by
  rcases hb with rfl | ⟨r, rfl⟩
  · rw [List.append_nil, strtok_eq_nil_iff.2 (List.forall_mem_nil _), List.append_nil]
  · have hslash : strtok (ch '/') (ch '/' :: r) = strtok (ch '/') r := by
      rw [← List.nil_append (ch '/' :: r), strtok_append_cons,
        strtok_eq_nil_iff.2 (List.forall_mem_nil _), List.nil_append]
    rw [strtok_append_cons, hslash]

/-- Slashes in front of a string change nothing. -/
theorem strtok_slashes (ha : ∀ c ∈ a, c = ch '/') :
    strtok (ch '/') (a ++ b) = strtok (ch '/') b := by
  induction a with
  | nil => rfl
  | cons c a ih =>
    rw [List.forall_mem_cons] at ha
    rw [List.cons_append, ha.1, ← List.nil_append (ch '/' :: (a ++ b)), strtok_append_cons,
      strtok_eq_nil_iff.2 (List.forall_mem_nil _), List.nil_append, ih ha.2]

/-- Behind slashes there is no name. -/
theorem nextName_slashes (hp : ∀ c ∈ p, c = ch '/') : nextName p = p ∧ behindName p = [] := by
  have hall : ∀ c ∈ p, decide (c = ch '/') = true := fun c hc => decide_eq_true (hp c hc)
  have hdrop : p.dropWhile (· = ch '/') = [] := List.dropWhile_eq_nil_iff.2 hall
  rw [nextName, behindName, hdrop, List.takeWhile_eq_self_iff.2 hall]
  exact ⟨List.append_nil p, rfl⟩

/-- The next name, where there is one. -/
theorem nextName_name (hp : ∃ c ∈ p, c ≠ ch '/') : ∃ c, IsName c ∧
    strtok (ch '/') (nextName p) = [c] ∧ (nextName p).getLast? ≠ some (ch '/') := by
  have hslash : ∀ b ∈ (p.dropWhile (· = ch '/')).takeWhile (· ≠ ch '/'), b ≠ ch '/' := fun b hb =>
    of_decide_eq_true (List.mem_takeWhile_imp (p := fun c => decide (c ≠ ch '/')) hb)
  have hne : (p.dropWhile (· = ch '/')).takeWhile (· ≠ ch '/') ≠ [] := by
    have hnot := List.head?_dropWhile_not (fun c => decide (c = ch '/')) p
    cases hcons : p.dropWhile (· = ch '/') with
    | nil =>
      obtain ⟨c, hc, hne⟩ := hp
      exact absurd (of_decide_eq_true (List.dropWhile_eq_nil_iff.1 hcons c hc)) hne
    | cons y q =>
      rw [hcons] at hnot
      have hy : ¬y = ch '/' := of_decide_eq_false hnot
      rw [List.takeWhile_cons_of_pos (by simpa using hy)]
      exact List.cons_ne_nil _ _
  refine ⟨_, ⟨hne, fun h => hslash _ h rfl⟩, ?_, ?_⟩
  · rw [nextName, strtok_slashes fun c hc =>
      of_decide_eq_true (List.mem_takeWhile_imp (p := fun c => decide (c = ch '/')) hc),
      strtok_of_notMem fun h => hslash _ h rfl, List.filter_singleton]
    rw [decide_eq_true hne, cond_true]
  · rw [nextName, List.getLast?_append_of_ne_nil _ hne]
    exact fun h => hslash _ (List.mem_of_getLast? h) rfl

/-- The calls, where there is a name: the first is for the directory of the next name,
    and those behind it for the directories below this one, and once more for the last
    of them when the path ends with a slash. -/
theorem callPaths_eq (hp : ∃ c ∈ p, c ≠ ch '/') :
    callPaths wpath p = strtok (ch '/') (wpath ++ nextName p) ::
      (belowPaths (strtok (ch '/') (wpath ++ nextName p)) (strtok (ch '/') (behindName p)) ++
        if p.getLast? = some (ch '/') then
          [strtok (ch '/') (wpath ++ nextName p) ++ strtok (ch '/') (behindName p)] else []) := by
  induction hlen : p.length using Nat.strong_induction_on generalizing wpath p with
  | _ len ih =>
    obtain ⟨-, -, -, hlast⟩ := nextName_name hp
    rw [callPaths]
    by_cases hend : behindName p = []
    · have hp' : nextName p = p := by
        rw [← List.append_nil (nextName p), ← hend, nextName_append_behindName]
      rw [hp'] at hlast
      rw [dif_pos hend, hend, strtok_eq_nil_iff.2 (List.forall_mem_nil _), if_neg hlast]
      rfl
    · have hgetLast : p.getLast? = (behindName p).getLast? := by
        rw [← List.getLast?_append_of_ne_nil (nextName p) hend, nextName_append_behindName]
      have hslash := behindName_cases p
      rw [dif_neg hend, hgetLast]
      congr 1
      by_cases hall : ∀ c ∈ behindName p, c = ch '/'
      · -- only slashes are left: one more call for the same directory
        obtain ⟨hnext, hbehind⟩ := nextName_slashes hall
        have hends : (behindName p).getLast? = some (ch '/') := by
          rw [List.getLast?_eq_getLast_of_ne_nil hend, hall _ (List.getLast_mem hend)]
        rw [callPaths, hnext, hbehind, dif_pos rfl, if_pos hends, strtok_append_behind _ hslash,
          strtok_eq_nil_iff.2 hall]
        rfl
      · push Not at hall
        obtain ⟨c, hc, hname, -⟩ := nextName_name hall
        have hsplit : strtok (ch '/') (behindName p) =
            [c] ++ strtok (ch '/') (behindName (behindName p)) := by
          rw [← hname, ← strtok_append_behind _ (behindName_cases _), nextName_append_behindName]
        have hstart : nextName (behindName p) = [] ∨
            ∃ r, nextName (behindName p) = ch '/' :: r := by
          obtain ⟨r, hr⟩ := hslash.resolve_left hend
          rw [hr, nextName, List.takeWhile_cons_of_pos (by simp)]
          exact .inr ⟨_, rfl⟩
        rw [ih _ (hlen ▸ length_behindName_lt hend) hall rfl, strtok_append_behind _ hstart, hname,
          hsplit, List.append_assoc]
        rfl

end Names

/-! ## When zero means that there are all the directories -/

/-- Every directory along a path below a prefix of it is there: those of the parts of
    the path that are longer and end behind a name. -/
def AllBelow (path : Bytes) (prefixlen : ℕ) (t : FileTree Bytes) : Prop :=
  ∀ a b, path = a ++ b → prefixlen < a.length → a.getLast? ≠ some (ch '/') →
    (b = [] ∨ ∃ r, b = ch '/' :: r) → t.IsDir (strtok (ch '/') a)

/-- The directory the first of them stands in. -/
def aboveNames (path : Bytes) (prefixlen : ℕ) : List Bytes :=
  (strtok (ch '/') (path.take prefixlen ++ nextName (path.drop prefixlen))).dropLast

/-- The names of the directories below the prefix. -/
def belowNames (path : Bytes) (prefixlen : ℕ) : List Bytes :=
  (strtok (ch '/') path).drop (aboveNames path prefixlen).length

/-- How many of their calls are not the last one. -/
def reportedCalls (path : Bytes) (prefixlen : ℕ) : ℕ :=
  if path.getLast? = some (ch '/') then (belowNames path prefixlen).length
  else (belowNames path prefixlen).length - 1

/-- There is no name below the prefix; or, when the last directory is there, no call
    before the last one is refused, and when it is not there, something is in the way of
    a call before the last one, or nothing is in the way of any, the last directory
    included. -/
def Truthful (refused : ℕ → List Bytes → Option Refusal) (path : Bytes) (prefixlen : ℕ)
    (t : FileTree Bytes) : Prop :=
  let p := aboveNames path prefixlen
  let cs := belowNames path prefixlen
  let k := reportedCalls path prefixlen
  (∀ c ∈ path.drop prefixlen, c = ch '/') ∨
    (t.IsDir (p ++ cs) → ∀ i < k, refused i (p ++ cs.take (i + 1)) = none) ∧
      (¬t.IsDir (p ++ cs) → Blocked refused 0 k t p cs ∨
        ¬Blocked refused 0 cs.length t p cs ∧ t.node (p ++ cs) = none)

section Truth

variable {refused : ℕ → List Bytes → Option Refusal} {path : Bytes} {prefixlen : ℕ}
  {t : FileTree Bytes}

/-- A path is a part that ends behind a name, and slashes. -/
theorem exists_append_slashes (path : Bytes) : ∃ a b, path = a ++ b ∧
    a.getLast? ≠ some (ch '/') ∧ ∀ c ∈ b, c = ch '/' := by
  induction path using List.reverseRecOn with
  | nil => exact ⟨[], [], rfl, by decide, List.forall_mem_nil _⟩
  | append_singleton path c ih =>
    by_cases hc : c = ch '/'
    · obtain ⟨a, b, rfl, ha, hb⟩ := ih
      exact ⟨a, b ++ [c], List.append_assoc .., ha,
        List.forall_mem_append.2 ⟨hb, List.forall_mem_singleton.2 hc⟩⟩
    · refine ⟨path ++ [c], [], (List.append_nil _).symm, ?_, List.forall_mem_nil _⟩
      rw [List.getLast?_concat]
      exact fun h => hc (Option.some.inj h)

/-- They are there when there are no names, or when the last one is there. -/
theorem allBelow_iff (h : ∃ c ∈ path.drop prefixlen, c ≠ ch '/') :
    AllBelow path prefixlen t ↔ t.IsDir (strtok (ch '/') path) := by
  constructor
  · intro hall
    obtain ⟨a, b, hab, ha, hb⟩ := exists_append_slashes path
    have hends : b = [] ∨ ∃ r, b = ch '/' :: r := by
      cases b with
      | nil => exact .inl rfl
      | cons c b => exact .inr ⟨b, by rw [hb c List.mem_cons_self]⟩
    have hlt : prefixlen < a.length := by
      by_contra hle
      obtain ⟨c, hc, hne⟩ := h
      rw [hab, List.drop_append, List.drop_eq_nil_of_le (not_lt.1 hle), List.nil_append] at hc
      exact hne (hb c (List.mem_of_mem_drop hc))
    have hdir := hall a b hab hlt ha hends
    rwa [hab, strtok_append_behind _ hends, strtok_eq_nil_iff.2 hb, List.append_nil]
  · rintro hdir a b rfl - - hb
    rw [strtok_append_behind _ hb] at hdir
    exact hdir.of_prefix (List.prefix_append _ _)

/-- Without names there is nothing to be there. -/
theorem allBelow_of_slashes (h : ∀ c ∈ path.drop prefixlen, c = ch '/') :
    AllBelow path prefixlen t := by
  rintro a b rfl hlt ha -
  rw [List.drop_append_of_le_length hlt.le] at h
  have hne : a.drop prefixlen ≠ [] := by
    rw [ne_eq, List.drop_eq_nil_iff]
    omega
  refine absurd ?_ ha
  rw [← List.take_append_drop prefixlen a, List.getLast?_append_of_ne_nil _ hne,
    List.getLast?_eq_getLast_of_ne_nil hne,
    h _ (List.mem_append_left _ (List.getLast_mem hne))]

/-- The calls, by the names of the path. -/
theorem callPaths_eq_belowPaths (h : ∃ c ∈ path.drop prefixlen, c ≠ ch '/') :
    belowNames path prefixlen ≠ [] ∧
      aboveNames path prefixlen ++ belowNames path prefixlen = strtok (ch '/') path ∧
      callPaths (path.take prefixlen) (path.drop prefixlen) =
        belowPaths (aboveNames path prefixlen) (belowNames path prefixlen) ++
          if path.getLast? = some (ch '/') then
            [aboveNames path prefixlen ++ belowNames path prefixlen] else [] := by
  set q := strtok (ch '/') (path.take prefixlen ++ nextName (path.drop prefixlen)) with hq
  set names := strtok (ch '/') (behindName (path.drop prefixlen)) with hnames
  have hqne : q ≠ [] := by
    obtain ⟨c, -, hname, -⟩ := nextName_name h
    intro hnil
    have hnone := strtok_eq_nil_iff.2 fun b hb =>
      strtok_eq_nil_iff.1 hnil b (List.mem_append_right _ hb)
    rw [hname] at hnone
    exact absurd hnone (List.cons_ne_nil _ _)
  have hwhole : q.dropLast ++ q.getLast hqne :: names = q ++ names := by
    rw [List.append_cons, List.dropLast_append_getLast]
  have hsplit : strtok (ch '/') path = q ++ names := by
    rw [hq, hnames, ← strtok_append_behind _ (behindName_cases _), List.append_assoc,
      nextName_append_behindName, List.take_append_drop]
  have habove : aboveNames path prefixlen = q.dropLast := rfl
  have hbelow : belowNames path prefixlen = q.getLast hqne :: names := by
    rw [belowNames, habove, hsplit, ← hwhole, List.drop_left]
  have hgetLast : (path.drop prefixlen).getLast? = path.getLast? := by
    have hne : path.drop prefixlen ≠ [] := by
      obtain ⟨c, hc, -⟩ := h
      exact List.ne_nil_of_mem hc
    rw [← List.getLast?_append_of_ne_nil (path.take prefixlen) hne, List.take_append_drop]
  refine ⟨hbelow ▸ List.cons_ne_nil _ _, ?_, ?_⟩
  · rw [hsplit, habove, hbelow, hwhole]
  · rw [callPaths_eq h, ← hq, ← hnames, hgetLast, hbelow, habove, belowPaths, hwhole,
      List.dropLast_append_getLast, List.cons_append]

/-- What the function returns and leaves, where there is a name below the prefix. -/
theorem mkdirpathCopy_returns {path : CString} (h : prefixlen ≤ path.bytes.length)
    (hname : ∃ c ∈ path.bytes.drop prefixlen, c ≠ ch '/') :
    ∃ t' ret, mkdirpathCopy refused path prefixlen t = .ok (t', ret) ∧
      (ret = none ↔ ¬Blocked refused 0 (reportedCalls path.bytes prefixlen) t
        (aboveNames path.bytes prefixlen) (belowNames path.bytes prefixlen)) ∧
      (AllBelow path.bytes prefixlen t' ↔
        t.IsDir (aboveNames path.bytes prefixlen ++ belowNames path.bytes prefixlen) ∨
          ¬Blocked refused 0 (belowNames path.bytes prefixlen).length t
              (aboveNames path.bytes prefixlen) (belowNames path.bytes prefixlen) ∧
            t.node (aboveNames path.bytes prefixlen ++ belowNames path.bytes prefixlen) =
              none) := by
  obtain ⟨hne, hwhole, hcalls⟩ := callPaths_eq_belowPaths hname
  have hrun := @mkdirEach_belowPaths refused 0 t (aboveNames path.bytes prefixlen)
    (belowNames path.bytes prefixlen) (decide (path.bytes.getLast? = some (ch '/'))) hne
  simp only [decide_eq_true_eq, ← hcalls] at hrun
  rw [← reportedCalls] at hrun
  refine ⟨_, _, mkdirpathCopy_eq h, hrun.1, ?_⟩
  rw [allBelow_iff hname, ← hwhole]
  exact hrun.2

/-- With the last directory there, the calls for some of them are blocked when one of
    them is refused. -/
theorem blocked_of_isDir {n k : ℕ} {p cs : List Bytes} (h : t.IsDir (p ++ cs)) :
    Blocked refused n k t p cs ↔ ∃ i < k, refused (n + i) (p ++ cs.take (i + 1)) ≠ none := by
  have hdir : ∀ i, t.IsDir (p ++ cs.take i) := fun i =>
    h.of_prefix ((List.prefix_append_right_inj p).2 (List.take_prefix i cs))
  constructor
  · rintro (⟨-, hno⟩ | ⟨i, hi, hfile | hr⟩)
    · exact absurd (h.of_prefix (List.prefix_append p cs)) hno
    · exact absurd ((hdir i).symm.trans hfile) (by decide)
    · exact ⟨i, hi, hr⟩
  · rintro ⟨i, hi, hr⟩
    exact .inr ⟨i, hi, .inr hr⟩

theorem reportedCalls_le : reportedCalls path prefixlen ≤ (belowNames path prefixlen).length := by
  rw [reportedCalls]
  split_ifs
  · exact le_rfl
  · exact Nat.sub_le _ _

end Truth

/-- The function returns, without leaving its copy of the path, and it returns zero
    exactly when all the directories below the prefix are there, when `Truthful` says
    so, and only then. -/
theorem mkdirpath_truth (refused : ℕ → List Bytes → Option Refusal) (path : CString)
    (prefixlen : ℕ) (t : FileTree Bytes) (h : prefixlen ≤ path.bytes.length) :
    ∃ t' ret, mkdirpathCopy refused path prefixlen t = .ok (t', ret) ∧
      ((ret = none ↔ AllBelow path.bytes prefixlen t') ↔
        Truthful refused path.bytes prefixlen t) := by
  by_cases hname : ∀ c ∈ path.bytes.drop prefixlen, c = ch '/'
  · obtain ⟨hnext, hbehind⟩ := nextName_slashes hname
    have hret : (mkdirEach refused 0
        (callPaths (path.bytes.take prefixlen) (path.bytes.drop prefixlen)) t).2 = none := by
      rw [callPaths, hbehind, dif_pos rfl, mkdirEach]
    exact ⟨_, _, mkdirpathCopy_eq h, iff_of_true (iff_of_true hret (allBelow_of_slashes hname))
      (.inl hname)⟩
  · have hsome : ∃ c ∈ path.bytes.drop prefixlen, c ≠ ch '/' := by
      push Not at hname
      exact hname
    obtain ⟨t', ret, hrun, hret, hall⟩ := @mkdirpathCopy_returns refused prefixlen t path h hsome
    refine ⟨t', ret, hrun, ?_⟩
    rw [hret, hall, Truthful, or_iff_right hname]
    by_cases hdir : t.IsDir (aboveNames path.bytes prefixlen ++ belowNames path.bytes prefixlen)
    · have hfree : (∀ i < reportedCalls path.bytes prefixlen, refused i
          (aboveNames path.bytes prefixlen ++ (belowNames path.bytes prefixlen).take (i + 1)) =
            none) ↔ ¬Blocked refused 0 (reportedCalls path.bytes prefixlen) t
              (aboveNames path.bytes prefixlen) (belowNames path.bytes prefixlen) := by
        rw [blocked_of_isDir hdir]
        push Not
        simp only [Nat.zero_add]
      rw [hfree]
      tauto
    · -- a call that is blocked before the last one is blocked among all
      have hmono := fun hb : Blocked refused 0 (reportedCalls path.bytes prefixlen) t
        (aboveNames path.bytes prefixlen) (belowNames path.bytes prefixlen) =>
          hb.mono reportedCalls_le
      tauto

/-- The directory of the data in a new storage. -/
def storagePath : CString := ⟨ascii "/jp/data", by decide⟩

theorem storagePath_names : aboveNames storagePath.bytes 3 = [ascii "jp"] ∧
    belowNames storagePath.bytes 3 = [ascii "data"] ∧ reportedCalls storagePath.bytes 3 = 0 := by
  decide

/-- When nothing is refused, the directory is made, and zero says so. -/
theorem mkdirpath_truth_storagePath : ∃ t' ret,
    mkdirpathCopy (fun _ _ => none) storagePath 3 newTree = .ok (t', ret) ∧
      (ret = none ↔ AllBelow storagePath.bytes 3 t') := by
  obtain ⟨t', ret, hrun, htruth⟩ :=
    mkdirpath_truth (fun _ _ => none) storagePath 3 newTree (by decide)
  refine ⟨t', ret, hrun, htruth.2 (.inr ⟨fun _ _ _ => rfl, fun _ => .inr ⟨?_, ?_⟩⟩)⟩
  · rw [storagePath_names.1, storagePath_names.2.1]
    rintro (⟨-, h⟩ | ⟨i, hi, h | h⟩)
    · exact h (show newTree.node [ascii "jp"] = some .directory by decide)
    · obtain rfl := Nat.lt_one_iff.1 hi
      exact absurd h (by decide)
    · exact h rfl
  · rw [storagePath_names.1, storagePath_names.2.1]
    decide

/-- When it is refused, there is no directory, and zero says that there is. -/
theorem not_mkdirpath_truth_storagePath : ¬∃ t' ret,
    mkdirpathCopy (fun _ _ => some ⟨Errno.EIO, by decide⟩) storagePath 3 newTree = .ok (t', ret) ∧
      (ret = none ↔ AllBelow storagePath.bytes 3 t') := by
  rintro ⟨t', ret, hrun, htruth⟩
  obtain ⟨t'', ret', hrun', hret, hall⟩ := @mkdirpathCopy_returns
    (fun _ _ => some ⟨Errno.EIO, by decide⟩) 3 newTree storagePath (by decide)
    ⟨ch 'd', by decide, by decide⟩
  obtain ⟨rfl, rfl⟩ := Prod.mk.inj (Except.ok.inj (hrun.symm.trans hrun'))
  rw [storagePath_names.1, storagePath_names.2.1, storagePath_names.2.2] at hret
  rw [storagePath_names.1, storagePath_names.2.1] at hall
  rcases hall.1 (htruth.1 (hret.2 not_blocked_zero)) with hdir | ⟨hfree, -⟩
  · exact absurd (show newTree.node _ = some Node.directory from hdir) (by decide)
  · exact hfree (.inr ⟨0, Nat.one_pos, .inr (Option.some_ne_none _)⟩)

end JobProvenance
