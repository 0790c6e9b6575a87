import Mathlib.Data.List.Infix
import Mathlib.Tactic

/-!
# Trees of files

A tree of files and directories, as what stands at each path: a path is the list of its
components, and what stands behind the last of them stands in a directory, which is a
field of `FileTree`.

* `FileTree.mkdir` makes a directory, unless the system refuses to;
* `FileTree.mkdirs` makes one below the other, and goes on when there is something already;
* `mkdirs_reaches_iff`: when it gets past all but the last and there is a directory at the
  end.
-/

namespace JobProvenance

/-- What stands at a path. -/
inductive Node
  | directory
  | file
  deriving DecidableEq

/-- A tree of files of components in `α`. -/
structure FileTree (α : Type*) where
  /-- What stands at a path. -/
  node : List α → Option Node
  /-- What stands in something stands in a directory. -/
  parent : ∀ p c, node (p ++ [c]) ≠ none → node p = some .directory

/-- Why a directory is not made: there is something, there is no directory to make it in, or
    the system refuses. -/
inductive MkdirError (ε : Type*)
  | present
  | noParent
  | refused (e : ε)

namespace FileTree

variable {α ε : Type*} {t : FileTree α} {p q : List α} {c : α} {cs : List α}

/-- A directory stands at a path. -/
def IsDir (t : FileTree α) (p : List α) : Prop := t.node p = some .directory

/-- A directory stands in directories. -/
theorem IsDir.of_prefix (hq : t.IsDir q) (h : p <+: q) : t.IsDir p := by
  induction q using List.reverseRecOn generalizing p with
  | nil => exact List.prefix_nil.1 h ▸ hq
  | append_singleton q c ih =>
    rcases List.prefix_concat_iff.1 h with rfl | h
    · exact hq
    · refine ih (t.parent q c ?_) h
      rw [show t.node (q ++ [c]) = _ from hq]
      exact Option.some_ne_none _

variable [DecidableEq α]

/-- The tree with another directory in a directory. -/
def addDir (t : FileTree α) (p : List α) (c : α) (hp : t.IsDir p) : FileTree α where
  node := Function.update t.node (p ++ [c]) (some .directory)
  parent q c' hq := by
    by_cases hqp : q = p ++ [c]
    · rw [hqp, Function.update_self]
    rw [Function.update_of_ne hqp]
    by_cases hpq : q ++ [c'] = p ++ [c]
    · obtain ⟨rfl, -⟩ := List.append_inj' hpq rfl
      exact hp
    · rw [Function.update_of_ne hpq] at hq
      exact t.parent q c' hq

/-- Makes a directory: the tree, and why it is not made. -/
def mkdir (refused : List α → Option ε) (t : FileTree α) (q : List α) :
    FileTree α × Option (MkdirError ε) :=
  match refused q with
  | some e => (t, some (.refused e))
  | none =>
    if t.node q ≠ none then (t, some .present)
    else if hp : ∃ _ : q ≠ [], t.node q.dropLast = some .directory then
      (t.addDir q.dropLast (q.getLast hp.1) hp.2, none)
    else (t, some .noParent)

/-- Makes one directory below the other, and stops when something other than that there is
    something already is in the way: the tree, and what is left to make then, and why. -/
def mkdirs (refused : List α → Option ε) (t : FileTree α) (p : List α) :
    List α → FileTree α × Option (List α × MkdirError ε)
  | [] => (t, none)
  | c :: cs =>
    match mkdir refused t (p ++ [c]) with
    | (t', none) => mkdirs refused t' (p ++ [c]) cs
    | (t', some .present) => mkdirs refused t' (p ++ [c]) cs
    | (t', some e) => (t', some (cs, e))

/-- No file stands in the way of a directory below a path and of those above it, and nothing
    is refused that is looked at; the directory itself may be there already. -/
def CanMake (refused : List α → Option ε) (t : FileTree α) : List α → List α → Prop
  | _, [] => True
  | p, [c] => t.IsDir (p ++ [c]) ∨ t.node (p ++ [c]) = none ∧ refused (p ++ [c]) = none
  | p, c :: c' :: cs => (t.node (p ++ [c]) ≠ some .file ∧ refused (p ++ [c]) = none) ∧
      CanMake refused t (p ++ [c]) (c' :: cs)

variable {refused : List α → Option ε} {t' : FileTree α}

theorem isDir_addDir (hp : t.IsDir p) : (t.addDir p c hp).IsDir (p ++ [c]) :=
  Function.update_self ..

/-- Everything but the directory is as it was. -/
theorem node_addDir (hp : t.IsDir p) (hq : q ≠ p ++ [c]) : (t.addDir p c hp).node q = t.node q :=
  Function.update_of_ne hq ..

/-- A directory is refused, or there is something, or no directory to make it in, or it is
    made. -/
theorem mkdir_cases : (∃ e, refused (p ++ [c]) = some e ∧
      mkdir refused t (p ++ [c]) = (t, some (.refused e))) ∨
    refused (p ++ [c]) = none ∧
      (t.node (p ++ [c]) ≠ none ∧ mkdir refused t (p ++ [c]) = (t, some .present) ∨
        t.node (p ++ [c]) = none ∧
          (¬t.IsDir p ∧ mkdir refused t (p ++ [c]) = (t, some .noParent) ∨
            ∃ hp : t.IsDir p, mkdir refused t (p ++ [c]) = (t.addDir p c hp, none))) := by
  cases hr : refused (p ++ [c]) with
  | some e => exact .inl ⟨e, rfl, by rw [mkdir, hr]⟩
  | none =>
    refine .inr ⟨rfl, ?_⟩
    by_cases hnode : t.node (p ++ [c]) = none
    · refine .inr ⟨hnode, ?_⟩
      by_cases hp : t.IsDir p
      · refine .inr ⟨hp, ?_⟩
        have hex : ∃ _ : p ++ [c] ≠ [], t.node (p ++ [c]).dropLast = some .directory :=
          ⟨by simp, by rw [List.dropLast_concat]; exact hp⟩
        rw [mkdir, hr]
        dsimp only
        rw [if_neg (not_not.2 hnode), dif_pos hex]
        simp only [List.dropLast_concat, List.getLast_concat]
      · refine .inl ⟨hp, ?_⟩
        have hex : ¬∃ _ : p ++ [c] ≠ [], t.node (p ++ [c]).dropLast = some .directory := by
          rw [List.dropLast_concat]
          exact fun h => hp h.2
        rw [mkdir, hr]
        dsimp only
        rw [if_neg (not_not.2 hnode), dif_neg hex]
    · refine .inl ⟨hnode, ?_⟩
      rw [mkdir, hr]
      exact if_pos hnode

/-- That there is something already does not stop. -/
theorem ne_present_of_mkdirs {rest : List α} {e : MkdirError ε}
    (h : (mkdirs refused t p cs).2 = some (rest, e)) : e ≠ .present := by
  induction cs generalizing t p with
  | nil => cases h
  | cons c cs ih =>
    rw [mkdirs] at h
    split at h
    · exact ih h
    · exact ih h
    · next hne _ =>
      cases h
      exact hne

omit [DecidableEq α] in
theorem isDir_iff_of_ne_none (h : t.node q ≠ none) : t.IsDir q ↔ t.node q ≠ some .file := by
  rw [IsDir]
  cases hq : t.node q with
  | none => exact absurd hq h
  | some node => cases node <;> decide

omit [DecidableEq α] in
/-- What can be made below a path depends on what stands below it. -/
theorem canMake_congr (h : ∀ r, r ≠ [] → t'.node (p ++ r) = t.node (p ++ r)) :
    CanMake refused t' p cs ↔ CanMake refused t p cs := by
  induction cs generalizing p with
  | nil => exact Iff.rfl
  | cons c cs ih =>
    have hc := h [c] (List.cons_ne_nil _ _)
    cases cs with
    | nil => rw [CanMake, CanMake, IsDir, IsDir, hc]
    | cons c' cs =>
      rw [CanMake, CanMake, hc, ih fun r hr => ?_]
      rw [List.append_assoc]
      exact h _ (List.append_ne_nil_of_left_ne_nil (List.cons_ne_nil _ _) _)

/-- The last directory is there in the end, and nothing was in the way of those above it. -/
def Reaches (result : FileTree α × Option (List α × MkdirError ε)) (q : List α) : Prop :=
  result.1.IsDir q ∧ ∀ rest e, result.2 = some (rest, e) → rest = []

omit [DecidableEq α] in
theorem reaches_done {cs : List α} :
    Reaches (t, (none : Option (List α × MkdirError ε))) cs ↔ t.IsDir cs :=
  and_iff_left nofun

omit [DecidableEq α] in
theorem reaches_stopped {e : MkdirError ε} : Reaches (t, some (cs, e)) q ↔ t.IsDir q ∧ cs = [] :=
  and_congr_right fun _ => ⟨fun h => h _ _ rfl, by rintro rfl _ _ ⟨⟩; rfl⟩

/-- It is when there is a directory to make them in and nothing is in the way. -/
theorem mkdirs_reaches_iff (hcs : cs ≠ []) : Reaches (mkdirs refused t p cs) (p ++ cs) ↔
    t.IsDir p ∧ CanMake refused t p cs := by
  induction cs generalizing t p with
  | nil => exact absurd rfl hcs
  | cons c cs ih =>
    have hparent : t.node (p ++ [c]) ≠ none → t.IsDir p := t.parent p c
    have hdir : t.IsDir (p ++ [c]) → t.node (p ++ [c]) ≠ none := fun h => by
      rw [show t.node (p ++ [c]) = _ from h]
      exact Option.some_ne_none _
    have hmkdir := @mkdir_cases α ε t p c _ refused
    cases cs with
    | nil =>
      rw [mkdirs, CanMake]
      rcases hmkdir with ⟨e, hr, hmk⟩ | ⟨hr, ⟨hnode, hmk⟩ | ⟨hnode, ⟨hp, hmk⟩ | ⟨hp, hmk⟩⟩⟩
      · -- it may be there all the same
        simp only [hmk, hr, reaches_stopped, and_true, reduceCtorEq, and_false, or_false]
        exact ⟨fun h => ⟨hparent (hdir h), h⟩, fun h => h.2⟩
      · simp only [hmk, mkdirs, reaches_done, hnode, false_and, or_false]
        exact ⟨fun h => ⟨hparent hnode, h⟩, fun h => h.2⟩
      · simp only [hmk, reaches_stopped, and_true, hp, false_and, iff_false]
        exact fun h => hdir h hnode
      · simp only [hmk, mkdirs, reaches_done, hnode, hr, and_true, or_true]
        exact iff_of_true (isDir_addDir hp) hp
    | cons c' cs =>
      have ih := fun t => @ih t (p ++ [c]) (List.cons_ne_nil c' cs)
      rw [mkdirs, CanMake, List.append_cons p c (c' :: cs)]
      rcases hmkdir with ⟨e, hr, hmk⟩ | ⟨hr, ⟨hnode, hmk⟩ | ⟨hnode, ⟨hp, hmk⟩ | ⟨hp, hmk⟩⟩⟩
      · simp only [hmk, hr, reaches_stopped, reduceCtorEq, and_false, false_and]
      · simp only [hmk, hr, ih, and_true, isDir_iff_of_ne_none hnode]
        exact (and_iff_right (hparent hnode)).symm
      · simp only [hmk, reaches_stopped, reduceCtorEq, and_false, hp, false_and]
      · have hbelow : ∀ r, r ≠ [] → (t.addDir p c hp).node (p ++ [c] ++ r) = t.node (p ++ [c] ++ r) :=
          fun r hr => node_addDir hp fun h => hr (List.append_right_eq_self.1 h)
        simp only [hmk, hr, ih, and_true, hnode, canMake_congr hbelow]
        exact and_congr (iff_of_true (isDir_addDir hp) hp) (and_iff_right nofun).symm

end FileTree

end JobProvenance
