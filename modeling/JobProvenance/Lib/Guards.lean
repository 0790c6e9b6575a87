import Mathlib.Data.Finset.Basic
import Mathlib.Tactic

/-!
# Locks

Processes take locks and release them; which ones they hold is not seen by the
others, only whether a lock is taken. `Guards` says that the locks that are held
are taken, each by one process. It is kept by whatever takes a lock only when
it is free (`Guards.acquire`) and releases only what it holds (`Guards.release`).
-/

namespace JobProvenance

variable {ι κ : Type*}

/-- The locks that are held are taken, and no lock is held by two processes. -/
structure Guards (taken : κ → Prop) (held : ι → Finset κ) : Prop where
  taken : ∀ i, ∀ k ∈ held i, taken k
  unique : ∀ i j k, k ∈ held i → k ∈ held j → i = j

namespace Guards

variable {taken taken' : κ → Prop} {held : ι → Finset κ}

/-- What takes locks and releases none. -/
theorem mono (h : Guards taken held) (ht : ∀ l, taken l → taken' l) : Guards taken' held :=
  ⟨fun i k hk => ht k (h.taken i k hk), h.unique⟩

/-- Nobody holds a lock that is free. -/
theorem notMem (h : Guards taken held) {i : ι} {k : κ} (hk : ¬taken k) : k ∉ held i :=
  fun hmem => hk (h.taken i k hmem)

variable [DecidableEq ι] [DecidableEq κ]

/-- Taking a lock that is free. -/
theorem acquire (h : Guards taken held) (i : ι) {k : κ} (hfree : ¬taken k) (hk : taken' k)
    (ht : ∀ l, taken l → taken' l) : Guards taken' (Function.update held i (insert k (held i))) := by
  have hmem : ∀ j l, l ∈ Function.update held i (insert k (held i)) j →
      (j = i ∧ l = k) ∨ l ∈ held j := by
    intro j l hl
    by_cases hj : j = i
    · subst hj
      rw [Function.update_self, Finset.mem_insert] at hl
      exact hl.imp_left fun hl => ⟨rfl, hl⟩
    · rw [Function.update_of_ne hj] at hl
      exact .inr hl
  refine ⟨fun j l hl => ?_, fun j j' l hl hl' => ?_⟩
  · rcases hmem j l hl with ⟨-, rfl⟩ | hj
    · exact hk
    · exact ht l (h.taken j l hj)
  · rcases hmem j l hl with ⟨hj, hlk⟩ | hj
    · rcases hmem j' l hl' with ⟨hj', -⟩ | hj'
      · rw [hj, hj']
      · exact absurd (hlk ▸ hj') (h.notMem hfree)
    · rcases hmem j' l hl' with ⟨-, hlk⟩ | hj'
      · exact absurd (hlk ▸ hj) (h.notMem hfree)
      · exact h.unique j j' l hj hj'

/-- Releasing a lock that is held. -/
theorem release (h : Guards taken held) {i : ι} {k : κ} (hk : k ∈ held i)
    (ht : ∀ l, l ≠ k → taken l → taken' l) :
    Guards taken' (Function.update held i ((held i).erase k)) := by
  have hmem : ∀ j l, l ∈ Function.update held i ((held i).erase k) j → l ≠ k ∧ l ∈ held j := by
    intro j l hl
    by_cases hj : j = i
    · subst hj
      rwa [Function.update_self, Finset.mem_erase] at hl
    · rw [Function.update_of_ne hj] at hl
      refine ⟨?_, hl⟩
      rintro rfl
      exact hj (h.unique j i l hl hk)
  refine ⟨fun j l hl => ?_, fun j j' l hl hl' => ?_⟩
  · obtain ⟨hne, hl⟩ := hmem j l hl
    exact ht l hne (h.taken j l hl)
  · exact h.unique j j' l (hmem j l hl).2 (hmem j' l hl').2

end Guards

end JobProvenance
