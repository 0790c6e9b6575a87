import Mathlib.Tactic

/-!
# Executions of C functions

A call of a C function returns, possibly with an error code, or leaves the
language: it dereferences a null pointer, accesses memory outside an object,
reads an indeterminate value, or converts to `int` a number no `int` holds (and
what follows is not the program's text any more); or it loops for ever. A
call is thus an `Except` over `Stop`, and whatever a caller does with an error
code it does by matching on it.
-/

namespace JobProvenance

/-- The error codes the program uses, of `errno.h` and of `zlib.h`. -/
inductive Errno
  | EPERM
  | ENOENT
  | EIO
  | ENOMEM
  | EEXIST
  | EINVAL
  | Z_STREAM_ERROR
  deriving DecidableEq

/-- How a call ends without a result. -/
inductive Stop
  /-- It returns the error code. -/
  | errno (code : Errno)
  /-- It leaves the language. -/
  | fault
  /-- It does not return. -/
  | hang
  deriving DecidableEq

/-- A call returning an `α`. -/
abbrev Exec := Except Stop

/-- The return value of a call that leaves results behind also when it fails:
    an error code, or zero. -/
abbrev Ret := Option Errno

/-- The number of an error code. -/
def Errno.code : Errno → ℤ
  | .EPERM => 1
  | .ENOENT => 2
  | Errno.EIO => 5
  | .ENOMEM => 12
  | .EEXIST => 17
  | .EINVAL => 22
  | .Z_STREAM_ERROR => -2

/-- What a function returns: an error code, or zero. -/
def retCode (ret : Ret) : ℤ := ret.elim 0 Errno.code

namespace Exec

variable {α β : Type}

/-- A sequence of two calls returns when both do. -/
@[simp]
theorem bind_eq_ok {x : Exec α} {f : α → Exec β} {r : β} :
    (x >>= f) = .ok r ↔ ∃ a, x = .ok a ∧ f a = .ok r := by
  cases x <;> simp [bind, Except.bind]

@[simp]
theorem ok_bind (a : α) (f : α → Exec β) : ((.ok a : Exec α) >>= f) = f a := rfl

@[simp]
theorem error_bind (e : Stop) (f : α → Exec β) : ((.error e : Exec α) >>= f) = .error e := rfl

/-- A call that is seen to return does. -/
theorem exists_of_isOk {x : Exec α} (h : x.isOk = true) : ∃ a, x = .ok a := by
  cases x with
  | ok a => exact ⟨a, rfl⟩
  | error e => cases h

/-- A call that is seen to return a part of a pair does. -/
theorem exists_of_map_snd {x : Exec (α × β)} {b : β} (h : x.map Prod.snd = .ok b) :
    ∃ a, x = .ok (a, b) := by
  cases x with
  | ok p => exact ⟨p.1, by rw [← Except.ok.inj h]⟩
  | error e => cases h

theorem exists_of_map_fst {x : Exec (α × β)} {a : α} (h : x.map Prod.fst = .ok a) :
    ∃ b, x = .ok (a, b) := by
  cases x with
  | ok p => exact ⟨p.2, by rw [← Except.ok.inj h]⟩
  | error e => cases h

/-- A call for each element of a list returns when all of them do. -/
theorem mapM_eq_ok {f : α → Exec β} {as : List α} {bs : List β} :
    as.mapM f = .ok bs ↔ List.Forall₂ (fun a b => f a = .ok b) as bs := by
  induction as generalizing bs with
  | nil => cases bs <;> simp [pure, Except.pure]
  | cons a as ih =>
    rw [List.mapM_cons, bind_eq_ok]
    constructor
    · rintro ⟨b, hb, h⟩
      obtain ⟨bs', hbs, h⟩ := bind_eq_ok.1 h
      exact Except.ok.inj h ▸ .cons hb (ih.1 hbs)
    · rintro (_ | ⟨hb, hbs⟩)
      exact ⟨_, hb, bind_eq_ok.2 ⟨_, ih.2 hbs, rfl⟩⟩

/-- Calls on related elements that return the same, one by one. -/
theorem mapM_of_forall₂ {γ : Type} {f : α → Exec γ} {g : β → Exec γ} {as : List α} {bs : List β}
    (h : List.Forall₂ (fun a b => f a = g b) as bs) : as.mapM f = bs.mapM g := by
  induction h with
  | nil => rfl
  | cons hab _ ih => rw [List.mapM_cons, List.mapM_cons, hab, ih]

/-- What is related element by element has a related element for each. -/
theorem mem_of_forall₂ {R : α → β → Prop} {as : List α} {bs : List β} (h : List.Forall₂ R as bs) :
    (∀ a ∈ as, ∃ b ∈ bs, R a b) ∧ ∀ b ∈ bs, ∃ a ∈ as, R a b := by
  induction h with
  | nil => simp
  | cons hb _ ih =>
    refine ⟨List.forall_mem_cons.2 ⟨⟨_, List.mem_cons_self, hb⟩, fun a ha => ?_⟩,
      List.forall_mem_cons.2 ⟨⟨_, List.mem_cons_self, hb⟩, fun b hb => ?_⟩⟩
    · obtain ⟨b, hb, hab⟩ := ih.1 a ha
      exact ⟨b, List.mem_cons_of_mem _ hb, hab⟩
    · obtain ⟨a, ha, hab⟩ := ih.2 b hb
      exact ⟨a, List.mem_cons_of_mem _ ha, hab⟩

/-- What the calls return is what is returned of them. -/
theorem mem_of_mapM {f : α → Exec β} {as : List α} {bs : List β} (h : as.mapM f = .ok bs) :
    (∀ a ∈ as, ∃ b ∈ bs, f a = .ok b) ∧ ∀ b ∈ bs, ∃ a ∈ as, f a = .ok b :=
  mem_of_forall₂ (mapM_eq_ok.1 h)

/-- What the calls return, put together. -/
theorem flatMap_of_mapM {γ : Type} {f : α → Exec β} {k : β → List γ} {g : α → List γ} {as : List α}
    {bs : List β} (h : as.mapM f = .ok bs) (hg : ∀ a ∈ as, ∀ b, f a = .ok b → k b = g a) :
    bs.flatMap k = as.flatMap g := by
  rw [mapM_eq_ok] at h
  induction h with
  | nil => rfl
  | cons hb _ ih =>
    rw [List.forall_mem_cons] at hg
    rw [List.flatMap_cons, List.flatMap_cons, hg.1 _ hb, ih hg.2]

/-- An error of the calls is one of them. -/
theorem error_of_mapM {f : α → Exec β} {as : List α} {e : Stop} (h : as.mapM f = .error e) :
    ∃ a ∈ as, f a = .error e := by
  induction as with
  | nil => cases h
  | cons a as ih =>
    rw [List.mapM_cons] at h
    cases ha : f a with
    | error e' =>
      rw [ha, error_bind] at h
      exact ⟨a, List.mem_cons_self, by rw [ha, Except.error.inj h]⟩
    | ok b =>
      rw [ha, ok_bind] at h
      cases has : as.mapM f with
      | ok bs =>
        rw [has] at h
        cases h
      | error e' =>
        rw [has, error_bind] at h
        obtain ⟨a', ha', hfa⟩ := ih (by rw [has, Except.error.inj h])
        exact ⟨a', List.mem_cons_of_mem _ ha', hfa⟩

theorem mapM_congr {f g : α → Exec β} {as : List α} (h : ∀ a ∈ as, f a = g a) :
    as.mapM f = as.mapM g := by
  induction as with
  | nil => rfl
  | cons a as ih =>
    rw [List.forall_mem_cons] at h
    rw [List.mapM_cons, List.mapM_cons, h.1, ih h.2]

theorem exists_mapM {f : α → Exec β} {as : List α} (h : ∀ a ∈ as, ∃ b, f a = .ok b) :
    ∃ bs, as.mapM f = .ok bs := by
  induction as with
  | nil => exact ⟨[], rfl⟩
  | cons a as ih =>
    rw [List.forall_mem_cons] at h
    obtain ⟨⟨b, hb⟩, has⟩ := h
    obtain ⟨bs, hbs⟩ := ih has
    exact ⟨b :: bs, mapM_eq_ok.2 (.cons hb (mapM_eq_ok.1 hbs))⟩

/-- The calls return what is related to their elements exactly when each of them does. -/
theorem exists_mapM_iff {R : α → β → Prop} {f : α → Exec β} {as : List α} :
    (∃ bs, as.mapM f = .ok bs ∧ List.Forall₂ R as bs) ↔ ∀ a ∈ as, ∃ b, f a = .ok b ∧ R a b := by
  induction as with
  | nil => exact iff_of_true ⟨[], rfl, .nil⟩ (List.forall_mem_nil _)
  | cons a as ih =>
    rw [List.forall_mem_cons, ← ih]
    constructor
    · rintro ⟨bs, hbs, hR⟩
      rw [mapM_eq_ok] at hbs
      cases hbs with
      | cons hb hbs =>
        cases hR with
        | cons hab hR => exact ⟨⟨_, hb, hab⟩, _, mapM_eq_ok.2 hbs, hR⟩
    · rintro ⟨⟨b, hb, hab⟩, bs, hbs, hR⟩
      exact ⟨b :: bs, mapM_eq_ok.2 (.cons hb (mapM_eq_ok.1 hbs)), .cons hab hR⟩

/-- Calls on things that stand in a relation to others return what stands in one to them. -/
theorem exists_mapM_of_forall₂ {γ : Type} {R : α → β → Prop} {Q : α → γ → Prop} {f : β → Exec γ}
    {as : List α} {bs : List β} (h : List.Forall₂ R as bs)
    (hf : ∀ a ∈ as, ∀ b, R a b → ∃ c, f b = .ok c ∧ Q a c) :
    ∃ cs, bs.mapM f = .ok cs ∧ List.Forall₂ Q as cs := by
  induction h with
  | nil => exact ⟨[], rfl, .nil⟩
  | cons hab _ ih =>
    rw [List.forall_mem_cons] at hf
    obtain ⟨c, hc, hac⟩ := hf.1 _ hab
    obtain ⟨cs, hcs, hacs⟩ := ih hf.2
    exact ⟨c :: cs, by rw [List.mapM_cons, hc, ok_bind, hcs]; rfl, .cons hac hacs⟩

/-- Calls by number are calls for the elements. -/
theorem mapM_range {f : α → Exec β} {g : ℕ → Exec β} {as : List α}
    (h : ∀ i, (hi : i < as.length) → g i = f as[i]) :
    (List.range as.length).mapM g = as.mapM f := by
  have hcomp : g ∘ (fun i : Fin as.length => i.1) = f ∘ as.get := by
    funext i
    exact h i i.2
  calc (List.range as.length).mapM g
      = ((List.finRange as.length).map fun i => i.1).mapM g := by
        rw [List.map_coe_finRange_eq_range]
    _ = ((List.finRange as.length).map as.get).mapM f := by
        rw [List.mapM_map, List.mapM_map, hcomp]
    _ = as.mapM f := by rw [List.map_get_finRange]

/-- A search by calls finds something: a call returns so, after others that return. -/
theorem anyM_eq_true {f : α → Exec Bool} {as : List α} (h : as.anyM f = .ok true) :
    ∃ a ∈ as, f a = .ok true := by
  induction as with
  | nil => cases h
  | cons a as ih =>
    rw [List.anyM, bind_eq_ok] at h
    obtain ⟨found, ha, h⟩ := h
    cases found with
    | true => exact ⟨a, List.mem_cons_self, ha⟩
    | false =>
      obtain ⟨b, hb, hfb⟩ := ih h
      exact ⟨b, List.mem_cons_of_mem _ hb, hfb⟩

/-- A search finds nothing when no call does. -/
theorem anyM_eq_false {f : α → Exec Bool} {as : List α} :
    as.anyM f = .ok false ↔ ∀ a ∈ as, f a = .ok false := by
  induction as with
  | nil => simp [pure, Except.pure]
  | cons a as ih =>
    rw [List.anyM, bind_eq_ok, List.forall_mem_cons, ← ih]
    constructor
    · rintro ⟨_ | _, ha, h⟩
      · exact ⟨ha, h⟩
      · cases h
    · rintro ⟨ha, h⟩
      exact ⟨false, ha, h⟩

/-- A check by calls passes when all calls do. -/
theorem allM_eq_true {f : α → Exec Bool} {as : List α} :
    as.allM f = .ok true ↔ ∀ a ∈ as, f a = .ok true := by
  induction as with
  | nil => simp [pure, Except.pure]
  | cons a as ih =>
    rw [List.allM, bind_eq_ok, List.forall_mem_cons, ← ih]
    constructor
    · rintro ⟨_ | _, ha, h⟩
      · cases h
      · exact ⟨ha, h⟩
    · rintro ⟨ha, h⟩
      exact ⟨true, ha, h⟩

/-- A check fails when a call does. -/
theorem allM_eq_false {f : α → Exec Bool} {as : List α} (h : as.allM f = .ok false) :
    ∃ a ∈ as, f a = .ok false := by
  induction as with
  | nil => cases h
  | cons a as ih =>
    rw [List.allM, bind_eq_ok] at h
    obtain ⟨passed, ha, h⟩ := h
    cases passed with
    | false => exact ⟨a, List.mem_cons_self, ha⟩
    | true =>
      obtain ⟨b, hb, hfb⟩ := ih h
      exact ⟨b, List.mem_cons_of_mem _ hb, hfb⟩

/-- What a pointer points to. -/
def deref : Option α → Exec α
  | some a => .ok a
  | none => .error .fault

@[simp]
theorem deref_eq_ok {p : Option α} {a : α} : deref p = .ok a ↔ p = some a := by
  cases p <;> simp [deref]

/-- The number of an `int` variable: the conversion of a number no `int` holds
    is not defined. -/
def toInt (n : ℕ) : Exec ℕ := if n < 2 ^ 31 then .ok n else .error .fault

@[simp]
theorem toInt_eq_ok {n m : ℕ} : toInt n = .ok m ↔ n < 2 ^ 31 ∧ n = m := by
  unfold toInt
  split <;> simp <;> omega

theorem toInt_of_lt {n : ℕ} (h : n < 2 ^ 31) : toInt n = .ok n := if_pos h

theorem toInt_of_le {n : ℕ} (h : 2 ^ 31 ≤ n) : toInt n = .error .fault := if_neg (not_lt.2 h)

end Exec

end JobProvenance
