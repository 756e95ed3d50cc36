import Mathlib.Data.List.Basic

/-!
# Runs of a partial step function

A system takes one action after the other, and may be unable to take one. What every step
keeps, every run keeps; a run may be cut anywhere.
-/

set_option autoImplicit false

namespace Vani.Library

variable {S A : Type}

/-- The state after the actions; `none` where one of them cannot be taken. -/
def runAll (step : S → A → Option S) : List A → S → Option S
  | [], s => some s
  | a :: as, s =>
    match step s a with
    | some s' => runAll step as s'
    | none => none

/-- Every step that is taken meets the condition. -/
def StepsMeet (step : S → A → Option S) (P : S → A → Prop) : List A → S → Prop
  | [], _ => True
  | a :: as, s => P s a ∧ ∀ s', step s a = some s' → StepsMeet step P as s'

variable {step : S → A → Option S} {P : S → A → Prop} {I : S → Prop} {s s' : S} {a : A}
  {as bs : List A}

theorem runAll_cons_eq_some (h : runAll step (a :: as) s = some s') :
    ∃ s₁, step s a = some s₁ ∧ runAll step as s₁ = some s' := by
  simp only [runAll] at h
  split at h
  · next s₁ hs => exact ⟨s₁, hs, h⟩
  · cases h

theorem stepsMeet_cons (ha : P s a) (hs : step s a = some s') (h : StepsMeet step P as s') :
    StepsMeet step P (a :: as) s := by
  refine ⟨ha, fun s₁ hs₁ => ?_⟩
  obtain rfl := Option.some.inj (hs.symm.trans hs₁)
  exact h

theorem runAll_append_eq_some :
    runAll step (as ++ bs) s = some s' ↔
      ∃ s₁, runAll step as s = some s₁ ∧ runAll step bs s₁ = some s' := by
  induction as generalizing s with
  | nil =>
    constructor
    · intro h
      exact ⟨s, rfl, h⟩
    · rintro ⟨s₁, hs, h⟩
      obtain rfl := Option.some.inj hs
      exact h
  | cons a as ih =>
    simp only [List.cons_append, runAll]
    split
    · exact ih
    · simp

/-- What every step that meets the condition keeps, such a run keeps. -/
theorem runAll_keeps_of_meets (hstep : ∀ s a s', I s → P s a → step s a = some s' → I s')
    (hs : I s) (hmeets : StepsMeet step P as s) (h : runAll step as s = some s') : I s' := by
  induction as generalizing s with
  | nil =>
    obtain rfl := Option.some.inj h
    exact hs
  | cons a as ih =>
    obtain ⟨s₁, hs₁, hrun⟩ := runAll_cons_eq_some h
    exact ih (hstep s a s₁ hs hmeets.1 hs₁) (hmeets.2 s₁ hs₁) hrun

theorem stepsMeet_true : StepsMeet step (fun _ _ => True) as s := by
  induction as generalizing s with
  | nil => exact trivial
  | cons a as ih => exact ⟨trivial, fun _ _ => ih⟩

/-- What every step keeps, every run keeps. -/
theorem runAll_keeps (hstep : ∀ s a s', I s → step s a = some s' → I s') (hs : I s)
    (h : runAll step as s = some s') : I s' :=
  runAll_keeps_of_meets (fun s a s' hi _ => hstep s a s' hi) hs stepsMeet_true h

theorem stepsMeet_append_left (h : StepsMeet step P (as ++ bs) s) : StepsMeet step P as s := by
  induction as generalizing s with
  | nil => exact trivial
  | cons a as ih => exact ⟨h.1, fun s₁ hs₁ => ih (h.2 s₁ hs₁)⟩

theorem stepsMeet_append_right (h : StepsMeet step P (as ++ bs) s)
    (hrun : runAll step as s = some s') : StepsMeet step P bs s' := by
  induction as generalizing s with
  | nil =>
    obtain rfl := Option.some.inj hrun
    exact h
  | cons a as ih =>
    obtain ⟨s₁, hs₁, hrest⟩ := runAll_cons_eq_some hrun
    exact ih (h.2 s₁ hs₁) hrest

/-- A condition on the actions alone may be added. -/
theorem stepsMeet_and {Q : A → Prop} (h : StepsMeet step P as s) (hQ : ∀ a ∈ as, Q a) :
    StepsMeet step (fun s a => P s a ∧ Q a) as s := by
  induction as generalizing s with
  | nil => exact trivial
  | cons a as ih =>
    constructor
    · exact ⟨h.1, hQ a List.mem_cons_self⟩
    · intro s₁ hs₁
      exact ih (h.2 s₁ hs₁) fun b hb => hQ b (List.mem_cons_of_mem a hb)

end Vani.Library
