import Mathlib.Data.List.Forall2
import Mathlib.Data.List.Basic
import Mathlib.Tactic.Common

/-!
# Words respelled letter by letter

Names that go into another language keep the letters it allows, and a fixed letter stands in
for each of the others. Two words become one exactly when they agree letter by letter, but for
letters that are not kept. What follows the last separator of a word can be read back from it.
-/

set_option autoImplicit false

namespace Vani.Library

variable {α : Type}

section Respelling

variable (keep : α → Bool) (stand : α)

/-- A letter in the other language. -/
def respell (a : α) : α := if keep a then a else stand

/-- A letter that is written as the one that stands in. -/
def Blurred (a : α) : Prop := a = stand ∨ keep a = false

/-- Two words agree but for blurred letters. -/
def Alike (xs ys : List α) : Prop :=
  List.Forall₂ (fun a b => a = b ∨ Blurred keep stand a ∧ Blurred keep stand b) xs ys

variable {keep stand}

theorem respell_of_blurred {a : α} (h : Blurred keep stand a) : respell keep stand a = stand := by
  unfold respell
  rcases h with rfl | h
  · simp
  · simp [h]

theorem respell_eq_iff {a b : α} :
    respell keep stand a = respell keep stand b ↔
      a = b ∨ Blurred keep stand a ∧ Blurred keep stand b := by
  constructor
  · intro h
    cases ha : keep a with
    | true =>
      cases hb : keep b with
      | true =>
        simp only [respell, ha, hb, if_true] at h
        exact Or.inl h
      | false =>
        simp only [respell, ha, hb, if_true, if_false, Bool.false_eq_true] at h
        exact Or.inr ⟨Or.inl h, Or.inr hb⟩
    | false =>
      cases hb : keep b with
      | true =>
        simp only [respell, ha, hb, if_true, if_false, Bool.false_eq_true] at h
        exact Or.inr ⟨Or.inr ha, Or.inl h.symm⟩
      | false => exact Or.inr ⟨Or.inr ha, Or.inr hb⟩
  · rintro (rfl | ⟨ha, hb⟩)
    · rfl
    · rw [respell_of_blurred ha, respell_of_blurred hb]

/-- Two words become one exactly when they are alike. -/
theorem map_respell_eq_iff : ∀ {xs ys : List α},
    xs.map (respell keep stand) = ys.map (respell keep stand) ↔ Alike keep stand xs ys
  | [], [] => by simp [Alike]
  | [], y :: ys => by simp [Alike]
  | x :: xs, [] => by simp [Alike]
  | x :: xs, y :: ys => by
    have ih : _ ↔ Alike keep stand xs ys := map_respell_eq_iff
    unfold Alike at ih ⊢
    simp [respell_eq_iff, ih]

theorem map_respell_of_kept {xs : List α} (h : ∀ a ∈ xs, keep a = true) :
    xs.map (respell keep stand) = xs := by
  have hid : ∀ a ∈ xs, respell keep stand a = id a := by
    intro a ha
    simp [respell, h a ha]
  rw [List.map_congr_left hid, List.map_id]

end Respelling

/-! ## The last separator -/

/-- What follows the last separator of a word, and what stands before it, are determined. -/
theorem append_cons_inj_of_last {s : α} {xs ys zs ws : List α} (hz : s ∉ zs) (hw : s ∉ ws)
    (h : xs ++ s :: zs = ys ++ s :: ws) : xs = ys ∧ zs = ws := by
  rcases List.append_eq_append_iff.1 h with ⟨as, rfl, has⟩ | ⟨as, rfl, has⟩
  · cases as with
    | nil => simpa using has
    | cons a as =>
      exfalso
      apply hz
      have := (List.cons.inj has).2
      simp [this]
  · cases as with
    | nil => simpa [eq_comm] using has
    | cons a as =>
      exfalso
      apply hw
      have := (List.cons.inj has).2
      simp [this]

end Vani.Library
