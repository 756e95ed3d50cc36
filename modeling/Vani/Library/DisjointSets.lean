import Mathlib.Logic.Relation
import Mathlib.Logic.Function.Basic

/-!
# Forests of parent pointers

A function that gives each element its parent, a root its own. Where ranks rise from every
element to its parent and are bounded, each element has one root. Pointing an element at its
root changes no root, and pointing one root at another joins their two trees and no others.
-/

set_option autoImplicit false

namespace Vani.Library

variable {α : Type} {p q : α → α} {x y r s : α}

/-- The root an element's parents lead to. -/
inductive RootOf (p : α → α) : α → α → Prop
  | root {r : α} : p r = r → RootOf p r r
  | step {x r : α} : p x ≠ x → RootOf p (p x) r → RootOf p x r

namespace RootOf

theorem isRoot (h : RootOf p x r) : p r = r := by
  induction h with
  | root hr => exact hr
  | step _ _ ih => exact ih

theorem unique (h : RootOf p x r) (h' : RootOf p x s) : r = s := by
  induction h with
  | root hr =>
    cases h' with
    | root => rfl
    | step hne _ => exact absurd hr hne
  | step hne _ ih =>
    cases h' with
    | root hr => exact absurd hr hne
    | step _ h' => exact ih h'

theorem of_parent (h : RootOf p (p x) r) : RootOf p x r := by
  by_cases hx : p x = x
  · rwa [hx] at h
  · exact step hx h

theorem parent (h : RootOf p x r) : RootOf p (p x) r := by
  cases h with
  | root hr =>
    rw [hr]
    exact root hr
  | step _ h => exact h

/-- A property kept from every element to its parent holds of the root. -/
theorem keeps {P : α → Prop} (hkeep : ∀ x, P x → P (p x)) (h : RootOf p x r) (hx : P x) : P r := by
  induction h with
  | root _ => exact hx
  | step _ _ ih => exact ih (hkeep _ hx)

/-- The root has a greater rank. -/
theorem rank_lt {rank : α → Nat} (hrise : ∀ x, p x ≠ x → rank x < rank (p x))
    (h : RootOf p x r) (hne : x ≠ r) : rank x < rank r := by
  induction h with
  | root _ => exact absurd rfl hne
  | @step x r hx _ ih =>
    have hlt := hrise x hx
    by_cases hpr : p x = r
    · rwa [hpr] at hlt
    · exact Nat.lt_trans hlt (ih hpr)

/-- Where ranks rise and are bounded, every element has a root. -/
theorem exists_root {rank : α → Nat} {bound : Nat}
    (hrise : ∀ x, p x ≠ x → rank x < rank (p x)) (hbound : ∀ x, rank x ≤ bound) (x : α) :
    ∃ r, RootOf p x r := by
  induction hgap : bound - rank x using Nat.strongRecOn generalizing x with
  | ind gap ih =>
    by_cases hx : p x = x
    · exact ⟨x, root hx⟩
    · have hlt := hrise x hx
      have hle := hbound (p x)
      obtain ⟨r, hr⟩ := ih (bound - rank (p x)) (by omega) (p x) rfl
      exact ⟨r, step hx hr⟩

/-! ## Changing one parent -/

/-- An element that points at its root: every element keeps its root. -/
theorem compress (hc : RootOf p x r) (hx : q x = r) (hq : ∀ y, y ≠ x → q y = p y)
    (h : RootOf p y s) : RootOf q y s := by
  have hroot : ∀ z, p z = z → q z = z := by
    intro z hz
    by_cases hzx : z = x
    · subst hzx
      rw [hx]
      exact hc.unique (root hz)
    · rw [hq z hzx, hz]
  induction h with
  | root hs => exact root (hroot _ hs)
  | @step y s hy h ih =>
    by_cases hyx : y = x
    · subst hyx
      obtain rfl := hc.unique (step hy h)
      apply of_parent
      rw [hx]
      exact root (hroot _ hc.isRoot)
    · apply of_parent
      rw [hq y hyx]
      exact ih

/-- A root that points at another: the elements of its tree get the other's root, the others
keep theirs. -/
theorem link (hr : p r = r) (hs : p s = s) (hne : r ≠ s) (hqr : q r = s)
    (hq : ∀ y, y ≠ r → q y = p y) {t : α} (h : RootOf p y t) :
    (t = r → RootOf q y s) ∧ (t ≠ r → RootOf q y t) := by
  have hqs : RootOf q s s := root (by rw [hq s (Ne.symm hne), hs])
  induction h with
  | @root t ht =>
    constructor
    · rintro rfl
      apply of_parent
      rw [hqr]
      exact hqs
    · intro hne
      exact root (by rw [hq t hne, ht])
  | @step y t hy _ ih =>
    have hyr : y ≠ r := by
      rintro rfl
      exact hy hr
    constructor
    · intro ht
      apply of_parent
      rw [hq y hyr]
      exact ih.1 ht
    · intro ht
      apply of_parent
      rw [hq y hyr]
      exact ih.2 ht

end RootOf

/-- The two elements have one root. -/
def SameRoot (p : α → α) (x y : α) : Prop := ∃ r, RootOf p x r ∧ RootOf p y r

theorem sameRoot_iff (hx : RootOf p x r) (hy : RootOf p y s) : SameRoot p x y ↔ r = s := by
  constructor
  · rintro ⟨t, hxt, hyt⟩
    exact (hx.unique hxt).trans (hyt.unique hy)
  · rintro rfl
    exact ⟨r, hx, hy⟩

/-- Where every element keeps its root, the same have one. -/
theorem sameRoot_congr (hall : ∀ x, ∃ r, RootOf p x r) (hq : ∀ x r, RootOf p x r → RootOf q x r) :
    SameRoot q x y ↔ SameRoot p x y := by
  obtain ⟨r, hr⟩ := hall x
  obtain ⟨s, hs⟩ := hall y
  rw [sameRoot_iff hr hs, sameRoot_iff (hq x r hr) (hq y s hs)]

/-- A root that points at another joins their two trees. -/
theorem sameRoot_link (hall : ∀ x, ∃ r, RootOf p x r) {a b : α} (ha : RootOf p a r)
    (hb : RootOf p b s) (hne : r ≠ s) (hqr : q r = s) (hq : ∀ y, y ≠ r → q y = p y) :
    SameRoot q x y ↔
      SameRoot p x y ∨ SameRoot p x a ∧ SameRoot p b y ∨ SameRoot p x b ∧ SameRoot p a y := by
  obtain ⟨t, ht⟩ := hall x
  obtain ⟨u, hu⟩ := hall y
  have hlink := fun {z w} (h : RootOf p z w) => h.link ha.isRoot hb.isRoot hne hqr hq
  rw [sameRoot_iff ht hu, sameRoot_iff ht ha, sameRoot_iff hb hu, sameRoot_iff ht hb,
    sameRoot_iff ha hu]
  by_cases htr : t = r <;> by_cases hur : u = r
  · rw [sameRoot_iff ((hlink ht).1 htr) ((hlink hu).1 hur)]
    exact iff_of_true rfl (Or.inl (htr.trans hur.symm))
  · rw [sameRoot_iff ((hlink ht).1 htr) ((hlink hu).2 hur)]
    subst htr
    simp [hne, Ne.symm hur]
  · rw [sameRoot_iff ((hlink ht).2 htr) ((hlink hu).1 hur)]
    subst hur
    simp [htr]
  · rw [sameRoot_iff ((hlink ht).2 htr) ((hlink hu).2 hur)]
    simp [htr, Ne.symm hur]

/-! ## The partition -/

/-- The least equivalence that relates the pairs of a list. -/
def Joined (pairs : List (α × α)) : α → α → Prop :=
  Relation.EqvGen fun x y => (x, y) ∈ pairs

theorem joined_equivalence (pairs : List (α × α)) : Equivalence (Joined pairs) :=
  Relation.EqvGen.is_equivalence _

theorem joined_nil : Joined [] x y ↔ x = y := by
  constructor
  · intro h
    induction h with
    | rel _ _ h => cases h
    | refl => rfl
    | symm _ _ _ ih => exact ih.symm
    | trans _ _ _ _ _ ih₁ ih₂ => exact ih₁.trans ih₂
  · rintro rfl
    exact Relation.EqvGen.refl _

/-- One more pair joins the two classes of its elements. -/
theorem joined_cons {pairs : List (α × α)} {a b : α} :
    Joined ((a, b) :: pairs) x y ↔
      Joined pairs x y ∨ Joined pairs x a ∧ Joined pairs b y ∨
        Joined pairs x b ∧ Joined pairs a y := by
  have heq := joined_equivalence pairs
  have hmono : ∀ {u v}, Joined pairs u v → Joined ((a, b) :: pairs) u v := fun h =>
    Relation.EqvGen.mono (fun _ _ hmem => List.mem_cons_of_mem _ hmem) _ _ h
  have hnew : Joined ((a, b) :: pairs) a b := Relation.EqvGen.rel _ _ List.mem_cons_self
  have heq' := joined_equivalence ((a, b) :: pairs)
  constructor
  · intro h
    induction h with
    | rel u v hmem =>
      rcases List.mem_cons.mp hmem with hpair | hmem
      · cases hpair
        exact Or.inr (Or.inl ⟨heq.refl _, heq.refl _⟩)
      · exact Or.inl (Relation.EqvGen.rel _ _ hmem)
    | refl u => exact Or.inl (heq.refl u)
    | symm u v _ ih =>
      rcases ih with h | ⟨h₁, h₂⟩ | ⟨h₁, h₂⟩
      · exact Or.inl (heq.symm h)
      · exact Or.inr (Or.inr ⟨heq.symm h₂, heq.symm h₁⟩)
      · exact Or.inr (Or.inl ⟨heq.symm h₂, heq.symm h₁⟩)
    | trans u v w _ _ ih₁ ih₂ =>
      rcases ih₁ with h | ⟨h₁, h₂⟩ | ⟨h₁, h₂⟩ <;> rcases ih₂ with k | ⟨k₁, k₂⟩ | ⟨k₁, k₂⟩
      · exact Or.inl (heq.trans h k)
      · exact Or.inr (Or.inl ⟨heq.trans h k₁, k₂⟩)
      · exact Or.inr (Or.inr ⟨heq.trans h k₁, k₂⟩)
      · exact Or.inr (Or.inl ⟨h₁, heq.trans h₂ k⟩)
      · exact Or.inr (Or.inl ⟨h₁, k₂⟩)
      · exact Or.inl (heq.trans h₁ k₂)
      · exact Or.inr (Or.inr ⟨h₁, heq.trans h₂ k⟩)
      · exact Or.inl (heq.trans h₁ k₂)
      · exact Or.inr (Or.inr ⟨h₁, k₂⟩)
  · rintro (h | ⟨h₁, h₂⟩ | ⟨h₁, h₂⟩)
    · exact hmono h
    · exact heq'.trans (hmono h₁) (heq'.trans hnew (hmono h₂))
    · exact heq'.trans (hmono h₁) (heq'.trans (heq'.symm hnew) (hmono h₂))

end Vani.Library
