import Mathlib.Tactic.Common

/-!
# Linked lists

A relation that tells for an element what comes after it, another element or none, and the list
of the elements that follow each other from one on. An element is put in, or taken out, by
what comes after the element before it.
-/

set_option autoImplicit false

namespace Vani.Library

variable {α : Type}

/-- The list of the elements after one, up to the last. -/
def Linked (R : α → Option α → Prop) : α → List α → Prop
  | a, [] => R a none
  | a, b :: l => R a (some b) ∧ Linked R b l

/-- The list of some elements after one. -/
def LinkedTo (R : α → Option α → Prop) : α → List α → Prop
  | _, [] => True
  | a, b :: l => R a (some b) ∧ LinkedTo R b l

variable {R R' : α → Option α → Prop} {a b n : α} {l l' : List α}

theorem linked_append : Linked R a (l ++ l') ↔ LinkedTo R a l ∧ Linked R (l.getLastD a) l' := by
  induction l generalizing a with
  | nil => simp [LinkedTo]
  | cons b l ih =>
    rw [List.cons_append, Linked, LinkedTo, ih, List.getLastD_cons, and_assoc]

theorem Linked.head (h : Linked R a l) : R a l.head? := by
  cases l with
  | nil => exact h
  | cons b l => exact h.1

/-- The last element is one of them. -/
theorem getLastD_mem (a : α) (l : List α) : l.getLastD a ∈ a :: l := by
  induction l generalizing a with
  | nil => exact List.mem_cons_self
  | cons b l ih =>
    rw [List.getLastD_cons]
    exact List.mem_cons_of_mem a (ih b)

theorem getLastD_append (a : α) (l l' : List α) :
    (l ++ l').getLastD a = l'.getLastD (l.getLastD a) := by
  induction l generalizing a with
  | nil => rfl
  | cons b l ih => rw [List.cons_append, List.getLastD_cons, List.getLastD_cons, ih]

theorem LinkedTo.frame (h : LinkedTo R a l) (hnodup : (a :: l).Nodup)
    (hR : ∀ x ∈ a :: l, x ≠ l.getLastD a → ∀ o, R x o → R' x o) : LinkedTo R' a l := by
  induction l generalizing a with
  | nil => trivial
  | cons b l ih =>
    obtain ⟨hab, hl⟩ := h
    obtain ⟨ha, hnodup⟩ := List.nodup_cons.mp hnodup
    rw [List.getLastD_cons] at hR
    have hne : a ≠ l.getLastD b := fun heq => ha (heq ▸ getLastD_mem b l)
    exact ⟨hR a List.mem_cons_self hne _ hab,
      ih hl hnodup fun x hx => hR x (List.mem_cons_of_mem a hx)⟩

theorem Linked.frame (h : Linked R a l) (hR : ∀ x ∈ a :: l, ∀ o, R x o → R' x o) :
    Linked R' a l := by
  induction l generalizing a with
  | nil => exact hR a List.mem_cons_self _ h
  | cons b l ih =>
    exact ⟨hR a List.mem_cons_self _ h.1, ih h.2 fun x hx => hR x (List.mem_cons_of_mem a hx)⟩

/-- An element is put in after `l`: what came after the last one now comes after it. -/
theorem Linked.insert (h : Linked R a (l ++ l')) (hnodup : (a :: (l ++ l')).Nodup)
    (hbefore : R' (l.getLastD a) (some n)) (hafter : ∀ o, R (l.getLastD a) o → R' n o)
    (hother : ∀ x ∈ a :: (l ++ l'), x ≠ l.getLastD a → ∀ o, R x o → R' x o) :
    Linked R' a (l ++ n :: l') := by
  rw [← List.cons_append] at hnodup hother
  obtain ⟨hl, hl'⟩ := linked_append.mp h
  obtain ⟨hleft, hright, hdisjoint⟩ := List.nodup_append.mp hnodup
  refine linked_append.mpr ⟨hl.frame hleft fun x hx => hother x (List.mem_append_left l' hx),
    hbefore, ?_⟩
  cases l' with
  | nil => exact hafter _ hl'
  | cons b l' =>
    refine ⟨hafter _ hl'.1, hl'.2.frame fun x hx => hother x (List.mem_append_right _ hx) ?_⟩
    exact fun heq => hdisjoint _ (getLastD_mem a l) x hx heq.symm

/-- The element after `l` is taken out: what came after it now comes after the one before. -/
theorem Linked.remove (h : Linked R a (l ++ b :: l')) (hnodup : (a :: (l ++ b :: l')).Nodup)
    (hbefore : ∀ o, R b o → R' (l.getLastD a) o)
    (hother : ∀ x ∈ a :: (l ++ b :: l'), x ≠ l.getLastD a → ∀ o, R x o → R' x o) :
    Linked R' a (l ++ l') := by
  rw [← List.cons_append] at hnodup hother
  obtain ⟨hl, -, hl'⟩ := linked_append.mp h
  obtain ⟨hleft, -, hdisjoint⟩ := List.nodup_append.mp hnodup
  refine linked_append.mpr ⟨hl.frame hleft fun x hx => hother x (List.mem_append_left _ hx), ?_⟩
  cases l' with
  | nil => exact hbefore _ hl'
  | cons c l' =>
    refine ⟨hbefore _ hl'.1, hl'.2.frame fun x hx =>
      hother x (List.mem_append_right _ (List.mem_cons_of_mem b hx)) ?_⟩
    exact fun heq =>
      hdisjoint _ (getLastD_mem a l) x (List.mem_cons_of_mem b hx) heq.symm

/-- From an element of the list on. -/
theorem Linked.after (h : Linked R a (l ++ l')) : Linked R (l.getLastD a) l' :=
  (linked_append.mp h).2

/-- Every element is the last of a beginning. -/
theorem exists_upTo {c : α} (h : c ∈ a :: l) : ∃ s t, l = s ++ t ∧ s.getLastD a = c := by
  rcases List.mem_cons.mp h with rfl | h
  · exact ⟨[], l, rfl, rfl⟩
  · obtain ⟨s, t, rfl⟩ := List.append_of_mem h
    exact ⟨s ++ [c], t, by rw [List.append_assoc, List.singleton_append], List.getLastD_concat⟩

/-- Something, or nothing, comes after every element. -/
theorem Linked.exists_next (h : Linked R a l) {c : α} (hc : c ∈ a :: l) : ∃ o, R c o := by
  obtain ⟨s, t, rfl, rfl⟩ := exists_upTo hc
  exact ⟨_, h.after.head⟩

/-- What comes after an element is in the list, if nothing else comes after it. -/
theorem Linked.next_mem (h : Linked R a l) (hunique : ∀ x o o', R x o → R x o' → o = o')
    (hb : b ∈ a :: l) {c : α} (hc : R b (some c)) : c ∈ l := by
  obtain ⟨s, t, rfl, rfl⟩ := exists_upTo hb
  have hhead := hunique _ _ _ h.after.head hc
  exact List.mem_append_right s (List.mem_of_head? hhead)

end Vani.Library
