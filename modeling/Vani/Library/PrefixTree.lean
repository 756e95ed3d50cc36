import Mathlib.Algebra.Group.Nat.Defs
import Mathlib.Data.Finset.Union
import Mathlib.Data.Finset.Card
import Mathlib.Data.List.Infix

/-!
# The nodes of a prefix tree

A finite set of words has a tree whose nodes are the beginnings of the words, the empty one
included. A word goes in letter by letter, each letter with at most one new node, and a word
goes out from its end back to the first node that some other word needs.
-/

set_option autoImplicit false

namespace Vani.Library

variable {α : Type} [DecidableEq α]

/-- The beginnings of the words, and the empty one. -/
def beginnings (S : Finset (List α)) : Finset (List α) :=
  insert [] (S.biUnion fun w => w.inits.toFinset)

variable {S : Finset (List α)} {p v w : List α} {c : α}

theorem mem_beginnings : p ∈ beginnings S ↔ p = [] ∨ ∃ w ∈ S, p <+: w := by
  simp [beginnings, List.mem_inits]

theorem nil_mem_beginnings (S : Finset (List α)) : [] ∈ beginnings S :=
  Finset.mem_insert_self [] _

theorem subset_beginnings (h : w ∈ S) : w ∈ beginnings S :=
  mem_beginnings.mpr (Or.inr ⟨w, h, List.prefix_rfl⟩)

/-- The beginnings of a beginning are beginnings. -/
theorem beginnings_closed (h : w ∈ beginnings S) (hp : p <+: w) : p ∈ beginnings S := by
  rcases mem_beginnings.mp h with rfl | ⟨u, hu, hw⟩
  · rw [List.prefix_nil.mp hp]
    exact nil_mem_beginnings S
  · exact mem_beginnings.mpr (Or.inr ⟨u, hu, hp.trans hw⟩)

theorem beginnings_concat (h : p ++ [c] ∈ beginnings S) : p ∈ beginnings S :=
  beginnings_closed h (List.prefix_append p [c])

theorem beginnings_empty : beginnings (∅ : Finset (List α)) = {[]} := by
  ext p
  simp [mem_beginnings]

/-! ## One word more -/

theorem mem_beginnings_insert : p ∈ beginnings (insert v S) ↔ p <+: v ∨ p ∈ beginnings S := by
  rw [mem_beginnings, mem_beginnings]
  simp only [Finset.exists_mem_insert]
  constructor
  · rintro (rfl | h | h)
    · exact Or.inl List.nil_prefix
    · exact Or.inl h
    · exact Or.inr (Or.inr h)
  · rintro (h | h | h)
    · exact Or.inr (Or.inl h)
    · exact Or.inl h
    · exact Or.inr (Or.inr h)

theorem self_mem_beginnings_insert (v : List α) (S : Finset (List α)) :
    v ∈ beginnings (insert v S) :=
  subset_beginnings (Finset.mem_insert_self v S)

/-- A word whose node is there needs none. -/
theorem beginnings_insert_of_mem (h : v ∈ beginnings S) :
    beginnings (insert v S) = beginnings S := by
  ext p
  rw [mem_beginnings_insert]
  exact or_iff_right_of_imp fun hp => beginnings_closed h hp

/-- One letter more. -/
theorem beginnings_insert_concat (v : List α) (c : α) (S : Finset (List α)) :
    beginnings (insert (v ++ [c]) S) = insert (v ++ [c]) (beginnings (insert v S)) := by
  ext p
  rw [Finset.mem_insert, mem_beginnings_insert, mem_beginnings_insert, List.prefix_concat_iff,
    or_assoc]

/-- The node of a letter is there already. -/
theorem beginnings_insert_concat_of_mem (h : v ++ [c] ∈ beginnings (insert v S)) :
    beginnings (insert (v ++ [c]) S) = beginnings (insert v S) := by
  rw [beginnings_insert_concat, Finset.insert_eq_of_mem h]

/-- The tree of a word's beginning is part of the word's. -/
theorem card_beginnings_insert_le (h : v <+: w) :
    (beginnings (insert v S)).card ≤ (beginnings (insert w S)).card := by
  apply Finset.card_le_card
  intro p hp
  rw [mem_beginnings_insert] at hp ⊢
  exact hp.imp_left fun hpv => hpv.trans h

theorem beginnings_insert_erase (h : w ∈ S) :
    beginnings (insert w (S.erase w)) = beginnings S := by
  rw [Finset.insert_erase h]

/-! ## One word less -/

/-- Without its last letter, a word that no other needs leaves one node. -/
theorem beginnings_insert_shorten (h : v ++ [c] ∉ beginnings S) :
    beginnings (insert v S) = (beginnings (insert (v ++ [c]) S)).erase (v ++ [c]) := by
  have hnot : v ++ [c] ∉ beginnings (insert v S) := by
    rw [mem_beginnings_insert, not_or]
    refine ⟨fun hp => ?_, h⟩
    have hle := hp.length_le
    rw [List.length_append, List.length_singleton] at hle
    omega
  rw [beginnings_insert_concat, Finset.erase_insert hnot]

/-- A node that has a child, or at which a word ends, stays. -/
theorem beginnings_of_needed (h : v ∈ S ∨ ∃ c, v ++ [c] ∈ beginnings (insert v S)) :
    v ∈ beginnings S := by
  rcases h with h | ⟨c, h⟩
  · exact subset_beginnings h
  · rcases mem_beginnings_insert.mp h with hp | hp
    · have hle := hp.length_le
      rw [List.length_append, List.length_singleton] at hle
      omega
    · exact beginnings_concat hp

/-- A node without a child at which no word ends goes. -/
theorem not_mem_beginnings (hv : v ≠ []) (hend : v ∉ S)
    (h : ∀ c, v ++ [c] ∉ beginnings (insert v S)) : v ∉ beginnings S := by
  intro hmem
  rcases mem_beginnings.mp hmem with hnil | ⟨w, hw, s, rfl⟩
  · exact hv hnil
  · cases s with
    | nil => exact hend (by rwa [List.append_nil] at hw)
    | cons c s =>
      have hchild : v ++ [c] ∈ beginnings S :=
        mem_beginnings.mpr (Or.inr ⟨_, hw, s, List.append_assoc v [c] s⟩)
      exact h c (mem_beginnings_insert.mpr (Or.inr hchild))

/-- The tree has a node for each beginning that is not empty, and one for the empty one. -/
theorem card_beginnings (S : Finset (List α)) :
    (beginnings S).card = ((S.biUnion fun w => w.inits.toFinset).erase []).card + 1 := by
  rw [← Finset.card_erase_add_one (nil_mem_beginnings S)]
  unfold beginnings
  rw [Finset.erase_insert_eq_erase]

/-- One word has as many nodes as letters, and the root. -/
theorem card_beginnings_singleton (w : List α) : (beginnings {w}).card = w.length + 1 := by
  rw [← insert_empty_eq]
  induction w using List.reverseRecOn with
  | nil =>
    rw [beginnings_insert_of_mem (nil_mem_beginnings ∅), beginnings_empty]
    rfl
  | append_singleton w c ih =>
    have hnot : w ++ [c] ∉ beginnings (insert w ∅) := by
      rw [mem_beginnings_insert, beginnings_empty, Finset.mem_singleton]
      rintro (hp | hnil)
      · have hle := hp.length_le
        rw [List.length_append, List.length_singleton] at hle
        omega
      · simp at hnil
    rw [beginnings_insert_concat, Finset.card_insert_of_notMem hnot, ih, List.length_append,
      List.length_singleton]

end Vani.Library
