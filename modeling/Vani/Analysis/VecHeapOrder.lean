import Vani.Backend.VecQueries
import Vani.Analysis.BinaryHeapRefines
import Mathlib.Data.List.Sort

/-!
# Correctness of the heap helpers of the emitted vectors

`heapify` sifts down the positions that have a child, the last first: each sift finds all
later positions in order and leaves its own in order too. The pushes and pops are those of
the emitted binary heap, so a vector in heap order is drained in order.
-/

set_option autoImplicit false

namespace Vani.Analysis

open Vani.Library Vani.Backend

variable {v : Vec Int64} {l : List Int64}

/-! ## Bringing into order -/

/-- A sift down at the position before those in order. -/
theorem heapSiftDown_ok (h : Holding 8 v l) {i : Nat} (hord : OrderedFrom l (i + 1))
    (hi : i < l.length) :
    ∃ v' l', v.heapSiftDown i = .done v' ∧ Holding 8 v' l' ∧ OrderedFrom l' i ∧ l'.Perm l := by
  obtain ⟨data, hrun, l', hl', hord', hperm⟩ :=
    siftDownFrom_ok h hord.extend (Nat.le_refl i) hi
  refine ⟨_, l', ?_, hl', hord', hperm⟩
  unfold Vec.heapSiftDown
  rw [hrun]
  rfl

/-- The sifts down from a position on to the first. -/
theorem heapifyBelow_ok (n : Nat) : ∀ {v : Vec Int64} {l : List Int64}, Holding 8 v l →
    OrderedFrom l n → n ≤ l.length →
    ∃ v' l', Vec.heapifyBelow n v = .done v' ∧ Holding 8 v' l' ∧ HeapOrdered l' ∧
      l'.Perm l := by
  induction n with
  | zero =>
    intro v l h hord _
    exact ⟨v, l, rfl, h, hord.heapOrdered, List.Perm.refl l⟩
  | succ i ih =>
    intro v l h hord hle
    obtain ⟨v₁, l₁, hrun₁, hl₁, hord₁, hperm₁⟩ := heapSiftDown_ok h hord hle
    have hlen : i ≤ l₁.length := by
      rw [hperm₁.length_eq]
      omega
    obtain ⟨v₂, l₂, hrun₂, hl₂, hord₂, hperm₂⟩ := ih hl₁ hord₁ hlen
    refine ⟨v₂, l₂, ?_, hl₂, hord₂, hperm₂.trans hperm₁⟩
    unfold Vec.heapifyBelow
    rw [hrun₁]
    exact hrun₂

/-- Any content is brought into heap order. -/
theorem heapify_ok (h : Holding 8 v l) :
    ∃ v' l', v.heapify = .done (0, v') ∧ Holding 8 v' l' ∧ HeapOrdered l' ∧ l'.Perm l := by
  unfold Vec.heapify
  have hlen := h.len_eq
  have hhalf := orderedFrom_half l
  by_cases hshort : v.len < 2
  · rw [if_pos hshort]
    refine ⟨v, l, rfl, h, fun j hj x y hx hy => ?_, List.Perm.refl l⟩
    have hlt := (List.getElem?_eq_some_iff.mp hy).1
    omega
  · rw [if_neg hshort, hlen]
    obtain ⟨v', l', hrun, hl', hord, hperm⟩ :=
      heapifyBelow_ok (l.length / 2) h hhalf (Nat.div_le_self _ _)
    exact ⟨v', l', by rw [hrun]; rfl, hl', hord, hperm⟩

/-! ## Pushes and pops -/

/-- A push puts the element among the others, or is refused the memory for it. -/
theorem heapPush_ok (h : Holding 8 v l) (hord : HeapOrdered l) (heap : Nat → Bool) (x : Int64) :
    (v.heapPush heap x = .aborted ∧ v.capacity ≤ v.len ∧
        malloc heap (Vec.grownCapacity v.capacity * 8) = false) ∨
      ∃ v' l', v.heapPush heap x = .done (((x :: l).length : Int), v') ∧ Holding 8 v' l' ∧
        HeapOrdered l' ∧ l'.Perm (x :: l) := by
  unfold Vec.heapPush
  rcases h.reserve heap with ⟨hno, href⟩ | ⟨w, hyes, hw, hroom⟩
  · exact Or.inl ⟨by rw [show (8 : Nat) = ((8 : ℕ+) : Nat) from rfl, hno]; rfl, href⟩
  · have hlen := hw.len_eq
    have hlt : w.len < w.data.size := by
      rw [hw.cells]
      exact hroom
    obtain ⟨data, hrun, l', hl', hord', hperm⟩ := siftUp_ok (hw.append hroom x)
      (hord.append x) (by rw [List.length_append, List.length_singleton]; omega)
    rw [← hlen] at hrun
    have hcard : toInt64 (w.len + 1) = ((x :: l).length : Int) := by
      rw [toInt64_of_lt (hl'.len_le.trans_lt hl'.small), hlen]
      rfl
    refine Or.inr ⟨⟨data, w.len + 1, w.capacity⟩, l', ?_, hl', hord',
      hperm.trans (List.perm_append_singleton x l)⟩
    rw [show (8 : Nat) = ((8 : ℕ+) : Nat) from rfl, hyes, Outcome.done_bind,
      Outcome.write_of_lt hlt, Outcome.done_bind]
    unfold Vec.heapSiftUp
    dsimp only
    rw [Nat.add_sub_cancel, hrun, Outcome.done_bind, Outcome.pure_eq, Outcome.done_bind, hcard]
    rfl

/-- A pop is the one of the emitted binary heap. -/
theorem heapPop_eq (v : Vec Int64) : v.heapPop = BinaryHeap.pop v := by
  unfold Vec.heapPop BinaryHeap.pop Vec.heapSiftDown
  by_cases hzero : v.len = 0
  · rw [if_pos hzero, if_pos hzero]
  · rw [if_neg hzero, if_neg hzero]
    have hsucc : v.len - 1 + 1 = v.len := by omega
    dsimp only
    rw [hsucc]
    simp only [Outcome.bind_bind, Outcome.pure_eq, Outcome.done_bind]

/-- A pop takes the first element, which is the least. -/
theorem heapPop_ok (h : Holding 8 v l) (hord : HeapOrdered l) :
    (l = [] ∧ v.heapPop = .done (none, v)) ∨
      ∃ x v' l', v.heapPop = .done (some x, v') ∧ Holding 8 v' l' ∧ HeapOrdered l' ∧
        l.Perm (x :: l') ∧ ∀ y ∈ l, x ≤ y := by
  rw [heapPop_eq]
  cases l with
  | nil =>
    refine Or.inl ⟨rfl, ?_⟩
    exact if_pos h.len_eq
  | cons x t =>
    have hholds : HeapHolds v ((x :: t : List Int64) : Multiset Int64) := ⟨x :: t, h, hord, rfl⟩
    obtain ⟨v', hrun, l', hl', hord', herase⟩ := hholds.pop
    have hleast : leastOf ((x :: t : List Int64) : Multiset Int64) = some x := leastOf_coe hord
    unfold eraseLeast at herase
    rw [hleast] at hrun herase
    refine Or.inr ⟨x, v', l', hrun, hl', hord', ?_, fun y hy => hord.root_le rfl hy⟩
    dsimp only at herase
    rw [Multiset.coe_erase, List.erase_cons_head, Multiset.coe_eq_coe] at herase
    exact (herase.cons x).symm

/-- Popping until nothing is left yields the elements in order. -/
theorem heapDrain_ok (n : Nat) : ∀ {v : Vec Int64} {l : List Int64}, Holding 8 v l →
    HeapOrdered l → l.length < n →
    ∃ xs v', Vec.heapDrain n v = .done (xs, v') ∧ Holding 8 v' [] ∧ xs.Perm l ∧
      xs.Pairwise (· ≤ ·) := by
  induction n with
  | zero =>
    intro v l _ _ hlt
    exact absurd hlt (Nat.not_lt_zero _)
  | succ n ih =>
    intro v l h hord hlt
    unfold Vec.heapDrain
    rcases heapPop_ok h hord with ⟨rfl, hrun⟩ | ⟨x, v', l', hrun, hl', hord', hperm, hle⟩
    · exact ⟨[], v, by rw [hrun]; rfl, h, List.Perm.refl _, List.Pairwise.nil⟩
    · have hshort : l'.length < n := by
        have hlength := hperm.length_eq
        rw [List.length_cons] at hlength
        omega
      obtain ⟨xs, v'', hrest, hempty, hperm', hsorted⟩ := ih hl' hord' hshort
      refine ⟨x :: xs, v'', ?_, hempty, (hperm'.cons x).trans hperm.symm, ?_⟩
      · rw [hrun, Outcome.done_bind]
        dsimp only
        rw [hrest]
        rfl
      · refine List.pairwise_cons.mpr ⟨fun y hy => ?_, hsorted⟩
        exact hle y (hperm.symm.subset (List.mem_cons_of_mem x (hperm'.subset hy)))

/-! ## The helpers together -/

/-- **The heap helpers of a vector**: `heapify` brings any content into heap order and keeps
its elements; from a content in heap order a push and a pop lead to one again and add and take
exactly one element, a pop and a peek return the least, and popping until nothing is left
yields all elements in order. No access is outside the elements, and only a refused growth
aborts. Source: backend_c.rs:6357-6432 -/
theorem vecHeap_correct (v : Vec Int64) (l : List Int64) (h : Holding 8 v l) :
    (∃ v' l', v.heapify = .done (0, v') ∧ Holding 8 v' l' ∧ HeapOrdered l' ∧ l'.Perm l) ∧
      (HeapOrdered l →
        (∀ heap x,
          (v.heapPush heap x = .aborted ∧ v.capacity ≤ v.len ∧
              malloc heap (Vec.grownCapacity v.capacity * 8) = false) ∨
            ∃ v' l', v.heapPush heap x = .done (((x :: l).length : Int), v') ∧
              Holding 8 v' l' ∧ HeapOrdered l' ∧ l'.Perm (x :: l)) ∧
        ((l = [] ∧ v.heapPop = .done (none, v)) ∨
          ∃ x v' l', v.heapPop = .done (some x, v') ∧ Holding 8 v' l' ∧ HeapOrdered l' ∧
            l.Perm (x :: l') ∧ ∀ y ∈ l, x ≤ y) ∧
        ((l = [] ∧ v.heapPeek = .done none) ∨
          ∃ x ∈ l, v.heapPeek = .done (some x) ∧ ∀ y ∈ l, x ≤ y) ∧
        ∃ xs v', Vec.heapDrain (l.length + 1) v = .done (xs, v') ∧ Holding 8 v' [] ∧
          xs.Perm l ∧ xs.Pairwise (· ≤ ·)) := by
  refine ⟨heapify_ok h, fun hord => ⟨heapPush_ok h hord, heapPop_ok h hord, ?_,
    heapDrain_ok _ h hord (Nat.lt_succ_self _)⟩⟩
  unfold Vec.heapPeek
  have hlen := h.len_eq
  cases l with
  | nil => exact Or.inl ⟨rfl, if_pos hlen⟩
  | cons x t =>
    rw [List.length_cons] at hlen
    refine Or.inr ⟨x, List.mem_cons_self, ?_, fun y hy => hord.root_le rfl hy⟩
    rw [if_neg (by omega), h.load_some (rfl : (x :: t)[0]? = some x)]
    rfl

/-- Three elements out of order. -/
def outOfOrder : Vec Int64 := ⟨([3, 1, 2] : List Int64).map some |>.toArray, 3, 3⟩

theorem vecHeap_correct_outOfOrder :
    (∃ v' l', outOfOrder.heapify = .done (0, v') ∧ Holding 8 v' l' ∧ HeapOrdered l' ∧
        l'.Perm [3, 1, 2]) ∧
      (HeapOrdered ([3, 1, 2] : List Int64) →
        (∀ heap x,
          (outOfOrder.heapPush heap x = .aborted ∧ outOfOrder.capacity ≤ outOfOrder.len ∧
              malloc heap (Vec.grownCapacity outOfOrder.capacity * 8) = false) ∨
            ∃ v' l', outOfOrder.heapPush heap x = .done (((x :: [3, 1, 2]).length : Int), v') ∧
              Holding 8 v' l' ∧ HeapOrdered l' ∧ l'.Perm (x :: [3, 1, 2])) ∧
        ((([3, 1, 2] : List Int64) = [] ∧ outOfOrder.heapPop = .done (none, outOfOrder)) ∨
          ∃ x v' l', outOfOrder.heapPop = .done (some x, v') ∧ Holding 8 v' l' ∧
            HeapOrdered l' ∧ ([3, 1, 2] : List Int64).Perm (x :: l') ∧
            ∀ y ∈ ([3, 1, 2] : List Int64), x ≤ y) ∧
        ((([3, 1, 2] : List Int64) = [] ∧ outOfOrder.heapPeek = .done none) ∨
          ∃ x ∈ ([3, 1, 2] : List Int64), outOfOrder.heapPeek = .done (some x) ∧
            ∀ y ∈ ([3, 1, 2] : List Int64), x ≤ y) ∧
        ∃ xs v', Vec.heapDrain (([3, 1, 2] : List Int64).length + 1) outOfOrder =
            .done (xs, v') ∧
          Holding 8 v' [] ∧ xs.Perm [3, 1, 2] ∧ xs.Pairwise (· ≤ ·)) :=
  vecHeap_correct outOfOrder [3, 1, 2] (holding_full (l := [3, 1, 2]) (by decide))

end Vani.Analysis
