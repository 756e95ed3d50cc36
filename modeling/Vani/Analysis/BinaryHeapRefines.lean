import Vani.Backend.BinaryHeap
import Vani.Library.HeapOrder
import Vani.Analysis.SortedArrays

/-!
# Correctness of the emitted binary heap

The array holds a list in heap order whose elements are a multiset. A sift exchanges two
elements a turn, so the elements stay the same, and ends with the list in order; the first
element is the least, so a pop takes the least element of the multiset.
-/

set_option autoImplicit false

namespace Vani.Analysis

open Vani.Library Vani.Backend

variable {v : Vec Int64} {l : List Int64}

/-- Two elements change places. -/
theorem exchange_ok (h : Holding 8 v l) {i j : Nat} {x y : Int64} (hx : l[i]? = some x)
    (hy : l[j]? = some y) :
    ∃ data, BinaryHeap.exchange v.data i j = .done data ∧
      Holding 8 ⟨data, v.len, v.capacity⟩ ((l.set i y).set j x) := by
  have hi := (List.getElem?_eq_some_iff.mp hx).1
  have hj := (List.getElem?_eq_some_iff.mp hy).1
  obtain ⟨hwrite, hstore⟩ := h.store hi y
  have hj' : j < (l.set i y).length := by rwa [List.length_set]
  obtain ⟨hwrite', hstore'⟩ := hstore.store hj' x
  refine ⟨_, ?_, hstore'⟩
  unfold BinaryHeap.exchange
  rw [h.load_some hx, Outcome.done_bind, h.load_some hy, Outcome.done_bind, hwrite,
    Outcome.done_bind, hwrite']

/-! ## Sifting -/

/-- The element that may be less than its parent moves up until the list is in order. -/
theorem siftUp_ok (h : Holding 8 v l) {i : Nat} (hup : UpOrdered l i) (hi : i < l.length) :
    ∃ data, Outcome.loop BinaryHeap.siftUpTurn (i + 1) (i, v.data) = .done data ∧
      ∃ l' : List Int64, Holding 8 ⟨data, v.len, v.capacity⟩ l' ∧ HeapOrdered l' ∧ l'.Perm l := by
  refine Outcome.loop_of_measure
    (fun s : Nat × Array (Option Int64) => ∃ l' : List Int64,
      Holding 8 ⟨s.2, v.len, v.capacity⟩ l' ∧ UpOrdered l' s.1 ∧ s.1 < l'.length ∧ l'.Perm l)
    (fun s => s.1) (Nat.lt_succ_self i) ⟨l, h, hup, hi, List.Perm.refl l⟩ ?_
  rintro ⟨k, data⟩ ⟨l', hv, hup, hk, hperm⟩
  dsimp only at hv hup hk ⊢
  by_cases hpos : 0 < k
  · have hx : l'[k]? = some l'[k] := List.getElem?_eq_getElem hk
    have hp : (k - 1) / 2 < l'.length := by omega
    have hy : l'[(k - 1) / 2]? = some l'[(k - 1) / 2] := List.getElem?_eq_getElem hp
    have hloadx : Vec.load data k = .done l'[k] := hv.load_some hx
    have hloady : Vec.load data ((k - 1) / 2) = .done l'[(k - 1) / 2] := hv.load_some hy
    by_cases hle : l'[(k - 1) / 2] ≤ l'[k]
    · refine Or.inr ⟨data, ?_, l', hv, hup.done fun _ a b ha hb => ?_, hperm⟩
      · simp only [BinaryHeap.siftUpTurn, if_pos hpos, hloadx, hloady, Outcome.done_bind,
          if_pos hle, Outcome.pure_eq]
      · rw [hy] at ha
        rw [hx] at hb
        cases ha
        cases hb
        exact hle
    · obtain ⟨data', hex, hv'⟩ := exchange_ok hv hx hy
      refine Or.inl ⟨((k - 1) / 2, data'), ?_, ⟨_, hv', hup.move hpos hx hy (not_le.mp hle), ?_,
        (exchange_perm hx hy).trans hperm⟩, ?_⟩
      · simp only [BinaryHeap.siftUpTurn, if_pos hpos, hloadx, hloady, Outcome.done_bind,
          if_neg hle, Outcome.pure_eq]
        rw [show BinaryHeap.exchange data k ((k - 1) / 2) = .done data' from hex]
        rfl
      · rwa [List.length_set, List.length_set]
      · dsimp only
        omega
  · refine Or.inr ⟨data, ?_, l', hv, hup.done fun hk => absurd hk hpos, hperm⟩
    simp only [BinaryHeap.siftUpTurn, if_neg hpos, Outcome.pure_eq]

/-- The child is taken if it is less, and what is taken is not greater than either. -/
theorem smaller_ok (h : Holding 8 v l) {s c : Nat} {y : Int64} (hs : l[s]? = some y) :
    ∃ s' z, BinaryHeap.smaller v.data v.len s c = .done s' ∧ l[s']? = some z ∧
      (s' = s ∧ z = y ∨ s' = c ∧ z < y) ∧ ∀ b, l[c]? = some b → z ≤ b := by
  unfold BinaryHeap.smaller
  have hlen := h.len_eq
  by_cases hc : c < v.len
  · have hx : l[c]? = some l[c] := List.getElem?_eq_getElem (by omega)
    rw [if_pos hc, h.load_some hx, Outcome.done_bind, h.load_some hs, Outcome.done_bind]
    by_cases hlt : l[c] < y
    · refine ⟨c, l[c], by rw [if_pos hlt]; rfl, hx, Or.inr ⟨rfl, hlt⟩, fun b hb => ?_⟩
      rw [hx] at hb
      exact (Option.some.inj hb).le
    · refine ⟨s, y, by rw [if_neg hlt]; rfl, hs, Or.inl ⟨rfl, rfl⟩, fun b hb => ?_⟩
      rw [hx] at hb
      exact (not_lt.mp hlt).trans (Option.some.inj hb).le
  · refine ⟨s, y, if_neg hc, hs, Or.inl ⟨rfl, rfl⟩, fun b hb => ?_⟩
    rw [List.getElem?_eq_none (by omega)] at hb
    cases hb

/-- The element that may be greater than its children moves down until the list is in order
from `m` on. -/
theorem siftDownFrom_ok {m i : Nat} (h : Holding 8 v l) (hdown : DownOrderedFrom l m i)
    (hm : m ≤ i) (hi : i < l.length) :
    ∃ data, Outcome.loop (BinaryHeap.siftDownTurn v.len) (v.len + 1) (i, v.data) = .done data ∧
      ∃ l' : List Int64, Holding 8 ⟨data, v.len, v.capacity⟩ l' ∧ OrderedFrom l' m ∧
        l'.Perm l := by
  refine Outcome.loop_of_measure
    (fun s : Nat × Array (Option Int64) => ∃ l' : List Int64,
      Holding 8 ⟨s.2, v.len, v.capacity⟩ l' ∧ DownOrderedFrom l' m s.1 ∧ m ≤ s.1 ∧
        s.1 < l'.length ∧ l'.Perm l)
    (fun s => v.len - s.1) (Nat.lt_succ_of_le (Nat.sub_le _ _))
    ⟨l, h, hdown, hm, hi, List.Perm.refl l⟩ ?_
  clear hdown hm hi
  rintro ⟨i, data⟩ ⟨l', hv, hdown, hm, hi, hperm⟩
  dsimp only at hv hdown hm hi ⊢
  have hlen : v.len = l'.length := hv.len_eq
  have hx : l'[i]? = some l'[i] := List.getElem?_eq_getElem hi
  obtain ⟨s₁, z₁, hleft, hz₁, hcase₁, hle₁⟩ := smaller_ok (c := 2 * i + 1) hv hx
  obtain ⟨s₂, z₂, hright, hz₂, hcase₂, hle₂⟩ := smaller_ok (c := 2 * i + 2) hv hz₁
  dsimp only at hleft hright
  -- the element taken is the least of the three
  have hz₂₁ : z₂ ≤ z₁ := by
    rcases hcase₂ with ⟨-, rfl⟩ | ⟨-, hlt⟩
    · exact le_rfl
    · exact hlt.le
  have hleast : ∀ j b, 0 < j → (j - 1) / 2 = i → l'[j]? = some b → z₂ ≤ b := by
    intro j b hj hparent hb
    have hchild : j = 2 * i + 1 ∨ j = 2 * i + 2 := by omega
    rcases hchild with rfl | rfl
    · exact hz₂₁.trans (hle₁ b hb)
    · exact hle₂ b hb
  by_cases hsame : s₂ = i
  · refine Or.inr ⟨data, ?_, l', hv, hdown.done fun j hj hparent a b ha hb => ?_, hperm⟩
    · simp only [BinaryHeap.siftDownTurn, hleft, hright, Outcome.done_bind, if_pos hsame,
        Outcome.pure_eq]
    · rw [hparent] at ha
      rw [hsame, ha] at hz₂
      cases hz₂
      exact hleast j b hj hparent hb
  · have hchild : 0 < s₂ ∧ (s₂ - 1) / 2 = i ∧ i < s₂ ∧ z₂ < l'[i] := by
      rcases hcase₂ with ⟨rfl, rfl⟩ | ⟨rfl, hlt⟩
      · rcases hcase₁ with ⟨rfl, -⟩ | ⟨rfl, hlt⟩
        · exact absurd rfl hsame
        · exact ⟨by omega, by omega, by omega, hlt⟩
      · refine ⟨by omega, by omega, by omega, ?_⟩
        rcases hcase₁ with ⟨-, rfl⟩ | ⟨-, hlt'⟩
        · exact hlt
        · exact hlt.trans hlt'
    obtain ⟨hspos, hparent, hgt, hlt⟩ := hchild
    have hs := (List.getElem?_eq_some_iff.mp hz₂).1
    obtain ⟨data', hex, hv'⟩ := exchange_ok hv hx hz₂
    dsimp only at hex
    refine Or.inl ⟨(s₂, data'), ?_, ⟨_, hv', hdown.move hm hspos hparent hx hz₂ hlt hleast,
      by omega, ?_, (exchange_perm hx hz₂).trans hperm⟩, ?_⟩
    · simp only [BinaryHeap.siftDownTurn, hleft, hright, Outcome.done_bind, if_neg hsame, hex,
        Outcome.pure_eq]
    · rwa [List.length_set, List.length_set]
    · dsimp only
      omega

/-- The first element moves down until the list is in order. -/
theorem siftDown_ok (h : Holding 8 v l) (hdown : DownOrdered l 0) (hpos : 0 < l.length) :
    ∃ data, Outcome.loop (BinaryHeap.siftDownTurn v.len) (v.len + 1) (0, v.data) = .done data ∧
      ∃ l' : List Int64, Holding 8 ⟨data, v.len, v.capacity⟩ l' ∧ HeapOrdered l' ∧
        l'.Perm l := by
  obtain ⟨data, hrun, l', hl', hord, hperm⟩ :=
    siftDownFrom_ok h hdown.fromZero (Nat.le_refl 0) hpos
  exact ⟨data, hrun, l', hl', hord.heapOrdered, hperm⟩

/-! ## The operations -/

/-- The array holds the elements of a multiset in heap order. -/
def HeapHolds (h : BinaryHeap) (s : Multiset Int64) : Prop :=
  ∃ l : List Int64, Holding 8 h l ∧ HeapOrdered l ∧ (l : Multiset Int64) = s

/-- The least element of a multiset. -/
def leastOf (s : Multiset Int64) : Option Int64 :=
  if h : s.toFinset.Nonempty then some (s.toFinset.min' h) else none

/-- The first element of a list in heap order is the least of the multiset. -/
theorem leastOf_coe (hl : HeapOrdered l) : leastOf (l : Multiset Int64) = l.head? := by
  unfold leastOf
  cases l with
  | nil => rfl
  | cons x l =>
    have hmem : x ∈ ((x :: l : List Int64) : Multiset Int64).toFinset := by
      rw [Multiset.mem_toFinset]
      exact List.mem_cons_self
    rw [dif_pos ⟨x, hmem⟩]
    refine congrArg some (le_antisymm (Finset.min'_le _ x hmem) ?_)
    refine Finset.le_min' _ _ x fun y hy => ?_
    rw [Multiset.mem_toFinset] at hy
    exact hl.root_le rfl hy

variable {h : BinaryHeap} {s : Multiset Int64}

theorem heapHolds_new : HeapHolds BinaryHeap.new 0 :=
  ⟨[], holding_empty, HeapOrdered.nil, rfl⟩

theorem HeapHolds.length (hs : HeapHolds h s) : toInt64 h.len = s.card := by
  obtain ⟨l, hl, -, rfl⟩ := hs
  have hsmall := hl.small
  have hle := hl.len_le
  rw [Multiset.coe_card, ← hl.len_eq]
  exact toInt64_of_lt (by omega)

theorem HeapHolds.push (hs : HeapHolds h s) (heap : Nat → Bool) (x : Int64) :
    (BinaryHeap.push heap h x = .aborted ∧ h.capacity ≤ h.len ∧
        malloc heap (BTree.grownCapacity 4 h.capacity * 8) = false) ∨
      ∃ h', BinaryHeap.push heap h x = .done (((x ::ₘ s).card : Int), h') ∧
        HeapHolds h' (x ::ₘ s) := by
  obtain ⟨l, hl, hord, rfl⟩ := hs
  unfold BinaryHeap.push
  rcases hl.reserveCell (show 0 < 4 by decide) heap with
    ⟨hno, href⟩ | ⟨w, hyes, hw, hroom, -⟩
  · exact Or.inl ⟨by rw [hno]; rfl, href⟩
  · have hlen := hw.len_eq
    have hlt : w.len < w.data.size := by
      rw [hw.cells]
      exact hroom
    obtain ⟨data, hrun, l', hl', hord', hperm⟩ := siftUp_ok (hw.append hroom x)
      (hord.append x) (by rw [List.length_append, List.length_singleton]; omega)
    have hperm' : (l' : Multiset Int64) = x ::ₘ (l : Multiset Int64) := by
      rw [Multiset.cons_coe, Multiset.coe_eq_coe]
      exact hperm.trans (List.perm_append_singleton x l)
    have hholds : HeapHolds ⟨data, w.len + 1, w.capacity⟩ (x ::ₘ (l : Multiset Int64)) :=
      ⟨l', hl', hord', hperm'⟩
    have hcard : toInt64 (w.len + 1) = ((x ::ₘ (l : Multiset Int64)).card : Int) := hholds.length
    rw [← hlen] at hrun
    dsimp only at hrun
    refine Or.inr ⟨⟨data, w.len + 1, w.capacity⟩, ?_, hholds⟩
    rw [hyes, Outcome.done_bind, Outcome.write_of_lt hlt, Outcome.done_bind, hrun,
      Outcome.done_bind, hcard]
    rfl

theorem HeapHolds.peek (hs : HeapHolds h s) : BinaryHeap.peek h = .done (leastOf s) := by
  obtain ⟨l, hl, hord, rfl⟩ := hs
  unfold BinaryHeap.peek
  rw [leastOf_coe hord]
  have hlen := hl.len_eq
  cases l with
  | nil => exact if_pos hlen
  | cons x l =>
    rw [List.length_cons] at hlen
    rw [if_neg (by omega), hl.load_some (rfl : (x :: l)[0]? = some x)]
    rfl

/-- The multiset without its least element. -/
def eraseLeast (s : Multiset Int64) : Multiset Int64 :=
  match leastOf s with
  | some x => s.erase x
  | none => s

theorem HeapHolds.pop (hs : HeapHolds h s) :
    ∃ h', BinaryHeap.pop h = .done (leastOf s, h') ∧ HeapHolds h' (eraseLeast s) := by
  obtain ⟨l, hl, hord, rfl⟩ := hs
  unfold BinaryHeap.pop eraseLeast
  rw [leastOf_coe hord]
  have hlen := hl.len_eq
  cases l with
  | nil => exact ⟨h, if_pos hlen, [], hl, hord, rfl⟩
  | cons x t =>
    rw [List.length_cons] at hlen
    have herase : ((x :: t : List Int64) : Multiset Int64).erase x = t := by
      rw [Multiset.coe_erase, List.erase_cons_head]
    dsimp only [List.head?_cons]
    rw [if_neg (by omega), hl.load_some (rfl : (x :: t)[0]? = some x), Outcome.done_bind, herase]
    rcases List.eq_nil_or_concat' t with rfl | ⟨m, y, rfl⟩
    · -- the only element
      rw [List.length_nil] at hlen
      have hzero : h.len - 1 = 0 := by omega
      refine ⟨{ h with len := h.len - 1 }, if_neg (by omega), [], ?_, HeapOrdered.nil, rfl⟩
      rw [hzero]
      exact hl.shorten (Nat.zero_le _)
    · -- the last element goes to the first place
      rw [List.length_append, List.length_singleton] at hlen
      have hlast : (x :: (m ++ [y]))[h.len - 1]? = some y := by
        rw [hlen, Nat.add_sub_cancel, List.getElem?_cons_succ]
        exact List.getElem?_concat_length
      obtain ⟨hwrite, hstore⟩ := hl.store (Nat.succ_pos _) y
      have hshort := hstore.shorten (n := h.len - 1) (by
        rw [List.length_set, List.length_cons, List.length_append]
        omega)
      have hlist : ((x :: (m ++ [y])).set 0 y).take (h.len - 1) = y :: m := by
        rw [List.set_cons_zero, hlen, Nat.add_sub_cancel, List.take_succ_cons,
          List.take_left' rfl]
      have hdown : DownOrdered (y :: m) 0 := by
        have hdrop : (x :: (m ++ [y])).dropLast = x :: m := by
          rw [List.dropLast_cons_of_ne_nil
            (List.append_ne_nil_of_right_ne_nil m (List.cons_ne_nil y [])), List.dropLast_concat]
        have hroot := hord.dropLast.replaceRoot y
        rwa [hdrop] at hroot
      rw [hlist] at hshort
      obtain ⟨data, hrun, l', hl', hord', hperm⟩ := siftDown_ok hshort hdown (Nat.succ_pos _)
      dsimp only at hrun hl'
      refine ⟨⟨data, h.len - 1, h.capacity⟩, ?_, l', hl', hord', ?_⟩
      · rw [Nat.sub_add_cancel (by omega)] at hrun
        rw [if_pos (by omega), hl.load_some hlast, Outcome.done_bind, hwrite, Outcome.done_bind,
          hrun]
        rfl
      · exact Multiset.coe_eq_coe.mpr (hperm.trans (List.perm_append_singleton y m).symm)

/-! ## Sequences of operations -/

/-- The operations on a multiset. -/
def binaryHeapSpec (s : Multiset Int64) : BinaryHeapOp × (Nat → Bool) →
    Option (BinaryHeapResult × Multiset Int64)
  | (.new, _) => some (.unit, 0)
  | (.push x, _) => some (.int (x ::ₘ s).card, x ::ₘ s)
  | (.pop, _) => some (.value (leastOf s), eraseLeast s)
  | (.peek, _) => some (.value (leastOf s), s)
  | (.len, _) => some (.int s.card, s)
  | (.clear, _) => some (.int s.card, 0)

/-- Every operation does to the array what it does to the multiset. -/
theorem step_binaryHeap (h : BinaryHeap) (s : Multiset Int64) (i : BinaryHeapOp × (Nat → Bool))
    (hs : HeapHolds h s) :
    StepRefines BinaryHeap.step binaryHeapSpec BinaryHeap.refused HeapHolds h s i := by
  obtain ⟨op, heap⟩ := i
  cases op with
  | new => exact stepRefines_done rfl rfl heapHolds_new
  | push x =>
    rcases hs.push heap x with ⟨hrun, href⟩ | ⟨h', hrun, hs'⟩
    · exact stepRefines_refused (by simp only [BinaryHeap.step, hrun, Outcome.aborted_bind]) href
    · exact stepRefines_done
        (by simp only [BinaryHeap.step, hrun, Outcome.done_bind, Outcome.pure_eq]) rfl hs'
  | pop =>
    obtain ⟨h', hrun, hs'⟩ := hs.pop
    exact stepRefines_done
      (by simp only [BinaryHeap.step, hrun, Outcome.done_bind, Outcome.pure_eq]) rfl hs'
  | peek =>
    exact stepRefines_done
      (by simp only [BinaryHeap.step, hs.peek, Outcome.done_bind, Outcome.pure_eq]) rfl hs
  | len =>
    exact stepRefines_done
      (by simp only [BinaryHeap.step, BinaryHeap.length, hs.length, Outcome.pure_eq]) rfl hs
  | clear =>
    exact stepRefines_done
      (by simp only [BinaryHeap.step, BinaryHeap.clear, hs.length, Outcome.pure_eq]) rfl
      heapHolds_new

/-- **The emitted binary heap refines a multiset** over every sequence of operations, under
heaps of memory that may refuse a growth: a push adds its element, a pop takes and returns
the least one, a peek returns it; and in every state a run comes to no element of the array
is less than its parent. Source: backend_c.rs:1835-1907 -/
theorem binaryHeap_refines :
    (∀ ops, RunRefines BinaryHeap.step binaryHeapSpec BinaryHeap.refused ops BinaryHeap.new 0) ∧
      ∀ h, Reached BinaryHeap.step BinaryHeap.new h →
        ∃ l : List Int64, BTree.contents h = l.map some ∧ l.length = h.len ∧ HeapOrdered l := by
  refine ⟨fun ops => runRefines_of_step step_binaryHeap ops heapHolds_new, fun h hr => ?_⟩
  obtain ⟨s, l, hl, hord, -⟩ := hr.rel step_binaryHeap heapHolds_new
  exact ⟨l, hl.contents, hl.len_eq.symm, hord⟩

end Vani.Analysis
