import Vani.Backend.Deque
import Vani.Library.RingBuffer
import Vani.Analysis.VecRefines

/-!
# The emitted deque refines a list

A deque stands for the list along its ring. Pushing and popping extend and shorten it at
the two ends, and a growth lays it out again from the first cell of a larger ring.
-/

set_option autoImplicit false

namespace Vani.Analysis

open Vani.Library Vani.Backend

/-- The deque holds the list. -/
structure Deque.Holds (d : Deque) (l : List Int64) : Prop where
  cells : d.data.size = d.capacity
  len_eq : d.len = l.length
  bytes : d.capacity * 8 < 2 ^ 63
  front_lt : 0 < d.capacity → d.front < d.capacity
  ring : Circular d.data d.front l

namespace Deque.Holds

variable {d : Deque} {l : List Int64}

theorem new : Deque.Holds Deque.new [] where
  cells := rfl
  len_eq := rfl
  bytes := by decide
  front_lt h := absurd h (Nat.lt_irrefl 0)
  ring := Circular.nil _ _

theorem len_le (h : Deque.Holds d l) : d.len ≤ d.capacity := by
  rw [h.len_eq, ← h.cells]
  exact h.ring.fits

theorem length (h : Deque.Holds d l) : d.length = l.length := by
  unfold Deque.length
  rw [h.len_eq]
  refine toInt64_of_lt ?_
  have hle := h.len_le
  have hbytes := h.bytes
  have hlen := h.len_eq
  omega

theorem wrap_eq {i n : Nat} (hn : 0 < n) : Deque.wrap i n = .done (i % n) :=
  if_neg (Nat.ne_of_gt hn)

/-- An element is read from its cell. -/
theorem load (h : Deque.Holds d l) {i : Nat} {x : Int64} (hx : l[i]? = some x) :
    Vec.load d.data ((d.front + i) % d.capacity) = .done x := by
  have hcell := h.ring.elem i x hx
  rw [h.cells] at hcell
  unfold Vec.load Outcome.read
  rw [hcell]
  rfl

theorem capacity_pos (h : Deque.Holds d l) (hne : l ≠ []) : 0 < d.capacity := by
  have hlen := List.length_pos_iff.mpr hne
  have hle := h.len_le
  have heq := h.len_eq
  omega

/-- A growth lays the list out from the first cell on. -/
theorem grow (h : Deque.Holds d l) (heap : Nat → Bool) :
    (d.grow heap = .aborted ∧ malloc heap (Deque.grownCapacity d.capacity * 8) = false) ∨
      ∃ d', d.grow heap = .done d' ∧ Deque.Holds d' l ∧
        d'.capacity = Deque.grownCapacity d.capacity := by
  have hgrown : d.len < Deque.grownCapacity d.capacity := by
    have hle := h.len_le
    unfold Deque.grownCapacity
    split <;> omega
  rcases malloc_cases heap (Deque.grownCapacity d.capacity * 8) with hno | ⟨hyes, hbytes⟩
  · exact Or.inl ⟨if_neg (by rw [hno]; exact Bool.false_ne_true), hno⟩
  · -- after `i` turns the first `i` elements are in place
    obtain ⟨data, hloop, hsize, helem⟩ := Outcome.forRange_of_step
      (f := fun i new => do
        let x ← Vec.load d.data (← Deque.wrap (d.front + i) d.capacity)
        Outcome.write new i (some x))
      (n := d.len) (s := Array.replicate (Deque.grownCapacity d.capacity) none)
      (fun i (new : Array (Option Int64)) =>
        new.size = Deque.grownCapacity d.capacity ∧
          ∀ (j : Nat) x, j < i → l[j]? = some x → new[j]? = some (some x))
      ⟨Array.size_replicate, fun j x hj => absurd hj (Nat.not_lt_zero j)⟩
      (fun i new hi ⟨hsize, helem⟩ => by
        have hlt : i < l.length := by
          rw [← h.len_eq]
          exact hi
        have hcap : 0 < d.capacity := Nat.lt_of_lt_of_le (Nat.zero_lt_of_lt hi) h.len_le
        have hx := List.getElem?_eq_getElem hlt
        have hbound : i < new.size := by omega
        refine ⟨new.setIfInBounds i (some l[i]), ?_, ?_, fun j x hj hjx => ?_⟩
        · rw [wrap_eq hcap, Outcome.done_bind, h.load hx, Outcome.done_bind,
            Outcome.write_of_lt hbound]
        · rw [Array.size_setIfInBounds, hsize]
        · by_cases hij : i = j
          · subst hij
            rw [hx] at hjx
            cases hjx
            exact Array.getElem?_setIfInBounds_self_of_lt hbound
          · rw [Array.getElem?_setIfInBounds_ne hij]
            exact helem j x (by omega) hjx)
    refine Or.inr ⟨⟨data, 0, d.len, Deque.grownCapacity d.capacity⟩, ?_,
      ⟨hsize, h.len_eq, hbytes, id, ?_⟩, rfl⟩
    · simp only [Deque.grow, if_pos hyes, hloop, Outcome.done_bind, Outcome.pure_eq]
    · refine Circular.of_prefix ?_ fun j x hx => ?_
      · rw [hsize, ← h.len_eq]
        exact hgrown.le
      · refine helem j x ?_ hx
        rw [h.len_eq]
        exact (List.getElem?_eq_some_iff.mp hx).1

/-- A deque with room for another element, or no memory for one. -/
theorem reserve (h : Deque.Holds d l) (heap : Nat → Bool) :
    (d.reserve heap = .aborted ∧ d.capacity ≤ d.len ∧
        malloc heap (Deque.grownCapacity d.capacity * 8) = false) ∨
      ∃ d', d.reserve heap = .done d' ∧ Deque.Holds d' l ∧ l.length < d'.capacity := by
  unfold Deque.reserve
  have hlen := h.len_eq
  by_cases hfull : d.capacity ≤ d.len
  · rw [if_pos hfull]
    rcases h.grow heap with ⟨hrun, hno⟩ | ⟨d', hrun, hd', hcap⟩
    · exact Or.inl ⟨hrun, hfull, hno⟩
    · refine Or.inr ⟨d', hrun, hd', ?_⟩
      have hle := h.len_le
      rw [hcap, ← hlen]
      unfold Deque.grownCapacity
      split <;> omega
  · rw [if_neg hfull]
    exact Or.inr ⟨d, rfl, h, by omega⟩

theorem pushBack (h : Deque.Holds d l) (heap : Nat → Bool) (v : Int64) :
    (d.pushBack heap v = .aborted ∧ d.capacity ≤ d.len ∧
        malloc heap (Deque.grownCapacity d.capacity * 8) = false) ∨
      ∃ d', d.pushBack heap v = .done ((l ++ [v]).length, d') ∧ Deque.Holds d' (l ++ [v]) := by
  unfold Deque.pushBack
  rcases h.reserve heap with ⟨hrun, hfull, hno⟩ | ⟨e, hrun, he, hroom⟩
  · exact Or.inl ⟨by rw [hrun, Outcome.aborted_bind], hfull, hno⟩
  · have hcells := he.cells
    have hpos : 0 < e.capacity := Nat.zero_lt_of_lt hroom
    have hbound : (e.front + e.len) % e.capacity < e.data.size := by
      rw [hcells]
      exact Nat.mod_lt _ hpos
    have hheld : Deque.Holds ⟨e.data.setIfInBounds ((e.front + e.len) % e.capacity) (some v),
        e.front, e.len + 1, e.capacity⟩ (l ++ [v]) := by
      refine ⟨?_, ?_, he.bytes, he.front_lt, ?_⟩
      · rw [Array.size_setIfInBounds, hcells]
      · rw [List.length_append, he.len_eq]
        rfl
      · rw [he.len_eq, ← hcells]
        exact he.ring.concat (by omega)
    refine Or.inr ⟨_, ?_, hheld⟩
    rw [hrun, Outcome.done_bind, wrap_eq hpos, Outcome.done_bind, Outcome.write_of_lt hbound,
      Outcome.done_bind, ← hheld.length]
    rfl

theorem pushFront (h : Deque.Holds d l) (heap : Nat → Bool) (v : Int64) :
    (d.pushFront heap v = .aborted ∧ d.capacity ≤ d.len ∧
        malloc heap (Deque.grownCapacity d.capacity * 8) = false) ∨
      ∃ d', d.pushFront heap v = .done ((v :: l).length, d') ∧ Deque.Holds d' (v :: l) := by
  unfold Deque.pushFront
  rcases h.reserve heap with ⟨hrun, hfull, hno⟩ | ⟨e, hrun, he, hroom⟩
  · exact Or.inl ⟨by rw [hrun, Outcome.aborted_bind], hfull, hno⟩
  · have hcells := he.cells
    have hpos : 0 < e.capacity := Nat.zero_lt_of_lt hroom
    have hlt : (e.front + e.capacity - 1) % e.capacity < e.capacity := Nat.mod_lt _ hpos
    have hbound : (e.front + e.capacity - 1) % e.capacity < e.data.size := by rwa [hcells]
    -- one position on from the new front is the old one
    have hnext : (e.front + e.capacity - 1 + 1) % e.data.size = e.front % e.data.size := by
      have hsum : e.front + e.capacity - 1 + 1 = e.front + e.capacity := by omega
      rw [hsum, hcells, Nat.add_mod_right]
    have hring := (he.ring.congr hnext.symm).cons (x := v) (by omega)
    have hheld : Deque.Holds
        ⟨e.data.setIfInBounds ((e.front + e.capacity - 1) % e.capacity) (some v),
          (e.front + e.capacity - 1) % e.capacity, e.len + 1, e.capacity⟩ (v :: l) := by
      refine ⟨?_, ?_, he.bytes, fun _ => hlt, ?_⟩
      · rw [Array.size_setIfInBounds, hcells]
      · rw [List.length_cons, he.len_eq]
      · rw [hcells] at hring
        refine hring.congr ?_
        rw [Array.size_setIfInBounds, hcells, Nat.mod_mod]
    refine Or.inr ⟨_, ?_, hheld⟩
    rw [hrun, Outcome.done_bind, wrap_eq hpos, Outcome.done_bind, Outcome.write_of_lt hbound,
      Outcome.done_bind, ← hheld.length]
    rfl

theorem peekFront (h : Deque.Holds d l) : d.peekFront = .done l.head? := by
  unfold Deque.peekFront
  cases l with
  | nil => exact if_pos h.len_eq
  | cons x l =>
    have hlen := h.len_eq
    have hload := h.load (i := 0) rfl
    rw [List.length_cons] at hlen
    have hpos := h.capacity_pos (List.cons_ne_nil x l)
    rw [Nat.add_zero, Nat.mod_eq_of_lt (h.front_lt hpos)] at hload
    rw [if_neg (by omega), hload]
    rfl

theorem popFront (h : Deque.Holds d l) :
    ∃ d', d.popFront = .done (l.head?, d') ∧ Deque.Holds d' l.tail := by
  unfold Deque.popFront
  cases l with
  | nil => exact ⟨d, if_pos h.len_eq, h⟩
  | cons x l =>
    have hlen := h.len_eq
    have hpos := h.capacity_pos (List.cons_ne_nil _ _)
    have hload := h.load (i := 0) rfl
    rw [List.length_cons] at hlen
    rw [Nat.add_zero, Nat.mod_eq_of_lt (h.front_lt hpos)] at hload
    refine ⟨⟨d.data, (d.front + 1) % d.capacity, d.len - 1, d.capacity⟩, ?_, h.cells, ?_, h.bytes,
      fun _ => Nat.mod_lt _ hpos, ?_⟩
    · rw [if_neg (by omega), hload, Outcome.done_bind, wrap_eq hpos]
      rfl
    · rw [hlen]
      rfl
    · refine h.ring.tail.congr ?_
      rw [h.cells, Nat.mod_mod]

theorem peekBack (h : Deque.Holds d l) : d.peekBack = .done l.getLast? := by
  unfold Deque.peekBack
  rcases List.eq_nil_or_concat' l with rfl | ⟨l, x, rfl⟩
  · exact if_pos h.len_eq
  · have hlen := h.len_eq
    have hpos := h.capacity_pos (List.append_ne_nil_of_right_ne_nil l (List.cons_ne_nil x []))
    have hload := h.load (i := l.length) List.getElem?_concat_length
    rw [List.length_append, List.length_singleton] at hlen
    have hback : d.front + d.len - 1 = d.front + l.length := by omega
    rw [if_neg (by omega), hback, wrap_eq hpos, Outcome.done_bind, hload, List.getLast?_concat]
    rfl

theorem popBack (h : Deque.Holds d l) :
    ∃ d', d.popBack = .done (l.getLast?, d') ∧ Deque.Holds d' l.dropLast := by
  unfold Deque.popBack
  rcases List.eq_nil_or_concat' l with rfl | ⟨l, x, rfl⟩
  · exact ⟨d, if_pos h.len_eq, h⟩
  · have hlen := h.len_eq
    have hpos := h.capacity_pos (List.append_ne_nil_of_right_ne_nil l (List.cons_ne_nil x []))
    have hload := h.load (i := l.length) List.getElem?_concat_length
    rw [List.length_append, List.length_singleton] at hlen
    have hlast : d.len - 1 = l.length := by omega
    refine ⟨⟨d.data, d.front, d.len - 1, d.capacity⟩, ?_, h.cells, ?_, h.bytes, h.front_lt, ?_⟩
    · rw [if_neg (by omega), hlast, wrap_eq hpos, Outcome.done_bind, hload, List.getLast?_concat]
      rfl
    · rw [List.dropLast_concat]
      exact hlast
    · rw [List.dropLast_concat]
      exact h.ring.init

end Deque.Holds

/-! ## Sequences of operations -/

/-- The operations on a list. -/
def dequeSpec (l : List Int64) : DequeOp × (Nat → Bool) → Option (DequeResult × List Int64)
  | (.new, _) => some (.unit, [])
  | (.pushFront v, _) => some (.int (v :: l).length, v :: l)
  | (.pushBack v, _) => some (.int (l ++ [v]).length, l ++ [v])
  | (.popFront, _) => some (.value l.head?, l.tail)
  | (.popBack, _) => some (.value l.getLast?, l.dropLast)
  | (.peekFront, _) => some (.value l.head?, l)
  | (.peekBack, _) => some (.value l.getLast?, l)
  | (.len, _) => some (.int l.length, l)
  | (.clear, _) => some (.int l.length, [])

/-- Every operation does to the deque what it does to the list. -/
theorem step_deque (d : Deque) (l : List Int64) (i : DequeOp × (Nat → Bool))
    (h : Deque.Holds d l) :
    StepRefines Deque.step dequeSpec Deque.refused Deque.Holds d l i := by
  obtain ⟨op, heap⟩ := i
  cases op with
  | new => exact stepRefines_done rfl rfl Deque.Holds.new
  | pushFront v =>
    rcases h.pushFront heap v with ⟨hrun, href⟩ | ⟨d', hrun, hd'⟩
    · exact stepRefines_refused (by simp only [Deque.step, hrun, Outcome.aborted_bind]) href
    · exact stepRefines_done
        (by simp only [Deque.step, hrun, Outcome.done_bind, Outcome.pure_eq]) rfl hd'
  | pushBack v =>
    rcases h.pushBack heap v with ⟨hrun, href⟩ | ⟨d', hrun, hd'⟩
    · exact stepRefines_refused (by simp only [Deque.step, hrun, Outcome.aborted_bind]) href
    · exact stepRefines_done
        (by simp only [Deque.step, hrun, Outcome.done_bind, Outcome.pure_eq]) rfl hd'
  | popFront =>
    obtain ⟨d', hrun, hd'⟩ := h.popFront
    exact stepRefines_done
      (by simp only [Deque.step, hrun, Outcome.done_bind, Outcome.pure_eq]) rfl hd'
  | popBack =>
    obtain ⟨d', hrun, hd'⟩ := h.popBack
    exact stepRefines_done
      (by simp only [Deque.step, hrun, Outcome.done_bind, Outcome.pure_eq]) rfl hd'
  | peekFront =>
    exact stepRefines_done
      (by simp only [Deque.step, h.peekFront, Outcome.done_bind, Outcome.pure_eq]) rfl h
  | peekBack =>
    exact stepRefines_done
      (by simp only [Deque.step, h.peekBack, Outcome.done_bind, Outcome.pure_eq]) rfl h
  | len => exact stepRefines_done (by simp only [Deque.step, h.length, Outcome.pure_eq]) rfl h
  | clear =>
    exact stepRefines_done (by rw [← h.length]; rfl) rfl Deque.Holds.new

/-- **The emitted deque refines a list** over every sequence of operations, under heaps that
may refuse a growth: every operation touches cells of the buffer only and returns what the
list operation returns; and in every state a run comes to the buffer has `capacity` cells,
the front is one of them and `len` does not exceed their number.
Source: backend_c.rs:812-897 -/
theorem deque_refines :
    (∀ ops, RunRefines Deque.step dequeSpec Deque.refused ops Deque.new []) ∧
      ∀ d, Reached Deque.step Deque.new d →
        d.data.size = d.capacity ∧ d.len ≤ d.capacity ∧
          (0 < d.capacity → d.front < d.capacity) := by
  refine ⟨fun ops => runRefines_of_step step_deque ops Deque.Holds.new, fun d hr => ?_⟩
  obtain ⟨l, hl⟩ := hr.rel step_deque Deque.Holds.new
  exact ⟨hl.cells, hl.len_le, hl.front_lt⟩

end Vani.Analysis
