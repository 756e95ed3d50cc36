import Vani.Backend.Vec
import Mathlib.Data.PNat.Basic

/-!
# The emitted vectors refine lists

A vector stands for the list in its first `len` cells. Every checked helper does to the
vector what the list operation does to the list, aborts on an index out of range, and
touches no cell outside the buffer. The swap and the removal that keep the order check
nothing, and do the same exactly where their indices are in range.
-/

set_option autoImplicit false

namespace Vani.Analysis

open Vani.Library Vani.Backend

variable {α : Type} {size : ℕ+}

/-- The size of most elements. The vectors that hold them are of size `8` by this instance. -/
instance neZero_eight : NeZero 8 := ⟨by decide⟩

/-- The vector holds the list. -/
structure Holding (size : ℕ+) (v : Vec α) (l : List α) : Prop where
  cells : v.data.size = v.capacity
  len_eq : v.len = l.length
  len_le : v.len ≤ v.capacity
  bytes : v.capacity * size < 2 ^ 63
  elem : ∀ i, i < l.length → v.data[i]? = some l[i]?

theorem Holding.small {v : Vec α} {l : List α} (h : Holding size v l) : v.capacity < 2 ^ 63 := by
  have hbytes := h.bytes
  have hle : v.capacity * 1 ≤ v.capacity * size := Nat.mul_le_mul_left _ size.pos
  omega

theorem holding_empty : Holding size (⟨#[], 0, 0⟩ : Vec α) [] where
  cells := rfl
  len_eq := rfl
  len_le := le_rfl
  bytes := by rw [Nat.zero_mul]; exact Nat.two_pow_pos 63
  elem i hi := absurd hi (Nat.not_lt_zero i)

/-- A full vector of given elements. -/
theorem holding_full {l : List α} (h : l.length * size < 2 ^ 63) :
    Holding size ⟨(l.map some).toArray, l.length, l.length⟩ l where
  cells := by rw [List.size_toArray, List.length_map]
  len_eq := rfl
  len_le := le_rfl
  bytes := h
  elem i hi := by
    rw [List.getElem?_toArray, List.getElem?_map, List.getElem?_eq_getElem hi]
    rfl

theorem Holding.load {v : Vec α} {l : List α} (h : Holding size v l) {i : Nat}
    (hi : i < l.length) : Vec.load v.data i = .done l[i] := by
  unfold Vec.load Outcome.read
  rw [h.elem i hi, List.getElem?_eq_getElem hi]
  rfl

/-- A larger buffer holds the list too. -/
theorem Holding.grow {v : Vec α} {l : List α} (h : Holding size v l) {capacity : Nat}
    (hle : v.capacity ≤ capacity) (hbytes : capacity * size < 2 ^ 63) :
    Holding size { v with
      data := v.data ++ Array.replicate (capacity - v.data.size) none
      capacity } l where
  cells := by
    have hcells := h.cells
    simp only [Array.size_append, Array.size_replicate]
    omega
  len_eq := h.len_eq
  len_le := h.len_le.trans hle
  bytes := hbytes
  elem i hi := by
    have hcells := h.cells
    have hlen := h.len_eq
    have hroom := h.len_le
    rw [Array.getElem?_append_left (by omega)]
    exact h.elem i hi

/-- A vector with room for another element, or no memory for one. -/
theorem Holding.reserve {v : Vec α} {l : List α} (h : Holding size v l) (heap : Nat → Bool) :
    (v.reserve size heap = .aborted ∧ v.capacity ≤ v.len ∧
        malloc heap (Vec.grownCapacity v.capacity * size) = false) ∨
      ∃ v', v.reserve size heap = .done v' ∧ Holding size v' l ∧ v'.len < v'.capacity := by
  have hle := h.len_le
  have hgrown : v.capacity < Vec.grownCapacity v.capacity := by
    unfold Vec.grownCapacity
    split <;> omega
  unfold Vec.reserve
  by_cases hfull : v.capacity ≤ v.len
  · rw [if_pos hfull]
    rcases malloc_cases heap (Vec.grownCapacity v.capacity * size) with hno | ⟨hyes, hbytes⟩
    · exact Or.inl ⟨if_neg (by rw [hno]; exact Bool.false_ne_true), hfull, hno⟩
    · exact Or.inr ⟨_, if_pos hyes, h.grow (Nat.le_of_lt hgrown) hbytes, by dsimp only; omega⟩
  · rw [if_neg hfull]
    exact Or.inr ⟨v, rfl, h, by omega⟩

/-- A fresh buffer holds what is copied into it. -/
theorem allocate_ok (size : ℕ+) (heap : Nat → Bool) {src : Array (Option α)} {cells s : Nat} {l : List α}
    (hcells : l.length ≤ cells) (hsrc : ∀ i, i < l.length → src[s + i]? = some l[i]?)
    (hs : s + l.length ≤ src.size) :
    (Vec.allocate size heap cells src s l.length = .aborted ∧
        malloc heap (cells * size) = false) ∨
      ∃ v, Vec.allocate size heap cells src s l.length = .done v ∧ Holding size v l ∧
        v.capacity = cells := by
  unfold Vec.allocate
  rcases malloc_cases heap (cells * size) with hno | ⟨hyes, hbytes⟩
  · exact Or.inl ⟨if_neg (by rw [hno]; exact Bool.false_ne_true), hno⟩
  · have hd : 0 + l.length ≤ (Array.replicate cells (none : Option α)).size := by
      rw [Array.size_replicate]
      omega
    obtain ⟨a, hcopy, hsize, hget⟩ := Outcome.copy_of_le hs hd
    rw [Array.size_replicate] at hsize
    refine Or.inr ⟨⟨a, l.length, cells⟩, ?_, ⟨hsize, rfl, hcells, hbytes, ?_⟩, rfl⟩
    · rw [if_pos hyes, hcopy]
      rfl
    · intro i hi
      rw [hget, if_pos ⟨Nat.zero_le i, by omega⟩, Nat.sub_zero]
      exact hsrc i hi

/-! ## The helpers -/

/-- An element is written behind the last. -/
theorem Holding.append {v : Vec α} {l : List α} (h : Holding size v l) (hroom : v.len < v.capacity)
    (x : α) :
    Holding size ⟨v.data.setIfInBounds v.len (some x), v.len + 1, v.capacity⟩ (l ++ [x]) := by
  have hcells := h.cells
  have hlen := h.len_eq
  have hlt : v.len < v.data.size := by omega
  refine ⟨by rw [Array.size_setIfInBounds, hcells], ?_, hroom, h.bytes, ?_⟩
  · rw [List.length_append, hlen]
    rfl
  · intro i hi
    rw [List.length_append, List.length_singleton] at hi
    by_cases hne : i = v.len
    · subst hne
      rw [Array.getElem?_setIfInBounds_self_of_lt hlt, hlen, List.getElem?_append_right le_rfl,
        Nat.sub_self]
      rfl
    · rw [Array.getElem?_setIfInBounds_ne (Ne.symm hne), h.elem i (by omega),
        List.getElem?_append_left (by omega)]

theorem Holding.push {v : Vec α} {l : List α} (h : Holding size v l) (heap : Nat → Bool) (x : α) :
    (v.push size heap x = .aborted ∧ v.capacity ≤ v.len ∧
        malloc heap (Vec.grownCapacity v.capacity * size) = false) ∨
      ∃ v', v.push size heap x = .done v' ∧ Holding size v' (l ++ [x]) := by
  unfold Vec.push
  rcases h.reserve heap with ⟨hrun, hno⟩ | ⟨v', hrun, hv', hroom⟩
  · exact Or.inl ⟨by rw [hrun]; rfl, hno⟩
  · have hcells := hv'.cells
    have hlt : v'.len < v'.data.size := by omega
    refine Or.inr ⟨⟨v'.data.setIfInBounds v'.len (some x), v'.len + 1, v'.capacity⟩, ?_,
      hv'.append hroom x⟩
    rw [hrun, Outcome.done_bind, Outcome.write_of_lt hlt]
    rfl

theorem Holding.pushMut {v : Vec α} {l : List α} (h : Holding size v l) (heap : Nat → Bool)
    (x : α) :
    (v.pushMut size heap x = .aborted ∧ v.capacity ≤ v.len ∧
        malloc heap (Vec.grownCapacity v.capacity * size) = false) ∨
      ∃ v', v.pushMut size heap x = .done ((l ++ [x]).length, v') ∧
        Holding size v' (l ++ [x]) := by
  unfold Vec.pushMut
  rcases h.push heap x with ⟨hrun, hno⟩ | ⟨v', hrun, hv'⟩
  · exact Or.inl ⟨by rw [hrun]; rfl, hno⟩
  · refine Or.inr ⟨v', ?_, hv'⟩
    rw [hrun, Outcome.done_bind, toInt64_of_lt (hv'.len_le.trans_lt hv'.small), hv'.len_eq]
    rfl

/-- Fewer elements in the same buffer. -/
theorem Holding.shorten {v : Vec α} {l : List α} (h : Holding size v l) {n : Nat}
    (hn : n ≤ l.length) : Holding size { v with len := n } (l.take n) where
  cells := h.cells
  len_eq := by rw [List.length_take, min_eq_left hn]
  len_le := by
    have hle := h.len_le
    have hlen := h.len_eq
    exact (show n ≤ v.capacity by omega)
  bytes := h.bytes
  elem i hi := by
    rw [List.length_take, min_eq_left hn] at hi
    rw [List.getElem?_take_of_lt hi]
    exact h.elem i (by omega)

/-- Another element in a cell. -/
theorem Holding.store {v : Vec α} {l : List α} (h : Holding size v l) {i : Nat}
    (hi : i < l.length) (x : α) :
    Outcome.write v.data i (some x) = .done (v.data.setIfInBounds i (some x)) ∧
      Holding size { v with data := v.data.setIfInBounds i (some x) } (l.set i x) := by
  have hcells := h.cells
  have hle := h.len_le
  have hlen := h.len_eq
  refine ⟨Outcome.write_of_lt (by omega) _, ?_⟩
  refine ⟨by rw [Array.size_setIfInBounds, hcells], by rw [List.length_set, hlen], hle,
    h.bytes, ?_⟩
  intro j hj
  rw [List.length_set] at hj
  by_cases hne : i = j
  · subst hne
    rw [Array.getElem?_setIfInBounds_self_of_lt (by omega), List.getElem?_set_self hi]
  · rw [Array.getElem?_setIfInBounds_ne hne, List.getElem?_set_ne hne]
    exact h.elem j hj

theorem Holding.pop {v : Vec α} {l : List α} (h : Holding size v l) :
    (l = [] ∧ v.popMut = .aborted) ∨
      ∃ x l', l = l' ++ [x] ∧ ∃ v', v.popMut = .done (x, v') ∧ Holding size v' l' := by
  have hlen := h.len_eq
  unfold Vec.popMut
  rcases List.eq_nil_or_concat' l with rfl | ⟨l', x, rfl⟩
  · exact Or.inl ⟨rfl, if_pos hlen⟩
  · rw [List.length_append, List.length_singleton] at hlen
    have hload : Vec.load v.data (v.len - 1) = .done x := by
      rw [h.load (by rw [List.length_append, List.length_singleton]; omega)]
      simp [hlen]
    have hshort := h.shorten (n := v.len - 1) (by
      rw [List.length_append, List.length_singleton]
      omega)
    rw [hlen, Nat.add_sub_cancel, List.take_left] at hshort
    refine Or.inr ⟨x, l', rfl, _, ?_, hshort⟩
    rw [if_neg (by omega), hload, hlen, Nat.add_sub_cancel]
    rfl

/-- An index argument within the list. -/
def InRange (i : Int64) (l : List α) : Prop := 0 ≤ i.toInt ∧ i.toInt < l.length

instance (i : Int64) (l : List α) : Decidable (InRange i l) :=
  inferInstanceAs (Decidable (_ ∧ _))

/-- The position an index argument names. -/
def position (i : Int64) : Nat := i.toInt.toNat

theorem InRange.lt {i : Int64} {l : List α} (h : InRange i l) : position i < l.length := by
  obtain ⟨hnonneg, hlt⟩ := h
  unfold position
  omega

theorem Holding.index {v : Vec α} {l : List α} (h : Holding size v l) (i : Int64) :
    toUInt64 i < v.len ↔ InRange i l := by
  rw [toUInt64_lt_iff (h.len_le.trans_lt h.small).le, h.len_eq]
  rfl

theorem toUInt64_position {i : Int64} (hi : 0 ≤ i.toInt) : toUInt64 i = position i := by
  unfold position
  rcases toUInt64_cases i with ⟨-, heq⟩ | ⟨hneg, -⟩ <;> omega

theorem Holding.set {v : Vec α} {l : List α} (h : Holding size v l) (i : Int64) (x : α) :
    (¬InRange i l ∧ v.set i x = .aborted) ∨
      InRange i l ∧ ∃ v', v.set i x = .done v' ∧ Holding size v' (l.set (position i) x) := by
  unfold Vec.set
  by_cases hi : InRange i l
  · obtain ⟨hwrite, hstore⟩ := h.store hi.lt x
    refine Or.inr ⟨hi, _, ?_, hstore⟩
    rw [if_pos ((h.index i).mpr hi), toUInt64_position hi.1, hwrite]
    rfl
  · exact Or.inl ⟨hi, if_neg fun hlt => hi ((h.index i).mp hlt)⟩

/-- The element at `i` is overwritten by the last one. -/
def listSwapRemove (l : List α) (i : Nat) : List α :=
  match l.getLast? with
  | some x => (l.set i x).dropLast
  | none => []

theorem Holding.swapRemove {v : Vec α} {l : List α} (h : Holding size v l) (i : Int64) :
    (¬InRange i l ∧ v.swapRemove i = .aborted) ∨
      InRange i l ∧ ∃ x v', l[position i]? = some x ∧ v.swapRemove i = .done (x, v') ∧
        Holding size v' (listSwapRemove l (position i)) := by
  unfold Vec.swapRemove
  by_cases hi : InRange i l
  · have hlen := h.len_eq
    have hlt := hi.lt
    have hnot : ¬v.len ≤ toUInt64 i := not_le.mpr ((h.index i).mpr hi)
    have hpred : l.length - 1 < l.length := by omega
    have hlast : l.getLast? = some l[l.length - 1] := by
      rw [List.getLast?_eq_getElem?, List.getElem?_eq_getElem (by omega)]
    refine Or.inr ⟨hi, l[position i], ?_⟩
    unfold listSwapRemove
    rw [if_neg hnot, toUInt64_position hi.1, h.load hlt, Outcome.done_bind, hlast]
    simp only [List.dropLast_eq_take, List.length_set]
    by_cases hmid : position i < v.len - 1
    · obtain ⟨hwrite, hstore⟩ := h.store hlt l[l.length - 1]
      have hload : Vec.load v.data (v.len - 1) = .done l[l.length - 1] := by
        rw [← h.load, hlen]
      have hshort := hstore.shorten (n := l.length - 1) (by rw [List.length_set]; omega)
      refine ⟨_, List.getElem?_eq_getElem hlt, ?_, hshort⟩
      rw [if_pos hmid, hload, Outcome.done_bind, hwrite, hlen]
      rfl
    · have hend : position i = l.length - 1 := by omega
      have hshort := h.shorten (n := l.length - 1) (by omega)
      have hsame : (l.set (position i) l[l.length - 1]).take (l.length - 1) =
          l.take (l.length - 1) := by
        rw [hend, List.take_set_of_le le_rfl]
      refine ⟨_, List.getElem?_eq_getElem hlt, ?_, hsame ▸ hshort⟩
      rw [if_neg hmid, hlen]
      rfl
  · exact Or.inl ⟨hi, if_pos (not_lt.mp fun hlt => hi ((h.index i).mp hlt))⟩

/-- An index argument within the list or at its end. -/
def InsertRange (i : Int64) (l : List α) : Prop := 0 ≤ i.toInt ∧ i.toInt ≤ l.length

instance (i : Int64) (l : List α) : Decidable (InsertRange i l) :=
  inferInstanceAs (Decidable (_ ∧ _))

/-- The cells from a position on move up by one, and the position takes a new element. -/
theorem openCell_ok {v : Vec α} {l : List α} (h : Holding size v l) (hroom : v.len < v.capacity)
    {p : Nat} (hp : p ≤ l.length) (x : α) :
    ∃ data, v.openCell p x = .done data ∧ data.size = v.capacity ∧
      ∀ j, j < l.length + 1 → data[j]? = some (l.insertIdx p x)[j]? := by
  unfold Vec.openCell
  have hcells := h.cells
  have hlen := h.len_eq
  by_cases hmid : p < v.len
  · obtain ⟨a, hcopy, hsize, hget⟩ := Outcome.copy_of_le
      (show p + (v.len - p) ≤ v.data.size by omega)
      (show p + 1 + (v.len - p) ≤ v.data.size by omega)
    have hlt : p < a.size := by omega
    refine ⟨a.setIfInBounds p (some x), ?_, by rw [Array.size_setIfInBounds, hsize, hcells], ?_⟩
    · rw [if_pos hmid, hcopy, Outcome.done_bind, Outcome.write_of_lt hlt]
    · intro j hj
      rw [List.getElem?_insertIdx]
      rcases Nat.lt_trichotomy j p with hjp | rfl | hjp
      · rw [Array.getElem?_setIfInBounds_ne (by omega), hget, if_neg (by omega), if_pos hjp]
        exact h.elem j (by omega)
      · rw [Array.getElem?_setIfInBounds_self_of_lt hlt, if_neg (Nat.lt_irrefl j), if_pos rfl,
          if_pos hp]
      · rw [Array.getElem?_setIfInBounds_ne (by omega), hget, if_pos (by omega),
          if_neg (by omega), if_neg (by omega),
          show p + (j - (p + 1)) = j - 1 by omega]
        exact h.elem (j - 1) (by omega)
  · have hend : p = l.length := by omega
    have hlt : p < v.data.size := by omega
    refine ⟨v.data.setIfInBounds p (some x), ?_, by rw [Array.size_setIfInBounds, hcells], ?_⟩
    · rw [if_neg hmid, Outcome.write_of_lt hlt]
    · intro j hj
      rw [List.getElem?_insertIdx]
      rcases Nat.lt_trichotomy j p with hjp | rfl | hjp
      · rw [Array.getElem?_setIfInBounds_ne (by omega), if_pos hjp]
        exact h.elem j (by omega)
      · rw [Array.getElem?_setIfInBounds_self_of_lt hlt, if_neg (Nat.lt_irrefl j), if_pos rfl,
          if_pos hp]
      · omega

theorem Holding.insert {v : Vec α} {l : List α} (h : Holding size v l) (heap : Nat → Bool)
    (i : Int64) (x : α) :
    (¬InsertRange i l ∧ v.insert size heap i x = .aborted) ∨
      InsertRange i l ∧
        ((v.insert size heap i x = .aborted ∧ v.capacity ≤ v.len ∧
            malloc heap (Vec.grownCapacity v.capacity * size) = false) ∨
          ∃ v', v.insert size heap i x = .done ((l.insertIdx (position i) x).length, v') ∧
            Holding size v' (l.insertIdx (position i) x)) := by
  have hrange : toUInt64 i < v.len + 1 ↔ InsertRange i l := by
    rw [toUInt64_lt_iff (h.len_le.trans_lt h.small), h.len_eq]
    exact and_congr_right fun _ => by omega
  unfold Vec.insert
  by_cases hi : InsertRange i l
  · have hp : position i ≤ l.length := by
      obtain ⟨hnonneg, hle⟩ := hi
      unfold position
      omega
    have hnot : ¬v.len < toUInt64 i := by
      have := hrange.mpr hi
      omega
    refine Or.inr ⟨hi, ?_⟩
    rw [if_neg hnot, toUInt64_position hi.1]
    rcases h.reserve heap with ⟨hrun, hno⟩ | ⟨v', hrun, hv', hroom⟩
    · exact Or.inl ⟨by rw [hrun]; rfl, hno⟩
    · obtain ⟨data, hdata, hsize, hget⟩ := openCell_ok hv' hroom hp x
      have hlength : (l.insertIdx (position i) x).length = l.length + 1 :=
        List.length_insertIdx_of_le_length hp x
      refine Or.inr ⟨⟨data, v'.len + 1, v'.capacity⟩, ?_, hsize, ?_, hroom, hv'.bytes, ?_⟩
      · have hsmall := hv'.small
        rw [hrun, Outcome.done_bind, hdata, Outcome.done_bind, toInt64_of_lt (by omega), hlength,
          hv'.len_eq]
        rfl
      · rw [hlength, hv'.len_eq]
      · intro j hj
        rw [hlength] at hj
        exact hget j hj
  · refine Or.inl ⟨hi, if_pos ?_⟩
    have := mt hrange.mp hi
    omega

theorem Holding.clear {v : Vec α} {l : List α} (h : Holding size v l) :
    Holding size v.clear.2 [] :=
  h.shorten (Nat.zero_le _)

/-! ## Fresh vectors -/

theorem fromArray_ok (heap : Nat → Bool) (init : List α) :
    (Vec.fromArray size heap init = .aborted ∧
        malloc heap (max 1 init.length * size) = false) ∨
      ∃ v, Vec.fromArray size heap init = .done v ∧ Holding size v init := by
  have hsrc : ∀ i, i < init.length → (init.map some).toArray[0 + i]? = some init[i]? := by
    intro i hi
    rw [Nat.zero_add, List.getElem?_toArray, List.getElem?_map, List.getElem?_eq_getElem hi]
    rfl
  rcases allocate_ok size heap (le_max_right 1 init.length) hsrc
    (by rw [List.size_toArray, List.length_map, Nat.zero_add]) with hno | ⟨v, hrun, hv, -⟩
  · exact Or.inl hno
  · exact Or.inr ⟨v, hrun, hv⟩

/-- A fresh vector of a part of another. -/
theorem Holding.slice {v : Vec α} {l : List α} (h : Holding size v l) (heap : Nat → Bool)
    {s n cells : Nat} (hsn : s + n ≤ l.length) (hcells : n ≤ cells) :
    (Vec.allocate size heap cells v.data s n = .aborted ∧
        malloc heap (cells * size) = false) ∨
      ∃ w, Vec.allocate size heap cells v.data s n = .done w ∧
        Holding size w ((l.drop s).take n) ∧ w.capacity = cells := by
  have hlen : ((l.drop s).take n).length = n := by
    rw [List.length_take, List.length_drop]
    omega
  have hsrc : ∀ i, i < ((l.drop s).take n).length →
      v.data[s + i]? = some ((l.drop s).take n)[i]? := by
    intro i hi
    rw [hlen] at hi
    rw [List.getElem?_take_of_lt hi, List.getElem?_drop]
    exact h.elem (s + i) (by omega)
  have hle := h.len_le
  have hsize := h.cells
  have hl := h.len_eq
  have key := allocate_ok size heap (hlen.le.trans hcells) hsrc
    (by rw [hlen]; omega)
  rw [hlen] at key
  exact key

theorem Holding.clone {v : Vec α} {l : List α} (h : Holding size v l) (heap : Nat → Bool) :
    (v.clone size heap = .aborted ∧ malloc heap (max 1 v.len * size) = false) ∨
      ∃ w, v.clone size heap = .done w ∧ Holding size w l := by
  have hl := h.len_eq
  rcases h.slice heap (s := 0) (n := v.len) (by omega) (le_max_right 1 v.len) with
    hno | ⟨w, hrun, hw, -⟩
  · exact Or.inl hno
  · rw [List.drop_zero, hl, List.take_length] at hw
    exact Or.inr ⟨w, hrun, hw⟩

theorem clamp_eq {v : Vec α} {l : List α} (h : Holding size v l) (n : Int64) :
    Vec.clamp v.len n = min (position n) l.length := by
  rw [Vec.clamp, h.len_eq, position]

theorem Holding.take {v : Vec α} {l : List α} (h : Holding size v l) (heap : Nat → Bool)
    (n : Int64) :
    (v.take size heap n = .aborted ∧ malloc heap (Vec.clamp v.len n * size) = false) ∨
      ∃ w, v.take size heap n = .done w ∧ Holding size w (l.take (position n)) := by
  have hclamp := clamp_eq h n
  have htake : l.take (position n) = (l.drop 0).take (Vec.clamp v.len n) := by
    rw [hclamp, List.drop_zero, ← List.take_eq_take_min]
  unfold Vec.take
  by_cases hzero : Vec.clamp v.len n = 0
  · rw [if_pos hzero, htake, hzero, List.take_zero]
    exact Or.inr ⟨_, rfl, holding_empty⟩
  · rw [if_neg hzero, htake]
    rcases h.slice heap (s := 0) (n := Vec.clamp v.len n) (by omega) le_rfl with
      hno | ⟨w, hrun, hw, -⟩
    · exact Or.inl hno
    · exact Or.inr ⟨w, hrun, hw⟩

theorem Holding.drop {v : Vec α} {l : List α} (h : Holding size v l) (heap : Nat → Bool)
    (n : Int64) :
    (v.drop size heap n = .aborted ∧
        malloc heap ((v.len - Vec.clamp v.len n) * size) = false) ∨
      ∃ w, v.drop size heap n = .done w ∧ Holding size w (l.drop (position n)) := by
  have hclamp := clamp_eq h n
  have hl := h.len_eq
  have hdrop : l.drop (position n) =
      (l.drop (Vec.clamp v.len n)).take (v.len - Vec.clamp v.len n) := by
    rw [hclamp, hl, List.take_of_length_le (by rw [List.length_drop]), ← List.drop_eq_drop_min]
  unfold Vec.drop
  by_cases hzero : v.len - Vec.clamp v.len n = 0
  · rw [if_pos hzero, hdrop, hzero, List.take_zero]
    exact Or.inr ⟨_, rfl, holding_empty⟩
  · rw [if_neg hzero, hdrop]
    rcases h.slice heap (s := Vec.clamp v.len n) (n := v.len - Vec.clamp v.len n) (by omega)
      le_rfl with hno | ⟨w, hrun, hw, -⟩
    · exact Or.inl hno
    · exact Or.inr ⟨w, hrun, hw⟩

theorem Holding.chain {v w : Vec α} {l m : List α} (h : Holding size v l) (h' : Holding size w m)
    (heap : Nat → Bool) :
    (v.chain size heap w = .aborted ∧ malloc heap ((v.len + w.len) * size) = false) ∨
      ∃ u, v.chain size heap w = .done u ∧ Holding size u (l ++ m) := by
  have hl := h.len_eq
  have hm := h'.len_eq
  unfold Vec.chain
  by_cases hzero : v.len + w.len = 0
  · have hnil : l ++ m = [] := by
      rw [← List.length_eq_zero_iff, List.length_append]
      omega
    rw [if_pos hzero, hnil]
    exact Or.inr ⟨_, rfl, holding_empty⟩
  · rw [if_neg hzero]
    rcases h.slice heap (s := 0) (n := v.len) (by omega) (Nat.le_add_right v.len w.len) with
      ⟨hrun, hno⟩ | ⟨u, hrun, hu, hcap⟩
    · exact Or.inl ⟨by rw [hrun]; rfl, hno⟩
    · rw [List.drop_zero, hl, List.take_length] at hu
      have hucells := hu.cells
      have hwcells := h'.cells
      have hwle := h'.len_le
      obtain ⟨a, hcopy, hsize, hget⟩ := Outcome.copy_of_le
        (show 0 + w.len ≤ w.data.size by omega) (show v.len + w.len ≤ u.data.size by omega)
      refine Or.inr ⟨⟨a, v.len + w.len, u.capacity⟩, ?_, ?_⟩
      · rw [hrun, Outcome.done_bind, hcopy]
        rfl
      · refine ⟨by rw [hsize, hucells], by rw [List.length_append, hl, hm], hcap.ge, hu.bytes, ?_⟩
        intro i hi
        rw [List.length_append] at hi
        rw [hget]
        by_cases hlow : i < l.length
        · rw [if_neg (by omega), List.getElem?_append_left hlow]
          exact hu.elem i hlow
        · rw [if_pos (by omega), List.getElem?_append_right (by omega), Nat.zero_add, hl]
          exact h'.elem (i - l.length) (by omega)

/-! ## The unchecked helpers -/

theorem Holding.loadAt {v : Vec α} {l : List α} (h : Holding size v l) {i : Int64}
    (hi : InRange i l) : Vec.loadAt v.data i = .done (l.get ⟨position i, hi.lt⟩) := by
  unfold Vec.loadAt
  rw [if_pos hi.1]
  exact h.load hi.lt

theorem Holding.storeAt {v : Vec α} {l : List α} (h : Holding size v l) {i : Int64}
    (hi : InRange i l) (x : α) :
    ∃ data, Vec.storeAt v.data i x = .done data ∧
      Holding size { v with data } (l.set (position i) x) := by
  obtain ⟨hwrite, hstore⟩ := h.store hi.lt x
  refine ⟨_, ?_, hstore⟩
  unfold Vec.storeAt
  rw [if_pos hi.1]
  exact hwrite

/-- Two elements change places. -/
def listSwap (l : List α) (i j : Nat) : List α :=
  match l[i]?, l[j]? with
  | some x, some y => (l.set i y).set j x
  | _, _ => l

theorem Holding.swap {v : Vec α} {l : List α} (h : Holding size v l) {i j : Int64}
    (hi : InRange i l) (hj : InRange j l) :
    ∃ v', v.swap i j = .done (0, v') ∧
      Holding size v' (listSwap l (position i) (position j)) := by
  obtain ⟨data, hstore, hv'⟩ := h.storeAt hi (l.get ⟨position j, hj.lt⟩)
  have hj' : InRange j (l.set (position i) (l.get ⟨position j, hj.lt⟩)) := by
    unfold InRange
    rw [List.length_set]
    exact hj
  obtain ⟨data', hstore', hv''⟩ := hv'.storeAt hj' (l.get ⟨position i, hi.lt⟩)
  refine ⟨{ v with data := data' }, ?_, ?_⟩
  · unfold Vec.swap
    rw [h.loadAt hi, Outcome.done_bind, h.loadAt hj, Outcome.done_bind, hstore, Outcome.done_bind,
      hstore', Outcome.done_bind]
    rfl
  · unfold listSwap
    rw [List.getElem?_eq_getElem hi.lt, List.getElem?_eq_getElem hj.lt]
    exact hv''

/-- The loop of a removal moves the cells after a position down by one. -/
theorem Holding.shift {v : Vec α} {l : List α} (h : Holding size v l) {p : Nat}
    (hp : p < l.length) :
    ∃ data, Outcome.loop (Vec.shiftTurn v.len) (v.len + 1) (p, v.data) = .done data ∧
      data.size = v.capacity ∧ ∀ q, q < l.length - 1 → data[q]? = some (l.eraseIdx p)[q]? := by
  have hlen := h.len_eq
  have hsmall := h.small
  have hle := h.len_le
  -- after `j` turns the `j` cells from the position on hold their successors' elements
  refine Outcome.loop_of_invariant (d := l.length - 1 - p)
    (fun j (s : Nat × Array (Option α)) => s.1 = p + j ∧ s.2.size = v.capacity ∧
      ∀ q, q < l.length → s.2[q]? = some (if p ≤ q ∧ q < p + j then l[q + 1]? else l[q]?))
    (by omega) ⟨rfl, h.cells, ?_⟩ ?_ ?_
  · intro q hq
    rw [if_neg (by omega)]
    exact h.elem q hq
  · rintro j ⟨_, data⟩ hj ⟨rfl, hsize, hget⟩
    dsimp only at hsize hget
    have hnext : p + j + 1 < l.length := by omega
    have hload : Vec.load data (p + j + 1) = .done l[p + j + 1] := by
      unfold Vec.load Outcome.read
      rw [hget _ hnext, if_neg (by omega), List.getElem?_eq_getElem hnext]
      rfl
    refine ⟨(p + j + 1, data.setIfInBounds (p + j) (some l[p + j + 1])), ?_, rfl, ?_, ?_⟩
    · unfold Vec.shiftTurn
      dsimp only
      rw [Nat.mod_eq_of_lt (by omega), if_pos (by omega), hload, Outcome.done_bind,
        Outcome.write_of_lt (by omega)]
      rfl
    · rw [Array.size_setIfInBounds, hsize]
    · intro q hq
      by_cases hne : p + j = q
      · subst hne
        rw [Array.getElem?_setIfInBounds_self_of_lt (by omega), if_pos (by omega),
          List.getElem?_eq_getElem hnext]
      · rw [Array.getElem?_setIfInBounds_ne hne, hget q hq]
        by_cases hin : p ≤ q ∧ q < p + j
        · rw [if_pos hin, if_pos (by omega)]
        · rw [if_neg hin, if_neg (by omega)]
  · rintro ⟨_, data⟩ ⟨rfl, hsize, hget⟩
    dsimp only at hsize hget
    refine ⟨data, ?_, hsize, ?_⟩
    · unfold Vec.shiftTurn
      dsimp only
      rw [Nat.mod_eq_of_lt (by omega), if_neg (by omega)]
      rfl
    · intro q hq
      rw [hget q (by omega), List.getElem?_eraseIdx]
      by_cases hlow : q < p
      · rw [if_neg (by omega), if_pos hlow]
      · rw [if_pos (by omega), if_neg hlow]

theorem Holding.removeAt {v : Vec α} {l : List α} (h : Holding size v l) {i : Int64}
    (hi : InRange i l) :
    ∃ x v', l[position i]? = some x ∧ v.removeAt i = .done (x, v') ∧
      Holding size v' (l.eraseIdx (position i)) := by
  have hlen := h.len_eq
  have hlt := hi.lt
  have hsmall := h.small
  have hle := h.len_le
  obtain ⟨data, hloop, hsize, hget⟩ := h.shift hlt
  have hmod : (v.len + 2 ^ 64 - 1) % 2 ^ 64 = l.length - 1 := by omega
  have hlength : (l.eraseIdx (position i)).length = l.length - 1 :=
    List.length_eraseIdx_of_lt hlt
  refine ⟨_, ⟨data, l.length - 1, v.capacity⟩, List.getElem?_eq_getElem hlt, ?_, hsize, ?_, ?_,
    h.bytes, ?_⟩
  · unfold Vec.removeAt
    rw [h.loadAt hi, Outcome.done_bind, toUInt64_position hi.1, hloop, Outcome.done_bind, hmod]
    rfl
  · rw [hlength]
  · exact (show l.length - 1 ≤ v.capacity by omega)
  · intro q hq
    rw [hlength] at hq
    exact hget q hq

/-! ## Sequences of operations -/

/-- The operations on lists; `none` where an index is out of range. -/
def listSpec (S : Nat → List α) :
    VecOp α × (Nat → Bool) → Option (VecResult α × (Nat → List α))
  | (.fromArray dst init, _) => some (.unit, Function.update S dst init)
  | (.push v x, _) => some (.unit, Function.update S v (S v ++ [x]))
  | (.pushMut v x, _) => some (.int (S v ++ [x]).length, Function.update S v (S v ++ [x]))
  | (.pop v, _) =>
    match (S v).getLast? with
    | some x => some (.element x, Function.update S v (S v).dropLast)
    | none => none
  | (.set v i x, _) =>
    if InRange i (S v) then some (.unit, Function.update S v ((S v).set (position i) x)) else none
  | (.insert v i x, _) =>
    if InsertRange i (S v) then
      some (.int ((S v).insertIdx (position i) x).length,
        Function.update S v ((S v).insertIdx (position i) x))
    else none
  | (.swapRemove v i, _) =>
    if InRange i (S v) then
      (S v)[position i]?.map fun x =>
        (.element x, Function.update S v (listSwapRemove (S v) (position i)))
    else none
  | (.removeAt v i, _) =>
    if InRange i (S v) then
      (S v)[position i]?.map fun x =>
        (.element x, Function.update S v ((S v).eraseIdx (position i)))
    else none
  | (.swap v i j, _) =>
    if InRange i (S v) ∧ InRange j (S v) then
      some (.int 0, Function.update S v (listSwap (S v) (position i) (position j)))
    else none
  | (.clear v, _) => some (.int 0, Function.update S v [])
  | (.clone dst v, _) => some (.unit, Function.update S dst (S v))
  | (.take dst v n, _) => some (.unit, Function.update S dst ((S v).take (position n)))
  | (.drop dst v n, _) => some (.unit, Function.update S dst ((S v).drop (position n)))
  | (.chain dst v w, _) => some (.unit, Function.update S dst (S v ++ S w))

/-- Every vector of the store holds its list. -/
def Stands (size : ℕ+) (s : VecStore α) (S : Nat → List α) : Prop :=
  ∀ v, Holding size (s v) (S v)

theorem Stands.update {s : VecStore α} {S : Nat → List α} (h : Stands size s S) {v : Vec α}
    {l : List α} (hv : Holding size v l) (dst : Nat) :
    Stands size (Function.update s dst v) (Function.update S dst l) := by
  intro w
  by_cases hw : w = dst
  · subst hw
    rw [Function.update_self, Function.update_self]
    exact hv
  · rw [Function.update_of_ne hw, Function.update_of_ne hw]
    exact h w

/-- The indices of the unchecked helpers are in range. -/
def IndicesOk (S : Nat → List α) : VecOp α × (Nat → Bool) → Prop
  | (.swap v i j, _) => InRange i (S v) ∧ InRange j (S v)
  | (.removeAt v i, _) => InRange i (S v)
  | _ => True

/-- What an operation that binds one vector gives for the store. -/
theorem step_vec {s : VecStore α} {S : Nat → List α} {i : VecOp α × (Nat → Bool)}
    (h : Stands size s S) {v : Vec α} {l : List α} {d : Nat} {r : VecResult α}
    (hstep : s.step size i = .done (r, Function.update s d v))
    (hspec : listSpec S i = some (r, Function.update S d l)) (hv : Holding size v l) :
    StepRefines (VecStore.step size) listSpec (VecStore.refused size) (Stands size) s S i :=
  stepRefines_done hstep hspec (h.update hv d)

/-- Every operation does to the vectors what it does to the lists, if the indices of the
unchecked helpers are in range. -/
theorem step_vecs (s : VecStore α) (S : Nat → List α) (i : VecOp α × (Nat → Bool))
    (h : Stands size s S) (hok : IndicesOk S i) :
    StepRefines (VecStore.step size) listSpec (VecStore.refused size) (Stands size) s S i := by
  obtain ⟨op, heap⟩ := i
  cases op with
  | fromArray dst init =>
    rcases fromArray_ok heap init with ⟨hrun, hno⟩ | ⟨v, hrun, hv⟩
    · exact stepRefines_refused (by simp only [VecStore.step, hrun, Outcome.aborted_bind])
        ⟨_, rfl, hno⟩
    · exact step_vec h (by simp only [VecStore.step, hrun, Outcome.done_bind, Outcome.pure_eq])
        rfl hv
  | push v x =>
    rcases (h v).push heap x with ⟨hrun, hfull, hno⟩ | ⟨w, hrun, hw⟩
    · exact stepRefines_refused (by simp only [VecStore.step, hrun, Outcome.aborted_bind])
        ⟨_, if_pos hfull, hno⟩
    · exact step_vec h (by simp only [VecStore.step, hrun, Outcome.done_bind, Outcome.pure_eq])
        rfl hw
  | pushMut v x =>
    rcases (h v).pushMut heap x with ⟨hrun, hfull, hno⟩ | ⟨w, hrun, hw⟩
    · exact stepRefines_refused (by simp only [VecStore.step, hrun, Outcome.aborted_bind])
        ⟨_, if_pos hfull, hno⟩
    · exact step_vec h (by simp only [VecStore.step, hrun, Outcome.done_bind, Outcome.pure_eq])
        rfl hw
  | pop v =>
    rcases (h v).pop with ⟨hnil, hrun⟩ | ⟨x, l', hl, w, hrun, hw⟩
    · exact stepRefines_aborted (by simp only [VecStore.step, hrun, Outcome.aborted_bind])
        (by simp only [listSpec, hnil, List.getLast?_nil])
    · refine step_vec (r := .element x) (d := v) h
        (by simp only [VecStore.step, hrun, Outcome.done_bind, Outcome.pure_eq]) ?_ hw
      simp only [listSpec, hl, List.getLast?_concat, List.dropLast_concat]
  | set v i x =>
    rcases (h v).set i x with ⟨hout, hrun⟩ | ⟨hin, w, hrun, hw⟩
    · exact stepRefines_aborted (by simp only [VecStore.step, hrun, Outcome.aborted_bind])
        (if_neg hout)
    · exact step_vec h (by simp only [VecStore.step, hrun, Outcome.done_bind, Outcome.pure_eq])
        (if_pos hin) hw
  | insert v i x =>
    rcases (h v).insert heap i x with ⟨hout, hrun⟩ | ⟨hin, ⟨hrun, hfull, hno⟩ | ⟨w, hrun, hw⟩⟩
    · exact stepRefines_aborted (by simp only [VecStore.step, hrun, Outcome.aborted_bind])
        (if_neg hout)
    · exact stepRefines_refused (by simp only [VecStore.step, hrun, Outcome.aborted_bind])
        ⟨_, if_pos hfull, hno⟩
    · exact step_vec h (by simp only [VecStore.step, hrun, Outcome.done_bind, Outcome.pure_eq])
        (if_pos hin) hw
  | swapRemove v i =>
    rcases (h v).swapRemove i with ⟨hout, hrun⟩ | ⟨hin, x, w, hx, hrun, hw⟩
    · exact stepRefines_aborted (by simp only [VecStore.step, hrun, Outcome.aborted_bind])
        (if_neg hout)
    · refine step_vec (r := .element x) (d := v) h
        (by simp only [VecStore.step, hrun, Outcome.done_bind, Outcome.pure_eq]) ?_ hw
      simp only [listSpec, if_pos hin, hx, Option.map_some]
  | removeAt v i =>
    obtain ⟨x, w, hx, hrun, hw⟩ := (h v).removeAt hok
    refine step_vec (r := .element x) (d := v) h
      (by simp only [VecStore.step, hrun, Outcome.done_bind, Outcome.pure_eq]) ?_ hw
    have hin : InRange i (S v) := hok
    simp only [listSpec, if_pos hin, hx, Option.map_some]
  | swap v i j =>
    obtain ⟨w, hrun, hw⟩ := (h v).swap hok.1 hok.2
    exact step_vec h (by simp only [VecStore.step, hrun, Outcome.done_bind, Outcome.pure_eq])
      (if_pos hok) hw
  | clear v => exact step_vec h rfl rfl (h v).clear
  | clone dst v =>
    rcases (h v).clone heap with ⟨hrun, hno⟩ | ⟨w, hrun, hw⟩
    · exact stepRefines_refused (by simp only [VecStore.step, hrun, Outcome.aborted_bind])
        ⟨_, rfl, hno⟩
    · exact step_vec h (by simp only [VecStore.step, hrun, Outcome.done_bind, Outcome.pure_eq])
        rfl hw
  | take dst v n =>
    rcases (h v).take heap n with ⟨hrun, hno⟩ | ⟨w, hrun, hw⟩
    · exact stepRefines_refused (by simp only [VecStore.step, hrun, Outcome.aborted_bind])
        ⟨_, rfl, hno⟩
    · exact step_vec h (by simp only [VecStore.step, hrun, Outcome.done_bind, Outcome.pure_eq])
        rfl hw
  | drop dst v n =>
    rcases (h v).drop heap n with ⟨hrun, hno⟩ | ⟨w, hrun, hw⟩
    · exact stepRefines_refused (by simp only [VecStore.step, hrun, Outcome.aborted_bind])
        ⟨_, rfl, hno⟩
    · exact step_vec h (by simp only [VecStore.step, hrun, Outcome.done_bind, Outcome.pure_eq])
        rfl hw
  | chain dst v w =>
    rcases (h v).chain (h w) heap with ⟨hrun, hno⟩ | ⟨u, hrun, hu⟩
    · exact stepRefines_refused (by simp only [VecStore.step, hrun, Outcome.aborted_bind])
        ⟨_, rfl, hno⟩
    · exact step_vec h (by simp only [VecStore.step, hrun, Outcome.done_bind, Outcome.pure_eq])
        rfl hu

/-- Vectors without buffers. -/
def noVectors : VecStore α := fun _ => ⟨#[], 0, 0⟩

/-- **The emitted vectors refine lists** over every sequence of operations in which the
unchecked swap and removal get indices in range: every operation returns what the list
operation returns or aborts with it, no cell outside a buffer is touched, and `len` never
exceeds `capacity`. Source: backend_c.rs:5672-5832, 6161-6191, 9812-9828 -/
theorem vec_refines (size : ℕ+) (ops : List (VecOp α × (Nat → Bool)))
    (hindices : RunMeets listSpec IndicesOk ops fun _ => []) :
    RunRefines (VecStore.step size) listSpec (VecStore.refused size) ops noVectors
        (fun _ => []) ∧
      RunKeeps (VecStore.step size)
        (fun s => ∀ v, (s v).len ≤ (s v).capacity ∧ (s v).data.size = (s v).capacity)
        ops noVectors :=
  runRefines_of_meets step_vecs (fun _ _ h v => ⟨(h v).len_le, (h v).cells⟩) ops
    (fun _ => holding_empty) hindices

/-- Three elements, the outer two exchanged. -/
def exchange : List (VecOp Nat × (Nat → Bool)) :=
  [(.fromArray 0 [10, 20, 30], fun _ => true), (.swap 0 0 2, fun _ => true)]

theorem vec_refines_exchange :
    RunRefines (VecStore.step 8) listSpec (VecStore.refused 8) exchange noVectors
        (fun _ => []) ∧
      RunKeeps (VecStore.step 8)
        (fun s => ∀ v, (s v).len ≤ (s v).capacity ∧ (s v).data.size = (s v).capacity)
        exchange noVectors := by
  refine vec_refines 8 exchange ⟨trivial, ?_⟩
  rintro r S ⟨⟩
  refine ⟨⟨by decide, by decide⟩, ?_⟩
  intro r S _
  trivial

/-- An index past the end of two elements: the exchange does not abort. -/
def exchangePastEnd : List (VecOp Nat × (Nat → Bool)) :=
  [(.fromArray 0 [10, 20], fun _ => true), (.swap 0 0 5, fun _ => true)]

theorem exchangePastEnd_refutes :
    ¬∀ ops : List (VecOp Nat × (Nat → Bool)),
      RunRefines (VecStore.step 8) listSpec (VecStore.refused 8) ops noVectors (fun _ => []) := by
  intro h
  -- the first operation succeeds on both sides; the second is stuck where the list aborts
  exact (h exchangePastEnd).2

end Vani.Analysis
