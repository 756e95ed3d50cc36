import Vani.Backend.BTree
import Vani.Library.SortedList
import Vani.Analysis.VecRefines

/-!
# Sorted arrays

What the shared parts of the sorted set and map do on arrays that hold an increasing list:
the binary search comes to the place of the key, a cell is opened and closed there, and a
range query appends what stands at the keys between its bounds.
-/

set_option autoImplicit false

namespace Vani.Analysis

open Vani.Library Vani.Backend

variable {v : Vec Int64} {l : List Int64}

theorem Holding.load_some {α : Type} {size : ℕ+} {v : Vec α} {l : List α} (h : Holding size v l)
    {i : Nat} {x : α} (hx : l[i]? = some x) : Vec.load v.data i = .done x := by
  obtain ⟨hi, rfl⟩ := List.getElem?_eq_some_iff.mp hx
  exact h.load hi

/-- The search comes to the place of the key. -/
theorem lowerBound_ok (h : Holding 8 v l) (hl : Increasing l) (k : Int64) :
    ∃ i, BTree.lowerBound v.data v.len k = .done i ∧ Place l k i := by
  refine Outcome.loop_of_measure (fun s : Nat × Nat => Window l k s.1 s.2) (fun s => s.2 - s.1)
    (Nat.lt_succ_of_le (Nat.sub_le _ _)) ?_ ?_
  · rw [h.len_eq]
    exact Window.whole l k
  · rintro ⟨lo, hi⟩ hw
    dsimp only at hw ⊢
    by_cases hlt : lo < hi
    · have hfits := hw.fits
      have hx : l[lo + (hi - lo) / 2]? = some l[lo + (hi - lo) / 2] :=
        List.getElem?_eq_getElem (by omega)
      by_cases hxk : l[lo + (hi - lo) / 2] < k
      · refine Or.inl ⟨(lo + (hi - lo) / 2 + 1, hi), ?_, hw.upper hl (by omega) hx hxk, ?_⟩
        · simp only [BTree.boundTurn, if_pos hlt, h.load_some hx, Outcome.done_bind,
            Outcome.pure_eq, if_pos hxk]
        · dsimp only
          omega
      · refine Or.inl ⟨(lo, lo + (hi - lo) / 2), ?_,
          hw.lower hl (by omega) (by omega) hx (not_lt.mp hxk), ?_⟩
        · simp only [BTree.boundTurn, if_pos hlt, h.load_some hx, Outcome.done_bind,
            Outcome.pure_eq, if_neg hxk]
        · dsimp only
          omega
    · have hle := hw.le
      obtain rfl : lo = hi := by omega
      exact Or.inr ⟨lo, if_neg hlt, hw.place⟩

/-- The key is found if it is in the list. -/
theorem found_ok (h : Holding 8 v l) (hl : Increasing l) {k : Int64} {i : Nat}
    (hi : Place l k i) : BTree.found v.data v.len i k = .done (decide (k ∈ l)) := by
  unfold BTree.found
  rw [h.len_eq]
  by_cases hlt : i < l.length
  · have hx := List.getElem?_eq_getElem hlt
    rw [if_pos hlt, h.load_some hx, Outcome.done_bind]
    refine congrArg Outcome.done ?_
    rw [Bool.eq_iff_iff, beq_iff_eq, decide_eq_true_iff, hi.mem_iff hl, hx, Option.some_inj]
  · have hnot : k ∉ l := by
      rw [hi.mem_iff hl, List.getElem?_eq_none (by omega)]
      nofun
    rw [if_neg hlt, decide_eq_false hnot]
    rfl

theorem lt_grownCapacity {first : Nat} (hfirst : 0 < first) (n : Nat) :
    n < BTree.grownCapacity first n := by
  unfold BTree.grownCapacity
  split <;> omega

theorem extend_size {data : Array (Option Int64)} {n : Nat} (h : data.size ≤ n) :
    (BTree.extend data n).size = n := by
  unfold BTree.extend
  rw [Array.size_append, Array.size_replicate]
  omega

/-- A larger array holds the same list. -/
theorem Holding.extend (h : Holding 8 v l) {n : Nat} (hn : v.capacity ≤ n)
    (hbytes : n * 8 < 2 ^ 63) : Holding 8 ⟨BTree.extend v.data n, v.len, n⟩ l where
  cells := extend_size (h.cells ▸ hn)
  len_eq := h.len_eq
  len_le := h.len_le.trans hn
  bytes := hbytes
  elem i hi := by
    have hcells := h.cells
    have hle := h.len_le
    have hlen := h.len_eq
    unfold BTree.extend
    rw [Array.getElem?_append_left (by omega)]
    exact h.elem i hi

/-- An array with room for another element, or no memory for one. -/
theorem Holding.reserveCell {first : Nat} (hfirst : 0 < first) (h : Holding 8 v l)
    (heap : Nat → Bool) :
    (BTree.reserve first heap v = .aborted ∧ v.capacity ≤ v.len ∧
        malloc heap (BTree.grownCapacity first v.capacity * 8) = false) ∨
      ∃ v', BTree.reserve first heap v = .done v' ∧ Holding 8 v' l ∧ v'.len < v'.capacity ∧
        (v'.capacity = v.capacity ∨ v'.capacity = BTree.grownCapacity first v.capacity) := by
  unfold BTree.reserve
  by_cases hfull : v.capacity ≤ v.len
  · rw [if_pos hfull]
    have hgrown := lt_grownCapacity hfirst v.capacity
    rcases malloc_cases heap (BTree.grownCapacity first v.capacity * 8) with hno | ⟨hyes, hbytes⟩
    · exact Or.inl ⟨if_neg (by rw [hno]; exact Bool.false_ne_true), hfull, hno⟩
    · exact Or.inr ⟨_, if_pos hyes, h.extend hgrown.le hbytes, h.len_le.trans_lt hgrown, Or.inr rfl⟩
  · rw [if_neg hfull]
    exact Or.inr ⟨v, rfl, h, Nat.not_le.mp hfull, Or.inl rfl⟩

/-- A cell is opened and takes an element. -/
theorem Holding.openCell (h : Holding 8 v l) (hroom : v.len < v.capacity) {p : Nat}
    (hp : p ≤ l.length) (x : Int64) :
    ∃ data, v.openCell p x = .done data ∧
      Holding 8 ⟨data, v.len + 1, v.capacity⟩ (l.insertIdx p x) := by
  obtain ⟨data, hrun, hsize, helem⟩ := openCell_ok h hroom hp x
  have hlength : (l.insertIdx p x).length = l.length + 1 := List.length_insertIdx_of_le_length hp x
  refine ⟨data, hrun, hsize, ?_, hroom, h.bytes, fun i hi => helem i ?_⟩
  · rw [hlength, h.len_eq]
  · rwa [hlength] at hi

/-- A cell is closed, and its element goes. -/
theorem Holding.closeCell (h : Holding 8 v l) {p : Nat} (hp : p < l.length) :
    ∃ data, BTree.closeCell v p = .done data ∧
      Holding 8 ⟨data, v.len - 1, v.capacity⟩ (l.eraseIdx p) := by
  have hcells := h.cells
  have hlen := h.len_eq
  have hle := h.len_le
  have hlength : (l.eraseIdx p).length = l.length - 1 := List.length_eraseIdx_of_lt hp
  unfold BTree.closeCell
  by_cases hmid : p + 1 < v.len
  · obtain ⟨a, hcopy, hsize, hget⟩ := Outcome.copy_of_le
      (show p + 1 + (v.len - p - 1) ≤ v.data.size by omega)
      (show p + (v.len - p - 1) ≤ v.data.size by omega)
    refine ⟨a, by rw [if_pos hmid, hcopy], by rw [hsize, hcells], by rw [hlength, hlen],
      (Nat.sub_le _ _).trans hle, h.bytes, fun i hi => ?_⟩
    rw [hlength] at hi
    rw [hget, List.getElem?_eraseIdx]
    by_cases hlow : i < p
    · rw [if_neg (by omega), if_pos hlow]
      exact h.elem i (by omega)
    · rw [if_pos (by omega), if_neg hlow, show p + 1 + (i - p) = i + 1 by omega]
      exact h.elem (i + 1) (by omega)
  · refine ⟨v.data, if_neg hmid, hcells, by rw [hlength, hlen], (Nat.sub_le _ _).trans hle,
      h.bytes, fun i hi => ?_⟩
    rw [hlength] at hi
    rw [List.getElem?_eraseIdx, if_pos (by omega)]
    exact h.elem i (by omega)

/-- What a program finds in a vector is the list it holds. -/
theorem Holding.contents (h : Holding 8 v l) : BTree.contents v = l.map some := by
  have hcells := h.cells
  have hlen := h.len_eq
  have hle := h.len_le
  refine List.ext_getElem? fun i => ?_
  unfold BTree.contents
  rw [List.getElem?_map]
  by_cases hi : i < l.length
  · rw [List.getElem?_take_of_lt (by omega), Array.getElem?_toList, h.elem i hi,
      List.getElem?_eq_getElem hi]
    rfl
  · rw [List.getElem?_eq_none (by rw [List.length_take]; omega), List.getElem?_eq_none (by omega)]
    rfl

/-- An element of a word is pushed. -/
theorem Holding.pushWord (h : Holding 8 v l) (heap : Nat → Bool) (x : Int64) :
    (v.push 8 heap x = .aborted ∧ BTree.vecRefused heap v) ∨
      ∃ v', v.push 8 heap x = .done v' ∧ Holding 8 v' (l ++ [x]) :=
  h.push heap x

/-- A vector without elements is made. -/
theorem emptyVec_ok (heap : Nat → Bool) :
    (Vec.fromArray 8 heap ([] : List Int64) = .aborted ∧ malloc heap (1 * 8) = false) ∨
      ∃ v, Vec.fromArray 8 heap ([] : List Int64) = .done v ∧ Holding 8 v [] :=
  @fromArray_ok Int64 8 heap []

/-! ## The least and the greatest -/

/-- The first key is the least of the set. -/
theorem least_ok (h : Holding 8 v l) (hl : Increasing l) {S : Finset Int64}
    (hS : ∀ x, x ∈ S ↔ x ∈ l) :
    BTree.least v.data v.len = .done (if hne : S.Nonempty then some (S.min' hne) else none) := by
  unfold BTree.least
  rw [h.len_eq]
  by_cases hnil : l.length = 0
  · have hempty : ¬S.Nonempty := by
      rintro ⟨x, hx⟩
      rw [hS, List.eq_nil_of_length_eq_zero hnil] at hx
      cases hx
    rw [if_pos hnil, dif_neg hempty]
    rfl
  · have hx : l[0]? = some l[0] := List.getElem?_eq_getElem (by omega)
    have hmem : l[0] ∈ S := (hS _).mpr (List.getElem_mem _)
    rw [if_neg hnil, h.load_some hx, dif_pos ⟨_, hmem⟩]
    refine congrArg (fun k => Outcome.done (some k)) (le_antisymm ?_ (Finset.min'_le S _ hmem))
    exact Finset.le_min' S _ _ fun y hy => hl.head_le hx ((hS y).mp hy)

/-- The last key is the greatest of the set. -/
theorem greatest_ok (h : Holding 8 v l) (hl : Increasing l) {S : Finset Int64}
    (hS : ∀ x, x ∈ S ↔ x ∈ l) :
    BTree.greatest v.data v.len = .done (if hne : S.Nonempty then some (S.max' hne) else none) := by
  unfold BTree.greatest
  rw [h.len_eq]
  by_cases hnil : l.length = 0
  · have hempty : ¬S.Nonempty := by
      rintro ⟨x, hx⟩
      rw [hS, List.eq_nil_of_length_eq_zero hnil] at hx
      cases hx
    rw [if_pos hnil, dif_neg hempty]
    rfl
  · have hx : l[l.length - 1]? = some l[l.length - 1] := List.getElem?_eq_getElem (by omega)
    have hmem : l[l.length - 1] ∈ S := (hS _).mpr (List.getElem_mem _)
    rw [if_neg hnil, h.load_some hx, dif_pos ⟨_, hmem⟩]
    refine congrArg (fun k => Outcome.done (some k)) (le_antisymm (Finset.le_max' S _ hmem) ?_)
    exact Finset.max'_le S _ _ fun y hy => hl.le_last hx ((hS y).mp hy)

/-! ## Range queries -/

/-- The keys from one bound to another, in order. -/
def between (S : Finset Int64) (lo hi : Int64) : List Int64 :=
  (S.filter fun x => lo ≤ x ∧ x ≤ hi).sort (· ≤ ·)

theorem between_empty (S : Finset Int64) {lo hi : Int64} (h : hi < lo) : between S lo hi = [] := by
  have hnone : (S.filter fun x => lo ≤ x ∧ x ≤ hi) = ∅ := by
    rw [Finset.filter_eq_empty_iff]
    rintro x - ⟨hlo, hhi⟩
    exact absurd (h.trans_le hlo) (not_lt.mpr hhi)
  unfold between
  rw [hnone, Finset.sort_empty]

/-- The loop appends what stands at the positions of the keys from the place of the lower
bound on that do not exceed the upper one. -/
theorem range_loop {keys src : Vec Int64} {ms outs : List Int64} (hk : Holding 8 keys l)
    (hs : Holding 8 src ms) (hlength : ms.length = l.length) {out : Vec Int64}
    (ho : Holding 8 out outs) (heap : Nat → Bool) {i n : Nat} {hi : Int64}
    (hi_le : i ≤ l.length) (hin : ∀ j, j < n → ∃ x, l[i + j]? = some x ∧ x ≤ hi)
    (hout : ∀ x, l[i + n]? = some x → hi < x) :
    (Outcome.loop (BTree.rangeTurn heap keys.data src.data keys.len hi) (keys.len + 1) (i, 0, out) =
        .aborted ∧ BTree.rangeRefused heap out) ∨
      ∃ r : Int × Vec Int64,
        Outcome.loop (BTree.rangeTurn heap keys.data src.data keys.len hi) (keys.len + 1)
            (i, 0, out) = .done r ∧
          r.1 = n ∧ Holding 8 r.2 (outs ++ (ms.drop i).take n) := by
  have hlen := hk.len_eq
  have hn : i + n ≤ l.length := by
    cases n with
    | zero => exact hi_le
    | succ n =>
      obtain ⟨x, hx, -⟩ := hin n (Nat.lt_succ_self n)
      have hlt := (List.getElem?_eq_some_iff.mp hx).1
      omega
  -- after `j` turns the first `j` are appended, and the vector has grown some number of times
  refine Outcome.loop_of_invariant_or_aborted (d := n)
    (fun j (s : Nat × Int × Vec Int64) => s.1 = i + j ∧ s.2.1 = j ∧
      Holding 8 s.2.2 (outs ++ (ms.drop i).take j) ∧
      ∃ g : Nat, s.2.2.capacity = (BTree.grownCapacity 8)^[g] out.capacity)
    (by omega) ⟨rfl, rfl, by rw [List.take_zero, List.append_nil]; exact ho, 0, rfl⟩ ?_ ?_
  · rintro j ⟨_, _, w⟩ hj ⟨rfl, rfl, hw, g, hg⟩
    dsimp only at hw hg
    obtain ⟨x, hx, hle⟩ := hin j hj
    have hlt := (List.getElem?_eq_some_iff.mp hx).1
    have hy : ms[i + j]? = some ms[i + j] := List.getElem?_eq_getElem (by omega)
    rcases hw.reserveCell (show 0 < 8 by decide) heap with
      ⟨hrun, -, hno⟩ | ⟨w', hrun, hw', hroom, hcap⟩
    · refine Or.inl ⟨?_, g, ?_⟩
      · simp only [BTree.rangeTurn, if_pos (hlen ▸ hlt : i + j < keys.len), hk.load_some hx,
          Outcome.done_bind, if_pos hle, hrun, Outcome.aborted_bind]
      · rw [Function.iterate_succ_apply', ← hg]
        exact hno
    · have hbound : w'.len < w'.data.size := by
        rw [hw'.cells]
        exact hroom
      refine Or.inr ⟨(i + j + 1, j + 1,
        ⟨w'.data.setIfInBounds w'.len (some ms[i + j]), w'.len + 1, w'.capacity⟩),
        ?_, rfl, ?_, ?_, ?_⟩
      · simp only [BTree.rangeTurn, if_pos (hlen ▸ hlt : i + j < keys.len), hk.load_some hx,
          Outcome.done_bind, if_pos hle, hrun, hs.load_some hy, Outcome.write_of_lt hbound,
          Outcome.pure_eq]
      · rfl
      · have hnext : (ms.drop i).take (j + 1) = (ms.drop i).take j ++ [ms[i + j]] := by
          rw [List.take_add_one, List.getElem?_drop, hy]
          rfl
        rw [hnext, ← List.append_assoc]
        exact hw'.append hroom _
      · rcases hcap with hsame | hgrown
        · exact ⟨g, hsame.trans hg⟩
        · refine ⟨g + 1, ?_⟩
          rw [Function.iterate_succ_apply', ← hg]
          exact hgrown
  · rintro ⟨_, _, w⟩ ⟨rfl, rfl, hw, -⟩
    dsimp only at hw
    refine Or.inr ⟨(n, w), ?_, rfl, hw⟩
    by_cases hlt : i + n < l.length
    · have hx : l[i + n]? = some l[i + n] := List.getElem?_eq_getElem hlt
      simp only [BTree.rangeTurn, if_pos (hlen ▸ hlt : i + n < keys.len), hk.load_some hx,
        Outcome.done_bind, if_neg (not_le.mpr (hout _ hx)), Outcome.pure_eq]
    · simp only [BTree.rangeTurn, if_neg (hlen ▸ hlt : ¬i + n < keys.len), Outcome.pure_eq]

end Vani.Analysis
