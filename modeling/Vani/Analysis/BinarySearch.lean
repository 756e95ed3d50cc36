import Vani.Backend.VecQueries
import Vani.Analysis.SortedArrays

/-!
# Correctness of the binary search on vectors

The search keeps two signed end points, the greater from the last position down to `-1`. In
a sorted vector the key, if it is there, is between them. Every turn that goes on leaves out
the middle, so the search ends.
-/

set_option autoImplicit false

namespace Vani.Analysis

open Vani.Library Vani.Backend

variable {v : Vec Int64} {l : List Int64}

theorem signed_of_fits {x : Int} (h : cLong.Fits x) : Vec.signed x = .done x := if_pos h

/-- What `int64_t` has around the positions of a vector. -/
theorem Holding.fits (h : Holding 8 v l) {x : Int} (hlo : -1 ≤ x) (hhi : x ≤ v.len) :
    cLong.Fits x := by
  have hle := h.len_le
  have hbytes := h.bytes
  have hlong : cLong.lo = -2 ^ 63 ∧ cLong.hi = 2 ^ 63 - 1 := ⟨rfl, rfl⟩
  unfold IntType.Fits
  rw [hlong.1, hlong.2]
  have hcap : v.capacity * 8 < 2 ^ 63 := hbytes
  constructor <;> omega

/-- The elements in order. -/
theorem sorted_le (hsorted : l.Pairwise (· ≤ ·)) {i j : Nat} {x y : Int64} (hij : i ≤ j)
    (hx : l[i]? = some x) (hy : l[j]? = some y) : x ≤ y := by
  obtain ⟨hi, rfl⟩ := List.getElem?_eq_some_iff.mp hx
  obtain ⟨hj, rfl⟩ := List.getElem?_eq_some_iff.mp hy
  rcases Nat.lt_or_eq_of_le hij with hlt | rfl
  · exact List.pairwise_iff_getElem.mp hsorted i j hi hj hlt
  · exact le_rfl

/-- The end points of a search: within the vector, and around the key if the vector is
sorted. -/
structure Searching (l : List Int64) (n : Int64) (s : Int × Int) : Prop where
  lo_nonneg : 0 ≤ s.1
  lo_le : s.1 ≤ s.2 + 1
  hi_lt : s.2 < l.length
  inside : l.Pairwise (· ≤ ·) → ∀ j : Nat, l[j]? = some n → s.1 ≤ j ∧ j ≤ s.2

/-- What a search returns: a position of the key, or nothing where the vector, if sorted,
does not have the key. -/
def FoundAt (l : List Int64) (n : Int64) : Option Int → Prop
  | some i => 0 ≤ i ∧ l[i.toNat]? = some n
  | none => l.Pairwise (· ≤ ·) → n ∉ l

/-- A turn finds the key, or goes on between nearer end points. -/
theorem searchTurn_ok (h : Holding 8 v l) {n : Int64} {s : Int × Int} (hs : Searching l n s) :
    (∃ s', Vec.searchTurn v n s = .done (.inl s') ∧ Searching l n s' ∧
        (s'.2 + 1 - s'.1).toNat < (s.2 + 1 - s.1).toNat) ∨
      ∃ r, Vec.searchTurn v n s = .done (.inr r) ∧ FoundAt l n r := by
  obtain ⟨lo, hi⟩ := s
  obtain ⟨hlo, hle, hhi, hinside⟩ := hs
  dsimp only at hlo hle hhi hinside
  have hlen := h.len_eq
  unfold Vec.searchTurn
  dsimp only
  by_cases hgo : lo ≤ hi
  · obtain ⟨mid, hmid⟩ : ∃ mid, mid = lo + (hi - lo).tdiv 2 := ⟨_, rfl⟩
    have hhalf : (hi - lo).tdiv 2 = (hi - lo) / 2 := Int.tdiv_eq_ediv_of_nonneg (by omega)
    rw [hhalf] at hmid
    have hlom : lo ≤ mid := by omega
    have hmhi : mid ≤ hi := by omega
    have hlt : mid.toNat < l.length := by omega
    obtain ⟨x, hx⟩ : ∃ x, l[mid.toNat]? = some x := ⟨_, List.getElem?_eq_getElem hlt⟩
    have hread : v.element mid = .done x := by
      unfold Vec.element
      rw [if_pos ⟨by omega, by omega⟩, h.load_some hx]
    rw [if_pos hgo, signed_of_fits (h.fits (by omega) (by omega)), Outcome.done_bind, hhalf, ← hmid,
      signed_of_fits (h.fits (by omega) (by omega)), Outcome.done_bind, hread, Outcome.done_bind]
    by_cases heq : x = n
    · subst heq
      exact Or.inr ⟨some mid, if_pos rfl, by omega, hx⟩
    · rw [if_neg heq]
      by_cases hless : x < n
      · -- the key is behind the middle
        rw [if_pos hless, signed_of_fits (h.fits (by omega) (by omega)), Outcome.done_bind]
        refine Or.inl ⟨(mid + 1, hi), rfl, ⟨by dsimp only; omega, by dsimp only; omega, hhi, ?_⟩,
          by dsimp only; omega⟩
        intro hsorted j hj
        refine ⟨?_, (hinside hsorted j hj).2⟩
        dsimp only
        by_contra hnot
        have hback : n ≤ x := sorted_le hsorted (by omega) hj hx
        exact absurd hless (not_lt.mpr hback)
      · -- the key is before the middle
        rw [if_neg hless, signed_of_fits (h.fits (by omega) (by omega)), Outcome.done_bind]
        refine Or.inl ⟨(lo, mid - 1), rfl,
          ⟨hlo, by dsimp only; omega, by dsimp only; omega, ?_⟩, by dsimp only; omega⟩
        intro hsorted j hj
        refine ⟨(hinside hsorted j hj).1, ?_⟩
        dsimp only
        by_contra hnot
        have hback : x ≤ n := sorted_le hsorted (by omega) hx hj
        exact absurd (le_antisymm hback (not_lt.mp hless)) heq
  · rw [if_neg hgo]
    refine Or.inr ⟨none, rfl, fun hsorted hmem => ?_⟩
    obtain ⟨j, hj⟩ := List.mem_iff_getElem?.mp hmem
    have hin := hinside hsorted j hj
    omega

/-- **Binary search on a vector** ends for every vector and key, reads elements only, and
returns no position that does not hold the key; in a sorted vector it returns nothing only if
the key is not there. Source: backend_c.rs:11914-11936 -/
theorem binarySearch_correct (v : Vec Int64) (l : List Int64) (h : Holding 8 v l) (n : Int64) :
    ∃ r, v.binarySearch n = .done r ∧ (∀ i, r = some i → 0 ≤ i ∧ l[i.toNat]? = some n) ∧
      (l.Pairwise (· ≤ ·) → ((∃ i, r = some i) ↔ n ∈ l)) := by
  have hlen := h.len_eq
  have hstart : Vec.signed (toInt64 v.len - 1) = .done ((v.len : Int) - 1) := by
    rw [toInt64_of_lt (h.len_le.trans_lt h.small)]
    exact signed_of_fits (h.fits (by omega) (by omega))
  have hsearching : Searching l n (0, (v.len : Int) - 1) :=
    ⟨Int.le_refl 0, by dsimp only; omega, by dsimp only; omega, fun _ j hj => by
      have hlt := (List.getElem?_eq_some_iff.mp hj).1
      dsimp only
      omega⟩
  have hloop : ∃ r, Outcome.loop (Vec.searchTurn v n) (v.len + 1) (0, (v.len : Int) - 1) = .done r ∧
      FoundAt l n r :=
    Outcome.loop_of_measure (Searching l n) (fun s => (s.2 + 1 - s.1).toNat)
      (by dsimp only; omega) hsearching fun s hs => searchTurn_ok h hs
  obtain ⟨r, hrun, hfound⟩ := hloop
  refine ⟨r, ?_, ?_, ?_⟩
  · unfold Vec.binarySearch
    rw [hstart]
    exact hrun
  · rintro i rfl
    exact hfound
  · intro hsorted
    constructor
    · rintro ⟨i, rfl⟩
      exact List.mem_of_getElem? hfound.2
    · intro hmem
      cases r with
      | none => exact absurd hmem (hfound hsorted)
      | some i => exact ⟨i, rfl⟩

/-- Four elements, one of them twice. -/
theorem binarySearch_correct_four :
    ∃ r, Vec.binarySearch ⟨([2, 5, 5, 9] : List Int64).map some |>.toArray, 4, 4⟩ 5 = .done r ∧
      (∀ i, r = some i → 0 ≤ i ∧ ([2, 5, 5, 9] : List Int64)[i.toNat]? = some 5) ∧
      (([2, 5, 5, 9] : List Int64).Pairwise (· ≤ ·) →
        ((∃ i, r = some i) ↔ (5 : Int64) ∈ ([2, 5, 5, 9] : List Int64))) :=
  binarySearch_correct _ _ (holding_full (l := [2, 5, 5, 9]) (by decide)) 5

end Vani.Analysis
