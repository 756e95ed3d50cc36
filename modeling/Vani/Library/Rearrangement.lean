import Mathlib.Logic.Equiv.Basic
import Mathlib.Data.List.Perm.Basic
import Mathlib.Data.List.Nodup

/-!
# Rearranged segments

An array is another with a segment rearranged when a permutation of the positions, which moves
only positions of the segment, says where each cell comes from. What holds of every cell of the
segment holds after a rearrangement, and the elements are the same up to their order.
-/

set_option autoImplicit false

namespace Vani.Library

variable {α : Type} {a b c : Array α} {lo hi : Nat}

/-- `b` is `a` with the cells from `lo` to `hi` rearranged. -/
structure Rearranged (a b : Array α) (lo hi : Nat) : Prop where
  size : b.size = a.size
  moves : ∃ σ : Equiv.Perm Nat, (∀ k, k < lo ∨ hi < k → σ k = k) ∧ ∀ k, b[k]? = a[σ k]?

namespace Rearranged

theorem refl (a : Array α) (lo hi : Nat) : Rearranged a a lo hi :=
  ⟨rfl, Equiv.refl Nat, fun _ _ => rfl, fun _ => rfl⟩

theorem trans (h : Rearranged a b lo hi) (h' : Rearranged b c lo hi) : Rearranged a c lo hi := by
  obtain ⟨hsize, σ, hσ, hb⟩ := h
  obtain ⟨hsize', τ, hτ, hc⟩ := h'
  refine ⟨hsize'.trans hsize, τ.trans σ, fun k hk => ?_, fun k => ?_⟩
  · rw [Equiv.trans_apply, hτ k hk, hσ k hk]
  · rw [hc, hb, Equiv.trans_apply]

/-- A part of a segment is rearranged. -/
theorem widen {lo' hi' : Nat} (h : Rearranged a b lo hi) (hlo : lo' ≤ lo) (hhi : hi ≤ hi') :
    Rearranged a b lo' hi' := by
  obtain ⟨hsize, σ, hσ, hb⟩ := h
  exact ⟨hsize, σ, fun k hk => hσ k (by omega), hb⟩

theorem outside (h : Rearranged a b lo hi) {k : Nat} (hk : k < lo ∨ hi < k) : b[k]? = a[k]? := by
  obtain ⟨-, σ, hσ, hb⟩ := h
  rw [hb, hσ k hk]

/-- A cell of the segment comes from the segment. -/
theorem inside (h : Rearranged a b lo hi) {k : Nat} (hlo : lo ≤ k) (hhi : k ≤ hi) :
    ∃ m, lo ≤ m ∧ m ≤ hi ∧ b[k]? = a[m]? := by
  obtain ⟨-, σ, hσ, hb⟩ := h
  refine ⟨σ k, ?_, ?_, hb k⟩
  · by_contra hlt
    have hfix := σ.injective (hσ (σ k) (by omega))
    omega
  · by_contra hlt
    have hfix := σ.injective (hσ (σ k) (by omega))
    omega

/-- What holds of every cell of the segment still does. -/
theorem bound (h : Rearranged a b lo hi) {P : Option α → Prop}
    (hP : ∀ k, lo ≤ k → k ≤ hi → P a[k]?) (k : Nat) (hlo : lo ≤ k) (hhi : k ≤ hi) : P b[k]? := by
  obtain ⟨m, hmlo, hmhi, hm⟩ := h.inside hlo hhi
  rw [hm]
  exact hP m hmlo hmhi

/-- Two cells that have changed places. -/
theorem of_swap {i j : Nat} (hsize : b.size = a.size) (hbi : b[i]? = a[j]?)
    (hbj : b[j]? = a[i]?) (hrest : ∀ k, k ≠ i → k ≠ j → b[k]? = a[k]?) (hilo : lo ≤ i)
    (hihi : i ≤ hi) (hjlo : lo ≤ j) (hjhi : j ≤ hi) : Rearranged a b lo hi := by
  refine ⟨hsize, Equiv.swap i j, fun k hk => ?_, fun k => ?_⟩
  · exact Equiv.swap_apply_of_ne_of_ne (by omega) (by omega)
  · by_cases hki : k = i
    · rw [hki, Equiv.swap_apply_left, hbi]
    · by_cases hkj : k = j
      · rw [hkj, Equiv.swap_apply_right, hbj]
      · rw [Equiv.swap_apply_of_ne_of_ne hki hkj, hrest k hki hkj]

/-- The elements are the same up to their order. -/
theorem perm (h : Rearranged a b lo hi) (hhi : hi < a.size) : b.toList.Perm a.toList := by
  obtain ⟨hsize, σ, hσ, hb⟩ := h
  have hcells : ∀ x : Array α, x.toList.map some = (List.range x.size).map fun k => x[k]? := by
    intro x
    apply List.ext_getElem?
    intro k
    rw [List.getElem?_map, List.getElem?_map, Array.getElem?_toList]
    by_cases hk : k < x.size
    · rw [List.getElem?_range hk, Array.getElem?_eq_getElem hk, Option.map_some,
        Option.map_some, Array.getElem?_eq_getElem hk]
    · rw [Array.getElem?_eq_none (by omega), List.getElem?_eq_none (by simpa using hk)]
      rfl
  have hrange : ((List.range a.size).map σ).Perm (List.range a.size) := by
    rw [List.perm_ext_iff_of_nodup (List.nodup_range.map σ.injective) List.nodup_range]
    have hlt : ∀ k, σ k < a.size ↔ k < a.size := by
      intro k
      by_cases hk : k < lo ∨ hi < k
      · rw [hσ k hk]
      · constructor
        · intro _
          omega
        · intro _
          by_contra hge
          have hfix := σ.injective (hσ (σ k) (by omega))
          omega
    intro k
    simp only [List.mem_map, List.mem_range]
    constructor
    · rintro ⟨m, hm, rfl⟩
      exact (hlt m).2 hm
    · intro hk
      refine ⟨σ.symm k, (hlt _).1 ?_, σ.apply_symm_apply k⟩
      rwa [σ.apply_symm_apply]
  rw [← List.map_perm_map_iff (Option.some_injective α), hcells, hcells, hsize]
  have hmap : (List.range a.size).map (fun k => b[k]?) =
      ((List.range a.size).map σ).map fun k => a[k]? := by
    rw [List.map_map]
    exact List.map_congr_left fun k _ => hb k
  rw [hmap]
  exact hrange.map _

end Rearranged

end Vani.Library
