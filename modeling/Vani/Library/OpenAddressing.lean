import Mathlib.Data.Set.Card
import Mathlib.Algebra.BigOperators.Group.Finset.Basic
import Mathlib.Algebra.Order.BigOperators.Group.Finset

/-!
# Tables with open addressing

Linear probing over slots that are empty, full or tombstones. A table is sound when no two
full slots have one key and no empty slot lies on the way from a key's hash to its slot. A
sound table with an empty slot answers every search: the search for a key ends at the
key's slot, or at an empty one when the table does not have the key. Filling a slot on the
way, turning a full one into a tombstone and replacing an entry keep a table sound.
-/

set_option autoImplicit false

namespace Vani.Library

/-- A slot of a table. -/
inductive Slot (E : Type)
  | empty
  | tombstone
  | full (entry : E)

namespace Slot

variable {E : Type}

def isFull : Slot E → Bool
  | full _ => true
  | _ => false

def isTombstone : Slot E → Bool
  | tombstone => true
  | _ => false

end Slot

namespace Table

/-- The `j`th slot looked at from the hash `h` on, among `n`. -/
def probe (n h j : Nat) : Nat := (h + j) % n

theorem probe_lt {n : Nat} (hn : 0 < n) (h j : Nat) : probe n h j < n :=
  Nat.mod_lt _ hn

theorem probe_succ (n h j : Nat) : (probe n h j + 1) % n = probe n h (j + 1) := by
  simp only [probe, Nat.mod_add_mod, Nat.add_assoc]

/-- Probing comes to every slot. -/
theorem exists_probe {n i : Nat} (h : Nat) (hi : i < n) : ∃ d, d < n ∧ probe n h d = i := by
  have hn : 0 < n := by omega
  refine ⟨(i + (n - h % n)) % n, Nat.mod_lt _ hn, ?_⟩
  have hlt := Nat.mod_lt h hn
  calc (h + (i + (n - h % n)) % n) % n
      = (h % n + (i + (n - h % n))) % n := by simp only [Nat.add_mod_mod, Nat.mod_add_mod]
    _ = (i + n) % n := by congr 1; omega
    _ = i := by rw [Nat.add_mod_right, Nat.mod_eq_of_lt hi]

section Sound

variable {E K : Type} (key : E → K) (hash : K → Nat)

/-- The entries of the first `n` slots. -/
def content (n : Nat) (t : Nat → Slot E) : Set E := {e | ∃ i, i < n ∧ t i = .full e}

/-- Keys are unique, and a search for a key of the table comes to its slot. -/
structure Sound (n : Nat) (t : Nat → Slot E) : Prop where
  unique : ∀ {i j e e'}, i < n → j < n → t i = .full e → t j = .full e' → key e = key e' → i = j
  reach : ∀ {i e}, i < n → t i = .full e → ∃ d, probe n (hash (key e)) d = i ∧
    ∀ j, j < d → t (probe n (hash (key e)) j) ≠ .empty

/-- The search for `k` passes over the first `d` slots. -/
def Passes (n : Nat) (t : Nat → Slot E) (k : K) (d : Nat) : Prop :=
  ∀ j, j < d → t (probe n (hash k) j) ≠ .empty ∧
    ∀ e, t (probe n (hash k) j) = .full e → key e ≠ k

variable {key hash} {n : Nat} {t : Nat → Slot E}

theorem sound_empty : Sound key hash n fun _ => .empty where
  unique _ _ h := by cases h
  reach _ h := by cases h

theorem content_empty : content n (fun _ => (.empty : Slot E)) = ∅ := by
  ext e
  simp [content]

theorem mem_content {e : E} : e ∈ content n t ↔ ∃ i, i < n ∧ t i = .full e :=
  Iff.rfl

theorem content_zero : content 0 t = ∅ := by
  ext e
  simp [content]

theorem content_succ_full {e : E} (h : t n = .full e) :
    content (n + 1) t = insert e (content n t) := by
  ext x
  simp only [mem_content, Set.mem_insert_iff, Nat.lt_succ_iff_lt_or_eq]
  constructor
  · rintro ⟨i, hi | rfl, hx⟩
    · exact Or.inr ⟨i, hi, hx⟩
    · rw [h] at hx
      cases hx
      exact Or.inl rfl
  · rintro (rfl | ⟨i, hi, hx⟩)
    · exact ⟨n, Or.inr rfl, h⟩
    · exact ⟨i, Or.inl hi, hx⟩

theorem content_succ_other (h : ∀ e, t n ≠ .full e) : content (n + 1) t = content n t := by
  ext x
  simp only [mem_content, Nat.lt_succ_iff_lt_or_eq]
  constructor
  · rintro ⟨i, hi | rfl, hx⟩
    · exact ⟨i, hi, hx⟩
    · exact absurd hx (h x)
  · rintro ⟨i, hi, hx⟩
    exact ⟨i, Or.inl hi, hx⟩

/-! ## Searching -/

/-- The search for a key of the table ends at its slot. -/
theorem Sound.hit (hs : Sound key hash n t) {i : Nat} {e : E} (hi : i < n)
    (ht : t i = .full e) :
    ∃ d, d < n ∧ probe n (hash (key e)) d = i ∧ Passes key hash n t (key e) d := by
  classical
  obtain ⟨d₀, hd₀, hpass⟩ := hs.reach hi ht
  obtain ⟨d₁, hd₁, hprobe₁⟩ := exists_probe (hash (key e)) hi
  have hex : ∃ d, probe n (hash (key e)) d = i := ⟨d₀, hd₀⟩
  refine ⟨Nat.find hex, (Nat.find_min' hex hprobe₁).trans_lt hd₁, Nat.find_spec hex, ?_⟩
  intro j hj
  refine ⟨hpass j (hj.trans_le (Nat.find_min' hex hd₀)), ?_⟩
  intro e' he' hkey
  have hlt : probe n (hash (key e)) j < n := probe_lt (by omega) _ _
  exact Nat.find_min hex hj (hs.unique hlt hi he' ht hkey)

/-- The search for another key ends at an empty slot. -/
theorem miss {k : K} (hk : ∀ e, e ∈ content n t → key e ≠ k)
    (hroom : ∃ i, i < n ∧ t i = .empty) :
    ∃ d, d < n ∧ t (probe n (hash k) d) = .empty ∧ Passes key hash n t k d := by
  classical
  obtain ⟨i, hi, hti⟩ := hroom
  obtain ⟨d₁, hd₁, hprobe₁⟩ := exists_probe (hash k) hi
  have hex : ∃ d, t (probe n (hash k) d) = .empty := ⟨d₁, hprobe₁ ▸ hti⟩
  refine ⟨Nat.find hex, (Nat.find_min' hex (hprobe₁ ▸ hti)).trans_lt hd₁, Nat.find_spec hex, ?_⟩
  intro j hj
  refine ⟨Nat.find_min hex hj, fun e he => hk e ⟨_, probe_lt (by omega) _ _, he⟩⟩

/-! ## Changing one slot -/

section Update

variable {i : Nat} {e : E}

theorem update_full {j : Nat} {x : E} (h : Function.update t i (.full e) j = .full x) :
    j = i ∧ x = e ∨ j ≠ i ∧ t j = .full x := by
  by_cases hj : j = i
  · subst hj
    rw [Function.update_self] at h
    cases h
    exact Or.inl ⟨rfl, rfl⟩
  · rw [Function.update_of_ne hj] at h
    exact Or.inr ⟨hj, h⟩

/-- A new entry in a slot on its way that holds no entry. -/
theorem Sound.place (hs : Sound key hash n t) {d : Nat} (hi : probe n (hash (key e)) d = i)
    (hpass : ∀ j, j < d → t (probe n (hash (key e)) j) ≠ .empty)
    (hnew : ∀ x, x ∈ content n t → key x ≠ key e) :
    Sound key hash n (Function.update t i (.full e)) where
  unique := by
    intro a b x y ha hb hx hy hkey
    rcases update_full hx with ⟨rfl, rfl⟩ | ⟨-, hx'⟩ <;>
      rcases update_full hy with ⟨rfl, rfl⟩ | ⟨-, hy'⟩
    · rfl
    · exact absurd hkey.symm (hnew y ⟨b, hb, hy'⟩)
    · exact absurd hkey (hnew x ⟨a, ha, hx'⟩)
    · exact hs.unique ha hb hx' hy' hkey
  reach := by
    intro a x ha hx
    have hkeep : ∀ j, t j ≠ .empty → Function.update t i (.full e) j ≠ .empty := by
      intro j hj
      by_cases hji : j = i
      · subst hji
        rw [Function.update_self]
        exact nofun
      · rwa [Function.update_of_ne hji]
    rcases update_full hx with ⟨rfl, rfl⟩ | ⟨-, hx⟩
    · exact ⟨d, hi, fun j hj => hkeep _ (hpass j hj)⟩
    · obtain ⟨d', hd', hpass'⟩ := hs.reach ha hx
      exact ⟨d', hd', fun j hj => hkeep _ (hpass' j hj)⟩

theorem content_place (hi : i < n) (hfree : ∀ x, t i ≠ .full x) :
    content n (Function.update t i (.full e)) = insert e (content n t) := by
  ext x
  simp only [mem_content, Set.mem_insert_iff]
  constructor
  · rintro ⟨j, hj, hx⟩
    rcases update_full hx with ⟨rfl, rfl⟩ | ⟨-, hx⟩
    · exact Or.inl rfl
    · exact Or.inr ⟨j, hj, hx⟩
  · rintro (rfl | ⟨j, hj, hx⟩)
    · exact ⟨i, hi, Function.update_self i _ t⟩
    · have hne : j ≠ i := fun h => hfree x (h ▸ hx)
      exact ⟨j, hj, by rw [Function.update_of_ne hne, hx]⟩

/-- A slot turned into a tombstone still lets every search pass. -/
theorem Sound.erase (hs : Sound key hash n t) :
    Sound key hash n (Function.update t i .tombstone) := by
  have hback : ∀ {j x}, Function.update t i .tombstone j = .full x → t j = .full x := by
    intro j x h
    by_cases hj : j = i
    · subst hj
      rw [Function.update_self] at h
      cases h
    · rwa [Function.update_of_ne hj] at h
  constructor
  · intro a b x y ha hb hx hy hkey
    exact hs.unique ha hb (hback hx) (hback hy) hkey
  · intro a x ha hx
    obtain ⟨d, hd, hpass⟩ := hs.reach ha (hback hx)
    refine ⟨d, hd, fun j hj => ?_⟩
    by_cases hji : probe n (hash (key x)) j = i
    · rw [hji, Function.update_self]
      exact nofun
    · rw [Function.update_of_ne hji]
      exact hpass j hj

theorem Sound.content_erase (hs : Sound key hash n t) (hi : i < n) (ht : t i = .full e) :
    content n (Function.update t i .tombstone) = content n t \ {e} := by
  ext x
  simp only [mem_content, Set.mem_sdiff, Set.mem_singleton_iff]
  constructor
  · rintro ⟨j, hj, hx⟩
    by_cases hji : j = i
    · subst hji
      rw [Function.update_self] at hx
      cases hx
    · rw [Function.update_of_ne hji] at hx
      refine ⟨⟨j, hj, hx⟩, ?_⟩
      rintro rfl
      exact hji (hs.unique hj hi hx ht rfl)
  · rintro ⟨⟨j, hj, hx⟩, hne⟩
    have hji : j ≠ i := by
      rintro rfl
      rw [ht] at hx
      cases hx
      exact hne rfl
    exact ⟨j, hj, by rw [Function.update_of_ne hji, hx]⟩

/-- Another entry of the same key in its place. -/
theorem Sound.replace (hs : Sound key hash n t) {e' : E} (hi : i < n) (ht : t i = .full e)
    (hkey : key e' = key e) : Sound key hash n (Function.update t i (.full e')) where
  unique := by
    intro a b x y ha hb hx hy hxy
    rcases update_full hx with ⟨rfl, rfl⟩ | ⟨-, hx'⟩ <;>
      rcases update_full hy with ⟨rfl, rfl⟩ | ⟨-, hy'⟩
    · rfl
    · exact hs.unique ha hb ht hy' (hkey.symm.trans hxy)
    · exact hs.unique ha hb hx' ht (hxy.trans hkey)
    · exact hs.unique ha hb hx' hy' hxy
  reach := by
    intro a x ha hx
    have hkeep : ∀ j, t j ≠ .empty → Function.update t i (.full e') j ≠ .empty := by
      intro j hj
      by_cases hji : j = i
      · subst hji
        rw [Function.update_self]
        exact nofun
      · rwa [Function.update_of_ne hji]
    rcases update_full hx with ⟨rfl, rfl⟩ | ⟨-, hx⟩
    · obtain ⟨d, hd, hpass⟩ := hs.reach hi ht
      rw [hkey]
      exact ⟨d, hd, fun j hj => hkeep _ (hpass j hj)⟩
    · obtain ⟨d, hd, hpass⟩ := hs.reach ha hx
      exact ⟨d, hd, fun j hj => hkeep _ (hpass j hj)⟩

theorem Sound.content_replace (hs : Sound key hash n t) {e' : E} (hi : i < n)
    (ht : t i = .full e) :
    content n (Function.update t i (.full e')) = insert e' (content n t \ {e}) := by
  ext x
  simp only [mem_content, Set.mem_insert_iff, Set.mem_sdiff, Set.mem_singleton_iff]
  constructor
  · rintro ⟨j, hj, hx⟩
    rcases update_full hx with ⟨rfl, rfl⟩ | ⟨hji, hx⟩
    · exact Or.inl rfl
    · refine Or.inr ⟨⟨j, hj, hx⟩, ?_⟩
      rintro rfl
      exact hji (hs.unique hj hi hx ht rfl)
  · rintro (rfl | ⟨⟨j, hj, hx⟩, hne⟩)
    · exact ⟨i, hi, Function.update_self i _ t⟩
    · have hji : j ≠ i := by
        rintro rfl
        rw [ht] at hx
        cases hx
        exact hne rfl
      exact ⟨j, hj, by rw [Function.update_of_ne hji, hx]⟩

end Update

/-! ## Counting slots -/

/-- The number of slots of a kind. -/
def count (p : Slot E → Bool) (n : Nat) (t : Nat → Slot E) : Nat :=
  ∑ i ∈ Finset.range n, if p (t i) then 1 else 0

theorem count_update (p : Slot E → Bool) {i : Nat} (hi : i < n) (x : Slot E) :
    count p n (Function.update t i x) + (if p (t i) then 1 else 0) =
      count p n t + (if p x then 1 else 0) := by
  unfold count
  have hmem : i ∈ Finset.range n := Finset.mem_range.mpr hi
  rw [← Finset.add_sum_erase _ _ hmem,
    ← Finset.add_sum_erase _ (fun j => if p (t j) then 1 else 0) hmem]
  have hrest : ∑ j ∈ (Finset.range n).erase i, (if p (Function.update t i x j) then 1 else 0) =
      ∑ j ∈ (Finset.range n).erase i, (if p (t j) then 1 else 0) := by
    refine Finset.sum_congr rfl fun j hj => ?_
    rw [Function.update_of_ne (Finset.ne_of_mem_erase hj)]
  rw [hrest, Function.update_self]
  omega

theorem count_empty (p : Slot E → Bool) (hp : p .empty = false) :
    count p n (fun _ => (.empty : Slot E)) = 0 := by
  simp [count, hp]

/-- A table with fewer full slots and tombstones than slots has an empty slot. -/
theorem exists_empty (h : count Slot.isFull n t + count Slot.isTombstone n t < n) :
    ∃ i, i < n ∧ t i = .empty := by
  by_contra hnone
  have hall : ∀ i ∈ Finset.range n,
      1 ≤ (if (t i).isFull then 1 else 0) + (if (t i).isTombstone then 1 else 0) := by
    intro i hi
    cases hti : t i with
    | empty => exact absurd ⟨i, Finset.mem_range.mp hi, hti⟩ hnone
    | tombstone => simp [Slot.isTombstone]
    | full e => simp [Slot.isFull]
  have hsum := Finset.sum_le_sum hall
  simp only [Finset.sum_add_distrib, Finset.sum_const, Finset.card_range, nsmul_eq_mul, mul_one,
    Nat.cast_id] at hsum
  unfold count at h
  omega

theorem count_succ (p : Slot E → Bool) :
    count p (n + 1) t = count p n t + (if p (t n) then 1 else 0) :=
  Finset.sum_range_succ _ _

theorem count_mono (p : Slot E → Bool) {m : Nat} (h : m ≤ n) : count p m t ≤ count p n t :=
  Finset.sum_le_sum_of_subset (Finset.range_mono h)

theorem ne_of_count_eq_zero {p : Slot E → Bool} (h : count p n t = 0) {i : Nat} (hi : i < n) :
    p (t i) = false := by
  have hzero := Finset.sum_eq_zero_iff.mp h i (Finset.mem_range.mpr hi)
  by_contra hp
  rw [Bool.not_eq_false] at hp
  rw [if_pos hp] at hzero
  exact absurd hzero (by decide)

theorem content_finite : (content n t).Finite := by
  induction n with
  | zero =>
    rw [content_zero]
    exact Set.finite_empty
  | succ m ih =>
    cases hm : t m with
    | empty => rwa [content_succ_other (by rw [hm]; exact nofun)]
    | tombstone => rwa [content_succ_other (by rw [hm]; exact nofun)]
    | full e =>
      rw [content_succ_full hm]
      exact ih.insert e

/-- A sound table has as many entries as full slots. -/
theorem Sound.ncard_content (hs : Sound key hash n t) :
    (content n t).ncard = count Slot.isFull n t := by
  have hprefix : ∀ m, m ≤ n → (content m t).ncard = count Slot.isFull m t := by
    intro m
    induction m with
    | zero =>
      intro _
      rw [content_zero, Set.ncard_empty]
      rfl
    | succ m ih =>
      intro hm
      rw [count_succ]
      cases htm : t m with
      | empty =>
        rw [content_succ_other (by rw [htm]; exact nofun), ih (by omega)]
        rfl
      | tombstone =>
        rw [content_succ_other (by rw [htm]; exact nofun), ih (by omega)]
        rfl
      | full e =>
        have hnew : e ∉ content m t := by
          rintro ⟨i, hi, hti⟩
          exact absurd (hs.unique (by omega) (by omega) hti htm rfl) (by omega)
        rw [content_succ_full htm, Set.ncard_insert_of_notMem hnew content_finite,
          ih (by omega)]
        rfl
  exact hprefix n le_rfl

end Sound

end Table

end Vani.Library
