import Mathlib.Data.Finset.Sort
import Mathlib.Data.List.InsertIdx

/-!
# Sorted lists

Strictly increasing lists over a linear order, and the place where a key belongs in one. A
key is in the list exactly if it stands at its place; inserting there and removing from
there keep the order, and the elements from one place up to another are the keys between.
-/

set_option autoImplicit false

namespace Vani.Library

variable {α : Type} [LinearOrder α]

/-- Strictly increasing. -/
def Increasing (l : List α) : Prop := l.Pairwise (· < ·)

/-- The elements before the place are less than the key, those from it on are not. -/
structure Place (l : List α) (k : α) (i : Nat) : Prop where
  le : i ≤ l.length
  below : ∀ (j : Nat) x, j < i → l[j]? = some x → x < k
  above : ∀ (j : Nat) x, i ≤ j → l[j]? = some x → k ≤ x

variable {l : List α} {k : α} {i : Nat}

theorem Increasing.lt (h : Increasing l) {i j : Nat} {x y : α} (hij : i < j) (hx : l[i]? = some x)
    (hy : l[j]? = some y) : x < y := by
  obtain ⟨hi, rfl⟩ := List.getElem?_eq_some_iff.mp hx
  obtain ⟨hj, rfl⟩ := List.getElem?_eq_some_iff.mp hy
  exact List.pairwise_iff_getElem.mp h i j hi hj hij

theorem Increasing.le (h : Increasing l) {i j : Nat} {x y : α} (hij : i ≤ j) (hx : l[i]? = some x)
    (hy : l[j]? = some y) : x ≤ y := by
  rcases Nat.lt_or_eq_of_le hij with hlt | rfl
  · exact (h.lt hlt hx hy).le
  · exact (Option.some.inj (hx.symm.trans hy)).le

theorem Increasing.nodup (h : Increasing l) : l.Nodup := List.Pairwise.imp ne_of_lt h

/-- A key in the list stands at its place. -/
theorem Place.mem_iff (h : Place l k i) (hl : Increasing l) : k ∈ l ↔ l[i]? = some k := by
  constructor
  · intro hk
    obtain ⟨j, hj⟩ := List.mem_iff_getElem?.mp hk
    rcases Nat.lt_trichotomy j i with hlt | rfl | hgt
    · exact absurd (h.below j k hlt hj) (lt_irrefl k)
    · exact hj
    · have hjlt := (List.getElem?_eq_some_iff.mp hj).1
      have hi : l[i]? = some l[i] := List.getElem?_eq_getElem (by omega)
      exact absurd (h.above i _ le_rfl hi) (not_le.mpr (hl.lt hgt hi hj))
  · exact List.mem_of_getElem?

/-- A key that is missing goes in at its place. -/
theorem Increasing.insertIdx (hl : Increasing l) (h : Place l k i) (hk : k ∉ l) :
    Increasing (l.insertIdx i k) := by
  have hpair : ∀ (p q : Nat) (x y : α), p < q → (l.insertIdx i k)[p]? = some x →
      (l.insertIdx i k)[q]? = some y → x < y := by
    intro p q x y hpq hx hy
    rw [List.getElem?_insertIdx] at hx hy
    rcases Nat.lt_trichotomy q i with hq | rfl | hq
    · rw [if_pos hq] at hy
      rw [if_pos (by omega)] at hx
      exact hl.lt hpq hx hy
    · rw [if_neg (Nat.lt_irrefl q), if_pos rfl, if_pos h.le] at hy
      rw [if_pos hpq] at hx
      cases hy
      exact h.below p x hpq hx
    · rw [if_neg (by omega), if_neg (by omega)] at hy
      rcases Nat.lt_trichotomy p i with hp | rfl | hp
      · rw [if_pos hp] at hx
        exact hl.lt (by omega) hx hy
      · rw [if_neg (Nat.lt_irrefl p), if_pos rfl, if_pos h.le] at hx
        cases hx
        refine lt_of_le_of_ne (h.above (q - 1) y (by omega) hy) ?_
        rintro rfl
        exact hk (List.mem_of_getElem? hy)
      · rw [if_neg (by omega), if_neg (by omega)] at hx
        exact hl.lt (by omega) hx hy
  refine List.pairwise_iff_getElem.mpr fun p q hp hq hpq => ?_
  exact hpair p q _ _ hpq (List.getElem?_eq_getElem hp) (List.getElem?_eq_getElem hq)

/-- A key goes in after the smaller ones. -/
theorem Increasing.insert_between {r : List α} (hl : Increasing (l ++ r)) (hbelow : ∀ y ∈ l, y < k)
    (habove : ∀ y ∈ r, k < y) : Increasing (l ++ k :: r) := by
  obtain ⟨hleft, hright, hacross⟩ := List.pairwise_append.mp hl
  refine List.pairwise_append.mpr ⟨hleft, List.pairwise_cons.mpr ⟨habove, hright⟩, ?_⟩
  intro y hy z hz
  rcases List.mem_cons.mp hz with rfl | hz
  · exact hbelow y hy
  · exact hacross y hy z hz

theorem Increasing.eraseIdx (hl : Increasing l) (i : Nat) : Increasing (l.eraseIdx i) :=
  List.Pairwise.sublist (List.eraseIdx_sublist l i) hl

/-- Removing a key from its position removes it from the list. -/
theorem Increasing.mem_eraseIdx (hl : Increasing l) (hi : l[i]? = some k) {x : α} :
    x ∈ l.eraseIdx i ↔ x ∈ l ∧ x ≠ k := by
  rw [List.mem_eraseIdx_iff_getElem?]
  constructor
  · rintro ⟨j, hne, hj⟩
    refine ⟨List.mem_of_getElem? hj, ?_⟩
    rintro rfl
    rcases Nat.lt_or_gt_of_ne hne with hlt | hlt
    · exact absurd (hl.lt hlt hj hi) (lt_irrefl x)
    · exact absurd (hl.lt hlt hi hj) (lt_irrefl x)
  · rintro ⟨hx, hne⟩
    obtain ⟨j, hj⟩ := List.mem_iff_getElem?.mp hx
    refine ⟨j, ?_, hj⟩
    rintro rfl
    exact hne (Option.some.inj (hj.symm.trans hi))

/-- The first element is the least. -/
theorem Increasing.head_le (hl : Increasing l) {x y : α} (hx : l[0]? = some x) (hy : y ∈ l) :
    x ≤ y := by
  obtain ⟨j, hj⟩ := List.mem_iff_getElem?.mp hy
  exact hl.le (Nat.zero_le j) hx hj

/-- The last element is the greatest. -/
theorem Increasing.le_last (hl : Increasing l) {x y : α} (hx : l[l.length - 1]? = some x)
    (hy : y ∈ l) : y ≤ x := by
  obtain ⟨j, hj⟩ := List.mem_iff_getElem?.mp hy
  have hlt := (List.getElem?_eq_some_iff.mp hj).1
  exact hl.le (by omega) hj hx

section Ends

variable {S : Finset α}

/-- The list has as many elements as the set. -/
theorem Increasing.length_eq (hl : Increasing l) (hS : ∀ x, x ∈ S ↔ x ∈ l) :
    l.length = S.card := by
  have hset : S = l.toFinset := by
    ext x
    rw [List.mem_toFinset, hS]
  rw [hset, List.toFinset_card_of_nodup hl.nodup]

/-- The list begins with the least element of the set. -/
theorem Increasing.head?_eq (hl : Increasing l) (hS : ∀ x, x ∈ S ↔ x ∈ l) :
    l.head? = if hne : S.Nonempty then some (S.min' hne) else none := by
  cases l with
  | nil =>
    rw [dif_neg]
    · rfl
    · rintro ⟨x, hx⟩
      exact List.not_mem_nil ((hS x).mp hx)
  | cons k ks =>
    have hk : k ∈ S := (hS k).mpr List.mem_cons_self
    rw [dif_pos ⟨k, hk⟩, List.head?_cons, Option.some.injEq]
    refine le_antisymm (Finset.le_min' _ _ _ fun y hy => ?_) (Finset.min'_le _ _ hk)
    rcases List.mem_cons.mp ((hS y).mp hy) with rfl | hy
    · exact le_rfl
    · exact ((List.pairwise_cons.mp hl).1 y hy).le

/-- The list ends with the greatest element of the set. -/
theorem Increasing.getLast?_eq (hl : Increasing l) (hS : ∀ x, x ∈ S ↔ x ∈ l) :
    l.getLast? = if hne : S.Nonempty then some (S.max' hne) else none := by
  rcases List.eq_nil_or_concat' l with rfl | ⟨ks, k, rfl⟩
  · rw [dif_neg]
    · rfl
    · rintro ⟨x, hx⟩
      exact List.not_mem_nil ((hS x).mp hx)
  · have hk : k ∈ S := (hS k).mpr (List.mem_append_right _ List.mem_cons_self)
    rw [dif_pos ⟨k, hk⟩, List.getLast?_concat, Option.some.injEq]
    refine le_antisymm (Finset.le_max' _ _ hk) (Finset.max'_le _ _ _ fun y hy => ?_)
    rcases List.mem_append.mp ((hS y).mp hy) with hy | hy
    · exact ((List.pairwise_append.mp hl).2.2 y hy k List.mem_cons_self).le
    · exact (List.mem_singleton.mp hy).le

end Ends

/-- From the place of `lo` on, up to where the keys exceed `hi`, stand the keys between. -/
theorem Increasing.sort_between (hl : Increasing l) {lo hi : α} {n : Nat} (h : Place l lo i)
    (hin : ∀ (j : Nat) x, i ≤ j → j < i + n → l[j]? = some x → x ≤ hi)
    (hout : ∀ x, l[i + n]? = some x → hi < x) :
    (l.drop i).take n = (l.toFinset.filter fun x => lo ≤ x ∧ x ≤ hi).sort (· ≤ ·) := by
  have hsub : ((l.drop i).take n).Sublist l :=
    (List.take_sublist n _).trans (List.drop_sublist i l)
  have hinc : Increasing ((l.drop i).take n) := List.Pairwise.sublist hsub hl
  have hset : (l.toFinset.filter fun x => lo ≤ x ∧ x ≤ hi) = ((l.drop i).take n).toFinset := by
    ext x
    rw [Finset.mem_filter, List.mem_toFinset, List.mem_toFinset]
    constructor
    · rintro ⟨hx, hlo, hhi⟩
      obtain ⟨j, hj⟩ := List.mem_iff_getElem?.mp hx
      have hij : i ≤ j := by
        by_contra hlt
        exact absurd (h.below j x (by omega) hj) (not_lt.mpr hlo)
      have hjn : j < i + n := by
        by_contra hge
        have hjlt := (List.getElem?_eq_some_iff.mp hj).1
        have hend : l[i + n]? = some l[i + n] := List.getElem?_eq_getElem (by omega)
        exact absurd ((hout _ hend).trans_le (hl.le (by omega) hend hj)) (not_lt.mpr hhi)
      refine List.mem_of_getElem? (i := j - i) ?_
      rw [List.getElem?_take_of_lt (by omega), List.getElem?_drop, Nat.add_sub_cancel' hij, hj]
    · intro hx
      obtain ⟨j, hj⟩ := List.mem_iff_getElem?.mp hx
      have hjn : j < n := by
        have hlt := (List.getElem?_eq_some_iff.mp hj).1
        rw [List.length_take] at hlt
        omega
      rw [List.getElem?_take_of_lt hjn, List.getElem?_drop] at hj
      exact ⟨List.mem_of_getElem? hj, h.above _ x (by omega) hj,
        hin _ x (by omega) (by omega) hj⟩
  rw [hset]
  exact ((List.toFinset_sort (· ≤ ·) hinc.nodup).mpr (hinc.imp le_of_lt)).symm

/-! ## Binary search -/

/-- The place of a key is between `lo` and `hi`. -/
structure Window (l : List α) (k : α) (lo hi : Nat) : Prop where
  le : lo ≤ hi
  fits : hi ≤ l.length
  below : ∀ (j : Nat) x, j < lo → l[j]? = some x → x < k
  above : ∀ (j : Nat) x, hi ≤ j → l[j]? = some x → k ≤ x

theorem Window.whole (l : List α) (k : α) : Window l k 0 l.length where
  le := Nat.zero_le _
  fits := le_rfl
  below j _ hj := absurd hj (Nat.not_lt_zero j)
  above _ _ hj hx := absurd (List.getElem?_eq_some_iff.mp hx).1 (Nat.not_lt.mpr hj)

variable {lo hi mid : Nat} {x : α}

/-- The element in the middle is less than the key. -/
theorem Window.upper (h : Window l k lo hi) (hl : Increasing l) (hmid : mid < hi)
    (hx : l[mid]? = some x) (hlt : x < k) : Window l k (mid + 1) hi where
  le := hmid
  fits := h.fits
  below _ _ hj hy := (hl.le (Nat.le_of_lt_succ hj) hy hx).trans_lt hlt
  above := h.above

/-- The element in the middle is not. -/
theorem Window.lower (h : Window l k lo hi) (hl : Increasing l) (hlo : lo ≤ mid) (hmid : mid < hi)
    (hx : l[mid]? = some x) (hge : k ≤ x) : Window l k lo mid where
  le := hlo
  fits := hmid.le.trans h.fits
  below := h.below
  above _ _ hj hy := hge.trans (hl.le hj hx hy)

theorem Window.place (h : Window l k i i) : Place l k i := ⟨h.fits, h.below, h.above⟩

end Vani.Library
