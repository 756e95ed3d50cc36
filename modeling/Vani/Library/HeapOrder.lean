import Mathlib.Order.Lattice
import Mathlib.Data.List.Basic

/-!
# Heap order

Lists over a linear order in which no element is less than its parent, the one at half its
position. Sifting moves one element out of order up or down by exchanges: the list is in
order but for that element, and the elements below it do not fall behind its own parent.
-/

set_option autoImplicit false

namespace Vani.Library

variable {α : Type} {l : List α} {x y : α} {i c : Nat}

/-- An exchange of two elements. -/
theorem getElem?_exchange (hi : i < l.length) (hc : c < l.length) (k : Nat) :
    ((l.set i y).set c x)[k]? = if k = c then some x else if k = i then some y else l[k]? := by
  rw [List.getElem?_set, List.length_set]
  by_cases hkc : k = c
  · rw [if_pos hkc.symm, if_pos hc, if_pos hkc]
  · rw [if_neg (Ne.symm hkc), if_neg hkc, List.getElem?_set]
    by_cases hki : k = i
    · rw [if_pos hki.symm, if_pos hi, if_pos hki]
    · rw [if_neg (Ne.symm hki), if_neg hki]

theorem exchange_perm (hx : l[i]? = some x) (hy : l[c]? = some y) :
    ((l.set i y).set c x).Perm l := by
  obtain ⟨hi, rfl⟩ := List.getElem?_eq_some_iff.mp hx
  obtain ⟨hc, rfl⟩ := List.getElem?_eq_some_iff.mp hy
  exact List.set_set_perm hi hc

/-! ## The order -/

variable [LinearOrder α]

/-- The element at a position is not less than its parent. -/
def OrderedAt (l : List α) (j : Nat) : Prop :=
  ∀ x y, l[(j - 1) / 2]? = some x → l[j]? = some y → x ≤ y

/-- No element is less than its parent. -/
def HeapOrdered (l : List α) : Prop := ∀ j, 0 < j → OrderedAt l j

/-- The children of a position are not less than its parent. -/
def Bridged (l : List α) (i : Nat) : Prop :=
  ∀ j x y, 0 < i → 0 < j → (j - 1) / 2 = i → l[(i - 1) / 2]? = some x → l[j]? = some y → x ≤ y

/-- In order but for an element that may be less than its parent. -/
structure UpOrdered (l : List α) (i : Nat) : Prop where
  order : ∀ j, 0 < j → j ≠ i → OrderedAt l j
  bridge : Bridged l i

/-- In order but for an element that may be greater than its children. -/
structure DownOrdered (l : List α) (i : Nat) : Prop where
  order : ∀ j, 0 < j → (j - 1) / 2 ≠ i → OrderedAt l j
  bridge : Bridged l i

/-- No child of a position from `m` on is less than its parent. -/
def OrderedFrom (l : List α) (m : Nat) : Prop := ∀ j, 0 < j → m ≤ (j - 1) / 2 → OrderedAt l j

/-- In order from `m` on but for an element that may be greater than its children. -/
structure DownOrderedFrom (l : List α) (m i : Nat) : Prop where
  order : ∀ j, 0 < j → m ≤ (j - 1) / 2 → (j - 1) / 2 ≠ i → OrderedAt l j
  bridge : m ≤ (i - 1) / 2 → Bridged l i

theorem HeapOrdered.nil : HeapOrdered ([] : List α) := by
  intro j _ x y hx _
  rw [List.getElem?_nil] at hx
  cases hx

/-- The first element is the least. -/
theorem HeapOrdered.root_le (h : HeapOrdered l) (hx : l[0]? = some x) (hy : y ∈ l) : x ≤ y := by
  obtain ⟨j, hj⟩ := List.mem_iff_getElem?.mp hy
  clear hy
  induction j using Nat.strongRecOn generalizing y with
  | ind j ih =>
    by_cases hzero : j = 0
    · subst hzero
      rw [hx] at hj
      exact (Option.some.inj hj).le
    · have hlt := (List.getElem?_eq_some_iff.mp hj).1
      have hparent : l[(j - 1) / 2]? = some l[(j - 1) / 2] :=
        List.getElem?_eq_getElem (by omega)
      have habove := ih ((j - 1) / 2) (by omega) hparent
      exact habove.trans (h j (by omega) _ _ hparent hj)

/-! ## Up -/

/-- An element behind the last may be less than its parent. -/
theorem HeapOrdered.append (h : HeapOrdered l) (x : α) : UpOrdered (l ++ [x]) l.length where
  order j hpos hne := by
    intro a b ha hb
    have hlt := (List.getElem?_eq_some_iff.mp hb).1
    rw [List.length_append, List.length_singleton] at hlt
    rw [List.getElem?_append_left (by omega)] at ha hb
    exact h j hpos a b ha hb
  bridge := by
    intro j a b hpos hj hparent ha hb
    have hlt := (List.getElem?_eq_some_iff.mp hb).1
    rw [List.length_append, List.length_singleton] at hlt
    omega

/-- An element less than its parent changes places with it. -/
theorem UpOrdered.move (h : UpOrdered l i) (hpos : 0 < i) (hx : l[i]? = some x)
    (hy : l[(i - 1) / 2]? = some y) (hxy : x < y) :
    UpOrdered ((l.set i y).set ((i - 1) / 2) x) ((i - 1) / 2) := by
  have hi := (List.getElem?_eq_some_iff.mp hx).1
  have hp := (List.getElem?_eq_some_iff.mp hy).1
  have hget := getElem?_exchange (x := x) (y := y) hi hp
  -- what stood at the parent is not greater than the parent's other child
  have hother : ∀ j b, 0 < j → j ≠ i → (j - 1) / 2 = (i - 1) / 2 → l[j]? = some b → y ≤ b := by
    intro j b hj hne hparent hb
    exact h.order j hj hne y b (hparent ▸ hy) hb
  constructor
  · intro j hj hne a b ha hb
    rw [hget] at ha hb
    rw [if_neg hne] at hb
    by_cases hji : j = i
    · subst hji
      rw [if_pos rfl] at ha hb
      cases ha
      cases hb
      exact hxy.le
    · rw [if_neg hji] at hb
      by_cases hqp : (j - 1) / 2 = (i - 1) / 2
      · rw [if_pos hqp] at ha
        cases ha
        exact hxy.le.trans (hother j b hj hji hqp hb)
      · rw [if_neg hqp] at ha
        by_cases hqi : (j - 1) / 2 = i
        · rw [if_pos hqi] at ha
          cases ha
          exact h.bridge j y b hpos hj hqi hy hb
        · rw [if_neg hqi] at ha
          exact h.order j hj hji a b ha hb
  · intro j a b hppos hj hparent ha hb
    rw [hget, if_neg (by omega), if_neg (by omega)] at ha
    have hay : a ≤ y := h.order _ hppos (by omega) a y ha hy
    rw [hget, if_neg (by omega)] at hb
    by_cases hji : j = i
    · rw [if_pos hji] at hb
      cases hb
      exact hay
    · rw [if_neg hji] at hb
      exact hay.trans (hother j b hj hji hparent hb)

/-- An element that is not less than its parent is in order. -/
theorem UpOrdered.done (h : UpOrdered l i) (hi : 0 < i → OrderedAt l i) : HeapOrdered l := by
  intro j hj
  by_cases hji : j = i
  · subst hji
    exact hi hj
  · exact h.order j hj hji

/-! ## Down -/

/-- Another element in the first place may be greater than its children. -/
theorem HeapOrdered.replaceRoot (h : HeapOrdered l) (x : α) : DownOrdered (l.set 0 x) 0 where
  order j hj hparent := by
    intro a b ha hb
    rw [List.getElem?_set_ne (by omega)] at ha hb
    exact h j hj a b ha hb
  bridge _ _ _ hpos := absurd hpos (Nat.lt_irrefl 0)

/-- The list without its last element. -/
theorem HeapOrdered.dropLast (h : HeapOrdered l) : HeapOrdered l.dropLast := by
  intro j hj a b ha hb
  rw [List.dropLast_eq_take] at ha hb
  have hlt := (List.getElem?_eq_some_iff.mp hb).1
  rw [List.length_take] at hlt
  rw [List.getElem?_take_of_lt (by omega)] at ha hb
  exact h j hj a b ha hb

/-- An element greater than its least child changes places with it. -/
theorem DownOrderedFrom.move {m : Nat} (h : DownOrderedFrom l m i) (hm : m ≤ i) (hc : 0 < c)
    (hparent : (c - 1) / 2 = i) (hx : l[i]? = some x) (hy : l[c]? = some y) (hyx : y < x)
    (hleast : ∀ j b, 0 < j → (j - 1) / 2 = i → l[j]? = some b → y ≤ b) :
    DownOrderedFrom ((l.set i y).set c x) m c := by
  have hi := (List.getElem?_eq_some_iff.mp hx).1
  have hclt := (List.getElem?_eq_some_iff.mp hy).1
  have hget := getElem?_exchange (x := x) (y := y) hi hclt
  constructor
  · intro j hj hfrom hne a b ha hb
    rw [hget] at ha hb
    rw [if_neg hne] at ha
    by_cases hjc : j = c
    · subst hjc
      rw [if_pos hparent] at ha
      rw [if_pos rfl] at hb
      cases ha
      cases hb
      exact hyx.le
    · rw [if_neg hjc] at hb
      by_cases hji : j = i
      · subst hji
        rw [if_neg (by omega)] at ha
        rw [if_pos rfl] at hb
        cases hb
        exact h.bridge hfrom c a _ hj hc hparent ha hy
      · rw [if_neg hji] at hb
        by_cases hqi : (j - 1) / 2 = i
        · rw [if_pos hqi] at ha
          cases ha
          exact hleast j b hj hqi hb
        · rw [if_neg hqi] at ha
          exact h.order j hj hfrom hqi a b ha hb
  · intro hfrom j a b _ hj hjc ha hb
    rw [hparent, hget, if_neg (by omega), if_pos rfl] at ha
    rw [hget, if_neg (by omega), if_neg (by omega)] at hb
    cases ha
    exact h.order j hj (by omega) (by omega) _ b (hjc ▸ hy) hb

/-- An element that is not greater than its children is in order. -/
theorem DownOrderedFrom.done {m : Nat} (h : DownOrderedFrom l m i)
    (hi : ∀ j, 0 < j → (j - 1) / 2 = i → OrderedAt l j) : OrderedFrom l m := by
  intro j hj hfrom
  by_cases hji : (j - 1) / 2 = i
  · exact hi j hj hji
  · exact h.order j hj hfrom hji

/-- The whole list is in order but for an element. -/
theorem DownOrdered.fromZero (h : DownOrdered l i) : DownOrderedFrom l 0 i :=
  ⟨fun j hj _ => h.order j hj, fun _ => h.bridge⟩

/-- A list in order from its first position on is in order. -/
theorem OrderedFrom.heapOrdered (h : OrderedFrom l 0) : HeapOrdered l :=
  fun j hj => h j hj (Nat.zero_le _)

/-- The position before those in order may be greater than its children. -/
theorem OrderedFrom.extend {m : Nat} (h : OrderedFrom l (m + 1)) : DownOrderedFrom l m m where
  order j hj hfrom hne := h j hj (by omega)
  bridge hfrom j _ _ hpos := by omega

/-- No position of the second half has a child. -/
theorem orderedFrom_half (l : List α) : OrderedFrom l (l.length / 2) := by
  intro j hj hfrom x y _ hy
  have hlt := (List.getElem?_eq_some_iff.mp hy).1
  omega

end Vani.Library
