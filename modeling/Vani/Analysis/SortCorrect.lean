import Vani.Backend.Sorting
import Vani.Library.Rearrangement
import Vani.Analysis.VecRefines

/-!
# The sort sorts, and stays inside its buffer

The scans of the partition do not look at the ends of the segment. The first scans stop at the
pivot, if it compares equal to itself; each later scan stops at the latest where the exchange
before it put an element. So the sort stays inside the buffer for every comparator that finds
each element equal to itself, whatever else it answers, and for no other. The parts a partition
leaves are bounded by the pivot, and so they are sorted together when each is.
-/

set_option autoImplicit false

namespace Vani.Analysis

open Vani.Library Vani.Backend Vani.Backend.Sorting

/-- The comparator is a total preorder, `x` not after `y` when the answer is not positive; the
sign of the answer says which comes first. -/
structure TotalPreorder (cmp : Comparator) : Prop where
  sign : ∀ x y, cmp x y < 0 ↔ 0 < cmp y x
  trans : ∀ x y z, cmp x y ≤ 0 → cmp y z ≤ 0 → cmp x z ≤ 0

namespace TotalPreorder

variable {cmp : Comparator}

theorem refl (h : TotalPreorder cmp) (x : Int64) : cmp x x = 0 := by
  rcases lt_trichotomy (cmp x x) 0 with hlt | heq | hgt
  · exact absurd hlt (lt_asymm ((h.sign x x).1 hlt))
  · exact heq
  · exact absurd hgt (lt_asymm ((h.sign x x).2 hgt))

/-- What is not after comes before or beside. -/
theorem le_of_not_lt (h : TotalPreorder cmp) {x y : Int64} (hxy : ¬ cmp y x < 0) : cmp x y ≤ 0 :=
  not_lt.1 fun hgt => hxy ((h.sign y x).2 hgt)

end TotalPreorder

/-! ## Cells -/

/-- The element in a cell. -/
def cell (a : Buffer) (k : Int) : Int64 := (a[k.toNat]?.join).getD 0

/-- The cells from `lo` to `hi` hold elements. -/
def Written (a : Buffer) (lo hi : Int) : Prop :=
  ∀ k, lo ≤ k → k ≤ hi → ∃ x, a[k.toNat]? = some (some x)

/-- The elements from `lo` to `hi` are in order. -/
def SortedOn (cmp : Comparator) (a : Buffer) (lo hi : Int) : Prop :=
  ∀ k l, lo ≤ k → k < l → l ≤ hi → cmp (cell a k) (cell a l) ≤ 0

variable {cmp : Comparator} {a b c : Buffer} {lo hi k : Int} {x p : Int64}

theorem cell_congr (h : b[k.toNat]? = a[k.toNat]?) : cell b k = cell a k := by
  unfold cell
  rw [h]

theorem SortedOn.congr (h : SortedOn cmp a lo hi)
    (heq : ∀ k, lo ≤ k → k ≤ hi → b[k.toNat]? = a[k.toNat]?) : SortedOn cmp b lo hi := by
  intro k l hk hkl hl
  rw [cell_congr (heq k hk (by omega)), cell_congr (heq l (by omega) hl)]
  exact h k l hk hkl hl

theorem load_ok (hw : Written a lo hi) (h0 : 0 ≤ lo) (hlo : lo ≤ k) (hhi : k ≤ hi) :
    load a k = .done (cell a k) := by
  obtain ⟨x, hx⟩ := hw k hlo hhi
  unfold load cell Vec.load
  rw [if_pos (by omega), Outcome.read_of_getElem? hx, Outcome.done_bind, hx]
  rfl

theorem store_ok (h0 : 0 ≤ k) (hk : k < a.size) (x : Int64) :
    store a k x = .done (a.setIfInBounds k.toNat (some x)) := by
  unfold store
  rw [if_pos h0, Outcome.write_of_lt (by omega)]

theorem getElem?_set_same (h0 : 0 ≤ k) (hk : k < a.size) (x : Int64) :
    (a.setIfInBounds k.toNat (some x))[k.toNat]? = some (some x) :=
  Array.getElem?_setIfInBounds_self_of_lt (by omega)

theorem getElem?_set_other {m : Nat} (hm : k.toNat ≠ m) (x : Int64) :
    (a.setIfInBounds k.toNat (some x))[m]? = a[m]? :=
  Array.getElem?_setIfInBounds_ne hm

/-- A segment that was written still is. -/
theorem Written.rearranged (hw : Written a lo hi) (h0 : 0 ≤ lo)
    (h : Rearranged a b lo.toNat hi.toNat) : Written b lo hi := by
  intro k hlo hhi
  refine h.bound (P := fun o => ∃ x, o = some (some x)) ?_ k.toNat (by omega) (by omega)
  intro m hmlo hmhi
  simpa using hw m (by omega) (by omega)

theorem Written.mono {lo' hi' : Int} (hw : Written a lo hi) (hlo : lo ≤ lo') (hhi : hi' ≤ hi) :
    Written a lo' hi' := fun k h₁ h₂ => hw k (by omega) (by omega)

/-- What holds of every element of a segment still does. -/
theorem bound_rearranged {P : Int64 → Prop} (h : Rearranged a b lo.toNat hi.toNat) (h0 : 0 ≤ lo)
    (hP : ∀ k, lo ≤ k → k ≤ hi → P (cell a k)) (k : Int) (hlo : lo ≤ k) (hhi : k ≤ hi) :
    P (cell b k) := by
  refine h.bound (P := fun o => P (o.join.getD 0)) ?_ k.toNat (by omega) (by omega)
  intro m hmlo hmhi
  have hm := hP m (by omega) (by omega)
  unfold cell at hm
  rwa [Int.toNat_natCast] at hm

/-! ## The insertion sort -/

/-- The elements after `j` that were moved up by one, and what is where: with the key at
`j + 1` the segment is rearranged. -/
structure Shifted (cmp : Comparator) (a : Buffer) (lo i : Int) (key : Int64) (x : Buffer × Int) :
    Prop where
  ge : lo - 1 ≤ x.2
  lt : x.2 < i
  rearranged : Rearranged a (x.1.setIfInBounds (x.2 + 1).toNat (some key)) lo.toNat i.toNat
  low : ∀ k, k ≤ x.2 → x.1[k.toNat]? = a[k.toNat]?
  high : ∀ k, x.2 + 1 < k → k ≤ i → x.1[k.toNat]? = a[(k - 1).toNat]?
  above : ∀ k, x.2 < k → k < i → 0 < cmp (cell a k) key

namespace Shifted

variable {i j : Int} {key : Int64}

theorem size (h : Shifted cmp a lo i key (b, j)) : b.size = a.size := by
  simpa using h.rearranged.size

/-- One more element is moved up. -/
theorem step (h : Shifted cmp a lo i key (b, j)) (h0 : 0 ≤ lo) (hsize : i < a.size)
    (hj : lo ≤ j) (hgt : 0 < cmp (cell a j) key) (hx : a[j.toNat]? = some (some x)) :
    Shifted cmp a lo i key (b.setIfInBounds (j + 1).toNat (some x), j - 1) := by
  have hlt : j < i := h.lt
  have hbsize := h.size
  have hbj : b[j.toNat]? = some (some x) := (h.low j le_rfl).trans hx
  have hset : ∀ y : Int64, (b.setIfInBounds (j + 1).toNat (some y))[(j + 1).toNat]? =
      some (some y) := fun y => getElem?_set_same (by omega) (by omega) y
  have hkeep : ∀ (m : Nat) (y : Int64), m ≠ (j + 1).toNat →
      (b.setIfInBounds (j + 1).toNat (some y))[m]? = b[m]? :=
    fun m y hm => getElem?_set_other (Ne.symm hm) y
  refine ⟨by simp only; omega, by simp only; omega, ?_, ?_, ?_, ?_⟩
  · refine h.rearranged.trans ?_
    have hkey : ((b.setIfInBounds (j + 1).toNat (some x)).setIfInBounds j.toNat
        (some key))[j.toNat]? = some (some key) := by
      apply Array.getElem?_setIfInBounds_self_of_lt
      rw [Array.size_setIfInBounds]
      omega
    have hrest : ∀ m, m ≠ j.toNat → ((b.setIfInBounds (j + 1).toNat (some x)).setIfInBounds
        j.toNat (some key))[m]? = (b.setIfInBounds (j + 1).toNat (some x))[m]? :=
      fun m hm => Array.getElem?_setIfInBounds_ne (Ne.symm hm)
    simp only [Int.sub_add_cancel]
    refine Rearranged.of_swap (i := j.toNat) (j := (j + 1).toNat) (by simp) ?_ ?_ ?_ (by omega)
      (by omega) (by omega) (by omega)
    · rw [hkey, hset]
    · rw [hrest _ (by omega), hset, hkeep _ _ (by omega), hbj]
    · intro m hm₁ hm₂
      rw [hrest m hm₁, hkeep m _ hm₂, hkeep m _ hm₂]
  · intro k hk
    simp only at hk ⊢
    rw [hkeep _ _ (by omega)]
    exact h.low k (show k ≤ j by omega)
  · intro k hk hki
    simp only at hk ⊢
    by_cases hkj : k = j + 1
    · rw [hkj, hset, Int.add_sub_cancel, hx]
    · rw [hkeep _ _ (by omega)]
      exact h.high k (show j + 1 < k by omega) hki
  · intro k hk hki
    by_cases hkj : k = j
    · rw [hkj]
      exact hgt
    · simp only at hk
      exact h.above k (show j < k by omega) hki

/-- With the key in its place the elements are in order. -/
theorem sorted (h : Shifted cmp a lo i key (b, j)) (hcmp : TotalPreorder cmp) (h0 : 0 ≤ lo)
    (hsize : i < a.size) (hstop : j < lo ∨ ¬ 0 < cmp (cell a j) key)
    (hsorted : SortedOn cmp a lo (i - 1)) :
    SortedOn cmp (b.setIfInBounds (j + 1).toNat (some key)) lo i := by
  have hge : lo - 1 ≤ j := h.ge
  have hlt : j < i := h.lt
  have hbsize := h.size
  have hkey : cell (b.setIfInBounds (j + 1).toNat (some key)) (j + 1) = key := by
    unfold cell
    rw [getElem?_set_same (by omega) (by omega)]
    rfl
  have hlow : ∀ k, lo ≤ k → k ≤ j →
      cell (b.setIfInBounds (j + 1).toNat (some key)) k = cell a k := by
    intro k hk hkj
    apply cell_congr
    rw [getElem?_set_other (by omega)]
    exact h.low k hkj
  have hhigh : ∀ k, j + 1 < k → k ≤ i →
      cell (b.setIfInBounds (j + 1).toNat (some key)) k = cell a (k - 1) := by
    intro k hk hki
    unfold cell
    rw [getElem?_set_other (by omega), h.high k hk hki]
  have hbelow : ∀ k, lo ≤ k → k ≤ j → cmp (cell a k) key ≤ 0 := by
    intro k hk hkj
    rcases hstop with hnone | hstop
    · omega
    · by_cases hkj' : k = j
      · exact hkj' ▸ not_lt.1 hstop
      · exact hcmp.trans _ _ _ (hsorted k j hk (by omega) (by omega)) (not_lt.1 hstop)
  have habove : ∀ k, j < k → k < i → cmp key (cell a k) ≤ 0 := fun k hk hki =>
    le_of_lt ((hcmp.sign _ _).2 (h.above k hk hki))
  intro k l hk hkl hl
  rcases lt_trichotomy l (j + 1) with hlj | rfl | hlj
  · rw [hlow k hk (by omega), hlow l (by omega) (by omega)]
    exact hsorted k l hk hkl (by omega)
  · rw [hkey, hlow k hk (by omega)]
    exact hbelow k hk (by omega)
  · rw [hhigh l hlj hl]
    rcases lt_trichotomy k (j + 1) with hkj | rfl | hkj
    · rw [hlow k hk (by omega)]
      exact hsorted k (l - 1) hk (by omega) (by omega)
    · rw [hkey]
      exact habove (l - 1) (by omega) (by omega)
    · rw [hhigh k hkj (by omega)]
      exact hsorted (k - 1) (l - 1) (by omega) (by omega) (by omega)

/-- One turn moves up one more element, or ends at one that is not above the key. -/
theorem turn {y : Buffer × Int} (h : Shifted cmp a lo i key y) (hw : Written a lo i) (h0 : 0 ≤ lo)
    (hsize : i < a.size) :
    (∃ y', shiftTurn cmp lo key y = .done (.inl y') ∧ Shifted cmp a lo i key y' ∧
      (y'.2 + 1 - lo).toNat < (y.2 + 1 - lo).toNat) ∨
    ∃ r, shiftTurn cmp lo key y = .done (.inr r) ∧ Shifted cmp a lo i key r ∧
      (r.2 < lo ∨ ¬ 0 < cmp (cell a r.2) key) := by
  obtain ⟨b, j⟩ := y
  have hbsize := h.size
  have hji : j < i := h.lt
  by_cases hj : lo ≤ j
  · obtain ⟨x, hx⟩ := hw j hj (by omega)
    have hbj : b[j.toNat]? = some (some x) := (h.low j le_rfl).trans hx
    have hcell : cell a j = x := by
      unfold cell
      rw [hx]
      rfl
    have hload : load b j = .done x := by
      unfold load Vec.load
      rw [if_pos (by omega), Outcome.read_of_getElem? hbj]
      rfl
    by_cases hgt : 0 < cmp x key
    · refine Or.inl ⟨_, ?_, h.step h0 hsize hj (hcell ▸ hgt) hx, ?_⟩
      · simp only [shiftTurn, if_pos hj, hload, Outcome.done_bind, if_pos hgt,
          store_ok (a := b) (k := j + 1) (by omega) (by omega), Outcome.pure_eq]
      · simp only
        omega
    · refine Or.inr ⟨(b, j), ?_, h, Or.inr (hcell ▸ hgt)⟩
      simp only [shiftTurn, if_pos hj, hload, Outcome.done_bind, if_neg hgt, Outcome.pure_eq]
  · refine Or.inr ⟨(b, j), ?_, h, Or.inl (by simp only; omega)⟩
    simp only [shiftTurn, if_neg hj, Outcome.pure_eq]

end Shifted

variable (cmp) in
/-- An element is put to its place. -/
theorem insertAt_ok {i : Int} (hw : Written a lo i) (h0 : 0 ≤ lo) (hlo : lo < i)
    (hsize : i < a.size) :
    ∃ a', insertAt cmp lo i a = .done a' ∧ Rearranged a a' lo.toNat i.toNat ∧
      (TotalPreorder cmp → SortedOn cmp a lo (i - 1) → SortedOn cmp a' lo i) := by
  have hkey : a[i.toNat]? = some (some (cell a i)) := by
    obtain ⟨x, hx⟩ := hw i (by omega) le_rfl
    unfold cell
    rw [hx]
    rfl
  have hstart : Shifted cmp a lo i (cell a i) (a, i - 1) := by
    refine ⟨by simp only; omega, by simp only; omega, ?_, fun _ _ => rfl, ?_, ?_⟩
    · refine ⟨by simp, Equiv.refl Nat, fun _ _ => rfl, fun k => ?_⟩
      simp only [Int.sub_add_cancel]
      by_cases hk : i.toNat = k
      · rw [← hk, getElem?_set_same (by omega) (by omega), Equiv.refl_apply, hkey]
      · rw [getElem?_set_other hk]
        rfl
    · intro k hk hki
      simp only at hk
      omega
    · intro k hk hki
      simp only at hk
      omega
  have hloop : ∃ x, Outcome.loop (shiftTurn cmp lo (cell a i)) (a.size + 2) (a, i - 1) = .done x ∧
      Shifted cmp a lo i (cell a i) x ∧ (x.2 < lo ∨ ¬ 0 < cmp (cell a x.2) (cell a i)) :=
    Outcome.loop_of_measure (Shifted cmp a lo i (cell a i)) (fun x => (x.2 + 1 - lo).toNat)
      (by simp only; omega) hstart fun _ h => h.turn hw h0 hsize
  obtain ⟨⟨b, j⟩, hrun, hshift, hstop⟩ := hloop
  have hge : lo - 1 ≤ j := hshift.ge
  have hlt : j < i := hshift.lt
  have hbsize := hshift.size
  refine ⟨_, ?_, hshift.rearranged, fun hcmp hsorted =>
    hshift.sorted hcmp h0 hsize hstop hsorted⟩
  simp only [insertAt, load_ok hw h0 (le_of_lt hlo) le_rfl, Outcome.done_bind, hrun]
  exact store_ok (by omega) (by omega) _

variable (cmp) in
/-- The insertion sort sorts its segment. -/
theorem insertionSort_ok (hw : Written a lo hi) (h0 : 0 ≤ lo) (hlo : lo ≤ hi)
    (hsize : hi < a.size) :
    ∃ a', insertionSort cmp a lo hi = .done a' ∧ Rearranged a a' lo.toNat hi.toNat ∧
      (TotalPreorder cmp → SortedOn cmp a' lo hi) := by
  obtain ⟨a', hrun, hre, hsorted⟩ := Outcome.forRange_of_step
    (f := fun k a => insertAt cmp lo (lo + 1 + k) a) (n := (hi - lo).toNat)
    (P := fun n b => Rearranged a b lo.toNat hi.toNat ∧
      (TotalPreorder cmp → SortedOn cmp b lo (lo + n)))
    ⟨Rearranged.refl a _ _, fun _ k l hk hkl hl => by omega⟩
    (by
      rintro n b hn ⟨hre, hsorted⟩
      have hbsize := hre.size
      have hwb : Written b lo (lo + 1 + n) := (hw.rearranged h0 hre).mono le_rfl (by omega)
      obtain ⟨b', hrun, hre', hsorted'⟩ := insertAt_ok cmp hwb h0 (by omega) (by omega)
      refine ⟨b', hrun, hre.trans (hre'.widen le_rfl (by omega)), fun hcmp => ?_⟩
      have hprev : SortedOn cmp b lo (lo + 1 + n - 1) := by
        have hidx : lo + 1 + (n : Int) - 1 = lo + n := by omega
        rw [hidx]
        exact hsorted hcmp
      have hidx : lo + ((n + 1 : Nat) : Int) = lo + 1 + n := by omega
      rw [hidx]
      exact hsorted' hcmp hprev)
  refine ⟨a', hrun, hre, fun hcmp => ?_⟩
  have hidx : lo + ((hi - lo).toNat : Int) = hi := by omega
  have hall := hsorted hcmp
  rwa [hidx] at hall

/-! ## The partition -/

variable (cmp) in
/-- A scan upwards ends where it must stop at the latest. -/
theorem scanUp_ok {i s : Int} (hw : Written a lo hi) (h0 : 0 ≤ lo) (hsize : hi < a.size)
    (hlo : lo ≤ i + 1) (his : i < s) (hs : s ≤ hi) (hstop : ¬ cmp (cell a s) p < 0) :
    ∃ i', scanUp cmp a p i = .done i' ∧ i < i' ∧ i' ≤ s ∧ ¬ cmp (cell a i') p < 0 ∧
      ∀ k, i < k → k < i' → cmp (cell a k) p < 0 := by
  refine Outcome.loop_of_measure
    (P := fun i' => i < i' ∧ i' ≤ s ∧ ¬ cmp (cell a i') p < 0 ∧
      ∀ k, i < k → k < i' → cmp (cell a k) p < 0)
    (fun x => i ≤ x ∧ x < s ∧ ∀ k, i < k → k ≤ x → cmp (cell a k) p < 0)
    (fun x => (s - x).toNat) (by omega) ⟨le_rfl, his, fun k h₁ h₂ => by omega⟩ ?_
  rintro x ⟨hix, hxs, hpassed⟩
  have hload : load a (x + 1) = .done (cell a (x + 1)) := load_ok hw h0 (by omega) (by omega)
  by_cases hlt : cmp (cell a (x + 1)) p < 0
  · have hne : x + 1 ≠ s := by
      rintro rfl
      exact hstop hlt
    refine Or.inl ⟨x + 1, ?_, ⟨by omega, by omega, fun k h₁ h₂ => ?_⟩, by omega⟩
    · simp only [hload, Outcome.done_bind, if_pos hlt, Outcome.pure_eq]
    · by_cases hk : k = x + 1
      · rw [hk]
        exact hlt
      · exact hpassed k h₁ (by omega)
  · refine Or.inr ⟨x + 1, ?_, by omega, by omega, hlt, fun k h₁ h₂ => hpassed k h₁ (by omega)⟩
    simp only [hload, Outcome.done_bind, if_neg hlt, Outcome.pure_eq]

variable (cmp) in
/-- A scan downwards ends where it must stop at the latest. -/
theorem scanDown_ok {j t : Int} (hw : Written a lo hi) (h0 : 0 ≤ lo) (hsize : hi < a.size)
    (hhi : j ≤ hi + 1) (htj : t < j) (ht : lo ≤ t) (hstop : ¬ 0 < cmp (cell a t) p) :
    ∃ j', scanDown cmp a p j = .done j' ∧ j' < j ∧ t ≤ j' ∧ ¬ 0 < cmp (cell a j') p ∧
      ∀ k, j' < k → k < j → 0 < cmp (cell a k) p := by
  refine Outcome.loop_of_measure
    (P := fun j' => j' < j ∧ t ≤ j' ∧ ¬ 0 < cmp (cell a j') p ∧
      ∀ k, j' < k → k < j → 0 < cmp (cell a k) p)
    (fun x => x ≤ j ∧ t < x ∧ ∀ k, x ≤ k → k < j → 0 < cmp (cell a k) p)
    (fun x => (x - t).toNat) (by omega) ⟨le_rfl, htj, fun k h₁ h₂ => by omega⟩ ?_
  rintro x ⟨hxj, htx, hpassed⟩
  have hload : load a (x - 1) = .done (cell a (x - 1)) := load_ok hw h0 (by omega) (by omega)
  by_cases hgt : 0 < cmp (cell a (x - 1)) p
  · have hne : x - 1 ≠ t := by
      rintro rfl
      exact hstop hgt
    refine Or.inl ⟨x - 1, ?_, ⟨by omega, by omega, fun k h₁ h₂ => ?_⟩, by omega⟩
    · simp only [hload, Outcome.done_bind, if_pos hgt, Outcome.pure_eq]
    · by_cases hk : k = x - 1
      · rw [hk]
        exact hgt
      · exact hpassed k (by omega) h₂
  · refine Or.inr ⟨x - 1, ?_, by omega, by omega, hgt, fun k h₁ h₂ => hpassed k (by omega) h₂⟩
    simp only [hload, Outcome.done_bind, if_neg hgt, Outcome.pure_eq]

/-- Two elements change places. -/
theorem sortExchange_ok {i j : Int} (hw : Written a lo hi) (h0 : 0 ≤ lo) (hsize : hi < a.size)
    (hi₁ : lo ≤ i) (hij : i < j) (hj : j ≤ hi) :
    ∃ a', Sorting.exchange a i j = .done a' ∧ Rearranged a a' lo.toNat hi.toNat ∧
      cell a' i = cell a j ∧ cell a' j = cell a i ∧
      ∀ k, 0 ≤ k → k ≠ i → k ≠ j → cell a' k = cell a k := by
  obtain ⟨x, hx⟩ := hw i hi₁ (by omega)
  obtain ⟨y, hy⟩ := hw j (by omega) hj
  have hcx : cell a i = x := by
    unfold cell
    rw [hx]
    rfl
  have hcy : cell a j = y := by
    unfold cell
    rw [hy]
    rfl
  have hatj : ((a.setIfInBounds i.toNat (some y)).setIfInBounds j.toNat (some x))[j.toNat]? =
      some (some x) := by
    apply Array.getElem?_setIfInBounds_self_of_lt
    rw [Array.size_setIfInBounds]
    omega
  have hother : ∀ m, m ≠ j.toNat → ((a.setIfInBounds i.toNat (some y)).setIfInBounds j.toNat
      (some x))[m]? = (a.setIfInBounds i.toNat (some y))[m]? :=
    fun m hm => Array.getElem?_setIfInBounds_ne (Ne.symm hm)
  have hati : ((a.setIfInBounds i.toNat (some y)).setIfInBounds j.toNat (some x))[i.toNat]? =
      some (some y) := by
    rw [hother _ (by omega), getElem?_set_same (by omega) (by omega)]
  have hrest : ∀ m, m ≠ i.toNat → m ≠ j.toNat → ((a.setIfInBounds i.toNat
      (some y)).setIfInBounds j.toNat (some x))[m]? = a[m]? := by
    intro m hmi hmj
    rw [hother m hmj, getElem?_set_other (Ne.symm hmi)]
  refine ⟨_, ?_, Rearranged.of_swap (i := i.toNat) (j := j.toNat) (by simp) (hati.trans hy.symm)
    (hatj.trans hx.symm) hrest (by omega) (by omega) (by omega) (by omega), ?_, ?_, ?_⟩
  · have hset : load a j = .done y := hcy ▸ load_ok hw h0 (by omega) hj
    have hget : load a i = .done x := hcx ▸ load_ok hw h0 hi₁ (by omega)
    simp only [Sorting.exchange, hget, hset, Outcome.done_bind,
      store_ok (a := a) (k := i) (by omega) (by omega)]
    exact store_ok (by omega) (by rw [Array.size_setIfInBounds]; omega) x
  · rw [hcy]
    unfold cell
    rw [hati]
    rfl
  · rw [hcx]
    unfold cell
    rw [hatj]
    rfl
  · intro k hk hki hkj
    exact cell_congr (hrest _ (by omega) (by omega))

/-- Before a turn of the partition: what both scans have passed, and where each must stop. -/
structure Parting (cmp : Comparator) (p : Int64) (a : Buffer) (lo hi : Int)
    (x : Buffer × Int × Int) : Prop where
  rearranged : Rearranged a x.1 lo.toNat hi.toNat
  below : lo - 1 ≤ x.2.1
  ordered : x.2.1 < x.2.2
  above : x.2.2 ≤ hi + 1
  low : ∀ k, lo ≤ k → k ≤ x.2.1 → ¬ 0 < cmp (cell x.1 k) p
  high : ∀ k, x.2.2 ≤ k → k ≤ hi → ¬ cmp (cell x.1 k) p < 0
  stops : ∃ s t, x.2.1 < s ∧ s ≤ hi ∧ ¬ cmp (cell x.1 s) p < 0 ∧ lo ≤ t ∧ t < x.2.2 ∧
    ¬ 0 < cmp (cell x.1 t) p ∧ (s = t ∧ s < hi ∨ x.2.2 ≤ hi)

/-- What a partition leaves. -/
structure Parted (cmp : Comparator) (p : Int64) (a : Buffer) (lo hi : Int) (x : Buffer × Int) :
    Prop where
  rearranged : Rearranged a x.1 lo.toNat hi.toNat
  ge : lo ≤ x.2
  lt : x.2 < hi
  left : ∀ k, lo ≤ k → k ≤ x.2 → ¬ 0 < cmp (cell x.1 k) p
  right : ∀ k, x.2 < k → k ≤ hi → ¬ cmp (cell x.1 k) p < 0

/-- One turn of the partition. -/
theorem Parting.turn {i j : Int} (h : Parting cmp p a lo hi (b, i, j)) (hw : Written a lo hi)
    (h0 : 0 ≤ lo) (hsize : hi < a.size) :
    (∃ x, partitionTurn cmp p (b, i, j) = .done (.inl x) ∧ Parting cmp p a lo hi x ∧
      x.2.2 - x.2.1 < j - i) ∨
    ∃ x, partitionTurn cmp p (b, i, j) = .done (.inr x) ∧ Parted cmp p a lo hi x := by
  obtain ⟨hre, hbelow, hordered, habove, hlow, hhigh, s, t, his, hs, hstop, ht, htj, hstop',
    hfirst⟩ := h
  simp only at hre hbelow hordered habove hlow hhigh his htj hstop hstop' hfirst
  have hbsize := hre.size
  have hwb := hw.rearranged h0 hre
  obtain ⟨i', hup, hii, his', hge, hpassed⟩ :=
    scanUp_ok cmp hwb h0 (by omega) (by omega) his hs hstop
  obtain ⟨j', hdown, hjj, htj', hle, hpassed'⟩ :=
    scanDown_ok cmp hwb h0 (by omega) habove htj ht hstop'
  have hlow' : ∀ k, lo ≤ k → k < i' → ¬ 0 < cmp (cell b k) p := by
    intro k hk hki
    by_cases hki' : k ≤ i
    · exact hlow k hk hki'
    · exact lt_asymm (hpassed k (by omega) hki)
  have hhigh' : ∀ k, j' < k → k ≤ hi → ¬ cmp (cell b k) p < 0 := by
    intro k hk hki
    by_cases hkj : j ≤ k
    · exact hhigh k hkj hki
    · exact lt_asymm (hpassed' k hk (by omega))
  by_cases hmeet : j' ≤ i'
  · refine Or.inr ⟨(b, j'), ?_, hre, by simp only; omega, by simp only; omega, ?_, hhigh'⟩
    · simp only [partitionTurn, hup, hdown, Outcome.done_bind, if_pos hmeet, Outcome.pure_eq]
    · intro k hk hkj
      simp only at hkj ⊢
      by_cases hkj' : k = j'
      · rw [hkj']
        exact hle
      · exact hlow' k hk (by omega)
  · obtain ⟨b', hrun, hre', hati, hatj, hrest⟩ :=
      sortExchange_ok (a := b) hwb h0 (by omega) (i := i') (j := j') (by omega) (by omega) (by omega)
    refine Or.inl ⟨(b', i', j'), ?_, ⟨hre.trans hre', by simp only; omega, by simp only; omega,
      by simp only; omega, ?_, ?_, j', i', by simp only; omega, by omega, ?_, by omega,
      by simp only; omega, ?_, Or.inr (by simp only; omega)⟩, by simp only; omega⟩
    · simp only [partitionTurn, hup, hdown, Outcome.done_bind, if_neg hmeet, hrun,
        Outcome.pure_eq]
    · intro k hk hki
      simp only at hki ⊢
      by_cases hki' : k = i'
      · rw [hki', hati]
        exact hle
      · rw [hrest k (by omega) hki' (by omega)]
        exact hlow' k hk (by omega)
    · intro k hk hki
      simp only at hk ⊢
      by_cases hkj : k = j'
      · rw [hkj, hatj]
        exact hge
      · rw [hrest k (by omega) (by omega) hkj]
        exact hhigh' k (by omega) hki
    · simp only
      rw [hatj]
      exact hge
    · simp only
      rw [hati]
      exact hle

variable (cmp) in
/-- A partition by an element of the segment that compares equal to itself: the left part ends
before the segment does. -/
theorem partition_ok {m : Int} (hw : Written a lo hi) (h0 : 0 ≤ lo) (hsize : hi < a.size)
    (hlo : lo ≤ m) (hhi : m < hi) (hrefl : cmp (cell a m) (cell a m) = 0) :
    ∃ x, partition cmp (cell a m) a lo hi = .done x ∧ Parted cmp (cell a m) a lo hi x := by
  have hnot : ¬ (0 : Int64) < 0 := lt_irrefl 0
  refine Outcome.loop_of_measure (P := Parted cmp (cell a m) a lo hi)
    (Parting cmp (cell a m) a lo hi) (fun x => (x.2.2 - x.2.1).toNat) (by simp only; omega) ?_ ?_
  · refine ⟨Rearranged.refl a _ _, le_rfl, by simp only; omega, le_rfl, ?_, ?_, m, m,
      by simp only; omega, by omega, hrefl ▸ hnot, hlo, by simp only; omega, hrefl ▸ hnot,
      Or.inl ⟨rfl, hhi⟩⟩
    · intro k hk hki
      simp only at hki
      omega
    · intro k hk hki
      simp only at hk
      omega
  · rintro ⟨b, i, j⟩ h
    have hordered : i < j := h.ordered
    obtain ⟨x, hrun, hx, hlt⟩ | ⟨x, hrun, hx⟩ := h.turn hw h0 hsize
    · have hx' := hx.ordered
      exact Or.inl ⟨x, hrun, hx, by simp only; omega⟩
    · exact Or.inr ⟨x, hrun, hx⟩

/-! ## The whole sort -/

/-- Two parts in order, bounded by an element between them, are in order. -/
theorem SortedOn.join {j : Int} (hcmp : TotalPreorder cmp) (hleft : SortedOn cmp a lo j)
    (hright : SortedOn cmp a (j + 1) hi) (hlow : ∀ k, lo ≤ k → k ≤ j → ¬ 0 < cmp (cell a k) p)
    (hhigh : ∀ k, j + 1 ≤ k → k ≤ hi → ¬ cmp (cell a k) p < 0) : SortedOn cmp a lo hi := by
  intro k l hk hkl hl
  by_cases hlj : l ≤ j
  · exact hleft k l hk hkl hlj
  · by_cases hkj : k ≤ j
    · exact hcmp.trans _ _ _ (not_lt.1 (hlow k hk hkj))
        (hcmp.le_of_not_lt (hhigh l (by omega) hl))
    · exact hright k l (by omega) hkl hl

/-- What the sort of a segment leaves. -/
structure SegmentSorted (cmp : Comparator) (a b : Buffer) (lo hi : Int) : Prop where
  rearranged : Rearranged a b lo.toNat hi.toNat
  sorted : TotalPreorder cmp → SortedOn cmp b lo hi

/-- The parts of a partition are sorted one after the other, in either order. -/
theorem SegmentSorted.parts {j : Int} {b₁ b₂ : Buffer} (h0 : 0 ≤ lo)
    (hp : Parted cmp p a lo hi (b, j))
    (h : SegmentSorted cmp b b₁ lo j ∧ SegmentSorted cmp b₁ b₂ (j + 1) hi ∨
      SegmentSorted cmp b b₁ (j + 1) hi ∧ SegmentSorted cmp b₁ b₂ lo j) :
    SegmentSorted cmp a b₂ lo hi := by
  have hge : lo ≤ j := hp.ge
  have hlt : j < hi := hp.lt
  have hleft : ∀ k, lo ≤ k → k ≤ j → ¬ 0 < cmp (cell b k) p := hp.left
  have hright : ∀ k, j + 1 ≤ k → k ≤ hi → ¬ cmp (cell b k) p < 0 := fun k hk =>
    hp.right k (show j < k by omega)
  obtain ⟨h₁, h₂⟩ | ⟨h₁, h₂⟩ := h
  · refine ⟨hp.rearranged.trans ((h₁.rearranged.widen le_rfl (by omega)).trans
      (h₂.rearranged.widen (by omega) le_rfl)), fun hcmp => ?_⟩
    have hsame : ∀ k, lo ≤ k → k ≤ j → b₂[k.toNat]? = b₁[k.toNat]? := fun k hk hkj =>
      h₂.rearranged.outside (Or.inl (by omega))
    refine SortedOn.join hcmp ((h₁.sorted hcmp).congr hsame) (h₂.sorted hcmp) (p := p) ?_ ?_
    · intro k hk hkj
      rw [cell_congr (hsame k hk hkj)]
      exact bound_rearranged (P := fun x => ¬ 0 < cmp x p) h₁.rearranged h0 hleft k hk hkj
    · refine bound_rearranged (P := fun x => ¬ cmp x p < 0) h₂.rearranged (by omega) ?_
      intro k hk hki
      rw [cell_congr (h₁.rearranged.outside (Or.inr (by omega)))]
      exact hright k hk hki
  · refine ⟨hp.rearranged.trans ((h₁.rearranged.widen (by omega) le_rfl).trans
      (h₂.rearranged.widen le_rfl (by omega))), fun hcmp => ?_⟩
    have hsame : ∀ k, j + 1 ≤ k → k ≤ hi → b₂[k.toNat]? = b₁[k.toNat]? := fun k hk hki =>
      h₂.rearranged.outside (Or.inr (by omega))
    refine SortedOn.join hcmp (h₂.sorted hcmp) ((h₁.sorted hcmp).congr hsame) (p := p) ?_ ?_
    · refine bound_rearranged (P := fun x => ¬ 0 < cmp x p) h₂.rearranged h0 ?_
      intro k hk hkj
      rw [cell_congr (h₁.rearranged.outside (Or.inl (by omega)))]
      exact hleft k hk hkj
    · intro k hk hki
      rw [cell_congr (hsame k hk hki)]
      exact bound_rearranged (P := fun x => ¬ cmp x p < 0) h₁.rearranged (by omega) hright k hk
        hki

/-- The sort of a segment ends, inside the segment, for a comparator that finds every element
equal to itself. -/
theorem qsortImpl_ok (hrefl : ∀ x, cmp x x = 0) (fuel : Nat) (a : Buffer) (lo hi : Int)
    (hw : Written a lo hi) (h0 : 0 ≤ lo) (hlo : lo ≤ hi) (hsize : hi < a.size)
    (hfuel : hi - lo < fuel) :
    ∃ b, qsortImpl cmp fuel a lo hi = .done b ∧ SegmentSorted cmp a b lo hi := by
  induction fuel generalizing a lo hi with
  | zero => omega
  | succ fuel ih =>
    rw [qsortImpl]
    by_cases hlt : lo < hi
    swap
    · exact ⟨a, if_neg hlt, Rearranged.refl a _ _, fun _ k l hk hkl hl => by omega⟩
    rw [if_pos hlt]
    by_cases hshort : hi - lo < 16
    · obtain ⟨b, hrun, hre, hsorted⟩ := insertionSort_ok cmp hw h0 hlo hsize
      exact ⟨b, by rw [if_pos hshort, hrun], hre, hsorted⟩
    rw [if_neg hshort]
    have hmlo : lo ≤ lo + (hi - lo) / 2 := by omega
    have hmhi : lo + (hi - lo) / 2 < hi := by omega
    obtain ⟨⟨b, j⟩, hpart, hp⟩ := partition_ok cmp hw h0 hsize hmlo hmhi (hrefl _)
    have hge : lo ≤ j := hp.ge
    have hjhi : j < hi := hp.lt
    have hwb := hw.rearranged h0 hp.rearranged
    have hbsize : b.size = a.size := hp.rearranged.size
    rw [load_ok hw h0 hmlo (le_of_lt hmhi), Outcome.done_bind, hpart, Outcome.done_bind]
    by_cases hside : j - lo < hi - (j + 1)
    · obtain ⟨b₁, hrun₁, h₁⟩ := ih b lo j (hwb.mono le_rfl (by omega)) h0 hge (by omega) (by omega)
      have hsize₁ : b₁.size = b.size := h₁.rearranged.size
      have hw₁ := hwb.rearranged h0 (h₁.rearranged.widen le_rfl (by omega))
      obtain ⟨b₂, hrun₂, h₂⟩ := ih b₁ (j + 1) hi (hw₁.mono (by omega) le_rfl) (by omega) (by omega)
        (by omega) (by omega)
      refine ⟨b₂, ?_, SegmentSorted.parts h0 hp (Or.inl ⟨h₁, h₂⟩)⟩
      simp only [if_pos hside, hrun₁, Outcome.done_bind, hrun₂]
    · obtain ⟨b₁, hrun₁, h₁⟩ := ih b (j + 1) hi (hwb.mono (by omega) le_rfl) (by omega) (by omega)
        (by omega) (by omega)
      have hsize₁ : b₁.size = b.size := h₁.rearranged.size
      have hw₁ := hwb.rearranged h0 (h₁.rearranged.widen (by omega) le_rfl)
      obtain ⟨b₂, hrun₂, h₂⟩ := ih b₁ lo j (hw₁.mono le_rfl (by omega)) h0 hge (by omega)
        (by omega)
      refine ⟨b₂, ?_, SegmentSorted.parts h0 hp (Or.inr ⟨h₁, h₂⟩)⟩
      simp only [if_neg hside, hrun₁, Outcome.done_bind, hrun₂]

/-! ## Vectors and arrays -/

variable {l : List Int64}

/-- An array holds the list: a buffer of as many cells. -/
def ArrayHolding (a : Buffer) (l : List Int64) : Prop := Holding 8 ⟨a, a.size, a.size⟩ l

/-- The cells after those of a list, and the list that the sort leaves. -/
structure CellsSorted (cmp : Comparator) (a b : Buffer) (l : List Int64) : Prop where
  size : b.size = a.size
  spare : ∀ i, l.length ≤ i → b[i]? = a[i]?
  list : ∃ l' : List Int64, l'.Perm l ∧ (∀ i, i < l.length → b[i]? = some l'[i]?) ∧
    (TotalPreorder cmp → l'.Pairwise fun x y => cmp x y ≤ 0)

/-- The cells of a list, as a list. -/
theorem exists_list {a : Buffer} {n : Nat} (h : ∀ i, i < n → ∃ x, a[i]? = some (some x)) :
    ∃ l : List Int64, l.length = n ∧ ∀ i, i < n → a[i]? = some l[i]? := by
  refine ⟨(List.range n).map fun i : Nat => cell a (i : Int), by simp, fun i hi => ?_⟩
  obtain ⟨x, hx⟩ := h i hi
  rw [List.getElem?_map, List.getElem?_range hi, hx]
  unfold cell
  rw [Option.map_some, Int.toNat_natCast, hx]
  rfl

/-- The cells of a list come first. -/
theorem toList_eq_append {a : Buffer} (h : ∀ i, i < l.length → a[i]? = some l[i]?) :
    a.toList = l.map some ++ a.toList.drop l.length := by
  apply List.ext_getElem?
  intro i
  rw [Array.getElem?_toList]
  by_cases hi : i < l.length
  · rw [h i hi, List.getElem?_append_left (by simpa using hi), List.getElem?_map,
      List.getElem?_eq_getElem hi]
    rfl
  · rw [List.getElem?_append_right (by simpa using hi), List.length_map, List.getElem?_drop,
      Array.getElem?_toList]
    congr 1
    omega

/-- The cells before `n` are sorted, the others stay. -/
theorem SegmentSorted.cells {hi : Int} (hsort : SegmentSorted cmp a b 0 hi) (h0 : 0 ≤ hi)
    (hlen : l.length = hi + 1) (hle : l.length ≤ a.size)
    (hcells : ∀ i, i < l.length → a[i]? = some l[i]?) : CellsSorted cmp a b l := by
  have hre : Rearranged a b 0 hi.toNat := hsort.rearranged
  have hsize := hre.size
  have hspare : ∀ i, l.length ≤ i → b[i]? = a[i]? := fun i hi =>
    hre.outside (Or.inr (by omega))
  have hwritten : ∀ i, i < l.length → ∃ x, b[i]? = some (some x) := by
    intro i hi
    refine hre.bound (P := fun o => ∃ x, o = some (some x)) ?_ i (Nat.zero_le i) (by omega)
    intro m _ hm
    refine ⟨l[m], ?_⟩
    rw [hcells m (by omega), List.getElem?_eq_getElem (by omega)]
  obtain ⟨l', hlen', hcells'⟩ := exists_list hwritten
  refine ⟨hsize, hspare, l', ?_, hcells', fun hcmp => ?_⟩
  · have hperm := hre.perm (by omega)
    have hrest : b.toList.drop l'.length = a.toList.drop l.length := by
      apply List.ext_getElem?
      intro i
      rw [List.getElem?_drop, List.getElem?_drop, Array.getElem?_toList, Array.getElem?_toList,
        hlen']
      exact hspare _ (Nat.le_add_right _ _)
    rw [toList_eq_append (l := l') (hlen'.symm ▸ hcells'), toList_eq_append hcells, hrest,
      List.perm_append_right_iff] at hperm
    exact (List.map_perm_map_iff (Option.some_injective _)).1 hperm
  · rw [List.pairwise_iff_getElem]
    intro i j hi hj hij
    have hcell : ∀ k (hk : k < l'.length), cell b (k : Int) = l'[k] := by
      intro k hk
      unfold cell
      rw [Int.toNat_natCast, hcells' k (by omega), List.getElem?_eq_getElem hk]
      rfl
    have hle' := hsort.sorted hcmp i j (by omega) (by omega) (by omega)
    rwa [hcell i hi, hcell j hj] at hle'

/-- A list of at most sixteen elements, or of any length if each element is equal to itself. -/
theorem sortCells_ok {v : Vec Int64} (h : Holding 8 v l)
    (hcond : l.length < 17 ∨ ∀ x, cmp x x = 0) :
    ∃ b, sortCells cmp v.data v.len = .done b ∧ CellsSorted cmp v.data b l := by
  have hsize := h.cells
  have hlen := h.len_eq
  have hle := h.len_le
  have hbytes := h.bytes
  unfold sortCells
  by_cases hn : 1 < v.len
  · have hlast : toInt64 v.len = v.len := toInt64_of_lt (by simp at hbytes; omega)
    have hw : Written v.data 0 (v.len - 1) := by
      intro k hk hki
      refine ⟨l[k.toNat], ?_⟩
      rw [h.elem _ (by omega), List.getElem?_eq_getElem (by omega)]
    have hsort : ∃ b, qsortImpl cmp (v.len + 1) v.data 0 (v.len - 1) = .done b ∧
        SegmentSorted cmp v.data b 0 (v.len - 1) := by
      rcases hcond with hshort | hrefl
      · obtain ⟨b, hrun, hre, hsorted⟩ := insertionSort_ok cmp hw le_rfl (by omega)
          (by omega)
        refine ⟨b, ?_, hre, hsorted⟩
        rw [qsortImpl, if_pos (by omega), if_pos (by omega), hrun]
      · exact qsortImpl_ok hrefl (v.len + 1) v.data 0 (v.len - 1) hw le_rfl (by omega) (by omega)
          (by omega)
    obtain ⟨b, hrun, hsorted⟩ := hsort
    rw [if_pos hn, hlast]
    exact ⟨b, hrun, hsorted.cells (by omega) (by omega) (by omega) h.elem⟩
  · refine ⟨v.data, if_neg hn, rfl, fun _ _ => rfl, l, List.Perm.refl l, h.elem, fun _ => ?_⟩
    match l, hlen with
    | [], _ => exact List.Pairwise.nil
    | [x], _ => exact List.pairwise_singleton _ x
    | x :: y :: l, hlen => simp at hlen; omega

/-- The sort of a vector returns zero and ends with the elements in another order, for which
`R` holds; its cells after the elements stay. -/
def VecOrdered (run : Outcome (Int × Vec Int64)) (v : Vec Int64) (l : List Int64)
    (R : List Int64 → Prop) : Prop :=
  ∃ v' l', run = .done (0, v') ∧ Holding 8 v' l' ∧ l'.Perm l ∧ R l' ∧ v'.capacity = v.capacity ∧
    ∀ i, l.length ≤ i → v'.data[i]? = v.data[i]?

/-- The sort of an array returns zero and ends with the elements in another order, for which
`R` holds. -/
def ArrayOrdered (run : Outcome (Int × Buffer)) (l : List Int64) (R : List Int64 → Prop) : Prop :=
  ∃ b l', run = .done (0, b) ∧ ArrayHolding b l' ∧ l'.Perm l ∧ R l'

variable {R : List Int64 → Prop}

theorem CellsSorted.vec {v : Vec Int64} (h : Holding 8 v l) {b : Buffer}
    (hrun : sortCells cmp v.data v.len = .done b) (hb : CellsSorted cmp v.data b l)
    (hR : ∀ l' : List Int64, (TotalPreorder cmp → l'.Pairwise fun x y => cmp x y ≤ 0) → R l') :
    VecOrdered (vecSortBy cmp v) v l R := by
  obtain ⟨l', hperm, hcells, hsorted⟩ := hb.list
  have hlen := hperm.length_eq
  refine ⟨⟨b, v.len, v.capacity⟩, l', ?_, ?_, hperm, hR l' hsorted, rfl, hb.spare⟩
  · unfold vecSortBy
    rw [hrun]
    rfl
  · exact ⟨hb.size.trans h.cells, h.len_eq.trans hlen.symm, h.len_le, h.bytes,
      fun i hi => hcells i (by omega)⟩

theorem CellsSorted.array (h : ArrayHolding a l) {b : Buffer}
    (hrun : sortCells cmp a a.size = .done b) (hb : CellsSorted cmp a b l)
    (hR : ∀ l' : List Int64, (TotalPreorder cmp → l'.Pairwise fun x y => cmp x y ≤ 0) → R l') :
    ArrayOrdered (arraySortBy cmp a a.size) l R := by
  obtain ⟨l', hperm, hcells, hsorted⟩ := hb.list
  have hlen := hperm.length_eq
  have hsize : a.size = l.length := h.len_eq
  refine ⟨b, l', ?_, ?_, hperm, hR l' hsorted⟩
  · unfold arraySortBy
    rw [hrun]
    rfl
  · unfold ArrayHolding at h ⊢
    have hbytes := h.bytes
    refine ⟨rfl, by simp only; rw [hb.size]; omega, le_rfl, by rw [hb.size]; exact hbytes,
      fun i hi => hcells i (by omega)⟩

/-! ## Comparators that keep the sort inside its buffer -/

theorem load_replicate (n : Nat) (x : Int64) (k : Int) :
    load (Array.replicate n (some x)) k = if 0 ≤ k ∧ k < n then .done x else .stuck := by
  unfold load Vec.load Outcome.read
  by_cases h0 : 0 ≤ k
  · rw [if_pos h0, Array.getElem?_replicate]
    by_cases hk : k < n
    · rw [if_pos (by omega), if_pos ⟨h0, hk⟩]
      rfl
    · rw [if_neg (by omega), if_neg fun h => hk h.2]
      rfl
  · rw [if_neg h0, if_neg fun h => h0 h.1]

/-- A scan over elements that all tell it to go on leaves the buffer. -/
theorem scan_replicate (n : Nat) (d : Int) (go : Int64 → Prop) [DecidablePred go] (hgo : go x)
    (fuel : Nat) (i : Int) :
    Outcome.loop (fun i => do
        let y ← load (Array.replicate n (some x)) (i + d)
        if go y then pure (.inl (i + d)) else pure (.inr (i + d) : Int ⊕ Int))
      fuel i = .stuck := by
  refine Outcome.loop_of_stuck (fun _ => True) trivial (fun i _ => ?_) fuel
  rw [load_replicate]
  by_cases hi : 0 ≤ i + d ∧ i + d < n
  · refine Or.inr ⟨i + d, ?_, trivial⟩
    rw [if_pos hi, Outcome.done_bind, if_pos hgo]
    rfl
  · refine Or.inl ?_
    rw [if_neg hi]
    rfl

/-- The sort of equal elements that the comparator does not find equal leaves the buffer. -/
theorem sortCells_replicate {n : Nat} (hn : 16 < n) (hn' : n < 2 ^ 63) (hx : cmp x x ≠ 0) :
    sortCells cmp (Array.replicate n (some x)) n = .stuck := by
  have hlast : toInt64 n = n := toInt64_of_lt hn'
  have hturn : partitionTurn cmp x (Array.replicate n (some x), 0 - 1, (n : Int) - 1 + 1) =
      .stuck := by
    unfold partitionTurn
    rcases lt_or_gt_of_ne hx with hlt | hgt
    · have hup : scanUp cmp (Array.replicate n (some x)) x (0 - 1) = .stuck :=
        scan_replicate n 1 (fun y => cmp y x < 0) hlt _ _
      simp only [hup, Outcome.stuck_bind]
    · have hup : scanUp cmp (Array.replicate n (some x)) x (0 - 1) = .done 0 := by
        unfold scanUp
        simp only [Outcome.loop]
        rw [load_replicate, if_pos (by omega), Outcome.done_bind, if_neg (lt_asymm hgt)]
        rfl
      have hdown : scanDown cmp (Array.replicate n (some x)) x ((n : Int) - 1 + 1) = .stuck :=
        scan_replicate n (-1) (fun y => 0 < cmp y x) hgt _ _
      simp only [hup, hdown, Outcome.done_bind, Outcome.stuck_bind]
  have hpart : partition cmp x (Array.replicate n (some x)) 0 ((n : Int) - 1) = .stuck := by
    unfold partition
    simp only [Outcome.loop, hturn]
  unfold sortCells
  rw [if_pos (by omega), hlast, qsortImpl, if_pos (by omega), if_neg (by omega), load_replicate,
    if_pos (by omega), Outcome.done_bind, hpart]
  rfl

theorem cmpAscending_le (x y : Int64) : cmpAscending x y ≤ 0 ↔ x ≤ y := by
  unfold cmpAscending
  rcases lt_trichotomy x y with hlt | rfl | hgt
  · rw [if_neg (lt_asymm hlt), if_pos hlt]
    exact ⟨fun _ => le_of_lt hlt, fun _ => by decide⟩
  · rw [if_neg (lt_irrefl x)]
    exact ⟨fun _ => le_rfl, fun _ => by decide⟩
  · rw [if_pos hgt, if_neg (lt_asymm hgt)]
    exact ⟨fun h => absurd h (by decide), fun h => absurd hgt (not_lt_of_ge h)⟩

theorem cmpAscending_neg (x y : Int64) : cmpAscending x y < 0 ↔ x < y := by
  unfold cmpAscending
  rcases lt_trichotomy x y with hlt | rfl | hgt
  · rw [if_neg (lt_asymm hlt), if_pos hlt]
    exact ⟨fun _ => hlt, fun _ => by decide⟩
  · rw [if_neg (lt_irrefl x)]
    exact ⟨fun h => absurd h (by decide), fun h => absurd h (lt_irrefl x)⟩
  · rw [if_pos hgt, if_neg (lt_asymm hgt)]
    exact ⟨fun h => absurd h (by decide), fun h => absurd h (lt_asymm hgt)⟩

theorem totalPreorder_cmpAscending : TotalPreorder cmpAscending where
  sign x y := by
    rw [cmpAscending_neg, ← not_le (a := (cmpAscending y x)), cmpAscending_le, not_le]
  trans x y z hxy hyz := by
    rw [cmpAscending_le] at *
    exact hxy.trans hyz

/-- Every sort ends, inside its buffer, with the elements in the comparator's order, and the ones
without a comparator in ascending order. -/
theorem sort_sorts (cmp : Comparator) (hcmp : TotalPreorder cmp) :
    (∀ v l, Holding 8 v l →
      VecOrdered (vecSortBy cmp v) v l fun l' => l'.Pairwise fun x y => cmp x y ≤ 0) ∧
    (∀ a l, ArrayHolding a l →
      ArrayOrdered (arraySortBy cmp a a.size) l fun l' => l'.Pairwise fun x y => cmp x y ≤ 0) ∧
    (∀ v l, Holding 8 v l → VecOrdered (vecSort v) v l fun l' => l'.Pairwise (· ≤ ·)) ∧
    ∀ a l, ArrayHolding a l →
      ArrayOrdered (arraySort a a.size) l fun l' => l'.Pairwise (· ≤ ·) := by
  have hasc : ∀ l' : List Int64, (TotalPreorder cmpAscending →
      l'.Pairwise fun x y => cmpAscending x y ≤ 0) → l'.Pairwise (· ≤ ·) := fun l' h =>
    (h totalPreorder_cmpAscending).imp fun {x y} hxy => (cmpAscending_le x y).1 hxy
  refine ⟨fun v l h => ?_, fun a l h => ?_, fun v l h => ?_, fun a l h => ?_⟩
  · obtain ⟨b, hrun, hb⟩ := sortCells_ok h (Or.inr hcmp.refl)
    exact hb.vec h hrun fun _ hl => hl hcmp
  · obtain ⟨b, hrun, hb⟩ := sortCells_ok h (Or.inr hcmp.refl)
    exact hb.array h hrun fun _ hl => hl hcmp
  · obtain ⟨b, hrun, hb⟩ := sortCells_ok h (Or.inr totalPreorder_cmpAscending.refl)
    exact hb.vec h hrun hasc
  · obtain ⟨b, hrun, hb⟩ := sortCells_ok h (Or.inr totalPreorder_cmpAscending.refl)
    exact hb.array h hrun hasc

/-- In descending order. -/
theorem sort_sorts_descending : ∃ v' l', vecSortBy (fun x y => cmpAscending y x)
      ⟨#[some 1, some 2], 2, 2⟩ = .done (0, v') ∧ Holding 8 v' l' ∧ l'.Perm [1, 2] ∧
      l'.Pairwise fun x y => cmpAscending y x ≤ 0 := by
  have hcmp : TotalPreorder fun x y => cmpAscending y x :=
    ⟨fun x y => totalPreorder_cmpAscending.sign y x,
      fun x y z hxy hyz => totalPreorder_cmpAscending.trans z y x hyz hxy⟩
  have hholds : Holding 8 (⟨#[some 1, some 2], 2, 2⟩ : Vec Int64) [1, 2] := by
    refine ⟨rfl, rfl, le_rfl, by decide, fun i hi => ?_⟩
    match i, hi with
    | 0, _ => rfl
    | 1, _ => rfl
  obtain ⟨v', l', hrun, hv', hperm, hsorted, -⟩ := (sort_sorts _ hcmp).1 _ _ hholds
  exact ⟨v', l', hrun, hv', hperm, hsorted⟩

end Vani.Analysis
