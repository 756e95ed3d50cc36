import Vani.Analysis.SortedArrays
import Vani.Analysis.HashTables

/-!
# Correctness of the emitted sorted set and map

The key array of a set holds the elements in increasing order, that of a map the keys, with
each value at its key's position in the second array. Every operation keeps this and does
what the operation on a finite set or map does, and a range query appends the keys from one
bound to the other, or their values, in the order of the keys.
-/

set_option autoImplicit false

namespace Vani.Analysis

open Vani.Library Vani.Backend

/-! ## The keys -/

/-- An array of keys holds a set in increasing order. -/
structure SortedKeys (v : Vec Int64) (l : List Int64) (S : Finset Int64) : Prop where
  holding : Holding 8 v l
  increasing : Increasing l
  mem_iff : ∀ x, x ∈ S ↔ x ∈ l

variable {v : Vec Int64} {l : List Int64} {S : Finset Int64}

theorem SortedKeys.toFinset (h : SortedKeys v l S) : S = l.toFinset := by
  ext x
  rw [h.mem_iff, List.mem_toFinset]

theorem SortedKeys.card (h : SortedKeys v l S) : S.card = l.length := by
  rw [h.toFinset, List.toFinset_card_of_nodup h.increasing.nodup]

theorem SortedKeys.length (h : SortedKeys v l S) : toInt64 v.len = S.card := by
  have hsmall := h.holding.small
  have hle := h.holding.len_le
  rw [h.card, ← h.holding.len_eq]
  exact toInt64_of_lt (by omega)

/-- The search comes to the place of the key and finds it if it is in the set. -/
theorem SortedKeys.search (h : SortedKeys v l S) (k : Int64) :
    ∃ i, BTree.lowerBound v.data v.len k = .done i ∧ Place l k i ∧
      BTree.found v.data v.len i k = .done (decide (k ∈ S)) := by
  obtain ⟨i, hrun, hplace⟩ := lowerBound_ok h.holding h.increasing k
  refine ⟨i, hrun, hplace, ?_⟩
  rw [found_ok h.holding h.increasing hplace]
  exact congrArg Outcome.done (decide_eq_decide.mpr (h.mem_iff k).symm)

/-- A key in the set stands at its place. -/
theorem SortedKeys.at_place (h : SortedKeys v l S) {k : Int64} {i : Nat} (hi : Place l k i)
    (hk : k ∈ S) : l[i]? = some k :=
  (hi.mem_iff h.increasing).mp ((h.mem_iff k).mp hk)

/-- A new key has gone in at its place. -/
theorem SortedKeys.insert (h : SortedKeys v l S) {k : Int64} {i : Nat} (hi : Place l k i)
    (hk : k ∉ S) {w : Vec Int64} (hw : Holding 8 w (l.insertIdx i k)) :
    SortedKeys w (l.insertIdx i k) (insert k S) where
  holding := hw
  increasing := h.increasing.insertIdx hi (fun hmem => hk ((h.mem_iff k).mpr hmem))
  mem_iff x := by
    rw [Finset.mem_insert, h.mem_iff, List.mem_insertIdx hi.le]

/-- A key has been taken from its place. -/
theorem SortedKeys.erase (h : SortedKeys v l S) {k : Int64} {i : Nat} (hi : l[i]? = some k)
    {w : Vec Int64} (hw : Holding 8 w (l.eraseIdx i)) :
    SortedKeys w (l.eraseIdx i) (S.erase k) where
  holding := hw
  increasing := h.increasing.eraseIdx i
  mem_iff x := by
    rw [Finset.mem_erase, h.increasing.mem_eraseIdx hi, h.mem_iff, and_comm]

theorem sortedKeys_new : SortedKeys ⟨#[], 0, 0⟩ [] ∅ where
  holding := holding_empty
  increasing := List.Pairwise.nil
  mem_iff x := by simp

/-- From a position on the keys do not exceed a bound for a while, and the next one does. -/
theorem exists_bounded (l : List Int64) {i : Nat} (hi : i ≤ l.length) (hi' : Int64) :
    ∃ n, i + n ≤ l.length ∧ (∀ j, j < n → ∃ x, l[i + j]? = some x ∧ x ≤ hi') ∧
      ∀ x, l[i + n]? = some x → hi' < x := by
  classical
  have hex : ∃ n, ∀ x, l[i + n]? = some x → hi' < x := by
    refine ⟨l.length - i, fun x hx => ?_⟩
    rw [List.getElem?_eq_none (by omega)] at hx
    cases hx
  have hle : i + Nat.find hex ≤ l.length := by
    have hmin : Nat.find hex ≤ l.length - i := by
      apply Nat.find_min'
      intro x hx
      rw [List.getElem?_eq_none (by omega)] at hx
      cases hx
    omega
  refine ⟨Nat.find hex, hle, fun j hj => ?_, Nat.find_spec hex⟩
  have hnot := Nat.find_min hex hj
  push Not at hnot
  exact hnot

/-- A range query appends what stands at the keys between its bounds. -/
theorem SortedKeys.range (h : SortedKeys v l S) {src : Vec Int64} {ms : List Int64}
    (hs : Holding 8 src ms) (hlength : ms.length = l.length) {out : Vec Int64}
    {outs : List Int64} (ho : Holding 8 out outs) (heap : Nat → Bool) (lo hi : Int64) :
    (BTree.range heap v.data src.data v.len lo hi out = .aborted ∧ BTree.rangeRefused heap out) ∨
      ∃ (r : Int × Vec Int64) (i n : Nat),
        BTree.range heap v.data src.data v.len lo hi out = .done r ∧
          r.1 = (between S lo hi).length ∧ (l.drop i).take n = between S lo hi ∧
          Holding 8 r.2 (outs ++ (ms.drop i).take n) := by
  unfold BTree.range
  by_cases hlt : hi < lo
  · refine Or.inr ⟨(0, out), 0, 0, if_pos hlt, ?_, ?_, ?_⟩
    · rw [between_empty S hlt]
      rfl
    · rw [between_empty S hlt, List.take_zero]
    · rw [List.take_zero, List.append_nil]
      exact ho
  · obtain ⟨i, hrun, hplace⟩ := lowerBound_ok h.holding h.increasing lo
    obtain ⟨n, hn, hin, hout⟩ := exists_bounded l hplace.le hi
    have hbetween : (l.drop i).take n = between S lo hi := by
      unfold between
      rw [h.toFinset]
      refine h.increasing.sort_between hplace (fun j x hj hjn hx => ?_) hout
      obtain ⟨y, hy, hle⟩ := hin (j - i) (by omega)
      rw [Nat.add_sub_cancel' hj, hx] at hy
      cases hy
      exact hle
    have hcount : (between S lo hi).length = n := by
      rw [← hbetween, List.length_take, List.length_drop]
      omega
    rw [if_neg hlt, hrun, Outcome.done_bind]
    rcases range_loop h.holding hs hlength ho heap hplace.le hin hout with
      ⟨hab, href⟩ | ⟨r, hdone, hr, hw⟩
    · exact Or.inl ⟨hab, href⟩
    · exact Or.inr ⟨r, i, n, hdone, by rw [hr, hcount], hbetween, hw⟩

/-! ## The set -/

namespace SortedKeys

variable {s : BTreeSet}

theorem contains (h : SortedKeys s l S) (k : Int64) :
    BTreeSet.contains s k = .done (decide (k ∈ S)) := by
  obtain ⟨i, hrun, -, hfound⟩ := h.search k
  unfold BTreeSet.contains
  rw [hrun, Outcome.done_bind, hfound]

theorem insertKey (h : SortedKeys s l S) (heap : Nat → Bool) (k : Int64) :
    (BTreeSet.insert heap s k = .aborted ∧ s.capacity ≤ s.len ∧
        malloc heap (BTree.grownCapacity 4 s.capacity * 8) = false) ∨
      ∃ s' l', BTreeSet.insert heap s k = .done (decide (k ∉ S), s') ∧
        SortedKeys s' l' (Insert.insert k S) := by
  obtain ⟨i, hrun, hplace, hfound⟩ := h.search k
  unfold BTreeSet.insert
  rw [hrun, Outcome.done_bind, hfound, Outcome.done_bind]
  by_cases hk : k ∈ S
  · refine Or.inr ⟨s, l, ?_, ?_⟩
    · rw [if_pos (decide_eq_true hk), decide_eq_false (not_not.mpr hk)]
      rfl
    · rw [Finset.insert_eq_of_mem hk]
      exact h
  · rw [if_neg (by rw [decide_eq_false hk]; exact Bool.false_ne_true)]
    rcases h.holding.reserveCell (show 0 < 4 by decide) heap with
      ⟨hno, href⟩ | ⟨s', hyes, hs', hroom, -⟩
    · exact Or.inl ⟨by rw [hno]; rfl, href⟩
    · obtain ⟨data, hopen, hdata⟩ := hs'.openCell hroom hplace.le k
      refine Or.inr ⟨⟨data, s'.len + 1, s'.capacity⟩, l.insertIdx i k, ?_,
        h.insert hplace hk hdata⟩
      rw [hyes, Outcome.done_bind, hopen, decide_eq_true hk]
      rfl

theorem removeKey (h : SortedKeys s l S) (k : Int64) :
    ∃ s' l', BTreeSet.remove s k = .done (decide (k ∈ S), s') ∧ SortedKeys s' l' (S.erase k) := by
  obtain ⟨i, hrun, hplace, hfound⟩ := h.search k
  unfold BTreeSet.remove
  rw [hrun, Outcome.done_bind, hfound, Outcome.done_bind]
  by_cases hk : k ∈ S
  · have hi := h.at_place hplace hk
    obtain ⟨data, hclose, hdata⟩ := h.holding.closeCell (List.getElem?_eq_some_iff.mp hi).1
    refine ⟨⟨data, s.len - 1, s.capacity⟩, l.eraseIdx i, ?_, h.erase hi hdata⟩
    rw [if_pos (decide_eq_true hk), hclose, decide_eq_true hk]
    rfl
  · refine ⟨s, l, ?_, ?_⟩
    · rw [if_neg (by rw [decide_eq_false hk]; exact Bool.false_ne_true), decide_eq_false hk]
      rfl
    · rw [Finset.erase_eq_of_notMem hk]
      exact h

end SortedKeys

/-- The keys of a set and of the vector are `l` and `outs`. -/
def SetHolds (p : BTreeSet × Vec Int64) (t : Finset Int64 × List Int64) : Prop :=
  (∃ l, SortedKeys p.1 l t.1) ∧ Holding 8 p.2 t.2

/-- The operations on a finite set and a list. -/
def btreeSetSpec : Finset Int64 × List Int64 → BTreeSetOp × (Nat → Bool) →
    Option (BTreeResult × (Finset Int64 × List Int64))
  | (_, outs), (.new, _) => some (.unit, (∅, outs))
  | (S, outs), (.insert k, _) => some (.bool (k ∉ S), (insert k S, outs))
  | (S, outs), (.contains k, _) => some (.bool (k ∈ S), (S, outs))
  | (S, outs), (.remove k, _) => some (.bool (k ∈ S), (S.erase k, outs))
  | (S, outs), (.len, _) => some (.int S.card, (S, outs))
  | (S, outs), (.clear, _) => some (.int S.card, (∅, outs))
  | (S, outs), (.min, _) =>
    some (.value (if h : S.Nonempty then some (S.min' h) else none), (S, outs))
  | (S, outs), (.max, _) =>
    some (.value (if h : S.Nonempty then some (S.max' h) else none), (S, outs))
  | (S, outs), (.range lo hi, _) =>
    some (.appended (between S lo hi).length ((outs ++ between S lo hi).map some),
      (S, outs ++ between S lo hi))
  | (S, outs), (.push x, _) => some (.unit, (S, outs ++ [x]))
  | (S, _), (.vec, _) => some (.unit, (S, []))

theorem setHolds_of {s : BTreeSet} {out : Vec Int64} {outs : List Int64} (hs : SortedKeys s l S)
    (ho : Holding 8 out outs) : SetHolds (s, out) (S, outs) :=
  ⟨⟨l, hs⟩, ho⟩

theorem setHolds_new {outs : List Int64} {out : Vec Int64} (ho : Holding 8 out outs) :
    SetHolds (BTreeSet.new, out) (∅, outs) :=
  setHolds_of sortedKeys_new ho

/-- Every operation does to the arrays what it does to the set and the list. -/
theorem step_btreeSet (p : BTreeSet × Vec Int64) (t : Finset Int64 × List Int64)
    (i : BTreeSetOp × (Nat → Bool)) (h : SetHolds p t) :
    StepRefines BTreeSet.step btreeSetSpec BTreeSet.refused SetHolds p t i := by
  obtain ⟨s, out⟩ := p
  obtain ⟨S, outs⟩ := t
  obtain ⟨op, heap⟩ := i
  obtain ⟨⟨l, hs⟩, ho⟩ := h
  dsimp only at hs ho
  cases op with
  | new => exact stepRefines_done rfl rfl (setHolds_new ho)
  | insert k =>
    rcases hs.insertKey heap k with ⟨hrun, href⟩ | ⟨s', l', hrun, hs'⟩
    · exact stepRefines_refused (by simp only [BTreeSet.step, hrun, Outcome.aborted_bind]) href
    · exact stepRefines_done
        (by simp only [BTreeSet.step, hrun, Outcome.done_bind, Outcome.pure_eq]) rfl
        (setHolds_of hs' ho)
  | contains k =>
    exact stepRefines_done
      (by simp only [BTreeSet.step, hs.contains k, Outcome.done_bind, Outcome.pure_eq]) rfl
      (setHolds_of hs ho)
  | remove k =>
    obtain ⟨s', l', hrun, hs'⟩ := hs.removeKey k
    exact stepRefines_done
      (by simp only [BTreeSet.step, hrun, Outcome.done_bind, Outcome.pure_eq]) rfl
      (setHolds_of hs' ho)
  | len =>
    exact stepRefines_done
      (by simp only [BTreeSet.step, BTreeSet.length, hs.length, Outcome.pure_eq]) rfl
      (setHolds_of hs ho)
  | clear =>
    exact stepRefines_done
      (by simp only [BTreeSet.step, BTreeSet.clear, hs.length, Outcome.pure_eq]) rfl
      (setHolds_new ho)
  | min =>
    exact stepRefines_done
      (by simp only [BTreeSet.step, least_ok hs.holding hs.increasing hs.mem_iff,
        Outcome.done_bind, Outcome.pure_eq]) rfl (setHolds_of hs ho)
  | max =>
    exact stepRefines_done
      (by simp only [BTreeSet.step, greatest_ok hs.holding hs.increasing hs.mem_iff,
        Outcome.done_bind, Outcome.pure_eq]) rfl (setHolds_of hs ho)
  | range lo hi =>
    rcases hs.range hs.holding rfl ho heap lo hi with
      ⟨hrun, href⟩ | ⟨⟨n, w⟩, i, j, hrun, hn, hkeys, hw⟩
    · exact stepRefines_refused (by simp only [BTreeSet.step, hrun, Outcome.aborted_bind]) href
    · dsimp only at hn hw
      rw [hkeys] at hw
      exact stepRefines_done
        (by simp only [BTreeSet.step, hrun, Outcome.done_bind, Outcome.pure_eq, hw.contents, hn])
        rfl (setHolds_of hs hw)
  | push x =>
    rcases ho.pushWord heap x with ⟨hrun, href⟩ | ⟨w, hrun, hw⟩
    · exact stepRefines_refused (by simp only [BTreeSet.step, hrun, Outcome.aborted_bind]) href
    · exact stepRefines_done
        (by simp only [BTreeSet.step, hrun, Outcome.done_bind, Outcome.pure_eq]) rfl
        (setHolds_of hs hw)
  | vec =>
    rcases emptyVec_ok heap with ⟨hrun, href⟩ | ⟨w, hrun, hw⟩
    · exact stepRefines_refused (by simp only [BTreeSet.step, hrun, Outcome.aborted_bind]) href
    · exact stepRefines_done
        (by simp only [BTreeSet.step, hrun, Outcome.done_bind, Outcome.pure_eq]) rfl
        (setHolds_of hs hw)

/-! ## The map -/

/-- The entries of a map are a finite map in increasing order of the keys. -/
structure SortedEntries (m : BTreeMap) (es : List (Int64 × Int64)) (M : FiniteMap) : Prop where
  keys : Holding 8 m.keyVec (es.map Prod.fst)
  values : Holding 8 m.valueVec (es.map Prod.snd)
  increasing : Increasing (es.map Prod.fst)
  lookup : ∀ k x, M.lookup k = some x ↔ (k, x) ∈ es

namespace SortedEntries

variable {m : BTreeMap} {es : List (Int64 × Int64)} {M : FiniteMap}

theorem sortedKeys (h : SortedEntries m es M) :
    SortedKeys m.keyVec (es.map Prod.fst) M.keys where
  holding := h.keys
  increasing := h.increasing
  mem_iff k := by
    rw [Finmap.mem_keys, Finmap.mem_iff, List.mem_map]
    constructor
    · rintro ⟨x, hx⟩
      exact ⟨(k, x), (h.lookup k x).mp hx, rfl⟩
    · rintro ⟨⟨k, x⟩, hmem, rfl⟩
      exact ⟨x, (h.lookup k x).mpr hmem⟩

/-- A key of the map stands at its place with its value. -/
theorem at_place (h : SortedEntries m es M) {k : Int64} {i : Nat}
    (hi : Place (es.map Prod.fst) k i) (hk : k ∈ M.keys) :
    ∃ x, es[i]? = some (k, x) ∧ M.lookup k = some x := by
  have hkey := h.sortedKeys.at_place hi hk
  rw [List.getElem?_map, Option.map_eq_some_iff] at hkey
  obtain ⟨⟨k, x⟩, hentry, rfl⟩ := hkey
  exact ⟨x, hentry, (h.lookup k x).mpr (List.mem_of_getElem? hentry)⟩

theorem lookup_none {k : Int64} (hk : k ∉ M.keys) : M.lookup k = none := by
  rw [Finmap.lookup_eq_none]
  rwa [Finmap.mem_keys] at hk

/-- The entries that remain without the one at a position have the other keys. -/
theorem mem_eraseIdx (h : SortedEntries m es M) {k old : Int64} {i : Nat}
    (hi : es[i]? = some (k, old)) (k' x : Int64) :
    (k', x) ∈ es.eraseIdx i ↔ k' ≠ k ∧ (k', x) ∈ es := by
  have hkey : ∀ {j : Nat} {a b : Int64}, es[j]? = some (a, b) →
      (es.map Prod.fst)[j]? = some a := by
    intro j a b hj
    rw [List.getElem?_map, hj]
    rfl
  rw [List.mem_eraseIdx_iff_getElem?]
  constructor
  · rintro ⟨j, hne, hj⟩
    refine ⟨?_, List.mem_of_getElem? hj⟩
    rintro rfl
    rcases Nat.lt_or_gt_of_ne hne with hlt | hlt
    · exact absurd (h.increasing.lt hlt (hkey hj) (hkey hi)) (lt_irrefl _)
    · exact absurd (h.increasing.lt hlt (hkey hi) (hkey hj)) (lt_irrefl _)
  · rintro ⟨hne, hmem⟩
    obtain ⟨j, hj⟩ := List.mem_iff_getElem?.mp hmem
    refine ⟨j, ?_, hj⟩
    rintro rfl
    rw [hi] at hj
    cases hj
    exact hne rfl

theorem lookup_insert_iff (k v k' x : Int64) :
    (M.insert k v).lookup k' = some x ↔ (k', x) = (k, v) ∨ k' ≠ k ∧ M.lookup k' = some x := by
  by_cases hkk : k' = k
  · subst hkk
    rw [Finmap.lookup_insert]
    simp [eq_comm]
  · rw [Finmap.lookup_insert_of_ne _ hkk]
    simp [hkk]

/-- The value at a key has been replaced. -/
theorem replace (h : SortedEntries m es M) {k old : Int64} {i : Nat} (hi : es[i]? = some (k, old))
    (x : Int64) {values : Array (Option Int64)}
    (hvalues : Holding 8 ⟨values, m.len, m.capacity⟩ ((es.map Prod.snd).set i x)) :
    SortedEntries { m with values } (es.set i (k, x)) (M.insert k x) := by
  have hlt : i < es.length := (List.getElem?_eq_some_iff.mp hi).1
  have hkeys : (es.set i (k, x)).map Prod.fst = es.map Prod.fst := by
    have hlt' : i < (es.map Prod.fst).length := by rwa [List.length_map]
    have hself : (es.map Prod.fst)[i] = k := by
      rw [List.getElem_map, (List.getElem?_eq_some_iff.mp hi).2]
    rw [List.map_set, ← hself, List.set_getElem_self]
  refine ⟨?_, ?_, ?_, fun k' x' => ?_⟩
  · rw [hkeys]
    exact h.keys
  · rw [List.map_set]
    exact hvalues
  · rw [hkeys]
    exact h.increasing
  · have hlen : (es.eraseIdx i).length = es.length - 1 := List.length_eraseIdx_of_lt hlt
    rw [lookup_insert_iff, ← List.insertIdx_eraseIdx_self (Nat.ne_of_lt hlt),
      List.mem_insertIdx (by omega), h.mem_eraseIdx hi, h.lookup]

/-- A new entry has gone in at the place of its key. -/
theorem insertEntry (h : SortedEntries m es M) {k : Int64} {i : Nat}
    (hi : Place (es.map Prod.fst) k i) (hk : k ∉ M.keys) (x : Int64) {w : BTreeMap}
    (hkeys : Holding 8 w.keyVec ((es.map Prod.fst).insertIdx i k))
    (hvalues : Holding 8 w.valueVec ((es.map Prod.snd).insertIdx i x)) :
    SortedEntries w (es.insertIdx i (k, x)) (M.insert k x) := by
  have hle : i ≤ es.length := hi.le.trans (List.length_map Prod.fst).le
  refine ⟨?_, ?_, ?_, fun k' x' => ?_⟩
  · rw [List.map_insertIdx]
    exact hkeys
  · rw [List.map_insertIdx]
    exact hvalues
  · rw [List.map_insertIdx]
    exact (h.sortedKeys.insert hi hk hkeys).increasing
  · rw [lookup_insert_iff, List.mem_insertIdx hle, ← h.lookup]
    refine or_congr_right (and_iff_right_of_imp fun hlook => ?_)
    rintro rfl
    rw [lookup_none hk] at hlook
    cases hlook

/-- An entry has been taken out. -/
theorem eraseEntry (h : SortedEntries m es M) {k old : Int64} {i : Nat}
    (hi : es[i]? = some (k, old)) {w : BTreeMap}
    (hkeys : Holding 8 w.keyVec ((es.map Prod.fst).eraseIdx i))
    (hvalues : Holding 8 w.valueVec ((es.map Prod.snd).eraseIdx i)) :
    SortedEntries w (es.eraseIdx i) (M.erase k) := by
  refine ⟨?_, ?_, ?_, fun k' x' => ?_⟩
  · rw [← List.eraseIdx_map]
    exact hkeys
  · rw [← List.eraseIdx_map]
    exact hvalues
  · rw [← List.eraseIdx_map]
    exact h.increasing.eraseIdx i
  · rw [h.mem_eraseIdx hi, ← h.lookup]
    by_cases hkk : k' = k
    · subst hkk
      rw [Finmap.lookup_erase]
      simp
    · rw [Finmap.lookup_erase_ne hkk]
      simp [hkk]

/-! ### The operations -/

theorem new : SortedEntries BTreeMap.new [] ∅ where
  keys := holding_empty
  values := holding_empty
  increasing := List.Pairwise.nil
  lookup k x := by simp

theorem containsKey (h : SortedEntries m es M) (k : Int64) :
    m.containsKey k = .done (decide (k ∈ M.keys)) := by
  obtain ⟨i, hrun, -, hfound⟩ := h.sortedKeys.search k
  unfold BTreeMap.containsKey
  rw [show BTree.lowerBound m.keys m.len k = .done i from hrun, Outcome.done_bind]
  exact hfound

/-- The value of an entry is read. -/
theorem loadValue (h : SortedEntries m es M) {k x : Int64} {i : Nat} (hi : es[i]? = some (k, x)) :
    Vec.load m.values i = .done x := by
  have hx : (es.map Prod.snd)[i]? = some x := by
    rw [List.getElem?_map, hi]
    rfl
  exact h.values.load_some hx

theorem get (h : SortedEntries m es M) (k : Int64) : m.get k = .done (M.lookup k) := by
  obtain ⟨i, hrun, hplace, hfound⟩ := h.sortedKeys.search k
  have hrun' : BTree.lowerBound m.keys m.len k = .done i := hrun
  have hfound' : BTree.found m.keys m.len i k = .done (decide (k ∈ M.keys)) := hfound
  unfold BTreeMap.get
  rw [hrun', Outcome.done_bind, hfound', Outcome.done_bind]
  by_cases hk : k ∈ M.keys
  · obtain ⟨x, hentry, hlook⟩ := h.at_place hplace hk
    rw [if_pos (decide_eq_true hk), h.loadValue hentry, hlook]
    rfl
  · rw [if_neg (by rw [decide_eq_false hk]; exact Bool.false_ne_true), lookup_none hk]
    rfl

/-- Room for another entry in both arrays, or no memory for it. -/
theorem reserve (h : SortedEntries m es M) (heap : Nat → Bool) :
    (m.reserve heap = .aborted ∧ m.capacity ≤ m.len ∧
        malloc heap (BTree.grownCapacity 4 m.capacity * 8) = false) ∨
      ∃ m', m.reserve heap = .done m' ∧ SortedEntries m' es M ∧ m'.len < m'.capacity := by
  unfold BTreeMap.reserve
  by_cases hfull : m.capacity ≤ m.len
  · rw [if_pos hfull]
    have hgrown : m.capacity < BTree.grownCapacity 4 m.capacity := lt_grownCapacity (by decide) _
    rcases malloc_cases heap (BTree.grownCapacity 4 m.capacity * 8) with hno | ⟨hyes, hbytes⟩
    · exact Or.inl ⟨if_neg (by rw [hno]; exact Bool.false_ne_true), hfull, hno⟩
    · exact Or.inr ⟨_, if_pos (by rw [hyes]; rfl),
        ⟨h.keys.extend hgrown.le hbytes, h.values.extend hgrown.le hbytes, h.increasing, h.lookup⟩,
        h.keys.len_le.trans_lt hgrown⟩
  · rw [if_neg hfull]
    exact Or.inr ⟨m, rfl, h, Nat.not_le.mp hfull⟩

theorem insert (h : SortedEntries m es M) (heap : Nat → Bool) (k x : Int64) :
    (m.insert heap k x = .aborted ∧ m.capacity ≤ m.len ∧
        malloc heap (BTree.grownCapacity 4 m.capacity * 8) = false) ∨
      ∃ m' es', m.insert heap k x = .done (M.lookup k, m') ∧
        SortedEntries m' es' (M.insert k x) := by
  obtain ⟨i, hrun, hplace, hfound⟩ := h.sortedKeys.search k
  have hrun' : BTree.lowerBound m.keys m.len k = .done i := hrun
  have hfound' : BTree.found m.keys m.len i k = .done (decide (k ∈ M.keys)) := hfound
  unfold BTreeMap.insert
  rw [hrun', Outcome.done_bind, hfound', Outcome.done_bind]
  by_cases hk : k ∈ M.keys
  · obtain ⟨old, hentry, hlook⟩ := h.at_place hplace hk
    have hlt : i < (es.map Prod.snd).length := by
      rw [List.length_map]
      exact (List.getElem?_eq_some_iff.mp hentry).1
    obtain ⟨hwrite, hvalues⟩ := h.values.store hlt x
    refine Or.inr ⟨_, _, ?_, h.replace hentry x hvalues⟩
    rw [if_pos (decide_eq_true hk), h.loadValue hentry, Outcome.done_bind,
      show Outcome.write m.values i (some x) = _ from hwrite, hlook]
    rfl
  · rw [if_neg (by rw [decide_eq_false hk]; exact Bool.false_ne_true)]
    rcases h.reserve heap with ⟨hno, href⟩ | ⟨m', hyes, hm', hroom⟩
    · exact Or.inl ⟨by rw [hno]; rfl, href⟩
    · obtain ⟨keys, hopen, hkeys⟩ := hm'.keys.openCell hroom hplace.le k
      have hle : i ≤ (es.map Prod.snd).length := by
        have hle := hplace.le
        rwa [List.length_map] at hle ⊢
      obtain ⟨values, hopen', hvalues⟩ := hm'.values.openCell hroom hle x
      refine Or.inr ⟨⟨keys, values, m'.len + 1, m'.capacity⟩, _, ?_,
        hm'.insertEntry hplace hk x hkeys hvalues⟩
      rw [hyes, Outcome.done_bind, hopen, Outcome.done_bind, hopen', lookup_none hk]
      rfl

theorem remove (h : SortedEntries m es M) (k : Int64) :
    ∃ m' es', m.remove k = .done (M.lookup k, m') ∧ SortedEntries m' es' (M.erase k) := by
  obtain ⟨i, hrun, hplace, hfound⟩ := h.sortedKeys.search k
  have hrun' : BTree.lowerBound m.keys m.len k = .done i := hrun
  have hfound' : BTree.found m.keys m.len i k = .done (decide (k ∈ M.keys)) := hfound
  unfold BTreeMap.remove
  rw [hrun', Outcome.done_bind, hfound', Outcome.done_bind]
  by_cases hk : k ∈ M.keys
  · obtain ⟨old, hentry, hlook⟩ := h.at_place hplace hk
    have hlt := (List.getElem?_eq_some_iff.mp hentry).1
    obtain ⟨keys, hclose, hkeys⟩ := h.keys.closeCell (by rwa [List.length_map])
    obtain ⟨values, hclose', hvalues⟩ := h.values.closeCell (by rwa [List.length_map])
    refine ⟨⟨keys, values, m.len - 1, m.capacity⟩, _, ?_, h.eraseEntry hentry hkeys hvalues⟩
    rw [if_pos (decide_eq_true hk), h.loadValue hentry, Outcome.done_bind, hclose,
      Outcome.done_bind, hclose', hlook]
    rfl
  · refine ⟨m, es, ?_, ?_⟩
    · rw [if_neg (by rw [decide_eq_false hk]; exact Bool.false_ne_true), lookup_none hk]
      rfl
    · have hsame : M.erase k = M := by
        refine Finmap.ext_lookup fun k' => ?_
        by_cases hkk : k' = k
        · rw [hkk, Finmap.lookup_erase, lookup_none hk]
        · exact Finmap.lookup_erase_ne hkk
      rw [hsame]
      exact h

/-- The values at some of the entries are what the map holds at their keys. -/
theorem values_eq (h : SortedEntries m es M) {sub : List (Int64 × Int64)} (hsub : sub ⊆ es) :
    sub.map Prod.snd = (sub.map Prod.fst).filterMap fun k => M.lookup k := by
  induction sub with
  | nil => rfl
  | cons e sub ih =>
    have hlook := (h.lookup e.1 e.2).mpr (hsub List.mem_cons_self)
    have htail := ih fun x hx => hsub (List.mem_cons_of_mem e hx)
    simp only [List.map_cons, List.filterMap_cons, hlook, htail]

end SortedEntries

/-- The entries of a map and the elements of the vector. -/
def MapHolds (p : BTreeMap × Vec Int64) (t : FiniteMap × List Int64) : Prop :=
  (∃ es, SortedEntries p.1 es t.1) ∧ Holding 8 p.2 t.2

/-- The values at the keys from one bound to another, in the order of the keys. -/
def valuesBetween (M : FiniteMap) (lo hi : Int64) : List Int64 :=
  (between M.keys lo hi).filterMap fun k => M.lookup k

/-- The operations on a finite map and a list. -/
def btreeMapSpec : FiniteMap × List Int64 → BTreeMapOp × (Nat → Bool) →
    Option (BTreeResult × (FiniteMap × List Int64))
  | (_, outs), (.new, _) => some (.unit, (∅, outs))
  | (M, outs), (.insert k v, _) => some (.value (M.lookup k), (M.insert k v, outs))
  | (M, outs), (.get k, _) => some (.value (M.lookup k), (M, outs))
  | (M, outs), (.containsKey k, _) => some (.bool (k ∈ M.keys), (M, outs))
  | (M, outs), (.remove k, _) => some (.value (M.lookup k), (M.erase k, outs))
  | (M, outs), (.len, _) => some (.int M.keys.card, (M, outs))
  | (M, outs), (.clear, _) => some (.int M.keys.card, (∅, outs))
  | (M, outs), (.minKey, _) =>
    some (.value (if h : M.keys.Nonempty then some (M.keys.min' h) else none), (M, outs))
  | (M, outs), (.maxKey, _) =>
    some (.value (if h : M.keys.Nonempty then some (M.keys.max' h) else none), (M, outs))
  | (M, outs), (.rangeKeys lo hi, _) =>
    some (.appended (between M.keys lo hi).length ((outs ++ between M.keys lo hi).map some),
      (M, outs ++ between M.keys lo hi))
  | (M, outs), (.rangeValues lo hi, _) =>
    some (.appended (between M.keys lo hi).length ((outs ++ valuesBetween M lo hi).map some),
      (M, outs ++ valuesBetween M lo hi))
  | (M, outs), (.push x, _) => some (.unit, (M, outs ++ [x]))
  | (M, _), (.vec, _) => some (.unit, (M, []))

section Step

variable {m : BTreeMap} {es : List (Int64 × Int64)} {M : FiniteMap} {out : Vec Int64}
  {outs : List Int64}

theorem mapHolds_of (hm : SortedEntries m es M) (ho : Holding 8 out outs) :
    MapHolds (m, out) (M, outs) :=
  ⟨⟨es, hm⟩, ho⟩

/-- The keys of a range are appended. -/
theorem SortedEntries.rangeKeys (h : SortedEntries m es M) (ho : Holding 8 out outs)
    (heap : Nat → Bool) (lo hi : Int64) :
    (BTree.range heap m.keys m.keys m.len lo hi out = .aborted ∧ BTree.rangeRefused heap out) ∨
      ∃ w, BTree.range heap m.keys m.keys m.len lo hi out =
          .done (((between M.keys lo hi).length : Int), w) ∧
        Holding 8 w (outs ++ between M.keys lo hi) := by
  rcases h.sortedKeys.range h.keys rfl ho heap lo hi with
    hno | ⟨⟨n, w⟩, i, j, hrun, hn, hkeys, hw⟩
  · exact Or.inl hno
  · dsimp only at hn hw
    rw [hkeys] at hw
    exact Or.inr ⟨w, by rw [← hn]; exact hrun, hw⟩

/-- The values of a range are appended. -/
theorem SortedEntries.rangeValues (h : SortedEntries m es M) (ho : Holding 8 out outs)
    (heap : Nat → Bool) (lo hi : Int64) :
    (BTree.range heap m.keys m.values m.len lo hi out = .aborted ∧ BTree.rangeRefused heap out) ∨
      ∃ w, BTree.range heap m.keys m.values m.len lo hi out =
          .done (((between M.keys lo hi).length : Int), w) ∧
        Holding 8 w (outs ++ valuesBetween M lo hi) := by
  have hlength : (es.map Prod.snd).length = (es.map Prod.fst).length := by
    rw [List.length_map, List.length_map]
  rcases h.sortedKeys.range h.values hlength ho heap lo hi with
    hno | ⟨⟨n, w⟩, i, j, hrun, hn, hkeys, hw⟩
  · exact Or.inl hno
  · dsimp only at hn hw
    have hvalues : ((es.map Prod.snd).drop i).take j = valuesBetween M lo hi := by
      have hsub : (es.drop i).take j ⊆ es :=
        ((List.take_sublist j _).trans (List.drop_sublist i es)).subset
      unfold valuesBetween
      rw [← hkeys, ← List.map_drop, ← List.map_take, ← List.map_drop, ← List.map_take]
      exact h.values_eq hsub
    rw [hvalues] at hw
    exact Or.inr ⟨w, by rw [← hn]; exact hrun, hw⟩

end Step

/-- Every operation does to the arrays what it does to the map and the list. -/
theorem step_btreeMap (p : BTreeMap × Vec Int64) (t : FiniteMap × List Int64)
    (i : BTreeMapOp × (Nat → Bool)) (h : MapHolds p t) :
    StepRefines BTreeMap.step btreeMapSpec BTreeMap.refused MapHolds p t i := by
  obtain ⟨m, out⟩ := p
  obtain ⟨M, outs⟩ := t
  obtain ⟨op, heap⟩ := i
  obtain ⟨⟨es, hm⟩, ho⟩ := h
  dsimp only at hm ho
  have hlen : toInt64 m.len = M.keys.card := hm.sortedKeys.length
  cases op with
  | new => exact stepRefines_done rfl rfl (mapHolds_of SortedEntries.new ho)
  | insert k x =>
    rcases hm.insert heap k x with ⟨hrun, href⟩ | ⟨m', es', hrun, hm'⟩
    · exact stepRefines_refused (by simp only [BTreeMap.step, hrun, Outcome.aborted_bind]) href
    · exact stepRefines_done
        (by simp only [BTreeMap.step, hrun, Outcome.done_bind, Outcome.pure_eq]) rfl
        (mapHolds_of hm' ho)
  | get k =>
    exact stepRefines_done
      (by simp only [BTreeMap.step, hm.get k, Outcome.done_bind, Outcome.pure_eq]) rfl
      (mapHolds_of hm ho)
  | containsKey k =>
    exact stepRefines_done
      (by simp only [BTreeMap.step, hm.containsKey k, Outcome.done_bind, Outcome.pure_eq]) rfl
      (mapHolds_of hm ho)
  | remove k =>
    obtain ⟨m', es', hrun, hm'⟩ := hm.remove k
    exact stepRefines_done
      (by simp only [BTreeMap.step, hrun, Outcome.done_bind, Outcome.pure_eq]) rfl
      (mapHolds_of hm' ho)
  | len =>
    exact stepRefines_done
      (by simp only [BTreeMap.step, BTreeMap.length, hlen, Outcome.pure_eq]) rfl
      (mapHolds_of hm ho)
  | clear =>
    exact stepRefines_done
      (by simp only [BTreeMap.step, BTreeMap.clear, hlen, Outcome.pure_eq]) rfl
      (mapHolds_of SortedEntries.new ho)
  | minKey =>
    have hleast : BTree.least m.keys m.len = _ :=
      least_ok hm.keys hm.increasing hm.sortedKeys.mem_iff
    exact stepRefines_done
      (by simp only [BTreeMap.step, hleast, Outcome.done_bind, Outcome.pure_eq]) rfl
      (mapHolds_of hm ho)
  | maxKey =>
    have hgreatest : BTree.greatest m.keys m.len = _ :=
      greatest_ok hm.keys hm.increasing hm.sortedKeys.mem_iff
    exact stepRefines_done
      (by simp only [BTreeMap.step, hgreatest, Outcome.done_bind, Outcome.pure_eq]) rfl
      (mapHolds_of hm ho)
  | rangeKeys lo hi =>
    rcases hm.rangeKeys ho heap lo hi with ⟨hrun, href⟩ | ⟨w, hrun, hw⟩
    · exact stepRefines_refused (by simp only [BTreeMap.step, hrun, Outcome.aborted_bind]) href
    · exact stepRefines_done
        (by simp only [BTreeMap.step, hrun, Outcome.done_bind, Outcome.pure_eq, hw.contents]) rfl
        (mapHolds_of hm hw)
  | rangeValues lo hi =>
    rcases hm.rangeValues ho heap lo hi with ⟨hrun, href⟩ | ⟨w, hrun, hw⟩
    · exact stepRefines_refused (by simp only [BTreeMap.step, hrun, Outcome.aborted_bind]) href
    · exact stepRefines_done
        (by simp only [BTreeMap.step, hrun, Outcome.done_bind, Outcome.pure_eq, hw.contents]) rfl
        (mapHolds_of hm hw)
  | push x =>
    rcases ho.pushWord heap x with ⟨hrun, href⟩ | ⟨w, hrun, hw⟩
    · exact stepRefines_refused (by simp only [BTreeMap.step, hrun, Outcome.aborted_bind]) href
    · exact stepRefines_done
        (by simp only [BTreeMap.step, hrun, Outcome.done_bind, Outcome.pure_eq]) rfl
        (mapHolds_of hm hw)
  | vec =>
    rcases emptyVec_ok heap with ⟨hrun, href⟩ | ⟨w, hrun, hw⟩
    · exact stepRefines_refused (by simp only [BTreeMap.step, hrun, Outcome.aborted_bind]) href
    · exact stepRefines_done
        (by simp only [BTreeMap.step, hrun, Outcome.done_bind, Outcome.pure_eq]) rfl
        (mapHolds_of hm hw)

/-! ## Sequences of operations -/

end Vani.Analysis
