import Vani.Analysis.BstRefines
import Vani.Backend.SkipList
import Vani.Library.LinkedList

/-!
# The emitted skip list refines a finite set

The nodes in use stand on the lowest level in the order of their keys, and on each level those
that have it. A search passes on each level the nodes with smaller keys and leaves the last of
them: after these a node is put in, and from after these it is taken out. The slots of removed
nodes are not used again, so the list is right as long as the number of the next slot fits into
`int32_t`.
-/

set_option autoImplicit false

namespace Vani.Analysis

open Vani.Library Vani.Backend

variable {ρ : Type} {sl sl' : SkipList ρ} {nodes below above : List Nat} {key : Nat → Int64}
  {level : Nat → Nat} {x : Int64} {lvl : Nat} {heap : Nat → Bool}

/-! ## Levels -/

/-- The number of a node, or `-1`. -/
def nodeNumber : Option Nat → Int
  | none => -1
  | some i => i

/-- The cell of a node on a level has the number of what comes after it. -/
def NextOn (forward : Array (Option Int)) (lvl i : Nat) (o : Option Nat) : Prop :=
  forward[i * 8 + lvl]? = some (some (nodeNumber o))

theorem cell_eq (i lvl : Nat) : SkipList.cell i lvl = ((i * 8 + lvl : Nat) : Int) := by
  unfold SkipList.cell SkipList.maxLevel
  omega

theorem NextOn.fetch {forward : Array (Option Int)} {i : Nat} {o : Option Nat}
    (h : NextOn forward lvl i o) :
    Bst.fetch forward (SkipList.cell i lvl) = .done (nodeNumber o) := by
  rw [cell_eq]
  exact fetch_of_get h

/-- The nodes that have a level. -/
def onLevel (level : Nat → Nat) (lvl : Nat) (nodes : List Nat) : List Nat :=
  nodes.filter fun i => lvl < level i

/-- The last node on a level, or the head. -/
def lastOn (level : Nat → Nat) (lvl : Nat) (nodes : List Nat) : Nat :=
  (onLevel level lvl nodes).getLastD 0

theorem mem_onLevel {i : Nat} : i ∈ onLevel level lvl nodes ↔ i ∈ nodes ∧ lvl < level i := by
  unfold onLevel
  rw [List.mem_filter, decide_eq_true_iff]

theorem onLevel_append : onLevel level lvl (below ++ above) =
    onLevel level lvl below ++ onLevel level lvl above := by
  unfold onLevel
  exact List.filter_append ..

theorem lastOn_mem {n : Nat} (hle : lvl ≤ n) :
    lastOn level n below ∈ 0 :: onLevel level lvl below := by
  rcases List.mem_cons.mp (getLastD_mem 0 (onLevel level n below)) with hzero | hmem
  · rw [lastOn, hzero]
    exact List.mem_cons_self
  · obtain ⟨hin, hlt⟩ := mem_onLevel.mp hmem
    exact List.mem_cons_of_mem 0 (mem_onLevel.mpr ⟨hin, hle.trans_lt hlt⟩)

/-- The nodes in use, their keys and their levels. -/
structure Arranged (sl : SkipList ρ) (nodes : List Nat) (key : Nat → Int64)
    (level : Nat → Nat) : Prop where
  inside : ∀ i ∈ nodes, 0 < i ∧ i < sl.numNodes
  keys : ∀ i ∈ nodes, sl.keys[i]? = some (some (key i))
  levels : ∀ i ∈ nodes, sl.nodeLevels[i]? = some (some (level i))
  range : ∀ i ∈ nodes, 1 ≤ level i ∧ level i ≤ 8
  sorted : Increasing (nodes.map key)
  linked : ∀ lvl, lvl < 8 → Linked (NextOn sl.forward lvl) 0 (onLevel level lvl nodes)
  tail : sl.tailNode = nodeNumber nodes.getLast?
  numKeys : sl.numKeys = nodes.length

namespace Arranged

theorem nodup (h : Arranged sl nodes key level) : nodes.Nodup :=
  List.Nodup.of_map key h.sorted.nodup

/-- The head is not one of the nodes. -/
theorem head_notMem (h : Arranged sl nodes key level) : 0 ∉ nodes :=
  fun hmem => Nat.lt_irrefl 0 (h.inside 0 hmem).1

theorem nodup_onLevel (h : Arranged sl nodes key level) (lvl : Nat) :
    (0 :: onLevel level lvl nodes).Nodup :=
  List.nodup_cons.mpr ⟨fun hmem => h.head_notMem (mem_onLevel.mp hmem).1, h.nodup.filter _⟩

/-- All nodes are on the lowest level. -/
theorem onLevel_zero (h : Arranged sl nodes key level) (hsub : below ⊆ nodes) :
    onLevel level 0 below = below := by
  refine List.filter_eq_self.mpr fun i hi => ?_
  have hrange := h.range i (hsub hi)
  exact decide_eq_true (by omega)

end Arranged

/-! ## The search -/

/-- The nodes with smaller keys, and the others. -/
structure SplitAt (nodes : List Nat) (key : Nat → Int64) (x : Int64) (below above : List Nat) :
    Prop where
  append : nodes = below ++ above
  below : ∀ i ∈ below, key i < x
  above : ∀ i ∈ above, x ≤ key i

theorem SplitAt.below_sub (h : SplitAt nodes key x below above) : below ⊆ nodes :=
  h.append ▸ List.subset_append_left below above

theorem SplitAt.above_sub (h : SplitAt nodes key x below above) : above ⊆ nodes :=
  h.append ▸ List.subset_append_right below above

theorem Arranged.exists_splitAt (h : Arranged sl nodes key level) (x : Int64) :
    ∃ below above, SplitAt nodes key x below above := by
  have hsorted := h.sorted
  clear h
  induction nodes with
  | nil => exact ⟨[], [], rfl, fun _ hi => absurd hi List.not_mem_nil,
      fun _ hi => absurd hi List.not_mem_nil⟩
  | cons i nodes ih =>
    obtain ⟨hfirst, hrest⟩ := List.pairwise_cons.mp hsorted
    by_cases hlt : key i < x
    · obtain ⟨below, above, rfl, hbelow, habove⟩ := ih hrest
      refine ⟨i :: below, above, rfl, fun j hj => ?_, habove⟩
      rcases List.mem_cons.mp hj with rfl | hj
      · exact hlt
      · exact hbelow j hj
    · refine ⟨[], i :: nodes, rfl, fun _ hj => absurd hj List.not_mem_nil, fun j hj => ?_⟩
      rcases List.mem_cons.mp hj with rfl | hj
      · exact not_lt.mp hlt
      · exact (not_lt.mp hlt).trans (hfirst _ (List.mem_map_of_mem hj)).le

/-- After the last node with a smaller key comes the first of the others. -/
theorem Arranged.nextOn_last (h : Arranged sl nodes key level)
    (hsplit : SplitAt nodes key x below above) (hlvl : lvl < 8) :
    NextOn sl.forward lvl (lastOn level lvl below) (onLevel level lvl above).head? := by
  have hlinked := h.linked lvl hlvl
  rw [hsplit.append, onLevel_append] at hlinked
  exact hlinked.after.head

theorem Arranged.nextOn_lowest (h : Arranged sl nodes key level)
    (hsplit : SplitAt nodes key x below above) :
    NextOn sl.forward 0 (below.getLastD 0) above.head? := by
  have hnext := h.nextOn_last hsplit (by decide : 0 < 8)
  rwa [lastOn, h.onLevel_zero hsplit.below_sub, h.onLevel_zero hsplit.above_sub] at hnext

/-- A walk on a level passes the nodes with smaller keys. -/
theorem walk_linked {c : Nat} {mid rest : List Nat} {fuel : Nat}
    (hlinked : Linked (NextOn sl.forward lvl) c (mid ++ rest))
    (hkeys : ∀ i ∈ mid ++ rest, sl.keys[i]? = some (some (key i)))
    (hmid : ∀ i ∈ mid, key i < x) (hrest : ∀ i ∈ rest, x ≤ key i) (hfuel : mid.length < fuel) :
    Outcome.loop (sl.searchTurn x lvl) fuel (c : Int) = .done ((mid.getLastD c : Nat) : Int) := by
  induction mid generalizing c fuel with
  | nil =>
    obtain ⟨n, rfl⟩ : ∃ n, fuel = n + 1 := ⟨fuel - 1, by rw [List.length_nil] at hfuel; omega⟩
    refine loop_leave ?_
    unfold SkipList.searchTurn
    cases rest with
    | nil =>
      have hnext : NextOn sl.forward lvl c none := hlinked
      rw [hnext.fetch]
      rfl
    | cons i rest =>
      have hnext : NextOn sl.forward lvl c (some i) := hlinked.1
      rw [hnext.fetch, Outcome.done_bind, nodeNumber, if_neg slot_ne,
        fetch_of_get (hkeys i List.mem_cons_self), Outcome.done_bind,
        if_pos (hrest i List.mem_cons_self)]
      rfl
  | cons i mid ih =>
    obtain ⟨n, rfl⟩ : ∃ n, fuel = n + 1 := ⟨fuel - 1, by rw [List.length_cons] at hfuel; omega⟩
    have hnext : NextOn sl.forward lvl c (some i) := hlinked.1
    have hturn : sl.searchTurn x lvl (c : Int) = .done (.inl (i : Int)) := by
      unfold SkipList.searchTurn
      rw [hnext.fetch, Outcome.done_bind, nodeNumber, if_neg slot_ne,
        fetch_of_get (hkeys i List.mem_cons_self), Outcome.done_bind,
        if_neg (not_le.mpr (hmid i List.mem_cons_self))]
      rfl
    rw [loop_on hturn, List.getLastD_cons]
    rw [List.length_cons] at hfuel
    exact ih hlinked.2 (fun j hj => hkeys j (List.mem_cons_of_mem i hj))
      (fun j hj => hmid j (List.mem_cons_of_mem i hj)) (by omega)

/-- The arrays have room for so many nodes, and there is a head. -/
structure NodesSized (sl : SkipList ρ) : Prop where
  keys : sl.keys.size = sl.capacity
  forward : sl.forward.size = sl.capacity * 8
  nodeLevels : sl.nodeLevels.size = sl.capacity
  head : 0 < sl.numNodes
  room : sl.numNodes ≤ sl.capacity

/-- No more nodes are in use than the arena has. -/
theorem Arranged.length_le (h : Arranged sl nodes key level) (hsized : NodesSized sl) :
    nodes.length ≤ sl.keys.size := by
  refine length_le_of_lt h.nodup fun i hi => ?_
  rw [hsized.keys]
  exact (h.inside i hi).2.trans_le hsized.room

section Search

variable (h : Arranged sl nodes key level) (hsized : NodesSized sl)
  (hsplit : SplitAt nodes key x below above)

include h hsized hsplit

/-- From a node with a smaller key, a level is left at the last such node. -/
theorem along_eq {c : Nat} (hlvl : lvl < 8) (hc : c ∈ 0 :: onLevel level lvl below) :
    sl.along x lvl c = .done (lastOn level lvl below : Int) := by
  obtain ⟨start, mid, hstart, hlast⟩ := exists_upTo hc
  have hlinked := h.linked lvl hlvl
  rw [hsplit.append, onLevel_append, hstart, List.append_assoc] at hlinked
  have hafter := hlinked.after
  rw [hlast] at hafter
  have hmid : ∀ i ∈ mid, i ∈ below := fun i hi =>
    (mem_onLevel.mp (hstart ▸ List.mem_append_right start hi)).1
  have habove : ∀ i ∈ onLevel level lvl above, i ∈ above := fun i hi => (mem_onLevel.mp hi).1
  have hlength : mid.length ≤ nodes.length := by
    have hle : (onLevel level lvl below).length ≤ below.length := List.length_filter_le ..
    rw [hstart, List.length_append] at hle
    rw [hsplit.append, List.length_append]
    omega
  have hsize := h.length_le hsized
  unfold SkipList.along
  rw [walk_linked hafter (fun i hi => h.keys i ?_) (fun i hi => hsplit.below i (hmid i hi))
    (fun i hi => hsplit.above i (habove i hi)) (by omega)]
  · rw [lastOn, hstart, getLastD_append, hlast]
  · rw [hsplit.append]
    rcases List.mem_append.mp hi with hi | hi
    · exact List.mem_append_left above (hmid i hi)
    · exact List.mem_append_right below (habove i hi)

/-- The search from the level below one on comes to the last node with a smaller key. -/
theorem descend_eq {n c : Nat} (hn : n < 8)
    (hc : ∀ lvl, lvl ≤ n → c ∈ 0 :: onLevel level lvl below) :
    sl.descend x (n + 1) c = .done (below.getLastD 0 : Int) := by
  induction n generalizing c with
  | zero =>
    unfold SkipList.descend
    rw [along_eq h hsized hsplit hn (hc 0 le_rfl), Outcome.done_bind, SkipList.descend,
      lastOn, h.onLevel_zero hsplit.below_sub]
    rfl
  | succ n ih =>
    unfold SkipList.descend
    rw [along_eq h hsized hsplit hn (hc (n + 1) le_rfl), Outcome.done_bind]
    exact ih (by omega) fun lvl hlvl => lastOn_mem (by omega)

/-- The search leaves on every level the last node with a smaller key. -/
theorem updates_eq {n c : Nat} (hn : n ≤ 8) (hsmall : sl.numNodes ≤ 2 ^ 31)
    (hc : ∀ lvl, lvl < n → c ∈ 0 :: onLevel level lvl below) :
    sl.updates x n c =
      .done ((List.range n).map fun lvl => (lastOn level lvl below : Int)) := by
  induction n generalizing c with
  | zero => rfl
  | succ n ih =>
    have hlast : lastOn level n below < 2 ^ 31 := by
      rcases List.mem_cons.mp (lastOn_mem le_rfl) with hzero | hmem
      · rw [hzero]
        decide
      · have hin := hsplit.append ▸ List.mem_append_left above (mem_onLevel.mp hmem).1
        exact (h.inside _ hin).2.trans_le hsmall
    unfold SkipList.updates
    rw [along_eq h hsized hsplit hn (hc n (Nat.lt_succ_self n)), Outcome.done_bind,
      ih (by omega) fun lvl hlvl => lastOn_mem hlvl.le, Outcome.done_bind, List.range_succ,
      List.map_append, toInt32_of_lt hlast]
    rfl

omit hsized

/-- A key that is there is found after the nodes with smaller keys. -/
theorem candidate_found {i : Nat} {rest : List Nat} (habove : above = i :: rest) (hi : key i = x) :
    sl.candidate x (below.getLastD 0 : Int) = .done (some (i : Int)) := by
  have hnext := h.nextOn_lowest hsplit
  have hmem : i ∈ nodes := by
    rw [hsplit.append, habove]
    exact List.mem_append_right below List.mem_cons_self
  unfold SkipList.candidate
  rw [hnext.fetch, Outcome.done_bind, habove, List.head?_cons, nodeNumber, if_neg slot_ne,
    fetch_of_get (h.keys i hmem), Outcome.done_bind, if_pos hi]
  rfl

/-- A key that is not there is not found. -/
theorem candidate_missing (hx : x ∉ nodes.map key) :
    sl.candidate x (below.getLastD 0 : Int) = .done none := by
  have hnext := h.nextOn_lowest hsplit
  unfold SkipList.candidate
  rw [hnext.fetch]
  cases above with
  | nil => rfl
  | cons i rest =>
    have hmem : i ∈ nodes := by
      rw [hsplit.append]
      exact List.mem_append_right below List.mem_cons_self
    have hne : key i ≠ x := fun heq => hx (heq ▸ List.mem_map_of_mem hmem)
    rw [Outcome.done_bind, List.head?_cons, nodeNumber, if_neg slot_ne,
      fetch_of_get (h.keys i hmem), Outcome.done_bind, if_neg hne]
    rfl

omit h in
/-- A key that is there is the first of the others. -/
theorem SplitAt.head_eq (hsorted : Increasing (nodes.map key)) (hx : x ∈ nodes.map key) :
    ∃ i rest, above = i :: rest ∧ key i = x := by
  obtain ⟨j, hj, rfl⟩ := List.mem_map.mp hx
  rw [hsplit.append] at hj hsorted
  rcases List.mem_append.mp hj with hj | hj
  · exact absurd (hsplit.below j hj) (lt_irrefl _)
  · cases above with
    | nil => exact absurd hj List.not_mem_nil
    | cons i rest =>
      refine ⟨i, rest, rfl, ?_⟩
      rcases List.mem_cons.mp hj with rfl | hj
      · rfl
      · rw [List.map_append, List.map_cons] at hsorted
        have hlt := (List.pairwise_cons.mp (List.pairwise_append.mp hsorted).2.1).1 (key j)
          (List.mem_map_of_mem hj)
        exact absurd (hsplit.above i List.mem_cons_self) (not_le.mpr hlt)

end Search

theorem Arranged.contains_eq (h : Arranged sl nodes key level) (hsized : NodesSized sl)
    (x : Int64) : sl.contains x = .done (decide (x ∈ nodes.map key)) := by
  obtain ⟨below, above, hsplit⟩ := h.exists_splitAt x
  unfold SkipList.contains
  rw [show SkipList.maxLevel = 7 + 1 from rfl, ← Int.natCast_zero,
    descend_eq h hsized hsplit (by decide) fun _ _ => List.mem_cons_self, Outcome.done_bind]
  by_cases hx : x ∈ nodes.map key
  · obtain ⟨i, rest, habove, hi⟩ := hsplit.head_eq h.sorted hx
    rw [candidate_found h hsplit habove hi, decide_eq_true hx]
    rfl
  · rw [candidate_missing h hsplit hx, decide_eq_false hx]
    rfl

/-! ## Insertion -/

section Cells

variable {forward : Array (Option Int)} {i n : Nat}

/-- A cell is stored to. -/
theorem store_cell (hi : i * 8 + lvl < forward.size) (v : Int) :
    Bst.store forward (SkipList.cell i lvl) v =
      .done (forward.setIfInBounds (i * 8 + lvl) (some v)) := by
  rw [cell_eq]
  exact store_of_lt hi v

theorem get_setCell (hi : i * 8 + lvl < forward.size) (hlvl : lvl < 8) (v : Option Int)
    (j : Nat) {m : Nat} (hm : m < 8) :
    (forward.setIfInBounds (i * 8 + lvl) v)[j * 8 + m]? =
      if j = i ∧ m = lvl then some v else forward[j * 8 + m]? := by
  by_cases heq : j = i ∧ m = lvl
  · obtain ⟨rfl, rfl⟩ := heq
    rw [if_pos ⟨rfl, rfl⟩]
    exact Array.getElem?_setIfInBounds_self_of_lt hi
  · rw [if_neg heq]
    exact Array.getElem?_setIfInBounds_ne (by omega)

/-- The first eight entries of `update`. -/
theorem updateAt_eq (f : Nat → Int) (hlvl : lvl < 8) :
    SkipList.updateAt ((List.range 8).map f) lvl = .done (f lvl) := by
  unfold SkipList.updateAt
  rw [List.getElem?_map, List.getElem?_range hlvl]
  rfl

variable {last : Nat → Nat} {newLvl : Nat}

/-- The cells after a node is linked on the lowest levels. -/
def LinkedUpTo (forward : Array (Option Int)) (last : Nat → Nat) (n k : Nat)
    (a : Array (Option Int)) : Prop :=
  a.size = forward.size ∧ ∀ i lvl, lvl < 8 → a[i * 8 + lvl]? =
    if lvl < k ∧ i = n then forward[last lvl * 8 + lvl]?
    else if lvl < k ∧ i = last lvl then some (some (Bst.toInt32 n))
    else forward[i * 8 + lvl]?

theorem LinkedUpTo.step {a : Array (Option Int)} {k : Nat} (h : LinkedUpTo forward last n k a)
    (hk : k < 8) (hn : n * 8 + 8 ≤ forward.size) (hne : last k ≠ n)
    (hlast : ∃ o, NextOn forward k (last k) o) :
    ∃ a', SkipList.linkTurn n ((List.range 8).map fun lvl => (last lvl : Int)) k a = .done a' ∧
      LinkedUpTo forward last n (k + 1) a' := by
  obtain ⟨hsize, hcells⟩ := h
  obtain ⟨o, ho⟩ := hlast
  have hnext : NextOn a k (last k) o := by
    refine (hcells (last k) k hk).trans ?_
    rw [if_neg fun hlt => Nat.lt_irrefl k hlt.1, if_neg fun hlt => Nat.lt_irrefl k hlt.1]
    exact ho
  have hnew : n * 8 + k < a.size := by omega
  have hold : last k * 8 + k <
      (a.setIfInBounds (n * 8 + k) (some (nodeNumber o))).size := by
    rw [Array.size_setIfInBounds]
    exact lt_of_get hnext
  refine ⟨(a.setIfInBounds (n * 8 + k) (some (nodeNumber o))).setIfInBounds (last k * 8 + k)
    (some (Bst.toInt32 n)), ?_, ?_, fun i lvl hlvl => ?_⟩
  · unfold SkipList.linkTurn
    rw [updateAt_eq _ hk, Outcome.done_bind, hnext.fetch, Outcome.done_bind, store_cell hnew,
      Outcome.done_bind, store_cell hold]
  · rw [Array.size_setIfInBounds, Array.size_setIfInBounds, hsize]
  · rw [get_setCell hold hk _ i hlvl, get_setCell hnew hk _ i hlvl, hcells i lvl hlvl]
    by_cases hlt : lvl = k
    · subst hlt
      by_cases hin : i = n
      · subst hin
        rw [if_neg fun heq => hne heq.1.symm, if_pos ⟨rfl, rfl⟩,
          if_pos ⟨Nat.lt_succ_self lvl, rfl⟩]
        exact ho.symm
      · by_cases hil : i = last lvl
        · rw [if_pos ⟨hil, rfl⟩, if_neg fun heq => hin heq.2,
            if_pos ⟨Nat.lt_succ_self lvl, hil⟩]
        · simp only [hin, hil, false_and, and_false, if_false]
    · simp only [hlt, and_false, if_false]
      have hiff : lvl < k + 1 ↔ lvl < k := by omega
      simp only [hiff]

/-- A new node is linked on its levels and has nothing after it on the others. -/
theorem linkNode_ok (hn : n * 8 + 8 ≤ forward.size) (hL : newLvl ≤ 8)
    (hne : ∀ lvl, last lvl ≠ n) (hlast : ∀ lvl, lvl < 8 → ∃ o, NextOn forward lvl (last lvl) o) :
    ∃ a, SkipList.link n ((List.range 8).map fun lvl => (last lvl : Int)) newLvl forward =
        .done a ∧ a.size = forward.size ∧ ∀ i lvl, lvl < 8 → a[i * 8 + lvl]? =
      if i = n then if lvl < newLvl then forward[last lvl * 8 + lvl]? else some (some (-1))
      else if lvl < newLvl ∧ i = last lvl then some (some (Bst.toInt32 n))
      else forward[i * 8 + lvl]? := by
  obtain ⟨a, hrun, hsize, hcells⟩ := Outcome.forRange_of_step (n := newLvl) (s := forward)
    (LinkedUpTo forward last n)
    ⟨rfl, fun i lvl _ => by
      rw [if_neg fun hlt => Nat.not_lt_zero lvl hlt.1, if_neg fun hlt => Nat.not_lt_zero lvl hlt.1]⟩
    fun k a hk h => h.step (by omega) hn (hne k) (hlast k (by omega))
  obtain ⟨a', hrun', hsize', hcells'⟩ := Outcome.forRange_of_step (n := 8 - newLvl) (s := a)
    (f := fun k a => Bst.store a (SkipList.cell n (newLvl + k)) (-1))
    (fun k a' => a'.size = a.size ∧ ∀ i lvl, lvl < 8 → a'[i * 8 + lvl]? =
      if i = n ∧ newLvl ≤ lvl ∧ lvl < newLvl + k then some (some (-1)) else a[i * 8 + lvl]?)
    ⟨rfl, fun i lvl _ => by rw [if_neg (by omega)]⟩
    (by
      rintro k a' hk ⟨hsize', hcells'⟩
      have hlt : n * 8 + (newLvl + k) < a'.size := by omega
      refine ⟨_, store_cell hlt _, ?_, fun i lvl hlvl => ?_⟩
      · rw [Array.size_setIfInBounds, hsize']
      · rw [get_setCell hlt (by omega) _ i hlvl, hcells' i lvl hlvl]
        by_cases heq : i = n ∧ lvl = newLvl + k
        · rw [if_pos heq, if_pos (by omega)]
        · rw [if_neg heq]
          exact if_congr (by omega) rfl rfl)
  refine ⟨a', ?_, hsize'.trans hsize, fun i lvl hlvl => ?_⟩
  · unfold SkipList.link
    rw [hrun, Outcome.done_bind]
    exact hrun'
  · rw [hcells' i lvl hlvl, hcells i lvl hlvl]
    by_cases hin : i = n
    · subst hin
      by_cases hlt : lvl < newLvl
      · rw [if_neg (by omega), if_pos ⟨hlt, rfl⟩, if_pos rfl, if_pos hlt]
      · rw [if_pos (by omega), if_pos rfl, if_neg hlt]
    · rw [if_neg (by omega), if_neg (by omega), if_neg hin]

end Cells

/-- The nodes, and numbers for all of them that fit. -/
structure SkipHolds (sl : SkipList ρ) (nodes : List Nat) (key : Nat → Int64)
    (level : Nat → Nat) : Prop where
  sized : NodesSized sl
  arranged : Arranged sl nodes key level
  small : sl.numNodes ≤ 2 ^ 31

/-- A larger arena is needed, and the memory for it is refused. -/
def ArenaRefused (heap : Nat → Bool) (sl : SkipList ρ) : Prop :=
  sl.capacity ≤ sl.numNodes ∧ SkipList.granted heap (Bst.grownCapacity sl.capacity) = false

/-- One doubling is enough for another node. -/
theorem newCapacity_eq {capacity needed : Nat} (hle : needed ≤ Bst.grownCapacity capacity) :
    SkipList.newCapacity capacity needed = .done (Bst.grownCapacity capacity) :=
  loop_leave (by rw [if_neg (not_lt.mpr hle)]; rfl)

/-- There is room for another node, or no memory for it. -/
theorem SkipHolds.ensureCap (h : SkipHolds sl nodes key level) (heap : Nat → Bool) (s : ρ) :
    ({ sl with rngState := s }.ensureCap heap (sl.numNodes + 1)).Returns (ArenaRefused heap sl)
      fun sl' => SkipHolds sl' nodes key level ∧ sl'.numNodes < sl'.capacity ∧
        sl'.numNodes = sl.numNodes := by
  obtain ⟨hsized, harranged, hsmall⟩ := h
  have hgrown : sl.capacity < Bst.grownCapacity sl.capacity := by
    unfold Bst.grownCapacity
    split <;> omega
  have hroom := hsized.room
  have hforward := hsized.forward
  unfold SkipList.ensureCap
  dsimp only
  by_cases hfits : sl.numNodes + 1 ≤ sl.capacity
  · rw [if_pos hfits]
    exact Outcome.Returns.of_done ⟨⟨⟨hsized.keys, hforward, hsized.nodeLevels, hsized.head, hroom⟩,
      ⟨harranged.inside, harranged.keys, harranged.levels, harranged.range, harranged.sorted,
        harranged.linked, harranged.tail, harranged.numKeys⟩, hsmall⟩, hfits, rfl⟩
  · rw [if_neg hfits, newCapacity_eq (by omega), Outcome.done_bind]
    by_cases hgranted : SkipList.granted heap (Bst.grownCapacity sl.capacity) = true
    · rw [if_pos hgranted]
      refine Outcome.Returns.of_done ⟨⟨⟨?_, ?_, ?_, hsized.head, ?_⟩,
        ⟨harranged.inside, fun i hi => resize_get (harranged.keys i hi) _,
          fun i hi => resize_get (harranged.levels i hi) _, harranged.range, harranged.sorted,
          fun lvl hlvl => (harranged.linked lvl hlvl).frame fun i _ o ho => resize_get ho _,
          harranged.tail, harranged.numKeys⟩, hsmall⟩, ?_, rfl⟩
      · exact resize_size _ (by rw [hsized.keys]; exact hgrown.le)
      · exact resize_size _ (by unfold SkipList.maxLevel; omega)
      · exact resize_size _ (by rw [hsized.nodeLevels]; exact hgrown.le)
      · exact hroom.trans hgrown.le
      · exact lt_of_le_of_lt hroom hgrown
    · rw [if_neg hgranted]
      exact Or.inl ⟨rfl, by omega, by simpa using hgranted⟩

/-- The random level is one of the eight. -/
theorem levelLoop_range (next : ρ → UInt64 × ρ) (k lvl : Nat) (s : ρ) :
    lvl ≤ (SkipList.levelLoop next k lvl s).1 ∧ (SkipList.levelLoop next k lvl s).1 ≤ lvl + k := by
  induction k generalizing lvl s with
  | zero => exact ⟨le_rfl, le_rfl⟩
  | succ k ih =>
    rw [SkipList.levelLoop]
    dsimp only
    split
    · exact ⟨le_rfl, Nat.le_add_right lvl (k + 1)⟩
    · have hk := ih (lvl + 1) (next s).2
      omega

/-- On a level that it has, a new node is put in, and the other levels stay. -/
theorem linked_inserted {forward a : Array (Option Int)} {B A : List Nat} {n L : Nat}
    (hlinked : Linked (NextOn forward lvl) 0 (B ++ A)) (hnodup : (0 :: (B ++ A)).Nodup)
    (hn : n ∉ 0 :: (B ++ A))
    (hcells : ∀ i, a[i * 8 + lvl]? =
      if i = n then if lvl < L then forward[B.getLastD 0 * 8 + lvl]? else some (some (-1))
      else if lvl < L ∧ i = B.getLastD 0 then some (some (n : Int)) else forward[i * 8 + lvl]?) :
    Linked (NextOn a lvl) 0 (B ++ if lvl < L then n :: A else A) := by
  have hne : ∀ i ∈ 0 :: (B ++ A), i ≠ n := fun i hi heq => hn (heq ▸ hi)
  by_cases hlt : lvl < L
  · have hlast : B.getLastD 0 ≠ n :=
      hne _ (List.cons_append ▸ List.mem_append_left A (getLastD_mem 0 B))
    rw [if_pos hlt]
    refine hlinked.insert hnodup ?_ (fun o ho => ?_) fun i hi hother o ho => ?_
    · exact (hcells _).trans (by rw [if_neg hlast, if_pos ⟨hlt, rfl⟩]; rfl)
    · exact (hcells n).trans (by rw [if_pos rfl, if_pos hlt]; exact ho)
    · exact (hcells i).trans (by rw [if_neg (hne i hi), if_neg fun h => hother h.2]; exact ho)
  · rw [if_neg hlt]
    refine hlinked.frame fun i hi o ho => ?_
    exact (hcells i).trans (by rw [if_neg (hne i hi), if_neg fun h => hlt h.1]; exact ho)

/-- The last node is the new one exactly if nothing comes after it. -/
theorem tail_inserted {n : Nat} {t : Int} (ht : t = nodeNumber (below ++ above).getLast?) :
    (if nodeNumber above.head? = -1 then (n : Int) else t) =
      nodeNumber (below ++ n :: above).getLast? := by
  cases above with
  | nil =>
    rw [List.head?_nil, nodeNumber, if_pos rfl, List.getLast?_concat]
    rfl
  | cons i rest =>
    rw [List.head?_cons, nodeNumber, if_neg slot_ne, ht, List.getLast?_append_cons,
      List.getLast?_append_cons, List.getLast?_cons_cons]

theorem map_inserted {n : Nat} (hn : n ∉ below ++ above) :
    (below ++ n :: above).map (Function.update key n x) = below.map key ++ x :: above.map key := by
  have hold : ∀ i ∈ below ++ above, Function.update key n x i = key i :=
    fun i hi => Function.update_of_ne (fun heq : i = n => hn (heq ▸ hi)) _ _
  rw [List.map_append, List.map_cons, Function.update_self,
    List.map_congr_left fun i hi => hold i (List.mem_append_left above hi),
    List.map_congr_left fun i hi => hold i (List.mem_append_right below hi)]

/-- The state after an insertion. -/
def withNode (sl : SkipList ρ) (x : Int64) (L : Nat) (a : Array (Option Int))
    (after : Option Nat) : SkipList ρ :=
  { sl with
    keys := sl.keys.setIfInBounds sl.numNodes (some x)
    nodeLevels := sl.nodeLevels.setIfInBounds sl.numNodes (some L)
    forward := a
    tailNode := if nodeNumber after = -1 then (sl.numNodes : Int) else sl.tailNode
    numNodes := sl.numNodes + 1
    numKeys := sl.numKeys + 1 }

/-- The next node has so many levels, and is linked on them. -/
structure NodeLinked (sl : SkipList ρ) (last : Nat → Nat) (L : Nat) (a : Array (Option Int)) :
    Prop where
  range : 1 ≤ L ∧ L ≤ 8
  size : a.size = sl.forward.size
  cells : ∀ i lvl, lvl < 8 → a[i * 8 + lvl]? =
    if i = sl.numNodes then
      if lvl < L then sl.forward[last lvl * 8 + lvl]? else some (some (-1))
    else if lvl < L ∧ i = last lvl then some (some (Bst.toInt32 sl.numNodes))
    else sl.forward[i * 8 + lvl]?

/-- A node goes in after the nodes with smaller keys. -/
theorem Arranged.insertNode {L : Nat} {a : Array (Option Int)} (h : Arranged sl nodes key level)
    (hsplit : SplitAt nodes key x below above) (hx : x ∉ nodes.map key)
    (hlinks : NodeLinked sl (fun lvl => lastOn level lvl below) L a)
    (hhead : 0 < sl.numNodes) (hroom : sl.numNodes < sl.keys.size)
    (hroom' : sl.numNodes < sl.nodeLevels.size) (hfits : sl.numNodes < 2 ^ 31) :
    Arranged (withNode sl x L a above.head?) (below ++ sl.numNodes :: above)
      (Function.update key sl.numNodes x) (Function.update level sl.numNodes L) := by
  have hnew : ∀ i ∈ nodes, i ≠ sl.numNodes := fun i hi => (h.inside i hi).2.ne
  have hmem : ∀ i, i ∈ below ++ sl.numNodes :: above ↔ i = sl.numNodes ∨ i ∈ nodes := by
    intro i
    rw [hsplit.append, List.mem_append, List.mem_append, List.mem_cons, or_left_comm]
  have hunused : sl.numNodes ∉ below ++ above := fun hin => hnew _ (hsplit.append ▸ hin) rfl
  have hlevels : ∀ lvl l, l ⊆ nodes →
      onLevel (Function.update level sl.numNodes L) lvl l = onLevel level lvl l := by
    intro lvl l hl
    refine List.filter_congr fun i hi => ?_
    rw [Function.update_of_ne (hnew i (hl hi))]
  refine ⟨fun i hi => ?_, fun i hi => ?_, fun i hi => ?_, fun i hi => ?_, ?_, fun lvl hlvl => ?_,
    ?_, ?_⟩
  · show 0 < i ∧ i < sl.numNodes + 1
    rcases (hmem i).mp hi with rfl | hi
    · exact ⟨hhead, Nat.lt_succ_self _⟩
    · have hin := h.inside i hi
      exact ⟨hin.1, hin.2.trans (Nat.lt_succ_self _)⟩
  · show (sl.keys.setIfInBounds _ _)[i]? = _
    rcases (hmem i).mp hi with rfl | hi
    · rw [Function.update_self]
      exact Array.getElem?_setIfInBounds_self_of_lt hroom
    · rw [Function.update_of_ne (hnew i hi), Array.getElem?_setIfInBounds_ne (hnew i hi).symm]
      exact h.keys i hi
  · show (sl.nodeLevels.setIfInBounds _ _)[i]? = _
    rcases (hmem i).mp hi with rfl | hi
    · rw [Function.update_self]
      exact Array.getElem?_setIfInBounds_self_of_lt hroom'
    · rw [Function.update_of_ne (hnew i hi), Array.getElem?_setIfInBounds_ne (hnew i hi).symm]
      exact h.levels i hi
  · rcases (hmem i).mp hi with rfl | hi
    · rw [Function.update_self]
      exact hlinks.range
    · rw [Function.update_of_ne (hnew i hi)]
      exact h.range i hi
  · rw [map_inserted hunused]
    have hsorted := h.sorted
    rw [hsplit.append, List.map_append] at hsorted
    refine hsorted.insert_between (List.forall_mem_map.mpr hsplit.below) fun y hy => ?_
    obtain ⟨i, hi, rfl⟩ := List.mem_map.mp hy
    refine lt_of_le_of_ne (hsplit.above i hi) fun heq => hx ?_
    exact heq ▸ List.mem_map_of_mem (hsplit.above_sub hi)
  · show Linked (NextOn a lvl) 0 _
    have hlinked := h.linked lvl hlvl
    have hnodup := h.nodup_onLevel lvl
    rw [hsplit.append, onLevel_append] at hlinked hnodup
    have hother : sl.numNodes ∉ 0 :: (onLevel level lvl below ++ onLevel level lvl above) := by
      rw [← onLevel_append, List.mem_cons, not_or]
      exact ⟨hhead.ne', fun hin => hunused (mem_onLevel.mp hin).1⟩
    have hall := linked_inserted hlinked hnodup hother fun i => toInt32_of_lt hfits ▸
      hlinks.cells i lvl hlvl
    rw [onLevel_append, hlevels lvl below hsplit.below_sub]
    convert hall using 2
    unfold onLevel
    rw [List.filter_cons, Function.update_self]
    simp only [decide_eq_true_iff]
    rw [← onLevel, ← onLevel, hlevels lvl above hsplit.above_sub]
  · exact tail_inserted (hsplit.append ▸ h.tail)
  · show sl.numKeys + 1 = _
    rw [h.numKeys, hsplit.append, List.length_append, List.length_append, List.length_cons]
    omega

theorem Arranged.lastOn_lt (h : Arranged sl nodes key level)
    (hsplit : SplitAt nodes key x below above) (hhead : 0 < sl.numNodes) (lvl : Nat) :
    lastOn level lvl below < sl.numNodes := by
  rcases List.mem_cons.mp (lastOn_mem (Nat.le_refl lvl)) with hzero | hmem
  · rw [hzero]
    exact hhead
  · exact (h.inside _ (hsplit.append ▸ List.mem_append_left above (mem_onLevel.mp hmem).1)).2

/-- The search of an insertion or a removal. -/
theorem SkipHolds.search_eq (h : SkipHolds sl nodes key level)
    (hsplit : SplitAt nodes key x below above) :
    sl.updates x SkipList.maxLevel 0 =
        .done ((List.range 8).map fun lvl => (lastOn level lvl below : Int)) ∧
      SkipList.updateAt ((List.range 8).map fun lvl => (lastOn level lvl below : Int)) 0 =
        .done (below.getLastD 0 : Int) := by
  refine ⟨updates_eq h.arranged h.sized hsplit le_rfl h.small
    fun _ _ => List.mem_cons_self, ?_⟩
  rw [updateAt_eq _ (by decide), lastOn, h.arranged.onLevel_zero hsplit.below_sub]

/-- An insertion of a key that is not there. -/
theorem SkipHolds.insert_run (next : ρ → UInt64 × ρ) (h : SkipHolds sl nodes key level)
    (heap : Nat → Bool) (hsplit : SplitAt nodes key x below above) (hx : x ∉ nodes.map key) :
    (sl.insert next heap x).Returns (ArenaRefused heap sl) fun r => ∃ sl₁ L a,
      r = (true, withNode sl₁ x L a above.head?) ∧ SkipHolds sl₁ nodes key level ∧
        sl₁.numNodes < sl₁.capacity ∧ sl₁.numNodes = sl.numNodes ∧
        NodeLinked sl₁ (fun lvl => lastOn level lvl below) L a := by
  obtain ⟨hupdates, hlowest⟩ := h.search_eq hsplit
  unfold SkipList.insert
  rw [hupdates, Outcome.done_bind, hlowest, Outcome.done_bind,
    candidate_missing h.arranged hsplit hx, Outcome.done_bind]
  dsimp only
  refine (h.ensureCap heap _).bind ?_
  rintro sl₁ ⟨h₁, hroom, hnodes⟩
  have hL : 1 ≤ (SkipList.randomLevel next sl.rngState).1 ∧
      (SkipList.randomLevel next sl.rngState).1 ≤ 8 := levelLoop_range next 7 1 sl.rngState
  have hroom' : sl₁.numNodes * 8 + 8 ≤ sl₁.forward.size := by
    rw [h₁.sized.forward]
    omega
  obtain ⟨a, hrun, hsize, hcells⟩ := linkNode_ok hroom' hL.2
    (fun lvl => (h₁.arranged.lastOn_lt hsplit h₁.sized.head lvl).ne)
    fun lvl hlvl => ⟨_, h₁.arranged.nextOn_last hsplit hlvl⟩
  have hafter : NextOn a 0 sl₁.numNodes above.head? := by
    have hcell := hcells sl₁.numNodes 0 (by decide)
    rw [if_pos rfl, if_pos (by omega), lastOn, h₁.arranged.onLevel_zero hsplit.below_sub] at hcell
    exact hcell.trans (h₁.arranged.nextOn_lowest hsplit)
  rw [store_of_lt (by rw [h₁.sized.keys]; exact hroom), Outcome.done_bind,
    store_of_lt (by rw [h₁.sized.nodeLevels]; exact hroom), Outcome.done_bind, hrun,
    Outcome.done_bind, hafter.fetch, Outcome.done_bind]
  exact Outcome.Returns.of_done ⟨sl₁, _, a, rfl, h₁, hroom, hnodes, hL, hsize, hcells⟩

/-- What a new node leaves. -/
theorem SkipHolds.place {L : Nat} {a : Array (Option Int)} (h : SkipHolds sl nodes key level)
    (hsplit : SplitAt nodes key x below above) (hx : x ∉ nodes.map key)
    (hroom : sl.numNodes < sl.capacity)
    (hlinks : NodeLinked sl (fun lvl => lastOn level lvl below) L a)
    (hfits : sl.numNodes < 2 ^ 31) :
    SkipHolds (withNode sl x L a above.head?) (below ++ sl.numNodes :: above)
      (Function.update key sl.numNodes x) (Function.update level sl.numNodes L) := by
  obtain ⟨hsized, harranged, -⟩ := h
  refine ⟨⟨?_, hlinks.size.trans hsized.forward, ?_, Nat.succ_pos _, hroom⟩,
    harranged.insertNode hsplit hx hlinks hsized.head (by rw [hsized.keys]; exact hroom)
      (by rw [hsized.nodeLevels]; exact hroom) hfits, hfits⟩
  · exact (Array.size_setIfInBounds ..).trans hsized.keys
  · exact (Array.size_setIfInBounds ..).trans hsized.nodeLevels

/-- An insertion of a key that is there leaves the list as it is; another one puts in a node,
or there is no memory for it. -/
theorem SkipHolds.insert (next : ρ → UInt64 × ρ) (h : SkipHolds sl nodes key level)
    (heap : Nat → Bool) (x : Int64) (hfits : x ∉ nodes.map key → sl.numNodes < 2 ^ 31) :
    (x ∈ nodes.map key ∧ sl.insert next heap x = .done (false, sl)) ∨
      x ∉ nodes.map key ∧ (sl.insert next heap x).Returns (ArenaRefused heap sl) fun r =>
        r.1 = true ∧ r.2.numNodes = sl.numNodes + 1 ∧ ∃ nodes' key' level',
          SkipHolds r.2 nodes' key' level' ∧
            ∀ y, y ∈ nodes'.map key' ↔ y = x ∨ y ∈ nodes.map key := by
  obtain ⟨below, above, hsplit⟩ := h.arranged.exists_splitAt x
  by_cases hx : x ∈ nodes.map key
  · obtain ⟨hupdates, hlowest⟩ := h.search_eq hsplit
    obtain ⟨i, rest, habove, hi⟩ := hsplit.head_eq h.arranged.sorted hx
    unfold SkipList.insert
    rw [hupdates, Outcome.done_bind, hlowest, Outcome.done_bind,
      candidate_found h.arranged hsplit habove hi]
    exact Or.inl ⟨hx, rfl⟩
  · refine Or.inr ⟨hx, (h.insert_run next heap hsplit hx).mono ?_⟩
    rintro _ ⟨sl₁, L, a, rfl, h₁, hroom, hnodes, hlinks⟩
    have hunused : sl₁.numNodes ∉ below ++ above := fun hin =>
      Nat.lt_irrefl _ (h₁.arranged.inside _ (hsplit.append ▸ hin)).2
    refine ⟨rfl, congrArg (· + 1) hnodes, _, _, _,
      h₁.place hsplit hx hroom hlinks (hnodes ▸ hfits hx), fun y => ?_⟩
    rw [map_inserted hunused, hsplit.append, List.map_append, List.mem_append, List.mem_append,
      List.mem_cons, or_left_comm]

/-! ## Removal -/

section Unlinking

variable {forward : Array (Option Int)} {i : Nat} {last : Nat → Nat}

/-- The cells after a node is taken out of the lowest levels. -/
def UnlinkedUpTo (forward : Array (Option Int)) (last : Nat → Nat) (n k : Nat)
    (a : Array (Option Int)) : Prop :=
  a.size = forward.size ∧ ∀ i lvl, lvl < 8 → a[i * 8 + lvl]? =
    if lvl < k ∧ i = last lvl then forward[n * 8 + lvl]? else forward[i * 8 + lvl]?

theorem UnlinkedUpTo.step {a : Array (Option Int)} {n k : Nat}
    (h : UnlinkedUpTo forward last n k a) (hk : k < 8)
    (hlast : NextOn forward k (last k) (some n)) (hafter : ∃ o, NextOn forward k n o) :
    ∃ a', SkipList.unlinkTurn n ((List.range 8).map fun lvl => (last lvl : Int)) k a = .done a' ∧
      UnlinkedUpTo forward last n (k + 1) a' := by
  obtain ⟨hsize, hcells⟩ := h
  obtain ⟨o, ho⟩ := hafter
  have hsame : ∀ i, a[i * 8 + k]? = forward[i * 8 + k]? := fun i => by
    rw [hcells i k hk, if_neg fun hlt => Nat.lt_irrefl k hlt.1]
  have hnext : NextOn a k (last k) (some n) := (hsame _).trans hlast
  have hnode : NextOn a k n o := (hsame n).trans ho
  have hlt := lt_of_get hnext
  refine ⟨a.setIfInBounds (last k * 8 + k) (some (nodeNumber o)), ?_, ?_, fun i lvl hlvl => ?_⟩
  · unfold SkipList.unlinkTurn
    rw [updateAt_eq _ hk, Outcome.done_bind, hnext.fetch, Outcome.done_bind, nodeNumber,
      if_pos rfl, hnode.fetch, Outcome.done_bind, store_cell hlt]
  · rw [Array.size_setIfInBounds, hsize]
  · rw [get_setCell hlt hk _ i hlvl, hcells i lvl hlvl]
    by_cases hlvl' : lvl = k
    · subst hlvl'
      by_cases hil : i = last lvl
      · rw [if_pos ⟨hil, rfl⟩, if_pos ⟨Nat.lt_succ_self lvl, hil⟩]
        exact ho.symm
      · rw [if_neg fun heq => hil heq.1, if_neg fun heq => hil heq.2, if_neg fun heq => hil heq.2]
    · rw [if_neg fun heq => hlvl' heq.2]
      exact if_congr (by omega) rfl rfl

/-- A node is taken out of its levels. -/
theorem unlinkNode_ok {n L : Nat} (hL : L ≤ 8)
    (hlast : ∀ lvl, lvl < L → NextOn forward lvl (last lvl) (some n))
    (hafter : ∀ lvl, lvl < L → ∃ o, NextOn forward lvl n o) :
    ∃ a, Outcome.forRange
        (SkipList.unlinkTurn n ((List.range 8).map fun lvl => (last lvl : Int))) L forward =
        .done a ∧ UnlinkedUpTo forward last n L a :=
  Outcome.forRange_of_step (UnlinkedUpTo forward last n)
    ⟨rfl, fun i lvl _ => by rw [if_neg fun hlt => Nat.not_lt_zero lvl hlt.1]⟩
    fun k _ hk h => h.step (by omega) (hlast k hk) (hafter k hk)

/-- On a level that it has, a node is taken out, and the other levels stay. -/
theorem linked_removed {a : Array (Option Int)} {B A : List Nat} {n L : Nat}
    (hlinked : Linked (NextOn forward lvl) 0 (B ++ if lvl < L then n :: A else A))
    (hnodup : (0 :: (B ++ if lvl < L then n :: A else A)).Nodup)
    (hcells : ∀ i, a[i * 8 + lvl]? =
      if lvl < L ∧ i = B.getLastD 0 then forward[n * 8 + lvl]? else forward[i * 8 + lvl]?) :
    Linked (NextOn a lvl) 0 (B ++ A) := by
  by_cases hlt : lvl < L
  · rw [if_pos hlt] at hlinked hnodup
    refine hlinked.remove hnodup (fun o ho => ?_) fun i hi hother o ho => ?_
    · exact (hcells _).trans (by rw [if_pos ⟨hlt, rfl⟩]; exact ho)
    · exact (hcells i).trans (by rw [if_neg fun h => hother h.2]; exact ho)
  · rw [if_neg hlt] at hlinked
    refine hlinked.frame fun i hi o ho => ?_
    exact (hcells i).trans (by rw [if_neg fun h => hlt h.1]; exact ho)

end Unlinking

/-- Without the last node, the last one before it is the last, if it is not the head. -/
theorem tail_removed {i : Nat} {rest : List Nat} {t : Int} (hpos : ∀ j ∈ below, 0 < j)
    (hnodup : (below ++ i :: rest).Nodup) (ht : t = nodeNumber (below ++ i :: rest).getLast?) :
    (if (i : Int) = t then
      if ((below.getLastD 0 : Nat) : Int) = 0 then -1 else ((below.getLastD 0 : Nat) : Int)
      else t) = nodeNumber (below ++ rest).getLast? := by
  rcases List.eq_nil_or_concat' rest with rfl | ⟨js, j, rfl⟩
  · rw [List.getLast?_concat] at ht
    rw [ht, nodeNumber, if_pos rfl, List.append_nil]
    rcases List.eq_nil_or_concat' below with rfl | ⟨ks, k, rfl⟩
    · rfl
    · have hk := hpos k (List.mem_append_right ks List.mem_cons_self)
      rw [List.getLastD_concat, List.getLast?_concat, if_neg (by omega), nodeNumber]
  · have hne : i ≠ j := fun heq => (List.nodup_cons.mp (List.nodup_append.mp hnodup).2.1).1
      (heq ▸ List.mem_append_right js List.mem_cons_self)
    rw [← List.cons_append, ← List.append_assoc, List.getLast?_concat] at ht
    rw [ht, nodeNumber, if_neg fun heq => hne (Int.ofNat_inj.mp heq), ← List.append_assoc,
      List.getLast?_concat, nodeNumber]

/-- The node with the key goes out. -/
theorem Arranged.removeNode {i : Nat} {rest : List Nat} {a : Array (Option Int)}
    (h : Arranged sl nodes key level) (hsplit : SplitAt nodes key x below (i :: rest))
    (hcells : UnlinkedUpTo sl.forward (fun lvl => lastOn level lvl below) i (level i) a) :
    Arranged { sl with
        forward := a
        tailNode := if (i : Int) = sl.tailNode then
            if ((below.getLastD 0 : Nat) : Int) = 0 then -1 else ((below.getLastD 0 : Nat) : Int)
          else sl.tailNode
        numKeys := sl.numKeys - 1 }
      (below ++ rest) key level := by
  have hsub : (below ++ rest).Sublist nodes := by
    rw [hsplit.append]
    exact (List.Sublist.refl below).append (List.sublist_cons_self i rest)
  refine ⟨fun j hj => h.inside j (hsub.mem hj), fun j hj => h.keys j (hsub.mem hj),
    fun j hj => h.levels j (hsub.mem hj), fun j hj => h.range j (hsub.mem hj),
    h.sorted.sublist (hsub.map key), fun lvl hlvl => ?_, ?_, ?_⟩
  · have hlinked := h.linked lvl hlvl
    have hnodup := h.nodup_onLevel lvl
    have hcons : onLevel level lvl nodes = onLevel level lvl below ++
        if lvl < level i then i :: onLevel level lvl rest else onLevel level lvl rest := by
      rw [hsplit.append, onLevel_append]
      unfold onLevel
      rw [List.filter_cons]
      simp only [decide_eq_true_iff]
    rw [hcons] at hlinked hnodup
    show Linked (NextOn a lvl) 0 _
    rw [onLevel_append]
    exact linked_removed hlinked hnodup fun j => hcells.2 j lvl hlvl
  · exact tail_removed (fun j hj => (h.inside j (hsplit.below_sub hj)).1) (hsplit.append ▸ h.nodup)
      (hsplit.append ▸ h.tail)
  · show sl.numKeys - 1 = _
    rw [h.numKeys, hsplit.append, List.length_append, List.length_append, List.length_cons]
    omega

/-- A removal takes out the node with the key, if there is one. -/
theorem SkipHolds.remove (h : SkipHolds sl nodes key level) (x : Int64) :
    (x ∉ nodes.map key ∧ sl.remove x = .done (false, sl)) ∨
      x ∈ nodes.map key ∧ ∃ sl' nodes', sl.remove x = .done (true, sl') ∧
        sl'.numNodes = sl.numNodes ∧ SkipHolds sl' nodes' key level ∧
        ∀ y, y ∈ nodes'.map key ↔ y ≠ x ∧ y ∈ nodes.map key := by
  obtain ⟨below, above, hsplit⟩ := h.arranged.exists_splitAt x
  obtain ⟨hupdates, hlowest⟩ := h.search_eq hsplit
  unfold SkipList.remove
  rw [hupdates, Outcome.done_bind, hlowest, Outcome.done_bind]
  by_cases hx : x ∈ nodes.map key
  · obtain ⟨i, rest, rfl, hi⟩ := hsplit.head_eq h.arranged.sorted hx
    have hmem : i ∈ nodes := hsplit.append ▸ List.mem_append_right below List.mem_cons_self
    have hrange := h.arranged.range i hmem
    have hnext : ∀ lvl, lvl < level i →
        NextOn sl.forward lvl (lastOn level lvl below) (some i) := by
      intro lvl hlvl
      have hlast := h.arranged.nextOn_last hsplit (hlvl.trans_le hrange.2)
      rwa [onLevel, List.filter_cons, if_pos (decide_eq_true hlvl), List.head?_cons] at hlast
    have hafter : ∀ lvl, lvl < level i → ∃ o, NextOn sl.forward lvl i o := by
      intro lvl hlvl
      have hlinked := h.arranged.linked lvl (hlvl.trans_le hrange.2)
      exact hlinked.exists_next (List.mem_cons_of_mem 0 (mem_onLevel.mpr ⟨hmem, hlvl⟩))
    obtain ⟨a, hrun, hcells⟩ := unlinkNode_ok hrange.2 hnext hafter
    rw [candidate_found h.arranged hsplit rfl hi, Outcome.done_bind]
    dsimp only
    rw [fetch_of_get (h.arranged.levels i hmem), Outcome.done_bind, hrun, Outcome.done_bind]
    refine Or.inr ⟨hx, _, below ++ rest, rfl, rfl, ⟨⟨h.sized.keys, ?_, h.sized.nodeLevels,
      h.sized.head, h.sized.room⟩, h.arranged.removeNode hsplit hcells, h.small⟩, fun y => ?_⟩
    · exact hcells.1.trans h.sized.forward
    · have hnodup := h.arranged.sorted.nodup
      rw [hsplit.append, List.map_append, List.map_cons, hi, List.nodup_middle,
        List.nodup_cons] at hnodup
      rw [hsplit.append, List.map_append, List.map_append, List.map_cons, hi, List.mem_append,
        List.mem_append, List.mem_cons, or_left_comm, ← List.mem_append]
      constructor
      · exact fun hy => ⟨fun heq => hnodup.1 (heq ▸ hy), Or.inr hy⟩
      · exact fun ⟨hne, hy⟩ => hy.resolve_left hne
  · rw [candidate_missing h.arranged hsplit hx]
    exact Or.inl ⟨hx, rfl⟩

/-! ## The other operations -/

theorem Arranged.min_eq (h : Arranged sl nodes key level) :
    sl.min = .done (nodes.map key).head? := by
  have hlinked := h.linked 0 (by decide)
  rw [h.onLevel_zero (List.Subset.refl nodes)] at hlinked
  have hnext : Bst.fetch sl.forward 0 = .done (nodeNumber nodes.head?) := hlinked.head.fetch
  unfold SkipList.min
  rw [hnext, Outcome.done_bind]
  cases nodes with
  | nil => rfl
  | cons i nodes =>
    rw [List.head?_cons, nodeNumber, if_neg slot_ne, fetch_of_get (h.keys i List.mem_cons_self)]
    rfl

theorem Arranged.max_eq (h : Arranged sl nodes key level) :
    sl.max = .done (nodes.map key).getLast? := by
  unfold SkipList.max
  rw [h.tail]
  rcases List.eq_nil_or_concat' nodes with rfl | ⟨nodes, i, rfl⟩
  · rfl
  · have hi := h.keys i (List.mem_append_right nodes List.mem_cons_self)
    rw [List.getLast?_concat, nodeNumber, if_neg slot_ne, fetch_of_get hi, List.map_append,
      List.map_singleton, List.getLast?_concat]
    rfl

/-- The cells of the head are emptied. -/
theorem clearHead_ok {forward : Array (Option Int)} (hsize : 8 ≤ forward.size) :
    ∃ a, SkipList.clearHead forward = .done a ∧ a.size = forward.size ∧
      ∀ lvl, lvl < 8 → NextOn a lvl 0 none := by
  obtain ⟨a, hrun, ha, hcells⟩ := Outcome.forRange_of_step (n := 8) (s := forward)
    (f := fun k a => Bst.store a k (-1))
    (fun k a => a.size = forward.size ∧ ∀ lvl, lvl < k → a[lvl]? = some (some (-1)))
    ⟨rfl, fun lvl hlvl => absurd hlvl (Nat.not_lt_zero lvl)⟩ (by
      rintro k a hk ⟨ha, hcells⟩
      have hlt : k < a.size := by omega
      refine ⟨_, store_of_lt hlt _, ?_, fun lvl hlvl => ?_⟩
      · rw [Array.size_setIfInBounds, ha]
      · by_cases heq : lvl = k
        · subst heq
          exact Array.getElem?_setIfInBounds_self_of_lt hlt
        · rw [Array.getElem?_setIfInBounds_ne (Ne.symm heq)]
          exact hcells lvl (by omega))
  refine ⟨a, hrun, ha, fun lvl hlvl => ?_⟩
  unfold NextOn
  rw [Nat.zero_mul, Nat.zero_add]
  exact hcells lvl hlvl

/-- A list with a head and no other nodes. -/
theorem skipHolds_nil (hkeys : sl.keys.size = sl.capacity)
    (hforward : sl.forward.size = sl.capacity * 8) (hlevels : sl.nodeLevels.size = sl.capacity)
    (hroom : 0 < sl.capacity) (hnodes : sl.numNodes = 1) (htail : sl.tailNode = -1)
    (hnum : sl.numKeys = 0) (hhead : ∀ lvl, lvl < 8 → NextOn sl.forward lvl 0 none) :
    SkipHolds sl [] key level where
  sized := ⟨hkeys, hforward, hlevels, by omega, by omega⟩
  arranged := ⟨by simp, by simp, by simp, by simp, List.Pairwise.nil, hhead, htail, hnum⟩
  small := by omega

theorem SkipHolds.clear (h : SkipHolds sl nodes key level) :
    ∃ sl', sl.clear = .done ((nodes.length : Int), sl') ∧ SkipHolds sl' [] key level := by
  have hcapacity : 0 < sl.capacity := h.sized.head.trans_le h.sized.room
  have hforward := h.sized.forward
  have hrow : 8 ≤ sl.forward.size := by omega
  obtain ⟨a, hrun, ha, hhead⟩ := clearHead_ok hrow
  have hlevels : Bst.store sl.nodeLevels 0 SkipList.maxLevel =
      .done (sl.nodeLevels.setIfInBounds 0 (some SkipList.maxLevel)) :=
    store_of_lt (by rw [h.sized.nodeLevels]; exact hcapacity) _
  unfold SkipList.clear
  rw [if_pos hcapacity, hrun, Outcome.done_bind, hlevels, Outcome.done_bind, h.arranged.numKeys]
  refine ⟨_, rfl, skipHolds_nil h.sized.keys (ha.trans hforward) ?_ hcapacity rfl rfl rfl hhead⟩
  exact (Array.size_setIfInBounds ..).trans h.sized.nodeLevels

theorem skipHolds_new (key : Nat → Int64) (level : Nat → Nat) (heap : Nat → Bool) (s : ρ) :
    (SkipList.new heap s).Returns (SkipList.granted heap 8 = false) fun sl =>
      SkipHolds sl [] key level ∧ sl.numNodes = 1 := by
  have hfull : ¬ 1 ≤ (SkipList.dropped s).capacity := by
    show ¬ 1 ≤ 0
    omega
  have hcapacity : SkipList.newCapacity (SkipList.dropped s).capacity 1 = .done 8 :=
    newCapacity_eq (show 1 ≤ Bst.grownCapacity 0 by decide)
  unfold SkipList.new SkipList.ensureCap
  rw [if_neg hfull, hcapacity, Outcome.done_bind]
  by_cases hgranted : SkipList.granted heap 8 = true
  · have hkeys := resize_size (SkipList.dropped s).keys (Nat.zero_le 8)
    have hlevels := resize_size (SkipList.dropped s).nodeLevels (Nat.zero_le 8)
    have hforward := resize_size (SkipList.dropped s).forward (Nat.zero_le (8 * SkipList.maxLevel))
    obtain ⟨a, hrun, ha, hhead⟩ := clearHead_ok (hforward.symm ▸ (by decide : 8 ≤ 8 * 8))
    have hkey : Bst.store (Bst.resize (SkipList.dropped s).keys 8) 0 0 = _ :=
      store_of_lt (by rw [hkeys]; decide) 0
    have hlevel : Bst.store (Bst.resize (SkipList.dropped s).nodeLevels 8) 0
        SkipList.maxLevel = _ := store_of_lt (by rw [hlevels]; decide) _
    rw [if_pos hgranted, Outcome.pure_eq, Outcome.done_bind]
    dsimp only
    rw [hkey, Outcome.done_bind, hrun, Outcome.done_bind, hlevel, Outcome.done_bind]
    exact Outcome.Returns.of_done ⟨skipHolds_nil ((Array.size_setIfInBounds ..).trans hkeys)
      (ha.trans hforward) ((Array.size_setIfInBounds ..).trans hlevels) (Nat.succ_pos 7)
      rfl rfl rfl hhead, rfl⟩
  · rw [if_neg hgranted]
    exact Or.inl ⟨rfl, by simpa using hgranted⟩

/-! ## Sequences of operations -/

/-- The nodes of the lowest level. -/
inductive OnLowest (sl : SkipList ρ) : Nat → Prop
  | first {i : Nat} : NextOn sl.forward 0 0 (some i) → OnLowest sl i
  | next {i j : Nat} : OnLowest sl i → NextOn sl.forward 0 i (some j) → OnLowest sl j

/-- An insertion of a key that no node has finds the number of its node below `2^31`. -/
def NumberFits (sl : SkipList ρ) : BstOp × (Nat → Bool) → Prop
  | (.insert x, _) => (∀ i, OnLowest sl i → sl.keys[i]? ≠ some (some x)) → sl.numNodes < 2 ^ 31
  | _ => True

/-- The lists of the levels: the lowest has the keys of the set in order, each other one is part
of the one below, a node is on as many levels as it says, and the tail is the last node. -/
structure Leveled (sl : SkipList ρ) (S : Finset Int64) (levels : Nat → List Nat)
    (key : Nat → Int64) : Prop where
  linked : ∀ lvl, lvl < 8 → Linked (NextOn sl.forward lvl) 0 (levels lvl)
  keys : ∀ i ∈ levels 0, sl.keys[i]? = some (some (key i))
  sorted : Increasing ((levels 0).map key)
  all : ∀ x, x ∈ S ↔ x ∈ (levels 0).map key
  sublist : ∀ lvl, lvl + 1 < 8 → (levels (lvl + 1)).Sublist (levels lvl)
  nodeLevels : ∀ i ∈ levels 0, ∃ L, sl.nodeLevels[i]? = some (some L) ∧
    ∀ lvl, lvl < 8 → (i ∈ levels lvl ↔ lvl < L)
  tail : sl.tailNode = nodeNumber (levels 0).getLast?

/-- The arena is a skip list over the set. -/
def IsSkipList (sl : SkipList ρ) (S : Finset Int64) : Prop :=
  ∃ levels key, Leveled sl S levels key

/-- The arena holds the set. -/
def SkipSetHeld (sl : SkipList ρ) (S : Finset Int64) : Prop :=
  ∃ nodes key level, SkipHolds sl nodes key level ∧ ∀ x, x ∈ S ↔ x ∈ nodes.map key

variable {S : Finset Int64}

theorem SkipSetHeld.isSkipList (h : SkipSetHeld sl S) : IsSkipList sl S := by
  obtain ⟨nodes, key, level, ⟨-, h, -⟩, hS⟩ := h
  have hall := h.onLevel_zero (List.Subset.refl nodes)
  refine ⟨fun lvl => onLevel level lvl nodes, key, h.linked, ?_, ?_, ?_, fun lvl _ => ?_,
    fun i hi => ?_, ?_⟩
  · exact hall.symm ▸ h.keys
  · exact hall.symm ▸ h.sorted
  · exact hall.symm ▸ hS
  · refine List.monotone_filter_right nodes fun i hi => ?_
    exact decide_eq_true ((Nat.lt_succ_self lvl).trans (of_decide_eq_true hi))
  · rw [hall] at hi
    exact ⟨level i, h.levels i hi, fun lvl _ => mem_onLevel.trans (and_iff_right hi)⟩
  · exact hall.symm ▸ h.tail

theorem nextOn_unique {forward : Array (Option Int)} {i : Nat} {o o' : Option Nat}
    (h : NextOn forward lvl i o) (h' : NextOn forward lvl i o') : o = o' := by
  have heq := Option.some.inj (Option.some.inj (h.symm.trans h'))
  cases o with
  | none =>
    cases o' with
    | none => rfl
    | some j => exact absurd heq.symm slot_ne
  | some i =>
    cases o' with
    | none => exact absurd heq slot_ne
    | some j => exact congrArg some (Int.ofNat_inj.mp heq)

/-- The nodes of the lowest level are the nodes in use. -/
theorem Arranged.mem_of_onLowest (h : Arranged sl nodes key level) {i : Nat}
    (hi : OnLowest sl i) : i ∈ nodes := by
  have hlinked := h.linked 0 (by decide)
  rw [h.onLevel_zero (List.Subset.refl nodes)] at hlinked
  induction hi with
  | first hnext => exact hlinked.next_mem (fun _ _ _ => nextOn_unique) List.mem_cons_self hnext
  | next _ hnext ih =>
    exact hlinked.next_mem (fun _ _ _ => nextOn_unique) (List.mem_cons_of_mem 0 ih) hnext

theorem step_insertKey (next : ρ → UInt64 × ρ) (h : SkipSetHeld sl S) (x : Int64)
    (hok : NumberFits sl (.insert x, heap)) :
    StepRefines (SkipList.step next) finsetSpec SkipList.refused SkipSetHeld sl S
      (.insert x, heap) := by
  obtain ⟨nodes, key, level, hholds, hS⟩ := h
  have hfits : x ∉ nodes.map key → sl.numNodes < 2 ^ 31 := fun hx => hok fun i hi hkey => by
    have hmem := hholds.arranged.mem_of_onLowest hi
    have heq := Option.some.inj (Option.some.inj ((hholds.arranged.keys i hmem).symm.trans hkey))
    exact hx (heq ▸ List.mem_map_of_mem hmem)
  obtain ⟨hx, hrun⟩ | ⟨hx, ⟨hrun, href⟩ | ⟨⟨_, sl'⟩, hrun, rfl, -, nodes', key', level', hholds',
    hkeys⟩⟩ := hholds.insert next heap x hfits
  · have hmem : x ∈ S := (hS x).mpr hx
    refine stepRefines_done (r := .bool false) (u := insert x S)
      (by simp only [SkipList.step, hrun, Outcome.done_bind, Outcome.pure_eq]) ?_
      ⟨nodes, key, level, hholds, ?_⟩
    · simp only [finsetSpec, hmem, not_true, decide_false]
    · rw [Finset.insert_eq_of_mem hmem]
      exact hS
  · exact stepRefines_refused (by simp only [SkipList.step, hrun, Outcome.aborted_bind]) href
  · have hmem : x ∉ S := fun hin => hx ((hS x).mp hin)
    refine stepRefines_done (r := .bool true) (u := insert x S)
      (by simp only [SkipList.step, hrun, Outcome.done_bind, Outcome.pure_eq]) ?_
      ⟨nodes', key', level', hholds', fun y => ?_⟩
    · simp only [finsetSpec, hmem, not_false_iff, decide_true]
    · rw [Finset.mem_insert, hS, hkeys]

theorem step_removeKey (next : ρ → UInt64 × ρ) (h : SkipSetHeld sl S) (x : Int64) :
    StepRefines (SkipList.step next) finsetSpec SkipList.refused SkipSetHeld sl S
      (.remove x, heap) := by
  obtain ⟨nodes, key, level, hholds, hS⟩ := h
  obtain ⟨hx, hrun⟩ | ⟨hx, sl', nodes', hrun, -, hholds', hkeys⟩ := hholds.remove x
  · have hmem : x ∉ S := fun hin => hx ((hS x).mp hin)
    refine stepRefines_done (r := .bool false) (u := S.erase x)
      (by simp only [SkipList.step, hrun, Outcome.done_bind, Outcome.pure_eq]) ?_
      ⟨nodes, key, level, hholds, ?_⟩
    · simp only [finsetSpec, hmem, decide_false]
    · rw [Finset.erase_eq_of_notMem hmem]
      exact hS
  · have hmem : x ∈ S := (hS x).mpr hx
    refine stepRefines_done (r := .bool true) (u := S.erase x)
      (by simp only [SkipList.step, hrun, Outcome.done_bind, Outcome.pure_eq]) ?_
      ⟨nodes', key, level, hholds', fun y => ?_⟩
    · simp only [finsetSpec, hmem, decide_true]
    · rw [Finset.mem_erase, hS, hkeys]

theorem step_skipList (next : ρ → UInt64 × ρ) (sl : SkipList ρ) (S : Finset Int64)
    (i : BstOp × (Nat → Bool)) (h : SkipSetHeld sl S) (hok : NumberFits sl i) :
    StepRefines (SkipList.step next) finsetSpec SkipList.refused SkipSetHeld sl S i := by
  obtain ⟨op, heap⟩ := i
  have ⟨nodes, key, level, hholds, hS⟩ := h
  have hsorted := hholds.arranged.sorted
  have hlength : (nodes.length : Int) = S.card := by
    rw [← hsorted.length_eq hS, List.length_map]
  cases op with
  | insert x => exact step_insertKey next h x hok
  | contains x =>
    have hmem : decide (x ∈ nodes.map key) = decide (x ∈ S) := decide_eq_decide.mpr (hS x).symm
    have hrun := hholds.arranged.contains_eq hholds.sized x
    exact stepRefines_done (by
      simp only [SkipList.step, hrun, hmem, Outcome.done_bind, Outcome.pure_eq]) rfl h
  | remove x => exact step_removeKey next h x
  | min =>
    have hrun := hholds.arranged.min_eq
    rw [hsorted.head?_eq hS] at hrun
    exact stepRefines_done (by
      simp only [SkipList.step, hrun, Outcome.done_bind, Outcome.pure_eq]) rfl h
  | max =>
    have hrun := hholds.arranged.max_eq
    rw [hsorted.getLast?_eq hS] at hrun
    exact stepRefines_done (by
      simp only [SkipList.step, hrun, Outcome.done_bind, Outcome.pure_eq]) rfl h
  | len =>
    have hlen : sl.numKeys = S.card := hholds.arranged.numKeys.trans hlength
    exact stepRefines_done (by simp only [SkipList.step, hlen, Outcome.pure_eq]) rfl h
  | clear =>
    obtain ⟨sl', hrun, hholds'⟩ := hholds.clear
    exact stepRefines_done (by
      simp only [SkipList.step, hrun, hlength, Outcome.done_bind, Outcome.pure_eq]) rfl
      ⟨[], key, level, hholds', by simp⟩

/-- **The emitted skip list refines a finite set** over every sequence of operations and every
source of random numbers, as long as every insertion of a new key finds the number of its node
below `2^31`: every operation ends and returns what the set returns, under heaps that may refuse
memory, and before and after every operation the arena is a skip list over the set.
Source: backend_c.rs:3367-3539 -/
theorem skipList_refines (next : ρ → UInt64 × ρ) (s : ρ) (heap : Nat → Bool)
    (ops : List (BstOp × (Nat → Bool)))
    (hfits : ∀ sl, SkipList.new heap s = .done sl →
      RunAllows (SkipList.step next) NumberFits ops sl) :
    (SkipList.new heap s).Returns (SkipList.granted heap 8 = false) fun sl =>
      RunRefines (SkipList.step next) finsetSpec SkipList.refused ops sl ∅ ∧
        RunRelates (SkipList.step next) finsetSpec IsSkipList ops sl ∅ := by
  obtain ⟨hrun, href⟩ | ⟨sl, hrun, hholds, -⟩ :=
    skipHolds_new (fun _ => 0) (fun _ => 0) heap s
  · exact Or.inl ⟨hrun, href⟩
  · have hheld : SkipSetHeld sl ∅ := ⟨[], _, _, hholds, by simp⟩
    have hallows := hfits sl hrun
    refine Or.inr ⟨sl, hrun, ?_, ?_⟩
    · exact (runRefines_of_allows (step_skipList next) (fun _ _ _ => trivial) ops hheld hallows).1
    · exact runRelates_of_allows (step_skipList next) (fun _ _ h => h.isSkipList) ops hheld hallows

/-- A key in, asked for and out again. -/
def oneKey : List (BstOp × (Nat → Bool)) :=
  [(.insert 5, fun _ => true), (.contains 5, fun _ => true), (.remove 5, fun _ => true),
    (.max, fun _ => true)]

theorem skipList_refines_oneKey :
    (SkipList.new (fun _ => true) SkipList.seed).Returns
      (SkipList.granted (fun _ => true) 8 = false) fun sl =>
        RunRefines (SkipList.step SkipList.lcg) finsetSpec SkipList.refused oneKey sl ∅ ∧
          RunRelates (SkipList.step SkipList.lcg) finsetSpec IsSkipList oneKey sl ∅ := by
  refine skipList_refines SkipList.lcg SkipList.seed _ oneKey fun sl hnew => ?_
  obtain ⟨hrun, -⟩ | ⟨sl', hrun, -, hnodes⟩ :=
    skipHolds_new (fun _ => 0) (fun _ => 0) (fun _ => true) SkipList.seed
  · exact absurd (hnew.symm.trans hrun) nofun
  · obtain rfl := Outcome.done.inj (hnew.symm.trans hrun)
    exact ⟨fun _ => by rw [hnodes]; decide, fun _ _ _ => ⟨trivial, fun _ _ _ => ⟨trivial,
      fun _ _ _ => ⟨trivial, fun _ _ _ => trivial⟩⟩⟩⟩

/-! ## A node whose number does not fit -/

/-- A search comes to the number that was stored for the node `2^31`. -/
theorem descend_stuck {n : Nat} (hn : n ≤ 8)
    (hcells : ∀ lvl, lvl < n → NextOn sl.forward lvl 0 none ∨
      sl.forward[0 * 8 + lvl]? = some (some (-2 ^ 31)))
    (hlost : ∃ lvl, lvl < n ∧ sl.forward[0 * 8 + lvl]? = some (some (-2 ^ 31))) :
    sl.descend x n 0 = .stuck := by
  induction n with
  | zero =>
    obtain ⟨lvl, hlvl, -⟩ := hlost
    exact absurd hlvl (Nat.not_lt_zero lvl)
  | succ n ih =>
    unfold SkipList.descend SkipList.along Outcome.loop SkipList.searchTurn
    rcases hcells n (Nat.lt_succ_self n) with hnext | hnext
    · have hfetch := hnext.fetch
      rw [Int.natCast_zero] at hfetch
      rw [hfetch]
      obtain ⟨lvl, hlvl, hcell⟩ := hlost
      have hne : lvl ≠ n := fun heq => by
        subst heq
        exact absurd (hnext.symm.trans hcell) (by decide)
      exact ih (by omega) (fun lvl hlvl => hcells lvl (by omega)) ⟨lvl, by omega, hcell⟩
    · have hfetch : Bst.fetch sl.forward (SkipList.cell 0 n) = .done (-2 ^ 31) := by
        rw [← Int.natCast_zero, cell_eq]
        exact fetch_of_get hnext
      rw [hfetch]
      rfl

/-- The memory for `2^32` nodes is not too much. -/
theorem not_arenaRefused (hsmall : sl.numNodes ≤ 2 ^ 31) : ¬ ArenaRefused (fun _ => true) sl := by
  rintro ⟨hfull, hgranted⟩
  have hgrown : Bst.grownCapacity sl.capacity ≤ 2 ^ 32 := by
    unfold Bst.grownCapacity
    split <;> omega
  unfold SkipList.granted SkipList.maxLevel at hgranted
  rw [malloc_granted (by omega), malloc_granted (by omega), malloc_granted (by omega)] at hgranted
  exact absurd hgranted (by decide)

/-- A key goes in and out so many times, and once more in. -/
def keyAgain : Nat → List (BstOp × (Nat → Bool))
  | 0 => [(.insert 0, fun _ => true), (.contains 0, fun _ => true)]
  | n + 1 => (.insert 0, fun _ => true) :: (.remove 0, fun _ => true) :: keyAgain n

theorem keyAgain_lost (next : ρ → UInt64 × ρ) (h : SkipHolds sl [] key level)
    (hnodes : sl.numNodes = 2 ^ 31) :
    ¬ RunRefines (SkipList.step next) finsetSpec SkipList.refused (keyAgain 0) sl ∅ := by
  intro hrefines
  have hsplit : SplitAt [] key 0 [] [] :=
    ⟨rfl, fun _ hi => absurd hi List.not_mem_nil, fun _ hi => absurd hi List.not_mem_nil⟩
  obtain ⟨-, href⟩ | ⟨_, hrun, sl₁, L, a, rfl, h₁, -, hnodes₁, hlinks⟩ :=
    h.insert_run next (fun _ => true) hsplit List.not_mem_nil
  · exact not_arenaRefused h.small href
  have hnumber : Bst.toInt32 sl₁.numNodes = -2 ^ 31 := by
    rw [hnodes₁, hnodes]
    decide
  have hcells : ∀ lvl, lvl < 8 → a[0 * 8 + lvl]? =
      if lvl < L then some (some (-2 ^ 31)) else sl₁.forward[0 * 8 + lvl]? := by
    intro lvl hlvl
    rw [hlinks.cells 0 lvl hlvl, if_neg (by omega), hnumber]
    exact if_congr (and_iff_left rfl) rfl rfl
  have hdescend : (withNode sl₁ 0 L a none).descend 0 SkipList.maxLevel 0 = .stuck := by
    refine descend_stuck le_rfl (fun lvl hlvl => ?_) ⟨0, by decide, ?_⟩
    · have hcell := hcells lvl hlvl
      by_cases hlt : lvl < L
      · rw [if_pos hlt] at hcell
        exact Or.inr hcell
      · rw [if_neg hlt] at hcell
        exact Or.inl (hcell.trans (h₁.arranged.linked lvl hlvl))
    · exact (hcells 0 (by decide)).trans (if_pos hlinks.range.1)
  have hstuck : (withNode sl₁ 0 L a none).contains 0 = .stuck := by
    unfold SkipList.contains
    rw [hdescend, Outcome.stuck_bind]
  have hinsert : sl.step next (.insert 0, fun _ => true) =
      .done (.bool true, withNode sl₁ 0 L a none) := by
    simp only [SkipList.step, hrun, Outcome.done_bind, Outcome.pure_eq, List.head?_nil]
  unfold keyAgain RunRefines StepRefines at hrefines
  rw [hinsert] at hrefines
  have hrest := hrefines.2
  unfold RunRefines StepRefines at hrest
  have hcontains : (withNode sl₁ 0 L a none).step next (.contains 0, fun _ => true) = .stuck := by
    simp only [SkipList.step, hstuck, Outcome.stuck_bind]
  rw [hcontains] at hrest
  exact hrest

theorem keyAgain_refuted (next : ρ → UInt64 × ρ) (n : Nat) (h : SkipHolds sl [] key level)
    (hnodes : sl.numNodes + n = 2 ^ 31) :
    ¬ RunRefines (SkipList.step next) finsetSpec SkipList.refused (keyAgain n) sl ∅ := by
  induction n generalizing sl key level with
  | zero => exact keyAgain_lost next h hnodes
  | succ n ih =>
    intro hrefines
    obtain ⟨hx, -⟩ | ⟨-, ⟨-, href⟩ | ⟨⟨_, sl₁⟩, hrun, rfl, hnodes₁, nodes', key', level', h₁,
      hkeys⟩⟩ := h.insert next (fun _ => true) 0 fun _ => by omega
    · exact absurd hx List.not_mem_nil
    · exact not_arenaRefused h.small href
    obtain ⟨hx, -⟩ | ⟨-, sl₂, nodes₂, hrun₂, hnodes₂, h₂, hkeys₂⟩ := h₁.remove 0
    · exact hx ((hkeys 0).mpr (Or.inl rfl))
    have hnil : nodes₂ = [] := by
      refine List.eq_nil_iff_forall_not_mem.mpr fun i hi => ?_
      obtain ⟨hne, hmem⟩ := (hkeys₂ _).mp (List.mem_map_of_mem hi)
      rcases (hkeys _).mp hmem with heq | hmem
      · exact hne heq
      · exact List.not_mem_nil hmem
    subst hnil
    have hinsert : sl.step next (.insert 0, fun _ => true) = .done (.bool true, sl₁) := by
      simp only [SkipList.step, hrun, Outcome.done_bind, Outcome.pure_eq]
    have hremove : sl₁.step next (.remove 0, fun _ => true) = .done (.bool true, sl₂) := by
      simp only [SkipList.step, hrun₂, Outcome.done_bind, Outcome.pure_eq]
    unfold keyAgain RunRefines StepRefines at hrefines
    rw [hinsert] at hrefines
    have hrest := hrefines.2
    unfold RunRefines StepRefines at hrest
    rw [hremove] at hrest
    refine ih h₂ ?_ hrest.2
    have heq : sl₁.numNodes = sl.numNodes + 1 := hnodes₁
    omega

theorem keyAgain_refutes :
    ¬ ∀ (sl : SkipList UInt64) (ops : List (BstOp × (Nat → Bool))),
      SkipList.new (fun _ => true) SkipList.seed = .done sl →
        RunRefines (SkipList.step SkipList.lcg) finsetSpec SkipList.refused ops sl ∅ := by
  intro hall
  obtain ⟨-, href⟩ | ⟨sl, hrun, hholds, hnodes⟩ :=
    skipHolds_new (fun _ => 0) (fun _ => 0) (fun _ => true) SkipList.seed
  · exact absurd href (by decide)
  · exact keyAgain_refuted SkipList.lcg (2 ^ 31 - 1) hholds (by omega) (hall sl _ hrun)

end Vani.Analysis
