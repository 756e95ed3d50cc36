import Mathlib.Order.WellFoundedSet
import Mathlib.Logic.Relation
import Mathlib.Data.List.Perm.Basic
import Mathlib.Data.List.Nodup
import Mathlib.Data.Set.Finite.Basic
import Mathlib.Order.RelClasses

/-!
# Orders along the edges of a graph

A multigraph given by its nodes and the successors of each, one for each edge. Kahn's algorithm
keeps for each node the number of edges to it from nodes that it has not taken yet, and takes
nodes for which there are none. What it has lined up at any time is in order along the edges,
and when it stops it has all nodes exactly if there is no cycle.
-/

set_option autoImplicit false

namespace Vani.Library

open Relation

/-!
## Relations without cycles

A relation in which only finitely many elements have successors is well founded, read from an
element to its successors, exactly when it has no cycle.
-/

section Acyclic

variable {α : Type}

/-- Some element is reached from itself. -/
def Cyclic (r : α → α → Prop) : Prop := ∃ a, TransGen r a a

theorem Cyclic.mono {r s : α → α → Prop} (h : ∀ a b, r a b → s a b) (hr : Cyclic r) : Cyclic s := by
  obtain ⟨a, ha⟩ := hr
  exact ⟨a, TransGen.mono h a a ha⟩

theorem not_cyclic_of_wellFounded {r : α → α → Prop} (hwf : WellFounded fun b a => r a b) :
    ¬Cyclic r := by
  rintro ⟨a, ha⟩
  have hback : TransGen (fun b a => r a b) a a := transGen_swap.mp ha
  exact hwf.transGen.asymmetric a a hback hback

/-- Without a cycle, a relation with finitely many sources is well founded. -/
theorem wellFounded_of_not_cyclic {r : α → α → Prop} {l : List α}
    (hl : ∀ a b, r a b → a ∈ l) (h : ¬Cyclic r) : WellFounded fun b a => r a b := by
  let D := {a // a ∈ l}
  have htrans : IsTrans D fun b a => TransGen r a.1 b.1 := ⟨fun _ _ _ hab hbc => hbc.trans hab⟩
  have hirrefl : Std.Irrefl fun b a : D => TransGen r a.1 b.1 := ⟨fun a ha => h ⟨a.1, ha⟩⟩
  have hfinite : Finite D := List.finite_toSet l
  have hwf : WellFounded fun b a : D => TransGen r a.1 b.1 :=
    Finite.wellFounded_of_trans_of_irrefl _
  have hsource : ∀ a : D, Acc (fun b a => r a b) a.1 := by
    intro a
    induction a using hwf.induction with
    | _ a ih =>
      refine Acc.intro _ fun b hb => ?_
      by_cases hmem : b ∈ l
      · exact ih ⟨b, hmem⟩ (TransGen.single hb)
      · exact Acc.intro _ fun c hc => absurd (hl b c hc) hmem
  refine ⟨fun a => ?_⟩
  by_cases hmem : a ∈ l
  · exact hsource ⟨a, hmem⟩
  · exact Acc.intro _ fun c hc => absurd (hl a c hc) hmem

theorem wellFounded_iff_not_cyclic {r : α → α → Prop} {l : List α} (hl : ∀ a b, r a b → a ∈ l) :
    WellFounded (fun b a => r a b) ↔ ¬Cyclic r :=
  ⟨not_cyclic_of_wellFounded, wellFounded_of_not_cyclic hl⟩

end Acyclic

variable {α : Type} [DecidableEq α] {nodes queue pending : List α} {succ : α → List α} {u v : α}
  {k : Nat}

/-- No node can be reached from itself over one edge or more. -/
def Acyclic (nodes : List α) (succ : α → List α) : Prop :=
  ∀ v ∈ nodes, ¬ Relation.TransGen (fun x y => y ∈ succ x) v v

/-- The edges from nodes that are not in a list, by their ends. -/
def openEnds (nodes : List α) (succ : α → List α) (taken : List α) : List α :=
  (nodes.filter fun x => x ∉ taken).flatMap succ

/-- The number of edges to a node that Kahn's algorithm has not seen: the ones from nodes not
taken, and the ones of the node last taken that are still pending. -/
def degree (nodes : List α) (succ : α → List α) (taken pending : List α) (v : α) : Nat :=
  (openEnds nodes succ taken).count v + pending.count v

/-- Every edge to a node of the list is from a node before it. -/
def EdgeOrdered (nodes : List α) (succ : α → List α) (l : List α) : Prop :=
  ∀ (i : Nat) (v : α), l[i]? = some v → ∀ u ∈ nodes, v ∈ succ u → u ∈ l.take i

/-- The nodes lined up, of which the first `k` are taken: those to which no unseen edge leads. -/
structure Peeled (nodes : List α) (succ : α → List α) (queue : List α) (k : Nat)
    (pending : List α) : Prop where
  le : k ≤ queue.length
  nodup : queue.Nodup
  mem_iff : ∀ v, v ∈ queue ↔ v ∈ nodes ∧ degree nodes succ (queue.take k) pending v = 0
  inOrder : EdgeOrdered nodes succ queue

theorem mem_openEnds {taken : List α} :
    v ∈ openEnds nodes succ taken ↔ ∃ u ∈ nodes, u ∉ taken ∧ v ∈ succ u := by
  unfold openEnds
  simp only [List.mem_flatMap, List.mem_filter, decide_eq_true_eq, and_assoc]

/-- A taken node's edges become pending. -/
theorem degree_take {taken : List α} (hnodes : nodes.Nodup) (hu : u ∈ nodes) (hnew : u ∉ taken)
    (v : α) : degree nodes succ (taken ++ [u]) (succ u) v = degree nodes succ taken [] v := by
  have hfilter : (nodes.filter fun x => x ∉ taken ++ [u]) =
      (nodes.filter fun x => x ∉ taken).erase u := by
    rw [(hnodes.filter _).erase_eq_filter, List.filter_filter]
    apply List.filter_congr
    intro x _
    by_cases hxu : x = u
    · simp [hxu]
    · simp [hxu]
  have hmem : u ∈ nodes.filter fun x => x ∉ taken := by
    rw [List.mem_filter]
    exact ⟨hu, by simpa using hnew⟩
  have hperm : (openEnds nodes succ taken).Perm
      (succ u ++ openEnds nodes succ (taken ++ [u])) := by
    unfold openEnds
    rw [hfilter]
    exact (List.perm_cons_erase hmem).flatMap_right succ
  unfold degree
  rw [hperm.count_eq v, List.count_append, List.count_nil]
  omega

omit [DecidableEq α] in
theorem take_next (hk : queue[k]? = some u) : queue.take (k + 1) = queue.take k ++ [u] := by
  rw [List.take_add_one, hk]
  rfl

namespace Peeled

/-- The first nodes are the ones to which no edge leads. -/
theorem start (hnodes : nodes.Nodup) :
    Peeled nodes succ (nodes.filter fun v => (nodes.flatMap succ).count v = 0) 0 [] := by
  have hdegree : ∀ v, degree nodes succ [] [] v = (nodes.flatMap succ).count v := by
    intro v
    simp [degree, openEnds]
  refine ⟨Nat.zero_le _, hnodes.filter _, fun v => ?_, fun i v hv u hu hedge => ?_⟩
  · rw [List.mem_filter, List.take_zero, hdegree, decide_eq_true_eq]
  · have hmem := List.mem_of_getElem? hv
    rw [List.mem_filter, decide_eq_true_eq, List.count_eq_zero] at hmem
    exact absurd (List.mem_flatMap.mpr ⟨u, hu, hedge⟩) hmem.2

/-- The next node of the line is not among those taken. -/
theorem next_not_mem (h : Peeled nodes succ queue k pending) (hk : queue[k]? = some u) :
    u ∉ queue.take k := by
  have hnodup := h.nodup.sublist (List.take_sublist (k + 1) queue)
  rw [take_next hk, List.nodup_append] at hnodup
  exact fun hin => hnodup.2.2 u hin u (List.mem_singleton_self u) rfl

/-- The next node of the line is taken. -/
theorem next (h : Peeled nodes succ queue k []) (hnodes : nodes.Nodup) (hk : queue[k]? = some u) :
    Peeled nodes succ queue (k + 1) (succ u) := by
  obtain ⟨hlt, hget⟩ := List.getElem?_eq_some_iff.mp hk
  have htake := take_next hk
  have hnew := h.next_not_mem hk
  have hu : u ∈ nodes := ((h.mem_iff u).mp (List.mem_of_getElem? hk)).1
  refine ⟨hlt, h.nodup, fun v => ?_, h.inOrder⟩
  rw [h.mem_iff, htake, degree_take hnodes hu hnew]

/-- A node with a pending edge is not lined up. -/
theorem not_mem (h : Peeled nodes succ queue k (v :: pending)) : v ∉ queue := by
  intro hv
  have hzero := ((h.mem_iff v).mp hv).2
  unfold degree at hzero
  rw [List.count_cons_self] at hzero
  omega

/-- A pending edge is seen, and its end stays where it is. -/
theorem release (h : Peeled nodes succ queue k (v :: pending))
    (hpos : degree nodes succ (queue.take k) pending v ≠ 0) :
    Peeled nodes succ queue k pending := by
  refine ⟨h.le, h.nodup, fun w => ?_, h.inOrder⟩
  by_cases hw : w = v
  · subst hw
    exact ⟨fun hin => absurd hin h.not_mem, fun hin => absurd hin.2 hpos⟩
  · rw [h.mem_iff]
    unfold degree
    rw [List.count_cons_of_ne (Ne.symm hw)]

/-- A pending edge is seen, the last to its end, which is lined up. -/
theorem release_last (h : Peeled nodes succ queue k (v :: pending)) (hv : v ∈ nodes)
    (hzero : degree nodes succ (queue.take k) pending v = 0) :
    Peeled nodes succ (queue ++ [v]) k pending := by
  have htake : (queue ++ [v]).take k = queue.take k := List.take_append_of_le_length h.le
  refine ⟨?_, ?_, fun w => ?_, fun i w hw u hu hedge => ?_⟩
  · rw [List.length_append]
    exact Nat.le_add_right_of_le h.le
  · exact List.Nodup.append h.nodup (List.nodup_singleton v)
      (List.disjoint_singleton.mpr h.not_mem)
  · rw [List.mem_append, List.mem_singleton, htake]
    by_cases hwv : w = v
    · subst hwv
      exact ⟨fun _ => ⟨hv, hzero⟩, fun _ => Or.inr rfl⟩
    · rw [h.mem_iff]
      unfold degree
      rw [List.count_cons_of_ne (Ne.symm hwv)]
      simp [hwv]
  · by_cases hi : i < queue.length
    · rw [List.getElem?_append_left hi] at hw
      rw [List.take_append_of_le_length (Nat.le_of_lt hi)]
      exact h.inOrder i w hw u hu hedge
    · have hlt := (List.getElem?_eq_some_iff.mp hw).1
      rw [List.length_append, List.length_singleton] at hlt
      obtain rfl : i = queue.length := by omega
      rw [List.getElem?_append_right (Nat.le_refl _), Nat.sub_self] at hw
      obtain rfl := Option.some.inj hw
      rw [List.take_left']
      · by_contra hno
        have hopen : v ∈ openEnds nodes succ (queue.take k) :=
          mem_openEnds.mpr ⟨u, hu, fun hin => hno (List.mem_of_mem_take hin), hedge⟩
        have hpos := List.count_pos_iff.mpr hopen
        unfold degree at hzero
        omega
      · rfl

/-- Along the edges, positions rise to a node of the line. -/
theorem idxOf_lt (h : Peeled nodes succ queue k pending)
    (hclosed : ∀ x ∈ nodes, ∀ y ∈ succ x, y ∈ nodes) (hu : u ∈ nodes)
    (hpath : Relation.TransGen (fun x y => y ∈ succ x) u v) (hv : v ∈ queue) :
    u ∈ queue ∧ queue.idxOf u < queue.idxOf v := by
  have hedge : ∀ x y, x ∈ nodes → y ∈ succ x → y ∈ queue →
      x ∈ queue ∧ queue.idxOf x < queue.idxOf y := by
    intro x y hx hxy hy
    have hin := h.inOrder (queue.idxOf y) y (List.getElem?_idxOf hy) x hx hxy
    refine ⟨List.mem_of_mem_take hin, ?_⟩
    obtain ⟨i, hi, hget⟩ := List.getElem_of_mem hin
    rw [List.length_take] at hi
    rw [List.getElem_take] at hget
    have hidx : queue.idxOf x = i := by
      rw [← hget]
      exact List.Nodup.idxOf_getElem h.nodup i _
    omega
  have hstay : ∀ x, Relation.TransGen (fun x y => y ∈ succ x) u x → x ∈ nodes := by
    intro x hx
    induction hx with
    | single hxy => exact hclosed u hu _ hxy
    | tail _ hxy ih => exact hclosed _ ih _ hxy
  induction hpath with
  | single hxy => exact hedge u _ hu hxy hv
  | tail hpath hxy ih =>
    obtain ⟨hmem, hlt⟩ := hedge _ _ (hstay _ hpath) hxy hv
    obtain ⟨hu', hlt'⟩ := ih hmem
    exact ⟨hu', hlt'.trans hlt⟩

/-- Where all of the line is taken, it has all nodes exactly if there is no cycle. -/
theorem length_eq_iff (h : Peeled nodes succ queue queue.length []) (hnodes : nodes.Nodup)
    (hclosed : ∀ x ∈ nodes, ∀ y ∈ succ x, y ∈ nodes) :
    queue.length = nodes.length ↔ Acyclic nodes succ := by
  have hsub : queue ⊆ nodes := fun v hv => ((h.mem_iff v).mp hv).1
  constructor
  · intro hlen v hv hcycle
    have hperm := (List.subperm_of_subset h.nodup hsub).perm_of_length_le (by omega)
    have hlt := (h.idxOf_lt hclosed hv hcycle (hperm.mem_iff.mpr hv)).2
    omega
  · intro hacyclic
    have hall : nodes ⊆ queue := by
      by_contra hno
      obtain ⟨v, hv, hvq⟩ : ∃ v ∈ nodes, v ∉ queue := by
        by_contra hall
        exact hno fun v hv => by_contra fun hvq => hall ⟨v, hv, hvq⟩
      -- among the nodes left out, one that no other leads to
      have hstrict : IsStrictOrder α fun x y =>
          x ∈ nodes ∧ Relation.TransGen (fun x y => y ∈ succ x) x y :=
        { irrefl := fun x hx => hacyclic x hx.1 hx.2
          trans := fun x y z hxy hyz => ⟨hxy.1, hxy.2.trans hyz.2⟩ }
      have hfin : {x | x ∈ nodes ∧ x ∉ queue}.Finite :=
        (List.finite_toSet nodes).subset fun x hx => hx.1
      have hwf : Set.WellFoundedOn {x | x ∈ nodes ∧ x ∉ queue} fun x y =>
          x ∈ nodes ∧ Relation.TransGen (fun x y => y ∈ succ x) x y := hfin.wellFoundedOn
      obtain ⟨⟨m, hm⟩, -, hmin⟩ := WellFounded.has_min hwf Set.univ ⟨⟨v, hv, hvq⟩, trivial⟩
      have hdegree : degree nodes succ (queue.take queue.length) [] m ≠ 0 := fun hzero =>
        hm.2 ((h.mem_iff m).mpr ⟨hm.1, hzero⟩)
      unfold degree at hdegree
      rw [List.take_length, List.count_nil, Nat.add_zero] at hdegree
      obtain ⟨u, hu, huq, hedge⟩ := mem_openEnds.mp (List.count_pos_iff.mp (Nat.pos_of_ne_zero hdegree))
      exact hmin ⟨u, hu, huq⟩ trivial ⟨hu, .single hedge⟩
    exact Nat.le_antisymm (List.subperm_of_subset h.nodup hsub).length_le
      (List.subperm_of_subset hnodes hall).length_le

end Peeled

end Vani.Library
