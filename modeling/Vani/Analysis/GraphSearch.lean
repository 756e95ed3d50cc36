import Vani.Analysis.GraphBuilt
import Vani.Library.Worklist
import Mathlib.Data.Set.Card

/-!
# The two searches count the nodes that can be reached

Both searches mark a node when they find it, so each node is put into the queue or onto the
stack at most once, and a node that has left it has no successor that is not found. They differ
only in the end from which the next node is taken. What they count are the nodes that can be
reached over the edges as they are kept, with ends narrowed to `int32_t`; so they count what
the edges as they were given lead to where an edge that was not between nodes, but is after the
narrowing, leads nowhere new.
-/

set_option autoImplicit false

namespace Vani.Analysis

open Vani.Library Vani.Backend

variable {nn start : Nat} {es : List Edge} {seen work : List Nat} {s : Graph.Search} {u v : Nat}

theorem reaches_lt (hstart : start < nn) (h : Reaches (successors nn es) start v) : v < nn := by
  cases h with
  | start => exact hstart
  | step _ hv => exact lt_of_mem_successors hv

/-- The marks are of the nodes found, and the work list has the given elements. -/
structure SearchHolds (nn : Nat) (seen work : List Nat) (s : Graph.Search) : Prop where
  marks : s.visited.size = nn
  marked : ∀ v, v < nn → s.visited[v]? = some (decide (v ∈ seen))
  room : s.work.size = nn
  cells : ∀ (i v : Nat), work[i]? = some v → s.work[i]? = some v
  top : s.top = work.length
  count : s.count = seen.length

namespace SearchHolds

/-- What is found first is put behind the others. -/
theorem visit (h : SearchHolds nn seen work s) (hnodup : work.Nodup)
    (hsub : ∀ x ∈ work, x ∈ seen) (hseen : ∀ x ∈ seen, x < nn) (hv : v < nn) (hnew : v ∉ seen) :
    ∃ s', Graph.Search.visit v s = .done s' ∧ SearchHolds nn (seen ++ [v]) (work ++ [v]) s' := by
  have hroom : work.length < nn := by
    have hcons : (v :: work).Nodup :=
      List.nodup_cons.mpr ⟨fun hin => hnew (hsub v hin), hnodup⟩
    have hlt : ∀ x ∈ v :: work, x < nn := by
      intro x hx
      rcases List.mem_cons.mp hx with rfl | hx
      · exact hv
      · exact hseen x (hsub x hx)
    have hle := nodup_length_le hcons hlt
    rw [List.length_cons] at hle
    omega
  have hmarks := h.marks
  have hcells := h.room
  obtain ⟨visited, hvisit, hvsize, hvat, hvne⟩ := Outcome.write_ok (a := s.visited) (i := v)
    (by omega) true
  obtain ⟨cells, hwrite, hwsize, hwat, hwne⟩ := Outcome.write_ok (a := s.work) (i := s.top)
    (by rw [h.top]; omega) v
  refine ⟨⟨visited, cells, s.top + 1, s.count + 1⟩, ?_, hvsize.trans hmarks, fun x hx => ?_,
    hwsize.trans hcells, fun i x hx => ?_, ?_, ?_⟩
  · unfold Graph.Search.visit
    rw [Outcome.read_of_getElem? (h.marked v hv), Outcome.done_bind,
      decide_eq_false hnew, if_neg Bool.false_ne_true, hvisit, Outcome.done_bind, hwrite]
    rfl
  · by_cases hxv : x = v
    · subst hxv
      rw [hvat, decide_eq_true (List.mem_append_right seen (List.mem_singleton_self x))]
    · rw [hvne x hxv, h.marked x hx]
      simp [hxv]
  · by_cases hi : i < work.length
    · rw [List.getElem?_append_left hi] at hx
      rw [hwne i (by rw [h.top]; omega)]
      exact h.cells i x hx
    · have hlt := (List.getElem?_eq_some_iff.mp hx).1
      rw [List.length_append, List.length_singleton] at hlt
      obtain rfl : i = work.length := by omega
      rw [List.getElem?_append_right (Nat.le_refl _), Nat.sub_self] at hx
      obtain rfl := Option.some.inj hx
      rw [← h.top]
      exact hwat
  · rw [List.length_append, List.length_singleton, ← h.top]
  · rw [List.length_append, List.length_singleton, ← h.count]

theorem visit_seen (h : SearchHolds nn seen work s) (hv : v < nn) (hold : v ∈ seen) :
    Graph.Search.visit v s = .done s := by
  unfold Graph.Search.visit
  rw [Outcome.read_of_getElem? (h.marked v hv), Outcome.done_bind, decide_eq_true hold]
  rfl

end SearchHolds

/-- The arrays of a search, and its start in them. -/
theorem begin_returns (heap : Nat → Bool) (hbytes : nn * 8 < 2 ^ 64) (hstart : start < nn) :
    (Graph.Search.begin heap nn start).Returns
      (malloc heap nn = false ∨ malloc heap (nn * 8) = false)
      (SearchHolds nn [start] [start]) := by
  unfold Graph.Search.begin Graph.allocateZeroed
  rw [Nat.mul_one]
  cases hmarks : malloc heap nn with
  | false => exact Or.inl ⟨rfl, Or.inl rfl⟩
  | true =>
    rw [if_pos rfl, Outcome.pure_eq, Outcome.done_bind]
    obtain ⟨hrun, href⟩ | hrun := allocate_cases heap (0 : Nat) (show 0 < 8 by decide)
      hbytes
    · exact Or.inl ⟨by rw [hrun, Outcome.aborted_bind], Or.inr href⟩
    · obtain ⟨cells, hwrite, hwsize, hwat, -⟩ := Outcome.write_ok
        (a := Array.replicate nn 0) (i := 0) (by rw [Array.size_replicate]; omega) start
      obtain ⟨visited, hvisit, hvsize, hvat, hvne⟩ := Outcome.write_ok
        (a := Array.replicate nn false) (i := start) (by rw [Array.size_replicate]; omega) true
      rw [Array.size_replicate] at hwsize hvsize
      refine Or.inr ⟨⟨visited, cells, 1, 1⟩, ?_, hvsize, fun v hv => ?_, hwsize,
        fun i v hv => ?_, rfl, rfl⟩
      · rw [hrun, Outcome.done_bind, hwrite, Outcome.done_bind, hvisit]
        rfl
      · by_cases hvs : v = start
        · subst hvs
          rw [hvat, decide_eq_true (List.mem_singleton_self v)]
        · rw [hvne v hvs, Array.getElem?_replicate, if_pos hv]
          simp [hvs]
      · match i, hv with
        | 0, hv =>
          obtain rfl := Option.some.inj hv
          exact hwat

/-! ## The turns -/

section

variable {c : Csr}

/-- What a search has found, while it looks at the successors of a node. -/
structure Looking (nn start : Nat) (es : List Edge) (u : Nat) (taken : List Edge)
    (seen frontier : List Nat) : Prop where
  scanning : Scanning (successors nn es) start u (taken.map fun e => e.dst.toInt.toNat) seen
    frontier
  nodes : ∀ x ∈ seen, x < nn

/-- A successor is looked at: the work list, which has the frontier at its end, gets it if it
is new. -/
theorem Looking.step {frontier taken : List Nat} {before : List Edge} {e : Edge}
    (h : Looking nn start es u before seen frontier)
    (hpre : before ++ [e] <+: arcs nn Edge.src Edge.dst es u)
    (hs : SearchHolds nn seen work s) (hwork : work.Nodup) (hsub : ∀ x ∈ work, x ∈ seen)
    (hend : work = taken ++ frontier) :
    ∃ s' new, Graph.Search.visit e.dst.toInt.toNat s = .done s' ∧
      Looking nn start es u (before ++ [e]) (seen ++ new) (frontier ++ new) ∧
      SearchHolds nn (seen ++ new) (taken ++ (frontier ++ new)) s' := by
  have hmem : e ∈ arcs nn Edge.src Edge.dst es u :=
    hpre.subset (List.mem_append_right _ (List.mem_singleton_self e))
  have hv : e.dst.toInt.toNat < nn := toNat_lt_of_isNode (mem_arcs.mp hmem).2.2
  have hmap : (before ++ [e]).map (fun e => e.dst.toInt.toNat) =
      before.map (fun e => e.dst.toInt.toNat) ++ [e.dst.toInt.toNat] := List.map_append
  by_cases hold : e.dst.toInt.toNat ∈ seen
  · refine ⟨s, [], hs.visit_seen hv hold, ⟨?_, ?_⟩, ?_⟩
    · rw [List.append_nil, List.append_nil, hmap]
      exact h.scanning.skip hold
    · rw [List.append_nil]
      exact h.nodes
    · rw [List.append_nil, List.append_nil, ← hend]
      exact hs
  · obtain ⟨s', hrun, hs'⟩ := hs.visit hwork hsub h.nodes hv hold
    refine ⟨s', [e.dst.toInt.toNat], hrun, ⟨?_, fun x hx => ?_⟩, ?_⟩
    · rw [hmap]
      exact h.scanning.visit (List.mem_map_of_mem hmem) hold
    · rcases List.mem_append.mp hx with hx | hx
      · exact h.nodes x hx
      · rwa [List.mem_singleton.mp hx]
    · rw [← List.append_assoc, ← hend]
      exact hs'

/-- The nodes found by a search and the ones still to be looked at. -/
structure Found (nn start : Nat) (es : List Edge) (seen frontier : List Nat) : Prop where
  explored : Explored (successors nn es) start seen frontier
  nodes : ∀ x ∈ seen, x < nn

/-- The successors of a node that was taken from the frontier are looked at. -/
theorem Found.scan (hadj : Adjacency nn Edge.src Edge.dst es c) {frontier rest taken : List Nat}
    (h : Found nn start es seen frontier) (hperm : frontier.Perm (u :: rest))
    (hs : SearchHolds nn seen (taken ++ rest) s) (hwork : taken = [] ∨ seen = taken ++ rest) :
    ∃ s' new, Graph.forNeighbours nn c u (fun _ v => Graph.Search.visit v) s = .done s' ∧
      Found nn start es (seen ++ new) (rest ++ new) ∧
      SearchHolds nn (seen ++ new) (taken ++ (rest ++ new)) s' := by
  have hpop := h.explored.pop hperm
  have hu : u < nn := h.nodes u hpop.node
  have hrow : ∃ s', Graph.forNeighbours nn c u (fun _ v => Graph.Search.visit v) s = .done s' ∧
      ∃ new, Looking nn start es u (arcs nn Edge.src Edge.dst es u) (seen ++ new) (rest ++ new) ∧
        SearchHolds nn (seen ++ new) (taken ++ (rest ++ new)) s' := by
    refine hadj.forNeighbours_ok hu (fun before s => ∃ new,
      Looking nn start es u before (seen ++ new) (rest ++ new) ∧
        SearchHolds nn (seen ++ new) (taken ++ (rest ++ new)) s) ⟨[], ?_, ?_⟩ ?_
    · rw [List.append_nil, List.append_nil]
      exact ⟨hpop, h.nodes⟩
    · rw [List.append_nil, List.append_nil]
      exact hs
    · rintro before e k s hpre - ⟨new, hlook, hs⟩
      have hlist : (taken ++ (rest ++ new)).Nodup ∧
          ∀ x ∈ taken ++ (rest ++ new), x ∈ seen ++ new := by
        rcases hwork with rfl | heq
        · exact ⟨hlook.scanning.frontier_nodup, hlook.scanning.subset⟩
        · rw [← List.append_assoc, ← heq]
          exact ⟨hlook.scanning.nodup, fun x hx => hx⟩
      obtain ⟨s', more, hrun, hlook', hs'⟩ := hlook.step hpre hs hlist.1 hlist.2 rfl
      refine ⟨s', hrun, new ++ more, ?_, ?_⟩
      · rw [← List.append_assoc, ← List.append_assoc]
        exact hlook'
      · rw [← List.append_assoc rest, ← List.append_assoc seen]
        exact hs'
  obtain ⟨s', hrun, new, hlook, hs'⟩ := hrow
  exact ⟨s', new, hrun, ⟨hlook.scanning.finish, hlook.nodes⟩, hs'⟩

/-- The loop of the breadth-first search: the queue has all nodes found, the ones before its
head are done. -/
theorem bfs_loop (hadj : Adjacency nn Edge.src Edge.dst es c) (hstart : start < nn)
    (hs : SearchHolds nn [start] [start] s) :
    ∃ count, Outcome.loop (Graph.bfsTurn nn c) (nn + 1) (s, 0) = .done count ∧
      ∃ seen, Found nn start es seen [] ∧ count = seen.length := by
  refine Outcome.loop_of_measure
    (fun x => ∃ seen, Found nn start es seen (seen.drop x.2) ∧ x.2 ≤ seen.length ∧
      SearchHolds nn seen seen x.1)
    (fun x => nn - x.2) (by simp only; omega) ⟨[start], ⟨explored_start _ _, ?_⟩, ?_, hs⟩ ?_
  · intro x hx
    rwa [List.mem_singleton.mp hx]
  · exact Nat.zero_le _
  · rintro ⟨s, qh⟩ ⟨seen, hfound, hqh, hs⟩
    simp only at hqh hs hfound
    have htop := hs.top
    by_cases hlt : qh < s.top
    · have hget := List.getElem?_eq_getElem (l := seen) (i := qh) (by omega)
      have hdrop : seen.drop qh = seen[qh] :: seen.drop (qh + 1) := List.drop_eq_getElem_cons _
      have hsplit : seen = seen.take (qh + 1) ++ seen.drop (qh + 1) :=
        (List.take_append_drop (qh + 1) seen).symm
      have hle := nodup_length_le hfound.explored.nodup hfound.nodes
      obtain ⟨s', new, hrun, hfound', hs'⟩ := hfound.scan (u := seen[qh]) hadj
        (by rw [hdrop]) (by rw [List.take_append_drop]; exact hs) (Or.inr hsplit)
      refine Or.inl ⟨(s', qh + 1), ?_, ⟨seen ++ new, ?_, ?_, ?_⟩, by simp only; omega⟩
      · simp only [Graph.bfsTurn]
        rw [if_pos hlt, Outcome.read_of_getElem? (hs.cells qh _ hget), Outcome.done_bind, hrun]
        rfl
      · rw [List.drop_append_of_le_length (by omega)]
        exact hfound'
      · rw [List.length_append]
        simp only
        omega
      · rw [← List.append_assoc, ← hsplit] at hs'
        exact hs'
    · obtain rfl : qh = seen.length := by omega
      rw [List.drop_length] at hfound
      refine Or.inr ⟨s.count, ?_, seen, hfound, hs.count⟩
      simp only [Graph.bfsTurn]
      rw [if_neg hlt]
      rfl

/-- The loop of the depth-first search: the stack has the nodes that are not done. -/
theorem dfs_loop (hadj : Adjacency nn Edge.src Edge.dst es c) (hstart : start < nn)
    (hs : SearchHolds nn [start] [start] s) :
    ∃ count, Outcome.loop (Graph.dfsTurn nn c) (nn + 1) s = .done count ∧
      ∃ seen, Found nn start es seen [] ∧ count = seen.length := by
  refine Outcome.loop_of_measure
    (fun s => ∃ seen stack, Found nn start es seen stack ∧ SearchHolds nn seen stack s)
    (fun s => nn - (s.count - s.top)) (by omega)
    ⟨[start], [start], ⟨explored_start _ _, ?_⟩, hs⟩ ?_
  · intro x hx
    rwa [List.mem_singleton.mp hx]
  · rintro s ⟨seen, stack, hfound, hs⟩
    have htop := hs.top
    by_cases hlt : 0 < s.top
    · obtain ⟨rest, u, rfl⟩ := List.eq_nil_or_concat stack |>.resolve_left fun hnil => by
        rw [hnil, List.length_nil] at htop
        omega
      rw [List.concat_eq_append, List.length_append, List.length_singleton] at htop
      rw [List.concat_eq_append] at hfound hs
      have hget : s.work[s.top - 1]? = some u := by
        refine hs.cells _ u ?_
        rw [htop, Nat.add_sub_cancel, List.getElem?_append_right (Nat.le_refl _), Nat.sub_self]
        rfl
      have hpopped : SearchHolds nn seen ([] ++ rest) { s with top := s.top - 1 } := by
        refine ⟨hs.marks, hs.marked, hs.room, fun i v hv => ?_, ?_, hs.count⟩
        · rw [List.nil_append] at hv
          refine hs.cells i v ?_
          have hi := (List.getElem?_eq_some_iff.mp hv).1
          rwa [List.getElem?_append_left hi]
        · simp only [List.nil_append]
          omega
      obtain ⟨s', new, hrun, hfound', hs'⟩ := hfound.scan hadj
        (List.perm_append_singleton u rest) hpopped (Or.inl rfl)
      have hle := nodup_length_le hfound'.explored.nodup hfound'.nodes
      have hsub : (rest ++ [u]).length ≤ seen.length :=
        (List.subperm_of_subset hfound.explored.frontier_nodup hfound.explored.subset).length_le
      have hcount := hs.count
      have hcount' := hs'.count
      have htop' := hs'.top
      rw [List.length_append] at hsub hcount' hle
      rw [List.nil_append, List.length_append] at htop'
      rw [List.length_singleton] at hsub
      refine Or.inl ⟨s', ?_, ⟨seen ++ new, rest ++ new, hfound', hs'⟩, by omega⟩
      unfold Graph.dfsTurn
      rw [if_pos hlt, Outcome.read_of_getElem? hget, Outcome.done_bind, hrun]
      rfl
    · obtain rfl : stack = [] := List.length_eq_zero_iff.mp (by omega)
      refine Or.inr ⟨s.count, ?_, seen, hfound, hs.count⟩
      unfold Graph.dfsTurn
      rw [if_neg hlt]
      rfl

/-- How many nodes can be reached over the edges as they are kept. -/
noncomputable def keptCount (nn : Nat) (es : List Edge) (start : Nat) : Nat :=
  Set.ncard {v | Reaches (successors nn es) start v}

theorem Found.length_eq (h : Found nn start es seen []) : seen.length = keptCount nn es start := by
  have hset : {v | Reaches (successors nn es) start v} = (seen.toFinset : Set Nat) := by
    ext v
    rw [List.coe_toFinset]
    exact h.explored.mem_iff.symm
  unfold keptCount
  rw [hset, Set.ncard_coe_finset, List.toFinset_card_of_nodup h.explored.nodup]

end

/-! ## The counts -/

/-- The memory a search asks for is refused. -/
def searchRefused (heap : Nat → Bool) (g : Graph) : Prop :=
  Graph.cacheRefused heap g.numNodes g.numEdges g.edgeSrc ∨ malloc heap g.numNodes = false ∨
    malloc heap (g.numNodes * 8) = false

section

variable {g : Graph} {t : Nat × List Edge} {x : Csr × Graph}
  {run : Nat → Csr → Graph.Search → Outcome Nat}

/-- What a search does with the cache: its arrays, its loop, its count. -/
def afterCache (run : Nat → Csr → Graph.Search → Outcome Nat) (start : Nat) (heap : Nat → Bool)
    (x : Csr × Graph) : Outcome (Nat × Graph) := do
  let s ← Graph.Search.begin heap x.2.numNodes start
  let count ← run x.2.numNodes x.1 s
  pure (count, x.2)

/-- The loop of a search ends with the nodes it can reach. -/
def LoopFinds (run : Nat → Csr → Graph.Search → Outcome Nat) : Prop :=
  ∀ (nn start : Nat) (es : List Edge) (c : Csr) (s : Graph.Search),
    Adjacency nn Edge.src Edge.dst es c → start < nn → SearchHolds nn [start] [start] s →
    ∃ count, run nn c s = .done count ∧ ∃ seen, Found nn start es seen [] ∧ count = seen.length

theorem afterCache_returns (hrun : LoopFinds run) (heap : Nat → Bool) (hx : Cached t x)
    (hstart : start < t.1) :
    (afterCache run start heap x).Returns
      (malloc heap t.1 = false ∨ malloc heap (t.1 * 8) = false)
      fun y => y.1 = keptCount t.1 t.2 start := by
  have hbytes := hx.cache.2
  unfold afterCache
  rw [hx.numNodes]
  refine (begin_returns heap (by omega) hstart).bind fun s hs => ?_
  obtain ⟨count, hloop, seen, hfound, rfl⟩ := hrun _ _ _ _ _ hx.adjacency hstart hs
  rw [hloop, Outcome.done_bind]
  exact .of_done hfound.length_eq

theorem search_iff (h : GraphFits g t) (hrun : LoopFinds run) (hstart : start < t.1) (k : Nat) :
    (∀ heap, (g.forward heap >>= afterCache run start heap).Returns (searchRefused heap g)
      fun y => y.1 = k) ↔
      Unallocatable t.1 ∨ Countable t.1 (t.2.map Edge.src) ∧
        (2 ^ 60 ≤ t.1 ∨ keptCount t.1 t.2 start = k) := by
  refine h.returns_forward_iff (by omega) (fun heap href => Or.inl href) ?_ ?_
  · intro hQ heap x hx
    have hreason : malloc heap t.1 = false ∨ malloc heap (t.1 * 8) = false →
        searchRefused heap g := fun href => by
      rw [← h.holds.nodes] at href
      exact Or.inr href
    obtain ⟨hno, href⟩ | ⟨y, hdone, hy⟩ := afterCache_returns hrun heap hx hstart
    · exact Or.inl ⟨hno, hreason href⟩
    · rcases hQ with hlarge | hk
      · -- so many cells of eight bytes are never granted
        exfalso
        have hno : malloc heap (t.1 * 8) = false := by
          rcases malloc_cases heap (t.1 * 8) with hno | ⟨-, hlt⟩
          · exact hno
          · omega
        have hbytes := hx.cache.2
        unfold afterCache Graph.Search.begin Graph.allocateZeroed Graph.allocate at hdone
        rw [hx.numNodes, Nat.mod_eq_of_lt (show t.1 * 8 < 2 ^ 64 by omega), hno] at hdone
        cases hmarks : malloc heap (t.1 * 1) <;> rw [hmarks] at hdone <;> cases hdone
      · exact Or.inr ⟨y, hdone, hy.trans hk⟩
  · intro x hx hreturns
    by_cases hlarge : 2 ^ 60 ≤ t.1
    · exact Or.inl hlarge
    · refine Or.inr ?_
      obtain ⟨-, href⟩ | ⟨y, hdone, hy⟩ := afterCache_returns hrun (fun _ => true) hx hstart
      · rw [malloc_granted (by omega), malloc_granted (by omega)] at href
        simp at href
      · obtain ⟨hno, -⟩ | ⟨y', hdone', hy'⟩ := hreturns
        · rw [hdone] at hno
          cases hno
        · rw [hdone] at hdone'
          cases hdone'
          exact hy.symm.trans hy'

end

/-- The ends of an edge, as they were given, are nodes. -/
def EdgeInRange (nn : Nat) (e : Int64 × Int64 × Int64) : Prop :=
  (0 ≤ e.1.toInt ∧ e.1.toInt < nn) ∧ 0 ≤ e.2.1.toInt ∧ e.2.1.toInt < nn

instance (nn : Nat) (e : Int64 × Int64 × Int64) : Decidable (EdgeInRange nn e) :=
  inferInstanceAs (Decidable (_ ∧ _))

/-- The nodes to which edges that were in range when they were added lead from a node. -/
def givenSuccessors (nn : Nat) (added : List (Int64 × Int64 × Int64)) (u : Nat) : List Nat :=
  (added.filter fun e => EdgeInRange nn e ∧ e.1.toInt = u).map fun e => e.2.1.toInt.toNat

/-- How many nodes can be reached over the edges that were in range when they were added. -/
noncomputable def reachableCount (nn : Nat) (added : List (Int64 × Int64 × Int64))
    (start : Nat) : Nat :=
  if start < nn then Set.ncard {v | Reaches (givenSuccessors nn added) start v} else 0

/-- The narrowing of the ends does no harm. Of at most `2 ^ 31` nodes: an edge whose ends are
nodes after it leads to a node that can be reached anyway. Of more nodes, whose numbers are not
all kept: it changes no number of reachable nodes. -/
def NarrowingHarmless (nn : Nat) (added : List (Int64 × Int64 × Int64)) : Prop :=
  nn ≤ 2 ^ 31 ∧ (∀ e ∈ added, Graph.IsNode nn e.1.toInt32 → Graph.IsNode nn e.2.1.toInt32 →
      Reaches (givenSuccessors nn added) e.1.toInt32.toInt.toNat e.2.1.toInt32.toInt.toNat) ∨
    2 ^ 31 < nn ∧ ∀ start < nn,
      keptCount nn (added.map narrow) start = reachableCount nn added start

variable {added : List (Int64 × Int64 × Int64)}

theorem toInt32_toInt {x : Int64} (h0 : 0 ≤ x.toInt) (hlt : x.toInt < 2 ^ 31) :
    x.toInt32.toInt = x.toInt := by
  rw [Int64.toInt_toInt32]
  apply Int.bmod_eq_of_le <;> omega

/-- Of at most `2 ^ 31` nodes, an edge that was in range is kept. -/
theorem givenSuccessors_subset (hnn : nn ≤ 2 ^ 31) (h : v ∈ givenSuccessors nn added u) :
    v ∈ successors nn (added.map narrow) u := by
  obtain ⟨e, he, rfl⟩ := List.mem_map.mp h
  rw [List.mem_filter, decide_eq_true_iff] at he
  obtain ⟨hmem, ⟨⟨hsrc0, hsrc⟩, hdst0, hdst⟩, hu⟩ := he
  have hsrc' : (narrow e).src.toInt = e.1.toInt := toInt32_toInt hsrc0 (by omega)
  have hdst' : (narrow e).dst.toInt = e.2.1.toInt := toInt32_toInt hdst0 (by omega)
  refine List.mem_map.mpr ⟨narrow e, mem_arcs.mpr ⟨List.mem_map_of_mem hmem, ?_, ?_⟩, ?_⟩
  · rw [hsrc', hu]
  · unfold Graph.IsNode
    rw [hdst']
    exact ⟨hdst0, hdst⟩
  · rw [hdst']

theorem reaches_of_given (hnn : nn ≤ 2 ^ 31) (h : Reaches (givenSuccessors nn added) start v) :
    Reaches (successors nn (added.map narrow)) start v := by
  induction h with
  | start => exact .start
  | step _ hv ih => exact ih.step (givenSuccessors_subset hnn hv)

theorem keptCount_eq_iff (hnn : nn ≤ 2 ^ 31) :
    (∀ start < nn, keptCount nn (added.map narrow) start = reachableCount nn added start) ↔
      ∀ e ∈ added, Graph.IsNode nn e.1.toInt32 → Graph.IsNode nn e.2.1.toInt32 →
        Reaches (givenSuccessors nn added) e.1.toInt32.toInt.toNat e.2.1.toInt32.toInt.toNat := by
  constructor
  · intro hcount e he hsrc hdst
    have hstart := toNat_lt_of_isNode hsrc
    have hsub : {v | Reaches (givenSuccessors nn added) e.1.toInt32.toInt.toNat v} ⊆
        {v | Reaches (successors nn (added.map narrow)) e.1.toInt32.toInt.toNat v} :=
      fun v hv => reaches_of_given hnn hv
    have hfin : {v | Reaches (successors nn (added.map narrow)) e.1.toInt32.toInt.toNat v}.Finite :=
      (Set.finite_lt_nat nn).subset fun v hv => reaches_lt hstart hv
    have hle : Set.ncard {v | Reaches (successors nn (added.map narrow))
        e.1.toInt32.toInt.toNat v} ≤
        Set.ncard {v | Reaches (givenSuccessors nn added) e.1.toInt32.toInt.toNat v} := by
      have heq := hcount _ hstart
      unfold keptCount reachableCount at heq
      rw [if_pos hstart] at heq
      exact le_of_eq heq
    have hset := Set.eq_of_subset_of_ncard_le hsub hle hfin
    have hedge : e.2.1.toInt32.toInt.toNat ∈
        successors nn (added.map narrow) e.1.toInt32.toInt.toNat := by
      have h0 := hsrc.1
      exact List.mem_map.mpr ⟨narrow e, mem_arcs.mpr ⟨List.mem_map_of_mem he,
        show e.1.toInt32.toInt = _ by omega, hdst⟩, rfl⟩
    have hmem : e.2.1.toInt32.toInt.toNat ∈
        {v | Reaches (successors nn (added.map narrow)) e.1.toInt32.toInt.toNat v} :=
      Reaches.start.step hedge
    rw [← hset] at hmem
    exact hmem
  · intro hharmless start hstart
    unfold keptCount reachableCount
    rw [if_pos hstart]
    congr 1
    ext v
    refine ⟨fun hv => ?_, fun hv => reaches_of_given hnn hv⟩
    have hback : ∀ w, Reaches (successors nn (added.map narrow)) start w →
        Reaches (givenSuccessors nn added) start w := by
      intro w hw
      induction hw with
      | start => exact .start
      | @step x y hx hy ih =>
        refine ih.trans ?_
        have hxlt := reaches_lt hstart hx
        obtain ⟨e', he', rfl⟩ := List.mem_map.mp hy
        obtain ⟨hmem, hsrc, hdst⟩ := mem_arcs.mp he'
        obtain ⟨e, he, rfl⟩ := List.mem_map.mp hmem
        have hnode : Graph.IsNode nn e.1.toInt32 := by
          have hsrc' : e.1.toInt32.toInt = x := hsrc
          unfold Graph.IsNode
          omega
        have hreach := hharmless e he hnode hdst
        have hx' : e.1.toInt32.toInt.toNat = x := by
          have hsrc' : e.1.toInt32.toInt = x := hsrc
          omega
        rwa [hx'] at hreach
    exact hback v hv

theorem narrowingHarmless_iff : NarrowingHarmless nn added ↔
    ∀ start < nn, keptCount nn (added.map narrow) start = reachableCount nn added start := by
  unfold NarrowingHarmless
  by_cases hnn : nn ≤ 2 ^ 31
  · rw [← keptCount_eq_iff hnn]
    constructor
    · rintro (h | h)
      · exact h.2
      · exact h.2
    · exact fun h => Or.inl ⟨hnn, h⟩
  · constructor
    · rintro (h | h)
      · exact absurd h.1 hnn
      · exact h.2
    · exact fun h => Or.inr ⟨by omega, h⟩

theorem bfs_finds : LoopFinds fun nn c s => Outcome.loop (Graph.bfsTurn nn c) (nn + 1) (s, 0) :=
  fun _ _ _ _ _ hadj hstart hs => bfs_loop hadj hstart hs

theorem dfs_finds : LoopFinds fun nn c s => Outcome.loop (Graph.dfsTurn nn c) (nn + 1) s :=
  fun _ _ _ _ _ hadj hstart hs => dfs_loop hadj hstart hs

/-- A search: what it does before the cache is read, and after. -/
def searchCall (run : Nat → Csr → Graph.Search → Outcome Nat) (g : Graph) (heap : Nat → Bool)
    (start : Int64) : Outcome (Nat × Graph) :=
  if g.numNodes == 0 || g.outside start then pure (0, g)
  else g.forward heap >>= afterCache run start.toInt.toNat heap

/-- How many nodes can be reached from a start, which need not be a node. -/
noncomputable def reachableFrom (nn : Nat) (added : List (Int64 × Int64 × Int64))
    (start : Int64) : Nat :=
  if 0 ≤ start.toInt then reachableCount nn added start.toInt.toNat else 0

theorem searchCall_iff {n : Int64} {g : Graph} {run : Nat → Csr → Graph.Search → Outcome Nat}
    (hg : Built n added g) (hrun : LoopFinds run) :
    (∀ start heap, (searchCall run g heap start).Returns (searchRefused heap g)
      fun y => y.1 = reachableFrom n.toInt.toNat added start) ↔
      Unallocatable n.toInt.toNat ∨
        Countable n.toInt.toNat ((added.map narrow).map Edge.src) ∧
          (2 ^ 60 ≤ n.toInt.toNat ∨ NarrowingHarmless n.toInt.toNat added) := by
  have hfits := hg.fits
  have hnodes : g.numNodes = n.toInt.toNat := hfits.holds.nodes
  have hsmall : n.toInt.toNat < 2 ^ 63 := by
    have hlt := n.toInt_lt
    omega
  generalize n.toInt.toNat = nn at hfits hnodes hsmall ⊢
  have hguard : ∀ start : Int64, (g.numNodes == 0 || g.outside start) = true ↔
      ¬ (0 ≤ start.toInt ∧ start.toInt.toNat < nn) := by
    intro start
    unfold Graph.outside
    rw [hnodes]
    simp only [Bool.or_eq_true, beq_iff_eq, decide_eq_true_eq]
    omega
  have hsearch := fun start (hstart : start < nn) => search_iff hfits hrun hstart
    (reachableCount nn added start)
  constructor
  · intro hall
    have hstarts : ∀ start < nn, Unallocatable nn ∨
        Countable nn ((added.map narrow).map Edge.src) ∧
          (2 ^ 60 ≤ nn ∨ keptCount nn (added.map narrow) start = reachableCount nn added start) := by
      intro start hstart
      refine (hsearch start hstart).mp fun heap => ?_
      have hint : (Int64.ofInt start).toInt = start :=
        Int64.toInt_ofInt_of_le (by omega) (by omega)
      have hcall := hall (Int64.ofInt start) heap
      unfold searchCall reachableFrom at hcall
      rw [if_neg fun hout => (hguard _).mp hout (by omega), hint,
        if_pos (Int.natCast_nonneg start)] at hcall
      exact hcall
    by_cases hno : Unallocatable nn
    · exact Or.inl hno
    · refine Or.inr ⟨?_, ?_⟩
      · by_cases hzero : nn = 0
        · subst hzero
          exact countable_zero _
        · exact ((hstarts 0 (by omega)).resolve_left hno).1
      · by_cases hlarge : 2 ^ 60 ≤ nn
        · exact Or.inl hlarge
        · refine Or.inr (narrowingHarmless_iff.mpr fun start hstart => ?_)
          exact ((hstarts start hstart).resolve_left hno).2.resolve_left hlarge
  · intro hcond start heap
    unfold searchCall reachableFrom
    by_cases hstart : 0 ≤ start.toInt ∧ start.toInt.toNat < nn
    · rw [if_neg fun hout => (hguard _).mp hout hstart, if_pos hstart.1]
      refine (hsearch _ hstart.2).mpr ?_ heap
      exact hcond.imp_right fun ⟨hc, hh⟩ =>
        ⟨hc, hh.imp_right fun hh => narrowingHarmless_iff.mp hh _ hstart.2⟩
    · rw [if_pos ((hguard _).mpr hstart)]
      refine .of_done ?_
      by_cases h0 : 0 ≤ start.toInt
      · rw [if_pos h0]
        exact (if_neg fun hlt => hstart ⟨h0, hlt⟩).symm
      · rw [if_neg h0]

end Vani.Analysis
