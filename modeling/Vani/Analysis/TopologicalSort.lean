import Vani.Analysis.GraphBuilt
import Vani.Analysis.VecRefines
import Vani.Library.TopologicalOrder

/-!
# The topological sort and the cycle test

Both count for each node the edges to it, queue the nodes with none, and go through the queue,
taking the edges of its nodes off the counts. The queue is the line of Kahn's algorithm, and the
counts are its degrees, between any two turns and after any edge of a turn. The sort appends the
line to a vector, for which it makes room at the start.
-/

set_option autoImplicit false

namespace Vani.Analysis

open Vani.Library Vani.Backend

variable {nn : Nat} {es : List Edge} {c : Csr} {lined pending : List Nat} {k u v : Nat}
  {s : Graph.Kahn}

/-- The number of edges to a node that have not been seen. -/
def unseen (nn : Nat) (es : List Edge) (taken pending : List Nat) (v : Nat) : Nat :=
  degree (List.range nn) (successors nn es) taken pending v

/-- The arrays have the degrees and the line. -/
structure KahnHolds (nn : Nat) (es : List Edge) (lined : List Nat) (k : Nat) (pending : List Nat)
    (s : Graph.Kahn) : Prop where
  degrees : s.inDeg.size = nn
  degree : ∀ v, v < nn → s.inDeg[v]? = some (unseen nn es (lined.take k) pending v : Int)
  small : ∀ v, unseen nn es (lined.take k) pending v < 2 ^ 31
  room : s.queue.size = nn
  cells : ∀ (i v : Nat), lined[i]? = some v → s.queue[i]? = some v
  head : s.qh = k
  tail : s.qt = lined.length
  processed : s.processed = k

/-- The line of Kahn's algorithm on the nodes and edges of a graph. -/
abbrev Line (nn : Nat) (es : List Edge) (lined : List Nat) (k : Nat) (pending : List Nat) : Prop :=
  Peeled (List.range nn) (successors nn es) lined k pending

theorem Line.lt (h : Line nn es lined k pending) {v : Nat} (hv : v ∈ lined) : v < nn :=
  List.mem_range.mp ((h.mem_iff v).mp hv).1

theorem Line.length_le (h : Line nn es lined k pending) : lined.length ≤ nn :=
  nodup_length_le h.nodup fun _ hv => h.lt hv

theorem int64_ofNat {n : Nat} (h : n < 2 ^ 31) : Graph.int64 (n : Int) = .done (n : Int) :=
  if_pos ⟨by omega, by omega⟩

/-! ## One edge -/

theorem unseen_cons_self (taken : List Nat) :
    unseen nn es taken (v :: pending) v = unseen nn es taken pending v + 1 := by
  unfold unseen degree
  rw [List.count_cons_self]
  rfl

theorem unseen_cons_of_ne {w : Nat} (taken : List Nat) (h : v ≠ w) :
    unseen nn es taken (v :: pending) w = unseen nn es taken pending w := by
  unfold unseen degree
  rw [List.count_cons_of_ne h]

/-- An edge is taken off the count of its end, which is queued if it was the last. -/
theorem release_ok (hline : Line nn es lined k (v :: pending))
    (hs : KahnHolds nn es lined k (v :: pending) s) (hv : v < nn) :
    ∃ s' lined', Graph.Kahn.release v s = .done s' ∧ lined <+: lined' ∧
      Line nn es lined' k pending ∧ KahnHolds nn es lined' k pending s' := by
  have hsize := hs.degrees
  have hroom := hs.room
  have hsmall : ∀ w, unseen nn es (lined.take k) pending w < 2 ^ 31 := by
    intro w
    have hlt := hs.small w
    by_cases hwv : v = w
    · subst hwv
      rw [unseen_cons_self] at hlt
      omega
    · rwa [unseen_cons_of_ne _ hwv] at hlt
  have hread := hs.degree v hv
  rw [unseen_cons_self] at hread
  have hsub : ((unseen nn es (lined.take k) pending v + 1 : Nat) : Int) - 1 =
      (unseen nn es (lined.take k) pending v : Int) := by omega
  obtain ⟨inDeg, hwrite, hsize', hat, hne⟩ := Outcome.write_ok (a := s.inDeg) (i := v) (by omega)
    (unseen nn es (lined.take k) pending v : Int)
  have hdegree : ∀ w, w < nn →
      inDeg[w]? = some (unseen nn es (lined.take k) pending w : Int) := by
    intro w hw
    by_cases hwv : w = v
    · rw [hwv, hat]
    · rw [hne w hwv, hs.degree w hw, unseen_cons_of_ne _ (Ne.symm hwv)]
  unfold Graph.Kahn.release
  rw [Outcome.read_of_getElem? hread, Outcome.done_bind, hsub, int64_ofNat (hsmall v),
    Outcome.done_bind, hwrite, Outcome.done_bind]
  by_cases hzero : unseen nn es (lined.take k) pending v = 0
  · have hline' := hline.release_last (List.mem_range.mpr hv) hzero
    have hlen := Line.length_le hline'
    rw [List.length_append, List.length_singleton] at hlen
    obtain ⟨queue, hpush, hqsize, hqat, hqne⟩ := Outcome.write_ok (a := s.queue) (i := s.qt)
      (by rw [hs.tail]; omega) v
    have htake : (lined ++ [v]).take k = lined.take k := List.take_append_of_le_length hline.le
    rw [if_pos (by rw [hzero]; rfl), hpush, Outcome.done_bind]
    refine ⟨_, lined ++ [v], rfl, List.prefix_append _ _, hline', hsize'.trans hsize, ?_, ?_, hqsize.trans hroom,
      fun i w hw => ?_, hs.head, ?_, hs.processed⟩
    · rw [htake]
      exact hdegree
    · rw [htake]
      exact hsmall
    · by_cases hi : i < lined.length
      · rw [List.getElem?_append_left hi] at hw
        rw [hqne i (by rw [hs.tail]; omega)]
        exact hs.cells i w hw
      · have hlt := (List.getElem?_eq_some_iff.mp hw).1
        rw [List.length_append, List.length_singleton] at hlt
        obtain rfl : i = lined.length := by omega
        rw [List.getElem?_append_right (Nat.le_refl _), Nat.sub_self] at hw
        obtain rfl := Option.some.inj hw
        rw [← hs.tail]
        exact hqat
    · rw [List.length_append, List.length_singleton, ← hs.tail]
  · rw [if_neg (by omega)]
    exact ⟨_, lined, rfl, List.prefix_refl lined, hline.release hzero, hsize'.trans hsize, hdegree,
      hsmall, hroom, hs.cells, hs.head, hs.tail, hs.processed⟩

/-! ## One node -/

theorem drop_of_concat_prefix {α : Type} {taken l : List α} {x : α} (h : taken ++ [x] <+: l) :
    l.drop taken.length = x :: l.drop (taken.length + 1) := by
  obtain ⟨rest, rfl⟩ := h
  simp

/-- The edges of a node of the line are taken off the counts. -/
theorem scan_ok (hadj : Adjacency nn Edge.src Edge.dst es c)
    (hline : Line nn es lined k []) (hs : KahnHolds nn es lined k [] s)
    (hu : lined[k]? = some u) :
    ∃ s' lined', Graph.forNeighbours nn c u (fun _ => Graph.Kahn.release)
        { s with qh := s.qh + 1, processed := s.processed + 1 } = .done s' ∧
      lined <+: lined' ∧ Line nn es lined' (k + 1) [] ∧ KahnHolds nn es lined' (k + 1) [] s' := by
  have hult : u < nn := hline.lt (List.mem_of_getElem? hu)
  have hnext := hline.next List.nodup_range hu
  have hsame : ∀ v, unseen nn es (lined.take (k + 1)) (successors nn es u) v =
      unseen nn es (lined.take k) [] v := by
    intro v
    rw [take_next hu]
    exact degree_take List.nodup_range (List.mem_range.mpr hult) (hline.next_not_mem hu) v
  have hrow : ∃ s', Graph.forNeighbours nn c u (fun _ => Graph.Kahn.release)
        { s with qh := s.qh + 1, processed := s.processed + 1 } = .done s' ∧
      ∃ lined', lined <+: lined' ∧
        Line nn es lined' (k + 1) ((successors nn es u).drop
          (arcs nn Edge.src Edge.dst es u).length) ∧
        KahnHolds nn es lined' (k + 1) ((successors nn es u).drop
          (arcs nn Edge.src Edge.dst es u).length) s' := by
    refine hadj.forNeighbours_ok hult (fun taken s => ∃ lined', lined <+: lined' ∧
      Line nn es lined' (k + 1) ((successors nn es u).drop taken.length) ∧
      KahnHolds nn es lined' (k + 1) ((successors nn es u).drop taken.length) s) ?_ ?_
    · refine ⟨lined, List.prefix_refl lined, hnext, hs.degrees, fun v hv => ?_, fun v => ?_,
        hs.room, hs.cells, ?_, hs.tail, ?_⟩
      · rw [List.length_nil, List.drop_zero, hsame]
        exact hs.degree v hv
      · rw [List.length_nil, List.drop_zero, hsame]
        exact hs.small v
      · simp only [hs.head]
      · simp only [hs.processed]
    · rintro taken e j s hpre - ⟨lined', hle, hline', hs'⟩
      have hdst : e.dst.toInt.toNat < nn :=
        toNat_lt_of_isNode (mem_arcs.mp (hpre.subset (by simp))).2.2
      have hdrop : (successors nn es u).drop taken.length =
          e.dst.toInt.toNat :: (successors nn es u).drop (taken ++ [e]).length := by
        unfold successors
        rw [List.length_append, List.length_singleton, ← List.map_drop, ← List.map_drop,
          drop_of_concat_prefix hpre]
        rfl
      rw [hdrop] at hline' hs'
      obtain ⟨s'', lined'', hrun, hle', hline'', hs''⟩ := release_ok hline' hs' hdst
      exact ⟨s'', hrun, lined'', hle.trans hle', hline'', hs''⟩
  obtain ⟨s', hrun, lined', hle, hline', hs'⟩ := hrow
  have hnone : (successors nn es u).drop (arcs nn Edge.src Edge.dst es u).length = [] := by
    unfold successors
    rw [← List.map_drop, List.drop_length]
    rfl
  rw [hnone] at hline' hs'
  exact ⟨s', lined', hrun, hle, hline', hs'⟩

/-! ## The loop -/

/-- The loop goes through the whole line; `T` is what is done with the nodes besides. -/
theorem kahn_loop {τ : Type} (emit : Nat → τ → Outcome τ) (T : List Nat → τ → Prop)
    (hemit : ∀ taken u t, T taken t → taken.length < nn →
      ∃ t', emit u t = .done t' ∧ T (taken ++ [u]) t')
    (hadj : Adjacency nn Edge.src Edge.dst es c) {lined₀ : List Nat} {t₀ : τ}
    (hline : Line nn es lined₀ 0 []) (hs : KahnHolds nn es lined₀ 0 [] s) (ht : T [] t₀) :
    ∃ r, Outcome.loop (Graph.kahnTurn nn c emit) (nn + 1) (s, t₀) = .done r ∧
      ∃ lined, Line nn es lined lined.length [] ∧ r.1 = lined.length ∧ T lined r.2 := by
  refine Outcome.loop_of_measure
    (fun x => ∃ lined k, Line nn es lined k [] ∧ KahnHolds nn es lined k [] x.1 ∧
      T (lined.take k) x.2)
    (fun x => nn - x.1.qh) (by simp only [hs.head]; omega) ⟨lined₀, 0, hline, hs, ht⟩ ?_
  rintro ⟨s, t⟩ ⟨lined, k, hline, hs, ht⟩
  have hhead : s.qh = k := hs.head
  have htail : s.qt = lined.length := hs.tail
  by_cases hlt : s.qh < s.qt
  · have hget := List.getElem?_eq_getElem (l := lined) (i := k) (by omega)
    have hlen := Line.length_le hline
    obtain ⟨t', hrun, ht'⟩ := hemit _ lined[k] t ht (by rw [List.length_take]; omega)
    obtain ⟨s', lined', hscan, hle, hline', hs'⟩ := scan_ok hadj hline hs hget
    have htake : lined'.take (k + 1) = lined.take k ++ [lined[k]] := by
      obtain ⟨rest, rfl⟩ := hle
      rw [List.take_append_of_le_length (by omega), take_next hget]
    have hhead' := hs'.head
    refine Or.inl ⟨(s', t'), ?_, ⟨lined', k + 1, hline', hs', htake ▸ ht'⟩, by simp only; omega⟩
    simp only [Graph.kahnTurn]
    rw [if_pos hlt, Outcome.read_of_getElem? (hs.cells _ _ (by rw [hhead]; exact hget)),
      Outcome.done_bind, hrun, Outcome.done_bind, hscan]
    rfl
  · have hle := hline.le
    obtain rfl : k = lined.length := by omega
    rw [List.take_length] at ht
    refine Or.inr ⟨(s.processed, t), ?_, lined, hline, hs.processed, ht⟩
    simp only [Graph.kahnTurn]
    rw [if_neg hlt]
    rfl

/-! ## The counts and the first nodes -/

/-- There are at most as many edges between nodes as cells in the cache. -/
theorem flatMap_successors_length {m : Nat} (hm : m ≤ nn) :
    ((List.range m).flatMap (successors nn es)).length ≤ offset (nodeOf nn Edge.src) es m := by
  induction m with
  | zero => exact Nat.zero_le _
  | succ m ih =>
    have hrow : (successors nn es m).length ≤ (bucket (nodeOf nn Edge.src) es m).length := by
      unfold successors arcs
      rw [List.length_map, bucket_nodes (by omega)]
      apply List.Sublist.length_le
      apply List.monotone_filter_right
      intro e he
      simp only [Bool.decide_and, Bool.and_eq_true] at he
      exact he.1
    rw [List.range_succ, List.flatMap_append, List.length_append, offset_succ]
    have hbefore := ih (by omega)
    simp only [List.flatMap_cons, List.flatMap_nil, List.append_nil]
    omega

/-- One more edge is counted. -/
theorem countArc_ok {before : List Nat} {a : Array Int} {d : Nat} (hd : d < nn)
    (hsize : a.size = nn)
    (hcount : ∀ v, v < nn → a[v]? = some ((before.count v : Nat) : Int))
    (hlen : before.length + 1 < 2 ^ 31) :
    ∃ a', (do Outcome.write a d (← Graph.int64 ((← Outcome.read a d) + 1))) = .done a' ∧
      a'.size = nn ∧ ∀ v, v < nn → a'[v]? = some (((before ++ [d]).count v : Nat) : Int) := by
  have hle := List.count_le_length (a := d) (l := before)
  obtain ⟨a', hwrite, hsize', hat, hne⟩ := Outcome.write_ok (a := a) (i := d) (by omega)
    ((before.count d + 1 : Nat) : Int)
  have hadd : ((before.count d : Nat) : Int) + 1 = ((before.count d + 1 : Nat) : Int) := rfl
  refine ⟨a', ?_, hsize'.trans hsize, fun v hv => ?_⟩
  · rw [Outcome.read_of_getElem? (hcount d hd), Outcome.done_bind, hadd,
      int64_ofNat (by omega), Outcome.done_bind, hwrite]
  · rw [List.count_append]
    by_cases hvd : v = d
    · rw [hvd, hat, List.count_singleton_self]
    · rw [hne v hvd, hcount v hv, List.count_singleton, if_neg (by simpa using Ne.symm hvd),
        Nat.add_zero]

/-- The counts before the first turn. -/
theorem inDegrees_ok (hadj : Adjacency nn Edge.src Edge.dst es c)
    (hc : Countable nn (es.map Edge.src)) {a : Array Int} (ha : a = Array.replicate nn 0) :
    ∃ a', Graph.inDegrees nn c a = .done a' ∧ a'.size = nn ∧
      ∀ v, v < nn → a'[v]? = some ((((List.range nn).flatMap (successors nn es)).count v : Nat) :
        Int) := by
  refine Outcome.forRange_of_step (fun m (a : Array Int) => a.size = nn ∧ ∀ v, v < nn →
    a[v]? = some ((((List.range m).flatMap (successors nn es)).count v : Nat) : Int)) ?_ ?_
  · subst ha
    refine ⟨Array.size_replicate .., fun v hv => ?_⟩
    rw [Array.getElem?_replicate, if_pos hv]
    rfl
  · rintro m a hm ⟨hsize, hcount⟩
    have hsplit : (List.range (m + 1)).flatMap (successors nn es) =
        (List.range m).flatMap (successors nn es) ++ successors nn es m := by
      rw [List.range_succ, List.flatMap_append]
      simp
    have hbound : ((List.range m).flatMap (successors nn es) ++ successors nn es m).length <
        2 ^ 31 := by
      rw [← hsplit]
      exact Nat.lt_of_le_of_lt (flatMap_successors_length hm) (hc.offset_lt hm)
    have hrow : ∃ a', Graph.forNeighbours nn c m (fun _ d a => do
          Outcome.write a d (← Graph.int64 ((← Outcome.read a d) + 1))) a = .done a' ∧
        a'.size = nn ∧ ∀ v, v < nn → a'[v]? =
          some ((((List.range m).flatMap (successors nn es) ++ successors nn es m).count v : Nat) :
            Int) := by
      refine hadj.forNeighbours_ok hm (fun taken (a : Array Int) => a.size = nn ∧ ∀ v, v < nn →
        a[v]? = some ((((List.range m).flatMap (successors nn es) ++
          taken.map fun e => e.dst.toInt.toNat).count v : Nat) : Int)) ⟨hsize, fun v hv => ?_⟩ ?_
      · rw [List.map_nil, List.append_nil]
        exact hcount v hv
      · rintro taken e j a hpre - ⟨hsize, hcount⟩
        have hd : e.dst.toInt.toNat < nn :=
          toNat_lt_of_isNode (mem_arcs.mp (hpre.subset (by simp))).2.2
        have hlen := hpre.length_le
        rw [List.map_append, ← List.append_assoc]
        refine countArc_ok hd hsize hcount ?_
        have harcs : (successors nn es m).length = (arcs nn Edge.src Edge.dst es m).length :=
          List.length_map _
        rw [List.length_append] at hbound hlen ⊢
        rw [List.length_singleton] at hlen
        rw [List.length_map]
        omega
    rw [hsplit]
    exact hrow

/-- The first nodes are queued. -/
theorem enqueueSources_ok {inDeg : Array Int} {queue : Array Nat} {count : Nat → Nat}
    (hcount : ∀ v, v < nn → inDeg[v]? = some (count v : Int)) (hqueue : queue.size = nn) :
    ∃ q, Graph.enqueueSources nn inDeg queue = .done q ∧ q.1.size = nn ∧
      q.2 = ((List.range nn).filter fun v => count v = 0).length ∧
      ∀ (i v : Nat), ((List.range nn).filter fun v => count v = 0)[i]? = some v →
        q.1[i]? = some v := by
  refine Outcome.forRange_of_step (fun m (q : Array Nat × Nat) => q.1.size = nn ∧
    q.2 = ((List.range m).filter fun v => count v = 0).length ∧
    ∀ (i v : Nat), ((List.range m).filter fun v => count v = 0)[i]? = some v →
      q.1[i]? = some v) ⟨hqueue, rfl, by simp⟩ ?_
  rintro m ⟨queue, qt⟩ hm ⟨hsize, hqt, hcells⟩
  simp only at hsize hqt hcells ⊢
  have hlen : ((List.range m).filter fun v => count v = 0).length ≤ m := by
    have hle := List.length_filter_le (fun v => decide (count v = 0)) (List.range m)
    rwa [List.length_range] at hle
  rw [Outcome.read_of_getElem? (hcount m hm), Outcome.done_bind, List.range_succ,
    List.filter_append]
  by_cases hzero : count m = 0
  · have hone : [m].filter (fun v => count v = 0) = [m] := by simp [hzero]
    obtain ⟨queue', hwrite, hsize', hat, hne⟩ := Outcome.write_ok (a := queue) (i := qt)
      (by omega) m
    rw [if_pos (by rw [hzero]; rfl), hone, hwrite, Outcome.done_bind]
    refine ⟨(queue', qt + 1), rfl, hsize'.trans hsize, ?_, fun i v hv => ?_⟩
    · rw [List.length_append, List.length_singleton, ← hqt]
    · by_cases hi : i < ((List.range m).filter fun v => count v = 0).length
      · rw [List.getElem?_append_left hi] at hv
        rw [hne i (by omega)]
        exact hcells i v hv
      · have hlt := (List.getElem?_eq_some_iff.mp hv).1
        rw [List.length_append, List.length_singleton] at hlt
        obtain rfl : i = qt := by omega
        rw [List.getElem?_append_right (by omega)] at hv
        obtain ⟨-, rfl⟩ := List.getElem?_eq_some_iff.mp hv
        simpa using hat
  · have hnone : [m].filter (fun v => count v = 0) = [] := by simp [hzero]
    rw [if_neg (by omega), hnone, List.append_nil]
    exact ⟨_, rfl, hsize, hqt, hcells⟩

/-- The state before the first turn. -/
theorem kahn_begin_returns (heap : Nat → Bool) (hadj : Adjacency nn Edge.src Edge.dst es c)
    (hc : Countable nn (es.map Edge.src)) (hbytes : nn * 8 < 2 ^ 64) :
    (Graph.Kahn.begin heap nn c).Returns (malloc heap (nn * 8) = false) fun s =>
      ∃ lined, Line nn es lined 0 [] ∧ KahnHolds nn es lined 0 [] s := by
  unfold Graph.Kahn.begin Graph.allocateZeroed
  cases hmalloc : malloc heap (nn * 8) with
  | false => exact Or.inl ⟨rfl, rfl⟩
  | true =>
    obtain ⟨hrun, href⟩ | hrun := allocate_cases heap (0 : Nat) (show 0 < 8 by decide) hbytes
    · rw [hmalloc] at href
      cases href
    obtain ⟨inDeg, hin, hinSize, hcount⟩ := inDegrees_ok hadj hc rfl
    have hempty : (Array.replicate nn 0).size = nn := Array.size_replicate ..
    obtain ⟨⟨queue, qt⟩, hqueue, hqsize, hqt, hcells⟩ := enqueueSources_ok hcount hempty
    have hline : Line nn es _ 0 [] := Peeled.start List.nodup_range
    rw [if_pos rfl, Outcome.pure_eq, Outcome.done_bind, hrun, Outcome.done_bind, hin,
      Outcome.done_bind, hqueue, Outcome.done_bind]
    have hunseen : ∀ v, unseen nn es [] [] v =
        ((List.range nn).flatMap (successors nn es)).count v := by
      intro v
      simp [unseen, degree, openEnds]
    refine Or.inr ⟨_, rfl, _, hline, hinSize, fun v hv => ?_, fun v => ?_, hqsize, hcells, rfl,
      hqt, rfl⟩
    · rw [List.take_zero, hunseen]
      exact hcount v hv
    · rw [List.take_zero, hunseen]
      exact Nat.lt_of_le_of_lt List.count_le_length
        (Nat.lt_of_le_of_lt (flatMap_successors_length (Nat.le_refl nn)) hc.total_lt)

/-! ## The cycle test -/

/-- The memory that both algorithms ask for is refused. -/
def kahnRefused (heap : Nat → Bool) (g : Graph) : Prop :=
  Graph.cacheRefused heap g.numNodes g.numEdges g.edgeSrc ∨ malloc heap (g.numNodes * 8) = false

/-- There is no cycle of edges between nodes. -/
def GraphAcyclic (t : Nat × List Edge) : Prop := Acyclic (List.range t.1) (successors t.1 t.2)

variable {g : Graph} {t : Nat × List Edge} {x : Csr × Graph}

theorem successors_closed : ∀ u ∈ List.range nn, ∀ v ∈ successors nn es u, v ∈ List.range nn :=
  fun _ _ _ hv => List.mem_range.mpr (lt_of_mem_successors hv)

/-- What the cycle test does with the cache. -/
def testAfterCache (heap : Nat → Bool) (x : Csr × Graph) : Outcome (Bool × Graph) := do
  let s ← Graph.Kahn.begin heap x.2.numNodes x.1
  let (processed, _) ← Outcome.loop (Graph.kahnTurn x.2.numNodes x.1 fun _ (t : Unit) => pure t)
    (x.2.numNodes + 1) (s, ())
  pure (decide (processed < x.2.numNodes), x.2)

theorem testAfterCache_returns (heap : Nat → Bool) (hx : Cached t x) :
    (testAfterCache heap x).Returns (malloc heap (t.1 * 8) = false)
      fun y => y.1 = true ↔ ¬ GraphAcyclic t := by
  have hbytes := hx.cache.2
  unfold testAfterCache
  rw [hx.numNodes]
  refine (kahn_begin_returns heap hx.adjacency hx.cache.1 (by omega)).bind fun s hs => ?_
  obtain ⟨lined₀, hline₀, hs⟩ := hs
  obtain ⟨⟨processed, u⟩, hloop, lined, hline, hcount, -⟩ := kahn_loop
    (fun _ (t : Unit) => pure t) (fun _ _ => True) (fun _ _ t _ _ => ⟨t, rfl, trivial⟩)
    hx.adjacency hline₀ hs trivial
  have hlen := Line.length_le hline
  have hiff := hline.length_eq_iff List.nodup_range successors_closed
  rw [List.length_range] at hiff
  simp only at hcount
  rw [hloop, Outcome.done_bind]
  refine .of_done ?_
  unfold GraphAcyclic
  rw [decide_eq_true_iff, hcount, ← hiff]
  omega

/-! ## Room in the vector -/

/-- The capacity that doubling comes to first. -/
def DoublesTo (cap needed cap' : Nat) : Prop :=
  ∃ j, cap' = cap * 2 ^ j ∧ needed ≤ cap' ∧ ∀ i, i < j → cap * 2 ^ i < needed

/-- The capacity from which a vector is grown. -/
def firstCapacity (out : Vec Int64) : Nat := if out.capacity = 0 then 8 else out.capacity

/-- There is room for a node each, or the bytes that growing asks for do not wrap, or they wrap
to more than can be granted. -/
def GrowthFits (nn : Nat) (out : Vec Int64) : Prop :=
  out.len + nn ≤ out.capacity ∨ ∀ cap, DoublesTo (firstCapacity out) (out.len + nn) cap →
    cap * 8 < 2 ^ 64 ∨ 2 ^ 63 ≤ cap * 8 % 2 ^ 64

/-- The memory that growing asks for is refused. -/
def growthRefused (heap : Nat → Bool) (nn : Nat) (out : Vec Int64) : Prop :=
  out.capacity < out.len + nn ∧ ∃ cap, DoublesTo (firstCapacity out) (out.len + nn) cap ∧
    malloc heap (cap * 8 % 2 ^ 64) = false

theorem firstCapacity_pos (out : Vec Int64) : 0 < firstCapacity out := by
  unfold firstCapacity
  split <;> omega

theorem DoublesTo.unique {cap needed a b : Nat} (ha : DoublesTo cap needed a)
    (hb : DoublesTo cap needed b) : a = b := by
  obtain ⟨i, rfl, hi, hibefore⟩ := ha
  obtain ⟨j, rfl, hj, hjbefore⟩ := hb
  rcases lt_trichotomy i j with hlt | rfl | hgt
  · have hless := hjbefore i hlt
    omega
  · rfl
  · have hless := hibefore j hgt
    omega

theorem doubled_ok {cap needed : Nat} (hpos : 0 < cap)
    (hneeded : needed < 2 ^ 61) :
    ∃ cap', Graph.doubled needed 65 cap = .done cap' ∧ DoublesTo cap needed cap' := by
  have hexists : ∃ j, needed ≤ cap * 2 ^ j :=
    ⟨61, (Nat.le_of_lt hneeded).trans (Nat.le_mul_of_pos_left _ hpos)⟩
  classical
  have hspec := Nat.find_spec hexists
  have hbefore : ∀ i, i < Nat.find hexists → cap * 2 ^ i < needed := fun i hi =>
    Nat.lt_of_not_le (Nat.find_min hexists hi)
  have hle : Nat.find hexists ≤ 61 :=
    Nat.find_min' hexists ((Nat.le_of_lt hneeded).trans (Nat.le_mul_of_pos_left _ hpos))
  generalize Nat.find hexists = j at hspec hbefore hle
  refine ⟨cap * 2 ^ j, ?_, j, rfl, hspec, hbefore⟩
  have hrun : Graph.doubled needed 65 (cap * 2 ^ 0) = .done (cap * 2 ^ j) := by
    refine Outcome.loop_of_path (fun i => cap * 2 ^ i) (show j < 65 by omega) ?_ ?_
    · intro i hi
      have hless := hbefore i hi
      have hnext : cap * 2 ^ (i + 1) = cap * 2 ^ i * 2 := by rw [Nat.pow_succ, Nat.mul_assoc]
      rw [if_pos hless, hnext, Nat.mod_eq_of_lt (by omega)]
      rfl
    · rw [if_neg (by omega)]
      rfl
  rwa [Nat.pow_zero, Nat.mul_one] at hrun

variable {out : Vec Int64} {l : List Int64}

/-- A vector with room for a node each, or the memory for it is refused. -/
theorem growOut_returns (heap : Nat → Bool) (h : Holding 8 out l) (hnn : nn < 2 ^ 60)
    (hfits : GrowthFits nn out) :
    (Graph.growOut heap out (out.len + nn)).Returns (growthRefused heap nn out) fun out' =>
      Holding 8 out' l ∧ out.len + nn ≤ out'.capacity := by
  have hbytes : out.capacity * 8 < 2 ^ 63 := h.bytes
  have hle := h.len_le
  have hcells := h.cells
  have hlen := h.len_eq
  unfold Graph.growOut
  by_cases hfull : out.capacity < out.len + nn
  swap
  · rw [if_neg hfull]
    exact .of_done ⟨h, by omega⟩
  rw [if_pos hfull]
  obtain ⟨cap, hdouble, hcap⟩ := doubled_ok (firstCapacity_pos out)
    (show out.len + nn < 2 ^ 61 by omega)
  have hwrap := (hfits.resolve_left (by omega)) cap hcap
  have href : malloc heap (cap * 8 % 2 ^ 64) = false → growthRefused heap nn out := fun hno =>
    ⟨hfull, cap, hcap, hno⟩
  obtain ⟨-, -, hneeded, -⟩ := hcap
  unfold firstCapacity at hdouble
  rw [hdouble, Outcome.done_bind]
  rcases malloc_cases heap (cap * 8 % 2 ^ 64) with hno | ⟨hyes, hlt⟩
  · rw [hno]
    exact Or.inl ⟨rfl, href hno⟩
  · have hsmall : cap * 8 < 2 ^ 64 := by omega
    rw [Nat.mod_eq_of_lt hsmall] at hyes hlt ⊢
    rw [hyes, Nat.mul_div_cancel _ (by decide), if_pos rfl]
    refine .of_done ⟨⟨?_, hlen, by simp only; omega, hlt, fun i hi => ?_⟩, hneeded⟩
    · unfold Graph.grow
      rw [Array.size_ofFn]
    · unfold Graph.grow
      rw [Array.getElem?_ofFn, dif_pos (by omega), Array.getD_eq_getD_getElem?, h.elem i hi]
      rfl

/-- Growing that wraps leaves fewer cells than the capacity says. -/
theorem growOut_wrapped (hnn : nn < 2 ^ 60) (h : Holding 8 out l) (hfits : ¬ GrowthFits nn out) :
    ¬ growthRefused (fun _ => true) nn out ∧
      ∀ out', Graph.growOut (fun _ => true) out (out.len + nn) = .done out' →
        out'.data.size ≠ out'.capacity := by
  have hbytes : out.capacity * 8 < 2 ^ 63 := h.bytes
  have hle := h.len_le
  unfold GrowthFits at hfits
  rw [not_or, not_forall] at hfits
  obtain ⟨hfull, cap, hcap⟩ := hfits
  rw [Classical.not_imp, not_or] at hcap
  obtain ⟨hcap, hwrap, hgrant⟩ := hcap
  have hmalloc : malloc (fun _ => true) (cap * 8 % 2 ^ 64) = true := by
    unfold malloc
    rw [Bool.true_and, decide_eq_true (by omega)]
  constructor
  · rintro ⟨-, cap', hcap', hno⟩
    rw [hcap'.unique hcap, hmalloc] at hno
    cases hno
  · intro out' hrun
    obtain ⟨cap', hdouble, hcap'⟩ := doubled_ok (firstCapacity_pos out)
      (show out.len + nn < 2 ^ 61 by omega)
    rw [hcap'.unique hcap] at hdouble
    unfold firstCapacity at hdouble
    unfold Graph.growOut at hrun
    rw [if_pos (by omega), hdouble, Outcome.done_bind, hmalloc, if_pos rfl] at hrun
    cases hrun
    have hsize : (Graph.grow out.data (cap * 8 % 2 ^ 64 / 8) none).size =
        cap * 8 % 2 ^ 64 / 8 := by
      unfold Graph.grow
      rw [Array.size_ofFn]
    simp only [hsize]
    omega

/-! ## The sort -/

/-- The nodes of an order, as the vector has them. -/
def nodeNumbers (order : List Nat) : List Int64 := order.map fun u : Nat => Int64.ofInt u

/-- A vector with some of the nodes behind its elements, and room for the others. -/
def Emitted (nn : Nat) (l : List Int64) (cap : Nat) (taken : List Nat) (out : Vec Int64) : Prop :=
  Holding 8 out (l ++ nodeNumbers taken) ∧ out.capacity = cap ∧ l.length + nn ≤ cap

theorem emitNode_ok {cap : Nat} {taken : List Nat} (h : Emitted nn l cap taken out) (u : Nat)
    (hlt : taken.length < nn) :
    ∃ out', Graph.emitNode u out = .done out' ∧ Emitted nn l cap (taken ++ [u]) out' := by
  obtain ⟨hholds, hcap, hroom⟩ := h
  have hlen := hholds.len_eq
  have hcells := hholds.cells
  unfold nodeNumbers at hlen
  rw [List.length_append, List.length_map] at hlen
  have hless : out.len < out.capacity := by omega
  have hwrite := Outcome.write_of_lt (a := out.data) (i := out.len) (by omega)
    (some (Int64.ofInt u))
  refine ⟨⟨out.data.setIfInBounds out.len (some (Int64.ofInt u)), out.len + 1, out.capacity⟩,
    by unfold Graph.emitNode; rw [hwrite]; rfl, ?_, hcap, hroom⟩
  have happend := hholds.append hless (Int64.ofInt u)
  rw [List.append_assoc] at happend
  unfold nodeNumbers at happend ⊢
  rw [List.map_append]
  exact happend

/-- Nodes in an order along the edges, and how many they are. -/
structure TopologicalOrder (t : Nat × List Edge) (count : Nat) (order : List Nat) : Prop where
  length : count = order.length
  nodup : order.Nodup
  nodes : ∀ v ∈ order, v < t.1
  inOrder : EdgeOrdered (List.range t.1) (successors t.1 t.2) order
  all : count = t.1 ↔ GraphAcyclic t

/-- What the sort does with the cache. -/
def sortAfterCache (out : Vec Int64) (heap : Nat → Bool) (x : Csr × Graph) :
    Outcome (Nat × Vec Int64 × Graph) := do
  let s ← Graph.Kahn.begin heap x.2.numNodes x.1
  let out ← Graph.growOut heap out (out.len + x.2.numNodes)
  let (processed, out) ← Outcome.loop (Graph.kahnTurn x.2.numNodes x.1 Graph.emitNode)
    (x.2.numNodes + 1) (s, out)
  pure (processed, out, x.2)

theorem sortAfterCache_returns (heap : Nat → Bool) (hx : Cached t x) (h : Holding 8 out l)
    (hfits : GrowthFits t.1 out) :
    (sortAfterCache out heap x).Returns
      (malloc heap (t.1 * 8) = false ∨ growthRefused heap t.1 out)
      fun y => ∃ order, TopologicalOrder t y.1 order ∧
        Holding 8 y.2.1 (l ++ nodeNumbers order) := by
  have hbytes := hx.cache.2
  have hlen := h.len_eq
  unfold sortAfterCache
  rw [hx.numNodes]
  obtain ⟨hno, href⟩ | ⟨s, hbegin, lined₀, hline₀, hs⟩ :=
    kahn_begin_returns heap hx.adjacency hx.cache.1 (by omega)
  · exact Or.inl ⟨by rw [hno, Outcome.aborted_bind], Or.inl href⟩
  rw [hbegin, Outcome.done_bind]
  have hsmall : t.1 < 2 ^ 60 := by
    by_contra hlarge
    unfold Graph.Kahn.begin Graph.allocateZeroed at hbegin
    rcases malloc_cases heap (t.1 * 8) with hno | ⟨-, hlt⟩
    · rw [hno] at hbegin
      cases hbegin
    · omega
  obtain ⟨hno, href⟩ | ⟨out', hgrow, hout, hroom⟩ := growOut_returns heap h hsmall hfits
  · exact Or.inl ⟨by rw [hno, Outcome.aborted_bind], Or.inr href⟩
  rw [hgrow, Outcome.done_bind]
  have hemitted : Emitted t.1 l out'.capacity [] out' :=
    ⟨by rw [nodeNumbers, List.map_nil, List.append_nil]; exact hout, rfl, by omega⟩
  obtain ⟨⟨processed, out''⟩, hloop, lined, hline, hcount, hemitted⟩ := kahn_loop Graph.emitNode
    (Emitted t.1 l out'.capacity) (fun taken u out h hlt => emitNode_ok h u hlt) hx.adjacency
    hline₀ hs hemitted
  rw [hloop, Outcome.done_bind]
  refine .of_done ⟨lined, ⟨hcount, hline.nodup, fun v hv => hline.lt hv, hline.inOrder, ?_⟩,
    hemitted.1⟩
  have hiff := hline.length_eq_iff List.nodup_range successors_closed
  rw [List.length_range] at hiff
  simp only at hcount ⊢
  rw [hcount]
  exact hiff

/-! ## The condition -/

theorem emitNode_sizes {out out' : Vec Int64} (h : Graph.emitNode u out = .done out') :
    out'.data.size = out.data.size ∧ out'.capacity = out.capacity := by
  obtain ⟨data, hwrite, h⟩ := Outcome.bind_eq_done h
  obtain ⟨-, rfl⟩ := Outcome.write_eq_done hwrite
  cases h
  exact ⟨Array.size_setIfInBounds, rfl⟩

/-- The loop of the sort leaves the size of the vector's buffer and its capacity. -/
theorem kahn_loop_sizes {out out' : Vec Int64} {fuel processed : Nat}
    (h : Outcome.loop (Graph.kahnTurn nn c Graph.emitNode) fuel (s, out) =
      .done (processed, out')) :
    out'.data.size = out.data.size ∧ out'.capacity = out.capacity := by
  refine Outcome.loop_keeps (P := fun r => r.2.data.size = out.data.size ∧
    r.2.capacity = out.capacity) (fun x => x.2.data.size = out.data.size ∧
    x.2.capacity = out.capacity) ⟨rfl, rfl⟩ ?_ ?_ h
  · rintro ⟨s, o⟩ ⟨s', o'⟩ ⟨hsize, hcap⟩ hturn
    simp only [Graph.kahnTurn] at hturn
    split at hturn
    · obtain ⟨u, -, hturn⟩ := Outcome.bind_eq_done hturn
      obtain ⟨o'', hemit, hturn⟩ := Outcome.bind_eq_done hturn
      obtain ⟨s'', -, hturn⟩ := Outcome.bind_eq_done hturn
      cases hturn
      obtain ⟨hsize', hcap'⟩ := emitNode_sizes hemit
      exact ⟨hsize'.trans hsize, hcap'.trans hcap⟩
    · cases hturn
  · rintro ⟨s, o⟩ r hinit hturn
    simp only [Graph.kahnTurn] at hturn
    split at hturn
    · obtain ⟨u, -, hturn⟩ := Outcome.bind_eq_done hturn
      obtain ⟨o'', -, hturn⟩ := Outcome.bind_eq_done hturn
      obtain ⟨s'', -, hturn⟩ := Outcome.bind_eq_done hturn
      cases hturn
    · cases hturn
      exact hinit

theorem test_iff (h : GraphFits g t) (hnodes : t.1 ≠ 0) :
    (∀ heap, (g.forward heap >>= testAfterCache heap).Returns (kahnRefused heap g)
      fun y => y.1 = true ↔ ¬ GraphAcyclic t) ↔
      Unallocatable t.1 ∨ Countable t.1 (t.2.map Edge.src) ∧ True := by
  refine h.returns_forward_iff hnodes (fun heap href => Or.inl href) (fun _ heap x hx => ?_)
    fun _ _ _ => trivial
  refine (testAfterCache_returns heap hx).imp_left fun ⟨hno, href⟩ => ⟨hno, Or.inr ?_⟩
  rw [h.holds.nodes]
  exact href

theorem sort_iff (h : GraphFits g t) (hnodes : t.1 ≠ 0) (hout : Holding 8 out l) :
    (∀ heap, (g.forward heap >>= sortAfterCache out heap).Returns
      (kahnRefused heap g ∨ growthRefused heap t.1 out)
      fun y => ∃ order, TopologicalOrder t y.1 order ∧
        Holding 8 y.2.1 (l ++ nodeNumbers order)) ↔
      Unallocatable t.1 ∨ Countable t.1 (t.2.map Edge.src) ∧
        (2 ^ 60 ≤ t.1 ∨ GrowthFits t.1 out) := by
  have hrefused : ∀ heap, malloc heap (t.1 * 8) = false → kahnRefused heap g := by
    intro heap href
    rw [← h.holds.nodes] at href
    exact Or.inr href
  refine h.returns_forward_iff hnodes (fun heap href => Or.inl (Or.inl href)) ?_ ?_
  · intro hQ heap x hx
    by_cases hlarge : 2 ^ 60 ≤ t.1
    · have hno : malloc heap (t.1 * 8) = false := by
        rcases malloc_cases heap (t.1 * 8) with hno | ⟨-, hlt⟩
        · exact hno
        · omega
      refine Or.inl ⟨?_, Or.inl (hrefused heap hno)⟩
      unfold sortAfterCache Graph.Kahn.begin Graph.allocateZeroed
      rw [hx.numNodes, hno]
      rfl
    · refine (sortAfterCache_returns heap hx hout (hQ.resolve_left hlarge)).imp_left ?_
      exact fun ⟨hno, href⟩ => ⟨hno, href.imp_left (hrefused heap)⟩
  · intro x hx hreturns
    by_contra hQ
    rw [not_or] at hQ
    obtain ⟨hsmall, hfits⟩ := hQ
    obtain ⟨hgranted, hsizes⟩ := growOut_wrapped (by omega) hout hfits
    obtain ⟨-, (href | href) | href⟩ | ⟨y, hrun, order, -, hholds⟩ := hreturns
    · exact h.not_cacheRefused hx.cache href
    · rw [h.holds.nodes, malloc_granted (by omega)] at href
      cases href
    · exact hgranted href
    · unfold sortAfterCache at hrun
      rw [hx.numNodes] at hrun
      obtain ⟨s, -, hrun⟩ := Outcome.bind_eq_done hrun
      obtain ⟨out', hgrow, hrun⟩ := Outcome.bind_eq_done hrun
      obtain ⟨⟨processed, out''⟩, hloop, hrun⟩ := Outcome.bind_eq_done hrun
      cases hrun
      obtain ⟨hsize, hcap⟩ := kahn_loop_sizes hloop
      have hcells := hholds.cells
      exact hsizes out' hgrow (by rw [← hsize, ← hcap]; exact hcells)

end Vani.Analysis
