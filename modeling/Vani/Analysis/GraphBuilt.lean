import Vani.Analysis.GraphCoherent
import Vani.Backend.GraphAlgorithms

/-!
# Graphs that calls have built

The offsets of a cache count edges in `int32_t`, so a build comes to its end for some graphs
only; the ones for which it does are those whose offsets fit. A graph that calls have built has
the edges of its history, narrowed, and its caches, where it has them, are caches of these. What
an algorithm does with its cache decides what the algorithm does, up to this condition.
-/

set_option autoImplicit false

namespace Vani.Analysis

open Vani.Library Vani.Backend

variable {nn : Nat} {f g : Edge → Int32} {es : List Edge} {e : Edge}

/-! ## Builds that come to their end -/

theorem int32_eq_done {x y : Int} (h : Graph.int32 x = .done y) : y = x ∧ x < 2 ^ 31 := by
  unfold Graph.int32 at h
  split at h
  · next hx =>
    cases h
    exact ⟨rfl, hx.2⟩
  · cases h

theorem int32_ne_aborted (x : Int) : Graph.int32 x ≠ .aborted := by
  unfold Graph.int32
  split <;> exact nofun

theorem index_ne_aborted (x : Int) : Graph.index x ≠ .aborted := by
  unfold Graph.index
  split <;> exact nofun

theorem nodesPlusOne_eq_done {n : Nat} (h : Graph.nodesPlusOne nn = .done n) :
    n = nn + 1 ∧ nn + 1 < 2 ^ 63 := by
  unfold Graph.nodesPlusOne at h
  split at h
  · next hn =>
    cases h
    exact ⟨rfl, hn⟩
  · cases h

theorem allocate_eq_done {β : Type} {heap : Nat → Bool} {n width : Nat} {x : β} {a : Array β}
    (h : Graph.allocate heap n width x = .done a) :
    malloc heap (n * width % 2 ^ 64) = true ∧ a.size = n * width % 2 ^ 64 / width := by
  unfold Graph.allocate at h
  split at h
  · next hm =>
    cases h
    exact ⟨hm, Array.size_replicate ..⟩
  · cases h

section

variable {keys others : Array Int32} {weights : Array Int64} {i : Nat} {start start' : Array Int}

/-- An edge that was counted, with a place and a count that fit. -/
theorem Counted.of_done (hkeys : Lists keys f es) (he : es[i]? = some e)
    (h : Counted nn f (es.take i) start) (hrun : Graph.countEdge nn keys i start = .done start') :
    Counted nn f (es.take (i + 1)) start' ∧
      (Graph.IsNode nn (f e) → (f e).toInt + 1 < 2 ^ 31) := by
  have hfits : Graph.IsNode nn (f e) → (f e).toInt.toNat + 1 < 2 ^ 31 ∧
      (bucket (nodeOf nn f) (es.take i) (f e).toInt.toNat).length + 1 < 2 ^ 31 := by
    intro hnode
    have h0 := hnode.1
    have hu := toNat_lt_of_isNode hnode
    unfold Graph.countEdge at hrun
    rw [Outcome.read_of_getElem? (hkeys i e he), Outcome.done_bind, if_pos hnode] at hrun
    obtain ⟨y, hy, hrun⟩ := Outcome.bind_eq_done hrun
    obtain ⟨rfl, hlt⟩ := int32_eq_done hy
    have hnext : (f e).toInt + 1 = (((f e).toInt.toNat + 1 : Nat) : Int) := by omega
    rw [hnext, index_ofNat, Outcome.done_bind, Outcome.read_of_getElem? (h.count _ hu),
      Outcome.done_bind] at hrun
    obtain ⟨z, hz, -⟩ := Outcome.bind_eq_done hrun
    have hlen := (int32_eq_done hz).2
    exact ⟨by omega, by omega⟩
  obtain ⟨start'', hrun', hnext⟩ := h.step hkeys he (fun hnode => (hfits hnode).1)
    fun hnode => (hfits hnode).2
  rw [hrun] at hrun'
  cases hrun'
  refine ⟨hnext, fun hnode => ?_⟩
  have hlt := (hfits hnode).1
  have h0 := hnode.1
  omega

/-- A sum that was taken, and fits. -/
theorem Summed.of_done (hi : i < nn) (h : Summed nn f es i start)
    (hrun : Graph.addPrevious i start = .done start') :
    Summed nn f es (i + 1) start' ∧ offset (nodeOf nn f) es (i + 1) < 2 ^ 31 := by
  have hlt : offset (nodeOf nn f) es (i + 1) < 2 ^ 31 := by
    unfold Graph.addPrevious at hrun
    rw [Outcome.read_of_getElem? (h.count i (Nat.le_refl i) hi), Outcome.done_bind,
      Outcome.read_of_getElem? (h.sum i (Nat.le_refl i)), Outcome.done_bind] at hrun
    obtain ⟨y, hy, -⟩ := Outcome.bind_eq_done hrun
    have hsum := (int32_eq_done hy).2
    rw [offset_succ]
    omega
  obtain ⟨start'', hrun', hnext⟩ := h.step hi hlt
  rw [hrun] at hrun'
  cases hrun'
  exact ⟨hnext, hlt⟩

/-- The first pass of a build fills as many offsets as there are. -/
theorem le_of_zeroed {n : Nat} {a a' : Array Int}
    (hrun : Outcome.forRange (fun i a => Outcome.write a i (0 : Int)) n a = .done a') :
    a'.size = a.size ∧ n ≤ a.size := by
  refine Outcome.forRange_keeps (fun i b => b.size = a.size ∧ i ≤ a.size) ⟨rfl, Nat.zero_le _⟩ ?_
    hrun
  rintro i b b' hi ⟨hsize, -⟩ hwrite
  obtain ⟨hlt, rfl⟩ := Outcome.write_eq_done hwrite
  rw [Array.size_setIfInBounds]
  exact ⟨hsize, by omega⟩

/-- No memory for so many nodes is ever granted, and what is asked for does not wrap to less. -/
def Unallocatable (nn : Nat) : Prop := nn + 1 < 2 ^ 63 ∧ 2 ^ 63 ≤ (nn + 1) * 4 % 2 ^ 64

/-- The passes of a build up to the sums come to their end only for offsets that fit. -/
theorem countable_of_sums {start₀ start₁ start₂ start₃ : Array Int} {heap : Nat → Bool}
    (hkeys : Lists keys f es) (halloc : Graph.allocate heap (nn + 1) 4 0 = .done start₀)
    (hzero : Outcome.forRange (fun i a => Outcome.write a i (0 : Int)) (nn + 1) start₀ =
      .done start₁)
    (hcount : Outcome.forRange (Graph.countEdge nn keys) es.length start₁ = .done start₂)
    (hsum : Outcome.forRange Graph.addPrevious nn start₂ = .done start₃) :
    Countable nn (es.map f) ∧ (nn + 1) * 4 < 2 ^ 63 := by
  obtain ⟨hmalloc, hsize₀⟩ := allocate_eq_done halloc
  obtain ⟨hsize₁, hle⟩ := le_of_zeroed hzero
  have hbytes : (nn + 1) * 4 < 2 ^ 64 := by omega
  have hsmall : (nn + 1) * 4 < 2 ^ 63 := by
    rcases malloc_cases heap ((nn + 1) * 4 % 2 ^ 64) with hno | ⟨-, hlt⟩
    · rw [hmalloc] at hno
      cases hno
    · rwa [Nat.mod_eq_of_lt hbytes] at hlt
  have hexact : start₀.size = nn + 1 := by
    rw [hsize₀, Nat.mod_eq_of_lt hbytes, Nat.mul_div_cancel _ (by decide)]
  obtain ⟨start₁', hrun, hcounted⟩ := zeroed nn f hexact
  rw [hzero] at hrun
  cases hrun
  obtain ⟨hcounted, hplaces⟩ : Counted nn f (es.take es.length) start₂ ∧
      ∀ e ∈ es.take es.length, Graph.IsNode nn (f e) → (f e).toInt + 1 < 2 ^ 31 := by
    refine Outcome.forRange_keeps (fun i a => Counted nn f (es.take i) a ∧
      ∀ e ∈ es.take i, Graph.IsNode nn (f e) → (f e).toInt + 1 < 2 ^ 31)
      ⟨hcounted, by simp⟩ ?_ hcount
    rintro i a a' hi ⟨ha, hbefore⟩ hstep
    have he := List.getElem?_eq_getElem hi
    obtain ⟨ha', hplace⟩ := ha.of_done hkeys he hstep
    refine ⟨ha', fun e hmem => ?_⟩
    rw [take_concat he, List.mem_append, List.mem_singleton] at hmem
    rcases hmem with hmem | rfl
    · exact hbefore e hmem
    · exact hplace
  rw [List.take_length] at hcounted hplaces
  have hsummed₀ : Summed nn f es 0 start₂ := by
    refine ⟨hcounted.size, fun u hu => ?_, fun u _ hu => hcounted.count u hu⟩
    obtain rfl : u = 0 := by omega
    exact hcounted.first
  obtain ⟨-, htotal⟩ : Summed nn f es nn start₃ ∧ offset (nodeOf nn f) es nn < 2 ^ 31 := by
    refine Outcome.forRange_keeps
      (fun i a => Summed nn f es i a ∧ offset (nodeOf nn f) es i < 2 ^ 31)
      ⟨hsummed₀, Nat.two_pow_pos 31⟩ ?_ hsum
    rintro i a a' hi ⟨ha, -⟩ hstep
    exact ha.of_done hi hstep
  rw [offset_nodes] at htotal
  refine ⟨⟨hbytes, ?_, ?_⟩, hsmall⟩
  · rw [List.filter_map, List.length_map]
    exact htotal
  · intro s hs
    obtain ⟨e, he, rfl⟩ := List.mem_map.mp hs
    exact hplaces e he

/-- A build that comes to its end had offsets that fit. -/
theorem countable_of_done {heap : Nat → Bool} {c : Csr} (hkeys : Lists keys f es)
    (hrun : Graph.buildCsr heap nn es.length keys others weights = .done c) :
    Countable nn (es.map f) ∧ (nn + 1) * 4 < 2 ^ 63 := by
  obtain ⟨size, hsize, hrun⟩ := Outcome.bind_eq_done hrun
  obtain ⟨rfl, -⟩ := nodesPlusOne_eq_done hsize
  obtain ⟨start₀, halloc, hrun⟩ := Outcome.bind_eq_done hrun
  obtain ⟨start₁, hzero, hrun⟩ := Outcome.bind_eq_done hrun
  obtain ⟨start₂, hcount, hrun⟩ := Outcome.bind_eq_done hrun
  obtain ⟨start₃, hsum, -⟩ := Outcome.bind_eq_done hrun
  exact countable_of_sums hkeys halloc hzero hcount hsum

theorem countEdge_ne_aborted (i : Nat) (start : Array Int) :
    Graph.countEdge nn keys i start ≠ .aborted := by
  intro hrun
  rcases Outcome.bind_eq_aborted hrun with hrun | ⟨s, -, hrun⟩
  · exact Outcome.read_ne_aborted _ _ hrun
  by_cases hnode : Graph.IsNode nn s
  · rw [if_pos hnode] at hrun
    rcases Outcome.bind_eq_aborted hrun with hrun | ⟨x, -, hrun⟩
    · exact int32_ne_aborted _ hrun
    rcases Outcome.bind_eq_aborted hrun with hrun | ⟨j, -, hrun⟩
    · exact index_ne_aborted _ hrun
    rcases Outcome.bind_eq_aborted hrun with hrun | ⟨y, -, hrun⟩
    · exact Outcome.read_ne_aborted _ _ hrun
    rcases Outcome.bind_eq_aborted hrun with hrun | ⟨z, -, hrun⟩
    · exact int32_ne_aborted _ hrun
    · exact Outcome.write_ne_aborted _ _ _ hrun
  · rw [if_neg hnode] at hrun
    cases hrun

theorem addPrevious_ne_aborted (i : Nat) (start : Array Int) :
    Graph.addPrevious i start ≠ .aborted := by
  intro hrun
  rcases Outcome.bind_eq_aborted hrun with hrun | ⟨x, -, hrun⟩
  · exact Outcome.read_ne_aborted _ _ hrun
  rcases Outcome.bind_eq_aborted hrun with hrun | ⟨y, -, hrun⟩
  · exact Outcome.read_ne_aborted _ _ hrun
  rcases Outcome.bind_eq_aborted hrun with hrun | ⟨z, -, hrun⟩
  · exact int32_ne_aborted _ hrun
  · exact Outcome.write_ne_aborted _ _ _ hrun

/-- A build that aborts though every request is granted that can be. -/
theorem unallocatable_of_aborted (hkeys : Lists keys f es)
    (hrun : Graph.buildCsr (fun _ => true) nn es.length keys others weights = .aborted) :
    Unallocatable nn ∨ Countable nn (es.map f) ∧ (nn + 1) * 4 < 2 ^ 63 := by
  rcases Outcome.bind_eq_aborted hrun with hrun | ⟨size, hsize, hrun⟩
  · unfold Graph.nodesPlusOne at hrun
    split at hrun <;> cases hrun
  obtain ⟨rfl, hnodes⟩ := nodesPlusOne_eq_done hsize
  rcases Outcome.bind_eq_aborted hrun with hrun | ⟨start₀, halloc, hrun⟩
  · refine Or.inl ⟨hnodes, ?_⟩
    unfold Graph.allocate malloc at hrun
    split at hrun
    · cases hrun
    · next hno => simpa using hno
  rcases Outcome.bind_eq_aborted hrun with hrun | ⟨start₁, hzero, hrun⟩
  · exact absurd hrun (Outcome.forRange_ne_aborted fun i a => Outcome.write_ne_aborted a i 0)
  rcases Outcome.bind_eq_aborted hrun with hrun | ⟨start₂, hcount, hrun⟩
  · exact absurd hrun (Outcome.forRange_ne_aborted countEdge_ne_aborted)
  rcases Outcome.bind_eq_aborted hrun with hrun | ⟨start₃, hsum, -⟩
  · exact absurd hrun (Outcome.forRange_ne_aborted addPrevious_ne_aborted)
  exact Or.inr (countable_of_sums hkeys halloc hzero hcount hsum)

end

/-! ## Rows of a cache -/

/-- The edges from a node to a node, in the order in which they were added. -/
def arcs (nn : Nat) (f g : Edge → Int32) (es : List Edge) (u : Nat) : List Edge :=
  es.filter fun e => (f e).toInt = u ∧ Graph.IsNode nn (g e)

theorem mem_arcs {u : Nat} :
    e ∈ arcs nn f g es u ↔ e ∈ es ∧ (f e).toInt = u ∧ Graph.IsNode nn (g e) := by
  unfold arcs
  rw [List.mem_filter, decide_eq_true_iff]

/-- The nodes to which edges lead from a node, once for each edge. -/
def successors (nn : Nat) (es : List Edge) (u : Nat) : List Nat :=
  (arcs nn Edge.src Edge.dst es u).map fun e => e.dst.toInt.toNat

theorem lt_of_mem_successors {u v : Nat} (h : v ∈ successors nn es u) : v < nn := by
  obtain ⟨e, he, rfl⟩ := List.mem_map.mp h
  exact toNat_lt_of_isNode (mem_arcs.mp he).2.2

theorem nodup_length_le {l : List Nat} (hnodup : l.Nodup) (hlt : ∀ x ∈ l, x < nn) :
    l.length ≤ nn := by
  have hsub : l ⊆ List.range nn := fun x hx => List.mem_range.mpr (hlt x hx)
  have hle := (List.subperm_of_subset hnodup hsub).length_le
  rwa [List.length_range] at hle

/-- Without nodes no offset overflows. -/
theorem countable_zero (ends : List Int32) : Countable 0 ends := by
  have hnone : ∀ s : Int32, ¬ Graph.IsNode 0 s := fun s ⟨h0, hlt⟩ => by omega
  refine ⟨by decide, ?_, fun s _ hs => absurd hs (hnone s)⟩
  rw [List.filter_eq_nil_iff.mpr fun s _ => by simpa using hnone s]
  exact Nat.two_pow_pos 31

theorem countable_single {s : Int32} (hbytes : (nn + 1) * 4 < 2 ^ 64)
    (hs : s.toInt + 1 < 2 ^ 31) : Countable nn [s] := by
  refine ⟨hbytes, ?_, fun x hx _ => ?_⟩
  · have hle := List.length_filter_le (fun s => decide (Graph.IsNode nn s)) [s]
    rw [List.length_singleton] at hle
    omega
  · rwa [List.mem_singleton.mp hx]

namespace Adjacency

variable {c : Csr} {u k : Nat}

/-- An offset is at most the number of cells. -/
theorem offset_le (h : Adjacency nn f g es c) (hu : u ≤ nn) (hk : c.start[u]? = some (k : Int)) :
    k ≤ (cells c).length := by
  induction hd : nn - u generalizing u k with
  | zero =>
    obtain rfl : u = nn := by omega
    rw [h.last, Option.some.injEq] at hk
    have hlen := h.length
    omega
  | succ d ih =>
    obtain ⟨k₀, k₁, hk₀, hk₁, hle, -⟩ := h.row u (by omega)
    rw [hk₀, Option.some.injEq] at hk
    have hnext := ih (by omega) hk₁ (by omega)
    omega

/-- A pass over a node's cells takes its edges to nodes one after the other. -/
theorem forNeighbours_ok {σ : Type} (h : Adjacency nn f g es c) (hu : u < nn)
    {body : Nat → Nat → σ → Outcome σ} {s : σ} (P : List Edge → σ → Prop) (hinit : P [] s)
    (hstep : ∀ taken e k s, taken ++ [e] <+: arcs nn f g es u → c.weight[k]? = some e.weight →
      P taken s → ∃ s', body k (g e).toInt.toNat s = .done s' ∧ P (taken ++ [e]) s') :
    ∃ s', Graph.forNeighbours nn c u body s = .done s' ∧ P (arcs nn f g es u) s' := by
  obtain ⟨k₀, k₁, hk₀, hk₁, hle, hrow⟩ := h.row u hu
  have hend := h.offset_le hu hk₁
  have hlen := congrArg List.length hrow
  rw [List.length_take, List.length_drop, List.length_map, Nat.min_eq_left (by omega)] at hlen
  have harcs : arcs nn f g es u =
      (es.filter fun e => (f e).toInt = u).filter fun e => Graph.IsNode nn (g e) := by
    unfold arcs
    rw [List.filter_filter]
    congr 1
    funext e
    rw [Bool.and_comm, Bool.decide_and]
  generalize es.filter (fun e => (f e).toInt = u) = row at hrow hlen harcs
  have hcell : ∀ i e, row[i]? = some e →
      c.other[k₀ + i]? = some (g e) ∧ c.weight[k₀ + i]? = some e.weight := by
    intro i e he
    have hi := (List.getElem?_eq_some_iff.mp he).1
    have hget := congrArg (fun l => l[i]?) hrow
    simp only [List.getElem?_take, List.getElem?_drop, List.getElem?_map, he,
      if_pos (show i < k₁ - k₀ by omega), Option.map_some] at hget
    unfold cells at hget
    rw [List.getElem?_zip_eq_some, Array.getElem?_toList, Array.getElem?_toList] at hget
    exact hget
  have hloop := Outcome.forRange_of_step (n := k₁ - k₀) (s := s)
    (f := fun (i : Nat) s => do
      let k ← Graph.index (k₀ + i)
      let v ← Outcome.read c.other k
      if Graph.IsNode nn v then body k v.toInt.toNat s else pure s)
    (fun i s => P ((row.take i).filter fun e => Graph.IsNode nn (g e)) s) hinit (by
      intro i s hi hP
      have he := List.getElem?_eq_getElem (l := row) (i := i) (by omega)
      obtain ⟨hother, hweight⟩ := hcell i _ he
      have hindex : Graph.index ((k₀ : Int) + (i : Int)) = .done (k₀ + i) := index_ofNat (k₀ + i)
      rw [hindex, Outcome.done_bind, Outcome.read_of_getElem? hother, Outcome.done_bind,
        take_concat he, List.filter_append]
      by_cases hnode : Graph.IsNode nn (g row[i])
      · have hone : [row[i]].filter (fun e => Graph.IsNode nn (g e)) = [row[i]] := by
          simp [hnode]
        rw [if_pos hnode, hone]
        refine hstep _ _ _ _ ?_ hweight hP
        rw [harcs, ← hone, ← List.filter_append]
        exact (isPrefix_take_concat he).filter _
      · have hnone : [row[i]].filter (fun e => Graph.IsNode nn (g e)) = [] := by
          simp [hnode]
        rw [if_neg hnode, hnone, List.append_nil]
        exact ⟨s, rfl, hP⟩)
  obtain ⟨s', hrun, hP⟩ := hloop
  rw [hlen, List.take_length] at hP
  refine ⟨s', ?_, harcs ▸ hP⟩
  unfold Graph.forNeighbours
  rw [Outcome.read_of_getElem? hk₀, Outcome.done_bind, Outcome.read_of_getElem? hk₁,
    Outcome.done_bind]
  have hcount : ((k₁ : Int) - (k₀ : Int)).toNat = k₁ - k₀ := by omega
  rw [hcount]
  exact hrun

end Adjacency

/-! ## Histories -/

/-- The number of nodes asked for, after a call. -/
def nodesAfter (n : Int64) : GraphOp → Int64
  | .new m => m
  | _ => n

/-- The edges added since the graph was made or cleared, after a call. -/
def edgesAfter (added : List (Int64 × Int64 × Int64)) :
    GraphOp → List (Int64 × Int64 × Int64)
  | .new _ | .clear => []
  | .addEdge src dst w => added ++ [(src, dst, w)]
  | _ => added

/-- The graph of a sequence of calls that have returned, with its number of nodes and its edges
as they were given. -/
inductive Built : Int64 → List (Int64 × Int64 × Int64) → Graph → Prop
  | new (n : Int64) : Built n [] (Graph.new n)
  | call {n : Int64} {added : List (Int64 × Int64 × Int64)} {g g' : Graph} {op : GraphOp}
      {heap : Nat → Bool} {r : GraphAnswer} : Built n added g →
      g.step (op, heap) = .done (r, g') → Built (nodesAfter n op) (edgesAfter added op) g'

/-- An edge as it is kept. -/
def narrow (e : Int64 × Int64 × Int64) : Edge := ⟨e.1.toInt32, e.2.1.toInt32, e.2.2⟩

/-- A call that only reads the edges returns at once, or builds the caches it reads. -/
theorem query_cases {g g' : Graph} {heap : Nat → Bool} {q : Graph.Query} {r : Graph.Reads}
    (hrun : g.query heap q = .done (r, g')) :
    g' = g ∨ g.onForward heap = .done (r, g') ∨ g.onBoth heap = .done (r, g') := by
  have hsame : ∀ {r'}, (pure (r', g) : Outcome _) = .done (r, g') → g' = g := by
    intro r' heq
    cases heq
    rfl
  cases q with
  | bfsReach _ | dfsReach _ =>
    simp only [Graph.query] at hrun
    split at hrun
    · exact Or.inl (hsame hrun)
    · exact Or.inr (Or.inl hrun)
  | hasCycle | topoSort =>
    simp only [Graph.query] at hrun
    split at hrun
    · exact Or.inl (hsame hrun)
    · exact Or.inr (Or.inl hrun)
  | dijkstra src dst =>
    simp only [Graph.query] at hrun
    split at hrun
    · exact Or.inl (hsame hrun)
    · split at hrun
      · exact Or.inl (hsame hrun)
      · exact Or.inr (Or.inl hrun)
  | mstKruskal => exact Or.inl (hsame hrun)
  | mstPrim =>
    simp only [Graph.query] at hrun
    split at hrun
    · exact Or.inl (hsame hrun)
    · exact Or.inr (Or.inr hrun)
  | astar src dst len =>
    simp only [Graph.query] at hrun
    split at hrun
    · exact Or.inl (hsame hrun)
    · split at hrun
      · exact Or.inl (hsame hrun)
      · split at hrun
        · exact Or.inl (hsame hrun)
        · exact Or.inr (Or.inl hrun)

/-- A build of a cache leaves the room for edges as it is. -/
theorem query_capacity {g g' : Graph} {heap : Nat → Bool} {q : Graph.Query} {r : Graph.Reads}
    (hrun : g.query heap q = .done (r, g')) : g'.edgeCapacity = g.edgeCapacity := by
  have hforward : ∀ {g₁ : Graph}, g.buildCsrIfNeeded heap = .done g₁ →
      g₁.edgeCapacity = g.edgeCapacity := by
    intro g₁ hbuild
    unfold Graph.buildCsrIfNeeded at hbuild
    split at hbuild
    · cases hbuild
      rfl
    · obtain ⟨c, -, hbuild⟩ := Outcome.bind_eq_done hbuild
      cases hbuild
      rfl
  have hbackward : ∀ {g₁ g₂ : Graph}, g₁.buildRevCsrIfNeeded heap = .done g₂ →
      g₂.edgeCapacity = g₁.edgeCapacity := by
    intro g₁ g₂ hbuild
    unfold Graph.buildRevCsrIfNeeded at hbuild
    split at hbuild
    · cases hbuild
      rfl
    · obtain ⟨c, -, hbuild⟩ := Outcome.bind_eq_done hbuild
      cases hbuild
      rfl
  rcases query_cases hrun with rfl | hrun | hrun
  · rfl
  · obtain ⟨g₁, hbuild, hrun⟩ := Outcome.bind_eq_done hrun
    have hsame := hforward hbuild
    split at hrun
    · cases hrun
      exact hsame
    · cases hrun
  · obtain ⟨g₁, hbuild, hrun⟩ := Outcome.bind_eq_done hrun
    obtain ⟨g₂, hbuild', hrun⟩ := Outcome.bind_eq_done hrun
    have hsame := (hbackward hbuild').trans (hforward hbuild)
    split at hrun
    · cases hrun
      exact hsame
    · cases hrun

/-- The offsets of a cache of the edges fit, and so does the memory for them. -/
def CacheFits (t : Nat × List Edge) (f : Edge → Int32) : Prop :=
  Countable t.1 (t.2.map f) ∧ (t.1 + 1) * 4 < 2 ^ 63

/-- The graph has these nodes and edges; where it has a cache, the offsets fit. -/
structure GraphFits (g : Graph) (t : Nat × List Edge) : Prop where
  holds : GraphHolds g t
  adj : g.adj.isSome → CacheFits t Edge.src
  rev : g.revAdj.isSome → CacheFits t Edge.dst

namespace GraphFits

variable {g g' : Graph} {t : Nat × List Edge} {heap : Nat → Bool}

/-- The forward cache was there, or its build has come to its end. -/
theorem buildCsrIfNeeded (h : GraphFits g t) (hrun : g.buildCsrIfNeeded heap = .done g') :
    GraphFits g' t ∧ (g.numNodes ≠ 0 → ∃ c, g'.adj = some c) ∧ g'.revAdj = g.revAdj := by
  unfold Graph.buildCsrIfNeeded at hrun
  cases hadj : g.adj with
  | some c =>
    rw [hadj] at hrun
    cases hrun
    exact ⟨h, fun _ => ⟨c, hadj⟩, rfl⟩
  | none =>
    by_cases hzero : g.numNodes = 0
    · simp only [hadj, Option.isSome_none, hzero, beq_self_eq_true, Bool.or_true, if_true] at hrun
      cases hrun
      exact ⟨h, fun hne => absurd hzero hne, rfl⟩
    · have hfalse : (g.adj.isSome || g.numNodes == 0) = false := by simp [hadj, hzero]
      rw [hfalse, if_neg Bool.false_ne_true, h.holds.edges] at hrun
      obtain ⟨c, hbuild, hrun⟩ := Outcome.bind_eq_done hrun
      cases hrun
      have hc := countable_of_done h.holds.src hbuild
      have hok := buildCsr_ok heap hc.1 h.holds.src h.holds.dst h.holds.weight
      rw [hbuild] at hok
      obtain ⟨hno, -⟩ | ⟨c', hc', hadj'⟩ := hok
      · cases hno
      · cases hc'
        rw [h.holds.nodes] at hc hadj'
        refine ⟨⟨?_, fun _ => hc, h.rev⟩, fun _ => ⟨c, rfl⟩, rfl⟩
        refine ⟨h.holds.nodes, rfl, h.holds.edges ▸ h.holds.fits, h.holds.sizes, h.holds.src,
          h.holds.dst, h.holds.weight, ?_, h.holds.rev⟩
        intro x hx
        obtain rfl := Option.some.inj hx
        exact hadj'

/-- The reverse cache was there, or its build has come to its end. -/
theorem buildRevCsrIfNeeded (h : GraphFits g t) (hrun : g.buildRevCsrIfNeeded heap = .done g') :
    GraphFits g' t ∧ (g.numNodes ≠ 0 → ∃ c, g'.revAdj = some c) ∧ g'.adj = g.adj := by
  unfold Graph.buildRevCsrIfNeeded at hrun
  cases hadj : g.revAdj with
  | some c =>
    rw [hadj] at hrun
    cases hrun
    exact ⟨h, fun _ => ⟨c, hadj⟩, rfl⟩
  | none =>
    by_cases hzero : g.numNodes = 0
    · simp only [hadj, Option.isSome_none, hzero, beq_self_eq_true, Bool.or_true, if_true] at hrun
      cases hrun
      exact ⟨h, fun hne => absurd hzero hne, rfl⟩
    · have hfalse : (g.revAdj.isSome || g.numNodes == 0) = false := by simp [hadj, hzero]
      rw [hfalse, if_neg Bool.false_ne_true, h.holds.edges] at hrun
      obtain ⟨c, hbuild, hrun⟩ := Outcome.bind_eq_done hrun
      cases hrun
      have hc := countable_of_done h.holds.dst hbuild
      have hok := buildCsr_ok heap hc.1 h.holds.dst h.holds.src h.holds.weight
      rw [hbuild] at hok
      obtain ⟨hno, -⟩ | ⟨c', hc', hadj'⟩ := hok
      · cases hno
      · cases hc'
        rw [h.holds.nodes] at hc hadj'
        refine ⟨⟨?_, h.adj, fun _ => hc⟩, fun _ => ⟨c, rfl⟩, rfl⟩
        refine ⟨h.holds.nodes, rfl, h.holds.edges ▸ h.holds.fits, h.holds.sizes, h.holds.src,
          h.holds.dst, h.holds.weight, h.holds.adj, ?_⟩
        intro x hx
        obtain rfl := Option.some.inj hx
        exact hadj'

theorem onForward (h : GraphFits g t) {r : Graph.Reads} (hrun : g.onForward heap = .done (r, g')) :
    GraphFits g' t := by
  obtain ⟨g₁, hbuild, hrun⟩ := Outcome.bind_eq_done hrun
  have hfits := (h.buildCsrIfNeeded hbuild).1
  split at hrun
  · cases hrun
    exact hfits
  · cases hrun

theorem onBoth (h : GraphFits g t) {r : Graph.Reads} (hrun : g.onBoth heap = .done (r, g')) :
    GraphFits g' t := by
  obtain ⟨g₁, hbuild, hrun⟩ := Outcome.bind_eq_done hrun
  obtain ⟨g₂, hbuild', hrun⟩ := Outcome.bind_eq_done hrun
  have hfits := ((h.buildCsrIfNeeded hbuild).1.buildRevCsrIfNeeded hbuild').1
  split at hrun
  · cases hrun
    exact hfits
  · cases hrun

/-- A call that only reads the edges leaves them. -/
theorem query (h : GraphFits g t) {q : Graph.Query} {r : Graph.Reads}
    (hrun : g.query heap q = .done (r, g')) : GraphFits g' t := by
  rcases query_cases hrun with rfl | hrun | hrun
  · exact h
  · exact h.onForward hrun
  · exact h.onBoth hrun

/-- What a call leaves. -/
theorem step {n : Int64} {added : List (Int64 × Int64 × Int64)} {op : GraphOp}
    {r : GraphAnswer} (h : GraphFits g (n.toInt.toNat, added.map narrow))
    (hrun : g.step (op, heap) = .done (r, g')) :
    GraphFits g' ((nodesAfter n op).toInt.toNat, (edgesAfter added op).map narrow) := by
  cases op with
  | new m =>
    cases hrun
    exact ⟨GraphHolds.new m, fun h => absurd h Bool.false_ne_true,
      fun h => absurd h Bool.false_ne_true⟩
  | addEdge src dst w =>
    obtain ⟨hno, -⟩ | ⟨g₁, hadd, hholds⟩ := h.holds.addEdge heap src dst w
    · simp only [Graph.step, hno, Outcome.aborted_bind] at hrun
      cases hrun
    · simp only [Graph.step, hadd, Outcome.done_bind, Outcome.pure_eq] at hrun
      cases hrun
      obtain ⟨hadj, hrev⟩ := GraphHolds.addEdge_caches hadd
      refine ⟨?_, ?_, ?_⟩
      · rw [edgesAfter, List.map_append]
        exact hholds
      · rw [hadj]
        exact fun h => absurd h Bool.false_ne_true
      · rw [hrev]
        exact fun h => absurd h Bool.false_ne_true
  | clear =>
    cases hrun
    exact ⟨h.holds.clear, fun h => absurd h Bool.false_ne_true,
      fun h => absurd h Bool.false_ne_true⟩
  | numNodes | numEdges =>
    cases hrun
    exact h
  | query q =>
    obtain ⟨⟨r', g₁⟩, hquery, hrun⟩ := Outcome.bind_eq_done hrun
    cases hrun
    exact h.query hquery

end GraphFits

/-! ## Algorithms on the forward cache -/

/-- What an algorithm gets from the forward cache. -/
structure Cached (t : Nat × List Edge) (x : Csr × Graph) : Prop where
  adjacency : Adjacency t.1 Edge.src Edge.dst t.2 x.1
  fits : GraphFits x.2 t
  cache : CacheFits t Edge.src

theorem Cached.numNodes {t : Nat × List Edge} {x : Csr × Graph} (h : Cached t x) :
    x.2.numNodes = t.1 := h.fits.holds.nodes

namespace GraphFits

variable {g : Graph} {t : Nat × List Edge} {heap : Nat → Bool} {x : Csr × Graph}

theorem forward_done (h : GraphFits g t) (hnodes : t.1 ≠ 0)
    (hrun : g.forward heap = .done x) : Cached t x := by
  obtain ⟨g₁, hbuild, hrun⟩ := Outcome.bind_eq_done hrun
  obtain ⟨hfits, hsome, -⟩ := h.buildCsrIfNeeded hbuild
  obtain ⟨c, hc⟩ := hsome (by rw [h.holds.nodes]; exact hnodes)
  simp only [hc] at hrun
  cases hrun
  exact ⟨hfits.holds.adj c hc, hfits, hfits.adj (by rw [hc]; rfl)⟩

/-- The forward cache, for offsets that fit. -/
theorem forward_returns (h : GraphFits g t) (heap : Nat → Bool) (hnodes : t.1 ≠ 0)
    (hc : Countable t.1 (t.2.map Edge.src)) :
    (g.forward heap).Returns (Graph.cacheRefused heap g.numNodes g.numEdges g.edgeSrc)
      (Cached t) := by
  have hok : Countable g.numNodes (g.edgeSrc.toList.take g.numEdges) := by
    rw [h.holds.nodes, h.holds.edges, take_keys h.holds.src]
    exact hc
  obtain ⟨hrun, href⟩ | ⟨g', c, hrun, -, hadj, -⟩ :=
    h.holds.buildCsrIfNeeded heap (by rw [h.holds.nodes]; exact hnodes) hok
  · refine Or.inl ⟨?_, href⟩
    unfold Graph.forward
    rw [hrun, Outcome.aborted_bind]
  · have hforward : g.forward heap = .done (c, g') := by
      unfold Graph.forward
      rw [hrun, Outcome.done_bind]
      simp only [hadj, Outcome.pure_eq]
    exact Or.inr ⟨_, hforward, h.forward_done hnodes hforward⟩

/-- Without memory for so many nodes the algorithm ends here. -/
theorem forward_aborts (h : GraphFits g t) (heap : Nat → Bool) (hnodes : t.1 ≠ 0)
    (hno : Unallocatable t.1) :
    g.forward heap = .aborted ∧
      Graph.cacheRefused heap g.numNodes g.numEdges g.edgeSrc := by
  obtain ⟨hlt, hbytes⟩ := hno
  have hnone : g.adj = none := by
    cases hadj : g.adj with
    | none => rfl
    | some c =>
      have hsmall := (h.adj (by rw [hadj]; rfl)).2
      omega
  have hmalloc : malloc heap ((t.1 + 1) * 4 % 2 ^ 64) = false := by
    rcases malloc_cases heap ((t.1 + 1) * 4 % 2 ^ 64) with hno | ⟨-, hlt⟩
    · exact hno
    · omega
  have hmalloc' : malloc heap ((t.1 + 1) * 4) = false := by
    rcases malloc_cases heap ((t.1 + 1) * 4) with hno | ⟨-, hlt⟩
    · exact hno
    · omega
  have hguard : (g.adj.isSome || g.numNodes == 0) = false := by
    simp [hnone, h.holds.nodes, hnodes]
  refine ⟨?_, Or.inl (by rw [h.holds.nodes]; exact hmalloc')⟩
  unfold Graph.forward Graph.buildCsrIfNeeded Graph.buildCsr
  rw [hguard, if_neg Bool.false_ne_true, h.holds.nodes]
  unfold Graph.nodesPlusOne
  rw [if_pos hlt, Outcome.pure_eq, Outcome.done_bind]
  unfold Graph.allocate
  rw [hmalloc]
  rfl

/-- Where the offsets and their memory fit, the build asks for nothing that must be refused. -/
theorem not_cacheRefused (h : GraphFits g t) (hc : CacheFits t Edge.src) :
    ¬ Graph.cacheRefused (fun _ => true) g.numNodes g.numEdges g.edgeSrc := by
  intro href
  have htotal := hc.1.edges
  have hbytes := hc.2
  unfold Graph.cacheRefused at href
  rw [h.holds.edges, take_keys h.holds.src, h.holds.nodes] at href
  dsimp only at href
  rw [malloc_granted hbytes, malloc_granted (by omega), malloc_granted (by omega),
    malloc_granted (by omega)] at href
  simp at href

/-- An abort here though every request is granted that can be. -/
theorem unallocatable_of_forward (h : GraphFits g t) (hnodes : t.1 ≠ 0)
    (hrun : g.forward (fun _ => true) = .aborted) : Unallocatable t.1 := by
  have hsmall : CacheFits t Edge.src → False := by
    intro hc
    obtain ⟨-, href⟩ | ⟨x, hrun', -⟩ := h.forward_returns (fun _ => true) hnodes hc.1
    · exact h.not_cacheRefused hc href
    · rw [hrun] at hrun'
      cases hrun'
  rcases Outcome.bind_eq_aborted hrun with hrun | ⟨g₁, hbuild, hrun⟩
  · unfold Graph.buildCsrIfNeeded at hrun
    split at hrun
    · cases hrun
    · rcases Outcome.bind_eq_aborted hrun with hrun | ⟨c, -, hrun⟩
      · rw [h.holds.edges] at hrun
        rcases unallocatable_of_aborted h.holds.src hrun with hno | hc
        · rwa [h.holds.nodes] at hno
        · rw [h.holds.nodes] at hc
          exact (hsmall hc).elim
      · cases hrun
  · split at hrun <;> cases hrun

/-- An overflow of the offsets. -/
theorem forward_stuck (h : GraphFits g t) (hnodes : t.1 ≠ 0) (hno : ¬ Unallocatable t.1)
    (hc : ¬ Countable t.1 (t.2.map Edge.src)) : g.forward (fun _ => true) = .stuck := by
  cases hrun : g.forward fun _ => true with
  | done x => exact absurd (h.forward_done hnodes hrun).cache.1 hc
  | aborted => exact absurd (h.unallocatable_of_forward hnodes hrun) hno
  | stuck => rfl

/-- What an algorithm does in all is what it does with its cache, where the build comes to its
end. -/
theorem returns_forward_iff {β : Type} (h : GraphFits g t) (hnodes : t.1 ≠ 0)
    {rest : (Nat → Bool) → Csr × Graph → Outcome β} {reason : (Nat → Bool) → Prop}
    {R : β → Prop} {Q : Prop}
    (hreason : ∀ heap, Graph.cacheRefused heap g.numNodes g.numEdges g.edgeSrc → reason heap)
    (hrest : Q → ∀ heap x, Cached t x → (rest heap x).Returns (reason heap) R)
    (hback : ∀ x, Cached t x →
      (rest (fun _ => true) x).Returns (reason fun _ => true) R → Q) :
    (∀ heap, (g.forward heap >>= rest heap).Returns (reason heap) R) ↔
      Unallocatable t.1 ∨ Countable t.1 (t.2.map Edge.src) ∧ Q := by
  constructor
  · intro hall
    have hgrant := hall fun _ => true
    cases hrun : g.forward fun _ => true with
    | done x =>
      rw [hrun, Outcome.done_bind] at hgrant
      have hx := h.forward_done hnodes hrun
      exact Or.inr ⟨hx.cache.1, hback x hx hgrant⟩
    | aborted => exact Or.inl (h.unallocatable_of_forward hnodes hrun)
    | stuck =>
      rw [hrun] at hgrant
      obtain ⟨hno, -⟩ | ⟨x, hno, -⟩ := hgrant <;> cases hno
  · rintro (hno | ⟨hc, hQ⟩) heap
    · obtain ⟨hrun, href⟩ := h.forward_aborts heap hnodes hno
      exact Or.inl ⟨by rw [hrun, Outcome.aborted_bind], hreason heap href⟩
    · obtain ⟨hrun, href⟩ | ⟨x, hrun, hx⟩ := h.forward_returns heap hnodes hc
      · exact Or.inl ⟨by rw [hrun, Outcome.aborted_bind], hreason heap href⟩
      · rw [hrun, Outcome.done_bind]
        exact hrest hQ heap x hx

end GraphFits

/-- What is known of the graph of a history. -/
theorem Built.fits {n : Int64} {added : List (Int64 × Int64 × Int64)} {g : Graph}
    (h : Built n added g) : GraphFits g (n.toInt.toNat, added.map narrow) := by
  induction h with
  | new n => exact ⟨GraphHolds.new n, nofun, nofun⟩
  | call _ hrun ih => exact ih.step hrun

/-- The memory for the edges was granted. -/
theorem Built.capacity_lt {n : Int64} {added : List (Int64 × Int64 × Int64)} {g : Graph}
    (h : Built n added g) : g.edgeCapacity * 8 < 2 ^ 63 := by
  induction h with
  | new n => exact show 0 * 8 < 2 ^ 63 by decide
  | @call _ _ g g' op heap r _ hrun ih =>
    cases op with
    | new m =>
      cases hrun
      exact show 0 * 8 < 2 ^ 63 by decide
    | addEdge src dst w =>
      obtain ⟨⟨m, g₁⟩, hadd, hrun⟩ := Outcome.bind_eq_done hrun
      cases hrun
      obtain ⟨g₂, hreserve, hadd⟩ := Outcome.bind_eq_done hadd
      obtain ⟨a, -, hadd⟩ := Outcome.bind_eq_done hadd
      obtain ⟨b, -, hadd⟩ := Outcome.bind_eq_done hadd
      obtain ⟨c, -, hadd⟩ := Outcome.bind_eq_done hadd
      cases hadd
      unfold Graph.reserve at hreserve
      split at hreserve
      · dsimp only at hreserve
        split at hreserve
        · next hmalloc =>
          cases hreserve
          rw [Bool.and_eq_true] at hmalloc
          rcases malloc_cases heap (Graph.grownCapacity g.edgeCapacity * 8) with hno | ⟨-, hlt⟩
          · rw [show malloc heap (Graph.grownCapacity g.edgeCapacity * 8) = true from
              hmalloc.2] at hno
            cases hno
          · exact hlt
        · cases hreserve
      · cases hreserve
        exact ih
    | clear =>
      cases hrun
      exact show 0 * 8 < 2 ^ 63 by decide
    | numNodes | numEdges =>
      cases hrun
      exact ih
    | query q =>
      obtain ⟨⟨r', g₁⟩, hquery, hrun⟩ := Outcome.bind_eq_done hrun
      cases hrun
      rw [query_capacity hquery]
      exact ih

/-- So few edges can have been added. -/
theorem Built.edges_lt {n : Int64} {added : List (Int64 × Int64 × Int64)} {g : Graph}
    (h : Built n added g) : (added.map narrow).length * 8 < 2 ^ 63 := by
  have hroom := h.capacity_lt
  have hfits := h.fits.holds.fits
  rw [h.fits.holds.edges] at hfits
  dsimp only at hfits
  omega

end Vani.Analysis
