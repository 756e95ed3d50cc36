import Vani.Backend.Graph
import Vani.Library.CountingSort

/-!
# The caches of a graph are its edges

A cache is built by a counting sort: the edges of a node stand together, in the order in which
they were added, from the node's offset on. Edges whose end is not a node are left out. Every
call that changes the edges drops the caches, so a call that reads one reads the edges of now.
-/

set_option autoImplicit false

namespace Vani.Analysis

open Vani.Library Vani.Backend

/-- An edge, as the arrays keep it. -/
structure Edge where
  src : Int32
  dst : Int32
  weight : Int64

/-- The node at one end of an edge, if it is one. -/
def nodeOf (nn : Nat) (f : Edge → Int32) (e : Edge) : Option Nat :=
  if Graph.IsNode nn (f e) then some (f e).toInt.toNat else none

/-- The array has a field of the edges. -/
def Lists {β : Type} (a : Array β) (f : Edge → β) (es : List Edge) : Prop :=
  ∀ (i : Nat) e, es[i]? = some e → a[i]? = some (f e)

variable {nn : Nat} {f g : Edge → Int32} {es : List Edge} {e : Edge} {u : Nat}

theorem nodeOf_eq_some (h : Graph.IsNode nn (f e)) : nodeOf nn f e = some (f e).toInt.toNat :=
  if_pos h

theorem nodeOf_ne_some (h : ¬ Graph.IsNode nn (f e)) : nodeOf nn f e ≠ some u := by
  unfold nodeOf
  rw [if_neg h]
  exact nofun

theorem toNat_lt_of_isNode {s : Int32} (h : Graph.IsNode nn s) : s.toInt.toNat < nn := by
  obtain ⟨h0, hlt⟩ := h
  omega

/-- For edges with these ends no offset overflows, and neither does the number of bytes for
the offsets. -/
structure Countable (nn : Nat) (ends : List Int32) : Prop where
  bytes : (nn + 1) * 4 < 2 ^ 64
  edges : (ends.filter fun s => Graph.IsNode nn s).length < 2 ^ 31
  nodes : ∀ s ∈ ends, Graph.IsNode nn s → s.toInt + 1 < 2 ^ 31

theorem int32_of_lt {n : Nat} (h : n < 2 ^ 31) : Graph.int32 (n : Int) = .done (n : Int) :=
  if_pos ⟨by omega, by omega⟩

theorem index_ofNat (n : Nat) : Graph.index (n : Int) = .done n := by
  unfold Graph.index
  rw [if_pos (Int.natCast_nonneg n), Int.toNat_natCast]
  rfl

theorem allocate_cases {β : Type} (heap : Nat → Bool) {n width : Nat} (x : β) (hw : 0 < width)
    (hn : n * width < 2 ^ 64) :
    Graph.allocate heap n width x = .aborted ∧ malloc heap (n * width) = false ∨
      Graph.allocate heap n width x = .done (Array.replicate n x) := by
  unfold Graph.allocate
  rw [Nat.mod_eq_of_lt hn, Nat.mul_div_cancel _ hw]
  cases hmalloc : malloc heap (n * width) with
  | false => exact Or.inl ⟨rfl, rfl⟩
  | true => exact Or.inr rfl

theorem any_nodeOf : (nodeOf nn f e).any (· < nn) = decide (Graph.IsNode nn (f e)) := by
  by_cases hnode : Graph.IsNode nn (f e)
  · rw [nodeOf_eq_some hnode, decide_eq_true hnode]
    exact decide_eq_true (toNat_lt_of_isNode hnode)
  · unfold nodeOf
    rw [if_neg hnode, decide_eq_false hnode]
    rfl

theorem offset_nodes : offset (nodeOf nn f) es nn =
    (es.filter fun e => Graph.IsNode nn (f e)).length := by
  rw [offset_eq_length]
  simp only [any_nodeOf]

/-- The arrays for the edges of a cache, if there are any. -/
theorem rows_allocated {β : Type} (heap : Nat → Bool) (width : Nat) (x : β) {n : Nat}
    (hw : 0 < width) (hn : n * width < 2 ^ 64) :
    Graph.allocateRows heap n width x = .aborted ∧ 0 < n ∧ malloc heap (n * width) = false ∨
      ∃ a, Graph.allocateRows heap n width x = .done a ∧ a.size = n := by
  unfold Graph.allocateRows
  rw [Int.toNat_natCast]
  by_cases hpos : (0 : Int) < n
  · rw [if_pos hpos]
    obtain ⟨hrun, href⟩ | hrun := allocate_cases heap x hw hn
    · exact Or.inl ⟨hrun, by omega, href⟩
    · exact Or.inr ⟨_, hrun, Array.size_replicate ..⟩
  · rw [if_neg hpos]
    exact Or.inr ⟨#[], rfl, by simp; omega⟩

/-! ## The passes of a build -/

theorem take_concat {i : Nat} (h : es[i]? = some e) : es.take (i + 1) = es.take i ++ [e] := by
  rw [List.take_add_one, h]
  rfl

theorem isPrefix_take_concat {i : Nat} (h : es[i]? = some e) : es.take i ++ [e] <+: es :=
  take_concat h ▸ List.take_prefix (i + 1) es

namespace Countable

theorem total_lt (hc : Countable nn (es.map f)) : offset (nodeOf nn f) es nn < 2 ^ 31 := by
  have hlt := hc.edges
  rw [List.filter_map, List.length_map] at hlt
  rw [offset_nodes]
  exact hlt

/-- The size of a bucket fits the offsets. -/
theorem bucket_lt (hc : Countable nn (es.map f)) (hu : u < nn) :
    (bucket (nodeOf nn f) es u).length < 2 ^ 31 := by
  have hle : offset (nodeOf nn f) es (u + 1) ≤ offset (nodeOf nn f) es nn := offset_mono hu
  have hlt := hc.total_lt
  rw [offset_succ] at hle
  omega

theorem offset_lt (hc : Countable nn (es.map f)) (hu : u ≤ nn) :
    offset (nodeOf nn f) es u < 2 ^ 31 :=
  Nat.lt_of_le_of_lt (offset_mono hu) hc.total_lt

/-- The place of an edge's count fits. -/
theorem place_lt {i : Nat} (hc : Countable nn (es.map f)) (he : es[i]? = some e)
    (hnode : Graph.IsNode nn (f e)) : (f e).toInt.toNat + 1 < 2 ^ 31 := by
  have hlt := hc.nodes _ (List.mem_map_of_mem (List.mem_of_getElem? he)) hnode
  have h0 := hnode.1
  omega

/-- The count after an edge fits. -/
theorem count_lt {i : Nat} (hc : Countable nn (es.map f)) (he : es[i]? = some e)
    (hnode : Graph.IsNode nn (f e)) :
    (bucket (nodeOf nn f) (es.take i) (f e).toInt.toNat).length + 1 < 2 ^ 31 := by
  have hle := (isPrefix_bucket (nodeOf nn f) (isPrefix_take_concat he)
    (f e).toInt.toNat).length_le
  have hlt := hc.bucket_lt (toNat_lt_of_isNode hnode)
  rw [bucket_concat, if_pos (nodeOf_eq_some hnode), List.length_append,
    List.length_singleton] at hle
  omega

end Countable

/-- The counts of the edges so far. -/
structure Counted (nn : Nat) (f : Edge → Int32) (taken : List Edge) (start : Array Int) :
    Prop where
  size : start.size = nn + 1
  first : start[0]? = some 0
  count : ∀ u, u < nn → start[u + 1]? = some ((bucket (nodeOf nn f) taken u).length : Int)

/-- The sums of the counts up to a node, and the counts after it. -/
structure Summed (nn : Nat) (f : Edge → Int32) (es : List Edge) (i : Nat) (start : Array Int) :
    Prop where
  size : start.size = nn + 1
  sum : ∀ u, u ≤ i → start[u]? = some (offset (nodeOf nn f) es u : Int)
  count : ∀ u, i ≤ u → u < nn →
    start[u + 1]? = some ((bucket (nodeOf nn f) es u).length : Int)

/-- The edges so far are in the cache. -/
structure Filled (nn : Nat) (f g : Edge → Int32) (es taken : List Edge)
    (x : Array Int × Array Int32 × Array Int64) : Prop where
  sizes : x.1.size = nn ∧ x.2.1.size = offset (nodeOf nn f) es nn ∧
    x.2.2.size = offset (nodeOf nn f) es nn
  placed : ∃ cur : Nat → Nat, (∀ u, u < nn → x.1[u]? = some (cur u : Int)) ∧
    Scattered (nodeOf nn f) es taken nn cur fun p e =>
      x.2.1[p]? = some (g e) ∧ x.2.2[p]? = some e.weight

section

variable {keys others : Array Int32} {weights : Array Int64} {i : Nat} {start : Array Int}

theorem Counted.step (hkeys : Lists keys f es) (he : es[i]? = some e)
    (hbound : Graph.IsNode nn (f e) → (f e).toInt.toNat + 1 < 2 ^ 31)
    (hlen : Graph.IsNode nn (f e) →
      (bucket (nodeOf nn f) (es.take i) (f e).toInt.toNat).length + 1 < 2 ^ 31)
    (h : Counted nn f (es.take i) start) :
    ∃ start', Graph.countEdge nn keys i start = .done start' ∧
      Counted nn f (es.take (i + 1)) start' := by
  unfold Graph.countEdge
  rw [Outcome.read_of_getElem? (hkeys i e he), Outcome.done_bind, take_concat he]
  by_cases hnode : Graph.IsNode nn (f e)
  · rw [if_pos hnode]
    have hu := toNat_lt_of_isNode hnode
    have hkey := nodeOf_eq_some (f := f) hnode
    have hnext : (f e).toInt + 1 = (((f e).toInt.toNat + 1 : Nat) : Int) := by
      have h0 := hnode.1
      omega
    rw [hnext, int32_of_lt (hbound hnode), Outcome.done_bind, index_ofNat, Outcome.done_bind]
    replace hlen := hlen hnode
    generalize (f e).toInt.toNat = u at hu hkey hlen
    obtain ⟨start', hwrite, hsize, hat, hne⟩ := Outcome.write_ok
      (a := start) (i := u + 1) (by rw [h.size]; omega)
      (((bucket (nodeOf nn f) (es.take i) u).length + 1 : Nat) : Int)
    have hcast : ((bucket (nodeOf nn f) (es.take i) u).length : Int) + 1 =
        (((bucket (nodeOf nn f) (es.take i) u).length + 1 : Nat) : Int) := rfl
    refine ⟨start', ?_, hsize.trans h.size, ?_, ?_⟩
    · rw [Outcome.read_of_getElem? (h.count u hu), Outcome.done_bind, hcast, int32_of_lt hlen,
        Outcome.done_bind, hwrite]
    · rw [hne 0 (by omega)]
      exact h.first
    · intro v hv
      rw [bucket_concat]
      by_cases hvu : v = u
      · subst hvu
        rw [hat, if_pos hkey, List.length_append, List.length_singleton]
      · have hother : ¬ nodeOf nn f e = some v := by
          rw [hkey, Option.some.injEq]
          exact fun hc => hvu hc.symm
        rw [hne (v + 1) (by omega), if_neg hother, List.append_nil]
        exact h.count v hv
  · rw [if_neg hnode]
    refine ⟨start, rfl, h.size, h.first, ?_⟩
    intro u hu
    rw [bucket_concat, if_neg (nodeOf_ne_some hnode), List.append_nil]
    exact h.count u hu

theorem Summed.step (hi : i < nn) (hlt : offset (nodeOf nn f) es (i + 1) < 2 ^ 31)
    (h : Summed nn f es i start) :
    ∃ start', Graph.addPrevious i start = .done start' ∧ Summed nn f es (i + 1) start' := by
  unfold Graph.addPrevious
  rw [Outcome.read_of_getElem? (h.count i (Nat.le_refl i) hi), Outcome.done_bind,
    Outcome.read_of_getElem? (h.sum i (Nat.le_refl i)), Outcome.done_bind]
  have hsum : ((bucket (nodeOf nn f) es i).length : Int) + (offset (nodeOf nn f) es i : Int) =
      (offset (nodeOf nn f) es (i + 1) : Int) := by
    rw [offset_succ]
    omega
  rw [hsum, int32_of_lt hlt, Outcome.done_bind]
  obtain ⟨start', hwrite, hsize, hat, hne⟩ := Outcome.write_ok
    (a := start) (i := i + 1) (by rw [h.size]; omega) (offset (nodeOf nn f) es (i + 1) : Int)
  refine ⟨start', hwrite, hsize.trans h.size, ?_, ?_⟩
  · intro u hu
    by_cases hui : u = i + 1
    · rw [hui]
      exact hat
    · rw [hne u hui]
      exact h.sum u (by omega)
  · intro u hiu hu
    rw [hne (u + 1) (by omega)]
    exact h.count u (by omega) hu

theorem Filled.step {x : Array Int × Array Int32 × Array Int64} (hc : Countable nn (es.map f))
    (hkeys : Lists keys f es) (hothers : Lists others g es)
    (hweights : Lists weights Edge.weight es) (he : es[i]? = some e)
    (h : Filled nn f g es (es.take i) x) :
    ∃ x', Graph.scatterEdge nn keys others weights i x = .done x' ∧
      Filled nn f g es (es.take (i + 1)) x' := by
  obtain ⟨cur, other, weight⟩ := x
  obtain ⟨⟨hcurSize, hotherSize, hweightSize⟩, curs, hcurs, hplaced⟩ := h
  simp only [Graph.scatterEdge]
  simp only at hcurSize hotherSize hweightSize
  rw [Outcome.read_of_getElem? (hkeys i e he), Outcome.done_bind, take_concat he]
  by_cases hnode : Graph.IsNode nn (f e)
  · rw [if_pos hnode]
    have hu := toNat_lt_of_isNode hnode
    have hkey := nodeOf_eq_some (f := f) hnode
    generalize (f e).toInt.toNat = u at hu hkey
    have hpos := hplaced.cursor_lt (isPrefix_take_concat he) hu hkey
    have hbound : curs u + 1 < 2 ^ 31 := by
      have hlt := hc.total_lt
      omega
    have hnext : (curs u : Int) + 1 = ((curs u + 1 : Nat) : Int) := rfl
    obtain ⟨cur', hcurWrite, hcurSize', hcurAt, hcurNe⟩ := Outcome.write_ok
      (a := cur) (i := u) (by omega) ((curs u + 1 : Nat) : Int)
    obtain ⟨other', hotherWrite, hotherSize', hotherAt, hotherNe⟩ := Outcome.write_ok
      (a := other) (i := curs u) (by omega) (g e)
    obtain ⟨weight', hweightWrite, hweightSize', hweightAt, hweightNe⟩ := Outcome.write_ok
      (a := weight) (i := curs u) (by omega) e.weight
    refine ⟨(cur', other', weight'), ?_, ⟨hcurSize'.trans hcurSize, hotherSize'.trans hotherSize,
      hweightSize'.trans hweightSize⟩, Function.update curs u (curs u + 1), ?_, ?_⟩
    · rw [Outcome.read_of_getElem? (hcurs u hu), Outcome.done_bind, hnext, int32_of_lt hbound,
        Outcome.done_bind, hcurWrite, Outcome.done_bind, index_ofNat, Outcome.done_bind,
        Outcome.read_of_getElem? (hothers i e he), Outcome.done_bind, hotherWrite,
        Outcome.done_bind, Outcome.done_bind, Outcome.read_of_getElem? (hweights i e he),
        Outcome.done_bind, hweightWrite, Outcome.done_bind]
      rfl
    · intro v hv
      by_cases hvu : v = u
      · rw [hvu, Function.update_self]
        exact hcurAt
      · rw [Function.update_of_ne hvu]
        exact (hcurNe v hvu).trans (hcurs v hv)
    · apply hplaced.place (isPrefix_take_concat he) hu hkey (Function.update_self ..)
        (fun v hv => Function.update_of_ne hv ..) ⟨hotherAt, hweightAt⟩
      intro p y hp hy
      exact ⟨(hotherNe p hp).trans hy.1, (hweightNe p hp).trans hy.2⟩
  · rw [if_neg hnode]
    refine ⟨_, rfl, ⟨hcurSize, hotherSize, hweightSize⟩, curs, hcurs, ?_⟩
    exact hplaced.skip fun v _ => nodeOf_ne_some hnode

/-- The offsets before the counting. -/
theorem zeroed (nn : Nat) (f : Edge → Int32) {a : Array Int} (hsize : a.size = nn + 1) :
    ∃ start', Outcome.forRange (fun i a => Outcome.write a i 0) (nn + 1) a = .done start' ∧
      Counted nn f [] start' := by
  obtain ⟨start', hrun, hsize', hzero⟩ := Outcome.forRange_of_step
    (f := fun i a => Outcome.write a i (0 : Int)) (s := a) (n := nn + 1)
    (fun i a => a.size = nn + 1 ∧ ∀ j, j < i → a[j]? = some 0) ⟨hsize, nofun⟩ (by
      intro i a hi ⟨ha, hbefore⟩
      obtain ⟨a', hwrite, hsize', hat, hne⟩ := Outcome.write_ok (a := a) (i := i) (by omega) (0 : Int)
      refine ⟨a', hwrite, hsize'.trans ha, fun j hj => ?_⟩
      by_cases hji : j = i
      · rw [hji]
        exact hat
      · rw [hne j hji]
        exact hbefore j (by omega))
  exact ⟨start', hrun, hsize', hzero 0 (by omega), fun u hu => hzero (u + 1) (by omega)⟩

/-- The cursors before the scattering. -/
theorem cursors_copied {cur : Array Int} (hsize : cur.size = nn) (hs : Summed nn f es nn start) :
    ∃ cur', Outcome.forRange (fun i a => do Outcome.write a i (← Outcome.read start i)) nn cur =
        .done cur' ∧ cur'.size = nn ∧
      ∀ u, u < nn → cur'[u]? = some (offset (nodeOf nn f) es u : Int) := by
  apply Outcome.forRange_of_step
    (fun i (a : Array Int) =>
      a.size = nn ∧ ∀ u, u < i → a[u]? = some (offset (nodeOf nn f) es u : Int)) ⟨hsize, nofun⟩
  intro i a hi ⟨ha, hbefore⟩
  obtain ⟨a', hwrite, hsize', hat, hne⟩ := Outcome.write_ok (a := a) (i := i) (by omega)
    (offset (nodeOf nn f) es i : Int)
  refine ⟨a', ?_, hsize'.trans ha, fun j hj => ?_⟩
  · rw [Outcome.read_of_getElem? (hs.sum i (Nat.le_of_lt hi)), Outcome.done_bind, hwrite]
  · by_cases hji : j = i
    · rw [hji]
      exact hat
    · rw [hne j hji]
      exact hbefore j (by omega)

end

/-! ## A build -/

/-- The edges of a cache in its order: the other end and the weight. -/
def cells (c : Csr) : List (Int32 × Int64) := c.other.toList.zip c.weight.toList

/-- The cache is the adjacency of the edges by one of their ends: the offsets begin at 0, rise,
and end at the number of edges that have a node at this end, which is the number of cells; and
between the offset of a node and the next stand the edges of the node, each once. -/
structure Adjacency (nn : Nat) (f g : Edge → Int32) (es : List Edge) (c : Csr) : Prop where
  first : c.start[0]? = some 0
  last : c.start[nn]? = some ((es.filter fun e => Graph.IsNode nn (f e)).length : Int)
  length : (cells c).length = (es.filter fun e => Graph.IsNode nn (f e)).length
  row : ∀ u : Nat, u < nn → ∃ k₀ k₁ : Nat, c.start[u]? = some (k₀ : Int) ∧
    c.start[u + 1]? = some (k₁ : Int) ∧ k₀ ≤ k₁ ∧
    ((cells c).drop k₀).take (k₁ - k₀) =
      (es.filter fun e => (f e).toInt = u).map fun e => (g e, e.weight)

theorem bucket_nodes (hu : u < nn) :
    bucket (nodeOf nn f) es u = es.filter fun e => (f e).toInt = u := by
  unfold bucket
  apply List.filter_congr
  intro e _
  rw [decide_eq_decide]
  by_cases hnode : Graph.IsNode nn (f e)
  · obtain ⟨h0, hlt⟩ := hnode
    rw [nodeOf_eq_some ⟨h0, hlt⟩, Option.some.injEq]
    omega
  · constructor
    · exact fun heq => absurd heq (nodeOf_ne_some hnode)
    · intro heq
      exact absurd (show Graph.IsNode nn (f e) from ⟨by omega, by omega⟩) hnode

/-- The passes together give the adjacency. -/
theorem adjacency_of_filled {start : Array Int} {x : Array Int × Array Int32 × Array Int64}
    (hs : Summed nn f es nn start) (hx : Filled nn f g es es x) :
    Adjacency nn f g es ⟨start, x.2.1, x.2.2⟩ := by
  obtain ⟨⟨-, hother, hweight⟩, curs, -, hplaced⟩ := hx
  have hlength : (cells ⟨start, x.2.1, x.2.2⟩).length = offset (nodeOf nn f) es nn := by
    simp [cells, hother, hweight]
  constructor
  · exact hs.sum 0 (Nat.zero_le nn)
  · rw [← offset_nodes]
    exact hs.sum nn (Nat.le_refl nn)
  · rw [← offset_nodes]
    exact hlength
  · intro u hu
    refine ⟨_, _, hs.sum u (Nat.le_of_lt hu), hs.sum (u + 1) hu, offset_mono (Nat.le_succ u), ?_⟩
    rw [← bucket_nodes hu, offset_succ, Nat.add_sub_cancel_left]
    apply List.ext_getElem?
    intro j
    rw [List.getElem?_take, List.getElem?_map]
    by_cases hj : j < (bucket (nodeOf nn f) es u).length
    · have he := List.getElem?_eq_getElem hj
      obtain ⟨ho, hw⟩ := hplaced.placed u hu j _ he
      rw [if_pos hj, List.getElem?_drop, he]
      unfold cells
      rw [List.getElem?_zip_eq_some.mpr]
      · exact rfl
      · exact ⟨by simpa using ho, by simpa using hw⟩
    · rw [if_neg hj, List.getElem?_eq_none (by omega)]
      rfl

theorem take_keys {keys : Array Int32} (hkeys : Lists keys f es) :
    keys.toList.take es.length = es.map f := by
  apply List.ext_getElem?
  intro i
  rw [List.getElem?_take, List.getElem?_map]
  by_cases hi : i < es.length
  · have he := List.getElem?_eq_getElem hi
    rw [if_pos hi, he, Array.getElem?_toList, hkeys i _ he]
    rfl
  · rw [if_neg hi, List.getElem?_eq_none (by omega)]
    rfl

/-- A build gives the adjacency, or its memory is refused. -/
theorem buildCsr_ok {keys others : Array Int32} {weights : Array Int64} (heap : Nat → Bool)
    (hc : Countable nn (es.map f)) (hkeys : Lists keys f es) (hothers : Lists others g es)
    (hweights : Lists weights Edge.weight es) :
    Graph.buildCsr heap nn es.length keys others weights = .aborted ∧
        Graph.cacheRefused heap nn es.length keys ∨
      ∃ c, Graph.buildCsr heap nn es.length keys others weights = .done c ∧
        Adjacency nn f g es c := by
  have htotal : ((keys.toList.take es.length).filter fun s => Graph.IsNode nn s).length =
      offset (nodeOf nn f) es nn := by
    rw [take_keys hkeys, offset_nodes, List.filter_map, List.length_map]
    rfl
  have hbytes := hc.bytes
  have hedges := hc.total_lt
  unfold Graph.cacheRefused Graph.buildCsr
  simp only [htotal]
  have hsize : Graph.nodesPlusOne nn = .done (nn + 1) := if_pos (by omega)
  rw [hsize, Outcome.done_bind]
  obtain ⟨hrun, href⟩ | hrun := allocate_cases heap (0 : Int) (n := nn + 1)
    (by decide : 0 < 4) (by omega)
  · exact Or.inl ⟨by rw [hrun, Outcome.aborted_bind], Or.inl href⟩
  rw [hrun, Outcome.done_bind]
  obtain ⟨start₁, hzero, hcounted⟩ := zeroed nn f
    (Array.size_replicate (n := nn + 1) (v := (0 : Int)))
  obtain ⟨start₂, hcount, hcounted⟩ := Outcome.forRange_of_step (n := es.length)
    (fun i a => Counted nn f (es.take i) a) hcounted
    fun i a hi ha => have he := List.getElem?_eq_getElem hi
      ha.step hkeys he (hc.place_lt he) (hc.count_lt he)
  rw [List.take_length] at hcounted
  have hsummed₀ : Summed nn f es 0 start₂ := by
    refine ⟨hcounted.size, fun u hu => ?_, fun u _ hu => hcounted.count u hu⟩
    obtain rfl : u = 0 := by omega
    exact hcounted.first
  obtain ⟨start, hsum, hsummed⟩ := Outcome.forRange_of_step (n := nn)
    (fun i a => Summed nn f es i a) hsummed₀ fun i a hi ha => ha.step hi (hc.offset_lt hi)
  rw [hzero, Outcome.done_bind, hcount, Outcome.done_bind, hsum, Outcome.done_bind,
    Outcome.read_of_getElem? (hsummed.sum nn (Nat.le_refl nn)), Outcome.done_bind]
  obtain ⟨hrun, href⟩ | ⟨other, hrun, hother⟩ := rows_allocated heap (4 : Nat) (0 : Int32)
    (n := offset (nodeOf nn f) es nn) (by decide) (by omega)
  · exact Or.inl ⟨by rw [hrun, Outcome.aborted_bind],
      Or.inr (Or.inr ⟨href.1, Or.inl href.2⟩)⟩
  rw [hrun, Outcome.done_bind]
  obtain ⟨hrun, href⟩ | ⟨weight, hrun, hweight⟩ := rows_allocated heap (8 : Nat) (0 : Int64)
    (n := offset (nodeOf nn f) es nn) (by decide) (by omega)
  · exact Or.inl ⟨by rw [hrun, Outcome.aborted_bind],
      Or.inr (Or.inr ⟨href.1, Or.inr href.2⟩)⟩
  rw [hrun, Outcome.done_bind]
  obtain ⟨hrun, href⟩ | hrun := allocate_cases heap (0 : Int) (n := nn)
    (by decide : 0 < 4) (by omega)
  · exact Or.inl ⟨by rw [hrun, Outcome.aborted_bind], Or.inr (Or.inl href)⟩
  rw [hrun, Outcome.done_bind]
  obtain ⟨cur, hcopy, hcur, hcurs⟩ := cursors_copied
    (Array.size_replicate (n := nn) (v := (0 : Int))) hsummed
  have hfilled₀ : Filled nn f g es (es.take 0) (cur, other, weight) := by
    refine ⟨⟨hcur, hother, hweight⟩, _, hcurs, fun u _ => ?_, fun u _ j e he => ?_⟩
    · rw [List.take_zero]
      rfl
    · rw [List.take_zero] at he
      cases he
  obtain ⟨x, hscatter, hfilled⟩ := Outcome.forRange_of_step (n := es.length)
    (fun i x => Filled nn f g es (es.take i) x) hfilled₀
    fun i x hi hx => hx.step hc hkeys hothers hweights (List.getElem?_eq_getElem hi)
  rw [List.take_length] at hfilled
  rw [hcopy, Outcome.done_bind, hscatter, Outcome.done_bind]
  exact Or.inr ⟨_, rfl, adjacency_of_filled hsummed hfilled⟩

/-! ## Sequences of calls -/

/-- The graph has these nodes and edges, and its caches are caches of them. -/
structure GraphHolds (g : Graph) (t : Nat × List Edge) : Prop where
  nodes : g.numNodes = t.1
  edges : g.numEdges = t.2.length
  fits : g.numEdges ≤ g.edgeCapacity
  sizes : g.edgeSrc.size = g.edgeCapacity ∧ g.edgeDst.size = g.edgeCapacity ∧
    g.edgeWeight.size = g.edgeCapacity
  src : Lists g.edgeSrc Edge.src t.2
  dst : Lists g.edgeDst Edge.dst t.2
  weight : Lists g.edgeWeight Edge.weight t.2
  adj : ∀ c, g.adj = some c → Adjacency t.1 Edge.src Edge.dst t.2 c
  rev : ∀ c, g.revAdj = some c → Adjacency t.1 Edge.dst Edge.src t.2 c

/-- The caches that are read are the edges. -/
def ReadsEdges (t : Nat × List Edge) : Graph.Reads → Prop
  | .nothing => True
  | .forward c => Adjacency t.1 Edge.src Edge.dst t.2 c
  | .both c r => Adjacency t.1 Edge.src Edge.dst t.2 c ∧ Adjacency t.1 Edge.dst Edge.src t.2 r

/-- What the calls may return, for the nodes and the edges since the last clear: an algorithm
reads caches of these edges. -/
def graphSpec (t : Nat × List Edge) : GraphOp × (Nat → Bool) → GraphAnswer →
    Nat × List Edge → Prop
  | (.new n, _), r, t' => r = .unit ∧ t' = (n.toInt.toNat, [])
  | (.addEdge src dst w, _), r, t' =>
    r = .count (t.2.length + 1) ∧ t' = (t.1, t.2 ++ [⟨src.toInt32, dst.toInt32, w⟩])
  | (.clear, _), r, t' => r = .count t.2.length ∧ t' = (t.1, [])
  | (.numNodes, _), r, t' => r = .count t.1 ∧ t' = t
  | (.numEdges, _), r, t' => r = .count t.2.length ∧ t' = t
  | (.query _, _), r, t' => (∃ x, r = .ran x ∧ ReadsEdges t x) ∧ t' = t

/-- The offsets of the caches that an algorithm reads do not overflow. -/
def GraphOk (g : Graph) : GraphOp × (Nat → Bool) → Prop
  | (.query q, _) =>
    (q.readsForward = true → Countable g.numNodes (g.edgeSrc.toList.take g.numEdges)) ∧
      (q.readsReverse = true → Countable g.numNodes (g.edgeDst.toList.take g.numEdges))
  | _ => True

theorem Lists.grow {β : Type} {a : Array β} {f : Edge → β} (h : Lists a f es) {capacity : Nat}
    (hle : es.length ≤ capacity) (x : β) : Lists (Graph.grow a capacity x) f es := by
  intro i e he
  have hi : i < es.length := (List.getElem?_eq_some_iff.mp he).1
  unfold Graph.grow
  rw [Array.getElem?_ofFn, dif_pos (by omega), Array.getD_eq_getD_getElem?, h i e he]
  rfl

theorem Lists.concat {β : Type} {a a' : Array β} {f : Edge → β} (h : Lists a f es)
    (hat : a'[es.length]? = some (f e)) (hne : ∀ j, j ≠ es.length → a'[j]? = a[j]?) :
    Lists a' f (es ++ [e]) := by
  intro i y hy
  by_cases hi : i < es.length
  · rw [List.getElem?_append_left hi] at hy
    rw [hne i (by omega)]
    exact h i y hy
  · have hlt := (List.getElem?_eq_some_iff.mp hy).1
    rw [List.length_append, List.length_singleton] at hlt
    obtain rfl : i = es.length := by omega
    rw [List.getElem?_append_right (Nat.le_refl _), Nat.sub_self] at hy
    obtain rfl := Option.some.inj hy
    exact hat

namespace GraphHolds

variable {g : Graph} {t : Nat × List Edge}

theorem new (n : Int64) : GraphHolds (Graph.new n) (n.toInt.toNat, []) :=
  ⟨rfl, rfl, Nat.le_refl 0, ⟨rfl, rfl, rfl⟩, nofun, nofun, nofun, nofun, nofun⟩

theorem clear (h : GraphHolds g t) : GraphHolds g.clear.2 (t.1, []) :=
  ⟨h.nodes, rfl, Nat.le_refl 0, ⟨rfl, rfl, rfl⟩, nofun, nofun, nofun, nofun, nofun⟩

/-- The edges stay where room is made. -/
theorem reserve (h : GraphHolds g t) (heap : Nat → Bool) :
    (g.reserve heap = .aborted ∧ g.edgeCapacity ≤ g.numEdges ∧
      (malloc heap (Graph.grownCapacity g.edgeCapacity * 4) &&
        malloc heap (Graph.grownCapacity g.edgeCapacity * 8)) = false) ∨
      ∃ g', g.reserve heap = .done g' ∧ GraphHolds g' t ∧ g'.numEdges < g'.edgeCapacity := by
  unfold Graph.reserve
  by_cases hfull : g.edgeCapacity ≤ g.numEdges
  · rw [if_pos hfull]
    dsimp only
    cases hmalloc : malloc heap (Graph.grownCapacity g.edgeCapacity * 4) &&
        malloc heap (Graph.grownCapacity g.edgeCapacity * 8) with
    | false => exact Or.inl ⟨rfl, hfull, rfl⟩
    | true =>
      have hroom : g.numEdges < Graph.grownCapacity g.edgeCapacity := by
        have hfits := h.fits
        unfold Graph.grownCapacity
        split <;> omega
      have hle : t.2.length ≤ Graph.grownCapacity g.edgeCapacity := by
        rw [← h.edges]
        exact Nat.le_of_lt hroom
      refine Or.inr ⟨_, rfl, ⟨h.nodes, h.edges, Nat.le_of_lt hroom, ?_, h.src.grow hle 0,
        h.dst.grow hle 0, h.weight.grow hle 0, h.adj, h.rev⟩, hroom⟩
      exact ⟨Array.size_ofFn, Array.size_ofFn, Array.size_ofFn⟩
  · rw [if_neg hfull]
    exact Or.inr ⟨g, rfl, h, Nat.lt_of_not_le hfull⟩

theorem reserve_caches {heap : Nat → Bool} {g' : Graph} (h : g.reserve heap = .done g') :
    g'.adj = g.adj ∧ g'.revAdj = g.revAdj := by
  unfold Graph.reserve at h
  split at h
  · dsimp only at h
    split at h
    · cases h
      exact ⟨rfl, rfl⟩
    · cases h
  · cases h
    exact ⟨rfl, rfl⟩

theorem addEdge (h : GraphHolds g t) (heap : Nat → Bool) (src dst w : Int64) :
    g.addEdge heap src dst w = .aborted ∧ g.refused (.addEdge src dst w, heap) ∨
      ∃ g', g.addEdge heap src dst w = .done (t.2.length + 1, g') ∧
        GraphHolds g' (t.1, t.2 ++ [⟨src.toInt32, dst.toInt32, w⟩]) := by
  have hinv : GraphHolds g.invalidateCsr t :=
    ⟨h.nodes, h.edges, h.fits, h.sizes, h.src, h.dst, h.weight, nofun, nofun⟩
  unfold Graph.addEdge
  obtain ⟨hrun, href⟩ | ⟨g', hrun, hg, hroom⟩ := hinv.reserve heap
  · exact Or.inl ⟨by rw [hrun, Outcome.aborted_bind], href⟩
  · obtain ⟨hadj, hrev⟩ := reserve_caches hrun
    obtain ⟨hsrc, hdst, hweight⟩ := hg.sizes
    obtain ⟨a, ha, hasize, haat, hane⟩ := Outcome.write_ok (a := g'.edgeSrc) (i := g'.numEdges)
      (by omega) src.toInt32
    obtain ⟨b, hb, hbsize, hbat, hbne⟩ := Outcome.write_ok (a := g'.edgeDst) (i := g'.numEdges)
      (by omega) dst.toInt32
    obtain ⟨c, hc, hcsize, hcat, hcne⟩ := Outcome.write_ok (a := g'.edgeWeight) (i := g'.numEdges)
      (by omega) w
    rw [hrun, Outcome.done_bind, ha, Outcome.done_bind, hb, Outcome.done_bind, hc,
      Outcome.done_bind, hg.edges]
    rw [hg.edges] at haat hane hbat hbne hcat hcne hroom
    refine Or.inr ⟨_, rfl, hg.nodes, ?_, hroom, ⟨hasize.trans hsrc, hbsize.trans hdst,
      hcsize.trans hweight⟩, hg.src.concat haat hane, hg.dst.concat hbat hbne,
      hg.weight.concat hcat hcne, ?_, ?_⟩
    · simp
    · intro x hx
      cases hadj.symm.trans hx
    · intro x hx
      cases hrev.symm.trans hx

/-- An added edge leaves no cache. -/
theorem addEdge_caches {heap : Nat → Bool} {src dst w : Int64} {n : Nat} {g' : Graph}
    (h : g.addEdge heap src dst w = .done (n, g')) : g'.adj = none ∧ g'.revAdj = none := by
  unfold Graph.addEdge at h
  obtain ⟨g₁, hreserve, h⟩ := Outcome.bind_eq_done h
  obtain ⟨a, -, h⟩ := Outcome.bind_eq_done h
  obtain ⟨b, -, h⟩ := Outcome.bind_eq_done h
  obtain ⟨c, -, h⟩ := Outcome.bind_eq_done h
  cases h
  exact reserve_caches hreserve

/-- A valid forward cache, built if it was not. -/
theorem buildCsrIfNeeded (h : GraphHolds g t) (heap : Nat → Bool) (hnodes : g.numNodes ≠ 0)
    (hok : Countable g.numNodes (g.edgeSrc.toList.take g.numEdges)) :
    g.buildCsrIfNeeded heap = .aborted ∧
        Graph.cacheRefused heap g.numNodes g.numEdges g.edgeSrc ∨
      ∃ g' c, g.buildCsrIfNeeded heap = .done g' ∧ GraphHolds g' t ∧ g'.adj = some c ∧
        g' = { g with adj := some c } := by
  unfold Graph.buildCsrIfNeeded
  cases hadj : g.adj with
  | some c => exact Or.inr ⟨g, c, rfl, h, hadj, by rw [← hadj]⟩
  | none =>
    have hzero : (g.numNodes == 0) = false := by simpa using hnodes
    rw [hzero]
    rw [h.edges, take_keys h.src] at hok
    have hbuild := buildCsr_ok heap hok h.src h.dst h.weight
    rw [← h.edges] at hbuild
    obtain ⟨hrun, href⟩ | ⟨c, hrun, hc⟩ := hbuild
    · refine Or.inl ⟨?_, href⟩
      simp only [Option.isSome_none, Bool.or_self, Bool.false_eq_true, if_false, hrun,
        Outcome.aborted_bind]
    · refine Or.inr ⟨_, c, ?_, ?_, rfl, rfl⟩
      · simp only [Option.isSome_none, Bool.or_self, Bool.false_eq_true, if_false, hrun,
          Outcome.done_bind, Outcome.pure_eq]
      · rw [h.nodes] at hc
        refine ⟨h.nodes, h.edges, h.fits, h.sizes, h.src, h.dst, h.weight, ?_, h.rev⟩
        intro x hx
        obtain rfl := Option.some.inj hx
        exact hc

/-- A valid reverse cache, built if it was not. -/
theorem buildRevCsrIfNeeded (h : GraphHolds g t) (heap : Nat → Bool) (hnodes : g.numNodes ≠ 0)
    (hok : Countable g.numNodes (g.edgeDst.toList.take g.numEdges)) :
    g.buildRevCsrIfNeeded heap = .aborted ∧
        Graph.cacheRefused heap g.numNodes g.numEdges g.edgeDst ∨
      ∃ g' c, g.buildRevCsrIfNeeded heap = .done g' ∧ GraphHolds g' t ∧ g'.revAdj = some c ∧
        g'.adj = g.adj := by
  unfold Graph.buildRevCsrIfNeeded
  cases hadj : g.revAdj with
  | some c => exact Or.inr ⟨g, c, rfl, h, hadj, rfl⟩
  | none =>
    have hzero : (g.numNodes == 0) = false := by simpa using hnodes
    rw [hzero]
    rw [h.edges, take_keys h.dst] at hok
    have hbuild := buildCsr_ok heap hok h.dst h.src h.weight
    rw [← h.edges] at hbuild
    obtain ⟨hrun, href⟩ | ⟨c, hrun, hc⟩ := hbuild
    · refine Or.inl ⟨?_, href⟩
      simp only [Option.isSome_none, Bool.or_self, Bool.false_eq_true, if_false, hrun,
        Outcome.aborted_bind]
    · refine Or.inr ⟨{ g with revAdj := some c }, c, ?_, ?_, rfl, rfl⟩
      · simp only [Option.isSome_none, Bool.or_self, Bool.false_eq_true, if_false, hrun,
          Outcome.done_bind, Outcome.pure_eq]
      · rw [h.nodes] at hc
        refine ⟨h.nodes, h.edges, h.fits, h.sizes, h.src, h.dst, h.weight, h.adj, ?_⟩
        intro x hx
        obtain rfl := Option.some.inj hx
        exact hc

/-- The forward cache is read. -/
theorem onForward (h : GraphHolds g t) (heap : Nat → Bool) (hnodes : g.numNodes ≠ 0)
    {q : Graph.Query} (hq : q.readsForward = true) (hok : GraphOk g (.query q, heap)) :
    (g.onForward heap = .aborted ∧ g.refused (.query q, heap)) ∨
      ∃ r g', g.onForward heap = .done (r, g') ∧ ReadsEdges t r ∧ GraphHolds g' t := by
  unfold Graph.onForward
  obtain ⟨hrun, href⟩ | ⟨g', c, hrun, hg, hadj, -⟩ :=
    h.buildCsrIfNeeded heap hnodes (hok.1 hq)
  · exact Or.inl ⟨by rw [hrun, Outcome.aborted_bind], Or.inl ⟨hq, href⟩⟩
  · refine Or.inr ⟨.forward c, g', ?_, hg.adj c hadj, hg⟩
    rw [hrun, Outcome.done_bind, hadj]
    rfl

/-- Both caches are read. -/
theorem onBoth (h : GraphHolds g t) (heap : Nat → Bool) (hnodes : g.numNodes ≠ 0)
    (hok : GraphOk g (.query .mstPrim, heap)) :
    (g.onBoth heap = .aborted ∧ g.refused (.query .mstPrim, heap)) ∨
      ∃ r g', g.onBoth heap = .done (r, g') ∧ ReadsEdges t r ∧ GraphHolds g' t := by
  unfold Graph.onBoth
  obtain ⟨hrun, href⟩ | ⟨g₁, c, hrun, hg₁, hadj, rfl⟩ :=
    h.buildCsrIfNeeded heap hnodes (hok.1 rfl)
  · exact Or.inl ⟨by rw [hrun, Outcome.aborted_bind], Or.inl ⟨rfl, href⟩⟩
  rw [hrun, Outcome.done_bind]
  obtain ⟨hrun, href⟩ | ⟨g₂, r, hrun, hg₂, hrev, hsame⟩ :=
    hg₁.buildRevCsrIfNeeded heap hnodes (hok.2 rfl)
  · exact Or.inl ⟨by rw [hrun, Outcome.aborted_bind], Or.inr ⟨rfl, href⟩⟩
  · refine Or.inr ⟨.both c r, g₂, ?_, ⟨hg₂.adj c (hsame.trans hadj), hg₂.rev r hrev⟩, hg₂⟩
    rw [hrun, Outcome.done_bind, hrev, hsame]
    rfl

/-- An algorithm reads the edges, if anything. -/
theorem query (h : GraphHolds g t) (heap : Nat → Bool) (q : Graph.Query)
    (hok : GraphOk g (.query q, heap)) :
    (g.query heap q = .aborted ∧ g.refused (.query q, heap)) ∨
      ∃ r g', g.query heap q = .done (r, g') ∧ ReadsEdges t r ∧ GraphHolds g' t := by
  have hnothing : ∃ r g', (pure (Graph.Reads.nothing, g) : Outcome _) = .done (r, g') ∧
      ReadsEdges t r ∧ GraphHolds g' t := ⟨_, _, rfl, trivial, h⟩
  cases q with
  | bfsReach start | dfsReach start =>
    simp only [Graph.query]
    split
    · exact Or.inr hnothing
    · next hguard =>
      apply h.onForward heap _ rfl hok
      intro h0
      simp [h0] at hguard
  | hasCycle | topoSort =>
    simp only [Graph.query]
    split
    · exact Or.inr hnothing
    · next hguard =>
      apply h.onForward heap _ rfl hok
      intro h0
      simp [h0] at hguard
  | dijkstra src dst =>
    simp only [Graph.query]
    split
    · exact Or.inr hnothing
    · next hguard =>
      split
      · exact Or.inr hnothing
      · apply h.onForward heap _ rfl hok
        intro h0
        simp [h0] at hguard
  | mstKruskal => exact Or.inr hnothing
  | mstPrim =>
    simp only [Graph.query]
    split
    · exact Or.inr hnothing
    · next hguard =>
      apply h.onBoth heap _ hok
      intro h0
      simp [h0] at hguard
  | astar src dst len =>
    simp only [Graph.query]
    split
    · exact Or.inr hnothing
    · next hguard =>
      split
      · exact Or.inr hnothing
      · split
        · exact Or.inr hnothing
        · apply h.onForward heap _ rfl hok
          intro h0
          simp [h0] at hguard

end GraphHolds

theorem step_graph (g : Graph) (t : Nat × List Edge) (i : GraphOp × (Nat → Bool))
    (h : GraphHolds g t) (hok : GraphOk g i) :
    StepSatisfies Graph.step graphSpec Graph.refused GraphHolds g t i := by
  obtain ⟨op, heap⟩ := i
  cases op with
  | new n => exact stepSatisfies_done rfl ⟨rfl, rfl⟩ (GraphHolds.new n)
  | addEdge src dst w =>
    obtain ⟨hrun, href⟩ | ⟨g', hrun, hg⟩ := h.addEdge heap src dst w
    · exact stepSatisfies_refused (by simp only [Graph.step, hrun, Outcome.aborted_bind]) href
    · exact stepSatisfies_done
        (by simp only [Graph.step, hrun, Outcome.done_bind, Outcome.pure_eq]) ⟨rfl, rfl⟩ hg
  | clear => exact stepSatisfies_done rfl ⟨congrArg _ h.edges, rfl⟩ h.clear
  | numNodes => exact stepSatisfies_done rfl ⟨congrArg _ h.nodes, rfl⟩ h
  | numEdges => exact stepSatisfies_done rfl ⟨congrArg _ h.edges, rfl⟩ h
  | query q =>
    obtain ⟨hrun, href⟩ | ⟨r, g', hrun, hr, hg⟩ := h.query heap q hok
    · exact stepSatisfies_refused (by simp only [Graph.step, hrun, Outcome.aborted_bind]) href
    · exact stepSatisfies_done
        (by simp only [Graph.step, hrun, Outcome.done_bind, Outcome.pure_eq])
        ⟨⟨r, rfl, hr⟩, rfl⟩ hg

/-- **The caches of the emitted graph are coherent**: in every sequence of calls whose offsets
fit, whenever an algorithm reads a cache it is the adjacency of the edges added since the last
clear. Source: backend_c.rs:2593-2745 -/
theorem graph_coherent (n : Int64) (ops : List (GraphOp × (Nat → Bool)))
    (hok : RunAllows Graph.step GraphOk ops (Graph.new n)) :
    RunSatisfies Graph.step graphSpec Graph.refused ops (Graph.new n) (n.toInt.toNat, []) :=
  by
  have hrun : _ ∧ RunKeeps Graph.step (fun _ => True) ops (Graph.new n) :=
    runSatisfies_of_allows step_graph (fun _ _ _ => trivial) ops (GraphHolds.new n) hok
  exact hrun.1

/-- An edge is added, and a search reads it. -/
theorem graph_coherent_edge :
    RunSatisfies Graph.step graphSpec Graph.refused
      [(.addEdge 0 1 5, fun _ => true), (.query (.bfsReach 0), fun _ => true)]
      (Graph.new 2) (2, []) := by
  apply graph_coherent 2
  refine ⟨trivial, fun r g hstep => ⟨?_, fun _ _ _ => trivial⟩⟩
  have hends : g.numNodes = 2 ∧ g.edgeSrc.toList.take g.numEdges = [0] := by
    cases hstep
    exact ⟨rfl, rfl⟩
  refine ⟨fun _ => ?_, nofun⟩
  rw [hends.1, hends.2]
  refine ⟨by decide, by decide, ?_⟩
  intro s hs _
  obtain rfl := List.mem_singleton.mp hs
  have hzero : (0 : Int32).toInt = 0 := rfl
  omega

/-- An edge from a number that is not a node's is in no cache: the offsets of the cache that a
search reads end at 0, with one edge in the graph. -/
theorem graph_skips_edge :
    ∃ g g' c, Graph.step (Graph.new 1) (.addEdge 5 0 7, fun _ => true) = .done (.count 1, g) ∧
      Graph.step g (.query (.bfsReach 0), fun _ => true) = .done (.ran (.forward c), g') ∧
      g'.numEdges = 1 ∧ c.start[g'.numNodes]? = some 0 ∧ cells c = [] :=
  ⟨_, _, _, rfl, rfl, rfl, rfl, rfl⟩

end Vani.Analysis
