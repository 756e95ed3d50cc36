import Vani.Analysis.KruskalTree
import Vani.Analysis.ShortestDistances

/-!
# Kruskal's and Prim's algorithm agree

Prim's labels are the weights of the lightest edges from the tree, or `0x7fffffffffffffff`, so the
tree grows from node 0 by lightest edges and stops before an edge of that weight. Where it has
all nodes its weight is that of a minimum spanning tree, which is what Kruskal's algorithm finds.
-/

set_option autoImplicit false

namespace Vani.Analysis

open Vani.Library Vani.Backend

variable {nn : Nat} {es : List Edge} {D D' : Nat → Int} {l : List Nat} {u v : Nat}

/-- The tree that grows from node 0 over edges that weigh less than `0x7fffffffffffffff`. -/
abbrev PrimTree (nn : Nat) (es : List Edge) : List Nat → Int → Prop :=
  Grown (edgeEnds es) (edgeCost es) (nodeEdges nn es) 0 Graph.infinity

/-- The weights of the tree, as it grows, fit. -/
def PrimSumsFit (nn : Nat) (es : List Edge) : Prop := ∀ l t, PrimTree nn es l t → FitsInt64 t

/-- The edges that weigh less than `0x7fffffffffffffff` connect all nodes. -/
def ConnectedBelow (nn : Nat) (es : List Edge) : Prop :=
  ∀ x y, x < nn → y < nn →
    Connects (edgeEnds es) ((nodeEdges nn es).filter fun e => edgeCost es e < Graph.infinity) x y

/-! ## Rows -/

/-- What labels become along edges from a node: those outside the list are brought down to the
weights of the edges. -/
structure Improved (g : Edge → Int32) (l : List Nat) (D : Nat → Int) (row : List Edge)
    (D' : Nat → Int) : Prop where
  le : ∀ v, D' v ≤ D v
  offer : ∀ e ∈ row, (g e).toInt.toNat ∉ l → D' (g e).toInt.toNat ≤ e.weight.toInt
  source : ∀ v, D' v < D v → v ∉ l ∧ ∃ e ∈ row, (g e).toInt.toNat = v ∧ e.weight.toInt = D' v

namespace Improved

variable {g : Edge → Int32} {row : List Edge} {e : Edge}

theorem refl (g : Edge → Int32) (l : List Nat) (D : Nat → Int) : Improved g l D [] D :=
  ⟨fun _ => Int.le_refl _, nofun, fun _ h => absurd h (Int.lt_irrefl _)⟩

/-- An edge to a node of the list changes nothing. -/
theorem skip (h : Improved g l D row D') (hin : (g e).toInt.toNat ∈ l) :
    Improved g l D (row ++ [e]) D' := by
  refine ⟨h.le, fun f hf hout => ?_, fun v hv => ?_⟩
  · rcases List.mem_append.mp hf with hf | hf
    · exact h.offer f hf hout
    · obtain rfl := List.mem_singleton.mp hf
      exact absurd hin hout
  · obtain ⟨hout, f, hf, hfar, hw⟩ := h.source v hv
    exact ⟨hout, f, List.mem_append_left _ hf, hfar, hw⟩

/-- An edge to a node outside. -/
theorem step (h : Improved g l D row D') (hout : (g e).toInt.toNat ∉ l) :
    Improved g l D (row ++ [e]) (relaxLabel D' (g e).toInt.toNat e.weight.toInt) := by
  unfold relaxLabel
  by_cases hlt : e.weight.toInt < D' (g e).toInt.toNat
  · rw [if_pos hlt]
    refine ⟨fun v => ?_, fun f hf hfout => ?_, fun v hv => ?_⟩
    · have hle := h.le v
      by_cases hve : v = (g e).toInt.toNat
      · rw [hve, Function.update_self]
        rw [hve] at hle
        omega
      · rwa [Function.update_of_ne hve]
    · by_cases hfe : (g f).toInt.toNat = (g e).toInt.toNat
      · rw [hfe, Function.update_self]
        rcases List.mem_append.mp hf with hf | hf
        · have hle := h.offer f hf hfout
          rw [hfe] at hle
          omega
        · rw [List.mem_singleton.mp hf]
      · rw [Function.update_of_ne hfe]
        rcases List.mem_append.mp hf with hf | hf
        · exact h.offer f hf hfout
        · exact absurd (by rw [List.mem_singleton.mp hf]) hfe
    · by_cases hve : v = (g e).toInt.toNat
      · rw [hve, Function.update_self]
        exact ⟨hout, e, List.mem_append_right _ (List.mem_singleton_self e), rfl, rfl⟩
      · rw [Function.update_of_ne hve] at hv ⊢
        obtain ⟨hvout, f, hf, hfar, hw⟩ := h.source v hv
        exact ⟨hvout, f, List.mem_append_left _ hf, hfar, hw⟩
  · rw [if_neg hlt]
    refine ⟨h.le, fun f hf hfout => ?_, fun v hv => ?_⟩
    · rcases List.mem_append.mp hf with hf | hf
      · exact h.offer f hf hfout
      · rw [List.mem_singleton.mp hf]
        omega
    · obtain ⟨hvout, f, hf, hfar, hw⟩ := h.source v hv
      exact ⟨hvout, f, List.mem_append_left _ hf, hfar, hw⟩

end Improved

section

variable {c : Csr} {f g : Edge → Int32} {best : Array Int} {inTree : Array Bool}

/-- One edge of a row. -/
theorem LabelsHold.improve (h : LabelsHold nn D best) (hmarks : MarksHold nn l inTree) {k : Nat}
    {w : Int64} (hweight : c.weight[k]? = some w) (hv : v < nn) :
    ∃ best', Graph.improve c inTree k v best = .done best' ∧
      LabelsHold nn (if v ∈ l then D else relaxLabel D v w.toInt) best' := by
  unfold Graph.improve relaxLabel
  rw [Outcome.read_of_getElem? (hmarks.mark v hv), Outcome.done_bind]
  by_cases hin : v ∈ l
  · rw [decide_eq_true hin, if_pos rfl, if_pos hin]
    exact ⟨best, rfl, h⟩
  · rw [decide_eq_false hin, if_neg Bool.false_ne_true, if_neg hin,
      Outcome.read_of_getElem? hweight, Outcome.done_bind,
      Outcome.read_of_getElem? (h.label v hv), Outcome.done_bind]
    by_cases hlt : w.toInt < D v
    · rw [if_pos hlt, if_pos hlt]
      obtain ⟨best', hwrite, hsize, hat, hne⟩ := Outcome.write_ok (a := best) (i := v)
        (by rw [h.size]; exact hv) w.toInt
      refine ⟨best', hwrite, hsize.trans h.size, fun x hx => ?_, fun x hx => ?_⟩
      · by_cases hxv : x = v
        · rw [hxv, hat, Function.update_self]
        · rw [hne x hxv, h.label x hx, Function.update_of_ne hxv]
      · rw [Function.update_of_ne (by omega)]
        exact h.outside x hx
    · rw [if_neg hlt, if_neg hlt]
      exact ⟨best, rfl, h⟩

/-- The edges of a row, one after the other. -/
theorem LabelsHold.improve_row (hadj : Adjacency nn f g es c) (hu : u < nn)
    (h : LabelsHold nn D best) (hmarks : MarksHold nn l inTree) :
    ∃ best', Graph.forNeighbours nn c u (Graph.improve c inTree) best = .done best' ∧
      ∃ D', LabelsHold nn D' best' ∧ Improved g l D (arcs nn f g es u) D' := by
  refine hadj.forNeighbours_ok hu
    (fun row best => ∃ D', LabelsHold nn D' best ∧ Improved g l D row D')
    ⟨D, h, Improved.refl g l D⟩ ?_
  rintro row e k best hpre hweight ⟨D', hbest, himproved⟩
  have hmem : e ∈ arcs nn f g es u :=
    hpre.subset (List.mem_append_right _ (List.mem_singleton_self e))
  obtain ⟨best', hrun, hbest'⟩ := hbest.improve hmarks hweight
    (toNat_lt_of_isNode (mem_arcs.mp hmem).2.2)
  refine ⟨best', hrun, _, hbest', ?_⟩
  by_cases hin : (g e).toInt.toNat ∈ l
  · rw [if_pos hin]
    exact himproved.skip hin
  · rw [if_neg hin]
    exact himproved.step hin

end

/-! ## Labels -/

/-- The labels outside the tree are the weights of the lightest edges from it. -/
structure Offers (nn : Nat) (es : List Edge) (l : List Nat) (D : Nat → Int) : Prop where
  le_inf : ∀ v, D v ≤ Graph.infinity
  le : ∀ v e, e ∈ nodeEdges nn es → v ∉ l → LeadsTo (edgeEnds es) l v e → D v ≤ edgeCost es e
  offered : ∀ v, v ∉ l → v ≠ 0 → D v < Graph.infinity →
    ∃ e ∈ nodeEdges nn es, LeadsTo (edgeEnds es) l v e ∧ edgeCost es e = D v

theorem leadsTo_lt {e : Fin es.length} (he : e ∈ nodeEdges nn es)
    (h : LeadsTo (edgeEnds es) l v e) : v < nn := by
  rcases h with ⟨-, rfl⟩ | ⟨-, rfl⟩
  · exact (edgeEnds_lt he).2
  · exact (edgeEnds_lt he).1

/-- An edge of a row is an edge between nodes. -/
theorem exists_edge {f g : Edge → Int32} {e : Edge} (hu : u < nn)
    (h : e ∈ arcs nn f g es u) :
    ∃ i : Fin es.length, es[i] = e ∧ (f e).toInt.toNat = u ∧ Graph.IsNode nn (f e) ∧
      Graph.IsNode nn (g e) := by
  obtain ⟨hmem, hnear, hnode⟩ := mem_arcs.mp h
  obtain ⟨i, hi, rfl⟩ := List.getElem_of_mem hmem
  refine ⟨⟨i, hi⟩, rfl, by omega, ⟨?_, ?_⟩, hnode⟩
  · omega
  · omega

/-- One more node, with both its rows. -/
theorem Offers.add {D₁ D₂ : Nat → Int} (h : Offers nn es l D) (hu : u < nn)
    (h₁ : Improved Edge.dst (u :: l) D (arcs nn Edge.src Edge.dst es u) D₁)
    (h₂ : Improved Edge.src (u :: l) D₁ (arcs nn Edge.dst Edge.src es u) D₂) :
    Offers nn es (u :: l) D₂ := by
  have hle : ∀ v, D₂ v ≤ D v := fun v => (h₂.le v).trans (h₁.le v)
  refine ⟨fun v => (hle v).trans (h.le_inf v), fun v e he hv hlead => ?_, fun v hv h0 hlt => ?_⟩
  · obtain ⟨⟨hsrc0, hsrc⟩, hdst0, hdst⟩ := mem_nodeEdges.mp he
    have hout : v ∉ l := fun hin => hv (List.mem_cons_of_mem u hin)
    have hmem : es[e] ∈ es := List.getElem_mem e.isLt
    rcases hlead with ⟨hin, rfl⟩ | ⟨hin, rfl⟩
    · rcases List.mem_cons.mp hin with heq | hin
      · -- an edge from the new node
        have harc : es[e] ∈ arcs nn Edge.src Edge.dst es u := by
          refine mem_arcs.mpr ⟨hmem, ?_, hdst0, hdst⟩
          rw [← heq]
          exact (Int.toNat_of_nonneg hsrc0).symm
        exact (h₂.le _).trans (h₁.offer _ harc hv)
      · exact (hle _).trans (h.le _ e he hout (Or.inl ⟨hin, rfl⟩))
    · rcases List.mem_cons.mp hin with heq | hin
      · -- an edge to the new node
        have harc : es[e] ∈ arcs nn Edge.dst Edge.src es u := by
          refine mem_arcs.mpr ⟨hmem, ?_, hsrc0, hsrc⟩
          rw [← heq]
          exact (Int.toNat_of_nonneg hdst0).symm
        exact h₂.offer _ harc hv
      · exact (hle _).trans (h.le _ e he hout (Or.inr ⟨hin, rfl⟩))
  · have hout : v ∉ l := fun hin => hv (List.mem_cons_of_mem u hin)
    rcases Int.lt_or_eq_of_le (h₂.le v) with hlt₂ | heq₂
    · obtain ⟨-, e, harc, hfar, hw⟩ := h₂.source v hlt₂
      obtain ⟨i, rfl, hnear, hdst, hsrc⟩ := exists_edge hu harc
      exact ⟨i, mem_nodeEdges.mpr ⟨hsrc, hdst⟩,
        Or.inr ⟨List.mem_cons.mpr (Or.inl hnear), hfar⟩, hw⟩
    · rw [heq₂] at hlt ⊢
      rcases Int.lt_or_eq_of_le (h₁.le v) with hlt₁ | heq₁
      · obtain ⟨-, e, harc, hfar, hw⟩ := h₁.source v hlt₁
        obtain ⟨i, rfl, hnear, hsrc, hdst⟩ := exists_edge hu harc
        exact ⟨i, mem_nodeEdges.mpr ⟨hsrc, hdst⟩,
          Or.inl ⟨List.mem_cons.mpr (Or.inl hnear), hfar⟩, hw⟩
      · rw [heq₁] at hlt ⊢
        obtain ⟨e, he, hlead, hw⟩ := h.offered v hout h0 hlt
        exact ⟨e, he, hlead.cons u, hw⟩

/-! ## The turns -/

/-- The tree has grown to these nodes, or has none yet. -/
structure Growing (nn : Nat) (es : List Edge) (l : List Nat) (D : Nat → Int)
    (s : Nat × Graph.Prim) : Prop where
  hold : LabelsHold nn D s.2.best
  marks : MarksHold nn l s.2.inTree
  offers : Offers nn es l D
  iter : l.length = s.1
  added : s.2.added = l.length
  nodup : l.Nodup
  nodes : ∀ x ∈ l, x < nn
  fits : ∀ l' t', PrimTree nn es l' t' → l'.length ≤ l.length → FitsInt64 t'
  tree : l = [] ∧ s.2.total = 0 ∧ D = Function.update (fun _ => Graph.infinity) 0 0 ∨
    PrimTree nn es l s.2.total

/-- The tree has grown as far as it does. -/
structure FullyGrown (nn : Nat) (es : List Edge) (l : List Nat) (s : Graph.Prim) : Prop where
  added : s.added = l.length
  nodup : l.Nodup
  nodes : ∀ x ∈ l, x < nn
  tree : PrimTree nn es l s.total
  fits : ∀ l' t', PrimTree nn es l' t' → l'.length ≤ l.length → FitsInt64 t'
  closed : ∀ v e, e ∈ nodeEdges nn es → v ∉ l → LeadsTo (edgeEnds es) l v e →
    Graph.infinity ≤ edgeCost es e

namespace Growing

variable {iter : Nat} {s : Graph.Prim}

/-- The node of the least label is the next of the tree. -/
theorem next (h : Growing nn es l D (iter, s)) (hu : u < nn) (hout : u ∉ l)
    (hlt : D u < Graph.infinity)
    (hleast : ∀ v < nn, v ∉ l → D u < D v ∨ D u = D v ∧ u ≤ v) :
    PrimTree nn es (u :: l) (s.total + D u) := by
  rcases h.tree with ⟨rfl, htotal, rfl⟩ | htree
  · have hzero : u = 0 := by
      by_contra hne
      rw [Function.update_of_ne hne] at hlt
      exact absurd hlt (Int.lt_irrefl _)
    subst hzero
    rw [Function.update_self, show s.total = 0 from htotal]
    exact Grown.root
  · refine htree.next ⟨hout, hlt, ?_, fun v e he hv hlead => ?_⟩
    · refine h.offers.offered u hout ?_ hlt
      rintro rfl
      exact hout htree.root_mem
    · have hle := h.offers.le v e he hv hlead
      have hmin := hleast v (leadsTo_lt he hlead) hv
      omega

/-- Where no label is left below the greatest, the tree has grown as far as it does. -/
theorem finish (h : Growing nn es l D (iter, s)) (hnodes : 0 < nn)
    (hall : ∀ v < nn, v ∉ l → Graph.infinity ≤ D v) : FullyGrown nn es l s := by
  refine ⟨h.added, h.nodup, h.nodes, h.tree.resolve_left ?_, h.fits, fun v e he hv hlead => ?_⟩
  · rintro ⟨rfl, -, rfl⟩
    have hzero := hall 0 hnodes List.not_mem_nil
    rw [Function.update_self] at hzero
    exact absurd hzero (by decide)
  · exact (hall v (leadsTo_lt he hlead) hv).trans (h.offers.le v e he hv hlead)

/-- One turn adds the next node, or ends, or the sum does not fit. -/
theorem turn {c r : Csr} (hforward : Adjacency nn Edge.src Edge.dst es c)
    (hbackward : Adjacency nn Edge.dst Edge.src es r) (h : Growing nn es l D (iter, s))
    (hiter : iter < nn) :
    (∃ l' D' s', Graph.primTurn nn c r (iter, s) = .done (.inl (iter + 1, s')) ∧
        Growing nn es l' D' (iter + 1, s')) ∨
      (Graph.primTurn nn c r (iter, s) = .done (.inr s) ∧ FullyGrown nn es l s) ∨
      Graph.primTurn nn c r (iter, s) = .stuck ∧ ¬ PrimSumsFit nn es := by
  obtain ⟨p, hpick, hp⟩ := h.hold.pick h.marks
  dsimp only at hpick
  unfold Graph.primTurn
  simp only
  rw [if_pos hiter, hpick, Outcome.done_bind]
  rcases hp with ⟨hnone, hall⟩ | ⟨u, rfl, hu, hout, hlt, hleast⟩
  · obtain ⟨p₁, best⟩ := p
    obtain rfl : p₁ = none := hnone
    exact Or.inr (Or.inl ⟨rfl, h.finish (by omega) hall⟩)
  · have htree := h.next hu hout hlt hleast
    obtain ⟨inTree', hwrite, hmarks'⟩ := h.marks.settle hu
    dsimp only at hwrite
    simp only
    rw [hwrite, Outcome.done_bind]
    by_cases hfits : FitsInt64 (s.total + D u)
    · rw [show Graph.int64 _ = _ from if_pos hfits, Outcome.pure_eq, Outcome.done_bind]
      obtain ⟨best₁, hrow₁, D₁, hold₁, himproved₁⟩ :=
        LabelsHold.improve_row hforward hu h.hold hmarks'
      obtain ⟨best₂, hrow₂, D₂, hold₂, himproved₂⟩ :=
        LabelsHold.improve_row hbackward hu hold₁ hmarks'
      dsimp only at hrow₁
      rw [hrow₁, Outcome.done_bind, hrow₂, Outcome.done_bind]
      have hcount := h.iter
      have hadded := h.added
      dsimp only at hcount hadded
      refine Or.inl ⟨u :: l, D₂, _, rfl, hold₂, hmarks', h.offers.add hu himproved₁ himproved₂,
        ?_, ?_, List.nodup_cons.mpr ⟨hout, h.nodup⟩, fun x hx => ?_, fun l' t' htree' hle => ?_,
        Or.inr htree⟩
      · rw [List.length_cons, hcount]
      · dsimp only
        rw [List.length_cons, hadded]
      · rcases List.mem_cons.mp hx with rfl | hx
        · exact hu
        · exact h.nodes x hx
      · rcases Nat.lt_or_eq_of_le hle with hless | heq
        · exact h.fits l' t' htree' (Nat.le_of_lt_succ hless)
        · rw [(htree'.unique htree heq).2]
          exact hfits
    · rw [show Graph.int64 _ = _ from if_neg hfits, Outcome.stuck_bind]
      exact Or.inr (Or.inr ⟨rfl, fun hall => hfits (hall _ _ htree)⟩)

end Growing

namespace FullyGrown

variable {s : Graph.Prim}

theorem sums (h : FullyGrown nn es l s) : PrimSumsFit nn es := by
  intro l' t' htree
  refine h.fits l' t' htree (h.tree.stops (fun u w hnext => ?_) htree)
  obtain ⟨e, he, hlead, hw⟩ := hnext.edge
  have hge := h.closed u e he hnext.outside hlead
  have hlt := hnext.below
  omega

/-- The answer is right where lighter edges connect the nodes, if they are connected. -/
theorem answer (h : FullyGrown nn es l s) (hnodes : 0 < nn) :
    MstWeight nn es (if s.added = nn then some s.total else none) ↔
      (NodesConnected nn es → ConnectedBelow nn es) := by
  obtain ⟨F, hF, hsum, hbelow, hinside, hconn⟩ := h.tree.forest
  obtain ⟨M, hM, hFM⟩ := id hF
  have hsub : F ⊆ nodeEdges nn es := hFM.trans hM.forest.subset
  by_cases hall : s.added = nn
  · have hmem : ∀ x, x < nn → x ∈ l := by
      intro x hx
      by_contra hout
      have hle := nodup_length_le (List.nodup_cons.mpr ⟨hout, h.nodup⟩)
        (fun y hy => (List.mem_cons.mp hy).elim (fun heq => heq ▸ hx) (h.nodes y))
      have hlen := h.added
      rw [List.length_cons] at hle
      omega
    have hequiv := connects_equivalence (edgeEnds es) F
    have hboth : ∀ x y, x < nn → y < nn → Connects (edgeEnds es) F x y := fun x y hx hy =>
      hequiv.trans (hequiv.symm (hconn x (hmem x hx))) (hconn y (hmem y hy))
    rw [if_pos hall]
    refine iff_of_true ⟨by omega, fun x y hx hy => (hboth x y hx hy).mono hsub, F,
      hF.minimum (spans_of_connects hboth), hsum.symm⟩ fun _ x y hx hy => ?_
    exact (hboth x y hx hy).mono fun f hf => Finset.mem_filter.mpr ⟨hsub hf, hbelow f hf⟩
  · have hnot : ¬ ConnectedBelow nn es := by
      intro hlight
      obtain ⟨x, hx, hout⟩ : ∃ x, x < nn ∧ x ∉ l := by
        by_contra hno
        have hrange : List.range nn ⊆ l := fun x hx => by
          by_contra hout
          exact hno ⟨x, List.mem_range.mp hx, hout⟩
        have hle := (List.subperm_of_subset List.nodup_range hrange).length_le
        have hle' := nodup_length_le h.nodup h.nodes
        have hlen := h.added
        rw [List.length_range] at hle
        omega
      obtain ⟨e, he, hcross⟩ := (hlight 0 x hnodes hx).crosses (· ∈ l) h.tree.root_mem hout
      obtain ⟨hedge, hcost⟩ := Finset.mem_filter.mp he
      obtain ⟨v, hv, hlead⟩ := leadsTo_of_cross hcross
      have hge := h.closed v e hedge hv hlead
      omega
    rw [if_neg hall]
    constructor
    · rintro (hzero | hno) hconn
      · omega
      · exact absurd hconn hno
    · exact fun himp => Or.inr fun hconn => hnot (himp hconn)

end FullyGrown

/-- The loop ends with a tree that is fully grown, or a sum does not fit. -/
theorem prim_loop {c r : Csr} {s : Graph.Prim} (hforward : Adjacency nn Edge.src Edge.dst es c)
    (hbackward : Adjacency nn Edge.dst Edge.src es r) (hnodes : 0 < nn)
    (hs : Growing nn es [] D (0, s)) :
    (∃ s', Outcome.loop (Graph.primTurn nn c r) (nn + 1) (0, s) = .done s' ∧
        ∃ l, FullyGrown nn es l s') ∨
      Outcome.loop (Graph.primTurn nn c r) (nn + 1) (0, s) = .stuck ∧ ¬ PrimSumsFit nn es := by
  refine Outcome.loop_of_measure_or_stuck (fun x => ∃ l D, Growing nn es l D x)
    (fun x => nn - x.1) (by dsimp only; omega) ⟨[], D, hs⟩ ?_
  rintro ⟨iter, s⟩ ⟨l, D, h⟩
  by_cases hiter : iter < nn
  · rcases h.turn hforward hbackward hiter with ⟨l', D', s', hrun, h'⟩ | ⟨hrun, h'⟩ | hstuck
    · exact Or.inl ⟨_, hrun, ⟨l', D', h'⟩, by dsimp only; omega⟩
    · exact Or.inr (Or.inl ⟨s, hrun, l, h'⟩)
    · exact Or.inr (Or.inr hstuck)
  · refine Or.inr (Or.inl ⟨s, ?_, l, h.finish hnodes fun v hv hout => ?_⟩)
    · unfold Graph.primTurn
      simp only [if_neg hiter, Outcome.pure_eq]
    · have hle := nodup_length_le (List.nodup_cons.mpr ⟨hout, h.nodup⟩)
        (fun y hy => (List.mem_cons.mp hy).elim (fun heq => heq ▸ hv) (h.nodes y))
      have hcount := h.iter
      rw [List.length_cons] at hle
      dsimp only at hcount
      omega

/-! ## The reverse cache -/

namespace GraphFits

variable {g g' : Graph} {t : Nat × List Edge} {heap : Nat → Bool}

theorem backward_done (h : GraphFits g t) (hnodes : t.1 ≠ 0) {x : Csr × Graph}
    (hrun : g.backward heap = .done x) :
    Adjacency t.1 Edge.dst Edge.src t.2 x.1 ∧ CacheFits t Edge.dst ∧ x.2.numNodes = t.1 := by
  obtain ⟨g₁, hbuild, hrun⟩ := Outcome.bind_eq_done hrun
  obtain ⟨hfits, hsome, -⟩ := h.buildRevCsrIfNeeded hbuild
  obtain ⟨c, hc⟩ := hsome (by rw [h.holds.nodes]; exact hnodes)
  simp only [hc] at hrun
  cases hrun
  exact ⟨hfits.holds.rev c hc, hfits.rev (by rw [hc]; rfl), hfits.holds.nodes⟩

/-- Two graphs with the same edges ask for the same memory. -/
theorem refused_congr (h : GraphFits g t) (h' : GraphFits g' t) :
    Graph.cacheRefused heap g.numNodes g.numEdges g.edgeDst ↔
      Graph.cacheRefused heap g'.numNodes g'.numEdges g'.edgeDst := by
  unfold Graph.cacheRefused
  rw [h.holds.edges, h'.holds.edges, take_keys h.holds.dst, take_keys h'.holds.dst, h.holds.nodes,
    h'.holds.nodes]

/-- The reverse cache, for offsets that fit. -/
theorem backward_returns (h : GraphFits g t) (heap : Nat → Bool) (hnodes : t.1 ≠ 0)
    (hc : Countable t.1 (t.2.map Edge.dst)) :
    (g.backward heap).Returns (Graph.cacheRefused heap g.numNodes g.numEdges g.edgeDst)
      fun x => Adjacency t.1 Edge.dst Edge.src t.2 x.1 ∧ x.2.numNodes = t.1 := by
  have hok : Countable g.numNodes (g.edgeDst.toList.take g.numEdges) := by
    rw [h.holds.nodes, h.holds.edges, take_keys h.holds.dst]
    exact hc
  obtain ⟨hrun, href⟩ | ⟨g', c, hrun, -, hadj, -⟩ :=
    h.holds.buildRevCsrIfNeeded heap (by rw [h.holds.nodes]; exact hnodes) hok
  · refine Or.inl ⟨?_, href⟩
    unfold Graph.backward
    rw [hrun, Outcome.aborted_bind]
  · have hbackward : g.backward heap = .done (c, g') := by
      unfold Graph.backward
      rw [hrun, Outcome.done_bind]
      simp only [hadj, Outcome.pure_eq]
    obtain ⟨hadj, -, hsame⟩ := h.backward_done hnodes hbackward
    exact Or.inr ⟨_, hbackward, hadj, hsame⟩

/-- Nothing that is asked for must be refused. -/
theorem not_refused_dst (h : GraphFits g t) (hc : CacheFits t Edge.dst) :
    ¬ Graph.cacheRefused (fun _ => true) g.numNodes g.numEdges g.edgeDst := by
  intro href
  have htotal := hc.1.edges
  have hbytes := hc.2
  unfold Graph.cacheRefused at href
  rw [h.holds.edges, take_keys h.holds.dst, h.holds.nodes] at href
  dsimp only at href
  rw [malloc_granted hbytes, malloc_granted (by omega), malloc_granted (by omega),
    malloc_granted (by omega)] at href
  simp at href

/-- Where the forward cache has its memory, the reverse one has too. -/
theorem backward_ne_aborted (h : GraphFits g t) (hnodes : t.1 ≠ 0)
    (hbytes : (t.1 + 1) * 4 < 2 ^ 63) : g.backward (fun _ => true) ≠ .aborted := by
  intro hrun
  have hsmall : ¬ Countable t.1 (t.2.map Edge.dst) := by
    intro hc
    obtain ⟨-, href⟩ | ⟨x, hrun', -⟩ := h.backward_returns (fun _ => true) hnodes hc
    · exact h.not_refused_dst ⟨hc, hbytes⟩ href
    · rw [hrun] at hrun'
      cases hrun'
  rcases Outcome.bind_eq_aborted hrun with hrun | ⟨g₁, -, hrun⟩
  · unfold Graph.buildRevCsrIfNeeded at hrun
    split at hrun
    · cases hrun
    · rcases Outcome.bind_eq_aborted hrun with hrun | ⟨c, -, hrun⟩
      · rw [h.holds.edges] at hrun
        rcases unallocatable_of_aborted h.holds.dst hrun with ⟨-, hno⟩ | ⟨hc, -⟩
        · rw [h.holds.nodes] at hno
          omega
        · rw [h.holds.nodes] at hc
          exact hsmall hc
      · cases hrun
  · split at hrun <;> cases hrun

end GraphFits

/-! ## The calls -/

/-- The memory that is asked for to run Prim's algorithm is refused. -/
def primRefused (heap : Nat → Bool) (g : Graph) : Prop :=
  Graph.cacheRefused heap g.numNodes g.numEdges g.edgeSrc ∨
    Graph.cacheRefused heap g.numNodes g.numEdges g.edgeDst ∨
    malloc heap (g.numNodes * 8) = false ∨ malloc heap g.numNodes = false

/-- What Prim's algorithm does with both caches. -/
def primAfterCaches (heap : Nat → Bool) (c : Csr) (x : Csr × Graph) :
    Outcome (Option Int × Graph) := do
  let inTree ← Graph.allocateZeroed heap x.2.numNodes 1 false
  let best ← Graph.allocate heap x.2.numNodes 8 0
  let best ← Graph.distances x.2.numNodes 0 best
  let s ← Outcome.loop (Graph.primTurn x.2.numNodes c x.1) (x.2.numNodes + 1)
    (0, ⟨inTree, best, 0, 0⟩)
  pure (if s.added = x.2.numNodes then some s.total else none, x.2)

section

variable {g : Graph} {x : Csr × Graph} {heap : Nat → Bool} {c : Csr}

theorem prim_call (hnodes : g.numNodes ≠ 0) (heap : Nat → Bool) :
    g.mstPrim heap = g.forward heap >>= fun x => x.2.backward heap >>=
      primAfterCaches heap x.1 := by
  unfold Graph.mstPrim
  rw [beq_false_of_ne hnodes, if_neg Bool.false_ne_true]
  rfl

/-- The labels before the first turn. -/
theorem Growing.start {best : Array Int} {inTree : Array Bool} (hsize : inTree.size = nn)
    (hmarks : ∀ v, v < nn → inTree[v]? = some false)
    (hold : LabelsHold nn (Function.update (fun _ => Graph.infinity) 0 0) best) :
    Growing nn es [] (Function.update (fun _ => Graph.infinity) 0 0) (0, ⟨inTree, best, 0, 0⟩) := by
  refine ⟨hold, ⟨hsize, fun v hv => by simpa using hmarks v hv⟩, ⟨fun v => ?_, ?_, ?_⟩, rfl, rfl,
    List.nodup_nil, nofun, fun l' t' htree hle => ?_, Or.inl ⟨rfl, rfl, rfl⟩⟩
  · by_cases hv : v = 0
    · rw [hv, Function.update_self]
      decide
    · rw [Function.update_of_ne hv]
  · rintro v e - - (⟨hin, -⟩ | ⟨hin, -⟩)
    · exact absurd hin List.not_mem_nil
    · exact absurd hin List.not_mem_nil
  · intro v _ h0 hlt
    rw [Function.update_of_ne h0] at hlt
    exact absurd hlt (Int.lt_irrefl _)
  · have hpos := htree.length_pos
    rw [List.length_nil] at hle
    omega

/-- Prim's algorithm with its memory granted. -/
theorem prim_granted (hgrant : arraysGranted heap nn) (hnodes : 0 < nn)
    (hbytes : nn * 8 < 2 ^ 64) (hx : x.2.numNodes = nn)
    (hforward : Adjacency nn Edge.src Edge.dst es c)
    (hbackward : Adjacency nn Edge.dst Edge.src es x.1) :
    (∃ r, primAfterCaches heap c x = .done (r, x.2) ∧ PrimSumsFit nn es ∧
        (MstWeight nn es r ↔ (NodesConnected nn es → ConnectedBelow nn es))) ∨
      primAfterCaches heap c x = .stuck ∧ ¬ PrimSumsFit nn es := by
  have halloc : Graph.allocate heap nn 8 (0 : Int) = .done (Array.replicate nn 0) := by
    unfold Graph.allocate
    rw [Nat.mod_eq_of_lt hbytes, if_pos hgrant.1, Nat.mul_div_cancel _ (by decide),
      Outcome.pure_eq]
  obtain ⟨best, hdistances, hold⟩ := LabelsHold.initial
    (Array.size_replicate (n := nn) (v := (0 : Int))) hnodes
  have hstart : Growing nn es [] _ (0, ⟨Array.replicate nn false, best, 0, 0⟩) :=
    Growing.start (Array.size_replicate ..)
      (fun v hv => by rw [Array.getElem?_replicate, if_pos hv]) hold
  unfold primAfterCaches Graph.allocateZeroed
  rw [hx, Nat.mul_one, if_pos hgrant.2, Outcome.pure_eq, Outcome.done_bind, halloc,
    Outcome.done_bind, hdistances, Outcome.done_bind]
  rcases prim_loop hforward hbackward hnodes hstart with ⟨s, hrun, l, hgrown⟩ | ⟨hrun, hno⟩
  · exact Or.inl ⟨_, by rw [hrun]; rfl, hgrown.sums, hgrown.answer hnodes⟩
  · exact Or.inr ⟨by rw [hrun]; rfl, hno⟩

theorem prim_aborted (hgrant : ¬ arraysGranted heap nn) (hbytes : nn * 8 < 2 ^ 64)
    (hx : x.2.numNodes = nn) : primAfterCaches heap c x = .aborted := by
  unfold primAfterCaches Graph.allocateZeroed Graph.allocate
  rw [hx, Nat.mul_one, Nat.mod_eq_of_lt hbytes]
  cases hmarks : malloc heap nn with
  | false => rfl
  | true =>
    cases hlabels : malloc heap (nn * 8) with
    | false => rfl
    | true => exact absurd ⟨hlabels, hmarks⟩ hgrant

end

section

variable {g : Graph} {n : Int64} {added : List (Int64 × Int64 × Int64)}

/-- Prim's algorithm on a graph that has nodes. -/
theorem prim_of_nodes_iff {t : Nat × List Edge} (hg : GraphFits g t) (hnodes : t.1 ≠ 0) :
    (∀ heap, (g.mstPrim heap).Returns (primRefused heap g) fun y => MstWeight t.1 t.2 y.1) ↔
      Unallocatable t.1 ∨ Countable t.1 (t.2.map Edge.src) ∧
        Countable t.1 (t.2.map Edge.dst) ∧
          (2 ^ 60 ≤ t.1 ∨ PrimSumsFit t.1 t.2 ∧
            (NodesConnected t.1 t.2 → ConnectedBelow t.1 t.2)) := by
  have hnn := hg.holds.nodes
  simp only [prim_call (g := g) (by rw [hnn]; exact hnodes)]
  refine hg.returns_forward_iff hnodes (fun heap href => Or.inl href) ?_ ?_
  · rintro ⟨hc, hQ⟩ heap x hx
    have hbytes := hx.cache.2
    have hreason : Graph.cacheRefused heap x.2.numNodes x.2.numEdges x.2.edgeDst →
        primRefused heap g := fun href =>
      Or.inr (Or.inl ((hx.fits.refused_congr hg).mp href))
    obtain ⟨hrun, href⟩ | ⟨y, hrun, hadj, hy⟩ := hx.fits.backward_returns heap hnodes hc
    · exact Or.inl ⟨by rw [hrun, Outcome.aborted_bind], hreason href⟩
    · rw [hrun, Outcome.done_bind]
      by_cases hgrant : arraysGranted heap t.1
      · obtain ⟨hfit, hbelow⟩ := hQ.resolve_left fun hlarge => not_arraysGranted heap hlarge hgrant
        rcases prim_granted hgrant (by omega) (by omega) hy hx.adjacency hadj with
          ⟨r, hdone, -, hr⟩ | ⟨-, hno⟩
        · exact Or.inr ⟨_, hdone, hr.mpr hbelow⟩
        · exact absurd hfit hno
      · refine Or.inl ⟨prim_aborted hgrant (by omega) hy, ?_⟩
        unfold arraysGranted at hgrant
        rw [not_and_or, Bool.not_eq_true, Bool.not_eq_true, ← hnn] at hgrant
        exact Or.inr (Or.inr hgrant)
  · intro x hx hreturns
    have hbytes := hx.cache.2
    cases hrun : x.2.backward fun _ => true with
    | aborted => exact absurd hrun (hx.fits.backward_ne_aborted hnodes hbytes)
    | stuck =>
      rw [hrun] at hreturns
      obtain ⟨hno, -⟩ | ⟨y, hno, -⟩ := hreturns <;> cases hno
    | done y =>
      obtain ⟨hadj, hc, hy⟩ := hx.fits.backward_done hnodes hrun
      refine ⟨hc.1, ?_⟩
      by_cases hlarge : 2 ^ 60 ≤ t.1
      · exact Or.inl hlarge
      · rw [hrun, Outcome.done_bind] at hreturns
        have hgrant : arraysGranted (fun _ => true) t.1 :=
          ⟨malloc_granted (by omega), malloc_granted (by omega)⟩
        rcases prim_granted hgrant (by omega) (by omega) hy hx.adjacency hadj with
          ⟨r, hdone, hfit, hr⟩ | ⟨hstuck, -⟩
        · obtain ⟨hno, -⟩ | ⟨z, hdone', hz⟩ := hreturns
          · rw [hdone] at hno
            cases hno
          · rw [hdone] at hdone'
            cases hdone'
            exact Or.inr ⟨hfit, hr.mp hz⟩
        · obtain ⟨hno, -⟩ | ⟨z, hno, -⟩ := hreturns
          · rw [hstuck] at hno
            cases hno
          · rw [hstuck] at hno
            cases hno

/-- Prim's algorithm gives the weight of a minimum spanning tree, exactly where the offsets of the
caches fit, the sums fit, and edges lighter than `0x7fffffffffffffff` connect the nodes if they are
connected. -/
theorem prim_iff (hg : GraphFits g (nn, es)) :
    (∀ heap, (g.mstPrim heap).Returns (primRefused heap g) fun y => MstWeight nn es y.1) ↔
      nn = 0 ∨ Unallocatable nn ∨ Countable nn (es.map Edge.src) ∧
        Countable nn (es.map Edge.dst) ∧
          (2 ^ 60 ≤ nn ∨ PrimSumsFit nn es ∧ (NodesConnected nn es → ConnectedBelow nn es)) := by
  by_cases hzero : nn = 0
  · refine iff_of_true (fun heap => ?_) (Or.inl hzero)
    unfold Graph.mstPrim
    rw [show g.numNodes = nn from hg.holds.nodes, hzero]
    exact .of_done (Or.inl rfl)
  · exact (prim_of_nodes_iff hg hzero).trans (or_iff_right hzero).symm

/-! ## Agreement -/

theorem exists_mstWeight (nn : Nat) (es : List Edge) : ∃ r, MstWeight nn es r := by
  by_cases hconn : nn ≠ 0 ∧ NodesConnected nn es
  · obtain ⟨M, hM⟩ := exists_minimumForest (edgeEnds es) (edgeCost es) (nodeEdges nn es)
    exact ⟨some _, hconn.1, hconn.2, M, hM, rfl⟩
  · refine ⟨none, ?_⟩
    by_cases hzero : nn = 0
    · exact Or.inl hzero
    · exact Or.inr fun hno => hconn ⟨hzero, hno⟩

theorem MstWeight.unique {r r' : Option Int} (h : MstWeight nn es r) (h' : MstWeight nn es r') :
    r = r' := by
  cases r with
  | none =>
    cases r' with
    | none => rfl
    | some w =>
      rcases h with hzero | hno
      · exact absurd hzero h'.1
      · exact absurd h'.2.1 hno
  | some w =>
    cases r' with
    | none =>
      rcases h' with hzero | hno
      · exact absurd hzero h.1
      · exact absurd h.2.1 hno
    | some w' =>
      obtain ⟨-, -, M, hM, rfl⟩ := h
      obtain ⟨-, -, M', hM', rfl⟩ := h'
      rw [hM.sum_eq hM']

theorem mstWeight_one (es : List Edge) : MstWeight 1 es (some 0) := by
  refine ⟨by decide, fun x y hx hy => ?_, ∅, ?_, rfl⟩
  · obtain rfl : x = y := by omega
    exact (connects_equivalence _ _).refl x
  · refine (extendable_empty _ _ _).minimum fun e he => connects_empty.mpr ?_
    obtain ⟨h₁, h₂⟩ := edgeEnds_lt he
    omega

/-- Kruskal's algorithm gives the weight of a minimum spanning tree exactly where the array of the
parents fits and the sums do. -/
theorem kruskal_iff (hg : GraphHolds g (nn, es)) (hbytes : es.length * 8 < 2 ^ 63) :
    (∀ heap, (g.mstKruskal heap).Returns (kruskalRefused heap g) (MstWeight nn es)) ↔
      nn ≤ 1 ∨ 2 ^ 63 ≤ nn * 8 % 2 ^ 64 ∨ nn < 2 ^ 60 ∧ KruskalSumsFit nn es := by
  have hnn : g.numNodes = nn := hg.nodes
  have hne : g.numEdges = es.length := hg.edges
  by_cases hfew : nn ≤ 1
  · refine iff_of_true (fun heap => ?_) (Or.inl hfew)
    unfold Graph.mstKruskal
    rw [hnn]
    obtain rfl | rfl : nn = 0 ∨ nn = 1 := by omega
    · exact .of_done (Or.inl rfl)
    · exact .of_done (mstWeight_one es)
  by_cases hrefuse : 2 ^ 63 ≤ nn * 8 % 2 ^ 64
  · refine iff_of_true (fun heap => Or.inl ?_) (Or.inr (Or.inl hrefuse))
    have href : kruskalRefused heap g := by
      rcases malloc_cases heap (nn * 8) with hno | ⟨-, hlt⟩
      · exact Or.inr (by rw [hnn]; exact hno)
      · omega
    exact ⟨kruskal_aborted hg hbytes (by omega) (Or.inr hrefuse) href, href⟩
  by_cases hsmall : nn < 2 ^ 60
  · constructor
    · intro hall
      have hgrant : ¬ kruskalRefused (fun _ => true) g := by
        unfold kruskalRefused
        rw [hnn, hne, malloc_granted (indexBytes_lt hbytes), malloc_granted (by omega)]
        simp
      refine Or.inr (Or.inr ⟨hsmall, ?_⟩)
      rcases kruskal_granted hg hbytes (by omega) hsmall hgrant with ⟨-, -, hfit, -⟩ | ⟨hno, -⟩
      · exact hfit
      · obtain ⟨hstuck, -⟩ | ⟨r, hstuck, -⟩ := hall fun _ => true
        · rw [hno] at hstuck
          cases hstuck
        · rw [hno] at hstuck
          cases hstuck
    · intro hQ heap
      have hfit : KruskalSumsFit nn es := ((hQ.resolve_left hfew).resolve_left hrefuse).2
      by_cases href : kruskalRefused heap g
      · exact Or.inl ⟨kruskal_aborted hg hbytes (by omega) (Or.inl hsmall) href, href⟩
      · rcases kruskal_granted hg hbytes (by omega) hsmall href with ⟨r, hrun, -, hr⟩ | ⟨-, hno⟩
        · exact Or.inr ⟨r, hrun, hr⟩
        · exact absurd hfit hno
  · refine iff_of_false (fun hall => ?_) (by omega)
    have hstuck := kruskal_overruns hg hbytes (by omega) (by omega)
    obtain ⟨hno, -⟩ | ⟨r, hno, -⟩ := hall fun _ => true
    · rw [hstuck] at hno
      cases hno
    · rw [hstuck] at hno
      cases hno

/-- Kruskal's and Prim's algorithm give one answer, the weight of a minimum spanning tree or
`None` where the nodes are not connected, for every graph that calls have built, exactly where the
sums both take fit, the nodes, if they are connected, are so by edges that weigh less than
`0x7fffffffffffffff`, and the offsets of the caches and the array of the parents fit (or no memory
is ever granted for so many nodes). Source: backend_c.rs:2932-3029 -/
theorem mst_agree_iff (hg : Built n added g) :
    (∃ r, MstWeight n.toInt.toNat (added.map narrow) r ∧
      ∀ heap, (g.mstKruskal heap).Returns (kruskalRefused heap g) (· = r) ∧
        (g.mstPrim heap).Returns (primRefused heap g) fun y => y.1 = r) ↔
      (n.toInt.toNat ≤ 1 ∨ 2 ^ 63 ≤ n.toInt.toNat * 8 % 2 ^ 64 ∨
        n.toInt.toNat < 2 ^ 60 ∧ KruskalSumsFit n.toInt.toNat (added.map narrow)) ∧
      (n.toInt.toNat = 0 ∨ Unallocatable n.toInt.toNat ∨
        Countable n.toInt.toNat ((added.map narrow).map Edge.src) ∧
          Countable n.toInt.toNat ((added.map narrow).map Edge.dst) ∧
            (2 ^ 60 ≤ n.toInt.toNat ∨ PrimSumsFit n.toInt.toNat (added.map narrow) ∧
              (NodesConnected n.toInt.toNat (added.map narrow) →
                ConnectedBelow n.toInt.toNat (added.map narrow)))) := by
  have hfits := hg.fits
  rw [← kruskal_iff hfits.holds hg.edges_lt, ← prim_iff hfits]
  constructor
  · rintro ⟨r, hr, hall⟩
    refine ⟨fun heap => (hall heap).1.mono ?_, fun heap => (hall heap).2.mono ?_⟩
    · rintro _ rfl
      exact hr
    · rintro y rfl
      exact hr
  · rintro ⟨hkruskal, hprim⟩
    obtain ⟨r, hr⟩ := exists_mstWeight n.toInt.toNat (added.map narrow)
    exact ⟨r, hr, fun heap => ⟨(hkruskal heap).mono fun _ h => h.unique hr,
      (hprim heap).mono fun _ h => h.unique hr⟩⟩

end

/-! ## One edge between two nodes -/

theorem fits_two {w : Int64} (F : Finset (Fin ([(0, 1, w)].map narrow).length)) :
    FitsInt64 (F.sum (edgeCost ([(0, 1, w)].map narrow))) := by
  have hw := w.toInt_lt
  have hw' := w.le_toInt
  rcases Finset.subset_singleton_iff.mp
    (show F ⊆ {⟨0, Nat.one_pos⟩} from fun i _ => Finset.mem_singleton.mpr (Fin.ext (by
      have hlt : i.val < 1 := i.isLt
      simp only
      omega))) with rfl | rfl
  · rw [Finset.sum_empty]
    exact ⟨by decide, by decide⟩
  · rw [Finset.sum_singleton]
    exact ⟨hw', hw⟩

theorem connected_two {w : Int64} (hw : w.toInt < Graph.infinity) :
    ConnectedBelow 2 ([(0, 1, w)].map narrow) := by
  have hequiv := connects_equivalence (edgeEnds ([(0, 1, w)].map narrow))
    ((nodeEdges 2 ([(0, 1, w)].map narrow)).filter fun e =>
      edgeCost ([(0, 1, w)].map narrow) e < Graph.infinity)
  have hedge : Connects (edgeEnds ([(0, 1, w)].map narrow))
      ((nodeEdges 2 ([(0, 1, w)].map narrow)).filter fun e =>
        edgeCost ([(0, 1, w)].map narrow) e < Graph.infinity) 0 1 := by
    refine connects_of_mem (e := (⟨0, Nat.one_pos⟩ : Fin ([(0, 1, w)].map narrow).length)) (Finset.mem_filter.mpr
      ⟨mem_nodeEdges.mpr ⟨?_, ?_⟩, hw⟩)
    · exact show Graph.IsNode 2 (0 : Int64).toInt32 by decide
    · exact show Graph.IsNode 2 (1 : Int64).toInt32 by decide
  intro x y hx hy
  obtain rfl | rfl : x = 0 ∨ x = 1 := by omega
  · obtain rfl | rfl : y = 0 ∨ y = 1 := by omega
    · exact hequiv.refl 0
    · exact hedge
  · obtain rfl | rfl : y = 0 ∨ y = 1 := by omega
    · exact hequiv.symm hedge
    · exact hequiv.refl 1

/-- An edge of weight 5. -/
theorem mst_agree_two : ∃ g, Built 2 [(0, 1, 5)] g ∧
    ∃ r, MstWeight 2 ([(0, 1, 5)].map narrow) r ∧
      ∀ heap, (g.mstKruskal heap).Returns (kruskalRefused heap g) (· = r) ∧
        (g.mstPrim heap).Returns (primRefused heap g) fun y => y.1 = r := by
  have hg : Built 2 [(0, 1, 5)] _ := (Built.new 2).call
    (show Graph.step (Graph.new 2) (.addEdge 0 1 5, fun _ => true) = .done _ from rfl)
  refine ⟨_, hg, (mst_agree_iff hg).mpr ⟨Or.inr (Or.inr ⟨by decide, fun P _ => fits_two _⟩),
    Or.inr (Or.inr ⟨?_, ?_, Or.inr ⟨fun l t htree => ?_, fun _ => ?_⟩⟩)⟩⟩
  · exact countable_single (by decide) (by decide)
  · exact countable_single (by decide) (by decide)
  · obtain ⟨F, -, rfl, -⟩ := htree.forest
    exact fits_two F
  · exact connected_two (by decide)

theorem not_agree {g g' : Graph} {w : Int} (heap : Nat → Bool)
    (hkruskal : g.mstKruskal heap = .done (some w)) (hprim : g.mstPrim heap = .done (none, g')) :
    ¬ ∃ r, ∀ heap, (g.mstKruskal heap).Returns (kruskalRefused heap g) (· = r) ∧
      (g.mstPrim heap).Returns (primRefused heap g) fun y => y.1 = r := by
  rintro ⟨r, hall⟩
  obtain ⟨hk, hp⟩ := hall heap
  rw [hkruskal] at hk
  rw [hprim] at hp
  obtain ⟨hno, -⟩ | ⟨x, hx, rfl⟩ := hk
  · cases hno
  · obtain ⟨hno, -⟩ | ⟨y, hy, hyx⟩ := hp
    · cases hno
    · cases hx
      cases hy
      cases hyx

/-- An edge of the greatest weight: Kruskal's algorithm takes it, Prim's does not. -/
theorem mst_disagree : ∃ g g' : Graph, Built 2 [(0, 1, 9223372036854775807)] g ∧
    FitsInt64 (Finset.univ.sum (edgeCost ([(0, 1, 9223372036854775807)].map narrow))) ∧
    g.mstKruskal (fun _ => true) = .done (some 9223372036854775807) ∧
    g.mstPrim (fun _ => true) = .done (none, g') ∧
    ¬ ∃ r, ∀ heap, (g.mstKruskal heap).Returns (kruskalRefused heap g) (· = r) ∧
      (g.mstPrim heap).Returns (primRefused heap g) fun y => y.1 = r := by
  have hg : Built 2 [(0, 1, 9223372036854775807)] _ := (Built.new 2).call
    (show Graph.step (Graph.new 2) (.addEdge 0 1 9223372036854775807, fun _ => true) = .done _
      from rfl)
  exact ⟨_, _, hg, fits_two _, rfl, rfl, not_agree (fun _ => true) rfl rfl⟩

end Vani.Analysis
