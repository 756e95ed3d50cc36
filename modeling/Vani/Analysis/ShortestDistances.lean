import Vani.Analysis.GraphBuilt
import Vani.Library.ShortestPaths

/-!
# Dijkstra's algorithm finds the distance

The scan of a turn finds the node outside the settled ones whose label is least, and the pass
over its neighbours relaxes its arcs. The labels stay at the weights of walks, or at
`0x7fffffffffffffff`, so a node to which no shorter walk leads is given as one that cannot be
reached.
-/

set_option autoImplicit false

namespace Vani.Analysis

open Vani.Library Vani.Backend

variable {nn : Nat} {es : List Edge} {D : Nat → Int} {dist : Array Int} {done : Array Bool}
  {settled : List Nat} {u v : Nat}

/-- The nodes to which edges lead from a node, with the weights of the edges. -/
def neighbours (nn : Nat) (es : List Edge) (u : Nat) : List (Nat × Int) :=
  (arcs nn Edge.src Edge.dst es u).map fun e => (e.dst.toInt.toNat, e.weight.toInt)

theorem lt_of_mem_neighbours {a : Nat × Int} (h : a ∈ neighbours nn es u) : a.1 < nn := by
  obtain ⟨e, he, rfl⟩ := List.mem_map.mp h
  exact toNat_lt_of_isNode (mem_arcs.mp he).2.2

/-- The array has the label of each node; no other number has one. -/
structure LabelsHold (nn : Nat) (D : Nat → Int) (dist : Array Int) : Prop where
  size : dist.size = nn
  label : ∀ v, v < nn → dist[v]? = some (D v)
  outside : ∀ v, nn ≤ v → D v = Graph.infinity

/-- The marks are of the settled nodes. -/
structure MarksHold (nn : Nat) (settled : List Nat) (done : Array Bool) : Prop where
  size : done.size = nn
  mark : ∀ v, v < nn → done[v]? = some (decide (v ∈ settled))

theorem MarksHold.settle (h : MarksHold nn settled done) (hu : u < nn) :
    ∃ done', Outcome.write done u true = .done done' ∧ MarksHold nn (u :: settled) done' := by
  obtain ⟨done', hwrite, hsize, hat, hne⟩ := Outcome.write_ok (a := done) (i := u)
    (by rw [h.size]; exact hu) true
  refine ⟨done', hwrite, hsize.trans h.size, fun v hv => ?_⟩
  by_cases hvu : v = u
  · subst hvu
    rw [hat, decide_eq_true List.mem_cons_self]
  · rw [hne v hvu, h.mark v hv]
    simp [hvu]

namespace LabelsHold

/-- The labels before the first turn. -/
theorem initial {src : Nat} (hsize : dist.size = nn) (hsrc : src < nn) :
    ∃ dist', Graph.distances nn src dist = .done dist' ∧
      LabelsHold nn (Function.update (fun _ => Graph.infinity) src 0) dist' := by
  obtain ⟨dist₁, hfill, hsize₁, hall⟩ := Outcome.forRange_of_step (n := nn) (s := dist)
    (f := fun i a => Outcome.write a i Graph.infinity)
    (fun i a => a.size = nn ∧ ∀ v, v < i → a[v]? = some Graph.infinity) ⟨hsize, nofun⟩ (by
      rintro i a hi ⟨ha, hbefore⟩
      obtain ⟨a', hwrite, hsize', hat, hne⟩ := Outcome.write_ok (a := a) (i := i) (by omega)
        Graph.infinity
      refine ⟨a', hwrite, hsize'.trans ha, fun v hv => ?_⟩
      by_cases hvi : v = i
      · rw [hvi, hat]
      · rw [hne v hvi]
        exact hbefore v (by omega))
  obtain ⟨dist₂, hwrite, hsize₂, hat, hne⟩ := Outcome.write_ok (a := dist₁) (i := src)
    (by omega) (0 : Int)
  refine ⟨dist₂, ?_, hsize₂.trans hsize₁, fun v hv => ?_, fun v hv => ?_⟩
  · unfold Graph.distances
    rw [hfill, Outcome.done_bind]
    exact hwrite
  · by_cases hvs : v = src
    · rw [hvs, hat, Function.update_self]
    · rw [hne v hvs, hall v hv, Function.update_of_ne hvs]
  · exact Function.update_of_ne (by omega) _ _

/-- The scan finds a node outside the settled ones that has the least label, if a label there is
less than the greatest. -/
theorem pick (h : LabelsHold nn D dist) (hmarks : MarksHold nn settled done) :
    ∃ p, Outcome.forRange (Graph.pickUnless done dist) nn (none, Graph.infinity) = .done p ∧
      (p.1 = none ∧ (∀ v < nn, v ∉ settled → Graph.infinity ≤ D v) ∨
        ∃ u, p = (some u, D u) ∧ u < nn ∧ u ∉ settled ∧ D u < Graph.infinity ∧
          ∀ v < nn, v ∉ settled → D u < D v ∨ D u = D v ∧ u ≤ v) := by
  refine Outcome.forRange_least D (· ∉ settled) (fun i p hi _ hout hlt => ?_)
    fun i p hi _ hno => ?_
  · unfold Graph.pickUnless
    rw [Outcome.read_of_getElem? (hmarks.mark i hi), Outcome.done_bind, decide_eq_false hout,
      if_neg Bool.false_ne_true, Outcome.read_of_getElem? (h.label i hi), Outcome.done_bind,
      if_pos hlt, Outcome.pure_eq]
  · unfold Graph.pickUnless
    rw [Outcome.read_of_getElem? (hmarks.mark i hi), Outcome.done_bind]
    by_cases hin : i ∈ settled
    · rw [decide_eq_true hin, if_pos rfl, Outcome.pure_eq]
    · rw [decide_eq_false hin, if_neg Bool.false_ne_true,
        Outcome.read_of_getElem? (h.label i hi), Outcome.done_bind,
        if_neg fun hlt => hno ⟨hin, hlt⟩, Outcome.pure_eq]

end LabelsHold

/-! ## Rows -/

section

variable {c : Csr} {best : Int}

theorem int64_of_bounds {x : Int} (h0 : -2 ^ 63 ≤ x) (hlt : x < 2 ^ 63) :
    Graph.int64 x = .done x := if_pos ⟨h0, hlt⟩

/-- One arc is relaxed. -/
theorem LabelsHold.relax (h : LabelsHold nn D dist) {k : Nat} {w : Int64}
    (hweight : c.weight[k]? = some w) (hv : v < nn) (h0 : 0 ≤ best + w.toInt)
    (hfits : best + w.toInt ≤ Graph.infinity) :
    ∃ dist', Graph.relax c best k v dist = .done dist' ∧
      LabelsHold nn (relaxLabel D v (best + w.toInt)) dist' := by
  unfold Graph.infinity at hfits
  unfold Graph.relax relaxLabel
  rw [Outcome.read_of_getElem? hweight, Outcome.done_bind,
    int64_of_bounds (by omega) (by omega), Outcome.done_bind,
    Outcome.read_of_getElem? (h.label v hv), Outcome.done_bind]
  by_cases hlt : best + w.toInt < D v
  · rw [if_pos hlt, if_pos hlt]
    obtain ⟨dist', hwrite, hsize, hat, hne⟩ := Outcome.write_ok (a := dist) (i := v)
      (by rw [h.size]; exact hv) (best + w.toInt)
    refine ⟨dist', hwrite, hsize.trans h.size, fun x hx => ?_, fun x hx => ?_⟩
    · by_cases hxv : x = v
      · rw [hxv, hat, Function.update_self]
      · rw [hne x hxv, h.label x hx, Function.update_of_ne hxv]
    · rw [Function.update_of_ne (by omega)]
      exact h.outside x hx
  · rw [if_neg hlt, if_neg hlt]
    exact ⟨dist, rfl, h⟩

variable (best) in
/-- The arcs of a node are relaxed one after the other; what each of them keeps holds at the
end. -/
theorem LabelsHold.relax_row (hadj : Adjacency nn Edge.src Edge.dst es c) (hu : u < nn)
    (h : LabelsHold nn D dist) (Q : List (Nat × Int) → (Nat → Int) → Prop) (hinit : Q [] D)
    (hstep : ∀ taken a D, a ∈ neighbours nn es u → Q taken D →
      (0 ≤ best + a.2 ∧ best + a.2 ≤ Graph.infinity) ∧
        Q (taken ++ [a]) (relaxLabel D a.1 (best + a.2))) :
    ∃ dist', Graph.forNeighbours nn c u (Graph.relax c best) dist = .done dist' ∧
      ∃ D', LabelsHold nn D' dist' ∧ Q (neighbours nn es u) D' := by
  refine hadj.forNeighbours_ok hu (fun taken dist => ∃ D', LabelsHold nn D' dist ∧
    Q (taken.map fun e => (e.dst.toInt.toNat, e.weight.toInt)) D') ⟨D, h, hinit⟩ ?_
  rintro taken e k dist hpre hweight ⟨D', hdist, hQ⟩
  have hmem : e ∈ arcs nn Edge.src Edge.dst es u :=
    hpre.subset (List.mem_append_right _ (List.mem_singleton_self e))
  obtain ⟨⟨h0, hfits⟩, hQ'⟩ := hstep _ (e.dst.toInt.toNat, e.weight.toInt) D'
    (List.mem_map_of_mem hmem) hQ
  obtain ⟨dist', hrun, hdist'⟩ := hdist.relax hweight
    (toNat_lt_of_isNode (mem_arcs.mp hmem).2.2) h0 hfits
  refine ⟨dist', hrun, _, hdist', ?_⟩
  rw [List.map_append]
  exact hQ'

/-- Every sum that is taken along a walk that leaves no node twice fits. -/
def SumsFit (arcs : Nat → List (Nat × Int)) (src : Nat) : Prop :=
  ∀ l w v, Walk arcs src l w v → l.Nodup → w ≤ Graph.infinity

/-- The labels that a node to be settled has its arcs relaxed in are the weights of walks. -/
theorem relax_fits {src : Nat} {a : Nat × Int} (hsums : SumsFit (neighbours nn es) src)
    (hlabels : Labels (neighbours nn es) src Graph.infinity settled D) (hu : D u < Graph.infinity)
    (ha : a ∈ neighbours nn es u) : D u + a.2 ≤ Graph.infinity := by
  obtain ⟨l, hwalk, hnodup⟩ := hlabels.walk_concat hu ha
  exact hsums _ _ _ hwalk hnodup

/-! ## The loop -/

/-- The labels, where none of a walk to the target is less than the target's. -/
structure Final (nn : Nat) (es : List Edge) (src dst : Nat) (dist : Array Int)
    (settled : List Nat) (D : Nat → Int) : Prop where
  hold : LabelsHold nn D dist
  labels : Labels (neighbours nn es) src Graph.infinity settled D
  least : ∀ l w, Walk (neighbours nn es) src l w dst → D dst ≤ w

/-- Nodes are settled one after the other, the target not yet. -/
structure Turning (nn : Nat) (es : List Edge) (src dst : Nat) (settled : List Nat) (D : Nat → Int)
    (s : Nat × Array Int × Array Bool) : Prop where
  hold : LabelsHold nn D s.2.1
  marks : MarksHold nn settled s.2.2
  labels : Labels (neighbours nn es) src Graph.infinity settled D
  nodup : settled.Nodup
  nodes : ∀ x ∈ settled, x < nn
  count : settled.length = s.1
  target : dst ∉ settled

namespace Turning

variable {src dst : Nat} {s : Nat × Array Int × Array Bool}

/-- Some node, the target at least, is not settled. -/
theorem lt (h : Turning nn es src dst settled D s) (hdst : dst < nn) : s.1 < nn := by
  have hle := nodup_length_le (List.nodup_cons.mpr ⟨h.target, h.nodup⟩)
    (fun x hx => (List.mem_cons.mp hx).elim (fun heq => heq ▸ hdst) (h.nodes x))
  have hcount := h.count
  rw [List.length_cons] at hle
  omega

/-- The next node is settled. -/
theorem settle {iter : Nat} {dist dist' : Array Int} {done done' : Array Bool} {D' : Nat → Int}
    (h : Turning nn es src dst settled D (iter, dist, done)) (hu : u < nn) (hout : u ∉ settled)
    (hne : u ≠ dst) (hold : LabelsHold nn D' dist') (hmarks : MarksHold nn (u :: settled) done')
    (hlabels : Labels (neighbours nn es) src Graph.infinity (u :: settled) D') :
    Turning nn es src dst (u :: settled) D' (iter + 1, dist', done') := by
  refine ⟨hold, hmarks, hlabels, List.nodup_cons.mpr ⟨hout, h.nodup⟩, fun x hx => ?_, ?_,
    fun hin => (List.mem_cons.mp hin).elim (fun heq => hne heq.symm) h.target⟩
  · rcases List.mem_cons.mp hx with rfl | hx
    · exact hu
    · exact h.nodes x hx
  · rw [List.length_cons, h.count]

end Turning

/-- What the turns of Dijkstra's algorithm come to. -/
theorem dijkstra_loop {src dst : Nat} (hadj : Adjacency nn Edge.src Edge.dst es c)
    (hnonneg : ∀ x, ∀ a ∈ neighbours nn es x, 0 ≤ a.2) (hsums : SumsFit (neighbours nn es) src)
    (hdst : dst < nn) {s : Nat × Array Int × Array Bool} (hs : Turning nn es src dst [] D s) :
    ∃ dist, Outcome.loop (Graph.dijkstraTurn nn c dst) (nn + 1) s = .done dist ∧
      ∃ settled D, Final nn es src dst dist settled D := by
  refine Outcome.loop_of_measure
    (fun s => ∃ settled D, Turning nn es src dst settled D s ∧
      Settling (neighbours nn es) settled D)
    (fun s => nn - s.1) (by omega) ⟨[], D, hs, nofun, nofun⟩ ?_
  rintro ⟨iter, dist, done⟩ ⟨settled, D, h, hsettling⟩
  have hinf := h.labels.le_inf
  have hfinal : ∀ b : Int, (∀ y, y ∉ settled → b ≤ D y) → D dst ≤ b →
      Final nn es src dst dist settled D := by
    intro b hb hle
    refine ⟨h.hold, h.labels, fun l w hwalk => ?_⟩
    rcases hsettling.cut hnonneg h.labels.start hb hwalk with ⟨hin, -⟩ | hbw
    · exact absurd hin h.target
    · omega
  have hiter : iter < nn := h.lt hdst
  obtain ⟨p, hpick, hp⟩ := h.hold.pick h.marks
  unfold Graph.dijkstraTurn
  simp only
  rw [if_pos hiter, hpick, Outcome.done_bind]
  rcases hp with ⟨hnone, hleast⟩ | ⟨u, rfl, hu, hout, hlt, hleast⟩
  · obtain ⟨p₁, best⟩ := p
    obtain rfl : p₁ = none := hnone
    refine Or.inr ⟨dist, rfl, settled, D, hfinal Graph.infinity (fun y hy => ?_) (hinf dst)⟩
    by_cases hyn : y < nn
    · exact hleast y hyn hy
    · rw [h.hold.outside y (by omega)]
  · have hleast' : ∀ y, y ∉ settled → D u ≤ D y := fun y hy => by
      by_cases hyn : y < nn
      · have hle := hleast y hyn hy
        omega
      · rw [h.hold.outside y (by omega)]
        exact hinf u
    obtain ⟨done', hwrite, hmarks'⟩ := h.marks.settle hu
    simp only
    rw [if_neg (by omega), hwrite, Outcome.done_bind]
    by_cases htarget : u = dst
    · subst htarget
      exact Or.inr ⟨dist, if_pos rfl, settled, D, hfinal (D u) hleast' (Int.le_refl _)⟩
    · -- the label of the node that is settled stays while its arcs are relaxed
      obtain ⟨dist', hrow, D', hold', hlabels', hrelaxing, -⟩ :=
        LabelsHold.relax_row (D u) hadj hu h.hold
          (fun taken D' => Labels (neighbours nn es) src Graph.infinity (u :: settled) D' ∧
            Relaxing (neighbours nn es) (u :: settled) u taken D' ∧ D' u = D u)
          ⟨h.labels.settle u, hsettling.settle hout hleast', rfl⟩ (by
            rintro taken ⟨v, w⟩ D' ha ⟨hlabels', hrelaxing, hsame⟩
            have hw : 0 ≤ w := hnonneg u _ ha
            have hu0 := hlabels'.nonneg hnonneg (by decide) u
            have hfits := relax_fits hsums hlabels' (by omega) ha
            have hstep := hrelaxing.step (v := v) hw
            have hnext := hlabels'.relax hnonneg List.mem_cons_self (by omega) ha
            rw [hsame] at hfits hstep hnext hu0
            exact ⟨⟨by simp only; omega, hfits⟩, hnext, hstep.1, hstep.2⟩)
      refine Or.inl ⟨(iter + 1, dist', done'), ?_, ⟨u :: settled, D',
        h.settle hu hout htarget hold' hmarks' hlabels', hrelaxing.finish⟩, by simp only; omega⟩
      rw [if_neg htarget, hrow]
      rfl

end

/-! ## The call -/

/-- The memory that is asked for to find a distance is refused. -/
def distanceRefused (heap : Nat → Bool) (g : Graph) : Prop :=
  Graph.cacheRefused heap g.numNodes g.numEdges g.edgeSrc ∨
    malloc heap (g.numNodes * 8) = false ∨ malloc heap g.numNodes = false

/-- A loop over the labels and the marks. -/
abbrev LabelLoop := Nat → Csr → Nat × Array Int × Array Bool → Outcome (Array Int)

/-- What the search for a distance does with the cache: its arrays, its loop, the label found. -/
def distanceAfterCache (run : LabelLoop) (src dst : Nat) (heap : Nat → Bool) (x : Csr × Graph) :
    Outcome (Option Int × Graph) := do
  let dist ← Graph.allocate heap x.2.numNodes 8 0
  let done ← Graph.allocateZeroed heap x.2.numNodes 1 false
  let dist ← Graph.distances x.2.numNodes src dist
  let dist ← run x.2.numNodes x.1 (0, dist, done)
  let r ← Graph.distanceTo dist dst
  pure (r, x.2)

/-- The state before the first turn. -/
structure Starting (nn src : Nat) (s : Nat × Array Int × Array Bool) : Prop where
  hold : LabelsHold nn (Function.update (fun _ => Graph.infinity) src 0) s.2.1
  marks : MarksHold nn [] s.2.2
  count : s.1 = 0

section

variable {g : Graph} {t : Nat × List Edge} {x : Csr × Graph} {run : LabelLoop} {src dst : Nat}

/-- The label found is the distance, where it is below the greatest. -/
theorem Final.answer (h : Final nn es src dst dist settled D) (hdst : dst < nn) :
    ∃ r, Graph.distanceTo dist dst = .done r ∧
      ShortestBelow (neighbours nn es) Graph.infinity src dst r := by
  unfold Graph.distanceTo
  rw [Outcome.read_of_getElem? (h.hold.label dst hdst), Outcome.done_bind]
  refine ⟨_, rfl, ?_⟩
  have hinf := h.labels.le_inf dst
  by_cases heq : D dst = Graph.infinity
  · rw [if_pos heq]
    intro l w hwalk
    rw [← heq]
    exact h.least l w hwalk
  · rw [if_neg heq]
    obtain ⟨l, hwalk, -⟩ := h.labels.found dst (by omega)
    exact ⟨by omega, ⟨l, hwalk⟩, h.least⟩

/-- The memory for the arrays is granted. -/
def arraysGranted (heap : Nat → Bool) (nn : Nat) : Prop :=
  malloc heap (nn * 8) = true ∧ malloc heap nn = true

theorem distanceAfterCache_done {heap : Nat → Bool} (hgrant : arraysGranted heap t.1)
    (hx : Cached t x) (hsrc : src < t.1) (hdst : dst < t.1)
    (hrun : ∀ s, Starting t.1 src s →
      ∃ dist, run t.1 x.1 s = .done dist ∧ ∃ settled D, Final t.1 t.2 src dst dist settled D) :
    ∃ r, distanceAfterCache run src dst heap x = .done (r, x.2) ∧
      ShortestBelow (neighbours t.1 t.2) Graph.infinity src dst r := by
  have hbytes := hx.cache.2
  have halloc : Graph.allocate heap t.1 8 (0 : Int) = .done (Array.replicate t.1 0) := by
    unfold Graph.allocate
    rw [Nat.mod_eq_of_lt (by omega), if_pos hgrant.1, Nat.mul_div_cancel _ (by decide),
      Outcome.pure_eq]
  have hsize : (Array.replicate t.1 (0 : Int)).size = t.1 := Array.size_replicate ..
  obtain ⟨dist, hdistances, hold⟩ := LabelsHold.initial hsize hsrc
  have hstart : Starting t.1 src (0, dist, Array.replicate t.1 false) := by
    refine ⟨hold, ⟨Array.size_replicate .., fun v hv => ?_⟩, rfl⟩
    rw [Array.getElem?_replicate, if_pos hv]
    simp
  obtain ⟨dist', hloop, closed, D, hfinal⟩ := hrun _ hstart
  obtain ⟨r, hanswer, hr⟩ := hfinal.answer hdst
  refine ⟨r, ?_, hr⟩
  unfold distanceAfterCache Graph.allocateZeroed
  rw [hx.numNodes, Nat.mul_one, halloc, Outcome.done_bind, if_pos hgrant.2, Outcome.pure_eq,
    Outcome.done_bind, hdistances, Outcome.done_bind, hloop, Outcome.done_bind, hanswer]
  rfl

theorem distanceAfterCache_aborted {heap : Nat → Bool} (hgrant : ¬ arraysGranted heap t.1)
    (hx : Cached t x) : distanceAfterCache run src dst heap x = .aborted := by
  have hbytes := hx.cache.2
  unfold distanceAfterCache Graph.allocateZeroed Graph.allocate
  rw [hx.numNodes, Nat.mul_one, Nat.mod_eq_of_lt (show t.1 * 8 < 2 ^ 64 by omega)]
  cases hdist : malloc heap (t.1 * 8) with
  | false => rfl
  | true =>
    cases hdone : malloc heap t.1 with
    | false => rfl
    | true => exact absurd ⟨hdist, hdone⟩ hgrant

/-- So many labels of eight bytes are never granted. -/
theorem not_arraysGranted (heap : Nat → Bool) {nn : Nat} (hlarge : 2 ^ 60 ≤ nn) :
    ¬ arraysGranted heap nn := by
  rintro ⟨hgrant, -⟩
  rcases malloc_cases heap (nn * 8) with hno | ⟨-, hlt⟩
  · rw [hgrant] at hno
    cases hno
  · omega

theorem distanceRefused_of_not (heap : Nat → Bool) (h : ¬ arraysGranted heap g.numNodes) :
    distanceRefused heap g := by
  unfold arraysGranted at h
  rw [not_and_or, Bool.not_eq_true, Bool.not_eq_true] at h
  exact Or.inr h

/-- The loop of a turn of Dijkstra's algorithm. -/
def dijkstraRun (dst : Nat) : LabelLoop := fun nn c s =>
  Outcome.loop (Graph.dijkstraTurn nn c dst) (nn + 1) s

theorem dijkstra_finds {heap : Nat → Bool} (hgrant : arraysGranted heap t.1) (hx : Cached t x)
    (hsrc : src < t.1) (hdst : dst < t.1) (hnonneg : ∀ u, ∀ a ∈ neighbours t.1 t.2 u, 0 ≤ a.2)
    (hsums : SumsFit (neighbours t.1 t.2) src) :
    ∃ r, distanceAfterCache (dijkstraRun dst) src dst heap x = .done (r, x.2) ∧
      ShortestBelow (neighbours t.1 t.2) Graph.infinity src dst r := by
  refine distanceAfterCache_done hgrant hx hsrc hdst fun s hs => ?_
  exact dijkstra_loop hx.adjacency hnonneg hsums hdst ⟨hs.hold, hs.marks,
    Labels.initial _ _ (by decide), List.nodup_nil, nofun, hs.count.symm, nofun⟩

end

/-- The number is a node's. -/
def NodeOf (n x : Int64) : Prop := 0 ≤ x.toInt ∧ x.toInt < n.toInt

theorem NodeOf.lt {n x : Int64} (h : NodeOf n x) : x.toInt.toNat < n.toInt.toNat := by
  obtain ⟨h0, hlt⟩ := h
  omega

theorem distance_guard {n src dst : Int64} {g : Graph} (hnodes : g.numNodes = n.toInt.toNat)
    (hsrc : NodeOf n src) (hdst : NodeOf n dst) :
    (g.numNodes == 0 || g.outside src || g.outside dst) = false := by
  obtain ⟨hsrc0, hsrc⟩ := hsrc
  obtain ⟨hdst0, hdst⟩ := hdst
  unfold Graph.outside
  rw [hnodes]
  simp only [Bool.or_eq_false_iff, beq_eq_false_iff_ne, decide_eq_false_iff_not]
  omega

theorem dijkstra_call {n src dst : Int64} {g : Graph} (hnodes : g.numNodes = n.toInt.toNat)
    (hsrc : NodeOf n src) (hdst : NodeOf n dst) (hne : src ≠ dst) (heap : Nat → Bool) :
    g.dijkstra heap src dst = g.forward heap >>=
      distanceAfterCache (dijkstraRun dst.toInt.toNat) src.toInt.toNat dst.toInt.toNat heap := by
  unfold Graph.dijkstra
  rw [distance_guard hnodes hsrc hdst, if_neg Bool.false_ne_true, if_neg hne]
  rfl

theorem mem_neighbours_two {w : Int64} {a : Nat × Int}
    (h : a ∈ neighbours 2 ([(0, 1, w)].map narrow) u) : u = 0 ∧ a = (1, w.toInt) := by
  obtain ⟨e, he, rfl⟩ := List.mem_map.mp h
  obtain ⟨hmem, hsrc, -⟩ := mem_arcs.mp he
  obtain rfl := List.mem_singleton.mp hmem
  have hzero : (0 : Int) = u := hsrc
  exact ⟨by omega, rfl⟩

theorem neighbours_two (w : Int64) : (1, w.toInt) ∈ neighbours 2 ([(0, 1, w)].map narrow) 0 :=
  List.mem_map.mpr ⟨narrow (0, 1, w), mem_arcs.mpr ⟨List.mem_singleton_self _, rfl,
    show Graph.IsNode 2 (1 : Int64).toInt32 by decide⟩, rfl⟩

theorem walk_two {w : Int64} {l : List Nat} {x : Int}
    (h : Walk (neighbours 2 ([(0, 1, w)].map narrow)) 0 l x v) :
    v = 0 ∧ x = 0 ∨ v = 1 ∧ x = w.toInt := by
  induction h with
  | nil => exact Or.inl ⟨rfl, rfl⟩
  | @concat l x c y z _ harc ih =>
    obtain ⟨rfl, heq⟩ := mem_neighbours_two harc
    rw [Prod.mk.injEq] at heq
    rcases ih with ⟨-, rfl⟩ | ⟨hno, -⟩
    · exact Or.inr ⟨heq.1, by omega⟩
    · cases hno

theorem nonneg_two {w : Int64} (hw : 0 ≤ w.toInt) :
    ∀ u, ∀ a ∈ neighbours 2 ([(0, 1, w)].map narrow) u, 0 ≤ a.2 := by
  intro u a ha
  obtain ⟨-, rfl⟩ := mem_neighbours_two ha
  exact hw

theorem sumsFit_two (w : Int64) : SumsFit (neighbours 2 ([(0, 1, w)].map narrow)) 0 := by
  intro l x v hwalk _
  have hlt := w.toInt_lt
  unfold Graph.infinity
  rcases walk_two hwalk with ⟨-, rfl⟩ | ⟨-, rfl⟩ <;> omega

end Vani.Analysis
