import Vani.Analysis.ShortestDistances
import Vani.Analysis.VecRefines

/-!
# A* finds what Dijkstra's algorithm finds

A* takes out the node with the least estimate, the sum of its label and what the vector has for
it, and takes no node out twice. So a node must not be taken out before its label is its distance.
On a route along which this cannot happen the first node that is not taken out has its distance
as label, and the target's label is its distance at the end. For a vector that is consistent this
is every route.
-/

set_option autoImplicit false

namespace Vani.Analysis

open Vani.Library Vani.Backend

variable {nn src dst : Nat} {es : List Edge} {D H : Nat → Int} {dist : Array Int}
  {done : Array Bool} {closed : List Nat} {u v k : Nat} {p : Nat → Nat} {δ : Nat → Int}

/-- What the vector has for a node. -/
def heuristic (hs : List Int64) (v : Nat) : Int := ((hs[v]?).map Int64.toInt).getD 0

/-- The estimate by which nodes are taken out. Source: backend_c.rs:3059-3063 -/
def estimate (D H : Nat → Int) (v : Nat) : Int :=
  if D v = Graph.infinity then Graph.infinity
  else if Graph.infinity - H v < D v then Graph.infinity else D v + H v

theorem estimate_eq {x : Int} (hlabel : D v = x) (hlt : x + H v < Graph.infinity)
    (hx : x < Graph.infinity) : estimate D H v = x + H v := by
  subst hlabel
  unfold estimate
  rw [if_neg (by omega), if_neg (by omega)]

theorem estimate_lt (h : estimate D H v < Graph.infinity) :
    D v ≠ Graph.infinity ∧ estimate D H v = D v + H v := by
  unfold estimate at h ⊢
  split at h
  · exact absurd h (Int.lt_irrefl _)
  · next hne =>
    split at h
    · exact absurd h (Int.lt_irrefl _)
    · next hroom => exact ⟨hne, by rw [if_neg hne, if_neg hroom]⟩

/-- The scan finds the first of the nodes not taken out that have the least estimate. -/
theorem pick_estimate {h : Vec Int64} {hs : List Int64} (hold : LabelsHold nn D dist)
    (hmarks : MarksHold nn closed done) (hh : Holding 8 h hs) (hlen : hs.length = nn)
    (hD : ∀ v, 0 ≤ D v ∧ D v ≤ Graph.infinity)
    (hroom : ∀ v < nn, D v < Graph.infinity → 0 ≤ heuristic hs v) :
    ∃ p, Outcome.forRange (Graph.pickEstimate done dist h) nn (none, Graph.infinity) = .done p ∧
      (p.1 = none ∧ (∀ v < nn, v ∉ closed → Graph.infinity ≤ estimate D (heuristic hs) v) ∨
        ∃ u, p = (some u, estimate D (heuristic hs) u) ∧ u < nn ∧ u ∉ closed ∧
          estimate D (heuristic hs) u < Graph.infinity ∧
          ∀ v < nn, v ∉ closed → estimate D (heuristic hs) u < estimate D (heuristic hs) v ∨
            estimate D (heuristic hs) u = estimate D (heuristic hs) v ∧ u ≤ v) := by
  have hturn : ∀ i (p : Option Nat × Int), i < nn → p.2 ≤ Graph.infinity → i ∉ closed →
      Graph.pickEstimate done dist h i p =
        .done (if estimate D (heuristic hs) i < p.2 then (some i, estimate D (heuristic hs) i)
          else p) := by
    intro i p hi hp hout
    unfold Graph.pickEstimate estimate
    rw [Outcome.read_of_getElem? (hmarks.mark i hi), Outcome.done_bind, decide_eq_false hout,
      if_neg Bool.false_ne_true, Outcome.read_of_getElem? (hold.label i hi), Outcome.done_bind]
    by_cases hD' : D i = Graph.infinity
    · rw [if_pos hD', if_pos hD', if_neg (by omega), Outcome.pure_eq]
    · have hget : hs[i]? = some hs[i] := List.getElem?_eq_getElem (by omega)
      have hvalue : heuristic hs i = (hs[i]).toInt := by
        unfold heuristic
        rw [hget]
        rfl
      have hload : Vec.load h.data i = .done hs[i] := by
        unfold Vec.load
        rw [Outcome.read_of_getElem? (hh.elem i (by omega)), Outcome.done_bind, hget]
        rfl
      obtain ⟨hD0, hDinf⟩ := hD i
      have h0 := hroom i hi (by omega)
      have hinf : Graph.infinity = 2 ^ 63 - 1 := rfl
      have hbound := (hs[i]).toInt_lt
      rw [if_neg hD', if_neg hD', hload, Outcome.done_bind, ← hvalue,
        int64_of_bounds (by omega) (by omega), Outcome.done_bind]
      by_cases hlarge : Graph.infinity - heuristic hs i < D i
      · rw [if_pos hlarge, if_pos hlarge, Outcome.pure_eq, Outcome.done_bind]
        exact (apply_ite Outcome.done _ _ _).symm
      · rw [if_neg hlarge, if_neg hlarge, int64_of_bounds (by omega) (by omega),
          Outcome.done_bind]
        exact (apply_ite Outcome.done _ _ _).symm
  refine Outcome.forRange_least (estimate D (heuristic hs)) (· ∉ closed)
    (fun i p hi hp hout hlt => ?_) fun i p hi hp hno => ?_
  · rw [hturn i p hi hp hout, if_pos hlt]
  · by_cases hin : i ∈ closed
    · unfold Graph.pickEstimate
      rw [Outcome.read_of_getElem? (hmarks.mark i hi), Outcome.done_bind, decide_eq_true hin,
        if_pos rfl, Outcome.pure_eq]
    · rw [hturn i p hi hp hin, if_neg fun hlt => hno ⟨hin, hlt⟩]

/-! ## Routes on which no node is taken out early -/

/-- While a node of the route is not taken out, none behind it can be with a label above its
distance: no walk there that leaves neither it nor the target, and no node twice, has an estimate
that comes first. -/
def InTime (arcs : Nat → List (Nat × Int)) (src : Nat) (H : Nat → Int) (k : Nat) (p : Nat → Nat)
    (δ : Nat → Int) : Prop :=
  ∀ j i, j < i → i ≤ k → ∀ l w, Walk arcs src l w (p i) → l.Nodup → p i ∉ l → p j ∉ l →
    p k ∉ l → w = δ i ∨ δ j + H (p j) < w + H (p i) ∨
      δ j + H (p j) = w + H (p i) ∧ p j < p i

/-- A node of the route has its distance as label when it is taken out. -/
theorem InTime.exact {arcs : Nat → List (Nat × Int)} {i : Nat} (hintime : InTime arcs src H k p δ)
    (hroute : Route arcs src k p δ) (hnonneg : ∀ x, ∀ a ∈ arcs x, 0 ≤ a.2)
    (hadm : ∀ j ≤ k, H (p j) ≤ δ k - δ j) (hlt : δ k < Graph.infinity)
    (hlabels : Labels arcs src Graph.infinity closed D)
    (hrelaxed : ∀ i < k, p i ∈ closed → D (p (i + 1)) ≤ δ (i + 1)) (hi : i ≤ k)
    (hout : p i ∉ closed) (htarget : p k ∉ closed)
    (hfirst : estimate D H (p i) < Graph.infinity)
    (hleast : ∀ j ≤ k, p j ∉ closed → estimate D H (p i) < estimate D H (p j) ∨
      estimate D H (p i) = estimate D H (p j) ∧ p i ≤ p j) : D (p i) = δ i := by
  obtain ⟨j, hji, hjout, hlabel⟩ := hroute.frontier hnonneg hlt hlabels hrelaxed hi hout
  have hjlt := hroute.below hnonneg (i := j) (by omega) hlt
  have hj := estimate_eq (H := H) hlabel (by have hle := hadm j (by omega); omega) hjlt
  obtain ⟨hne, heq⟩ := estimate_lt hfirst
  have hle := hleast j (by omega) hjout
  have hinf := hlabels.le_inf (p i)
  obtain ⟨l, hwalk, hnodup, hself, hclosed⟩ := hlabels.found (p i) (by omega)
  have hnot : ∀ x, x ∉ closed → x ∉ l := fun x hx hin => hx (hclosed x hin).1
  by_cases hlast : j = i
  · rw [← hlast]
    exact hlabel
  · rcases hintime j i (by omega) hi l _ hwalk hnodup hself (hnot _ hjout) (hnot _ htarget) with
      hw | hw | ⟨hw, hindex⟩
    · exact hw
    · omega
    · omega

/-- Where what the vector has falls by at most the weight of each arc, no node is taken out
early. -/
theorem InTime.of_consistent {arcs : Nat → List (Nat × Int)} (hroute : Route arcs src k p δ)
    (hconsistent : ∀ x, ∀ a ∈ arcs x, H x ≤ a.2 + H a.1) : InTime arcs src H k p δ := by
  intro j i hji hi l w hwalk _ _ _ _
  have hfall : ∀ m, j ≤ m → m ≤ k → δ j + H (p j) ≤ δ m + H (p m) := by
    intro m hjm
    induction m, hjm using Nat.le_induction with
    | base => exact fun _ => Int.le_refl _
    | succ m _ ih =>
      intro hm
      obtain ⟨c, harc, hδ⟩ := hroute.arc m (by omega)
      have hle := hconsistent _ _ harc
      have hprev := ih (by omega)
      simp only at hle
      omega
  have hle := hfall i (by omega) hi
  have hge := (hroute.shortest i hi).2 l w hwalk
  omega

/-! ## The loop -/

/-- A route to the target on which no node is taken out early. -/
structure GoodRoute (arcs : Nat → List (Nat × Int)) (src dst : Nat) (H : Nat → Int) (k : Nat)
    (p : Nat → Nat) (δ : Nat → Int) : Prop where
  route : Route arcs src k p δ
  target : p k = dst
  inTime : InTime arcs src H k p δ

/-- The vector has nothing negative for the nodes to which walks lead that do not leave the
target. -/
def EstimatesFit (arcs : Nat → List (Nat × Int)) (src dst : Nat) (H : Nat → Int) : Prop :=
  ∀ l w v, Walk arcs src l w v → dst ∉ l → 0 ≤ H v

/-- What the vector has is at most the weight of a walk from there to the target. -/
def Admissible (nn : Nat) (arcs : Nat → List (Nat × Int)) (dst : Nat) (H : Nat → Int) : Prop :=
  ∀ v < nn, ∀ l w, Walk arcs v l w dst → H v ≤ w

section

variable {c : Csr} {h : Vec Int64} {hs : List Int64}

theorem walk_lt {l : List Nat} {w : Int} (hsrc : src < nn)
    (h : Walk (neighbours nn es) src l w v) : v < nn := by
  cases h with
  | nil => exact hsrc
  | concat _ harc => exact lt_of_mem_neighbours harc

theorem GoodRoute.admissible (h : GoodRoute (neighbours nn es) src dst H k p δ) (hsrc : src < nn)
    (hadm : Admissible nn (neighbours nn es) dst H) : ∀ j ≤ k, H (p j) ≤ δ k - δ j := by
  intro j hj
  obtain ⟨l, hwalk⟩ := (h.route.shortest j hj).1
  obtain ⟨l', hrest⟩ := h.route.rest hj (Nat.le_refl k)
  rw [h.target] at hrest
  exact hadm _ (walk_lt hsrc hwalk) l' _ hrest

/-- A node is taken out: the arcs of the route from it are relaxed, if its label is its
distance. -/
theorem relax_route (hadj : Adjacency nn Edge.src Edge.dst es c)
    (hnonneg : ∀ x, ∀ a ∈ neighbours nn es x, 0 ≤ a.2) (hsums : SumsFit (neighbours nn es) src)
    (hu : u < nn) (hold : LabelsHold nn D dist)
    (hlabels : Labels (neighbours nn es) src Graph.infinity closed D)
    (hlt : D u < Graph.infinity) :
    ∃ dist', Graph.forNeighbours nn c u (Graph.relax c (D u)) dist = .done dist' ∧
      ∃ D', LabelsHold nn D' dist' ∧
        Labels (neighbours nn es) src Graph.infinity (u :: closed) D' ∧ (∀ x, D' x ≤ D x) ∧
        ∀ a ∈ neighbours nn es u, D' a.1 ≤ D u + a.2 := by
  obtain ⟨dist', hrow, D', hold', hlabels', -, hle, hscanned⟩ :=
    LabelsHold.relax_row (D u) hadj hu hold
      (fun taken D' => Labels (neighbours nn es) src Graph.infinity (u :: closed) D' ∧
        D' u = D u ∧ (∀ x, D' x ≤ D x) ∧ ∀ a ∈ taken, D' a.1 ≤ D u + a.2)
      ⟨hlabels.settle u, rfl, fun _ => Int.le_refl _, nofun⟩ (by
        rintro taken ⟨v, w⟩ D' ha ⟨hlabels', hsame, hle, hscanned⟩
        have hw : 0 ≤ w := hnonneg u _ ha
        have hu0 := hlabels'.nonneg hnonneg (by decide) u
        have hfits := relax_fits hsums hlabels' (by omega) ha
        have hnext := hlabels'.relax hnonneg List.mem_cons_self (by omega) ha
        have hless : ∀ x, relaxLabel D' v (D u + w) x ≤ D' x := relaxLabel_le v (D u + w)
        rw [hsame] at hfits hnext hu0
        refine ⟨⟨by simp only; omega, hfits⟩, hnext, ?_, fun x => (hless x).trans (hle x),
          fun a ha => ?_⟩
        · rw [relaxLabel_of_le (by rw [hsame]; simp only; omega)]
          exact hsame
        · rcases List.mem_append.mp ha with ha | ha
          · exact (hless a.1).trans (hscanned a ha)
          · rw [List.mem_singleton.mp ha]
            exact relaxLabel_self_le v _)
  exact ⟨dist', hrow, D', hold', hlabels', hle, hscanned⟩

variable (k p δ) in
/-- What the turns of A* come to. -/
theorem astar_loop (hadj : Adjacency nn Edge.src Edge.dst es c)
    (hnonneg : ∀ x, ∀ a ∈ neighbours nn es x, 0 ≤ a.2) (hsums : SumsFit (neighbours nn es) src)
    (hsrc : src < nn) (hdst : dst < nn) (hh : Holding 8 h hs) (hlen : hs.length = nn)
    (hadm : Admissible nn (neighbours nn es) dst (heuristic hs))
    (hfits : EstimatesFit (neighbours nn es) src dst (heuristic hs))
    (hgoal : (∀ l w, Walk (neighbours nn es) src l w dst → Graph.infinity ≤ w) ∨
      GoodRoute (neighbours nn es) src dst (heuristic hs) k p δ ∧ δ k < Graph.infinity)
    {s : Nat × Array Int × Array Bool} (hs₀ : Turning nn es src dst [] D s) :
    ∃ dist, Outcome.loop (Graph.astarTurn nn c h dst) (nn + 1) s = .done dist ∧
      ∃ closed D, Final nn es src dst dist closed D := by
  refine Outcome.loop_of_measure
    (fun s => ∃ closed D, Turning nn es src dst closed D s ∧
      ∀ i < k, GoodRoute (neighbours nn es) src dst (heuristic hs) k p δ →
        δ k < Graph.infinity → p i ∈ closed → D (p (i + 1)) ≤ δ (i + 1))
    (fun s => nn - s.1) (by omega) ⟨[], D, hs₀, fun _ _ _ _ hin => by cases hin⟩ ?_
  rintro ⟨iter, dist, done⟩ ⟨closed, D, h₀, hrelaxed⟩
  have hinf := h₀.labels.le_inf
  have hfinal : (GoodRoute (neighbours nn es) src dst (heuristic hs) k p δ →
      δ k < Graph.infinity → D dst = δ k) → Final nn es src dst dist closed D := by
    intro hexact
    refine ⟨h₀.hold, h₀.labels, fun l w hwalk => ?_⟩
    rcases hgoal with hno | ⟨hroute, hlt⟩
    · exact (hinf dst).trans (hno l w hwalk)
    · rw [hexact hroute hlt]
      have hshortest := hroute.route.shortest k (Nat.le_refl k)
      rw [hroute.target] at hshortest
      exact hshortest.2 l w hwalk
  have hroom : ∀ v < nn, D v < Graph.infinity → 0 ≤ heuristic hs v := by
    intro v _ hv
    obtain ⟨l, hwalk, -, -, hclosed⟩ := h₀.labels.found v hv
    exact hfits l _ v hwalk fun hin => h₀.target (hclosed dst hin).1
  have hiter : iter < nn := h₀.lt hdst
  obtain ⟨q, hpick, hq⟩ := pick_estimate h₀.hold h₀.marks hh hlen
    (fun v => ⟨h₀.labels.nonneg hnonneg (by decide) v, hinf v⟩) hroom
  unfold Graph.astarTurn
  simp only
  rw [if_pos hiter, hpick, Outcome.done_bind]
  rcases hq with ⟨hnone, hleast⟩ | ⟨u, rfl, hu, hout, hlt, hleast⟩
  · obtain ⟨q₁, best⟩ := q
    obtain rfl : q₁ = none := hnone
    refine Or.inr ⟨dist, rfl, closed, D, hfinal fun hroute hlt => ?_⟩
    -- the first node of the route that is not taken out has an estimate
    have hout : p k ∉ closed := by rw [hroute.target]; exact h₀.target
    obtain ⟨j, hj, hjout, hlabel⟩ := hroute.route.frontier hnonneg hlt h₀.labels
      (fun i hi => hrelaxed i hi hroute hlt) (Nat.le_refl k) hout
    have hjlt := hroute.route.below hnonneg hj hlt
    have hjadm := hroute.admissible hsrc hadm j hj
    have hest := estimate_eq (H := heuristic hs) hlabel (by omega) hjlt
    have hnode : p j < nn := by
      obtain ⟨l, hwalk⟩ := (hroute.route.shortest j hj).1
      exact walk_lt hsrc hwalk
    have hge := hleast (p j) hnode hjout
    omega
  · obtain ⟨hne, -⟩ := estimate_lt hlt
    have hDu : D u < Graph.infinity := by have hle := hinf u; omega
    have hexact : ∀ i ≤ k, GoodRoute (neighbours nn es) src dst (heuristic hs) k p δ →
        δ k < Graph.infinity → p i = u → D u = δ i := by
      intro i hi hroute hltk heq
      have htarget : p k ∉ closed := by rw [hroute.target]; exact h₀.target
      rw [← heq] at hout hlt hleast ⊢
      refine hroute.inTime.exact hroute.route hnonneg (hroute.admissible hsrc hadm) hltk h₀.labels
        (fun i hi => hrelaxed i hi hroute hltk) hi hout htarget hlt fun j hj hjout => ?_
      obtain ⟨l, hwalk⟩ := (hroute.route.shortest j hj).1
      exact hleast (p j) (walk_lt hsrc hwalk) hjout
    obtain ⟨done', hwrite, hmarks'⟩ := h₀.marks.settle hu
    simp only
    rw [hwrite, Outcome.done_bind]
    by_cases htarget : u = dst
    · refine Or.inr ⟨dist, if_pos htarget, closed, D, hfinal fun hroute hltk => ?_⟩
      rw [← htarget]
      exact hexact k (Nat.le_refl k) hroute hltk (hroute.target.trans htarget.symm)
    · obtain ⟨dist', hrow, D', hold', hlabels', hle, hscanned⟩ :=
        relax_route hadj hnonneg hsums hu h₀.hold h₀.labels hDu
      refine Or.inl ⟨(iter + 1, dist', done'), ?_, ⟨u :: closed, D',
        h₀.settle hu hout htarget hold' hmarks' hlabels', fun i hi hroute hltk hin => ?_⟩,
        by simp only; omega⟩
      · rw [if_neg htarget, Outcome.read_of_getElem? (h₀.hold.label u hu), Outcome.done_bind, hrow]
        rfl
      · rcases List.mem_cons.mp hin with heq | hin
        · obtain ⟨w, harc, hδ⟩ := hroute.route.arc i hi
          rw [heq] at harc
          rw [hδ, ← hexact i (by omega) hroute hltk heq]
          exact hscanned _ harc
        · exact (hle _).trans (hrelaxed i hi hroute hltk hin)

end

/-! ## The call -/

/-- The loop of a turn of A*. -/
def astarRun (h : Vec Int64) (dst : Nat) : LabelLoop := fun nn c s =>
  Outcome.loop (Graph.astarTurn nn c h dst) (nn + 1) s

/-- The target is out of reach, or there is a route to it on which no node is taken out early. -/
def FoundInTime (arcs : Nat → List (Nat × Int)) (src dst : Nat) (H : Nat → Int) : Prop :=
  (∀ l w, Walk arcs src l w dst → Graph.infinity ≤ w) ∨ ∃ k p δ, GoodRoute arcs src dst H k p δ

/-- A vector that is consistent has every target found in time. -/
theorem FoundInTime.of_consistent {arcs : Nat → List (Nat × Int)}
    (hnonneg : ∀ x, ∀ a ∈ arcs x, 0 ≤ a.2) (hconsistent : ∀ x, ∀ a ∈ arcs x, H x ≤ a.2 + H a.1) :
    FoundInTime arcs src dst H := by
  by_cases hwalk : ∃ l w, Walk arcs src l w dst
  · obtain ⟨l, w, hwalk⟩ := hwalk
    obtain ⟨d, hd⟩ := exists_isDistance hnonneg hwalk
    obtain ⟨k, p, δ, hroute, hend, -⟩ := Route.of_isDistance hnonneg hd
    exact Or.inr ⟨k, p, δ, hroute, hend, .of_consistent hroute hconsistent⟩
  · exact Or.inl fun l w h => absurd ⟨l, w, h⟩ hwalk

section

variable {g : Graph} {t : Nat × List Edge} {x : Csr × Graph} {h : Vec Int64} {hs : List Int64}

theorem astar_finds {heap : Nat → Bool} (hgrant : arraysGranted heap t.1) (hx : Cached t x)
    (hsrc : src < t.1) (hdst : dst < t.1) (hh : Holding 8 h hs) (hlen : hs.length = t.1)
    (hnonneg : ∀ u, ∀ a ∈ neighbours t.1 t.2 u, 0 ≤ a.2) (hsums : SumsFit (neighbours t.1 t.2) src)
    (hadm : Admissible t.1 (neighbours t.1 t.2) dst (heuristic hs))
    (hfits : EstimatesFit (neighbours t.1 t.2) src dst (heuristic hs))
    (hfound : FoundInTime (neighbours t.1 t.2) src dst (heuristic hs)) :
    ∃ r, distanceAfterCache (astarRun h dst) src dst heap x = .done (r, x.2) ∧
      ShortestBelow (neighbours t.1 t.2) Graph.infinity src dst r := by
  refine distanceAfterCache_done hgrant hx hsrc hdst fun s hs₀ => ?_
  have hturning : Turning t.1 t.2 src dst [] (Function.update (fun _ => Graph.infinity) src 0) s :=
    ⟨hs₀.hold, hs₀.marks, Labels.initial _ _ (by decide), List.nodup_nil, nofun, hs₀.count.symm,
      nofun⟩
  rcases hfound with hno | ⟨k, p, δ, hroute⟩
  · exact astar_loop 0 id (fun _ => 0) hx.adjacency hnonneg hsums hsrc hdst hh hlen hadm hfits
      (Or.inl hno) hturning
  · refine astar_loop k p δ hx.adjacency hnonneg hsums hsrc hdst hh hlen hadm hfits ?_ hturning
    by_cases hlt : δ k < Graph.infinity
    · exact Or.inr ⟨hroute, hlt⟩
    · have hshortest := hroute.route.shortest k (Nat.le_refl k)
      rw [hroute.target] at hshortest
      exact Or.inl fun l w hwalk => by have hle := hshortest.2 l w hwalk; omega

theorem astar_call {n src dst : Int64} (hnodes : g.numNodes = n.toInt.toNat)
    (hsrc : NodeOf n src) (hdst : NodeOf n dst) (hne : src ≠ dst) (hlen : h.len = g.numNodes)
    (heap : Nat → Bool) :
    g.astar heap src dst h = g.forward heap >>=
      distanceAfterCache (astarRun h dst.toInt.toNat) src.toInt.toNat dst.toInt.toNat heap := by
  unfold Graph.astar
  rw [distance_guard hnodes hsrc hdst, if_neg Bool.false_ne_true, if_neg (by simpa using hlen),
    if_neg hne]
  rfl

end

/-- A short way to node 2 over node 1, for which the vector has the whole distance, and a longer
one past it. -/
def detour : List (Int64 × Int64 × Int64) := [(0, 1, 1), (0, 2, 4), (1, 2, 1), (2, 3, 10)]

theorem detour_arcs {a : Nat × Int} (h : a ∈ neighbours 4 (detour.map narrow) u) :
    u = 0 ∧ (a = (1, 1) ∨ a = (2, 4)) ∨ u = 1 ∧ a = (2, 1) ∨ u = 2 ∧ a = (3, 10) := by
  obtain ⟨e, he, rfl⟩ := List.mem_map.mp h
  obtain ⟨hmem, hsrc, -⟩ := mem_arcs.mp he
  simp only [detour, List.map_cons, List.map_nil, List.mem_cons, List.not_mem_nil, or_false]
    at hmem
  rcases hmem with rfl | rfl | rfl | rfl
  · have hu : (0 : Int) = u := hsrc
    exact Or.inl ⟨by omega, Or.inl rfl⟩
  · have hu : (0 : Int) = u := hsrc
    exact Or.inl ⟨by omega, Or.inr rfl⟩
  · have hu : (1 : Int) = u := hsrc
    exact Or.inr (Or.inl ⟨by omega, rfl⟩)
  · have hu : (2 : Int) = u := hsrc
    exact Or.inr (Or.inr ⟨by omega, rfl⟩)

theorem detour_nonneg : ∀ x, ∀ a ∈ neighbours 4 (detour.map narrow) x, 0 ≤ a.2 := by
  intro x a ha
  rcases detour_arcs ha with ⟨-, rfl | rfl⟩ | ⟨-, rfl⟩ | ⟨-, rfl⟩ <;> decide

theorem detour_walk {l : List Nat} {w : Int}
    (h : Walk (neighbours 4 (detour.map narrow)) 0 l w v) :
    v = 0 ∧ w = 0 ∨ v = 1 ∧ w = 1 ∨ v = 2 ∧ (w = 2 ∨ w = 4) ∨ v = 3 ∧ (w = 12 ∨ w = 14) := by
  induction h with
  | nil => exact Or.inl ⟨rfl, rfl⟩
  | concat _ harc ih =>
    have hcase := detour_arcs harc
    simp only [Prod.mk.injEq] at hcase
    omega

theorem detour_walk_one {l : List Nat} {w : Int}
    (h : Walk (neighbours 4 (detour.map narrow)) 1 l w v) :
    v = 1 ∧ w = 0 ∨ v = 2 ∧ w = 1 ∨ v = 3 ∧ w = 11 := by
  induction h with
  | nil => exact Or.inl ⟨rfl, rfl⟩
  | concat _ harc ih =>
    have hcase := detour_arcs harc
    simp only [Prod.mk.injEq] at hcase
    omega

end Vani.Analysis
