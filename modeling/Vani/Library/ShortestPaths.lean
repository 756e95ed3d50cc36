import Mathlib.Logic.Function.Basic
import Mathlib.Data.List.Nodup
import Mathlib.Data.Nat.Find
import Mathlib.Order.Defs.LinearOrder
import Mathlib.Algebra.Order.Group.Int

/-!
# Distances by relaxation

A graph given by the weighted arcs from each node. Labels are upper bounds of the distances from
a start, each the weight of a walk that leaves no node twice; relaxing an arc keeps this, where
the weights are not negative. Where a set of nodes is settled, so that the labels of their arcs'
ends are relaxed and no label outside is below one of theirs, no walk to a node outside is shorter
than the least label there.
-/

set_option autoImplicit false

namespace Vani.Library

variable {α : Type}

/-- A walk from a start: the nodes it leaves, its weight and its end. -/
inductive Walk (arcs : α → List (α × Int)) (src : α) : List α → Int → α → Prop
  | nil : Walk arcs src [] 0 src
  | concat {l : List α} {w c : Int} {y z : α} :
      Walk arcs src l w y → (z, c) ∈ arcs y → Walk arcs src (l ++ [y]) (w + c) z

/-- The least weight of a walk. -/
def IsDistance (arcs : α → List (α × Int)) (src dst : α) (d : Int) : Prop :=
  (∃ l, Walk arcs src l d dst) ∧ ∀ l w, Walk arcs src l w dst → d ≤ w

variable {arcs : α → List (α × Int)} {src dst u v : α} {inf w c : Int} {l : List α}

theorem Walk.weight_nonneg (hnonneg : ∀ x, ∀ a ∈ arcs x, 0 ≤ a.2) (h : Walk arcs src l w v) :
    0 ≤ w := by
  induction h with
  | nil => exact le_rfl
  | concat _ harc ih =>
    have hc := hnonneg _ _ harc
    simp only at hc
    omega

theorem isDistance_self (hnonneg : ∀ x, ∀ a ∈ arcs x, 0 ≤ a.2) : IsDistance arcs src src 0 :=
  ⟨⟨[], .nil⟩, fun _ _ h => h.weight_nonneg hnonneg⟩

theorem IsDistance.unique {d d' : Int} (h : IsDistance arcs src dst d)
    (h' : IsDistance arcs src dst d') : d = d' := by
  obtain ⟨⟨l, hl⟩, hle⟩ := h
  obtain ⟨⟨l', hl'⟩, hle'⟩ := h'
  exact le_antisymm (hle l' d' hl') (hle' l d hl)

/-- A node to which a walk leads has a distance. -/
theorem exists_isDistance (hnonneg : ∀ x, ∀ a ∈ arcs x, 0 ≤ a.2) (h : Walk arcs src l w v) :
    ∃ d, IsDistance arcs src v d := by
  classical
  have hsome : ∃ n : Nat, ∃ l, Walk arcs src l n v :=
    ⟨w.toNat, l, by rwa [Int.toNat_of_nonneg (h.weight_nonneg hnonneg)]⟩
  refine ⟨Nat.find hsome, Nat.find_spec hsome, fun l' w' hwalk => ?_⟩
  have hw' := hwalk.weight_nonneg hnonneg
  have hle := Nat.find_min' hsome ⟨l', by rwa [Int.toNat_of_nonneg hw']⟩
  omega

/-- The least weight of a walk, where there is one. -/
def Shortest (arcs : α → List (α × Int)) (src dst : α) : Option Int → Prop
  | some d => IsDistance arcs src dst d
  | none => ∀ l w, ¬ Walk arcs src l w dst

/-- The least weight of a walk, where it is below a bound. -/
def ShortestBelow (arcs : α → List (α × Int)) (inf : Int) (src dst : α) : Option Int → Prop
  | some d => d < inf ∧ IsDistance arcs src dst d
  | none => ∀ l w, Walk arcs src l w dst → inf ≤ w

theorem ShortestBelow.unique {r r' : Option Int} (h : ShortestBelow arcs inf src dst r)
    (h' : ShortestBelow arcs inf src dst r') : r = r' := by
  have hone : ∀ {d : Int}, ShortestBelow arcs inf src dst (some d) →
      ShortestBelow arcs inf src dst none → False := by
    rintro d ⟨hlt, ⟨l, hwalk⟩, -⟩ hnone
    have hle := hnone l d hwalk
    omega
  cases r with
  | none =>
    cases r' with
    | none => rfl
    | some d' => exact (hone h' h).elim
  | some d =>
    cases r' with
    | none => exact (hone h h').elim
    | some d' => rw [h.2.unique h'.2]

/-- What is found below a bound is the least weight of all exactly where a walk, if there is one,
is below the bound. -/
theorem ShortestBelow.shortest_iff {r : Option Int} (h : ShortestBelow arcs inf src dst r) :
    Shortest arcs src dst r ↔
      ((∃ l w, Walk arcs src l w dst) → ∃ l w, Walk arcs src l w dst ∧ w < inf) := by
  cases r with
  | none =>
    constructor
    · rintro hno ⟨l, w, hwalk⟩
      exact absurd hwalk (hno l w)
    · intro hbelow l w hwalk
      obtain ⟨l', w', hwalk', hlt⟩ := hbelow ⟨l, w, hwalk⟩
      have hle := h l' w' hwalk'
      omega
  | some d =>
    obtain ⟨hlt, hdist⟩ := h
    obtain ⟨l, hwalk⟩ := hdist.1
    exact ⟨fun _ _ => ⟨l, d, hwalk, hlt⟩, fun _ => hdist⟩

/-- Labels that are weights of walks from settled nodes, or at their greatest value where none was
found; on the way to a node no label is greater than its own. -/
structure Labels (arcs : α → List (α × Int)) (src : α) (inf : Int) (settled : List α)
    (D : α → Int) : Prop where
  start : D src = 0
  le_inf : ∀ v, D v ≤ inf
  found : ∀ v, D v < inf →
    ∃ l, Walk arcs src l (D v) v ∧ l.Nodup ∧ v ∉ l ∧ ∀ x ∈ l, x ∈ settled ∧ D x ≤ D v

variable [DecidableEq α]

/-- The label of a node after an arc to it was relaxed. -/
def relaxLabel (D : α → Int) (v : α) (nd : Int) : α → Int :=
  if nd < D v then Function.update D v nd else D

variable {D : α → Int} {settled : List α}

theorem relaxLabel_le (v : α) (nd : Int) (x : α) : relaxLabel D v nd x ≤ D x := by
  unfold relaxLabel
  split
  · next hlt =>
    by_cases hx : x = v
    · subst hx
      rw [Function.update_self]
      exact le_of_lt hlt
    · rw [Function.update_of_ne hx]
  · exact le_rfl

theorem relaxLabel_self_le (v : α) (nd : Int) : relaxLabel D v nd v ≤ nd := by
  unfold relaxLabel
  split
  · rw [Function.update_self]
  · next hge => exact not_lt.mp hge

theorem relaxLabel_of_le {nd : Int} {x : α} (h : D x ≤ nd) : relaxLabel D v nd x = D x := by
  unfold relaxLabel
  split
  · next hlt =>
    refine Function.update_of_ne ?_ _ _
    rintro rfl
    omega
  · rfl

theorem relaxLabel_eq_or (v : α) (nd : Int) (x : α) :
    relaxLabel D v nd x = D x ∨ x = v ∧ relaxLabel D v nd x = nd ∧ nd < D v := by
  unfold relaxLabel
  split
  · next hlt =>
    by_cases hx : x = v
    · subst hx
      exact Or.inr ⟨rfl, Function.update_self .., hlt⟩
    · exact Or.inl (Function.update_of_ne hx _ _)
  · exact Or.inl rfl

namespace Labels

omit [DecidableEq α] in
theorem nonneg (h : Labels arcs src inf settled D) (hnonneg : ∀ x, ∀ a ∈ arcs x, 0 ≤ a.2)
    (hinf : 0 ≤ inf) (v : α) : 0 ≤ D v := by
  by_cases hv : D v < inf
  · obtain ⟨l, hwalk, -⟩ := h.found v hv
    exact hwalk.weight_nonneg hnonneg
  · omega

/-- The labels before the first arc is relaxed. -/
theorem initial (arcs : α → List (α × Int)) (src : α) (hinf : 0 < inf) :
    Labels arcs src inf [] (Function.update (fun _ => inf) src 0) := by
  refine ⟨Function.update_self .., fun v => ?_, fun v hv => ?_⟩
  · by_cases hv : v = src
    · subst hv
      rw [Function.update_self]
      exact le_of_lt hinf
    · rw [Function.update_of_ne hv]
  · by_cases hvs : v = src
    · subst hvs
      refine ⟨[], ?_, List.nodup_nil, List.not_mem_nil, nofun⟩
      rw [Function.update_self]
      exact .nil
    · rw [Function.update_of_ne hvs] at hv
      exact absurd hv (lt_irrefl _)

omit [DecidableEq α] in
/-- The weight that relaxing an arc compares is the weight of a walk that leaves no node twice. -/
theorem walk_concat (h : Labels arcs src inf settled D) (hu : D u < inf) (harc : (v, c) ∈ arcs u) :
    ∃ l, Walk arcs src l (D u + c) v ∧ l.Nodup := by
  obtain ⟨l, hwalk, hnodup, hmem, -⟩ := h.found u hu
  exact ⟨l ++ [u], hwalk.concat harc, List.Nodup.append hnodup (List.nodup_singleton u)
    (List.disjoint_singleton.mpr hmem)⟩

omit [DecidableEq α] in
theorem settle (h : Labels arcs src inf settled D) (u : α) :
    Labels arcs src inf (u :: settled) D := by
  refine ⟨h.start, h.le_inf, fun v hv => ?_⟩
  obtain ⟨l, hwalk, hnodup, hout, hle⟩ := h.found v hv
  exact ⟨l, hwalk, hnodup, hout, fun x hx => ⟨List.mem_cons_of_mem u (hle x hx).1, (hle x hx).2⟩⟩

/-- Relaxing an arc of a settled node keeps the labels. -/
theorem relax (h : Labels arcs src inf settled D) (hnonneg : ∀ x, ∀ a ∈ arcs x, 0 ≤ a.2)
    (hmem : u ∈ settled) (hu : D u < inf) (harc : (v, c) ∈ arcs u) :
    Labels arcs src inf settled (relaxLabel D v (D u + c)) := by
  have hc : 0 ≤ c := hnonneg u _ harc
  obtain ⟨lu, hwalk, hnodup, hout, hbelow⟩ := h.found u hu
  have hu0 : 0 ≤ D u := hwalk.weight_nonneg hnonneg
  refine ⟨?_, fun x => (relaxLabel_le v _ x).trans (h.le_inf x), fun x hx => ?_⟩
  · rw [relaxLabel_of_le (by rw [h.start]; omega)]
    exact h.start
  · rcases relaxLabel_eq_or (D := D) v (D u + c) x with heq | ⟨rfl, heq, hlt⟩
    · rw [heq] at hx ⊢
      obtain ⟨l, hl, hn, hno, hle⟩ := h.found x hx
      exact ⟨l, hl, hn, hno, fun y hy => ⟨(hle y hy).1, (relaxLabel_le v _ y).trans (hle y hy).2⟩⟩
    · -- the node is not on the way to the one before it, whose labels are not above
      have hxu : x ≠ u := by
        rintro rfl
        omega
      have hxl : x ∉ lu := fun hin => by
        have hle := (hbelow x hin).2
        omega
      rw [heq]
      refine ⟨lu ++ [u], hwalk.concat harc, List.Nodup.append hnodup (List.nodup_singleton u)
        (List.disjoint_singleton.mpr hout), ?_, fun y hy => ?_⟩
      · rw [List.mem_append, List.mem_singleton]
        exact fun hin => hin.elim hxl hxu
      · rcases List.mem_append.mp hy with hy | hy
        · obtain ⟨hin, hle⟩ := hbelow y hy
          exact ⟨hin, (relaxLabel_le x _ y).trans (by omega)⟩
        · rw [List.mem_singleton.mp hy]
          exact ⟨hmem, (relaxLabel_le x _ u).trans (by omega)⟩

end Labels

/-! ## Settled nodes -/

/-- The arcs of the settled nodes are relaxed, and no label outside is below one of theirs. -/
structure Settling (arcs : α → List (α × Int)) (settled : List α) (D : α → Int) : Prop where
  relaxed : ∀ x ∈ settled, ∀ a ∈ arcs x, D a.1 ≤ D x + a.2
  ordered : ∀ x ∈ settled, ∀ y, y ∉ settled → D x ≤ D y

/-- The node settled last, some of whose arcs are relaxed. -/
structure Relaxing (arcs : α → List (α × Int)) (settled : List α) (u : α)
    (taken : List (α × Int)) (D : α → Int) : Prop where
  mem : u ∈ settled
  greatest : ∀ x ∈ settled, D x ≤ D u
  relaxed : ∀ x ∈ settled, x ≠ u → ∀ a ∈ arcs x, D a.1 ≤ D x + a.2
  scanned : ∀ a ∈ taken, D a.1 ≤ D u + a.2
  ordered : ∀ x ∈ settled, ∀ y, y ∉ settled → D x ≤ D y

variable {taken : List (α × Int)}

omit [DecidableEq α] in
/-- No walk to a node that is not settled is shorter than the least label there. -/
theorem Settling.cut {b : Int} (h : Settling arcs settled D)
    (hnonneg : ∀ x, ∀ a ∈ arcs x, 0 ≤ a.2) (hstart : D src = 0)
    (hb : ∀ y, y ∉ settled → b ≤ D y) (hwalk : Walk arcs src l w v) :
    v ∈ settled ∧ D v ≤ w ∨ b ≤ w := by
  have hcase : ∀ {y : α} {x : Int}, D y ≤ x → y ∈ settled ∧ D y ≤ x ∨ b ≤ x := by
    intro y x hle
    by_cases hy : y ∈ settled
    · exact Or.inl ⟨hy, hle⟩
    · exact Or.inr ((hb y hy).trans hle)
  induction hwalk with
  | nil => exact hcase (by rw [hstart])
  | @concat l w c y z _ harc ih =>
    have hc := hnonneg y _ harc
    simp only at hc
    rcases ih with ⟨hy, hle⟩ | hle
    · have hz := h.relaxed y hy _ harc
      simp only at hz
      exact hcase (by omega)
    · exact Or.inr (by omega)

omit [DecidableEq α] in
/-- The node with the least label is settled. -/
theorem Settling.settle (h : Settling arcs settled D) (hu : u ∉ settled)
    (hleast : ∀ y, y ∉ settled → D u ≤ D y) : Relaxing arcs (u :: settled) u [] D := by
  refine ⟨List.mem_cons_self, fun x hx => ?_, fun x hx hxu => ?_, nofun, fun x hx y hy => ?_⟩
  · rcases List.mem_cons.mp hx with rfl | hx
    · exact le_rfl
    · exact h.ordered x hx u hu
  · exact h.relaxed x ((List.mem_cons.mp hx).resolve_left hxu)
  · have hy' : y ∉ settled := fun hin => hy (List.mem_cons_of_mem u hin)
    rcases List.mem_cons.mp hx with rfl | hx
    · exact hleast y hy'
    · exact h.ordered x hx y hy'

namespace Relaxing

/-- An arc is relaxed; the labels of the settled nodes stay. -/
theorem step (h : Relaxing arcs settled u taken D) (hc : 0 ≤ c) :
    Relaxing arcs settled u (taken ++ [(v, c)]) (relaxLabel D v (D u + c)) ∧
      relaxLabel D v (D u + c) u = D u := by
  have hstay : ∀ x ∈ settled, relaxLabel D v (D u + c) x = D x := fun x hx =>
    relaxLabel_of_le (by have hle := h.greatest x hx; omega)
  have hle := relaxLabel_le (D := D) v (D u + c)
  have hu := hstay u h.mem
  refine ⟨⟨h.mem, fun x hx => ?_, fun x hx hxu a ha => ?_, fun a ha => ?_, fun x hx y hy => ?_⟩,
    hu⟩
  · rw [hstay x hx, hu]
    exact h.greatest x hx
  · rw [hstay x hx]
    exact (hle a.1).trans (h.relaxed x hx hxu a ha)
  · rw [hu]
    rcases List.mem_append.mp ha with ha | ha
    · exact (hle a.1).trans (h.scanned a ha)
    · rw [List.mem_singleton.mp ha]
      exact relaxLabel_self_le v _
  · rw [hstay x hx]
    rcases relaxLabel_eq_or (D := D) v (D u + c) y with heq | ⟨-, heq, -⟩
    · rw [heq]
      exact h.ordered x hx y hy
    · have hgreatest := h.greatest x hx
      rw [heq]
      omega

omit [DecidableEq α] in
/-- All arcs of the node are relaxed. -/
theorem finish (h : Relaxing arcs settled u (arcs u) D) : Settling arcs settled D := by
  refine ⟨fun x hx a ha => ?_, h.ordered⟩
  by_cases hxu : x = u
  · subst hxu
    exact h.scanned a ha
  · exact h.relaxed x hx hxu a ha

end Relaxing

/-! ## Routes -/

/-- A way from the start, with the distances of its nodes. -/
structure Route (arcs : α → List (α × Int)) (src : α) (k : Nat) (p : Nat → α) (δ : Nat → Int) :
    Prop where
  start : p 0 = src
  arc : ∀ i < k, ∃ c, (p (i + 1), c) ∈ arcs (p i) ∧ δ (i + 1) = δ i + c
  shortest : ∀ i ≤ k, IsDistance arcs src (p i) (δ i)

omit [DecidableEq α] in
/-- No label is less than the distance. -/
theorem Labels.distance_le {d : Int} (h : Labels arcs src inf settled D)
    (hd : IsDistance arcs src v d) (hlt : d < inf) : d ≤ D v := by
  by_cases hv : D v < inf
  · obtain ⟨l, hwalk, -⟩ := h.found v hv
    exact hd.2 l _ hwalk
  · omega

namespace Route

variable {k i : Nat} {p : Nat → α} {δ : Nat → Int}

omit [DecidableEq α] in
theorem rest (h : Route arcs src k p δ) {j : Nat} (hji : j ≤ i) (hi : i ≤ k) :
    ∃ l, Walk arcs (p j) l (δ i - δ j) (p i) := by
  induction i, hji using Nat.le_induction with
  | base => exact ⟨[], by rw [Int.sub_self]; exact .nil⟩
  | succ i hji ih =>
    obtain ⟨l, hwalk⟩ := ih (by omega)
    obtain ⟨c, harc, hδ⟩ := h.arc i (by omega)
    refine ⟨l ++ [p i], ?_⟩
    have hsum : δ (i + 1) - δ j = δ i - δ j + c := by omega
    rw [hsum]
    exact hwalk.concat harc

omit [DecidableEq α] in
/-- A node that has a distance has a route. -/
theorem of_isDistance {d : Int} (hnonneg : ∀ x, ∀ a ∈ arcs x, 0 ≤ a.2)
    (hd : IsDistance arcs src v d) : ∃ k p δ, Route arcs src k p δ ∧ p k = v ∧ δ k = d := by
  obtain ⟨⟨l, hwalk⟩, hle⟩ := hd
  have hd' : IsDistance arcs src v d := ⟨⟨l, hwalk⟩, hle⟩
  clear hle
  induction hwalk with
  | nil =>
    refine ⟨0, fun _ => src, fun _ => 0, ⟨rfl, nofun, fun i _ => ?_⟩, rfl, rfl⟩
    exact isDistance_self hnonneg
  | @concat l w c y z hwalk harc ih =>
    -- the way to the node before is a shortest one, or there were a shorter one to the last
    have hy : IsDistance arcs src y w := by
      refine ⟨⟨l, hwalk⟩, fun l' w' hwalk' => ?_⟩
      have hle := hd'.2 _ _ (hwalk'.concat harc)
      omega
    obtain ⟨k, p, δ, hroute, rfl, rfl⟩ := ih hy
    refine ⟨k + 1, fun i => if i ≤ k then p i else z, fun i => if i ≤ k then δ i else δ k + c,
      ⟨?_, fun i hi => ?_, fun i hi => ?_⟩, if_neg (by omega), if_neg (by omega)⟩
    · simp only [Nat.zero_le, if_true]
      exact hroute.start
    · rw [if_pos (show i ≤ k by omega), if_pos (show i ≤ k by omega)]
      by_cases hik : i + 1 ≤ k
      · rw [if_pos hik, if_pos hik]
        exact hroute.arc i (by omega)
      · obtain rfl : i = k := by omega
        rw [if_neg hik, if_neg hik]
        exact ⟨c, harc, rfl⟩
    · by_cases hik : i ≤ k
      · rw [if_pos hik, if_pos hik]
        exact hroute.shortest i hik
      · rw [if_neg hik, if_neg hik]
        exact hd'

omit [DecidableEq α] in
theorem below (h : Route arcs src k p δ) (hnonneg : ∀ x, ∀ a ∈ arcs x, 0 ≤ a.2) (hi : i ≤ k)
    (hlt : δ k < inf) : δ i < inf := by
  obtain ⟨l, hwalk⟩ := h.rest hi (Nat.le_refl k)
  have hrest := hwalk.weight_nonneg hnonneg
  omega

omit [DecidableEq α] in
/-- The first node of a route that is not settled has its distance as label, where the arcs of
the route from settled nodes are relaxed. -/
theorem frontier (h : Route arcs src k p δ) (hnonneg : ∀ x, ∀ a ∈ arcs x, 0 ≤ a.2)
    (hlt : δ k < inf) (hlabels : Labels arcs src inf settled D)
    (hrelaxed : ∀ i < k, p i ∈ settled → D (p (i + 1)) ≤ δ (i + 1)) (hi : i ≤ k)
    (hout : p i ∉ settled) : ∃ j ≤ i, p j ∉ settled ∧ D (p j) = δ j := by
  induction i with
  | zero =>
    refine ⟨0, Nat.le_refl 0, hout, ?_⟩
    have hzero := h.shortest 0 (by omega)
    rw [h.start] at hzero ⊢
    rw [hlabels.start, (isDistance_self hnonneg).unique hzero]
  | succ i ih =>
    by_cases hin : p i ∈ settled
    · have hle := hrelaxed i (by omega) hin
      have hge := hlabels.distance_le (h.shortest (i + 1) hi) (h.below hnonneg hi hlt)
      exact ⟨i + 1, Nat.le_refl _, hout, by omega⟩
    · obtain ⟨j, hj, hjout, hlabel⟩ := ih (by omega) hin
      exact ⟨j, by omega, hjout, hlabel⟩

end Route

end Vani.Library
