import Vani.Analysis.GraphBuilt
import Vani.Library.SpanningForest
import Mathlib.Data.Prod.Lex

/-!
# Kruskal's algorithm finds a minimum spanning tree

The insertion sort is stable, so the edges come by weight and, of one weight, in the order in which
they were added. The parents stay a forest whose trees are what the edges so far connect, and the
edges taken are those whose ends the edges before them do not connect. The total after each of
them is a sum that has to fit an `int64_t`; it is the only thing that can go wrong.
-/

set_option autoImplicit false

namespace Vani.Analysis

open Vani.Library Vani.Backend

/-! ## The order of the edges -/

section

variable {weights : Array Int64} {ne : Nat} {idx : Array Nat} {x y : Nat} {s rest : List Nat}

/-- The weight of an edge, by its number. -/
def weightAt (weights : Array Int64) (x : Nat) : Int := (weights.getD x 0).toInt

/-- The lighter edge comes first, and of two as light the one with the lesser number. -/
def EdgeBefore (weights : Array Int64) (x y : Nat) : Prop :=
  weightAt weights x < weightAt weights y ∨ weightAt weights x = weightAt weights y ∧ x < y

theorem EdgeBefore.le (h : EdgeBefore weights x y) : weightAt weights x ≤ weightAt weights y := by
  rcases h with hlt | ⟨heq, -⟩ <;> omega

theorem read_weight (h : x < weights.size) :
    ∃ w, Outcome.read weights x = .done w ∧ w.toInt = weightAt weights x := by
  refine ⟨weights[x], Outcome.read_of_lt h, ?_⟩
  unfold weightAt
  rw [Array.getD_eq_getD_getElem?, Array.getElem?_eq_getElem h]
  rfl

/-- The array has the numbers of a list, except where the hole is. -/
def ListedBut (hole ne : Nat) (idx : Array Nat) (l : List Nat) : Prop :=
  ∀ k, k < ne → k ≠ hole → idx[k]? = l[k]?

/-- The edges that have been moved up, all heavier, and the hole before them. -/
structure Shifting (weights : Array Int64) (ne cur : Nat) (s rest : List Nat) (size : Nat)
    (st : Array Nat × Int) (pre post : List Nat) : Prop where
  split : s = pre ++ post
  place : st.2 = (pre.length : Int) - 1
  heavier : ∀ x ∈ post, weightAt weights cur < weightAt weights x
  size : st.1.size = size
  cells : ListedBut pre.length ne st.1 (pre ++ cur :: (post ++ rest))

/-- One turn moves up one more edge, or ends at one that is not heavier. -/
theorem Shifting.turn {cur size : Nat} {st : Array Nat × Int} {pre post : List Nat} {cw : Int64}
    (h : Shifting weights ne cur s rest size st pre post) (hcw : cw.toInt = weightAt weights cur)
    (hs : ∀ x ∈ s, x < weights.size) (hlen : s.length < ne) (hsize : ne ≤ size) :
    (∃ st' pre' post', Graph.shiftIndex weights cw st = .done (.inl st') ∧
        Shifting weights ne cur s rest size st' pre' post' ∧ pre'.length < pre.length) ∨
      Graph.shiftIndex weights cw st = .done (.inr st) ∧
        ∀ x, pre.getLast? = some x → weightAt weights x ≤ weightAt weights cur := by
  obtain ⟨idx, j⟩ := st
  have hj : j = (pre.length : Int) - 1 := h.place
  have hidx : idx.size = size := h.size
  have hsplit := congrArg List.length h.split
  rw [List.length_append] at hsplit
  rcases List.eq_nil_or_concat pre with rfl | ⟨pre', x, rfl⟩
  · refine Or.inr ⟨?_, nofun⟩
    rw [List.length_nil] at hj
    simp only [Graph.shiftIndex, if_neg (show ¬ 0 ≤ j by omega), Outcome.pure_eq]
  · simp only [List.concat_eq_append, List.length_append, List.length_singleton] at hj hsplit
    have hplace : j.toNat = pre'.length := by omega
    have hcell : idx[pre'.length]? = some x := by
      rw [h.cells pre'.length (by omega) (by simp)]
      simp
    have hx : x ∈ s := by
      rw [h.split]
      simp
    obtain ⟨w, hread, hw⟩ := read_weight (hs x hx)
    unfold Graph.shiftIndex
    simp only
    rw [if_pos (by omega), hplace, Outcome.read_of_getElem? hcell, Outcome.done_bind, hread,
      Outcome.done_bind]
    by_cases hlt : cw < w
    · rw [if_pos hlt]
      rw [Int64.lt_iff_toInt_lt, hcw, hw] at hlt
      obtain ⟨idx', hwrite, hsize', hat, hne⟩ := Outcome.write_ok (a := idx)
        (i := pre'.length + 1) (by omega) x
      rw [hwrite, Outcome.done_bind]
      refine Or.inl ⟨(idx', j - 1), pre', x :: post, rfl, ⟨?_, by simp only; omega, ?_,
        hsize'.trans hidx, ?_⟩, by simp⟩
      · rw [h.split]
        simp
      · intro y hy
        rcases List.mem_cons.mp hy with rfl | hy
        · exact hlt
        · exact h.heavier y hy
      · intro k hk hkhole
        by_cases hkx : k = pre'.length + 1
        · subst hkx
          rw [hat]
          simp
        · rw [hne k hkx, h.cells k hk (by simpa using hkx)]
          simp only [List.concat_eq_append, List.append_assoc, List.singleton_append]
          rcases Nat.lt_or_gt_of_ne hkhole with hlow | hhigh
          · rw [List.getElem?_append_left hlow, List.getElem?_append_left hlow]
          · rw [List.getElem?_append_right (by omega), List.getElem?_append_right (by omega)]
            obtain ⟨m, hm⟩ : ∃ m, k - pre'.length = m + 2 := ⟨k - pre'.length - 2, by omega⟩
            rw [hm]
            simp
    · rw [if_neg hlt]
      rw [Int64.lt_iff_toInt_lt, hcw, hw] at hlt
      refine Or.inr ⟨rfl, fun y hy => ?_⟩
      rw [List.concat_eq_append, List.getLast?_concat, Option.some.injEq] at hy
      subst hy
      omega

/-- An edge is put to its place among those before it. -/
theorem insertEdge {n : Nat} (hn : n + 1 < ne) (hsize : ne ≤ idx.size)
    (hweights : ne ≤ weights.size) (hperm : s.Perm (List.range (n + 1)))
    (hsorted : s.Pairwise (EdgeBefore weights)) (hlist : ∀ k, k < ne → idx[k]? =
      (s ++ (n + 1) :: rest)[k]?) :
    ∃ idx', (do
        let cur ← Outcome.read idx (n + 1)
        let cw ← Outcome.read weights cur
        let (idx, j) ← Outcome.loop (Graph.shiftIndex weights cw) (ne + 1) (idx, (n : Int))
        Outcome.write idx (j + 1).toNat cur : Outcome (Array Nat)) = .done idx' ∧
      idx'.size = idx.size ∧ ∃ s', s'.Perm (List.range (n + 2)) ∧
        s'.Pairwise (EdgeBefore weights) ∧ ∀ k, k < ne → idx'[k]? = (s' ++ rest)[k]? := by
  have hlen : s.length = n + 1 := by rw [hperm.length_eq, List.length_range]
  have hcur : idx[n + 1]? = some (n + 1) := by
    rw [hlist (n + 1) hn, List.getElem?_append_right (by omega), hlen, Nat.sub_self]
    rfl
  obtain ⟨cw, hread, hcw⟩ := read_weight (show n + 1 < weights.size by omega)
  have hmem : ∀ x ∈ s, x < n + 1 := fun x hx => List.mem_range.mp (hperm.subset hx)
  have hloop : ∃ st, Outcome.loop (Graph.shiftIndex weights cw) (ne + 1) (idx, (n : Int)) =
      .done st ∧ ∃ pre post, Shifting weights ne (n + 1) s rest idx.size st pre post ∧
        ∀ x, pre.getLast? = some x → weightAt weights x ≤ weightAt weights (n + 1) := by
    refine Outcome.loop_of_measure
      (fun st => ∃ pre post, Shifting weights ne (n + 1) s rest idx.size st pre post)
      (fun st => (st.2 + 1).toNat) (by simp only; omega) ⟨s, [], ?_⟩ ?_
    · exact ⟨(List.append_nil s).symm, by simp only; omega, nofun, rfl,
        fun k hk _ => hlist k hk⟩
    · rintro st ⟨pre, post, h⟩
      rcases h.turn hcw (fun x hx => Nat.lt_of_lt_of_le (hmem x hx) (by omega)) (by omega) hsize
        with ⟨st', pre', post', hrun, h', hlt⟩ | ⟨hrun, hstop⟩
      · refine Or.inl ⟨st', hrun, ⟨pre', post', h'⟩, ?_⟩
        have hplace := h.place
        have hplace' := h'.place
        omega
      · exact Or.inr ⟨st, hrun, pre, post, h, hstop⟩
  obtain ⟨⟨idx₁, j⟩, hrun, pre, post, h, hstop⟩ := hloop
  have hplace : j = (pre.length : Int) - 1 := h.place
  have hidx₁ : idx₁.size = idx.size := h.size
  have hsplit := h.split
  have hsplit' := congrArg List.length hsplit
  rw [List.length_append] at hsplit'
  obtain ⟨idx', hwrite, hsize', hat, hne⟩ := Outcome.write_ok (a := idx₁) (i := pre.length)
    (by omega) (n + 1)
  refine ⟨idx', ?_, hsize'.trans hidx₁, pre ++ (n + 1) :: post, ?_, ?_, fun k hk => ?_⟩
  · rw [Outcome.read_of_getElem? hcur, Outcome.done_bind, hread, Outcome.done_bind, hrun,
      Outcome.done_bind]
    simp only
    rw [show (j + 1).toNat = pre.length by omega]
    exact hwrite
  · refine List.perm_middle.trans ?_
    rw [← hsplit, List.range_succ]
    exact (List.Perm.cons _ hperm).trans (List.perm_append_singleton _ _).symm
  · rw [hsplit, List.pairwise_append] at hsorted
    obtain ⟨hpre, hpost, hcross⟩ := hsorted
    have hlight : ∀ x ∈ pre, EdgeBefore weights x (n + 1) := by
      intro x hx
      have hxn : x < n + 1 := hmem x (by rw [hsplit]; exact List.mem_append_left _ hx)
      have hle : weightAt weights x ≤ weightAt weights (n + 1) := by
        rcases List.eq_nil_or_concat pre with rfl | ⟨pre', y, rfl⟩
        · cases hx
        · have hy := hstop y (by simp)
          rw [List.concat_eq_append, List.pairwise_append] at hpre
          rw [List.concat_eq_append, List.mem_append, List.mem_singleton] at hx
          rcases hx with hx | rfl
          · have hxy := (hpre.2.2 x hx y (List.mem_singleton_self y)).le
            omega
          · exact hy
      unfold EdgeBefore
      omega
    refine List.pairwise_append.mpr ⟨hpre, List.pairwise_cons.mpr
      ⟨fun x hx => Or.inl (h.heavier x hx), hpost⟩, fun x hx y hy => ?_⟩
    rcases List.mem_cons.mp hy with rfl | hy
    · exact hlight x hx
    · exact hcross x hx y hy
  · rw [List.append_assoc, List.cons_append]
    by_cases hkp : k = pre.length
    · subst hkp
      rw [hat]
      simp
    · rw [hne k hkp]
      exact h.cells k hk hkp

/-- The numbers of the edges are put in order. -/
theorem sortEdges_ok (hsize : ne ≤ idx.size) (hweights : ne ≤ weights.size)
    (hstart : ∀ k, k < ne → idx[k]? = some k) :
    ∃ idx', Graph.sortEdges weights ne idx = .done idx' ∧ ∃ l : List Nat,
      l.Perm (List.range ne) ∧ l.Pairwise (EdgeBefore weights) ∧
        ∀ k, k < ne → idx'[k]? = l[k]? := by
  rcases Nat.eq_zero_or_pos ne with rfl | hpos
  · exact ⟨idx, rfl, [], List.Perm.refl _, List.Pairwise.nil, nofun⟩
  have hrange : ∀ k, k < ne → idx[k]? = (List.range ne)[k]? := fun k hk => by
    rw [hstart k hk, List.getElem?_range hk]
  obtain ⟨idx', hrun, -, s, hperm, hsorted, hlist⟩ := Outcome.forRange_of_step (n := ne - 1)
    (s := idx)
    (f := fun n idx => do
      let cur ← Outcome.read idx (n + 1)
      let cw ← Outcome.read weights cur
      let (idx, j) ← Outcome.loop (Graph.shiftIndex weights cw) (ne + 1) (idx, (n : Int))
      Outcome.write idx (j + 1).toNat cur)
    (fun n a => a.size = idx.size ∧ ∃ s : List Nat, s.Perm (List.range (n + 1)) ∧
      s.Pairwise (EdgeBefore weights) ∧
        ∀ k, k < ne → a[k]? = (s ++ List.range' (n + 1) (ne - (n + 1)))[k]?)
    ⟨rfl, [0], List.Perm.refl _, List.pairwise_singleton _ _, fun k hk => by
      rw [hrange k hk, List.range_eq_range']
      obtain ⟨m, rfl⟩ : ∃ m, ne = m + 1 := ⟨ne - 1, by omega⟩
      rfl⟩
    (by
      rintro n a hn ⟨ha, s, hperm, hsorted, hlist⟩
      obtain ⟨m, hm⟩ : ∃ m, ne - (n + 1) = m + 1 := ⟨ne - (n + 2), by omega⟩
      rw [hm, List.range'_succ] at hlist
      obtain ⟨a', hrun, ha', s', hperm', hsorted', hlist'⟩ := insertEdge (by omega)
        (ha ▸ hsize) hweights hperm hsorted hlist
      refine ⟨a', hrun, ha'.trans ha, s', hperm', hsorted', ?_⟩
      rw [show ne - (n + 1 + 1) = m by omega]
      exact hlist')
  refine ⟨idx', hrun, s, ?_, hsorted, ?_⟩
  · rwa [show ne - 1 + 1 = ne by omega] at hperm
  · rw [show ne - (ne - 1 + 1) = 0 by omega, List.range'_zero, List.append_nil] at hlist
    exact hlist

end

/-! ## The parents -/

/-- The parent of a node; other numbers are their own. -/
def parentAt (parent : Array Nat) (x : Nat) : Nat := parent.getD x x

/-- The parents are nodes, and ranks rise to them, which nothing stores. -/
structure Parents (nn : Nat) (parent : Array Nat) (rank : Nat → Nat) (bound : Nat) : Prop where
  size : parent.size = nn
  inside : ∀ x, x < nn → parentAt parent x < nn
  rising : ∀ x, parentAt parent x ≠ x → rank x < rank (parentAt parent x)
  bounded : ∀ x, rank x ≤ bound

/-- Every node has the root it had. -/
def KeepsRoots (parent parent' : Array Nat) : Prop :=
  ∀ x r, RootOf (parentAt parent) x r → RootOf (parentAt parent') x r

/-- The nodes that are their own parents. -/
def rootNodes (nn : Nat) (parent : Array Nat) : Finset Nat :=
  (Finset.range nn).filter fun x => parentAt parent x = x

namespace Parents

variable {nn bound x r : Nat} {parent : Array Nat} {rank : Nat → Nat}

theorem read (h : Parents nn parent rank bound) (hx : x < nn) :
    Outcome.read parent x = .done (parentAt parent x) := by
  have hlt : x < parent.size := by rw [h.size]; exact hx
  unfold parentAt
  rw [Outcome.read_of_lt hlt, Array.getD_eq_getD_getElem?, Array.getElem?_eq_getElem hlt,
    Option.getD_some]

/-- Another parent for one node. -/
theorem write (h : Parents nn parent rank bound) (hx : x < nn) (y : Nat) :
    ∃ parent', Outcome.write parent x y = .done parent' ∧ parent'.size = nn ∧
      parentAt parent' x = y ∧ ∀ z, z ≠ x → parentAt parent' z = parentAt parent z := by
  obtain ⟨parent', hwrite, hsize, hat, hne⟩ := Outcome.write_ok (a := parent) (i := x)
    (by rw [h.size]; exact hx) y
  refine ⟨parent', hwrite, hsize.trans h.size, ?_, fun z hz => ?_⟩
  · unfold parentAt
    rw [Array.getD_eq_getD_getElem?, hat, Option.getD_some]
  · unfold parentAt
    rw [Array.getD_eq_getD_getElem?, Array.getD_eq_getD_getElem?, hne z hz]

theorem exists_root (h : Parents nn parent rank bound) (x : Nat) :
    ∃ r, RootOf (parentAt parent) x r :=
  RootOf.exists_root h.rising h.bounded x

theorem root_lt (h : Parents nn parent rank bound) (hr : RootOf (parentAt parent) x r)
    (hx : x < nn) : r < nn :=
  hr.keeps (P := (· < nn)) h.inside hx

/-- The walk comes to the root. -/
theorem findRoot (h : Parents nn parent rank bound) (hbound : bound ≤ nn) (hx : x < nn)
    (hr : RootOf (parentAt parent) x r) : Graph.findRoot parent x = .done r := by
  have hwalk : ∃ r', Graph.findRoot parent x = .done r' ∧ r' = r := by
    refine Outcome.loop_of_measure (fun y => y < nn ∧ RootOf (parentAt parent) y r)
      (fun y => bound - rank y) (by rw [h.size]; omega) ⟨hx, hr⟩ ?_
    rintro y ⟨hy, hyr⟩
    rw [h.read hy, Outcome.done_bind]
    by_cases hroot : parentAt parent y = y
    · refine Or.inr ⟨y, ?_, (RootOf.root hroot).unique hyr⟩
      rw [if_neg (not_not.mpr hroot), Outcome.pure_eq]
    · have hlt := h.rising y hroot
      have hle := h.bounded (parentAt parent y)
      refine Or.inl ⟨parentAt parent y, ?_, ⟨h.inside y hy, hyr.parent⟩, by omega⟩
      rw [if_pos hroot, Outcome.pure_eq]
  obtain ⟨r', hrun, rfl⟩ := hwalk
  exact hrun

/-- A node is pointed at its root. -/
theorem compress (h : Parents nn parent rank bound) (hx : x < nn)
    (hr : RootOf (parentAt parent) x r) (hne : x ≠ r) :
    ∃ parent', Outcome.write parent x r = .done parent' ∧ Parents nn parent' rank bound ∧
      KeepsRoots parent parent' := by
  obtain ⟨parent', hwrite, hsize, hat, hother⟩ := h.write hx r
  refine ⟨parent', hwrite, ⟨hsize, fun z hz => ?_, fun z hz => ?_, h.bounded⟩,
    fun z s hs => RootOf.compress hr hat hother hs⟩
  · by_cases hzx : z = x
    · rw [hzx, hat]
      exact h.root_lt hr hx
    · rw [hother z hzx]
      exact h.inside z hz
  · by_cases hzx : z = x
    · rw [hzx, hat]
      exact hr.rank_lt h.rising hne
    · rw [hother z hzx] at hz ⊢
      exact h.rising z hz

/-- The compression points the nodes of a path at their root. -/
theorem compressPath (h : Parents nn parent rank bound) (hbound : bound ≤ nn) (hx : x < nn)
    (hr : RootOf (parentAt parent) x r) :
    ∃ parent', Graph.compressPath parent r x = .done parent' ∧ Parents nn parent' rank bound ∧
      KeepsRoots parent parent' := by
  refine Outcome.loop_of_measure
    (fun s : Array Nat × Nat => (Parents nn s.1 rank bound ∧ KeepsRoots parent s.1) ∧ s.2 < nn ∧
      RootOf (parentAt s.1) s.2 r)
    (fun s => bound - rank s.2) (by rw [h.size]; dsimp only; omega)
    ⟨⟨h, fun _ _ hs => hs⟩, hx, hr⟩ ?_
  rintro ⟨parent₁, y⟩ ⟨⟨h₁, hkeep⟩, hy, hroot⟩
  dsimp only at h₁ hkeep hy hroot ⊢
  rw [h₁.read hy, Outcome.done_bind]
  by_cases hnext : parentAt parent₁ y = r
  · refine Or.inr ⟨parent₁, ?_, h₁, hkeep⟩
    rw [if_neg (not_not.mpr hnext), Outcome.pure_eq]
  · have hne : y ≠ r := by
      rintro rfl
      exact hnext hroot.isRoot
    have hstep : parentAt parent₁ y ≠ y := fun heq => hne ((RootOf.root heq).unique hroot)
    have hrise := h₁.rising y hstep
    have hle := h₁.bounded (parentAt parent₁ y)
    obtain ⟨parent₂, hwrite, h₂, hkeep₂⟩ := h₁.compress hy hroot hne
    refine Or.inl ⟨(parent₂, parentAt parent₁ y), ?_,
      ⟨⟨h₂, fun z s hs => hkeep₂ z s (hkeep z s hs)⟩, h₁.inside y hy,
        hkeep₂ _ _ hroot.parent⟩, by dsimp only; omega⟩
    rw [if_pos hnext, hwrite, Outcome.done_bind, Outcome.pure_eq]

/-- The roots of two nodes are found. -/
theorem findTwo (h : Parents nn parent rank bound) (hbound : bound ≤ nn) {y s : Nat}
    (hx : x < nn) (hy : y < nn) (hr : RootOf (parentAt parent) x r)
    (hs : RootOf (parentAt parent) y s) :
    ∃ parent₁ parent₂, Graph.findRoot parent x = .done r ∧
      Graph.compressPath parent r x = .done parent₁ ∧ Graph.findRoot parent₁ y = .done s ∧
      Graph.compressPath parent₁ s y = .done parent₂ ∧ Parents nn parent₂ rank bound ∧
      KeepsRoots parent parent₂ := by
  obtain ⟨parent₁, hrun₁, h₁, hkeep₁⟩ := h.compressPath hbound hx hr
  obtain ⟨parent₂, hrun₂, h₂, hkeep₂⟩ := h₁.compressPath hbound hy (hkeep₁ y s hs)
  exact ⟨parent₁, parent₂, h.findRoot hbound hx hr, hrun₁,
    h₁.findRoot hbound hy (hkeep₁ y s hs), hrun₂, h₂, fun z t ht => hkeep₂ z t (hkeep₁ z t ht)⟩

theorem rootNodes_eq (h : Parents nn parent rank bound) {parent' : Array Nat}
    (hkeep : KeepsRoots parent parent') : rootNodes nn parent' = rootNodes nn parent := by
  refine Finset.filter_congr fun x _ => ⟨fun hx => ?_, fun hx => (hkeep x x (.root hx)).isRoot⟩
  obtain ⟨r, hr⟩ := h.exists_root x
  obtain rfl := (RootOf.root hx).unique (hkeep x r hr)
  exact hr.isRoot

/-- A root is pointed at another, whose rank rises above it. -/
theorem link (h : Parents nn parent rank bound) {s : Nat} (hr : r < nn) (hs : s < nn)
    (hrroot : parentAt parent r = r) (hsroot : parentAt parent s = s) (hne : r ≠ s) :
    ∃ parent' rank', Outcome.write parent r s = .done parent' ∧
      Parents nn parent' rank' (bound + 1) ∧ parentAt parent' r = s ∧
      (∀ z, z ≠ r → parentAt parent' z = parentAt parent z) ∧
      (rootNodes nn parent').card + 1 = (rootNodes nn parent).card := by
  obtain ⟨parent', hwrite, hsize, hat, hother⟩ := h.write hr s
  refine ⟨parent', Function.update rank s (max (rank s) (rank r + 1)), hwrite,
    ⟨hsize, fun z hz => ?_, fun z hz => ?_, fun z => ?_⟩, hat, hother, ?_⟩
  · by_cases hzr : z = r
    · rw [hzr, hat]
      exact hs
    · rw [hother z hzr]
      exact h.inside z hz
  · by_cases hzr : z = r
    · rw [hzr, hat, Function.update_self, Function.update_of_ne hne]
      omega
    · rw [hother z hzr] at hz ⊢
      have hrise := h.rising z hz
      have hzs : z ≠ s := by
        rintro rfl
        exact hz hsroot
      rw [Function.update_of_ne hzs]
      by_cases hps : parentAt parent z = s
      · rw [hps] at hrise ⊢
        rw [Function.update_self]
        omega
      · rwa [Function.update_of_ne hps]
  · have hle := h.bounded z
    have hler := h.bounded r
    have hles := h.bounded s
    by_cases hzs : z = s
    · rw [hzs, Function.update_self]
      omega
    · rw [Function.update_of_ne hzs]
      omega
  · have hmem : r ∈ rootNodes nn parent :=
      Finset.mem_filter.mpr ⟨Finset.mem_range.mpr hr, hrroot⟩
    have herase : rootNodes nn parent' = (rootNodes nn parent).erase r := by
      ext z
      unfold rootNodes
      rw [Finset.mem_erase, Finset.mem_filter, Finset.mem_filter]
      by_cases hzr : z = r
      · subst hzr
        rw [hat]
        simp [Ne.symm hne]
      · rw [hother z hzr]
        simp [hzr]
    rw [herase]
    exact Finset.card_erase_add_one hmem

end Parents

/-! ## Minimum spanning trees of graphs -/

/-- The ends of an edge. -/
def edgeEnds (es : List Edge) (i : Fin es.length) : Nat × Nat :=
  (es[i].src.toInt.toNat, es[i].dst.toInt.toNat)

def edgeCost (es : List Edge) (i : Fin es.length) : Int := es[i].weight.toInt

/-- The place of an edge: by weight, and of one weight by number. -/
def edgeKey (es : List Edge) (i : Fin es.length) : Int ×ₗ Nat := toLex (edgeCost es i, i.val)

/-- The edges between nodes. -/
def nodeEdges (nn : Nat) (es : List Edge) : Finset (Fin es.length) :=
  Finset.univ.filter fun i => Graph.IsNode nn es[i].src ∧ Graph.IsNode nn es[i].dst

/-- The edges connect all nodes. -/
def NodesConnected (nn : Nat) (es : List Edge) : Prop :=
  ∀ x y, x < nn → y < nn → Connects (edgeEnds es) (nodeEdges nn es) x y

/-- The weight of a minimum spanning tree, and `None` where there is none. -/
def MstWeight (nn : Nat) (es : List Edge) : Option Int → Prop
  | none => nn = 0 ∨ ¬ NodesConnected nn es
  | some w => nn ≠ 0 ∧ NodesConnected nn es ∧ ∃ M,
      MinimumForest (edgeEnds es) (edgeCost es) (nodeEdges nn es) M ∧ w = M.sum (edgeCost es)

def FitsInt64 (x : Int) : Prop := -2 ^ 63 ≤ x ∧ x < 2 ^ 63

/-- With the edges in the order of their weights, and of one weight as they were added: the weights
of those whose ends the ones before do not connect, up to any edge, have a sum that fits. -/
def KruskalSumsFit (nn : Nat) (es : List Edge) : Prop :=
  ∀ P, Lower (edgeKey es) (nodeEdges nn es) P →
    FitsInt64 ((firstForest (edgeEnds es) (edgeKey es) P).sum (edgeCost es))

section

variable {nn k : Nat} {es : List Edge} {e : Fin es.length} {order : List (Fin es.length)}
  {idx : Array Nat} {P : Finset (Fin es.length)}

theorem mem_nodeEdges :
    e ∈ nodeEdges nn es ↔ Graph.IsNode nn es[e].src ∧ Graph.IsNode nn es[e].dst := by
  unfold nodeEdges
  rw [Finset.mem_filter]
  exact and_iff_right (Finset.mem_univ e)

theorem edgeEnds_lt (he : e ∈ nodeEdges nn es) : (edgeEnds es e).1 < nn ∧ (edgeEnds es e).2 < nn :=
  ⟨toNat_lt_of_isNode (mem_nodeEdges.mp he).1, toNat_lt_of_isNode (mem_nodeEdges.mp he).2⟩

theorem edgeKey_injective (es : List Edge) : Function.Injective (edgeKey es) := by
  intro i j hij
  unfold edgeKey at hij
  rw [toLex_inj, Prod.mk.injEq] at hij
  exact Fin.ext hij.2

theorem edgeCost_le (f g : Fin es.length) (h : edgeKey es f ≤ edgeKey es g) :
    edgeCost es f ≤ edgeCost es g := by
  rcases Prod.Lex.toLex_le_toLex.mp h with hlt | ⟨heq, -⟩
  · exact Int.le_of_lt hlt
  · exact Int.le_of_eq heq

theorem spans_of_connects (h : ∀ x y, x < nn → y < nn → Connects (edgeEnds es) P x y) :
    ∀ e ∈ nodeEdges nn es, Connects (edgeEnds es) P (edgeEnds es e).1 (edgeEnds es e).2 :=
  fun _ he => h _ _ (edgeEnds_lt he).1 (edgeEnds_lt he).2

/-- The first edges that connect all nodes are a minimum spanning tree. -/
theorem minimum_firstForest (hP : Lower (edgeKey es) (nodeEdges nn es) P)
    (hconn : ∀ x y, x < nn → y < nn → Connects (edgeEnds es) P x y) :
    MinimumForest (edgeEnds es) (edgeCost es) (nodeEdges nn es)
      (firstForest (edgeEnds es) (edgeKey es) P) := by
  have hkey := edgeKey_injective es
  exact (extendable_firstForest hkey edgeCost_le hP).minimum fun e he =>
    (connects_firstForest hkey).mpr (spans_of_connects hconn e he)

/-- The sorted numbers are all edges, in order. -/
structure EdgeOrder (es : List Edge) (idx : Array Nat) (order : List (Fin es.length)) : Prop where
  all : ∀ i, i ∈ order
  sorted : order.Pairwise fun i j => edgeKey es i < edgeKey es j
  length : order.length = es.length
  cells : ∀ k, k < es.length → idx[k]? = order[k]?.map Fin.val

/-- The edges between nodes among the first ones. -/
def taken (nn : Nat) (es : List Edge) (order : List (Fin es.length)) (k : Nat) :
    Finset (Fin es.length) :=
  (nodeEdges nn es).filter (· ∈ order.take k)

namespace EdgeOrder

theorem split (h : EdgeOrder es idx order) (hk : order[k]? = some e) :
    (∀ f ∈ order.take k, ∀ g, g = e ∨ g ∈ order.drop (k + 1) → edgeKey es f < edgeKey es g) ∧
      ∀ g, g ∈ order.take k ∨ g = e ∨ g ∈ order.drop (k + 1) := by
  obtain ⟨hlt, heq⟩ := List.getElem?_eq_some_iff.mp hk
  have hsplit : order = order.take k ++ e :: order.drop (k + 1) := by
    rw [← heq, ← List.drop_eq_getElem_cons hlt, List.take_append_drop]
  constructor
  · intro f hf g hg
    have hsorted := h.sorted
    rw [hsplit, List.pairwise_append] at hsorted
    exact hsorted.2.2 f hf g (List.mem_cons.mpr hg)
  · intro g
    have hg := h.all g
    rw [hsplit, List.mem_append, List.mem_cons] at hg
    exact hg

theorem last (h : EdgeOrder es idx order) (nn : Nat) (hk : order[k]? = some e) :
    ∀ f ∈ taken nn es order k, edgeKey es f < edgeKey es e := fun f hf =>
  (h.split hk).1 f (Finset.mem_filter.mp hf).2 e (Or.inl rfl)

theorem lower (h : EdgeOrder es idx order) (nn k : Nat) :
    Lower (edgeKey es) (nodeEdges nn es) (taken nn es order k) := by
  refine ⟨Finset.filter_subset _ _, fun f hf g hg hle => Finset.mem_filter.mpr ⟨hg, ?_⟩⟩
  have hf' := (Finset.mem_filter.mp hf).2
  cases hk : order[k]? with
  | none =>
    rw [List.take_of_length_le (List.getElem?_eq_none_iff.mp hk)]
    exact h.all g
  | some e =>
    obtain ⟨hbefore, hall⟩ := h.split hk
    exact (hall g).resolve_right fun hg => absurd (hbefore f hf' g hg) (not_lt_of_ge hle)

theorem taken_zero (nn : Nat) (order : List (Fin es.length)) : taken nn es order 0 = ∅ := by
  unfold taken
  simp

theorem taken_all (h : EdgeOrder es idx order) (hk : es.length ≤ k) :
    taken nn es order k = nodeEdges nn es := by
  unfold taken
  rw [List.take_of_length_le (by rw [h.length]; exact hk)]
  exact Finset.filter_true_of_mem fun i _ => h.all i

theorem taken_succ (nn : Nat) (hk : order[k]? = some e) :
    (e ∉ nodeEdges nn es → taken nn es order (k + 1) = taken nn es order k) ∧
      (e ∈ nodeEdges nn es → taken nn es order (k + 1) = insert e (taken nn es order k)) := by
  unfold taken
  rw [List.take_add_one, hk, Option.toList_some]
  constructor
  · intro he
    refine Finset.filter_congr fun i hi => ?_
    have hne : i ≠ e := fun heq => he (heq ▸ hi)
    simp [hne]
  · intro he
    ext i
    simp only [Finset.mem_filter, Finset.mem_insert, List.mem_append, List.mem_singleton]
    constructor
    · rintro ⟨hi, hin | rfl⟩
      · exact Or.inr ⟨hi, hin⟩
      · exact Or.inl rfl
    · rintro (rfl | ⟨hi, hin⟩)
      · exact ⟨he, Or.inr rfl⟩
      · exact ⟨hi, Or.inl hin⟩

end EdgeOrder

/-! ## The turns -/

/-- After the first edges: the trees are what they connect, and the total is the weight of those
that connected something. -/
structure Joining (nn : Nat) (es : List Edge) (order : List (Fin es.length)) (k : Nat)
    (s : Graph.Kruskal) : Prop where
  parents : ∃ rank, Parents nn s.parent rank s.inMst
  joined : ∀ x y, SameRoot (parentAt s.parent) x y ↔
    Connects (edgeEnds es) (taken nn es order k) x y
  count : (rootNodes nn s.parent).card + s.inMst = nn
  total : s.total =
    (firstForest (edgeEnds es) (edgeKey es) (taken nn es order k)).sum (edgeCost es)
  fits : ∀ Q, Lower (edgeKey es) (nodeEdges nn es) Q → Q ⊆ taken nn es order k →
    FitsInt64 ((firstForest (edgeEnds es) (edgeKey es) Q).sum (edgeCost es))

namespace Joining

variable {s : Graph.Kruskal} {parent : Array Nat}

/-- An edge that is not between nodes. -/
theorem skip (h : Joining nn es order k s) (hk : order[k]? = some e) (he : e ∉ nodeEdges nn es) :
    Joining nn es order (k + 1) s := by
  have htaken := (EdgeOrder.taken_succ nn hk).1 he
  refine ⟨h.parents, ?_, h.count, ?_, ?_⟩
  · rw [htaken]
    exact h.joined
  · rw [htaken]
    exact h.total
  · rw [htaken]
    exact h.fits

/-- An edge whose ends are connected. -/
theorem same (h : Joining nn es order k s) (horder : EdgeOrder es idx order)
    (hk : order[k]? = some e) (he : e ∈ nodeEdges nn es) {rank : Nat → Nat}
    (hparents : Parents nn s.parent rank s.inMst) (hparents' : Parents nn parent rank s.inMst)
    (hkeep : KeepsRoots s.parent parent)
    (hsame : SameRoot (parentAt s.parent) (edgeEnds es e).1 (edgeEnds es e).2) :
    Joining nn es order (k + 1) { s with parent } := by
  have hlast := horder.last nn hk
  have hconn := (h.joined _ _).mp hsame
  have hforest := (firstForest_insert (edgeEnds es) hlast).1 hconn
  refine ⟨⟨rank, hparents'⟩, fun x y => ?_, ?_, ?_, ?_⟩
  · rw [sameRoot_congr hparents.exists_root hkeep, h.joined,
      (EdgeOrder.taken_succ nn hk).2 he]
    refine ⟨fun hxy => hxy.mono (Finset.subset_insert _ _), fun hxy => hxy.of_ends fun f hf => ?_⟩
    rcases Finset.mem_insert.mp hf with rfl | hf
    · exact hconn
    · exact connects_of_mem hf
  · rw [hparents.rootNodes_eq hkeep]
    exact h.count
  · rw [(EdgeOrder.taken_succ nn hk).2 he, hforest]
    exact h.total
  · rw [(EdgeOrder.taken_succ nn hk).2 he]
    intro Q hQ hsub
    rcases hQ.insert_cases (horder.lower nn k).subset hlast hsub with rfl | hsub
    · rw [hforest]
      exact h.fits _ (horder.lower nn k) (Finset.Subset.refl _)
    · exact h.fits Q hQ hsub

/-- The weight of the first edges that connect something, with one more that does. -/
theorem sum_insert (h : Joining nn es order k s) (horder : EdgeOrder es idx order)
    (hk : order[k]? = some e) (he : e ∈ nodeEdges nn es)
    (hdiff : ¬ SameRoot (parentAt s.parent) (edgeEnds es e).1 (edgeEnds es e).2) :
    (firstForest (edgeEnds es) (edgeKey es) (taken nn es order (k + 1))).sum (edgeCost es) =
      s.total + edgeCost es e := by
  have hlast := horder.last nn hk
  have hforest := (firstForest_insert (edgeEnds es) hlast).2
    fun hconn => hdiff ((h.joined _ _).mpr hconn)
  have hnot : e ∉ firstForest (edgeEnds es) (edgeKey es) (taken nn es order k) := fun hin =>
    lt_irrefl _ (hlast e (firstForest_subset hin))
  rw [(EdgeOrder.taken_succ nn hk).2 he, hforest, Finset.sum_insert hnot, h.total, add_comm]

/-- An edge that joins two trees. -/
theorem link (h : Joining nn es order k s) (horder : EdgeOrder es idx order)
    (hk : order[k]? = some e) (he : e ∈ nodeEdges nn es)
    (hdiff : ¬ SameRoot (parentAt s.parent) (edgeEnds es e).1 (edgeEnds es e).2)
    {rank : Nat → Nat} (hparents : Parents nn parent rank (s.inMst + 1))
    (hjoined : ∀ x y, SameRoot (parentAt parent) x y ↔ SameRoot (parentAt s.parent) x y ∨
      SameRoot (parentAt s.parent) x (edgeEnds es e).1 ∧
        SameRoot (parentAt s.parent) (edgeEnds es e).2 y ∨
      SameRoot (parentAt s.parent) x (edgeEnds es e).2 ∧
        SameRoot (parentAt s.parent) (edgeEnds es e).1 y)
    (hcount : (rootNodes nn parent).card + (s.inMst + 1) = nn)
    (hfits : FitsInt64 (s.total + edgeCost es e)) :
    Joining nn es order (k + 1) ⟨parent, s.total + edgeCost es e, s.inMst + 1⟩ := by
  have hsum := h.sum_insert horder hk he hdiff
  refine ⟨⟨rank, hparents⟩, fun x y => ?_, hcount, hsum.symm, fun Q hQ hsub => ?_⟩
  · rw [hjoined, (EdgeOrder.taken_succ nn hk).2 he, connects_insert]
    simp only [h.joined]
  · rw [(EdgeOrder.taken_succ nn hk).2 he] at hsum hsub
    rcases hQ.insert_cases (horder.lower nn k).subset (horder.last nn hk) hsub with rfl | hsub
    · rw [hsum]
      exact hfits
    · exact h.fits Q hQ hsub

theorem inMst_le (h : Joining nn es order k s) : s.inMst ≤ nn := by
  have hcount := h.count
  omega

/-- One turn takes the next edge, or the sum does not fit. -/
theorem turn {g : Graph} (h : Joining nn es order k s) (hg : GraphHolds g (nn, es))
    (horder : EdgeOrder es idx order) (hk : k < es.length) :
    (∃ s', (Graph.kruskalTurn g idx (k, s) = .done (.inl (k + 1, s')) ∨
        Graph.kruskalTurn g idx (k, s) = .done (.inr s') ∧ nn - 1 ≤ s'.inMst) ∧
          Joining nn es order (k + 1) s') ∨
      Graph.kruskalTurn g idx (k, s) = .stuck ∧ ¬ KruskalSumsFit nn es := by
  obtain ⟨e, he⟩ : ∃ e, order[k]? = some e := ⟨_, List.getElem?_eq_getElem (by
    rw [horder.length]
    exact hk)⟩
  have hcell : idx[k]? = some e.val := by
    rw [horder.cells k hk, he]
    rfl
  have hat : es[e.val]? = some es[e] := List.getElem?_eq_getElem e.isLt
  have hsrc := hg.src _ _ hat
  have hdst := hg.dst _ _ hat
  have hweight := hg.weight _ _ hat
  have hnodes : g.numNodes = nn := hg.nodes
  have hedges : g.numEdges = es.length := hg.edges
  unfold Graph.kruskalTurn
  simp only
  rw [hedges, hnodes, if_pos hk, Outcome.read_of_getElem? hcell, Outcome.done_bind,
    Outcome.read_of_getElem? hsrc, Outcome.done_bind, Outcome.read_of_getElem? hdst,
    Outcome.done_bind]
  by_cases hin : e ∈ nodeEdges nn es
  · rw [if_pos (mem_nodeEdges.mp hin)]
    obtain ⟨hx, hy⟩ := edgeEnds_lt hin
    obtain ⟨rank, hparents⟩ := h.parents
    obtain ⟨r, hr⟩ := hparents.exists_root (edgeEnds es e).1
    obtain ⟨t, ht⟩ := hparents.exists_root (edgeEnds es e).2
    obtain ⟨parent₁, parent₂, hfind, hcompress, hfind', hcompress', hparents', hkeep⟩ :=
      hparents.findTwo h.inMst_le hx hy hr ht
    unfold edgeEnds at hfind hcompress hfind' hcompress'
    rw [hfind, Outcome.done_bind, hcompress, Outcome.done_bind, hfind', Outcome.done_bind,
      hcompress', Outcome.done_bind]
    by_cases hrt : r = t
    · rw [if_pos hrt]
      exact Or.inl ⟨_, Or.inl rfl, h.same horder he hin hparents hparents' hkeep
        ((sameRoot_iff hr ht).mpr hrt)⟩
    · rw [if_neg hrt]
      have hdiff : ¬ SameRoot (parentAt s.parent) (edgeEnds es e).1 (edgeEnds es e).2 :=
        fun hsame => hrt ((sameRoot_iff hr ht).mp hsame)
      obtain ⟨parent₃, rank₃, hwrite, hparents₃, hat₃, hother₃, hcard⟩ := hparents'.link
        (hparents.root_lt hr hx) (hparents.root_lt ht hy) (hkeep _ _ hr).isRoot
        (hkeep _ _ ht).isRoot hrt
      rw [hwrite, Outcome.done_bind, Outcome.read_of_getElem? hweight, Outcome.done_bind]
      have hcost : s.total + es[e].weight.toInt = s.total + edgeCost es e := rfl
      rw [hcost]
      by_cases hfits : FitsInt64 (s.total + edgeCost es e)
      · have hnext : Joining nn es order (k + 1)
            ⟨parent₃, s.total + edgeCost es e, s.inMst + 1⟩ := by
          refine h.link horder he hin hdiff hparents₃ (fun x y => ?_) ?_ hfits
          · rw [sameRoot_link hparents'.exists_root (hkeep _ _ hr) (hkeep _ _ ht) hrt hat₃ hother₃]
            simp only [sameRoot_congr hparents.exists_root hkeep]
          · have hcount := h.count
            rw [hparents.rootNodes_eq hkeep] at hcard
            omega
        rw [show Graph.int64 _ = _ from if_pos hfits, Outcome.pure_eq, Outcome.done_bind]
        refine Or.inl ⟨_, ?_, hnext⟩
        by_cases henough : nn - 1 ≤ s.inMst + 1
        · rw [if_pos henough]
          exact Or.inr ⟨rfl, henough⟩
        · rw [if_neg henough]
          exact Or.inl rfl
      · rw [show Graph.int64 _ = _ from if_neg hfits, Outcome.stuck_bind]
        refine Or.inr ⟨rfl, fun hall => hfits ?_⟩
        rw [← h.sum_insert horder he hin hdiff]
        exact hall _ (horder.lower nn (k + 1))
  · rw [if_neg fun hnode => hin (mem_nodeEdges.mpr hnode)]
    exact Or.inl ⟨s, Or.inl rfl, h.skip he hin⟩

/-- What the parents are before the first edge. -/
theorem start (hsize : parent.size = nn) (hself : ∀ i, i < nn → parent[i]? = some i) :
    Joining nn es order 0 ⟨parent, 0, 0⟩ := by
  have hparent : ∀ x, parentAt parent x = x := by
    intro x
    unfold parentAt
    rw [Array.getD_eq_getD_getElem?]
    by_cases hx : x < nn
    · rw [hself x hx, Option.getD_some]
    · rw [Array.getElem?_eq_none (by omega), Option.getD_none]
  have hforest : firstForest (edgeEnds es) (edgeKey es) ∅ = ∅ :=
    Finset.subset_empty.mp firstForest_subset
  refine ⟨⟨fun _ => 0, hsize, fun x hx => ?_, fun x hx => absurd (hparent x) hx,
    fun _ => Nat.le_refl 0⟩, fun x y => ?_, ?_, ?_, fun Q hQ hsub => ?_⟩
  · rw [hparent]
    exact hx
  · rw [EdgeOrder.taken_zero, connects_empty,
      sameRoot_iff (.root (hparent x)) (.root (hparent y))]
  · unfold rootNodes
    rw [Finset.filter_true_of_mem fun x _ => hparent x, Finset.card_range]
    rfl
  · rw [EdgeOrder.taken_zero, hforest]
    rfl
  · rw [EdgeOrder.taken_zero, Finset.subset_empty] at hsub
    rw [hsub, hforest, Finset.sum_empty]
    exact ⟨by decide, by decide⟩

/-- The answer, when the edges have run out or all nodes are connected: all sums have fitted. -/
theorem answer (h : Joining nn es order k s) (horder : EdgeOrder es idx order) (hnodes : nn ≠ 0)
    (hend : es.length ≤ k ∨ nn - 1 ≤ s.inMst) :
    KruskalSumsFit nn es ∧ MstWeight nn es (if nn - 1 ≤ s.inMst then some s.total else none) := by
  have hlower := horder.lower nn k
  obtain ⟨rank, hparents⟩ := h.parents
  by_cases henough : nn - 1 ≤ s.inMst
  · -- one tree is left
    have hconn : ∀ x y, x < nn → y < nn → Connects (edgeEnds es) (taken nn es order k) x y := by
      intro x y hx hy
      obtain ⟨r, hr⟩ := hparents.exists_root x
      obtain ⟨t, ht⟩ := hparents.exists_root y
      have hcount := h.count
      have hone : (rootNodes nn s.parent).card ≤ 1 := by omega
      rw [← h.joined, sameRoot_iff hr ht]
      exact Finset.card_le_one.mp hone r
        (Finset.mem_filter.mpr ⟨Finset.mem_range.mpr (hparents.root_lt hr hx), hr.isRoot⟩) t
        (Finset.mem_filter.mpr ⟨Finset.mem_range.mpr (hparents.root_lt ht hy), ht.isRoot⟩)
    have hmin := minimum_firstForest hlower hconn
    rw [if_pos henough]
    refine ⟨fun Q hQ => ?_, hnodes, fun x y hx hy => (hconn x y hx hy).mono hlower.subset, _,
      hmin, h.total⟩
    rcases hQ.total hlower with hsub | hsub
    · exact h.fits Q hQ hsub
    · rw [(minimum_firstForest hQ fun x y hx hy => (hconn x y hx hy).mono hsub).sum_eq hmin]
      exact h.fits _ hlower (Finset.Subset.refl _)
  · have hall : taken nn es order k = nodeEdges nn es :=
      horder.taken_all (hend.resolve_right henough)
    rw [if_neg henough]
    refine ⟨fun Q hQ => h.fits Q hQ (hall ▸ hQ.subset), Or.inr fun hconn => ?_⟩
    -- two trees are left, whose roots are not connected
    have hcount := h.count
    obtain ⟨r, hr, t, ht, hne⟩ := Finset.one_lt_card.mp
      (show 1 < (rootNodes nn s.parent).card by omega)
    obtain ⟨hrn, hrroot⟩ := Finset.mem_filter.mp hr
    obtain ⟨htn, htroot⟩ := Finset.mem_filter.mp ht
    refine hne ((sameRoot_iff (.root hrroot) (.root htroot)).mp ((h.joined r t).mpr ?_))
    rw [hall]
    exact hconn r t (Finset.mem_range.mp hrn) (Finset.mem_range.mp htn)

end Joining

/-- The loop over the edges ends with the answer, or a sum does not fit. -/
theorem kruskal_loop {g : Graph} {s : Graph.Kruskal} (hg : GraphHolds g (nn, es))
    (horder : EdgeOrder es idx order) (hnodes : nn ≠ 0) (hs : Joining nn es order 0 s) :
    (∃ r, Outcome.loop (Graph.kruskalTurn g idx) (es.length + 1) (0, s) = .done r ∧
        KruskalSumsFit nn es ∧
          MstWeight nn es (if nn - 1 ≤ r.inMst then some r.total else none)) ∨
      Outcome.loop (Graph.kruskalTurn g idx) (es.length + 1) (0, s) = .stuck ∧
        ¬ KruskalSumsFit nn es := by
  refine Outcome.loop_of_measure_or_stuck (fun x => Joining nn es order x.1 x.2)
    (fun x => es.length - x.1) (by dsimp only; omega) hs ?_
  rintro ⟨k, s⟩ h
  by_cases hk : k < es.length
  · obtain ⟨s', hrun | ⟨hrun, henough⟩, h'⟩ | hstuck := h.turn hg horder hk
    · exact Or.inl ⟨_, hrun, h', by dsimp only; omega⟩
    · exact Or.inr (Or.inl ⟨s', hrun, h'.answer horder hnodes (Or.inr henough)⟩)
    · exact Or.inr (Or.inr hstuck)
  · refine Or.inr (Or.inl ⟨s, ?_, h.answer horder hnodes (Or.inl (by omega))⟩)
    have hedges : g.numEdges = es.length := hg.edges
    unfold Graph.kruskalTurn
    simp only [hedges, if_neg hk, Outcome.pure_eq]

end

/-! ## The call -/

/-- Each cell is given its number. -/
theorem numbered {n : Nat} {a : Array Nat} (hn : n ≤ a.size) :
    ∃ a', Outcome.forRange (fun i a => Outcome.write a i i) n a = .done a' ∧ a'.size = a.size ∧
      ∀ k, k < n → a'[k]? = some k := by
  refine Outcome.forRange_of_step
    (fun i (b : Array Nat) => b.size = a.size ∧ ∀ k, k < i → b[k]? = some k) ⟨rfl, nofun⟩ ?_
  rintro i b hi ⟨hsize, hbefore⟩
  obtain ⟨b', hwrite, hsize', hat, hne⟩ := Outcome.write_ok (a := b) (i := i) (by omega) i
  refine ⟨b', hwrite, hsize'.trans hsize, fun k hk => ?_⟩
  by_cases hki : k = i
  · rw [hki, hat]
  · rw [hne k hki]
    exact hbefore k (by omega)

theorem not_numbered {n : Nat} {a a' : Array Nat} (hn : a.size < n) :
    Outcome.forRange (fun i a => Outcome.write a i i) n a ≠ .done a' := by
  intro hrun
  have hkeep : a'.size = a.size ∧ n ≤ a.size := by
    refine Outcome.forRange_keeps (fun i b => b.size = a.size ∧ i ≤ a.size)
      ⟨rfl, Nat.zero_le _⟩ ?_ hrun
    rintro i b b' hi ⟨hsize, -⟩ hwrite
    obtain ⟨hlt, rfl⟩ := Outcome.write_eq_done hwrite
    rw [Array.size_setIfInBounds]
    exact ⟨hsize, by omega⟩
  omega

section

variable {nn : Nat} {es : List Edge} {g : Graph}

/-- The sorted numbers, as edges. -/
theorem exists_order {idx : Array Nat} {l : List Nat} (hg : GraphHolds g (nn, es))
    (hperm : l.Perm (List.range es.length)) (hsorted : l.Pairwise (EdgeBefore g.edgeWeight))
    (hcells : ∀ k, k < es.length → idx[k]? = l[k]?) : ∃ order, EdgeOrder es idx order := by
  have hmem : ∀ x ∈ l, x < es.length := fun x hx => List.mem_range.mp (hperm.subset hx)
  have hcost : ∀ (x : Nat) (hx : x < es.length),
      weightAt g.edgeWeight x = edgeCost es ⟨x, hx⟩ := by
    intro x hx
    have hat := hg.weight x _ (List.getElem?_eq_getElem hx)
    unfold weightAt edgeCost
    rw [Array.getD_eq_getD_getElem?, hat]
    rfl
  refine ⟨l.pmap Fin.mk hmem, fun i => ?_, ?_, ?_, fun k hk => ?_⟩
  · rw [List.mem_pmap]
    exact ⟨i.val, hperm.symm.subset (List.mem_range.mpr i.isLt), rfl⟩
  · rw [List.pairwise_pmap]
    refine hsorted.imp fun {x y} hxy hx hy => ?_
    unfold edgeKey
    rw [Prod.Lex.toLex_lt_toLex]
    unfold EdgeBefore at hxy
    rw [hcost x hx, hcost y hy] at hxy
    exact hxy
  · rw [List.length_pmap, hperm.length_eq, List.length_range]
  · rw [hcells k hk, List.getElem?_pmap, Option.map_pmap]
    simp

/-- The memory that is asked for to run Kruskal's algorithm is refused. -/
def kruskalRefused (heap : Nat → Bool) (g : Graph) : Prop :=
  malloc heap ((if g.numEdges = 0 then 1 else g.numEdges) * 8) = false ∨
    malloc heap (g.numNodes * 8) = false

theorem indexBytes_lt (hbytes : es.length * 8 < 2 ^ 63) :
    (if es.length = 0 then 1 else es.length) * 8 < 2 ^ 63 := by
  split <;> omega

/-- What is left to do once the edges are sorted and the parents have their memory. -/
theorem kruskal_sorted (hg : GraphHolds g (nn, es)) (hbytes : es.length * 8 < 2 ^ 63)
    (htwo : 2 ≤ nn) {heap : Nat → Bool} {parent : Array Nat}
    (hgrant : malloc heap ((if es.length = 0 then 1 else es.length) * 8) = true)
    (halloc : Graph.allocate heap nn 8 0 = .done parent) :
    ∃ idx order, EdgeOrder es idx order ∧ g.mstKruskal heap =
      (Outcome.forRange (fun i a => Outcome.write a i i) nn parent >>= fun parent =>
        Outcome.loop (Graph.kruskalTurn g idx) (es.length + 1) (0, ⟨parent, 0, 0⟩) >>= fun s =>
          pure (if nn - 1 ≤ s.inMst then some s.total else none)) := by
  have hnn : g.numNodes = nn := hg.nodes
  have hne : g.numEdges = es.length := hg.edges
  have hfits := hg.fits
  have hcells := indexBytes_lt hbytes
  obtain ⟨-, -, hweights⟩ := hg.sizes
  have halloc' := (allocate_cases heap (0 : Nat) (by decide)
    (show (if es.length = 0 then 1 else es.length) * 8 < 2 ^ 64 by omega)).resolve_left
      fun ⟨_, href⟩ => by rw [hgrant] at href; cases href
  have hroom : es.length ≤ if es.length = 0 then 1 else es.length := by
    split <;> omega
  obtain ⟨idx, hidx, hsize, hself⟩ := numbered (n := es.length)
    (a := Array.replicate (if es.length = 0 then 1 else es.length) 0)
    (by rw [Array.size_replicate]; exact hroom)
  rw [Array.size_replicate] at hsize
  obtain ⟨idx', hsort, l, hperm, hsorted, hlist⟩ := sortEdges_ok
    (show es.length ≤ idx.size by omega) (show es.length ≤ g.edgeWeight.size by omega) hself
  obtain ⟨order, horder⟩ := exists_order hg hperm hsorted hlist
  have hzero : (nn == 0) = false := beq_false_of_ne (by omega)
  have hone : (nn == 1) = false := beq_false_of_ne (by omega)
  refine ⟨idx', order, horder, ?_⟩
  unfold Graph.mstKruskal
  rw [hnn, hne, hzero, hone, if_neg Bool.false_ne_true, if_neg Bool.false_ne_true, halloc',
    Outcome.done_bind, halloc, Outcome.done_bind, hidx, Outcome.done_bind, hsort,
    Outcome.done_bind]

/-- Kruskal's algorithm with its memory granted. -/
theorem kruskal_granted (hg : GraphHolds g (nn, es)) (hbytes : es.length * 8 < 2 ^ 63)
    (htwo : 2 ≤ nn) (hnodes : nn < 2 ^ 60) {heap : Nat → Bool}
    (hgrant : ¬ kruskalRefused heap g) :
    (∃ r, g.mstKruskal heap = .done r ∧ KruskalSumsFit nn es ∧ MstWeight nn es r) ∨
      g.mstKruskal heap = .stuck ∧ ¬ KruskalSumsFit nn es := by
  have hnn : g.numNodes = nn := hg.nodes
  have hne : g.numEdges = es.length := hg.edges
  unfold kruskalRefused at hgrant
  rw [hnn, hne, not_or, Bool.not_eq_false, Bool.not_eq_false] at hgrant
  have halloc := (allocate_cases heap (0 : Nat) (show 0 < 8 by decide)
    (show nn * 8 < 2 ^ 64 by omega)).resolve_left
      fun ⟨_, href⟩ => by rw [hgrant.2] at href; cases href
  obtain ⟨idx, order, horder, hrun⟩ := kruskal_sorted hg hbytes htwo hgrant.1 halloc
  obtain ⟨parent, hparent, hsize, hself⟩ := numbered (n := nn) (a := Array.replicate nn 0)
    (by rw [Array.size_replicate])
  rw [Array.size_replicate] at hsize
  rw [hrun, hparent, Outcome.done_bind]
  rcases kruskal_loop hg horder (by omega) (Joining.start hsize hself) with
    ⟨s, hloop, hfit, hmst⟩ | ⟨hloop, hno⟩
  · exact Or.inl ⟨_, by rw [hloop]; rfl, hfit, hmst⟩
  · exact Or.inr ⟨by rw [hloop]; rfl, hno⟩

/-- Kruskal's algorithm where memory is refused. -/
theorem kruskal_aborted (hg : GraphHolds g (nn, es)) (hbytes : es.length * 8 < 2 ^ 63)
    (htwo : 2 ≤ nn) (hnodes : nn < 2 ^ 60 ∨ 2 ^ 63 ≤ nn * 8 % 2 ^ 64) {heap : Nat → Bool}
    (href : kruskalRefused heap g) : g.mstKruskal heap = .aborted := by
  have hnn : g.numNodes = nn := hg.nodes
  have hne : g.numEdges = es.length := hg.edges
  have hcells : (if es.length = 0 then 1 else es.length) * 8 < 2 ^ 64 :=
    Nat.lt_trans (indexBytes_lt hbytes) (by decide)
  have hzero : (nn == 0) = false := beq_false_of_ne (by omega)
  have hone : (nn == 1) = false := beq_false_of_ne (by omega)
  unfold kruskalRefused at href
  unfold Graph.mstKruskal
  rw [hnn, hne] at href
  rw [hnn, hne, hzero, hone, if_neg Bool.false_ne_true, if_neg Bool.false_ne_true]
  obtain ⟨hrun, -⟩ | hrun := allocate_cases heap (0 : Nat) (by decide) hcells
  · rw [hrun, Outcome.aborted_bind]
  · have hgrant : malloc heap ((if es.length = 0 then 1 else es.length) * 8) = true := by
      obtain ⟨hmalloc, -⟩ := allocate_eq_done hrun
      rwa [Nat.mod_eq_of_lt hcells] at hmalloc
    have hno : malloc heap (nn * 8 % 2 ^ 64) = false := by
      rcases hnodes with hlt | hlarge
      · rw [Nat.mod_eq_of_lt (by omega)]
        exact href.resolve_left (by rw [hgrant]; exact nofun)
      · rcases malloc_cases heap (nn * 8 % 2 ^ 64) with hno | ⟨-, hlt⟩
        · exact hno
        · omega
    rw [hrun, Outcome.done_bind]
    unfold Graph.allocate
    rw [hno]
    rfl

/-- For so many nodes the array of the parents is too short. -/
theorem kruskal_overruns (hg : GraphHolds g (nn, es)) (hbytes : es.length * 8 < 2 ^ 63)
    (hnodes : 2 ^ 60 ≤ nn) (hwrap : nn * 8 % 2 ^ 64 < 2 ^ 63) :
    g.mstKruskal (fun _ => true) = .stuck := by
  have halloc : Graph.allocate (fun _ => true) nn 8 0 =
      .done (Array.replicate (nn * 8 % 2 ^ 64 / 8) 0) := by
    unfold Graph.allocate
    rw [malloc_granted hwrap, if_pos rfl, Outcome.pure_eq]
  obtain ⟨idx, order, -, hrun⟩ := kruskal_sorted hg hbytes (by omega)
    (malloc_granted (indexBytes_lt hbytes)) halloc
  rw [hrun]
  cases hfill : Outcome.forRange (fun i a => Outcome.write a i i) nn
      (Array.replicate (nn * 8 % 2 ^ 64 / 8) 0) with
  | done a =>
    refine absurd hfill (not_numbered ?_)
    rw [Array.size_replicate]
    omega
  | aborted => exact absurd hfill (Outcome.forRange_ne_aborted fun i a =>
      Outcome.write_ne_aborted a i i)
  | stuck => rfl

end

end Vani.Analysis
