import Mathlib.Data.Finset.Card
import Mathlib.Data.Finset.Filter
import Vani.Library.Worklist

/-!
# Depth-first walks

The walk over a graph that marks a node when it comes to it and lists it when its successors
are done. Whatever the graph, cycles included, every node that can be reached is listed once,
and a node after each of its successors that cannot reach it back: a successor that is marked
but not yet listed is on the way to the node.
-/

set_option autoImplicit false

namespace Vani.Library

variable {α : Type} {succ : α → List α}

/-- The walk from a node, on the marked and on the listed nodes, with a bound on its depth. -/
def walk [DecidableEq α] (succ : α → List α) : Nat → α → List α × List α → Option (List α × List α)
  | 0, _, _ => none
  | fuel + 1, x, s =>
    if x ∈ s.1 then some s
    else ((succ x).foldlM (fun s y => walk succ fuel y s) (x :: s.1, s.2)).map
      fun s => (s.1, s.2 ++ [x])

/-- The marked nodes are listed, or on the way to the roots. -/
def OnTheWay (succ : α → List α) (roots : List α) (s : List α × List α) : Prop :=
  ∀ z ∈ s.1, z ∈ s.2 ∨ ∀ r ∈ roots, Reaches succ z r

/-- What a walk from some roots adds. -/
structure Walked (succ : α → List α) (roots : List α) (s : List α × List α) (new : List α)
    (s' : List α × List α) : Prop where
  listed : s'.2 = s.2 ++ new
  marked : ∀ y, y ∈ s'.1 ↔ y ∈ s.1 ∨ y ∈ new
  nodup : new.Nodup
  fresh : ∀ y ∈ new, y ∉ s.1
  reached : ∀ y ∈ new, ∃ r ∈ roots, Reaches succ r y
  roots_marked : ∀ r ∈ roots, r ∈ s'.1
  closed : ∀ y ∈ new, ∀ z ∈ succ y, z ∈ s'.1
  ordered : ∀ y ∈ new, ∀ z ∈ succ y, [z, y].Sublist s'.2 ∨ Reaches succ z y

namespace Walked

variable {roots others new more : List α} {s s' s'' : List α × List α} {x : α}

theorem nothing (h : ∀ r ∈ roots, r ∈ s.1) : Walked succ roots s [] s where
  listed := (List.append_nil _).symm
  marked y := by simp
  nodup := List.nodup_nil
  fresh := by simp
  reached := by simp
  roots_marked := h
  closed := by simp
  ordered := by simp

/-- The rest of the roots still find the marked nodes listed or on the way. -/
theorem onTheWay (h : Walked succ roots s new s') (hway : OnTheWay succ others s) :
    OnTheWay succ others s' := by
  intro z hz
  rw [h.listed, List.mem_append]
  rcases (h.marked z).mp hz with hz | hz
  · exact (hway z hz).imp_left Or.inl
  · exact Or.inl (Or.inr hz)

/-- One walk after another. -/
theorem append (h : Walked succ roots s new s') (h' : Walked succ others s' more s'') :
    Walked succ (roots ++ others) s (new ++ more) s'' where
  listed := by rw [h'.listed, h.listed, List.append_assoc]
  marked y := by rw [h'.marked, h.marked, List.mem_append, or_assoc]
  nodup := by
    rw [List.nodup_append']
    refine ⟨h.nodup, h'.nodup, fun y hy hy' => ?_⟩
    exact h'.fresh y hy' ((h.marked y).mpr (Or.inr hy))
  fresh y hy hold := by
    rcases List.mem_append.mp hy with hy | hy
    · exact h.fresh y hy hold
    · exact h'.fresh y hy ((h.marked y).mpr (Or.inl hold))
  reached y hy := by
    rcases List.mem_append.mp hy with hy | hy
    · obtain ⟨r, hr, hreach⟩ := h.reached y hy
      exact ⟨r, List.mem_append_left _ hr, hreach⟩
    · obtain ⟨r, hr, hreach⟩ := h'.reached y hy
      exact ⟨r, List.mem_append_right _ hr, hreach⟩
  roots_marked r hr := by
    rcases List.mem_append.mp hr with hr | hr
    · exact (h'.marked r).mpr (Or.inl (h.roots_marked r hr))
    · exact h'.roots_marked r hr
  closed y hy z hz := by
    rcases List.mem_append.mp hy with hy | hy
    · exact (h'.marked z).mpr (Or.inl (h.closed y hy z hz))
    · exact h'.closed y hy z hz
  ordered y hy z hz := by
    rcases List.mem_append.mp hy with hy | hy
    · refine (h.ordered y hy z hz).imp_left fun hsub => ?_
      rw [h'.listed]
      exact hsub.trans (List.sublist_append_left _ _)
    · exact h'.ordered y hy z hz

/-- A node is listed after the walk from its successors. -/
theorem finish (hx : x ∉ s.1) (hway : OnTheWay succ [x] s)
    (h : Walked succ (succ x) (x :: s.1, s.2) new s') :
    Walked succ [x] s (new ++ [x]) (s'.1, s'.2 ++ [x]) where
  listed := by rw [h.listed, List.append_assoc]
  marked y := by
    rw [h.marked, List.mem_cons, List.mem_append, List.mem_singleton]
    tauto
  nodup := by
    rw [List.nodup_append']
    refine ⟨h.nodup, List.nodup_singleton x, fun y hy hyx => ?_⟩
    rw [List.mem_singleton.mp hyx] at hy
    exact h.fresh x hy List.mem_cons_self
  fresh y hy hold := by
    rcases List.mem_append.mp hy with hy | hy
    · exact h.fresh y hy (List.mem_cons_of_mem _ hold)
    · exact hx (List.mem_singleton.mp hy ▸ hold)
  reached y hy := by
    refine ⟨x, List.mem_singleton_self x, ?_⟩
    rcases List.mem_append.mp hy with hy | hy
    · obtain ⟨r, hr, hreach⟩ := h.reached y hy
      exact (Reaches.start.step hr).trans hreach
    · rw [List.mem_singleton.mp hy]
      exact Reaches.start
  roots_marked r hr := by
    rw [List.mem_singleton.mp hr]
    exact (h.marked x).mpr (Or.inl List.mem_cons_self)
  closed y hy z hz := by
    rcases List.mem_append.mp hy with hy | hy
    · exact h.closed y hy z hz
    · rw [List.mem_singleton.mp hy] at hz
      exact h.roots_marked z hz
  ordered y hy z hz := by
    rcases List.mem_append.mp hy with hy | hy
    · exact (h.ordered y hy z hz).imp_left fun hsub =>
        hsub.trans (List.sublist_append_left _ _)
    · rw [List.mem_singleton.mp hy] at hz ⊢
      -- a listed successor comes before the node, an unlisted one is on the way to it
      have hlisted : z ∈ s'.2 → [z, x].Sublist (s'.2 ++ [x]) := fun hmem =>
        (List.singleton_sublist.mpr hmem).append (List.Sublist.refl [x])
      rcases (h.marked z).mp (h.roots_marked z hz) with hold | hnew
      · rcases List.mem_cons.mp hold with rfl | hold
        · exact Or.inr Reaches.start
        · rcases hway z hold with hmem | hreach
          · refine Or.inl (hlisted ?_)
            rw [h.listed]
            exact List.mem_append_left _ hmem
          · exact Or.inr (hreach x (List.mem_singleton_self x))
      · refine Or.inl (hlisted ?_)
        rw [h.listed]
        exact List.mem_append_right _ hnew

end Walked

/-! ## The walk -/

variable {s s' : List α × List α} {x : α} {fuel : Nat}

/-- A walk from one root after another. -/
theorem foldlM_walked {run : List α × List α → α → Option (List α × List α)} {roots : List α}
    (hrun : ∀ r s s', OnTheWay succ [r] s → run s r = some s' → ∃ new, Walked succ [r] s new s')
    (hway : OnTheWay succ roots s) (h : roots.foldlM run s = some s') :
    ∃ new, Walked succ roots s new s' := by
  induction roots generalizing s with
  | nil =>
    cases h
    exact ⟨[], .nothing (by simp)⟩
  | cons r roots ih =>
    rw [List.foldlM_cons, Option.bind_eq_bind, Option.bind_eq_some_iff] at h
    obtain ⟨s₁, hfirst, hrest⟩ := h
    have hway₁ : OnTheWay succ [r] s := fun z hz => (hway z hz).imp_right fun hall r' hr' => by
      rw [List.mem_singleton.mp hr']
      exact hall r List.mem_cons_self
    obtain ⟨new, hnew⟩ := hrun r s s₁ hway₁ hfirst
    have hway' : OnTheWay succ roots s := fun z hz => (hway z hz).imp_right fun hall r' hr' =>
      hall r' (List.mem_cons_of_mem _ hr')
    obtain ⟨more, hmore⟩ := ih (hnew.onTheWay hway') hrest
    exact ⟨new ++ more, hnew.append hmore⟩

variable [DecidableEq α]

/-- What a walk adds. -/
theorem walk_walked (hway : OnTheWay succ [x] s) (h : walk succ fuel x s = some s') :
    ∃ new, Walked succ [x] s new s' := by
  induction fuel generalizing x s s' with
  | zero => cases h
  | succ fuel ih =>
    rw [walk] at h
    split at h
    · next hx =>
      cases h
      exact ⟨[], .nothing (by simpa using hx)⟩
    · next hx =>
      obtain ⟨s₁, hrun, rfl⟩ := Option.map_eq_some_iff.mp h
      have hsucc : OnTheWay succ (succ x) (x :: s.1, s.2) := by
        intro z hz
        rcases List.mem_cons.mp hz with rfl | hz
        · exact Or.inr fun r hr => Reaches.start.step hr
        · exact (hway z hz).imp_right fun hall r hr =>
            (hall x (List.mem_singleton_self x)).step hr
      obtain ⟨new, hnew⟩ := foldlM_walked (fun r s s' hr hrun => ih hr hrun) hsucc hrun
      exact ⟨new ++ [x], hnew.finish hx hway⟩

/-! ## Enough depth -/

/-- The nodes of a set that are not marked. -/
def unmarked (S : Finset α) (s : List α × List α) : Finset α := {y ∈ S | y ∉ s.1}

theorem unmarked_mono {S : Finset α} (h : s.1 ⊆ s'.1) : unmarked S s' ⊆ unmarked S s := by
  intro y hy
  rw [unmarked, Finset.mem_filter] at hy ⊢
  exact ⟨hy.1, fun hold => hy.2 (h hold)⟩

/-- In a finite set that is closed under successors, a walk as deep as there are nodes that are
not marked comes to its end, and unmarks nothing. -/
theorem walk_total {S : Finset α} (hclosed : ∀ y ∈ S, ∀ z ∈ succ y, z ∈ S) (hx : x ∈ S)
    (hfuel : (unmarked S s).card < fuel) : ∃ s', walk succ fuel x s = some s' ∧ s.1 ⊆ s'.1 := by
  induction fuel generalizing x s with
  | zero => exact absurd hfuel (Nat.not_lt_zero _)
  | succ fuel ih =>
    rw [walk]
    by_cases hmem : x ∈ s.1
    · exact ⟨s, if_pos hmem, List.Subset.refl _⟩
    rw [if_neg hmem]
    have hless : (unmarked S (x :: s.1, s.2)).card < fuel := by
      have hstrict : unmarked S (x :: s.1, s.2) ⊂ unmarked S s := by
        refine Finset.ssubset_iff_of_subset (unmarked_mono (List.subset_cons_self _ _)) |>.mpr ?_
        refine ⟨x, Finset.mem_filter.mpr ⟨hx, hmem⟩, fun h => ?_⟩
        exact (Finset.mem_filter.mp h).2 List.mem_cons_self
      have := Finset.card_lt_card hstrict
      omega
    have hall : ∀ (roots : List α) (s : List α × List α), (∀ r ∈ roots, r ∈ S) →
        (unmarked S s).card < fuel →
        ∃ s', roots.foldlM (fun s y => walk succ fuel y s) s = some s' ∧ s.1 ⊆ s'.1 := by
      intro roots
      induction roots with
      | nil => exact fun s _ _ => ⟨s, rfl, List.Subset.refl _⟩
      | cons r roots ihr =>
        intro s hroots hs
        obtain ⟨hr, hrest⟩ := List.forall_mem_cons.mp hroots
        obtain ⟨s₁, hrun, hsub⟩ := ih hr hs
        have hs₁ := (Finset.card_le_card (unmarked_mono (S := S) hsub)).trans_lt hs
        obtain ⟨s₂, hrun₂, hsub₂⟩ := ihr s₁ hrest hs₁
        refine ⟨s₂, ?_, List.Subset.trans hsub hsub₂⟩
        rw [List.foldlM_cons, hrun]
        exact hrun₂
    obtain ⟨s₁, hrun, hsub⟩ := hall (succ x) _ (hclosed x hx) hless
    refine ⟨(s₁.1, s₁.2 ++ [x]), by rw [hrun]; rfl, fun y hy => ?_⟩
    exact hsub (List.mem_cons_of_mem _ hy)

end Vani.Library
