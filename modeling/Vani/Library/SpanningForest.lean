import Vani.Library.DisjointSets
import Mathlib.Algebra.BigOperators.Group.Finset.Basic
import Mathlib.Algebra.Order.BigOperators.Group.Finset
import Mathlib.Data.Finset.Powerset
import Mathlib.Data.Finset.Max

/-!
# Minimum spanning forests

The edges of an undirected graph, each with its two ends and its weight. A spanning forest connects
what the edges connect and would not without any one of its own. A set of edges that is part of a
minimum spanning forest stays so with a lightest edge across a cut that none of them crosses, and
is a minimum spanning forest once it connects what the edges connect.
-/

set_option autoImplicit false

namespace Vani.Library

variable {α ε : Type} {ends : ε → α × α} {weight : ε → Int} {E F G M : Finset ε} {e f : ε}
  {x y z : α}

/-- The edges connect the two nodes. -/
def Connects (ends : ε → α × α) (F : Finset ε) : α → α → Prop :=
  Joined (F.toList.map ends)

theorem connects_equivalence (ends : ε → α × α) (F : Finset ε) : Equivalence (Connects ends F) :=
  joined_equivalence _

theorem connects_empty : Connects ends ∅ x y ↔ x = y := by
  unfold Connects
  rw [Finset.toList_empty, List.map_nil]
  exact joined_nil

theorem connects_of_mem (h : e ∈ F) : Connects ends F (ends e).1 (ends e).2 :=
  Relation.EqvGen.rel _ _ (List.mem_map_of_mem (Finset.mem_toList.mpr h))

/-- What edges connect is connected by edges that connect the ends of each. -/
theorem Connects.of_ends (h : Connects ends F x y)
    (hends : ∀ e ∈ F, Connects ends G (ends e).1 (ends e).2) : Connects ends G x y := by
  have heq := connects_equivalence ends G
  induction h with
  | rel a b hmem =>
    obtain ⟨e, he, hab⟩ := List.mem_map.mp hmem
    have hend := hends e (Finset.mem_toList.mp he)
    rwa [hab] at hend
  | refl => exact heq.refl _
  | symm _ _ _ ih => exact heq.symm ih
  | trans _ _ _ _ _ ih₁ ih₂ => exact heq.trans ih₁ ih₂

theorem Connects.mono (h : Connects ends F x y) (hsub : F ⊆ G) : Connects ends G x y :=
  h.of_ends fun _ he => connects_of_mem (hsub he)

/-- A way out of a set of nodes crosses its border. -/
theorem Connects.crosses (h : Connects ends F x y) (S : α → Prop) (hx : S x) (hy : ¬ S y) :
    ∃ e ∈ F, ¬ (S (ends e).1 ↔ S (ends e).2) := by
  by_contra hno
  have hkeep : S x ↔ S y := by
    clear hx hy
    induction h with
    | rel a b hmem =>
      obtain ⟨e, he, hab⟩ := List.mem_map.mp hmem
      by_contra hcross
      refine hno ⟨e, Finset.mem_toList.mp he, ?_⟩
      rwa [hab]
    | refl => exact Iff.rfl
    | symm _ _ _ ih => exact ih.symm
    | trans _ _ _ _ _ ih₁ ih₂ => exact ih₁.trans ih₂
  exact hy (hkeep.mp hx)

variable [DecidableEq ε]

theorem connects_insert : Connects ends (insert e F) x y ↔
    Connects ends F x y ∨ Connects ends F x (ends e).1 ∧ Connects ends F (ends e).2 y ∨
      Connects ends F x (ends e).2 ∧ Connects ends F (ends e).1 y := by
  have hsame : Connects ends (insert e F) x y ↔
      Joined (((ends e).1, (ends e).2) :: F.toList.map ends) x y := by
    have hmem : ∀ p : α × α, p ∈ (insert e F).toList.map ends ↔
        p ∈ ((ends e).1, (ends e).2) :: F.toList.map ends := by
      intro p
      simp only [List.mem_map, Finset.mem_toList, Finset.mem_insert, List.mem_cons,
        or_and_right, exists_or, exists_eq_left, Prod.mk.eta]
      exact or_congr_left eq_comm
    constructor
    · exact Relation.EqvGen.mono (fun _ _ h => (hmem _).mp h) _ _
    · exact Relation.EqvGen.mono (fun _ _ h => (hmem _).mpr h) _ _
  rw [hsame]
  exact joined_cons

/-! ## Spanning forests -/

/-- The edges of a forest connect what all edges connect, and would not without one of them. -/
structure SpanningForest (ends : ε → α × α) (E F : Finset ε) : Prop where
  subset : F ⊆ E
  spans : ∀ e ∈ E, Connects ends F (ends e).1 (ends e).2
  independent : ∀ f ∈ F, ¬ Connects ends (F.erase f) (ends f).1 (ends f).2

/-- A spanning forest than which none is lighter. -/
structure MinimumForest (ends : ε → α × α) (weight : ε → Int) (E M : Finset ε) : Prop where
  forest : SpanningForest ends E M
  least : ∀ F, SpanningForest ends E F → M.sum weight ≤ F.sum weight

theorem exists_spanningForest (ends : ε → α × α) (E : Finset ε) :
    ∃ F, SpanningForest ends E F := by
  classical
  obtain ⟨F, hF, hleast⟩ := Finset.exists_min_image
    (E.powerset.filter fun F => ∀ e ∈ E, Connects ends F (ends e).1 (ends e).2) Finset.card
    ⟨E, Finset.mem_filter.mpr ⟨Finset.mem_powerset_self E, fun e he => connects_of_mem he⟩⟩
  rw [Finset.mem_filter, Finset.mem_powerset] at hF
  refine ⟨F, hF.1, hF.2, fun f hf hconn => ?_⟩
  -- without an edge whose ends the others connect, as much is connected by fewer edges
  have hfewer := hleast (F.erase f) (Finset.mem_filter.mpr
    ⟨Finset.mem_powerset.mpr ((Finset.erase_subset f F).trans hF.1), fun e he => ?_⟩)
  · have hlt := Finset.card_erase_lt_of_mem hf
    omega
  · refine (hF.2 e he).of_ends fun g hg => ?_
    by_cases hgf : g = f
    · rwa [hgf]
    · exact connects_of_mem (Finset.mem_erase.mpr ⟨hgf, hg⟩)

theorem exists_minimumForest (ends : ε → α × α) (weight : ε → Int) (E : Finset ε) :
    ∃ M, MinimumForest ends weight E M := by
  classical
  obtain ⟨F, hF⟩ := exists_spanningForest ends E
  obtain ⟨M, hM, hleast⟩ := Finset.exists_min_image
    (E.powerset.filter fun F => SpanningForest ends E F) (fun F => F.sum weight)
    ⟨F, Finset.mem_filter.mpr ⟨Finset.mem_powerset.mpr hF.subset, hF⟩⟩
  rw [Finset.mem_filter] at hM
  exact ⟨M, hM.2, fun F hF => hleast F
    (Finset.mem_filter.mpr ⟨Finset.mem_powerset.mpr hF.subset, hF⟩)⟩

theorem MinimumForest.sum_eq {M' : Finset ε} (h : MinimumForest ends weight E M)
    (h' : MinimumForest ends weight E M') : M.sum weight = M'.sum weight :=
  le_antisymm (h.least M' h'.forest) (h'.least M h.forest)

/-- An edge of a forest on the way between the ends of another edge can be exchanged for it. -/
theorem SpanningForest.exchange (h : SpanningForest ends E M) (he : e ∈ E) (hf : f ∈ M)
    (hcut : ¬ Connects ends (M.erase f) (ends e).1 (ends e).2) :
    SpanningForest ends E (insert e (M.erase f)) := by
  have hrest := connects_equivalence ends (M.erase f)
  have hnew := connects_equivalence ends (insert e (M.erase f))
  have hmono : ∀ {a b}, Connects ends (M.erase f) a b →
      Connects ends (insert e (M.erase f)) a b := fun h => h.mono (Finset.subset_insert _ _)
  have hedge : Connects ends (insert e (M.erase f)) (ends e).1 (ends e).2 :=
    connects_of_mem (Finset.mem_insert_self _ _)
  refine ⟨Finset.insert_subset he ((Finset.erase_subset f M).trans h.subset), fun g hg => ?_,
    fun g hg hconn => ?_⟩
  · refine (h.spans g hg).of_ends fun m hm => ?_
    by_cases hmf : m = f
    · subst hmf
      -- the ends of the edge taken out are connected to the ends of the new one
      have hway := h.spans e he
      rw [← Finset.insert_erase hm, connects_insert] at hway
      rcases hway with hno | ⟨h₁, h₂⟩ | ⟨h₁, h₂⟩
      · exact absurd hno hcut
      · exact hnew.trans (hnew.symm (hmono h₁)) (hnew.trans hedge (hnew.symm (hmono h₂)))
      · exact hnew.trans (hmono h₂) (hnew.trans (hnew.symm hedge) (hmono h₁))
    · exact connects_of_mem (Finset.mem_insert_of_mem (Finset.mem_erase.mpr ⟨hmf, hm⟩))
  · by_cases hge : g = e
    · subst hge
      exact hcut (hconn.mono (Finset.erase_insert_subset g _))
    · have hgM : g ∈ M.erase f := (Finset.mem_insert.mp hg).resolve_left hge
      have hkeep : ∀ {a b}, Connects ends ((M.erase f).erase g) a b →
          Connects ends (M.erase f) a b := fun h => h.mono (Finset.erase_subset _ _)
      have hgg : Connects ends (M.erase f) (ends g).1 (ends g).2 := connects_of_mem hgM
      rw [Finset.erase_insert_of_ne (fun heq => hge heq.symm), connects_insert] at hconn
      rcases hconn with hno | ⟨h₁, h₂⟩ | ⟨h₁, h₂⟩
      · refine h.independent g (Finset.mem_of_mem_erase hgM) (hno.mono ?_)
        exact Finset.erase_subset_erase g (Finset.erase_subset f M)
      · exact hcut (hrest.trans (hrest.symm (hkeep h₁)) (hrest.trans hgg (hrest.symm (hkeep h₂))))
      · exact hcut (hrest.trans (hkeep h₂) (hrest.trans (hrest.symm hgg) (hkeep h₁)))

/-- On the way between nodes on the two sides of a border there is an edge of the forest that
crosses it and without which the way is gone. -/
theorem SpanningForest.exists_crossing (h : SpanningForest ends E M) (S : α → Prop)
    (hconn : Connects ends M x y) (hx : S x) (hy : ¬ S y) :
    ∃ f ∈ M, ¬ (S (ends f).1 ↔ S (ends f).2) ∧ ¬ Connects ends (M.erase f) x y := by
  classical
  -- edges across the border are added to the others, until the two nodes are connected
  have key : ∀ G : Finset ε, G ⊆ M → (∀ g ∈ G, ¬ (S (ends g).1 ↔ S (ends g).2)) →
      Connects ends ((M.filter fun f => S (ends f).1 ↔ S (ends f).2) ∪ G) x y →
      ∃ f ∈ M, ¬ (S (ends f).1 ↔ S (ends f).2) ∧ ¬ Connects ends (M.erase f) x y := by
    intro G
    induction G using Finset.induction_on with
    | empty =>
      intro _ _ hway
      rw [Finset.union_empty] at hway
      obtain ⟨e, he, hcross⟩ := hway.crosses S hx hy
      exact absurd (Finset.mem_filter.mp he).2 hcross
    | insert g G hg ih =>
      intro hsub hcross hway
      by_cases hbefore :
          Connects ends ((M.filter fun f => S (ends f).1 ↔ S (ends f).2) ∪ G) x y
      · exact ih ((Finset.subset_insert g G).trans hsub)
          (fun f hf => hcross f (Finset.mem_insert_of_mem hf)) hbefore
      · have hgM : g ∈ M := hsub (Finset.mem_insert_self g G)
        have hgcross := hcross g (Finset.mem_insert_self g G)
        refine ⟨g, hgM, hgcross, fun hno => ?_⟩
        have hrest := connects_equivalence ends (M.erase g)
        have hkeep : ∀ {a b}, Connects ends
            ((M.filter fun f => S (ends f).1 ↔ S (ends f).2) ∪ G) a b →
            Connects ends (M.erase g) a b := fun h => h.mono fun f hf => by
          rcases Finset.mem_union.mp hf with hf | hf
          · rw [Finset.mem_filter] at hf
            exact Finset.mem_erase.mpr ⟨fun heq => hgcross (heq ▸ hf.2), hf.1⟩
          · exact Finset.mem_erase.mpr ⟨fun heq => hg (heq ▸ hf),
              hsub (Finset.mem_insert_of_mem hf)⟩
        rw [Finset.union_insert, connects_insert] at hway
        rcases hway with hway | ⟨h₁, h₂⟩ | ⟨h₁, h₂⟩
        · exact hbefore hway
        · exact h.independent g hgM (hrest.trans (hrest.symm (hkeep h₁))
            (hrest.trans hno (hrest.symm (hkeep h₂))))
        · exact h.independent g hgM (hrest.trans (hkeep h₂)
            (hrest.trans (hrest.symm hno) (hkeep h₁)))
  refine key (M.filter fun f => ¬ (S (ends f).1 ↔ S (ends f).2)) (Finset.filter_subset _ _)
    (fun g hg => (Finset.mem_filter.mp hg).2) ?_
  rwa [Finset.filter_union_filter_not_eq]

/-! ## Parts of minimum spanning forests -/

/-- The edges are part of a minimum spanning forest. -/
def Extendable (ends : ε → α × α) (weight : ε → Int) (E F : Finset ε) : Prop :=
  ∃ M, MinimumForest ends weight E M ∧ F ⊆ M

theorem extendable_empty (ends : ε → α × α) (weight : ε → Int) (E : Finset ε) :
    Extendable ends weight E ∅ := by
  obtain ⟨M, hM⟩ := exists_minimumForest ends weight E
  exact ⟨M, hM, Finset.empty_subset M⟩

namespace Extendable

/-- A lightest edge across a border that no edge crosses so far is one more. -/
theorem insert_lightest (h : Extendable ends weight E F) (he : e ∈ E) (S : α → Prop)
    (hcross : ¬ (S (ends e).1 ↔ S (ends e).2))
    (hborder : ∀ f ∈ F, S (ends f).1 ↔ S (ends f).2)
    (hlightest : ∀ g ∈ E, ¬ (S (ends g).1 ↔ S (ends g).2) → weight e ≤ weight g) :
    Extendable ends weight E (insert e F) := by
  obtain ⟨M, hM, hFM⟩ := h
  by_cases heM : e ∈ M
  · exact ⟨M, hM, Finset.insert_subset heM hFM⟩
  · have hconn := hM.forest.spans e he
    obtain ⟨f, hf, hfcross, hcut⟩ : ∃ f ∈ M, ¬ (S (ends f).1 ↔ S (ends f).2) ∧
        ¬ Connects ends (M.erase f) (ends e).1 (ends e).2 := by
      by_cases h₁ : S (ends e).1
      · exact hM.forest.exists_crossing S hconn h₁ fun h₂ => hcross ⟨fun _ => h₂, fun _ => h₁⟩
      · have h₂ : S (ends e).2 := by
          by_contra h₂
          exact hcross ⟨fun h => absurd h h₁, fun h => absurd h h₂⟩
        obtain ⟨f, hf, hfcross, hcut⟩ := hM.forest.exists_crossing S
          ((connects_equivalence ends M).symm hconn) h₂ h₁
        exact ⟨f, hf, hfcross, fun h => hcut ((connects_equivalence ends _).symm h)⟩
    refine ⟨insert e (M.erase f), ⟨hM.forest.exchange he hf hcut, fun G hG => ?_⟩, ?_⟩
    · have hle := hlightest f (hM.forest.subset hf) hfcross
      have hleast := hM.least G hG
      have hnew : (insert e (M.erase f)).sum weight = weight e + (M.erase f).sum weight :=
        Finset.sum_insert fun hin => heM (Finset.mem_of_mem_erase hin)
      have hsum : weight f + (M.erase f).sum weight = M.sum weight :=
        Finset.add_sum_erase M weight hf
      omega
    · refine Finset.insert_subset_insert e fun g hg => Finset.mem_erase.mpr ⟨?_, hFM hg⟩
      rintro rfl
      exact hfcross (hborder g hg)

/-- Edges that connect all there is to connect are a minimum spanning forest. -/
theorem minimum (h : Extendable ends weight E F)
    (hspans : ∀ e ∈ E, Connects ends F (ends e).1 (ends e).2) :
    MinimumForest ends weight E F := by
  obtain ⟨M, hM, hFM⟩ := h
  have heq : F = M := by
    refine Finset.Subset.antisymm hFM fun g hg => ?_
    by_contra hgF
    refine hM.forest.independent g hg ((hspans g (hM.forest.subset hg)).mono fun f hf => ?_)
    exact Finset.mem_erase.mpr ⟨fun heq => hgF (heq ▸ hf), hFM hf⟩
  rw [heq]
  exact hM

end Extendable

/-! ## Edges taken in an order -/

section

variable {κ : Type} [LinearOrder κ] {key : ε → κ} {P : Finset ε}

open Classical in
/-- The edges whose ends the edges before them do not connect. -/
noncomputable def firstForest (ends : ε → α × α) (key : ε → κ) (P : Finset ε) : Finset ε :=
  P.filter fun e => ¬ Connects ends (P.filter fun f => key f < key e) (ends e).1 (ends e).2

/-- The edges of a set that are not after a certain one. -/
structure Lower (key : ε → κ) (E P : Finset ε) : Prop where
  subset : P ⊆ E
  before : ∀ e ∈ P, ∀ g ∈ E, key g ≤ key e → g ∈ P

omit [DecidableEq ε] in
omit [DecidableEq ε] in
omit [DecidableEq ε] in
/-- Of two such sets, one is part of the other. -/
theorem Lower.total {Q : Finset ε} (hP : Lower key E P) (hQ : Lower key E Q) : P ⊆ Q ∨ Q ⊆ P := by
  by_contra hno
  rw [not_or, Finset.not_subset, Finset.not_subset] at hno
  obtain ⟨⟨x, hx, hxQ⟩, y, hy, hyP⟩ := hno
  rcases le_total (key x) (key y) with hle | hle
  · exact hxQ (hQ.before y hy x (hP.subset hx) hle)
  · exact hyP (hP.before x hx y (hQ.subset hy) hle)

/-- A first part of one more edge has the edge and all the others, or only others. -/
theorem Lower.insert_cases {Q : Finset ε} (hQ : Lower key E Q) (hP : P ⊆ E)
    (hlast : ∀ f ∈ P, key f < key e) (hsub : Q ⊆ insert e P) : Q = insert e P ∨ Q ⊆ P := by
  by_cases he : e ∈ Q
  · refine Or.inl (Finset.Subset.antisymm hsub (Finset.insert_subset he fun f hf => ?_))
    exact hQ.before e he f (hP hf) (le_of_lt (hlast f hf))
  · refine Or.inr fun f hf => (Finset.mem_insert.mp (hsub hf)).resolve_left ?_
    rintro rfl
    exact he hf

omit [DecidableEq ε] in
theorem firstForest_subset : firstForest ends key P ⊆ P := by
  classical
  exact Finset.filter_subset _ _

variable (ends) in
/-- One more edge, after all the others. -/
theorem firstForest_insert (hlast : ∀ f ∈ P, key f < key e) :
    (Connects ends P (ends e).1 (ends e).2 →
      firstForest ends key (insert e P) = firstForest ends key P) ∧
    (¬ Connects ends P (ends e).1 (ends e).2 →
      firstForest ends key (insert e P) = insert e (firstForest ends key P)) := by
  classical
  have heP : e ∉ P := fun he => lt_irrefl _ (hlast e he)
  have hself : ((insert e P).filter fun f => key f < key e) = P := by
    rw [Finset.filter_insert, if_neg (lt_irrefl _), Finset.filter_true_of_mem hlast]
  have hother : ∀ f ∈ P, ((insert e P).filter fun g => key g < key f) =
      P.filter fun g => key g < key f := by
    intro f hf
    rw [Finset.filter_insert, if_neg (not_lt_of_gt (hlast f hf))]
  unfold firstForest
  constructor
  · intro hconn
    rw [Finset.filter_insert, hself, if_neg (not_not.mpr hconn)]
    exact Finset.filter_congr fun f hf => by rw [hother f hf]
  · intro hconn
    rw [Finset.filter_insert, hself, if_pos hconn]
    congr 1
    exact Finset.filter_congr fun f hf => by rw [hother f hf]

/-- These edges connect as much as all do. -/
theorem connects_firstForest (hkey : Function.Injective key) :
    Connects ends (firstForest ends key P) x y ↔ Connects ends P x y := by
  induction P using Finset.induction_on_max_value key generalizing x y with
  | empty => rfl
  | insert e P he hle ih =>
    have hlast : ∀ f ∈ P, key f < key e := fun f hf =>
      lt_of_le_of_ne (hle f hf) fun heq => he (hkey heq ▸ hf)
    obtain ⟨hskip, htake⟩ := firstForest_insert ends hlast
    by_cases hconn : Connects ends P (ends e).1 (ends e).2
    · rw [hskip hconn, ih]
      refine ⟨fun h => h.mono (Finset.subset_insert e P), fun h => h.of_ends fun f hf => ?_⟩
      rcases Finset.mem_insert.mp hf with rfl | hf
      · exact hconn
      · exact connects_of_mem hf
    · rw [htake hconn, connects_insert, connects_insert]
      simp only [ih]

/-- Where the edges come in the order of their weights, these are part of a minimum spanning
forest. -/
theorem extendable_firstForest (hkey : Function.Injective key)
    (hweight : ∀ f g, key f ≤ key g → weight f ≤ weight g) (hP : Lower key E P) :
    Extendable ends weight E (firstForest ends key P) := by
  induction P using Finset.induction_on_max_value key with
  | empty => exact extendable_empty ends weight E
  | insert e P he hle ih =>
    have hlast : ∀ f ∈ P, key f < key e := fun f hf =>
      lt_of_le_of_ne (hle f hf) fun heq => he (hkey heq ▸ hf)
    have hbefore : Lower key E P := by
      refine ⟨(Finset.subset_insert e P).trans hP.subset, fun f hf g hg hgf => ?_⟩
      have hin := hP.before f (Finset.mem_insert_of_mem hf) g hg hgf
      refine (Finset.mem_insert.mp hin).resolve_left ?_
      rintro rfl
      exact absurd (hlast f hf) (not_lt_of_ge hgf)
    obtain ⟨hskip, htake⟩ := firstForest_insert ends hlast
    by_cases hconn : Connects ends P (ends e).1 (ends e).2
    · rw [hskip hconn]
      exact ih hbefore
    · rw [htake hconn]
      -- the border is that of what is connected to an end of the new edge so far
      have heq := connects_equivalence ends P
      have hinside : ∀ f ∈ P,
          (Connects ends P (ends e).1 (ends f).1 ↔ Connects ends P (ends e).1 (ends f).2) :=
        fun f hf => ⟨fun h => heq.trans h (connects_of_mem hf),
          fun h => heq.trans h (heq.symm (connects_of_mem hf))⟩
      refine (ih hbefore).insert_lightest (hP.subset (Finset.mem_insert_self e P))
        (Connects ends P (ends e).1) (fun h => hconn (h.mp (heq.refl _)))
        (fun f hf => hinside f (firstForest_subset hf)) fun g hg hcross => ?_
      rcases le_total (key e) (key g) with hge | hge
      · exact hweight e g hge
      · have hin := hP.before e (Finset.mem_insert_self e P) g hg hge
        rcases Finset.mem_insert.mp hin with rfl | hin
        · exact le_refl _
        · exact absurd (hinside g hin) hcross

end

/-! ## Trees that grow from a root -/

section

variable [LinearOrder α] {root u v : α} {limit t w : Int} {l : List α}

/-- The edge leads from a node of the list to the other. -/
def LeadsTo (ends : ε → α × α) (l : List α) (v : α) (e : ε) : Prop :=
  (ends e).1 ∈ l ∧ (ends e).2 = v ∨ (ends e).2 ∈ l ∧ (ends e).1 = v

omit [DecidableEq ε] [LinearOrder α] in
theorem LeadsTo.cons {e : ε} (h : LeadsTo ends l v e) (u : α) : LeadsTo ends (u :: l) v e :=
  h.imp (And.imp_left (List.mem_cons_of_mem u)) (And.imp_left (List.mem_cons_of_mem u))

/-- The next node: the lightest edge to a node outside leads there, and among the nodes to which
edges as light lead it is the first. Only edges lighter than the limit count. -/
structure NextNode (ends : ε → α × α) (weight : ε → Int) (E : Finset ε) (limit : Int) (l : List α)
    (u : α) (w : Int) : Prop where
  outside : u ∉ l
  below : w < limit
  edge : ∃ e ∈ E, LeadsTo ends l u e ∧ weight e = w
  least : ∀ v e, e ∈ E → v ∉ l → LeadsTo ends l v e → w < weight e ∨ w = weight e ∧ u ≤ v

/-- The nodes of a tree that grows from a root, the last one first, and its weight. -/
inductive Grown (ends : ε → α × α) (weight : ε → Int) (E : Finset ε) (root : α) (limit : Int) :
    List α → Int → Prop
  | root : Grown ends weight E root limit [root] 0
  | next {l : List α} {t : Int} {u : α} {w : Int} : Grown ends weight E root limit l t →
      NextNode ends weight E limit l u w → Grown ends weight E root limit (u :: l) (t + w)

omit [DecidableEq ε] in
theorem NextNode.unique {u' : α} {w' : Int} (h : NextNode ends weight E limit l u w)
    (h' : NextNode ends weight E limit l u' w') : u = u' ∧ w = w' := by
  obtain ⟨e, he, hlead, hw⟩ := h.edge
  obtain ⟨e', he', hlead', hw'⟩ := h'.edge
  have hle := h.least u' e' he' h'.outside hlead'
  have hle' := h'.least u e he h.outside hlead
  have heq : w = w' := by omega
  refine ⟨le_antisymm ?_ ?_, heq⟩
  · exact (hle.resolve_left (by omega)).2
  · exact (hle'.resolve_left (by omega)).2

omit [DecidableEq ε] in
/-- An edge across the border of the list leads to a node outside. -/
theorem leadsTo_of_cross (h : ¬ ((ends e).1 ∈ l ↔ (ends e).2 ∈ l)) :
    ∃ v, v ∉ l ∧ LeadsTo ends l v e := by
  by_cases h₁ : (ends e).1 ∈ l
  · exact ⟨(ends e).2, fun h₂ => h ⟨fun _ => h₂, fun _ => h₁⟩, Or.inl ⟨h₁, rfl⟩⟩
  · by_cases h₂ : (ends e).2 ∈ l
    · exact ⟨(ends e).1, h₁, Or.inr ⟨h₂, rfl⟩⟩
    · exact absurd ⟨fun h => absurd h h₁, fun h => absurd h h₂⟩ h

namespace Grown

omit [DecidableEq ε] in
theorem length_pos (h : Grown ends weight E root limit l t) : 0 < l.length := by
  cases h with
  | root => exact Nat.one_pos
  | next _ _ => exact Nat.succ_pos _

omit [DecidableEq ε] in
theorem root_mem (h : Grown ends weight E root limit l t) : root ∈ l := by
  induction h with
  | root => exact List.mem_singleton_self root
  | next _ _ ih => exact List.mem_cons_of_mem _ ih

omit [DecidableEq ε] in
/-- A tree with as many nodes is the same. -/
theorem unique {l' : List α} {t' : Int} (h : Grown ends weight E root limit l t)
    (h' : Grown ends weight E root limit l' t') (hlen : l.length = l'.length) :
    l = l' ∧ t = t' := by
  induction h generalizing l' t' with
  | root =>
    cases h' with
    | root => exact ⟨rfl, rfl⟩
    | next h' _ =>
      have hpos := h'.length_pos
      simp only [List.length_cons, List.length_nil] at hlen
      omega
  | next h hnext ih =>
    cases h' with
    | root =>
      have hpos := h.length_pos
      simp only [List.length_cons, List.length_nil] at hlen
      omega
    | next h' hnext' =>
      obtain ⟨rfl, rfl⟩ := ih h' (Nat.succ.inj hlen)
      obtain ⟨rfl, rfl⟩ := hnext.unique hnext'
      exact ⟨rfl, rfl⟩

omit [DecidableEq ε] in
/-- Where there is no next node, no tree has more. -/
theorem stops {l' : List α} {t' : Int} (h : Grown ends weight E root limit l t)
    (hstop : ∀ u w, ¬ NextNode ends weight E limit l u w)
    (h' : Grown ends weight E root limit l' t') : l'.length ≤ l.length := by
  induction h' with
  | root => exact h.length_pos
  | next h' hnext ih =>
    rcases Nat.lt_or_eq_of_le ih with hlt | heq
    · exact hlt
    · obtain ⟨rfl, -⟩ := h'.unique h heq
      exact absurd hnext (hstop _ _)

/-- Its edges are part of a minimum spanning forest, and connect its nodes. -/
theorem forest (h : Grown ends weight E root limit l t) :
    ∃ F, Extendable ends weight E F ∧ F.sum weight = t ∧ (∀ f ∈ F, weight f < limit) ∧
      (∀ f ∈ F, (ends f).1 ∈ l ∧ (ends f).2 ∈ l) ∧ ∀ x ∈ l, Connects ends F root x := by
  induction h with
  | root =>
    refine ⟨∅, extendable_empty ends weight E, rfl, nofun, nofun, fun x hx => ?_⟩
    rw [List.mem_singleton.mp hx]
    exact (connects_equivalence ends ∅).refl root
  | @next l t u w h hnext ih =>
    obtain ⟨F, hF, hsum, hbelow, hinside, hconn⟩ := ih
    obtain ⟨e, he, hlead, rfl⟩ := hnext.edge
    have hu := hnext.outside
    have heF : e ∉ F := by
      intro heF
      obtain ⟨h₁, h₂⟩ := hinside e heF
      rcases hlead with ⟨-, rfl⟩ | ⟨-, rfl⟩
      · exact hu h₂
      · exact hu h₁
    have hequiv := connects_equivalence ends (insert e F)
    have hedge : Connects ends (insert e F) (ends e).1 (ends e).2 :=
      connects_of_mem (Finset.mem_insert_self e F)
    have hkeep : ∀ x ∈ l, Connects ends (insert e F) root x := fun x hx =>
      (hconn x hx).mono (Finset.subset_insert e F)
    refine ⟨insert e F, ?_, ?_, fun f hf => ?_, fun f hf => ?_, fun x hx => ?_⟩
    · refine hF.insert_lightest he (· ∈ l) (fun hcross => ?_)
        (fun f hf => ⟨fun _ => (hinside f hf).2, fun _ => (hinside f hf).1⟩)
        fun g hg hcross => ?_
      · rcases hlead with ⟨h₁, rfl⟩ | ⟨h₂, rfl⟩
        · exact hu (hcross.mp h₁)
        · exact hu (hcross.mpr h₂)
      · obtain ⟨v, hv, hlead'⟩ := leadsTo_of_cross hcross
        rcases hnext.least v g hg hv hlead' with hlt | ⟨heq, -⟩
        · exact le_of_lt hlt
        · exact le_of_eq heq
    · rw [Finset.sum_insert heF, hsum, add_comm]
    · rcases Finset.mem_insert.mp hf with rfl | hf
      · exact hnext.below
      · exact hbelow f hf
    · rcases Finset.mem_insert.mp hf with rfl | hf
      · rcases hlead with ⟨h₁, rfl⟩ | ⟨h₂, rfl⟩
        · exact ⟨List.mem_cons_of_mem _ h₁, List.mem_cons_self⟩
        · exact ⟨List.mem_cons_self, List.mem_cons_of_mem _ h₂⟩
      · exact ⟨List.mem_cons_of_mem _ (hinside f hf).1, List.mem_cons_of_mem _ (hinside f hf).2⟩
    · rcases List.mem_cons.mp hx with rfl | hx
      · rcases hlead with ⟨h₁, rfl⟩ | ⟨h₂, rfl⟩
        · exact hequiv.trans (hkeep _ h₁) hedge
        · exact hequiv.trans (hkeep _ h₂) (hequiv.symm hedge)
      · exact hkeep x hx

end Grown

end

end Vani.Library
