import Vani.Backend.UnionFind
import Vani.Library.DisjointSets
import Mathlib.Data.Finset.Image
import Mathlib.Data.Finset.Card
import Mathlib.Data.Finset.Range

/-!
# The union-find represents a partition

The array of parents is a forest in which the ranks rise from every element to its parent,
so a walk comes to a root; each root stands for a class. A find keeps every element's root
and a union joins two trees, and each union that joins two lowers the room for the ranks and
the number of roots by one. Indices outside the arrays are classes of their own.
-/

set_option autoImplicit false

namespace Vani.Analysis

open Vani.Library Vani.Backend

/-! ## Cells -/

/-- The index is of an element. -/
def InSize (n : Nat) (x : Int64) : Prop := 0 ≤ x.toInt ∧ x.toInt < n

instance (n : Nat) (x : Int64) : Decidable (InSize n x) :=
  inferInstanceAs (Decidable (_ ∧ _))

theorem not_inSize_iff {n : Nat} {x : Int64} :
    x.toInt < 0 ∨ n ≤ toUInt64 x ↔ ¬InSize n x := by
  unfold InSize
  rcases toUInt64_cases x with ⟨hpos, hval⟩ | ⟨hneg, hbig⟩ <;> omega

/-- The elements. -/
def elements (n : Nat) : Finset Int64 := (Finset.range n).image Int64.ofNat

theorem ofNat_toInt {i : Nat} (hi : i < 2 ^ 63) : (Int64.ofNat i).toInt = i :=
  Int64.toInt_ofNat_of_lt hi

theorem mem_elements {n : Nat} (hn : n < 2 ^ 63) (x : Int64) : x ∈ elements n ↔ InSize n x := by
  unfold elements InSize
  rw [Finset.mem_image]
  constructor
  · rintro ⟨i, hi, rfl⟩
    rw [Finset.mem_range] at hi
    rw [ofNat_toInt (by omega)]
    omega
  · rintro ⟨hpos, hlt⟩
    refine ⟨x.toInt.toNat, Finset.mem_range.mpr (by omega), ?_⟩
    apply Int64.toInt_inj.mp
    rw [ofNat_toInt (by omega)]
    omega

theorem card_elements {n : Nat} (hn : n < 2 ^ 63) : (elements n).card = n := by
  unfold elements
  rw [Finset.card_image_of_injOn, Finset.card_range]
  intro i hi j hj hij
  rw [Finset.coe_range, Set.mem_Iio] at hi hj
  have hval := congrArg Int64.toInt hij
  rw [ofNat_toInt (by omega), ofNat_toInt (by omega)] at hval
  omega

/-- The parent of an element; other indices are their own. -/
def parentOf (uf : UnionFind) (x : Int64) : Int64 :=
  if InSize uf.n x then uf.parent.getD x.toInt.toNat x else x

/-- The rank of an element. -/
def rankOf (uf : UnionFind) (x : Int64) : Nat :=
  if InSize uf.n x then (uf.rank.getD x.toInt.toNat 0).toNat else 0

/-- The roots. -/
def roots (uf : UnionFind) : Finset Int64 := (elements uf.n).filter fun x => parentOf uf x = x

/-- The arrays are a forest with rising ranks and as many roots as there are sets. -/
structure Forest (uf : UnionFind) : Prop where
  parents : uf.parent.size = uf.n
  ranks : uf.rank.size = uf.n
  small : uf.n < 2 ^ 63
  inside : ∀ x, InSize uf.n x → InSize uf.n (parentOf uf x)
  rising : ∀ x, parentOf uf x ≠ x → rankOf uf x < rankOf uf (parentOf uf x)
  nonneg : ∀ (i : Nat) k, uf.rank[i]? = some k → 0 ≤ k
  bounded : ∀ x, rankOf uf x + uf.sets ≤ uf.n
  count : uf.sets = (roots uf).card

variable {uf : UnionFind} {x y c r : Int64}

theorem parentOf_outside (hx : ¬InSize uf.n x) : parentOf uf x = x := if_neg hx

theorem Forest.parent_cell (h : Forest uf) (hx : InSize uf.n x) :
    UnionFind.cell uf.parent x = .done (parentOf uf x) := by
  have hlt : x.toInt.toNat < uf.parent.size := by
    rw [h.parents]
    unfold InSize at hx
    omega
  unfold UnionFind.cell parentOf
  rw [if_pos hx.1, if_pos hx, Outcome.read_of_lt hlt, Array.getD_eq_getD_getElem?,
    Array.getElem?_eq_getElem hlt]
  rfl

theorem Forest.rank_cell (h : Forest uf) (hx : InSize uf.n x) :
    UnionFind.cell uf.rank x = .done (rankOf uf x : Int) := by
  have hlt : x.toInt.toNat < uf.rank.size := by
    rw [h.ranks]
    unfold InSize at hx
    omega
  have hsome := Array.getElem?_eq_getElem hlt
  have hnonneg := h.nonneg _ _ hsome
  unfold UnionFind.cell rankOf
  rw [if_pos hx.1, if_pos hx, Outcome.read_of_lt hlt, Array.getD_eq_getD_getElem?, hsome,
    Option.getD_some, Int.toNat_of_nonneg hnonneg]

/-- The structure with another parent for one element. -/
def redirect (uf : UnionFind) (x y : Int64) : UnionFind :=
  { uf with parent := uf.parent.setIfInBounds x.toInt.toNat y }

theorem Forest.setCell (h : Forest uf) (hx : InSize uf.n x) (y : Int64) :
    UnionFind.setCell uf.parent x y = .done (redirect uf x y).parent := by
  have hlt : x.toInt.toNat < uf.parent.size := by
    rw [h.parents]
    unfold InSize at hx
    omega
  unfold UnionFind.setCell
  rw [if_pos hx.1, Outcome.write_of_lt hlt]
  rfl

theorem Forest.parentOf_redirect (h : Forest uf) (hx : InSize uf.n x) (y z : Int64) :
    parentOf (redirect uf x y) z = if z = x then y else parentOf uf z := by
  have hlt : x.toInt.toNat < uf.parent.size := by
    rw [h.parents]
    unfold InSize at hx
    omega
  unfold parentOf redirect
  dsimp only
  by_cases hzx : z = x
  · subst hzx
    rw [if_pos rfl, if_pos hx, Array.getD_eq_getD_getElem?,
      Array.getElem?_setIfInBounds_self_of_lt hlt, Option.getD_some]
  · rw [if_neg hzx]
    by_cases hz : InSize uf.n z
    · have hne : x.toInt.toNat ≠ z.toInt.toNat := by
        intro heq
        apply hzx
        apply Int64.toInt_inj.mp
        unfold InSize at hx hz
        omega
      rw [if_pos hz, if_pos hz, Array.getD_eq_getD_getElem?, Array.getD_eq_getD_getElem?,
        Array.getElem?_setIfInBounds_ne hne]
    · rw [if_neg hz, if_neg hz]

theorem rankOf_redirect (x y z : Int64) : rankOf (redirect uf x y) z = rankOf uf z := rfl

theorem Forest.root_inside (h : Forest uf) (hr : RootOf (parentOf uf) x r)
    (hx : InSize uf.n x) : InSize uf.n r :=
  hr.keeps h.inside hx

/-! ## Finding -/

/-- What a find leaves: every element has the root it had. -/
structure Compressed (uf uf' : UnionFind) : Prop where
  forest : Forest uf'
  n_eq : uf'.n = uf.n
  sets_eq : uf'.sets = uf.sets
  rank_eq : uf'.rank = uf.rank
  roots : ∀ y s, RootOf (parentOf uf) y s → RootOf (parentOf uf') y s

theorem Compressed.refl (h : Forest uf) : Compressed uf uf := ⟨h, rfl, rfl, rfl, fun _ _ hs => hs⟩

theorem Compressed.trans {uf uf' uf'' : UnionFind} (h : Compressed uf uf')
    (h' : Compressed uf' uf'') : Compressed uf uf'' where
  forest := h'.forest
  n_eq := h'.n_eq.trans h.n_eq
  sets_eq := h'.sets_eq.trans h.sets_eq
  rank_eq := h'.rank_eq.trans h.rank_eq
  roots y s hs := h'.roots y s (h.roots y s hs)

/-- An element is pointed at its root. -/
theorem Forest.compress (h : Forest uf) (hc : InSize uf.n c) (hr : RootOf (parentOf uf) c r)
    (hne : c ≠ r) : Compressed uf (redirect uf c r) := by
  have hparent := h.parentOf_redirect hc r
  have hroots : Vani.Analysis.roots (redirect uf c r) = Vani.Analysis.roots uf := by
    unfold Vani.Analysis.roots
    refine Finset.filter_congr fun z _ => ?_
    rw [hparent]
    by_cases hzc : z = c
    · subst hzc
      rw [if_pos rfl]
      constructor
      · intro heq
        exact absurd heq.symm hne
      · intro hroot
        exact absurd ((RootOf.root hroot).unique hr) hne
    · rw [if_neg hzc]
  refine ⟨⟨?_, h.ranks, h.small, fun z hz => ?_, fun z hz => ?_, h.nonneg, h.bounded, ?_⟩, rfl, rfl,
    rfl, fun z s hs => ?_⟩
  · exact (Array.size_setIfInBounds).trans h.parents
  · rw [hparent]
    split
    · exact h.root_inside hr hc
    · exact h.inside z hz
  · rw [hparent] at hz ⊢
    rw [rankOf_redirect, rankOf_redirect]
    by_cases hzc : z = c
    · subst hzc
      rw [if_pos rfl]
      exact hr.rank_lt h.rising hne
    · rw [if_neg hzc] at hz ⊢
      exact h.rising z hz
  · rw [hroots]
    exact h.count
  · exact RootOf.compress hr (by rw [hparent, if_pos rfl])
      (fun y hy => by rw [hparent, if_neg hy]) hs

/-- The walk comes to the root. -/
theorem Forest.walk (h : Forest uf) (hx : InSize uf.n x) (hr : RootOf (parentOf uf) x r) :
    Outcome.loop (UnionFind.walkTurn uf.parent) (uf.n + 1) x = .done r := by
  have hwalk : ∃ r', Outcome.loop (UnionFind.walkTurn uf.parent) (uf.n + 1) x = .done r' ∧
      r' = r := by
    refine Outcome.loop_of_measure (fun y => InSize uf.n y ∧ RootOf (parentOf uf) y r)
      (fun y => uf.n - rankOf uf y) (by omega) ⟨hx, hr⟩ ?_
    rintro y ⟨hy, hyr⟩
    unfold UnionFind.walkTurn
    rw [h.parent_cell hy, Outcome.done_bind]
    by_cases hroot : parentOf uf y = y
    · refine Or.inr ⟨y, ?_, (RootOf.root hroot).unique hyr⟩
      rw [if_pos hroot]
      rfl
    · have hlt := h.rising y hroot
      have hle := h.bounded (parentOf uf y)
      refine Or.inl ⟨parentOf uf y, ?_, ⟨h.inside y hy, hyr.parent⟩, by omega⟩
      rw [if_neg hroot]
      rfl
  obtain ⟨r', hrun, heq⟩ := hwalk
  rw [hrun, heq]

/-- The compression points the elements of a path at their root. -/
theorem Forest.compressPath (h : Forest uf) (hx : InSize uf.n x)
    (hr : RootOf (parentOf uf) x r) :
    ∃ parent, Outcome.loop (UnionFind.compressTurn r) (uf.n + 1) (x, uf.parent) = .done parent ∧
      Compressed uf { uf with parent } := by
  refine Outcome.loop_of_measure
    (fun s : Int64 × Array Int64 => Compressed uf { uf with parent := s.2 } ∧ InSize uf.n s.1 ∧
      RootOf (parentOf { uf with parent := s.2 }) s.1 r)
    (fun s => uf.n - rankOf uf s.1) (by dsimp only; omega)
    ⟨Compressed.refl h, hx, hr⟩ ?_
  rintro ⟨cur, parent⟩ ⟨hcomp, hcur, hroot⟩
  dsimp only at hcomp hcur hroot ⊢
  have hf := hcomp.forest
  unfold UnionFind.compressTurn
  dsimp only
  rw [show UnionFind.cell parent cur = _ from hf.parent_cell hcur, Outcome.done_bind]
  by_cases hnext : parentOf { uf with parent } cur = r
  · refine Or.inr ⟨parent, ?_, hcomp⟩
    rw [if_pos hnext]
    rfl
  · have hne : cur ≠ r := by
      rintro rfl
      exact hnext hroot.isRoot
    have hstep : parentOf { uf with parent } cur ≠ cur := by
      intro heq
      exact hne ((RootOf.root heq).unique hroot)
    have hrise := hf.rising cur hstep
    have hle := hf.bounded (parentOf { uf with parent } cur)
    have hlink := hf.compress hcur hroot hne
    refine Or.inl ⟨(parentOf { uf with parent } cur, (redirect { uf with parent } cur r).parent),
      ?_, ⟨hcomp.trans hlink, hf.inside cur hcur, hlink.roots _ _ hroot.parent⟩, ?_⟩
    · rw [if_neg hnext, show UnionFind.setCell parent cur r = _ from hf.setCell hcur r]
      rfl
    · have hrank : ∀ y, rankOf { uf with parent } y = rankOf uf y := fun _ => rfl
      rw [hrank, hrank] at hrise
      rw [hrank] at hle
      dsimp only at hle ⊢
      omega

/-- A find returns the root and keeps every root. -/
theorem Forest.find (h : Forest uf) (hr : RootOf (parentOf uf) x r) :
    ∃ uf', uf.find x = .done (r, uf') ∧ Compressed uf uf' := by
  unfold UnionFind.find
  by_cases hx : InSize uf.n x
  · obtain ⟨parent, hrun, hcomp⟩ := h.compressPath hx hr
    refine ⟨{ uf with parent }, ?_, hcomp⟩
    rw [if_neg (fun hout => not_inSize_iff.mp hout hx), h.walk hx hr,
      Outcome.done_bind, hrun]
    rfl
  · obtain rfl := hr.unique (RootOf.root (parentOf_outside hx))
    exact ⟨uf, if_pos (not_inSize_iff.mpr hx), Compressed.refl h⟩

/-! ## Joining -/

/-- The structure after one root has been pointed at another. -/
def linked (uf : UnionFind) (c r : Int64) (rank : Array Int) : UnionFind :=
  ⟨(redirect uf c r).parent, rank, uf.n, uf.sets - 1⟩

/-- A root is pointed at another of no less rank, which may rise by one. -/
theorem Forest.link (h : Forest uf) (hc : InSize uf.n c) (hr : InSize uf.n r)
    (hcroot : parentOf uf c = c) (hrroot : parentOf uf r = r) (hne : c ≠ r) {rank : Array Int}
    {k : Nat} (hsize : rank.size = uf.rank.size)
    (hnonneg : ∀ (i : Nat) k, rank[i]? = some k → 0 ≤ k)
    (hrank : ∀ y, rankOf (linked uf c r rank) y =
      if y = r then k else rankOf uf y)
    (hk : rankOf uf r ≤ k ∧ rankOf uf c < k ∧ k ≤ rankOf uf r + 1) :
    Forest (linked uf c r rank) := by
  have hparent : ∀ z, parentOf (linked uf c r rank) z =
      if z = c then r else parentOf uf z := h.parentOf_redirect hc r
  have hcmem : c ∈ roots uf :=
    Finset.mem_filter.mpr ⟨(mem_elements h.small c).mpr hc, hcroot⟩
  have hrmem : r ∈ roots uf :=
    Finset.mem_filter.mpr ⟨(mem_elements h.small r).mpr hr, hrroot⟩
  have hroots : roots (linked uf c r rank) = (roots uf).erase c := by
    ext z
    unfold roots
    rw [Finset.mem_filter, Finset.mem_erase, Finset.mem_filter, hparent]
    show z ∈ elements uf.n ∧ _ ↔ _
    by_cases hzc : z = c
    · subst hzc
      rw [if_pos rfl]
      constructor
      · rintro ⟨-, heq⟩
        exact absurd heq.symm hne
      · rintro ⟨hself, -⟩
        exact absurd rfl hself
    · rw [if_neg hzc]
      constructor
      · rintro ⟨hmem, heq⟩
        exact ⟨hzc, hmem, heq⟩
      · rintro ⟨-, hmem, heq⟩
        exact ⟨hmem, heq⟩
  have htwo : 1 < uf.sets := by
    rw [h.count]
    exact Finset.one_lt_card.mpr ⟨c, hcmem, r, hrmem, hne⟩
  refine ⟨?_, hsize.trans h.ranks, h.small, fun z hz => ?_, fun z hz => ?_, hnonneg, fun z => ?_,
    ?_⟩
  · exact (Array.size_setIfInBounds).trans h.parents
  · rw [hparent]
    split
    · exact hr
    · exact h.inside z hz
  · rw [hparent] at hz ⊢
    rw [hrank, hrank]
    by_cases hzc : z = c
    · subst hzc
      rw [if_pos rfl, if_neg hne, if_pos rfl]
      exact hk.2.1
    · rw [if_neg hzc] at hz ⊢
      have hrise := h.rising z hz
      have hzr : z ≠ r := by
        rintro rfl
        exact hz hrroot
      rw [if_neg hzr]
      by_cases hup : parentOf uf z = r
      · rw [if_pos hup]
        rw [hup] at hrise
        omega
      · rw [if_neg hup]
        exact hrise
  · rw [hrank]
    have hbz := h.bounded z
    have hbr := h.bounded r
    show _ + (uf.sets - 1) ≤ uf.n
    split <;> omega
  · rw [hroots, Finset.card_erase_of_mem hcmem, ← h.count]
    rfl

/-! ## The partition -/

/-- A partition of the indices into the classes that the unions performed join, with a
representative for each class. -/
structure Partition where
  size : Nat
  joins : List (Int64 × Int64)
  rep : Int64 → Int64
  rep_eq : ∀ x y, rep x = rep y ↔ Joined joins x y
  rep_joined : ∀ x, Joined joins x (rep x)

namespace Partition

/-- Every index a class of its own. -/
def discrete (size : Nat) : Partition where
  size := size
  joins := []
  rep := id
  rep_eq _ _ := joined_nil.symm
  rep_joined _ := joined_nil.mpr rfl

/-- The number of classes of the elements. -/
def classes (t : Partition) : Nat := ((elements t.size).image t.rep).card

/-- The classes of two elements joined, with one of their representatives. -/
def join (t : Partition) (a b c r : Int64)
    (hends : c = t.rep a ∧ r = t.rep b ∨ c = t.rep b ∧ r = t.rep a) : Partition where
  size := t.size
  joins := (a, b) :: t.joins
  rep x := if t.rep x = c then r else t.rep x
  rep_eq x y := by
    rw [joined_cons]
    simp only [← t.rep_eq]
    rcases hends with ⟨rfl, rfl⟩ | ⟨rfl, rfl⟩ <;> grind
  rep_joined x := by
    rw [joined_cons]
    have hself := t.rep_joined x
    have heq := joined_equivalence t.joins
    rcases hends with ⟨rfl, rfl⟩ | ⟨rfl, rfl⟩ <;> split
    · next hx => exact Or.inr (Or.inl ⟨(t.rep_eq _ _).mp hx, t.rep_joined b⟩)
    · exact Or.inl hself
    · next hx => exact Or.inr (Or.inr ⟨(t.rep_eq _ _).mp hx, t.rep_joined a⟩)
    · exact Or.inl hself

end Partition

/-- The forest represents the partition: the root of every index is its representative. -/
structure Represents (uf : UnionFind) (t : Partition) : Prop where
  forest : Forest uf
  size : uf.n = t.size
  root : ∀ x, RootOf (parentOf uf) x (t.rep x)

variable {t : Partition}

/-- There are as many sets as classes. -/
theorem Represents.sets (h : Represents uf t) : uf.sets = t.classes := by
  have hf := h.forest
  have himage : (elements t.size).image t.rep = roots uf := by
    ext r
    unfold roots
    rw [← h.size, Finset.mem_image, Finset.mem_filter]
    constructor
    · rintro ⟨x, hx, rfl⟩
      have hroot := h.root x
      rw [mem_elements hf.small] at hx ⊢
      exact ⟨hf.root_inside hroot hx, hroot.isRoot⟩
    · rintro ⟨hr, hroot⟩
      exact ⟨r, hr, (h.root r).unique (RootOf.root hroot)⟩
  unfold Partition.classes
  rw [himage]
  exact hf.count

theorem Represents.count (h : Represents uf t) : toInt64 uf.sets = t.classes := by
  have hle := h.forest.bounded 0
  have hsmall := h.forest.small
  rw [← h.sets]
  exact toInt64_of_lt (by omega)

theorem Represents.compressed (h : Represents uf t) {uf' : UnionFind} (hc : Compressed uf uf') :
    Represents uf' t where
  forest := hc.forest
  size := hc.n_eq.trans h.size
  root x := hc.roots x _ (h.root x)

/-- Two finds, one after the other. -/
theorem Represents.findTwo (h : Represents uf t) (a b : Int64) :
    ∃ uf₁ uf₂, uf.find a = .done (t.rep a, uf₁) ∧ uf₁.find b = .done (t.rep b, uf₂) ∧
      Represents uf₂ t := by
  obtain ⟨uf₁, hrun₁, hc₁⟩ := h.forest.find (h.root a)
  have h₁ := h.compressed hc₁
  obtain ⟨uf₂, hrun₂, hc₂⟩ := h₁.forest.find (h₁.root b)
  exact ⟨uf₁, uf₂, hrun₁, hrun₂, h₁.compressed hc₂⟩

theorem Represents.connected (h : Represents uf t) (a b : Int64) :
    ∃ uf', uf.connected a b = .done (t.rep a == t.rep b, uf') ∧ Represents uf' t := by
  obtain ⟨uf₁, uf₂, hrun₁, hrun₂, h₂⟩ := h.findTwo a b
  refine ⟨uf₂, ?_, h₂⟩
  unfold UnionFind.connected
  rw [hrun₁, Outcome.done_bind]
  dsimp only
  rw [hrun₂]
  rfl

/-- One representative is pointed at the other. -/
theorem Represents.link (h : Represents uf t) {a b c r : Int64}
    (hends : c = t.rep a ∧ r = t.rep b ∨ c = t.rep b ∧ r = t.rep a) (hne : c ≠ r)
    (ha : InSize uf.n a) (hb : InSize uf.n b) {rank : Array Int} {k : Nat}
    (hsize : rank.size = uf.rank.size) (hnonneg : ∀ (i : Nat) k, rank[i]? = some k → 0 ≤ k)
    (hrank : ∀ y, rankOf (linked uf c r rank) y =
      if y = r then k else rankOf uf y)
    (hk : rankOf uf r ≤ k ∧ rankOf uf c < k ∧ k ≤ rankOf uf r + 1) :
    Represents (linked uf c r rank) (t.join a b c r hends) := by
  have hf := h.forest
  have hina : InSize uf.n (t.rep a) := hf.root_inside (h.root a) ha
  have hinb : InSize uf.n (t.rep b) := hf.root_inside (h.root b) hb
  have hroota : parentOf uf (t.rep a) = t.rep a := (h.root a).isRoot
  have hrootb : parentOf uf (t.rep b) = t.rep b := (h.root b).isRoot
  obtain ⟨hc, hr, hcroot, hrroot⟩ : InSize uf.n c ∧ InSize uf.n r ∧ parentOf uf c = c ∧
      parentOf uf r = r := by
    rcases hends with ⟨rfl, rfl⟩ | ⟨rfl, rfl⟩
    · exact ⟨hina, hinb, hroota, hrootb⟩
    · exact ⟨hinb, hina, hrootb, hroota⟩
  have hparent : ∀ z, parentOf (linked uf c r rank) z =
      if z = c then r else parentOf uf z := hf.parentOf_redirect hc r
  refine ⟨hf.link hc hr hcroot hrroot hne hsize hnonneg hrank hk, h.size, fun x => ?_⟩
  have hlink := RootOf.link (q := parentOf (linked uf c r rank)) hcroot hrroot hne
    (by rw [hparent, if_pos rfl]) (fun y hy => by rw [hparent, if_neg hy]) (h.root x)
  show RootOf _ x (if t.rep x = c then r else t.rep x)
  split
  · next hx => exact hlink.1 hx
  · next hx => exact hlink.2 hx

/-- The rank of a root rises by one. -/
theorem Forest.raise (h : Forest uf) (hr : InSize uf.n r) (hroot : parentOf uf r = r) :
    ∃ rank, UnionFind.setCell uf.rank r (cLong.wrap ((rankOf uf r : Int) + 1)) = .done rank ∧
      rank.size = uf.rank.size ∧ (∀ (i : Nat) k, rank[i]? = some k → 0 ≤ k) ∧
      ∀ c y, rankOf (linked uf c r rank) y = if y = r then rankOf uf r + 1 else rankOf uf y := by
  have hlt : r.toInt.toNat < uf.rank.size := by
    rw [h.ranks]
    unfold InSize at hr
    omega
  have hpos : 0 < uf.sets := by
    rw [h.count]
    exact Finset.card_pos.mpr ⟨r, Finset.mem_filter.mpr ⟨(mem_elements h.small r).mpr hr, hroot⟩⟩
  have hwrap : cLong.wrap ((rankOf uf r : Int) + 1) = (rankOf uf r + 1 : Nat) := by
    have hle := h.bounded r
    have hsmall := h.small
    exact toInt64_of_lt (n := rankOf uf r + 1) (by omega)
  refine ⟨uf.rank.setIfInBounds r.toInt.toNat (rankOf uf r + 1 : Nat), ?_,
    Array.size_setIfInBounds, fun i k hk => ?_, fun c y => ?_⟩
  · unfold UnionFind.setCell
    rw [if_pos hr.1, hwrap, Outcome.write_of_lt hlt]
  · by_cases hi : r.toInt.toNat = i
    · subst hi
      rw [Array.getElem?_setIfInBounds_self_of_lt hlt] at hk
      cases hk
      exact Int.natCast_nonneg _
    · rw [Array.getElem?_setIfInBounds_ne hi] at hk
      exact h.nonneg i k hk
  · unfold rankOf linked
    dsimp only
    by_cases hyr : y = r
    · subst hyr
      rw [if_pos rfl, if_pos hr, if_pos hr, Array.getD_eq_getD_getElem?,
        Array.getElem?_setIfInBounds_self_of_lt hlt, Option.getD_some, Int.toNat_natCast]
    · rw [if_neg hyr]
      by_cases hy : InSize uf.n y
      · have hne : r.toInt.toNat ≠ y.toInt.toNat := by
          intro heq
          apply hyr
          apply Int64.toInt_inj.mp
          unfold InSize at hr hy
          omega
        rw [if_pos hy, if_pos hy, Array.getD_eq_getD_getElem?,
          Array.getElem?_setIfInBounds_ne hne, Array.getD_eq_getD_getElem?]
      · rw [if_neg hy, if_neg hy]

/-- A union of elements, or of an index with itself, joins their classes and returns whether
they were two. -/
theorem Represents.union (h : Represents uf t) {a b : Int64}
    (hok : InSize uf.n a ∧ InSize uf.n b ∨ a = b) :
    ∃ merged uf' t', uf.union a b = .done (merged, uf') ∧ Represents uf' t' ∧
      (merged = true ↔ ¬Joined t.joins a b) ∧ t'.size = t.size ∧
      t'.joins = if InSize t.size a ∧ InSize t.size b then (a, b) :: t.joins else t.joins := by
  obtain ⟨uf₁, uf₂, hrun₁, hrun₂, h₂⟩ := h.findTwo a b
  have hn : uf₂.n = uf.n := h₂.size.trans h.size.symm
  unfold UnionFind.union
  rw [hrun₁, Outcome.done_bind]
  dsimp only
  rw [hrun₂, Outcome.done_bind]
  dsimp only
  by_cases hsame : t.rep a = t.rep b
  · have hjoined := (t.rep_eq a b).mp hsame
    rw [if_pos hsame]
    by_cases hin : InSize t.size a ∧ InSize t.size b
    · refine ⟨false, uf₂, t.join a b (t.rep a) (t.rep b) (Or.inl ⟨rfl, rfl⟩), rfl,
        ⟨h₂.forest, h₂.size, fun x => ?_⟩, ?_, rfl, ?_⟩
      · show RootOf _ x (if t.rep x = t.rep a then t.rep b else t.rep x)
        split
        · next hx =>
          rw [← hsame, ← hx]
          exact h₂.root x
        · exact h₂.root x
      · simp [hjoined]
      · rw [if_pos hin]
        rfl
    · refine ⟨false, uf₂, t, rfl, h₂, by simp [hjoined], rfl, ?_⟩
      rw [if_neg hin]
  · have hnot : ¬Joined t.joins a b := fun hj => hsame ((t.rep_eq a b).mpr hj)
    obtain ⟨ha, hb⟩ : InSize uf₂.n a ∧ InSize uf₂.n b := by
      rw [hn]
      rcases hok with hin | rfl
      · exact hin
      · exact absurd rfl hsame
    have hin : InSize t.size a ∧ InSize t.size b := by
      rw [← h₂.size]
      exact ⟨ha, hb⟩
    have hf := h₂.forest
    have hina : InSize uf₂.n (t.rep a) := hf.root_inside (h₂.root a) ha
    have hinb : InSize uf₂.n (t.rep b) := hf.root_inside (h₂.root b) hb
    have hsets : (if 0 < uf₂.sets then uf₂.sets - 1 else uf₂.sets) = uf₂.sets - 1 := by
      split <;> omega
    have hkeep : ∀ c r y, rankOf (linked uf₂ c r uf₂.rank) y =
        if y = r then rankOf uf₂ r else rankOf uf₂ y := by
      intro c r y
      show rankOf uf₂ y = _
      split
      · next hy => rw [hy]
      · rfl
    rw [if_neg hsame, hf.rank_cell hina, Outcome.done_bind, hf.rank_cell hinb, Outcome.done_bind,
      hsets]
    refine ⟨true, ?_⟩
    by_cases hless : (rankOf uf₂ (t.rep a) : Int) < rankOf uf₂ (t.rep b)
    · refine ⟨linked uf₂ (t.rep a) (t.rep b) uf₂.rank,
        t.join a b (t.rep a) (t.rep b) (Or.inl ⟨rfl, rfl⟩), ?_,
        h₂.link _ hsame ha hb rfl hf.nonneg (hkeep _ _) (by omega), by simp [hnot], rfl,
        (if_pos hin).symm⟩
      rw [if_pos hless, hf.setCell hina]
      rfl
    · rw [if_neg hless]
      by_cases hmore : (rankOf uf₂ (t.rep b) : Int) < rankOf uf₂ (t.rep a)
      · refine ⟨linked uf₂ (t.rep b) (t.rep a) uf₂.rank,
          t.join a b (t.rep b) (t.rep a) (Or.inr ⟨rfl, rfl⟩), ?_,
          h₂.link _ (Ne.symm hsame) ha hb rfl hf.nonneg (hkeep _ _) (by omega), by simp [hnot],
          rfl, (if_pos hin).symm⟩
        rw [if_pos hmore, hf.setCell hinb]
        rfl
      · obtain ⟨rank, hset, hsize, hnonneg, hrank⟩ := hf.raise hina (h₂.root a).isRoot
        refine ⟨linked uf₂ (t.rep b) (t.rep a) rank,
          t.join a b (t.rep b) (t.rep a) (Or.inr ⟨rfl, rfl⟩), ?_,
          h₂.link _ (Ne.symm hsame) ha hb hsize hnonneg (hrank _) (by omega), by simp [hnot],
          rfl, (if_pos hin).symm⟩
        rw [if_neg hmore, hf.setCell hinb, Outcome.done_bind, hset]
        rfl

/-! ## Fresh structures -/

/-- Every element is its own parent after the loop. -/
theorem singletons_ok {parent : Array Int64} {n : Nat} (hsize : parent.size = n) :
    ∃ p, UnionFind.singletons n parent = .done p ∧ p.size = n ∧
      ∀ i, i < n → p[i]? = some (Int64.ofNat i) := by
  refine Outcome.forRange_of_step
    (fun k (p : Array Int64) => p.size = n ∧ ∀ i, i < k → p[i]? = some (Int64.ofNat i))
    ⟨hsize, fun i hi => absurd hi (Nat.not_lt_zero i)⟩ ?_
  rintro k p hk ⟨hp, hfilled⟩
  refine ⟨p.setIfInBounds k (Int64.ofNat k), Outcome.write_of_lt (by omega) _, ?_, fun i hi => ?_⟩
  · rw [Array.size_setIfInBounds, hp]
  · by_cases hik : k = i
    · subst hik
      exact Array.getElem?_setIfInBounds_self_of_lt (by omega)
    · rw [Array.getElem?_setIfInBounds_ne hik]
      exact hfilled i (by omega)

/-- Elements that are their own parents, with ranks of zero, are classes of their own. -/
theorem represents_singletons {p : Array Int64} {rank : Array Int} {n : Nat} (hn : n < 2 ^ 63)
    (hp : p.size = n) (hid : ∀ i, i < n → p[i]? = some (Int64.ofNat i)) (hr : rank.size = n)
    (hzero : ∀ i, i < n → rank[i]? = some 0) :
    Represents ⟨p, rank, n, n⟩ (Partition.discrete n) := by
  have hparent : ∀ x, parentOf ⟨p, rank, n, n⟩ x = x := by
    intro x
    unfold parentOf
    split
    · next hx =>
      unfold InSize at hx
      dsimp only at hx ⊢
      rw [Array.getD_eq_getD_getElem?, hid _ (by omega), Option.getD_some]
      apply Int64.toInt_inj.mp
      rw [ofNat_toInt (by omega)]
      omega
    · rfl
  have hrank : ∀ x, rankOf ⟨p, rank, n, n⟩ x = 0 := by
    intro x
    unfold rankOf
    split
    · next hx =>
      unfold InSize at hx
      dsimp only at hx ⊢
      rw [Array.getD_eq_getD_getElem?, hzero _ (by omega)]
      rfl
    · rfl
  refine ⟨⟨hp, hr, hn, fun x hx => ?_, fun x hx => ?_, fun i k hk => ?_, fun x => ?_, ?_⟩, rfl,
    fun x => RootOf.root (hparent x)⟩
  · rw [hparent]
    exact hx
  · exact absurd (hparent x) hx
  · have hi := (Array.getElem?_eq_some_iff.mp hk).1
    rw [hzero i (hr ▸ hi)] at hk
    cases hk
    exact le_rfl
  · rw [hrank]
    exact (Nat.zero_add n).le
  · have hall : roots ⟨p, rank, n, n⟩ = elements n := by
      unfold roots
      rw [Finset.filter_true_of_mem fun x _ => hparent x]
    rw [hall, card_elements hn]

theorem represents_dropped : Represents UnionFind.dropped (Partition.discrete 0) :=
  represents_singletons (by decide) rfl (fun i hi => absurd hi (Nat.not_lt_zero i)) rfl
    (fun i hi => absurd hi (Nat.not_lt_zero i))

theorem new_unionFind (heap : Nat → Bool) (n : Int64) :
    (UnionFind.new heap n = .aborted ∧ 0 < n.toInt ∧
        (malloc heap (n.toInt.toNat * 8 % 2 ^ 64) = false ∨
          malloc heap (n.toInt.toNat * 8) = false)) ∨
      ∃ uf, UnionFind.new heap n = .done uf ∧ Represents uf (Partition.discrete n.toInt.toNat) := by
  unfold UnionFind.new
  by_cases hneg : n.toInt ≤ 0
  · refine Or.inr ⟨UnionFind.dropped, if_pos hneg, ?_⟩
    rw [show n.toInt.toNat = 0 by omega]
    exact represents_dropped
  · rw [if_neg hneg]
    cases hmem : malloc heap (n.toInt.toNat * 8 % 2 ^ 64) with
    | false => exact Or.inl ⟨if_neg Bool.false_ne_true, by omega, Or.inl rfl⟩
    | true =>
      rcases malloc_cases heap (n.toInt.toNat * 8) with hno | ⟨hyes, hbytes⟩
      · exact Or.inl ⟨by rw [hno]; exact if_neg Bool.false_ne_true, by omega, Or.inr hno⟩
      · obtain ⟨p, hrun, hsize, hid⟩ := singletons_ok (n := n.toInt.toNat)
          (show (Array.replicate (n.toInt.toNat * 8 % 2 ^ 64 / 8) (0 : Int64)).size = _ by
            rw [Array.size_replicate]
            omega)
        refine Or.inr ⟨⟨p, Array.replicate n.toInt.toNat 0, n.toInt.toNat, n.toInt.toNat⟩, ?_,
          represents_singletons (by omega) hsize hid Array.size_replicate fun i hi => ?_⟩
        · rw [hyes, Bool.and_self, if_pos rfl, hrun]
          rfl
        · rw [Array.getElem?_replicate, if_pos hi]

theorem Represents.clear (h : Represents uf t) :
    ∃ uf', uf.clear = .done ((t.classes : Int), uf') ∧
      Represents uf' (Partition.discrete t.size) := by
  have hf := h.forest
  have hparents := hf.parents
  have hranks := hf.ranks
  unfold UnionFind.clear
  rw [h.count]
  by_cases hn : 0 < uf.n
  · have hp : uf.parent ≠ #[] ∧ 0 < uf.n := by
      refine ⟨?_, hn⟩
      intro hnil
      rw [hnil] at hparents
      exact absurd hparents (Nat.ne_of_lt hn)
    have hr : uf.rank ≠ #[] ∧ 0 < uf.n := by
      refine ⟨?_, hn⟩
      intro hnil
      rw [hnil] at hranks
      exact absurd hranks (Nat.ne_of_lt hn)
    obtain ⟨p, hrun, hsize, hid⟩ := singletons_ok hparents
    have hsrc : 0 + uf.n ≤ (Array.replicate uf.n (0 : Int)).size := by
      rw [Array.size_replicate, Nat.zero_add]
    have hdst : 0 + uf.n ≤ uf.rank.size := by omega
    obtain ⟨rank, hcopy, hrsize, hget⟩ := Outcome.copy_of_le hsrc hdst
    refine ⟨⟨p, rank, uf.n, uf.n⟩, ?_, ?_⟩
    · unfold UnionFind.resetParent UnionFind.resetRank
      rw [if_pos hp, if_pos hr, hrun, Outcome.done_bind, hcopy]
      rfl
    · rw [← h.size]
      refine represents_singletons hf.small hsize hid (hrsize.trans hranks) fun i hi => ?_
      rw [hget, if_pos ⟨Nat.zero_le i, by omega⟩, Array.getElem?_replicate, if_pos (by omega)]
  · have hzero : uf.n = 0 := by omega
    refine ⟨{ uf with sets := uf.n }, ?_, ?_⟩
    · unfold UnionFind.resetParent UnionFind.resetRank
      rw [if_neg (fun hp => hn hp.2), if_neg (fun hp => hn hp.2)]
      rfl
    · rw [← h.size]
      refine represents_singletons hf.small hparents (fun i hi => ?_) hranks (fun i hi => ?_) <;>
        omega

/-! ## Sequences of operations -/

/-- What the operations return for a partition, and the partition afterwards. -/
def unionFindSpec (t : Partition) : UnionFindOp × (Nat → Bool) → UnionFindResult → Partition → Prop
  | (.new n, _), r, t' => r = .unit ∧ t' = Partition.discrete n.toInt.toNat
  | (.find x, _), r, t' => r = .index (t.rep x) ∧ t' = t
  | (.union a b, _), r, t' => (∃ merged, r = .bool merged ∧ (merged = true ↔ ¬Joined t.joins a b)) ∧
      t'.size = t.size ∧
      t'.joins = if InSize t.size a ∧ InSize t.size b then (a, b) :: t.joins else t.joins
  | (.connected a b, _), r, t' => (∃ same, r = .bool same ∧ (same = true ↔ Joined t.joins a b)) ∧
      t' = t
  | (.count, _), r, t' => r = .int t.classes ∧ t' = t
  | (.clear, _), r, t' => r = .int t.classes ∧ t' = Partition.discrete t.size

/-- A union is of two elements, or of an index with itself. -/
def unionInside (uf : UnionFind) : UnionFindOp × (Nat → Bool) → Prop
  | (.union a b, _) => InSize uf.n a ∧ InSize uf.n b ∨ a = b
  | _ => True

theorem step_unionFind (uf : UnionFind) (t : Partition) (i : UnionFindOp × (Nat → Bool))
    (h : Represents uf t) (hok : unionInside uf i) :
    StepSatisfies UnionFind.step unionFindSpec UnionFind.refused Represents uf t i := by
  obtain ⟨op, heap⟩ := i
  cases op with
  | new n =>
    rcases new_unionFind heap n with ⟨hrun, href⟩ | ⟨uf', hrun, huf'⟩
    · exact stepSatisfies_refused (by simp only [UnionFind.step, hrun, Outcome.aborted_bind]) href
    · exact stepSatisfies_done
        (by simp only [UnionFind.step, hrun, Outcome.done_bind, Outcome.pure_eq]) ⟨rfl, rfl⟩ huf'
  | find x =>
    obtain ⟨uf', hrun, hc⟩ := h.forest.find (h.root x)
    exact stepSatisfies_done
      (by simp only [UnionFind.step, hrun, Outcome.done_bind, Outcome.pure_eq]) ⟨rfl, rfl⟩
      (h.compressed hc)
  | union a b =>
    obtain ⟨merged, uf', t', hrun, huf', hmerged, hsize, hjoins⟩ := h.union hok
    exact stepSatisfies_done
      (by simp only [UnionFind.step, hrun, Outcome.done_bind, Outcome.pure_eq])
      ⟨⟨merged, rfl, hmerged⟩, hsize, hjoins⟩ huf'
  | connected a b =>
    obtain ⟨uf', hrun, huf'⟩ := h.connected a b
    exact stepSatisfies_done
      (by simp only [UnionFind.step, hrun, Outcome.done_bind, Outcome.pure_eq])
      ⟨⟨t.rep a == t.rep b, rfl, by rw [beq_iff_eq, t.rep_eq]⟩, rfl⟩ huf'
  | count => exact stepSatisfies_done rfl ⟨congrArg _ h.count, rfl⟩ h
  | clear =>
    obtain ⟨uf', hrun, huf'⟩ := h.clear
    exact stepSatisfies_done
      (by simp only [UnionFind.step, hrun, Outcome.done_bind, Outcome.pure_eq]) ⟨rfl, rfl⟩ huf'

/-- **The emitted union-find keeps a partition** in every sequence of operations whose unions
are of two elements or of an index with itself: every access is to a cell of the arrays,
every walk ends, the classes are those of the least equivalence that relates the pairs of
elements joined, a union returns whether it joined two of them, and the count is their
number. Source: backend_c.rs:1705-1781 -/
theorem unionFind_partition (ops : List (UnionFindOp × (Nat → Bool)))
    (hinside : RunAllows UnionFind.step unionInside ops UnionFind.dropped) :
    RunSatisfies UnionFind.step unionFindSpec UnionFind.refused ops UnionFind.dropped
        (Partition.discrete 0) ∧
      RunKeeps UnionFind.step (fun uf => uf.parent.size = uf.n ∧ uf.rank.size = uf.n ∧
        ∀ x, InSize uf.n x → InSize uf.n (parentOf uf x)) ops UnionFind.dropped :=
  runSatisfies_of_allows step_unionFind
    (fun _ _ h => ⟨h.forest.parents, h.forest.ranks, h.forest.inside⟩) ops represents_dropped
    hinside

/-- Two elements joined. -/
def twoJoined : List (UnionFindOp × (Nat → Bool)) :=
  [(.new 2, fun _ => true), (.union 0 1, fun _ => true)]

theorem unionFind_partition_twoJoined :
    RunSatisfies UnionFind.step unionFindSpec UnionFind.refused twoJoined UnionFind.dropped
        (Partition.discrete 0) ∧
      RunKeeps UnionFind.step (fun uf => uf.parent.size = uf.n ∧ uf.rank.size = uf.n ∧
        ∀ x, InSize uf.n x → InSize uf.n (parentOf uf x)) twoJoined UnionFind.dropped := by
  refine unionFind_partition twoJoined ⟨trivial, ?_⟩
  have hnew : UnionFind.step UnionFind.dropped (.new 2, fun _ => true) =
      .done (.unit, ⟨#[0, 1], #[0, 0], 2, 2⟩) := rfl
  intro r uf hrun
  rw [hnew] at hrun
  cases hrun
  exact ⟨Or.inl (by decide), fun _ _ _ => trivial⟩

/-- An element joined to an index outside the arrays. -/
def joinedOutside : List (UnionFindOp × (Nat → Bool)) :=
  [(.new 2, fun _ => true), (.union 0 5, fun _ => true)]

/-- A union reads the rank of an index outside the arrays. -/
theorem unionFind_outside :
    ¬RunSatisfies UnionFind.step unionFindSpec UnionFind.refused joinedOutside UnionFind.dropped
      (Partition.discrete 0) := by
  have hnew : UnionFind.step UnionFind.dropped (.new 2, fun _ => true) =
      .done (.unit, ⟨#[0, 1], #[0, 0], 2, 2⟩) := rfl
  have hunion : UnionFind.step ⟨#[0, 1], #[0, 0], 2, 2⟩ (.union 0 5, fun _ => true) = .stuck := rfl
  intro hrun
  unfold joinedOutside RunSatisfies StepSatisfies at hrun
  rw [hnew] at hrun
  obtain ⟨t, -, hrest⟩ := hrun
  unfold RunSatisfies StepSatisfies at hrest
  rw [hunion] at hrest
  exact hrest

end Vani.Analysis
