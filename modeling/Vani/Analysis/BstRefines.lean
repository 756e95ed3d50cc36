import Vani.Backend.Bst
import Vani.Library.AvlTree
import Vani.Library.SortedList

/-!
# The emitted search tree refines a finite set

The arena holds a tree whose nodes carry their slots as labels. Every helper does to the
arena what the operation on trees does: a rotation, a rebalancing, the walk back up, the
new node of an insertion, the removal of a node or of its successor. Removal leaves the
slot of the removed node unused and lowers `len`, and insertion takes the slot `len`: the
arena goes on holding a search tree as long as that slot is not one of the tree's.
-/

set_option autoImplicit false

namespace Vani.Analysis

open Vani.Library Vani.Backend

/-- A tree with slots as labels. -/
abbrev SearchTree := AvlTree Nat Int64

variable {b b' b'' : Bst} {t t' : SearchTree}

/-- The slot of the root, or `-1`. -/
def slot : SearchTree → Int
  | .leaf => -1
  | .node i _ _ _ _ => i

/-- What the cells of a slot hold. -/
structure Cell (b : Bst) (i : Nat) (k : Int64) (h : Nat) (l r : Int) : Prop where
  key : b.keys[i]? = some (some k)
  height : b.heights[i]? = some (some h)
  left : b.left[i]? = some (some l)
  right : b.right[i]? = some (some r)

/-- The arena holds a tree. -/
def Stored (b : Bst) : SearchTree → Prop
  | .leaf => True
  | .node i k h l r => Cell b i k h (slot l) (slot r) ∧ Stored b l ∧ Stored b r

/-- The sizes of the four arrays. -/
def sizes (b : Bst) : Nat × Nat × Nat × Nat :=
  (b.keys.size, b.left.size, b.right.size, b.heights.size)

/-- Nothing but the cells of some slots changes. -/
structure Changes (I : List Nat) (b b' : Bst) : Prop where
  root : b'.root = b.root
  len : b'.len = b.len
  capacity : b'.capacity = b.capacity
  sizes : sizes b' = sizes b
  key : ∀ i, i ∉ I → b'.keys[i]? = b.keys[i]?
  height : ∀ i, i ∉ I → b'.heights[i]? = b.heights[i]?
  left : ∀ i, i ∉ I → b'.left[i]? = b.left[i]?
  right : ∀ i, i ∉ I → b'.right[i]? = b.right[i]?

theorem Changes.refl (I : List Nat) (b : Bst) : Changes I b b :=
  ⟨rfl, rfl, rfl, rfl, fun _ _ => rfl, fun _ _ => rfl, fun _ _ => rfl, fun _ _ => rfl⟩

theorem Changes.mono {I J : List Nat} (h : Changes I b b') (hIJ : ∀ i ∈ I, i ∈ J) :
    Changes J b b' where
  root := h.root
  len := h.len
  capacity := h.capacity
  sizes := h.sizes
  key i hi := h.key i fun hI => hi (hIJ i hI)
  height i hi := h.height i fun hI => hi (hIJ i hI)
  left i hi := h.left i fun hI => hi (hIJ i hI)
  right i hi := h.right i fun hI => hi (hIJ i hI)

theorem Changes.trans {I : List Nat} (h : Changes I b b') (h' : Changes I b' b'') :
    Changes I b b'' where
  root := h'.root.trans h.root
  len := h'.len.trans h.len
  capacity := h'.capacity.trans h.capacity
  sizes := h'.sizes.trans h.sizes
  key i hi := (h'.key i hi).trans (h.key i hi)
  height i hi := (h'.height i hi).trans (h.height i hi)
  left i hi := (h'.left i hi).trans (h.left i hi)
  right i hi := (h'.right i hi).trans (h.right i hi)

theorem Cell.frame {i : Nat} {k : Int64} {h : Nat} {l r : Int} (hcell : Cell b i k h l r)
    {I : List Nat} (hch : Changes I b b') (hi : i ∉ I) : Cell b' i k h l r where
  key := (hch.key i hi).trans hcell.key
  height := (hch.height i hi).trans hcell.height
  left := (hch.left i hi).trans hcell.left
  right := (hch.right i hi).trans hcell.right

/-- A tree whose cells are kept goes on being held. -/
theorem Stored.imp (h : Stored b t)
    (hcells : ∀ i ∈ t.labels, ∀ k h l r, Cell b i k h l r → Cell b' i k h l r) : Stored b' t := by
  induction t with
  | leaf => trivial
  | node i k height l r ihl ihr =>
    obtain ⟨hcell, hl, hr⟩ := h
    rw [AvlTree.labels_node] at hcells
    refine ⟨hcells i ?_ _ _ _ _ hcell, ihl hl fun j hj => hcells j ?_,
      ihr hr fun j hj => hcells j ?_⟩
    · exact List.mem_append_right _ List.mem_cons_self
    · exact List.mem_append_left _ hj
    · exact List.mem_append_right _ (List.mem_cons_of_mem i hj)

/-- A tree none of whose slots changes goes on being held. -/
theorem Stored.frame (h : Stored b t) {I : List Nat} (hch : Changes I b b')
    (hout : ∀ i ∈ t.labels, i ∉ I) : Stored b' t :=
  h.imp fun i hi _ _ _ _ hcell => hcell.frame hch (hout i hi)

/-- A tree is held in the arrays alone. -/
theorem Stored.of_arrays (h : Stored b t) (hkeys : b'.keys = b.keys)
    (hheights : b'.heights = b.heights) (hleft : b'.left = b.left) (hright : b'.right = b.right) :
    Stored b' t :=
  h.imp fun _ _ _ _ _ _ ⟨hk, hh, hl, hr⟩ =>
    ⟨hkeys ▸ hk, hheights ▸ hh, hleft ▸ hl, hright ▸ hr⟩

/-! ## Cells -/

section Cells

variable {α : Type} {a : Array (Option α)} {i : Nat} {x : α}

theorem fetch_of_get (h : a[i]? = some (some x)) : Bst.fetch a i = .done x := by
  unfold Bst.fetch Vec.load Outcome.read
  rw [if_pos (Int.natCast_nonneg i), Int.toNat_natCast, h]
  rfl

theorem lt_of_get (h : a[i]? = some (some x)) : i < a.size := by
  by_contra hge
  rw [Array.getElem?_eq_none (by omega)] at h
  cases h

theorem store_of_lt (h : i < a.size) (x : α) :
    Bst.store a i x = .done (a.setIfInBounds i (some x)) := by
  unfold Bst.store
  rw [if_pos (Int.natCast_nonneg i), Int.toNat_natCast, Outcome.write_of_lt h]

end Cells

section Stores

variable {i : Nat} {k : Int64} {h : Nat} {l r : Int}

/-- One of the cells of a slot gets another value. -/
structure Stores (i : Nat) (k : Int64) (h : Nat) (l r : Int) (b b' : Bst) : Prop where
  cell : Cell b' i k h l r
  changes : Changes [i] b b'

theorem Cell.setLeft (hcell : Cell b i k h l r) (v : Int) :
    ∃ a, Bst.store b.left i v = .done a ∧ Stores i k h v r b { b with left := a } := by
  have hlt := lt_of_get hcell.left
  refine ⟨_, store_of_lt hlt v, ⟨hcell.key, hcell.height, ?_, hcell.right⟩, ?_⟩
  · exact Array.getElem?_setIfInBounds_self_of_lt hlt
  · refine ⟨rfl, rfl, rfl, by simp [sizes], fun _ _ => rfl, fun _ _ => rfl, fun j hj => ?_,
      fun _ _ => rfl⟩
    exact Array.getElem?_setIfInBounds_ne fun hij => hj (List.mem_singleton.mpr hij.symm)

theorem Cell.setRight (hcell : Cell b i k h l r) (v : Int) :
    ∃ a, Bst.store b.right i v = .done a ∧ Stores i k h l v b { b with right := a } := by
  have hlt := lt_of_get hcell.right
  refine ⟨_, store_of_lt hlt v, ⟨hcell.key, hcell.height, hcell.left, ?_⟩, ?_⟩
  · exact Array.getElem?_setIfInBounds_self_of_lt hlt
  · refine ⟨rfl, rfl, rfl, by simp [sizes], fun _ _ => rfl, fun _ _ => rfl, fun _ _ => rfl,
      fun j hj => ?_⟩
    exact Array.getElem?_setIfInBounds_ne fun hij => hj (List.mem_singleton.mpr hij.symm)

theorem Cell.setKey (hcell : Cell b i k h l r) (v : Int64) :
    ∃ a, Bst.store b.keys i v = .done a ∧ Stores i v h l r b { b with keys := a } := by
  have hlt := lt_of_get hcell.key
  refine ⟨_, store_of_lt hlt v, ⟨?_, hcell.height, hcell.left, hcell.right⟩, ?_⟩
  · exact Array.getElem?_setIfInBounds_self_of_lt hlt
  · refine ⟨rfl, rfl, rfl, by simp [sizes], fun j hj => ?_, fun _ _ => rfl,
      fun _ _ => rfl, fun _ _ => rfl⟩
    exact Array.getElem?_setIfInBounds_ne fun hij => hj (List.mem_singleton.mpr hij.symm)

theorem Cell.setHeight (hcell : Cell b i k h l r) (v : Nat) :
    ∃ a, Bst.store b.heights i v = .done a ∧ Stores i k v l r b { b with heights := a } := by
  have hlt := lt_of_get hcell.height
  refine ⟨_, store_of_lt hlt v, ⟨hcell.key, ?_, hcell.left, hcell.right⟩, ?_⟩
  · exact Array.getElem?_setIfInBounds_self_of_lt hlt
  · refine ⟨rfl, rfl, rfl, by simp [sizes], fun _ _ => rfl, fun j hj => ?_, fun _ _ => rfl,
      fun _ _ => rfl⟩
    exact Array.getElem?_setIfInBounds_ne fun hij => hj (List.mem_singleton.mpr hij.symm)

theorem slot_ne {i : Nat} : (i : Int) ≠ -1 := by omega

/-- The height of a subtree is read from its root's slot. -/
theorem Stored.readHeight (hs : Stored b t) : b.height (slot t) = .done t.stored := by
  unfold Bst.height
  cases t with
  | leaf => exact if_pos rfl
  | node i k h l r => exact (if_neg slot_ne).trans (fetch_of_get hs.1.height)

theorem Cell.updateHeight (hcell : Cell b i k h l r) {lh rh : Nat}
    (hl : b.height l = .done lh) (hr : b.height r = .done rh) (hlh : lh < 255) (hrh : rh < 255) :
    ∃ b', b.updateHeight i = .done b' ∧ Stores i k (1 + max lh rh) l r b b' := by
  have hmax : (1 + if rh < lh then lh else rh) % 256 = 1 + max lh rh := by
    split <;> omega
  obtain ⟨a, hstore, hstores⟩ := hcell.setHeight (1 + max lh rh)
  refine ⟨_, ?_, hstores⟩
  unfold Bst.updateHeight
  rw [fetch_of_get hcell.left, Outcome.done_bind, hl, Outcome.done_bind,
    fetch_of_get hcell.right, Outcome.done_bind, hr, Outcome.done_bind, hmax, hstore]
  rfl

end Stores

/-! ## Rotations -/

/-- Slots that fit an `int32_t`. -/
def Small (t : SearchTree) : Prop := ∀ i ∈ t.labels, i < 2 ^ 31

theorem toInt32_of_lt {i : Nat} (h : i < 2 ^ 31) : Bst.toInt32 i = i :=
  IntType.wrap_of_fits (by decide)
    ⟨(show cInt.lo ≤ 0 by decide).trans (Int.natCast_nonneg i),
      show (i : Int) ≤ 2 ^ 31 - 1 by omega⟩

theorem Small.toInt32_slot (h : Small t) : Bst.toInt32 (slot t) = slot t := by
  cases t with
  | leaf => rfl
  | node i k height l r => exact toInt32_of_lt (h i (by simp))

section Rotations

variable {x y : Nat} {kx ky : Int64} {hx hy : Nat} {l m r : SearchTree}

theorem Stored.rotateRight (hs : Stored b (.node x kx hx (.node y ky hy l m) r))
    (hnodup : (AvlTree.node x kx hx (.node y ky hy l m) r).labels.Nodup) (hx31 : x < 2 ^ 31)
    (hl : l.stored < 250) (hm : m.stored < 250) (hr : r.stored < 250) :
    ∃ b', b.rotateRight x = .done ((y : Int), b') ∧
      Stored b' (AvlTree.rotateRight (.node x kx hx (.node y ky hy l m) r)) ∧
      Changes [x, y] b b' := by
  obtain ⟨hcx, ⟨hcy, hsl, hsm⟩, hsr⟩ := hs
  simp only [AvlTree.labels_node, List.nodup_append, List.nodup_cons, List.mem_append,
    List.mem_cons] at hnodup
  have hxy : x ≠ y := by grind
  have hout : ∀ t ∈ [l, m, r], ∀ i ∈ AvlTree.labels t, i ∉ [x, y] := by grind
  -- the two children change, then the two heights
  obtain ⟨left, hrun₁, hst₁⟩ := hcx.setLeft (slot m)
  have hcy₁ := hcy.frame hst₁.changes (by simp [hxy.symm])
  obtain ⟨right, hrun₂, hst₂⟩ := hcy₁.setRight (Bst.toInt32 x)
  have hcx₂ := hst₁.cell.frame hst₂.changes (by simp [hxy])
  have hch₂ : Changes [x, y] b { b with left, right } :=
    (hst₁.changes.mono (by simp)).trans (hst₂.changes.mono (by simp))
  obtain ⟨b₃, hrun₃, hst₃⟩ := hcx₂.updateHeight
    (hsm.frame hch₂ (hout m (by simp))).readHeight
    (hsr.frame hch₂ (hout r (by simp))).readHeight (by omega) (by omega)
  have hcy₃ := hst₂.cell.frame hst₃.changes (by simp [hxy.symm])
  have hch₃ : Changes [x, y] b b₃ := hch₂.trans (hst₃.changes.mono (by simp))
  have hlow₃ : Stored b₃ (.mk x kx m r) :=
    ⟨hst₃.cell, hsm.frame hch₃ (hout m (by simp)), hsr.frame hch₃ (hout r (by simp))⟩
  have hreadx : b₃.height (Bst.toInt32 x) = .done (AvlTree.mk x kx m r).stored := by
    rw [toInt32_of_lt hx31]
    exact hlow₃.readHeight
  obtain ⟨b₄, hrun₄, hst₄⟩ := hcy₃.updateHeight
    (hsl.frame hch₃ (hout l (by simp))).readHeight hreadx (by omega)
    (by rw [AvlTree.stored_mk]; omega)
  have hch₄ : Changes [x, y] b b₄ := hch₃.trans (hst₄.changes.mono (by simp))
  refine ⟨b₄, ?_, ⟨?_, ?_, ?_⟩, hch₄⟩
  · unfold Bst.rotateRight
    rw [fetch_of_get hcx.left, Outcome.done_bind, slot, fetch_of_get hcy.right, Outcome.done_bind,
      hrun₁, Outcome.done_bind, hrun₂, Outcome.done_bind, hrun₃, Outcome.done_bind, hrun₄]
    rfl
  · rw [toInt32_of_lt hx31] at hst₄
    exact hst₄.cell
  · exact hsl.frame hch₄ (hout l (by simp))
  · refine hlow₃.frame hst₄.changes ?_
    rw [AvlTree.labels_mk]
    grind

theorem Stored.rotateLeft (hs : Stored b (.node x kx hx l (.node y ky hy m r)))
    (hnodup : (AvlTree.node x kx hx l (.node y ky hy m r)).labels.Nodup) (hx31 : x < 2 ^ 31)
    (hl : l.stored < 250) (hm : m.stored < 250) (hr : r.stored < 250) :
    ∃ b', b.rotateLeft x = .done ((y : Int), b') ∧
      Stored b' (AvlTree.rotateLeft (.node x kx hx l (.node y ky hy m r))) ∧
      Changes [x, y] b b' := by
  obtain ⟨hcx, hsl, hcy, hsm, hsr⟩ := hs
  simp only [AvlTree.labels_node, List.nodup_append, List.nodup_cons, List.mem_append,
    List.mem_cons] at hnodup
  have hxy : x ≠ y := by grind
  have hout : ∀ t ∈ [l, m, r], ∀ i ∈ AvlTree.labels t, i ∉ [x, y] := by grind
  obtain ⟨right, hrun₁, hst₁⟩ := hcx.setRight (slot m)
  have hcy₁ := hcy.frame hst₁.changes (by simp [hxy.symm])
  obtain ⟨left, hrun₂, hst₂⟩ := hcy₁.setLeft (Bst.toInt32 x)
  have hcx₂ := hst₁.cell.frame hst₂.changes (by simp [hxy])
  have hch₂ : Changes [x, y] b { b with left, right } :=
    (hst₁.changes.mono (by simp)).trans (hst₂.changes.mono (by simp))
  obtain ⟨b₃, hrun₃, hst₃⟩ := hcx₂.updateHeight
    (hsl.frame hch₂ (hout l (by simp))).readHeight
    (hsm.frame hch₂ (hout m (by simp))).readHeight (by omega) (by omega)
  have hcy₃ := hst₂.cell.frame hst₃.changes (by simp [hxy.symm])
  have hch₃ : Changes [x, y] b b₃ := hch₂.trans (hst₃.changes.mono (by simp))
  have hlow₃ : Stored b₃ (.mk x kx l m) :=
    ⟨hst₃.cell, hsl.frame hch₃ (hout l (by simp)), hsm.frame hch₃ (hout m (by simp))⟩
  have hreadx : b₃.height (Bst.toInt32 x) = .done (AvlTree.mk x kx l m).stored := by
    rw [toInt32_of_lt hx31]
    exact hlow₃.readHeight
  obtain ⟨b₄, hrun₄, hst₄⟩ := hcy₃.updateHeight hreadx
    (hsr.frame hch₃ (hout r (by simp))).readHeight (by rw [AvlTree.stored_mk]; omega)
    (by omega)
  have hch₄ : Changes [x, y] b b₄ := hch₃.trans (hst₄.changes.mono (by simp))
  refine ⟨b₄, ?_, ⟨?_, ?_, ?_⟩, hch₄⟩
  · unfold Bst.rotateLeft
    rw [fetch_of_get hcx.right, Outcome.done_bind, slot, fetch_of_get hcy.left, Outcome.done_bind,
      hrun₁, Outcome.done_bind, hrun₂, Outcome.done_bind, hrun₃, Outcome.done_bind, hrun₄]
    rfl
  · rw [toInt32_of_lt hx31] at hst₄
    exact hst₄.cell
  · refine hlow₃.frame hst₄.changes ?_
    rw [AvlTree.labels_mk]
    grind
  · exact hsr.frame hch₄ (hout r (by simp))

/-- The left child is rotated where it is heavy on its right. -/
theorem Stored.straightenLeft (hs : Stored b (.node x kx hx (.node y ky hy l m) r))
    (hnodup : (AvlTree.node x kx hx (.node y ky hy l m) r).labels.Nodup)
    (hsmall : Small (.node x kx hx (.node y ky hy l m) r))
    (hbal : (AvlTree.node y ky hy l m).Balanced) (hy250 : hy < 250) :
    ∃ b', b.straightenLeft x y = .done b' ∧
      Stored b' (.node x kx hx
        (if AvlTree.heavyRight (.node y ky hy l m) then AvlTree.rotateLeft (.node y ky hy l m)
          else .node y ky hy l m) r) ∧
      Changes (AvlTree.node x kx hx (.node y ky hy l m) r).labels b b' := by
  obtain ⟨hcx, hsy, hsr⟩ := hs
  obtain ⟨hl, hm, hheight, hlm, hml⟩ := hbal
  unfold Bst.straightenLeft
  rw [fetch_of_get hsy.1.left, Outcome.done_bind, hsy.2.1.readHeight, Outcome.done_bind,
    fetch_of_get hsy.1.right, Outcome.done_bind, hsy.2.2.readHeight, Outcome.done_bind]
  by_cases hheavy : l.stored < m.stored
  · rw [if_pos hheavy,
      if_pos (show AvlTree.heavyRight (.node y ky hy l m) = true from decide_eq_true hheavy)]
    cases m with
    | leaf => exact absurd hheavy (Nat.not_lt_zero _)
    | node z kz hz m₁ m₂ =>
      obtain ⟨hm₁, hm₂, hmheight, -⟩ := hm
      rw [AvlTree.stored_node] at hheight hlm hml
      simp only [AvlTree.labels_node, List.nodup_append, List.nodup_cons, List.mem_append,
        List.mem_cons] at hnodup
      obtain ⟨b₁, hrun₁, hst₁, hch₁⟩ := hsy.rotateLeft (by
          simp only [AvlTree.labels_node, List.nodup_append, List.nodup_cons, List.mem_append,
            List.mem_cons]
          grind) (hsmall y (by simp)) (by omega) (by omega) (by omega)
      have hcx₁ := hcx.frame hch₁ (by grind)
      obtain ⟨left, hrun₂, hst₂⟩ := hcx₁.setLeft (Bst.toInt32 z)
      have hcx₂ := hst₂.cell
      rw [toInt32_of_lt (hsmall z (by simp))] at hcx₂
      refine ⟨_, ?_, ⟨hcx₂, hst₁.frame hst₂.changes ?_,
        (hsr.frame hch₁ ?_).frame hst₂.changes ?_⟩, ?_⟩
      · rw [hrun₁, Outcome.done_bind]
        dsimp only
        rw [hrun₂]
        rfl
      · rw [AvlTree.labels_rotateLeft]
        simp only [AvlTree.labels_node, List.mem_append, List.mem_cons]
        grind
      · grind
      · grind
      · refine (hch₁.mono ?_).trans (hst₂.changes.mono ?_) <;>
          simp only [AvlTree.labels_node, List.mem_append, List.mem_cons] <;> grind
  · rw [if_neg hheavy, if_neg (show ¬AvlTree.heavyRight (.node y ky hy l m) = true from
      fun hd => hheavy (of_decide_eq_true hd))]
    exact ⟨b, rfl, ⟨hcx, hsy, hsr⟩, Changes.refl _ b⟩

/-- The right child is rotated where it is heavy on its left. -/
theorem Stored.straightenRight (hs : Stored b (.node x kx hx l (.node y ky hy m r)))
    (hnodup : (AvlTree.node x kx hx l (.node y ky hy m r)).labels.Nodup)
    (hsmall : Small (.node x kx hx l (.node y ky hy m r)))
    (hbal : (AvlTree.node y ky hy m r).Balanced) (hy250 : hy < 250) :
    ∃ b', b.straightenRight x y = .done b' ∧
      Stored b' (.node x kx hx l
        (if AvlTree.heavyLeft (.node y ky hy m r) then AvlTree.rotateRight (.node y ky hy m r)
          else .node y ky hy m r)) ∧
      Changes (AvlTree.node x kx hx l (.node y ky hy m r)).labels b b' := by
  obtain ⟨hcx, hsl, hsy⟩ := hs
  obtain ⟨hm, hr, hheight, hmr, hrm⟩ := hbal
  unfold Bst.straightenRight
  rw [fetch_of_get hsy.1.left, Outcome.done_bind, hsy.2.1.readHeight, Outcome.done_bind,
    fetch_of_get hsy.1.right, Outcome.done_bind, hsy.2.2.readHeight, Outcome.done_bind]
  by_cases hheavy : r.stored < m.stored
  · rw [if_pos hheavy,
      if_pos (show AvlTree.heavyLeft (.node y ky hy m r) = true from decide_eq_true hheavy)]
    cases m with
    | leaf => exact absurd hheavy (Nat.not_lt_zero _)
    | node z kz hz m₁ m₂ =>
      obtain ⟨hm₁, hm₂, hmheight, -⟩ := hm
      rw [AvlTree.stored_node] at hheight hmr hrm
      simp only [AvlTree.labels_node, List.nodup_append, List.nodup_cons, List.mem_append,
        List.mem_cons] at hnodup
      obtain ⟨b₁, hrun₁, hst₁, hch₁⟩ := hsy.rotateRight (by
          simp only [AvlTree.labels_node, List.nodup_append, List.nodup_cons, List.mem_append,
            List.mem_cons]
          grind) (hsmall y (by simp)) (by omega) (by omega) (by omega)
      have hcx₁ := hcx.frame hch₁ (by grind)
      obtain ⟨right, hrun₂, hst₂⟩ := hcx₁.setRight (Bst.toInt32 z)
      have hcx₂ := hst₂.cell
      rw [toInt32_of_lt (hsmall z (by simp))] at hcx₂
      refine ⟨_, ?_, ⟨hcx₂, (hsl.frame hch₁ ?_).frame hst₂.changes ?_,
        hst₁.frame hst₂.changes ?_⟩, ?_⟩
      · rw [hrun₁, Outcome.done_bind]
        dsimp only
        rw [hrun₂]
        rfl
      · grind
      · grind
      · rw [AvlTree.labels_rotateRight]
        simp only [AvlTree.labels_node, List.mem_append, List.mem_cons]
        grind
      · refine (hch₁.mono ?_).trans (hst₂.changes.mono ?_) <;>
          simp only [AvlTree.labels_node, List.mem_append, List.mem_cons] <;> grind
  · rw [if_neg hheavy, if_neg (show ¬AvlTree.heavyLeft (.node y ky hy m r) = true from
      fun hd => hheavy (of_decide_eq_true hd))]
    exact ⟨b, rfl, ⟨hcx, hsl, hsy⟩, Changes.refl _ b⟩

/-- The children of a straightened left child are no higher than it was. -/
theorem straight_left (hbal : (AvlTree.node y ky hy l m).Balanced) :
    ∃ z kz hz l' m',
      (if AvlTree.heavyRight (.node y ky hy l m) then AvlTree.rotateLeft (.node y ky hy l m)
        else .node y ky hy l m) = AvlTree.node z kz hz l' m' ∧
      l'.stored ≤ hy ∧ m'.stored ≤ hy := by
  obtain ⟨-, hm, hheight, -, -⟩ := hbal
  by_cases hheavy : l.stored < m.stored
  · rw [if_pos (show AvlTree.heavyRight (.node y ky hy l m) = true from decide_eq_true hheavy)]
    cases m with
    | leaf => exact absurd hheavy (Nat.not_lt_zero _)
    | node z kz hz m₁ m₂ =>
      obtain ⟨-, -, hmheight, -, -⟩ := hm
      rw [AvlTree.stored_node] at hheight hheavy
      refine ⟨z, kz, _, .mk y ky l m₁, m₂, rfl, ?_, ?_⟩
      · rw [AvlTree.stored_mk]
        omega
      · omega
  · rw [if_neg (show ¬AvlTree.heavyRight (.node y ky hy l m) = true from
      fun hd => hheavy (of_decide_eq_true hd))]
    exact ⟨y, ky, hy, l, m, rfl, by omega, by omega⟩

/-- The children of a straightened right child are no higher than it was. -/
theorem straight_right (hbal : (AvlTree.node y ky hy m r).Balanced) :
    ∃ z kz hz m' r',
      (if AvlTree.heavyLeft (.node y ky hy m r) then AvlTree.rotateRight (.node y ky hy m r)
        else .node y ky hy m r) = AvlTree.node z kz hz m' r' ∧
      m'.stored ≤ hy ∧ r'.stored ≤ hy := by
  obtain ⟨hm, -, hheight, -, -⟩ := hbal
  by_cases hheavy : r.stored < m.stored
  · rw [if_pos (show AvlTree.heavyLeft (.node y ky hy m r) = true from decide_eq_true hheavy)]
    cases m with
    | leaf => exact absurd hheavy (Nat.not_lt_zero _)
    | node z kz hz m₁ m₂ =>
      obtain ⟨-, -, hmheight, -, -⟩ := hm
      rw [AvlTree.stored_node] at hheight hheavy
      refine ⟨z, kz, _, m₁, .mk y ky m₂ r, rfl, ?_, ?_⟩
      · omega
      · rw [AvlTree.stored_mk]
        omega
  · rw [if_neg (show ¬AvlTree.heavyLeft (.node y ky hy m r) = true from
      fun hd => hheavy (of_decide_eq_true hd))]
    exact ⟨y, ky, hy, m, r, rfl, by omega, by omega⟩

/-- Rebalancing a node of the arena is rebalancing the tree. -/
theorem Stored.rebalance (hs : Stored b (.node x kx hx l r))
    (hnodup : (AvlTree.node x kx hx l r).labels.Nodup) (hsmall : Small (.node x kx hx l r))
    (hl : l.Balanced) (hr : r.Balanced) (hl200 : l.stored < 200) (hr200 : r.stored < 200) :
    ∃ b', b.rebalance x = .done (slot (AvlTree.rebalance (.node x kx hx l r)), b') ∧
      Stored b' (AvlTree.rebalance (.node x kx hx l r)) ∧
      Changes (AvlTree.node x kx hx l r).labels b b' := by
  obtain ⟨hcx, hsl, hsr⟩ := hs
  obtain ⟨b₁, hrun₁, hst₁⟩ := hcx.updateHeight hsl.readHeight hsr.readHeight (by omega)
    (by omega)
  have hch₁ : Changes (AvlTree.node x kx hx l r).labels b b₁ := hst₁.changes.mono (by simp)
  have hx : ∀ t ∈ [l, r], ∀ i ∈ AvlTree.labels t, i ∉ [x] := by
    simp only [AvlTree.labels_node, List.nodup_append, List.nodup_cons, List.mem_cons] at hnodup
    grind
  have hs₁ : Stored b₁ (.mk x kx l r) :=
    ⟨hst₁.cell, hsl.frame hst₁.changes (hx l (by simp)), hsr.frame hst₁.changes (hx r (by simp))⟩
  have hbase : b.rebalance x = (if 1 < (l.stored : Int) - r.stored then do
      let b ← b₁.straightenLeft x (slot l)
      b.rotateRight x
    else if (l.stored : Int) - r.stored < -1 then do
      let b ← b₁.straightenRight x (slot r)
      b.rotateLeft x
    else pure ((x : Int), b₁)) := by
    unfold Bst.rebalance
    rw [hrun₁, Outcome.done_bind, fetch_of_get hs₁.1.left, Outcome.done_bind,
      hs₁.2.1.readHeight, Outcome.done_bind, fetch_of_get hs₁.1.right, Outcome.done_bind,
      hs₁.2.2.readHeight, Outcome.done_bind]
  rw [hbase, AvlTree.rebalance_node]
  by_cases hleft : r.stored + 1 < l.stored
  · rw [if_pos (show 1 < (l.stored : Int) - r.stored by omega), if_pos hleft]
    cases l with
    | leaf => exact absurd hleft (Nat.not_lt_zero _)
    | node y ky hy l m =>
      obtain ⟨b₂, hrun₂, hs₂, hch₂⟩ := hs₁.straightenLeft hnodup hsmall hl (by
        rw [AvlTree.stored_node] at hl200
        omega)
      obtain ⟨z, kz, hz, l', m', hshape, hl', hm'⟩ := straight_left hl
      have hlabels : (AvlTree.node z kz hz l' m').labels = (AvlTree.node y ky hy l m).labels := by
        rw [← hshape]
        split
        · exact AvlTree.labels_rotateLeft _
        · rfl
      rw [AvlTree.stored_node] at hl200
      rw [hshape] at hs₂ ⊢
      obtain ⟨b₃, hrun₃, hs₃, hch₃⟩ := hs₂.rotateRight
        (by rw [AvlTree.labels_node, hlabels]; rwa [AvlTree.labels_node] at hnodup)
        (hsmall x (by simp)) (by omega) (by omega) (by omega)
      refine ⟨b₃, ?_, hs₃, (hch₁.trans hch₂).trans (hch₃.mono ?_)⟩
      · rw [slot, hrun₂, Outcome.done_bind, hrun₃]
        rfl
      · have hz : z ∈ (AvlTree.node y ky hy l m).labels := by
          rw [← hlabels]
          simp
        rw [AvlTree.labels_node]
        grind
  · rw [if_neg (show ¬1 < (l.stored : Int) - r.stored by omega), if_neg hleft]
    by_cases hright : l.stored + 1 < r.stored
    · rw [if_pos (show (l.stored : Int) - r.stored < -1 by omega), if_pos hright]
      cases r with
      | leaf => exact absurd hright (Nat.not_lt_zero _)
      | node y ky hy m r =>
        obtain ⟨b₂, hrun₂, hs₂, hch₂⟩ := hs₁.straightenRight hnodup hsmall hr (by
          rw [AvlTree.stored_node] at hr200
          omega)
        obtain ⟨z, kz, hz, m', r', hshape, hm', hr'⟩ := straight_right hr
        have hlabels :
            (AvlTree.node z kz hz m' r').labels = (AvlTree.node y ky hy m r).labels := by
          rw [← hshape]
          split
          · exact AvlTree.labels_rotateRight _
          · rfl
        rw [AvlTree.stored_node] at hr200
        rw [hshape] at hs₂ ⊢
        obtain ⟨b₃, hrun₃, hs₃, hch₃⟩ := hs₂.rotateLeft
          (by rw [AvlTree.labels_node, hlabels]; rwa [AvlTree.labels_node] at hnodup)
          (hsmall x (by simp)) (by omega) (by omega) (by omega)
        refine ⟨b₃, ?_, hs₃, (hch₁.trans hch₂).trans (hch₃.mono ?_)⟩
        · rw [slot, hrun₂, Outcome.done_bind, hrun₃]
          rfl
        · have hz : z ∈ (AvlTree.node y ky hy m r).labels := by
            rw [← hlabels]
            simp
          rw [AvlTree.labels_node]
          grind
    · rw [if_neg (show ¬(l.stored : Int) - r.stored < -1 by omega), if_neg hright]
      exact ⟨b₁, rfl, hs₁, hch₁⟩

end Rotations

/-! ## The way back up -/

open AvlTree (plug plugs outside rebuild)

/-- The stack of the frames around a subtree. -/
def way (fs : List (AvlTree.Frame Nat Int64)) : Bst.Path :=
  fs.map fun f => ((f.label : Int), f.left)

/-- The arena holds the frames, with the hole's slot in the innermost one. -/
def Around (b : Bst) : List (AvlTree.Frame Nat Int64) → Int → Prop
  | [], _ => True
  | f :: fs, c =>
    Cell b f.label f.key f.height (if f.left then c else slot f.sibling)
        (if f.left then slot f.sibling else c) ∧
      Stored b f.sibling ∧ Around b fs f.label

theorem slot_plug (f : AvlTree.Frame Nat Int64) (t : SearchTree) : slot (plug f t) = f.label := by
  unfold plug
  split <;> rfl

theorem stored_plug {f : AvlTree.Frame Nat Int64} :
    Stored b (plug f t) ↔ Stored b t ∧
      Cell b f.label f.key f.height (if f.left then slot t else slot f.sibling)
        (if f.left then slot f.sibling else slot t) ∧ Stored b f.sibling := by
  unfold plug
  cases f.left with
  | true =>
    rw [if_pos rfl, if_pos rfl, if_pos rfl, Stored]
    tauto
  | false =>
    rw [if_neg Bool.false_ne_true, if_neg Bool.false_ne_true, if_neg Bool.false_ne_true, Stored]
    tauto

theorem stored_plugs {fs : List (AvlTree.Frame Nat Int64)} :
    Stored b (plugs fs t) ↔ Stored b t ∧ Around b fs (slot t) := by
  induction fs generalizing t with
  | nil => exact (and_iff_left trivial).symm
  | cons f fs ih =>
    rw [plugs, ih, stored_plug, slot_plug, Around]
    tauto

theorem Around.frame {fs : List (AvlTree.Frame Nat Int64)} {c : Int} (h : Around b fs c)
    {I : List Nat} (hch : Changes I b b') (hout : ∀ i ∈ outside fs, i ∉ I) : Around b' fs c := by
  induction fs generalizing c with
  | nil => trivial
  | cons f fs ih =>
    obtain ⟨hcell, hsib, hrest⟩ := h
    simp only [outside, List.mem_cons, List.mem_append] at hout
    exact ⟨hcell.frame hch (hout _ (Or.inl rfl)),
      hsib.frame hch fun i hi => hout i (Or.inr (Or.inl hi)),
      ih hrest fun i hi => hout i (Or.inr (Or.inr hi))⟩

/-- The arena is a tree. -/
structure Held (b : Bst) (t : SearchTree) : Prop where
  stored : Stored b t
  root : b.root = slot t
  nodup : t.labels.Nodup
  small : Small t

/-- The arena keeps its size and its count of slots. -/
structure Kept (b b' : Bst) : Prop where
  len : b'.len = b.len
  capacity : b'.capacity = b.capacity
  sizes : sizes b' = sizes b

theorem Changes.kept {I : List Nat} (h : Changes I b b') : Kept b b' :=
  ⟨h.len, h.capacity, h.sizes⟩

theorem Kept.trans (h : Kept b b') (h' : Kept b' b'') : Kept b b'' :=
  ⟨h'.len.trans h.len, h'.capacity.trans h.capacity, h'.sizes.trans h.sizes⟩

theorem slot_plugs_cons {f : AvlTree.Frame Nat Int64} {fs : List (AvlTree.Frame Nat Int64)} :
    slot (plugs (f :: fs) t) = slot (plugs (f :: fs) t') := by
  induction fs generalizing f t t' with
  | nil => rw [plugs, plugs, plugs, plugs, slot_plug, slot_plug]
  | cons g fs ih => exact ih

theorem outside_of_nodup {fs : List (AvlTree.Frame Nat Int64)} (h : (plugs fs t).labels.Nodup) :
    ∀ i ∈ outside fs, i ∉ t.labels := by
  have key := (AvlTree.labels_plugs_perm fs t).nodup_iff.mp h
  intro i hi ht
  exact (List.nodup_append.mp key).2.2 i ht i hi rfl

theorem Small.of_plugs {fs : List (AvlTree.Frame Nat Int64)} (h : Small (plugs fs t)) :
    Small t ∧ ∀ i ∈ outside fs, i < 2 ^ 31 := by
  have key := fun i => (AvlTree.labels_plugs_perm fs t).mem_iff (a := i)
  exact ⟨fun i hi => h i ((key i).mpr (List.mem_append_left _ hi)),
    fun i hi => h i ((key i).mpr (List.mem_append_right _ hi))⟩

/-- Linking another subtree into the hole. -/
theorem link_ok {fs : List (AvlTree.Frame Nat Int64)} {c : Int} (hfs : Around b fs c)
    (hroot : fs ≠ [] → b.root = slot (plugs fs t)) (ht : Stored b t)
    (hnodup : (plugs fs t).labels.Nodup) (hsmall : Small (plugs fs t)) :
    ∃ b', b.link (way fs) (slot t) = .done b' ∧ Held b' (plugs fs t) ∧ Kept b b' := by
  cases fs with
  | nil =>
    exact ⟨{ b with root := slot t }, rfl, ⟨ht.of_arrays rfl rfl rfl rfl, rfl, hnodup, hsmall⟩,
      rfl, rfl, rfl⟩
  | cons f fs =>
    obtain ⟨hcell, hsib, hrest⟩ := hfs
    have hperm := (AvlTree.labels_plugs_perm (f :: fs) t).nodup_iff.mp hnodup
    simp only [outside, List.nodup_append, List.nodup_cons, List.mem_append, List.mem_cons]
      at hperm
    have hthere : ∀ {b'}, Stores f.label f.key f.height
        (if f.left then slot t else slot f.sibling) (if f.left then slot f.sibling else slot t)
        b b' → Held b' (plugs (f :: fs) t) ∧ Kept b b' := by
      intro b' hst
      refine ⟨⟨stored_plugs.mpr ⟨ht.frame hst.changes ?_, hst.cell, hsib.frame hst.changes ?_,
        hrest.frame hst.changes ?_⟩, ?_, hnodup, hsmall⟩, hst.changes.kept⟩
      · grind
      · grind
      · grind
      · rw [hst.changes.root]
        exact hroot (List.cons_ne_nil f fs)
    cases hf : f.left with
    | true =>
      rw [hf, if_pos rfl, if_pos rfl] at hcell hthere
      obtain ⟨left, hrun, hst⟩ := hcell.setLeft (slot t)
      refine ⟨_, ?_, hthere hst⟩
      simp only [way, List.map_cons, hf, Bst.link, hsmall.of_plugs.1.toInt32_slot, hrun,
        Outcome.done_bind, Outcome.pure_eq]
    | false =>
      rw [hf, if_neg Bool.false_ne_true, if_neg Bool.false_ne_true] at hcell hthere
      obtain ⟨right, hrun, hst⟩ := hcell.setRight (slot t)
      refine ⟨_, ?_, hthere hst⟩
      simp only [way, List.map_cons, hf, Bst.link, hsmall.of_plugs.1.toInt32_slot, hrun,
        Outcome.done_bind, Outcome.pure_eq]

theorem labels_plugs_rebalance (fs : List (AvlTree.Frame Nat Int64)) (t : SearchTree) :
    (plugs fs (AvlTree.rebalance t)).labels = (plugs fs t).labels := by
  rw [AvlTree.labels, AvlTree.labels, AvlTree.nodes_plugs, AvlTree.nodes_plugs,
    AvlTree.nodes_rebalance]

/-- Rebalancing the innermost frame and linking the result. -/
theorem Held.climb {f : AvlTree.Frame Nat Int64} {fs : List (AvlTree.Frame Nat Int64)}
    (h : Held b (plugs (f :: fs) t)) (hbal : t.Balanced) (hsib : f.sibling.Balanced)
    (ht200 : t.stored < 200) (hsib200 : f.sibling.stored < 200) :
    ∃ b₁ b₂, b.rebalance f.label = .done (slot (AvlTree.rebalance (plug f t)), b₁) ∧
      b₁.link (way fs) (slot (AvlTree.rebalance (plug f t))) = .done b₂ ∧
      Held b₂ (plugs fs (AvlTree.rebalance (plug f t))) ∧ Kept b b₂ := by
  have hlabels := labels_plugs_rebalance fs (plug f t)
  obtain ⟨hstored, haround⟩ := stored_plugs.mp (show Stored b (plugs fs (plug f t)) from h.stored)
  have hnodup : (plugs fs (plug f t)).labels.Nodup := h.nodup
  have hsmall : Small (plugs fs (plug f t)) := h.small
  have hin := (List.nodup_append.mp
    ((AvlTree.labels_plugs_perm fs (plug f t)).nodup_iff.mp hnodup)).1
  obtain ⟨b₁, hrun₁, hst₁, hch₁⟩ : ∃ b₁,
      b.rebalance f.label = .done (slot (AvlTree.rebalance (plug f t)), b₁) ∧
        Stored b₁ (AvlTree.rebalance (plug f t)) ∧ Changes (plug f t).labels b b₁ := by
    have hsmall' := hsmall.of_plugs.1
    unfold plug at hstored hin hsmall' ⊢
    split at hstored
    · next hf =>
      rw [if_pos hf] at hin hsmall' ⊢
      exact hstored.rebalance hin hsmall' hbal hsib ht200 hsib200
    · next hf =>
      rw [if_neg hf] at hin hsmall' ⊢
      exact hstored.rebalance hin hsmall' hsib hbal hsib200 ht200
  have haround₁ := haround.frame hch₁ (outside_of_nodup hnodup)
  have hroot : fs ≠ [] → b₁.root = slot (plugs fs (AvlTree.rebalance (plug f t))) := by
    intro hfs
    cases fs with
    | nil => exact absurd rfl hfs
    | cons g fs =>
      rw [hch₁.root, h.root]
      exact slot_plugs_cons (t := plug f t)
  obtain ⟨b₂, hrun₂, hheld₂, hkept₂⟩ := link_ok haround₁ hroot hst₁ (hlabels ▸ hnodup)
    fun i hi => hsmall i (hlabels ▸ hi)
  exact ⟨b₁, b₂, hrun₁, hrun₂, hheld₂, hch₁.kept.trans hkept₂⟩

/-- The walk back up rebalances every frame. -/
theorem Held.walkUp {fs : List (AvlTree.Frame Nat Int64)} (h : Held b (plugs fs t))
    (hfits : AvlTree.Fits t' fs t) (hlow : t'.stored < 150) :
    ∃ b', b.walkUp (way fs) = .done b' ∧ Held b' (rebuild fs t) ∧ Kept b b' := by
  induction fs generalizing b t with
  | nil => exact ⟨b, rfl, h, rfl, rfl, rfl⟩
  | cons f fs ih =>
    obtain ⟨hbal, t₀, hbal₀, hsame, hup, hdown⟩ := hfits
    have hplug : (plug f t₀).Balanced := AvlTree.balanced_of_plugs (t := plug f t₀) hbal₀
    have hheights : f.sibling.Balanced ∧ f.sibling.stored < 150 ∧ t₀.stored < 150 := by
      have hle : (plug f t₀).stored ≤ (plugs (f :: fs) t₀).stored :=
        (Nat.le_add_left _ _).trans (AvlTree.length_add_stored_le (t := plug f t₀) hbal₀)
      unfold plug at hplug hle
      split at hplug
      · next hf =>
        obtain ⟨-, hsib, hheight, -⟩ := hplug
        rw [if_pos hf, AvlTree.stored_node] at hle
        exact ⟨hsib, by omega, by omega⟩
      · next hf =>
        obtain ⟨hsib, -, hheight, -⟩ := hplug
        rw [if_neg hf, AvlTree.stored_node] at hle
        exact ⟨hsib, by omega, by omega⟩
    obtain ⟨hsib, hsib150, ht150⟩ := hheights
    obtain ⟨b₁, b₂, hrun₁, hrun₂, hheld₂, hkept₂⟩ :=
      h.climb hbal hsib (by omega) (by omega)
    obtain ⟨hbal', hup', hdown'⟩ := AvlTree.rebalance_plug hplug hbal hup hdown
    obtain ⟨b₃, hrun₃, hheld₃, hkept₃⟩ := ih hheld₂
      ⟨hbal', plug f t₀, hbal₀, hsame, hup', hdown'⟩
    refine ⟨b₃, ?_, hheld₃, hkept₂.trans hkept₃⟩
    rw [way, List.map_cons, Bst.walkUp, hrun₁, Outcome.done_bind]
    dsimp only
    rw [← way, hrun₂, Outcome.done_bind, hrun₃]

/-! ## The way down -/

section Searching

open AvlTree (locate)

variable {fs : List (AvlTree.Frame Nat Int64)} {fuel : Nat} {x : Int64}

/-- A loop whose last turn leaves with the value of a computation. -/
theorem loop_leave {σ ρ : Type} {body : σ → Outcome (σ ⊕ ρ)} {s : σ} {X : Outcome ρ}
    (hlast : body s = X >>= fun r => pure (.inr r)) : Outcome.loop body (fuel + 1) s = X := by
  rw [Outcome.loop, hlast]
  cases X <;> rfl

/-- A loop whose first turn goes on. -/
theorem loop_on {σ ρ : Type} {body : σ → Outcome (σ ⊕ ρ)} {s s' : σ}
    (hfirst : body s = .done (.inl s')) :
    Outcome.loop body (fuel + 1) s = Outcome.loop body fuel s' := by
  rw [Outcome.loop, hfirst]

theorem lt_fuel {i : Nat} {k : Int64} {h : Nat} {l r : SearchTree}
    (hfuel : (AvlTree.node i k h l r).nodes.length < fuel) :
    ∃ n, fuel = n + 1 ∧ l.nodes.length < n ∧ r.nodes.length < n := by
  rw [AvlTree.nodes, List.length_append, List.length_cons] at hfuel
  exact ⟨fuel - 1, by omega, by omega, by omega⟩

theorem searchLoop_eq (fs : List (AvlTree.Frame Nat Int64)) (hs : Stored b t)
    (hfuel : t.nodes.length < fuel) :
    Outcome.loop (b.searchTurn x) fuel (slot t) = .done (locate x fs t).2.isNode := by
  induction t generalizing fs fuel with
  | leaf =>
    obtain ⟨n, rfl⟩ : ∃ n, fuel = n + 1 := ⟨fuel - 1, by simp [AvlTree.nodes] at hfuel; omega⟩
    refine loop_leave ?_
    unfold Bst.searchTurn
    rw [slot, if_pos rfl]
    rfl
  | node i k h l r ihl ihr =>
    obtain ⟨hcell, hl, hr⟩ := hs
    obtain ⟨n, rfl, hln, hrn⟩ := lt_fuel hfuel
    have hturn : b.searchTurn x (slot (.node i k h l r)) =
        if x = k then .done (.inr true)
        else if x < k then .done (.inl (slot l)) else .done (.inl (slot r)) := by
      unfold Bst.searchTurn
      rw [slot, if_neg slot_ne, fetch_of_get hcell.key, Outcome.done_bind,
        fetch_of_get hcell.left, fetch_of_get hcell.right]
      rfl
    unfold locate
    by_cases heq : x = k
    · rw [if_pos heq] at hturn ⊢
      exact loop_leave hturn
    · rw [if_neg heq] at hturn ⊢
      by_cases hlt : x < k
      · rw [if_pos hlt] at hturn ⊢
        rw [loop_on hturn]
        exact ihl _ hl hln
      · rw [if_neg hlt] at hturn ⊢
        rw [loop_on hturn]
        exact ihr _ hr hrn

theorem push_way (f : AvlTree.Frame Nat Int64) (h : fs.length < 64) :
    Bst.push (way fs) f.label f.left = .done (way (f :: fs)) := by
  unfold Bst.push
  rw [way, List.length_map, if_pos h]
  rfl

/-- The way to a node of a low tree fits the stack. -/
theorem length_lt {i : Nat} {k : Int64} {h : Nat} {l r : SearchTree}
    (hbal : (plugs fs (.node i k h l r)).Balanced)
    (hlow : (plugs fs (.node i k h l r)).stored < 64) : fs.length < 64 := by
  have key := AvlTree.length_add_stored_le hbal
  omega

/-- What the search of a removal finds. -/
def found : List (AvlTree.Frame Nat Int64) × SearchTree → Option (Int × Bst.Path)
  | (_, .leaf) => none
  | (gs, .node i _ _ _ _) => some (i, way gs)

theorem findLoop_eq (hs : Stored b t) (hfuel : t.nodes.length < fuel)
    (hbal : (plugs fs t).Balanced) (hlow : (plugs fs t).stored < 64) :
    Outcome.loop (b.findTurn x) fuel (slot t, way fs) = .done (found (locate x fs t)) := by
  induction t generalizing fs fuel with
  | leaf =>
    obtain ⟨n, rfl⟩ : ∃ n, fuel = n + 1 := ⟨fuel - 1, by simp [AvlTree.nodes] at hfuel; omega⟩
    exact loop_leave rfl
  | node i k h l r ihl ihr =>
    obtain ⟨hcell, hl, hr⟩ := hs
    obtain ⟨n, rfl, hln, hrn⟩ := lt_fuel hfuel
    have hlt64 := length_lt hbal hlow
    have hturn : b.findTurn x ((i : Int), way fs) =
        if x = k then .done (.inr (some ((i : Int), way fs)))
        else if x < k then .done (.inl (slot l, way (⟨true, i, k, h, r⟩ :: fs)))
        else .done (.inl (slot r, way (⟨false, i, k, h, l⟩ :: fs))) := by
      unfold Bst.findTurn
      dsimp only
      rw [if_neg slot_ne, fetch_of_get hcell.key, Outcome.done_bind, fetch_of_get hcell.left,
        fetch_of_get hcell.right, push_way ⟨true, i, k, h, r⟩ hlt64,
        push_way ⟨false, i, k, h, l⟩ hlt64]
      rfl
    unfold locate
    by_cases heq : x = k
    · rw [if_pos heq] at hturn ⊢
      exact loop_leave hturn
    · rw [if_neg heq] at hturn ⊢
      by_cases hlt : x < k
      · rw [if_pos hlt] at hturn ⊢
        exact (loop_on hturn).trans (ihl hl hln hbal hlow)
      · rw [if_neg hlt] at hturn ⊢
        exact (loop_on hturn).trans (ihr hr hrn hbal hlow)

/-- The new node of an insertion, linked to the last slot of the way. -/
def attach (heap : Nat → Bool) (b : Bst) (x : Int64) (path : Bst.Path) :
    Outcome (Option (Bst.Path × Bst)) := do
  let (i, b) ← b.emplace heap x
  let b ← b.link path i
  pure (some (path, b))

/-- What the search of an insertion leaves with. -/
def inserted (heap : Nat → Bool) (b : Bst) (x : Int64) :
    List (AvlTree.Frame Nat Int64) × SearchTree → Outcome (Option (Bst.Path × Bst))
  | (_, .node _ _ _ _ _) => .done none
  | (gs, .leaf) => attach heap b x (way gs)

theorem insertTurn_eq (heap : Nat → Bool) {i : Nat} {k : Int64} {h : Nat} {l r : SearchTree}
    (hcell : Cell b i k h (slot l) (slot r)) (hlt64 : fs.length < 64) :
    b.insertTurn heap x ((i : Int), way fs) =
      if x = k then .done (.inr none)
      else if x < k then
        if slot l = -1 then
          attach heap b x (way (⟨true, i, k, h, r⟩ :: fs)) >>= fun q => pure (.inr q)
        else .done (.inl (slot l, way (⟨true, i, k, h, r⟩ :: fs)))
      else
        if slot r = -1 then
          attach heap b x (way (⟨false, i, k, h, l⟩ :: fs)) >>= fun q => pure (.inr q)
        else .done (.inl (slot r, way (⟨false, i, k, h, l⟩ :: fs))) := by
  unfold Bst.insertTurn attach
  dsimp only
  rw [fetch_of_get hcell.key, Outcome.done_bind, fetch_of_get hcell.left,
    fetch_of_get hcell.right, push_way ⟨true, i, k, h, r⟩ hlt64,
    push_way ⟨false, i, k, h, l⟩ hlt64]
  simp only [Outcome.done_bind, way, List.map_cons, Bst.link, Outcome.pure_eq]
  congr 2
  · congr 1
    cases b.emplace heap x with
    | done p =>
      simp only [Outcome.done_bind]
      cases Bst.store p.2.left i (Bst.toInt32 p.1) <;> rfl
    | aborted => rfl
    | stuck => rfl
  · congr 1
    cases b.emplace heap x with
    | done p =>
      simp only [Outcome.done_bind]
      cases Bst.store p.2.right i (Bst.toInt32 p.1) <;> rfl
    | aborted => rfl
    | stuck => rfl

theorem insertLoop_eq (heap : Nat → Bool) (hs : Stored b t) (hnode : t.isNode = true)
    (hfuel : t.nodes.length < fuel) (hbal : (plugs fs t).Balanced)
    (hlow : (plugs fs t).stored < 64) :
    Outcome.loop (b.insertTurn heap x) fuel (slot t, way fs) =
      inserted heap b x (locate x fs t) := by
  induction t generalizing fs fuel with
  | leaf => cases hnode
  | node i k h l r ihl ihr =>
    obtain ⟨hcell, hl, hr⟩ := hs
    obtain ⟨n, rfl, hln, hrn⟩ := lt_fuel hfuel
    have hturn := insertTurn_eq (x := x) heap hcell (length_lt hbal hlow)
    unfold locate
    by_cases heq : x = k
    · rw [if_pos heq] at hturn ⊢
      exact loop_leave hturn
    · rw [if_neg heq] at hturn ⊢
      by_cases hlt : x < k
      · rw [if_pos hlt] at hturn ⊢
        cases l with
        | leaf =>
          rw [slot, if_pos rfl] at hturn
          exact loop_leave hturn
        | node j m g a c =>
          rw [if_neg (show slot (.node j m g a c) ≠ -1 from slot_ne)] at hturn
          rw [slot, loop_on hturn]
          exact ihl hl rfl hln hbal hlow
      · rw [if_neg hlt] at hturn ⊢
        cases r with
        | leaf =>
          rw [slot, if_pos rfl] at hturn
          exact loop_leave hturn
        | node j m g a c =>
          rw [if_neg (show slot (.node j m g a c) ≠ -1 from slot_ne)] at hturn
          rw [slot, loop_on hturn]
          exact ihr hr rfl hrn hbal hlow

open AvlTree (leftmost)

theorem successorLoop_eq (hs : Stored b t) (hnode : t.isNode = true)
    (hfuel : t.nodes.length < fuel) (hbal : (plugs fs t).Balanced)
    (hlow : (plugs fs t).stored < 64) :
    Outcome.loop b.successorTurn fuel (slot t, way fs) =
      .done (slot (leftmost fs t).2, way (leftmost fs t).1) := by
  induction t generalizing fs fuel with
  | leaf => cases hnode
  | node i k h l r ihl ihr =>
    obtain ⟨hcell, hl, hr⟩ := hs
    obtain ⟨n, rfl, hln, hrn⟩ := lt_fuel hfuel
    have hturn : b.successorTurn ((i : Int), way fs) =
        if slot l = -1 then .done (.inr ((i : Int), way fs))
        else .done (.inl (slot l, way (⟨true, i, k, h, r⟩ :: fs))) := by
      unfold Bst.successorTurn
      dsimp only
      rw [fetch_of_get hcell.left, push_way ⟨true, i, k, h, r⟩ (length_lt hbal hlow)]
      rfl
    rw [AvlTree.leftmost_node]
    cases l with
    | leaf =>
      rw [slot, if_pos rfl] at hturn
      exact loop_leave hturn
    | node j m g a c =>
      rw [if_neg (show slot (.node j m g a c) ≠ -1 from slot_ne)] at hturn
      exact (loop_on hturn).trans (ihl hl rfl hln hbal hlow)

/-- The walk to the left ends at the least key. -/
theorem leftLoop_ok (hs : Stored b t) (hnode : t.isNode = true)
    (hfuel : t.nodes.length < fuel) :
    ∃ i k, Outcome.loop (Bst.endTurn b.left) fuel (slot t) = .done i ∧
      Bst.fetch b.keys i = .done k ∧ t.keys.head? = some k := by
  induction t generalizing fuel with
  | leaf => cases hnode
  | node i k h l r ihl ihr =>
    obtain ⟨hcell, hl, hr⟩ := hs
    obtain ⟨n, rfl, hln, hrn⟩ := lt_fuel hfuel
    have hturn : Bst.endTurn b.left (i : Int) =
        if slot l = -1 then .done (.inr (i : Int)) else .done (.inl (slot l)) := by
      unfold Bst.endTurn
      rw [fetch_of_get hcell.left]
      rfl
    cases l with
    | leaf =>
      rw [slot, if_pos rfl] at hturn
      exact ⟨i, k, loop_leave hturn, fetch_of_get hcell.key, rfl⟩
    | node j m g a c =>
      rw [if_neg (show slot (.node j m g a c) ≠ -1 from slot_ne)] at hturn
      obtain ⟨i', k', hloop, hkey, hhead⟩ := ihl hl rfl hln
      refine ⟨i', k', (loop_on hturn).trans hloop, hkey, ?_⟩
      rw [AvlTree.keys] at hhead ⊢
      rw [AvlTree.nodes, List.map_append, List.head?_append, hhead]
      rfl

/-- The walk to the right ends at the greatest key. -/
theorem rightLoop_ok (hs : Stored b t) (hnode : t.isNode = true)
    (hfuel : t.nodes.length < fuel) :
    ∃ i k, Outcome.loop (Bst.endTurn b.right) fuel (slot t) = .done i ∧
      Bst.fetch b.keys i = .done k ∧ t.keys.getLast? = some k := by
  induction t generalizing fuel with
  | leaf => cases hnode
  | node i k h l r ihl ihr =>
    obtain ⟨hcell, hl, hr⟩ := hs
    obtain ⟨n, rfl, hln, hrn⟩ := lt_fuel hfuel
    have hturn : Bst.endTurn b.right (i : Int) =
        if slot r = -1 then .done (.inr (i : Int)) else .done (.inl (slot r)) := by
      unfold Bst.endTurn
      rw [fetch_of_get hcell.right]
      rfl
    cases r with
    | leaf =>
      rw [slot, if_pos rfl] at hturn
      refine ⟨i, k, loop_leave hturn, fetch_of_get hcell.key, ?_⟩
      simp [AvlTree.keys, AvlTree.nodes]
    | node j m g a c =>
      rw [if_neg (show slot (.node j m g a c) ≠ -1 from slot_ne)] at hturn
      obtain ⟨i', k', hloop, hkey, hlast⟩ := ihr hr rfl hrn
      refine ⟨i', k', (loop_on hturn).trans hloop, hkey, ?_⟩
      rw [AvlTree.keys] at hlast ⊢
      rw [AvlTree.nodes, List.map_append, List.getLast?_append, List.map_cons,
        List.getLast?_cons, hlast]
      rfl

end Searching

/-! ## The operations -/

/-- The four arrays are as large as the capacity says. -/
def Sized (b : Bst) : Prop :=
  b.keys.size = b.capacity ∧ b.left.size = b.capacity ∧ b.right.size = b.capacity ∧
    b.heights.size = b.capacity

theorem Kept.sized (h : Kept b b') (hb : Sized b) : Sized b' := by
  have hsizes := h.sizes
  have hcapacity := h.capacity
  simp only [Analysis.sizes, Prod.mk.injEq] at hsizes
  unfold Sized at hb ⊢
  omega

/-- The arena is a balanced search tree with `len` nodes. -/
structure Good (b : Bst) (t : SearchTree) : Prop where
  held : Held b t
  sorted : t.Sorted
  balanced : t.Balanced
  len : b.len = t.labels.length
  sized : Sized b

theorem Stored.lt (hs : Stored b t) : ∀ i ∈ t.labels, i < b.keys.size := by
  induction t with
  | leaf => rintro i ⟨⟩
  | node i k h l r ihl ihr =>
    obtain ⟨hcell, hl, hr⟩ := hs
    intro j hj
    rw [AvlTree.labels_node, List.mem_append, List.mem_cons] at hj
    rcases hj with hj | rfl | hj
    · exact ihl hl j hj
    · exact lt_of_get hcell.key
    · exact ihr hr j hj

theorem length_le_of_lt {is : List Nat} {n : Nat} (hnodup : is.Nodup) (hlt : ∀ i ∈ is, i < n) :
    is.length ≤ n := by
  rw [← List.toFinset_card_of_nodup hnodup, ← Finset.card_range n]
  refine Finset.card_le_card fun i hi => ?_
  exact Finset.mem_range.mpr (hlt i (List.mem_toFinset.mp hi))

theorem length_nodes_eq (t : SearchTree) : t.nodes.length = t.labels.length :=
  (List.length_map _).symm

theorem Good.length_le (h : Good b t) : t.labels.length ≤ b.capacity :=
  length_le_of_lt h.held.nodup fun i hi => h.sized.1 ▸ h.held.stored.lt i hi

/-- The fuel of the loops suffices for the tree. -/
theorem Good.fuel (h : Good b t) : t.nodes.length < b.keys.size + 1 := by
  rw [length_nodes_eq, h.sized.1]
  exact Nat.lt_succ_of_le h.length_le

/-- At most `2 ^ 31` slots make a tree that fits the stack. -/
theorem Good.low (h : Good b t) : t.stored < 64 := by
  have hfib := h.balanced.fib_le
  have hlength := length_le_of_lt h.held.nodup h.held.small
  rw [length_nodes_eq] at hfib
  by_contra hhigh
  have hmono : Nat.fib 47 ≤ Nat.fib (t.stored + 2) := Nat.fib_mono (by omega)
  have hvalue : Nat.fib 47 = 2971215073 := by decide
  omega

theorem Good.contains (h : Good b t) (x : Int64) :
    b.contains x = .done (decide (x ∈ t.keys)) := by
  unfold Bst.contains
  rw [h.held.root, searchLoop_eq [] h.held.stored h.fuel]
  congr 1
  rw [Bool.eq_iff_iff, ← AvlTree.mem_keys_iff h.sorted, decide_eq_true_iff]

theorem Good.min (h : Good b t) : b.min = .done t.keys.head? := by
  unfold Bst.min Bst.endKey
  rw [h.held.root]
  cases t with
  | leaf => rfl
  | node i k height l r =>
    obtain ⟨i', k', hloop, hkey, hhead⟩ := leftLoop_ok h.held.stored rfl h.fuel
    rw [if_neg (show slot (.node i k height l r) ≠ -1 from slot_ne), hloop, Outcome.done_bind,
      hkey, hhead]
    rfl

theorem Good.max (h : Good b t) : b.max = .done t.keys.getLast? := by
  unfold Bst.max Bst.endKey
  rw [h.held.root]
  cases t with
  | leaf => rfl
  | node i k height l r =>
    obtain ⟨i', k', hloop, hkey, hlast⟩ := rightLoop_ok h.held.stored rfl h.fuel
    rw [if_neg (show slot (.node i k height l r) ≠ -1 from slot_ne), hloop, Outcome.done_bind,
      hkey, hlast]
    rfl

/-! ## Insertion -/

theorem resize_get {α : Type} {a : Array (Option α)} {i : Nat} {x : α}
    (h : a[i]? = some (some x)) (n : Nat) : (Bst.resize a n)[i]? = some (some x) := by
  unfold Bst.resize
  rw [Array.getElem?_append_left (lt_of_get h), h]

theorem resize_size {α : Type} (a : Array (Option α)) {n : Nat} (h : a.size ≤ n) :
    (Bst.resize a n).size = n := by
  unfold Bst.resize
  rw [Array.size_append, Array.size_replicate]
  omega

/-- Room for another slot, or no memory for it. -/
theorem Good.room (h : Good b t) (heap : Nat → Bool) :
    ((if (b.capacity : Int) ≤ b.len then b.grow heap else pure b) = .aborted ∧
        b.capacity ≤ b.len ∧ Bst.granted heap (Bst.grownCapacity b.capacity) = false) ∨
      ∃ c, (if (b.capacity : Int) ≤ b.len then b.grow heap else pure b) = .done c ∧
        t.labels.length < c.capacity ∧ c.root = b.root ∧ c.len = b.len ∧
        Sized c ∧
        ∀ i k h l r, Cell b i k h l r → Cell c i k h l r := by
  have hlen := h.len
  have hle := h.length_le
  by_cases hfull : (b.capacity : Int) ≤ b.len
  · rw [if_pos hfull]
    unfold Bst.grow
    dsimp only
    cases hgranted : Bst.granted heap (Bst.grownCapacity b.capacity) with
    | false => exact Or.inl ⟨if_neg Bool.false_ne_true, hfull, rfl⟩
    | true =>
      have hgrown : b.capacity < Bst.grownCapacity b.capacity := by
        unfold Bst.grownCapacity
        split <;> omega
      obtain ⟨hk, hl, hr, hh⟩ := h.sized
      refine Or.inr ⟨_, if_pos rfl, by dsimp only; omega, rfl, rfl, ?_, ?_⟩
      · refine ⟨resize_size _ ?_, resize_size _ ?_, resize_size _ ?_, resize_size _ ?_⟩ <;> omega
      · intro i k height l r hcell
        exact ⟨resize_get hcell.key _, resize_get hcell.height _, resize_get hcell.left _,
          resize_get hcell.right _⟩
  · rw [if_neg hfull]
    exact Or.inr ⟨b, rfl, by omega, rfl, rfl, h.sized, fun _ _ _ _ _ hcell => hcell⟩

/-- A slot written for a new node. -/
theorem fill_ok {n : Nat} (hlen : b.len = n) (hroom : n < b.capacity)
    (hsized : Sized b) (x : Int64) :
    ∃ b', b.fill x = .done ((n : Int), b') ∧ Cell b' n x 1 (-1) (-1) ∧
      (∀ i, i ≠ n → ∀ k h l r, Cell b i k h l r → Cell b' i k h l r) ∧ b'.root = b.root ∧
      b'.len = b.len + 1 ∧ Sized b' := by
  obtain ⟨hk, hl, hr, hh⟩ := hsized
  refine ⟨{ b with
      keys := b.keys.setIfInBounds n (some x)
      left := b.left.setIfInBounds n (some (-1))
      right := b.right.setIfInBounds n (some (-1))
      heights := b.heights.setIfInBounds n (some 1)
      len := b.len + 1 }, ?_, ⟨?_, ?_, ?_, ?_⟩, ?_, rfl, rfl, ?_⟩
  · unfold Bst.fill
    rw [hlen, store_of_lt (by omega), Outcome.done_bind, store_of_lt (by omega),
      Outcome.done_bind, store_of_lt (by omega), Outcome.done_bind, store_of_lt (by omega),
      Outcome.done_bind, ← hlen]
    rfl
  · exact Array.getElem?_setIfInBounds_self_of_lt (by omega)
  · exact Array.getElem?_setIfInBounds_self_of_lt (by omega)
  · exact Array.getElem?_setIfInBounds_self_of_lt (by omega)
  · exact Array.getElem?_setIfInBounds_self_of_lt (by omega)
  · intro i hi k h l r hcell
    refine ⟨?_, ?_, ?_, ?_⟩
    · exact (Array.getElem?_setIfInBounds_ne hi.symm).trans hcell.key
    · exact (Array.getElem?_setIfInBounds_ne hi.symm).trans hcell.height
    · exact (Array.getElem?_setIfInBounds_ne hi.symm).trans hcell.left
    · exact (Array.getElem?_setIfInBounds_ne hi.symm).trans hcell.right
  · simp only [Sized, Array.size_setIfInBounds, hk, hl, hr, hh, and_self]

/-- A new node linked where its key belongs. -/
theorem Good.attach {fs : List (AvlTree.Frame Nat Int64)} (h : Good b (plugs fs .leaf))
    (heap : Nat → Bool) (x : Int64) {n : Nat} (hn : b.len = n)
    (hfree : n ∉ (plugs fs (.leaf : SearchTree)).labels) (hn31 : n < 2 ^ 31) :
    (Analysis.attach heap b x (way fs) = .aborted ∧ b.refused (.insert x, heap)) ∨
      ∃ b', Analysis.attach heap b x (way fs) = .done (some (way fs, b')) ∧
        Held b' (plugs fs (.mk n x .leaf .leaf)) ∧ b'.len = b.len + 1 ∧
        Sized b' := by
  have hlen := h.len
  unfold Analysis.attach Bst.emplace
  rcases h.room heap with ⟨hrun, hfull, hno⟩ | ⟨c, hrun, hroom, hroot, hclen, hsized, hcells⟩
  · exact Or.inl ⟨by rw [hrun]; rfl, hfull, hno⟩
  · obtain ⟨d, hfill, hnew, hkeep, hroot', hdlen, hdsized⟩ :=
      fill_ok (hclen.trans hn) (by omega) hsized x
    have hold : Stored d (plugs fs .leaf) := h.held.stored.imp fun i hi _ _ _ _ hcell =>
      hkeep i (fun hin => hfree (hin ▸ hi)) _ _ _ _ (hcells _ _ _ _ _ hcell)
    have hnode : Stored d (.mk n x .leaf .leaf) := ⟨hnew, trivial, trivial⟩
    have hperm := AvlTree.labels_plugs_perm fs (.mk n x .leaf .leaf : SearchTree)
    have hperm₀ := AvlTree.labels_plugs_perm fs (.leaf : SearchTree)
    have hnodup := hperm₀.nodup_iff.mp h.held.nodup
    have hout : n ∉ outside fs := fun hin => hfree (hperm₀.mem_iff.mpr hin)
    obtain ⟨b', hlink, hheld, hkept⟩ := link_ok (stored_plugs.mp hold).2
      (t := .mk n x .leaf .leaf)
      (fun hfs => by
        rw [hroot', hroot, h.held.root]
        cases fs with
        | nil => exact absurd rfl hfs
        | cons f fs => exact slot_plugs_cons)
      hnode (hperm.nodup_iff.mpr (List.nodup_cons.mpr ⟨hout, hnodup⟩)) (fun i hi => by
        rcases List.mem_cons.mp (hperm.mem_iff.mp hi) with rfl | hin
        · exact hn31
        · exact h.held.small i (hperm₀.mem_iff.mpr hin))
    refine Or.inr ⟨b', ?_, hheld, by rw [hkept.len, hdlen, hclen], hkept.sized hdsized⟩
    rw [hrun, Outcome.done_bind, hfill, Outcome.done_bind]
    dsimp only
    rw [show (n : Int) = slot (.mk n x .leaf .leaf) from rfl, hlink]
    rfl

/-- What an insertion does after its search. -/
def finish (b : Bst) : Option (Bst.Path × Bst) → Outcome (Bool × Bst)
  | none => pure (false, b)
  | some (path, b) => do
    let b ← b.walkUp path
    pure (true, b)

theorem Good.insert_eq (h : Good b t) (heap : Nat → Bool) (x : Int64) :
    b.insert heap x = inserted heap b x (AvlTree.locate x [] t) >>= finish b := by
  unfold Bst.insert
  rw [h.held.root]
  cases t with
  | leaf =>
    rw [slot, if_pos rfl, AvlTree.locate, inserted, Analysis.attach]
    cases b.emplace heap x <;> rfl
  | node i k height l r =>
    have hbal : (plugs [] (.node i k height l r)).Balanced := h.balanced
    have hloop := insertLoop_eq (x := x) heap h.held.stored rfl h.fuel hbal h.low
    rw [if_neg (show slot (.node i k height l r) ≠ -1 from slot_ne),
      show ([] : Bst.Path) = way [] from rfl, hloop]
    cases inserted heap b x (AvlTree.locate x [] (.node i k height l r)) with
    | done q => cases q <;> rfl
    | aborted => rfl
    | stuck => rfl

/-- Inserting a key: it is there already, or it gets a node in the next slot. -/
theorem Good.insert (h : Good b t) (heap : Nat → Bool) (x : Int64) {n : Nat} (hn : b.len = n)
    (hfree : x ∉ t.keys → n ∉ t.labels ∧ n < 2 ^ 31) :
    (x ∈ t.keys ∧ b.insert heap x = .done (false, b)) ∨
      x ∉ t.keys ∧
        ((b.insert heap x = .aborted ∧ b.refused (.insert x, heap)) ∨
          ∃ b' t', b.insert heap x = .done (true, b') ∧ Good b' t' ∧ AvlTree.Without x t' t) := by
  have hnone : AvlTree.Between x ([] : List (AvlTree.Frame Nat Int64)) := by
    constructor <;> rintro m ⟨⟩
  have hplugs := AvlTree.plugs_locate x [] t
  obtain ⟨hbetween, -⟩ := AvlTree.locate_cases (show (AvlTree.plugs [] t).Sorted from h.sorted) hnone
  rw [h.insert_eq heap x]
  by_cases hx : x ∈ t.keys
  · have hnode := (AvlTree.mem_keys_iff h.sorted).mp hx
    refine Or.inl ⟨hx, ?_⟩
    cases hlocate : AvlTree.locate x [] t with
    | mk gs u =>
      rw [hlocate] at hnode
      cases u with
      | leaf => cases hnode
      | node i k height l r => rfl
  · have hnode := mt (AvlTree.mem_keys_iff h.sorted).mpr hx
    refine Or.inr ⟨hx, ?_⟩
    obtain ⟨hout, hn31⟩ := hfree hx
    cases hlocate : AvlTree.locate x [] t with
    | mk gs u =>
      rw [hlocate] at hnode hplugs hbetween
      cases u with
      | node i k height l r => exact absurd rfl hnode
      | leaf =>
        rw [show plugs [] t = t from rfl] at hplugs
        dsimp only at hplugs hbetween
        subst hplugs
        rw [inserted]
        rcases h.attach heap x hn hout hn31 with ⟨hrun, href⟩ | ⟨c, hrun, hheld, hlen, hsized⟩
        · exact Or.inl ⟨by rw [hrun]; rfl, href⟩
        · obtain ⟨b', hwalk, hheld', hkept⟩ :=
            hheld.walkUp (AvlTree.fits_leaf h.balanced n x) (by have := h.low; omega)
          refine Or.inr ⟨b', rebuild gs (.mk n x .leaf .leaf), ?_, ⟨hheld', ?_, ?_, ?_, ?_⟩, ?_⟩
          · rw [hrun, Outcome.done_bind, finish, hwalk]
            rfl
          · rw [AvlTree.sorted_iff, AvlTree.keys_rebuild, ← AvlTree.sorted_iff]
            exact h.sorted.new hbetween n
          · exact (AvlTree.fits_leaf h.balanced n x).rebuild
          · obtain ⟨i, hperm⟩ := (AvlTree.without_new gs n x).labels
            have hlabels := hperm.length_eq
            have hblen := h.len
            rw [List.length_cons] at hlabels
            rw [hkept.len, hlen, AvlTree.labels_rebuild]
            omega
          · exact hkept.sized hsized
          · have key := AvlTree.without_new gs n x
            exact ⟨by rw [AvlTree.keys_rebuild]; exact key.keys, by
              rw [AvlTree.labels_rebuild]; exact key.labels⟩

/-! ## Removal -/

/-- What takes the place of a found node. -/
theorem Good.unlink {gs : List (AvlTree.Frame Nat Int64)} {i : Nat} {k : Int64} {height : Nat}
    {l r : SearchTree} (h : Good b (plugs gs (.node i k height l r)))
    {e : List (AvlTree.Frame Nat Int64) × SearchTree}
    (he : AvlTree.extract gs (.node i k height l r) = e) :
    ∃ b' c, b.unlink i (way gs) = .done (slot e.2, way e.1, b') ∧ Stored b' e.2 ∧
      Around b' e.1 c ∧ Changes [i] b b' ∧
      (e.1 ≠ [] → slot (plugs e.1 e.2) = slot (plugs gs (.node i k height l r))) := by
  obtain ⟨⟨hcell, hl, hr⟩, haround⟩ := stored_plugs.mp h.held.stored
  have hlt64 := length_lt h.balanced h.low
  have hroot : gs ≠ [] → ∀ t : SearchTree,
      slot (plugs gs t) = slot (plugs gs (.node i k height l r)) := by
    intro hgs t
    cases gs with
    | nil => exact absurd rfl hgs
    | cons f fs => exact slot_plugs_cons
  unfold Bst.unlink
  rw [fetch_of_get hcell.left, Outcome.done_bind, fetch_of_get hcell.right, Outcome.done_bind]
  cases r with
  | leaf =>
    subst he
    refine ⟨b, i, ?_, hl, haround, Changes.refl _ b, fun hgs => hroot hgs _⟩
    rw [if_neg (show ¬(slot l ≠ -1 ∧ slot (.leaf : SearchTree) ≠ -1) from fun hne => hne.2 rfl)]
    cases l with
    | leaf => rfl
    | node j m g a c => rfl
  | node j m g a c =>
    cases l with
    | leaf =>
      subst he
      exact ⟨b, i, rfl, hr, haround, Changes.refl _ b, fun hgs => hroot hgs _⟩
    | node j' m' g' a' c' =>
      obtain ⟨gs', js, ms, s, bs, hleft, hplugs, -, hextract⟩ := AvlTree.extract_two gs i k height
        (l := .node j' m' g' a' c') (r := .node j m g a c) rfl rfl
      rw [hextract] at he
      subst he
      have hnodup := List.nodup_append.mp
        ((AvlTree.labels_plugs_perm gs _).nodup_iff.mp h.held.nodup)
      have hin := hnodup.1
      simp only [AvlTree.labels_node _ _ _ (.node j' m' g' a' c') (.node j m g a c),
        List.nodup_append, List.nodup_cons, List.mem_cons] at hin
      have hout := outside_of_nodup h.held.nodup
      have hfuel : (AvlTree.node j m g a c).nodes.length < b.keys.size + 1 := by
        have hle := AvlTree.length_nodes_plugs gs
          (.node i k height (.node j' m' g' a' c') (.node j m g a c))
        have hlt := h.fuel
        rw [AvlTree.nodes, List.length_append, List.length_cons] at hle
        omega
      have hbal : (plugs (⟨false, i, k, height, .node j' m' g' a' c'⟩ :: gs)
          (.node j m g a c)).Balanced := h.balanced
      have hloop := successorLoop_eq hr rfl hfuel hbal h.low
      rw [hleft] at hloop
      have hsucc := hr
      rw [← hplugs, stored_plugs] at hsucc
      obtain ⟨⟨hcell', -, hbs⟩, hspine⟩ := hsucc
      obtain ⟨keys, hstore, hst⟩ := hcell.setKey ms
      have hwhole : Stored { b with keys } (plugs gs
          (.node i ms height (.node j' m' g' a' c') (.node j m g a c))) := by
        refine stored_plugs.mpr ⟨⟨hst.cell, hl.frame hst.changes ?_, hr.frame hst.changes ?_⟩,
          haround.frame hst.changes ?_⟩
        · grind
        · grind
        · intro q hq hi
          rw [List.mem_singleton] at hi
          exact hout q hq (hi ▸ by simp)
      have hsplit : ∀ t : SearchTree,
          plugs (gs' ++ ⟨false, i, ms, height, .node j' m' g' a' c'⟩ :: gs) t =
            plugs gs (.node i ms height (.node j' m' g' a' c') (plugs gs' t)) := by
        intro t
        rw [AvlTree.plugs_append]
        rfl
      rw [← hplugs, ← hsplit, stored_plugs] at hwhole
      refine ⟨_, _, ?_, hwhole.1.2.2, hwhole.2, hst.changes, ?_⟩
      · rw [if_pos ⟨slot_ne, slot_ne⟩, push_way ⟨false, i, k, height, .node j' m' g' a' c'⟩ hlt64,
          Outcome.done_bind, hloop, Outcome.done_bind]
        dsimp only
        rw [slot, fetch_of_get hcell'.key, Outcome.done_bind, hstore, Outcome.done_bind,
          fetch_of_get hcell'.right, Outcome.done_bind]
        simp [way]
      · intro _
        dsimp only
        rw [hsplit]
        cases gs with
        | nil => rfl
        | cons f fs => exact slot_plugs_cons

/-- Removing a key: it is not there, or its node is taken out. -/
theorem Good.remove (h : Good b t) (x : Int64) :
    (x ∉ t.keys ∧ b.remove x = .done (false, b)) ∨
      x ∈ t.keys ∧ ∃ b' t', b.remove x = .done (true, b') ∧ Good b' t' ∧
        AvlTree.Without x t t' := by
  have hbal : (plugs [] t).Balanced := h.balanced
  have hloop := findLoop_eq (x := x) h.held.stored h.fuel hbal h.low
  have hplugs := AvlTree.plugs_locate x [] t
  have hnone : AvlTree.Between x ([] : List (AvlTree.Frame Nat Int64)) := by
    constructor <;> rintro m ⟨⟩
  obtain ⟨-, hend⟩ := AvlTree.locate_cases (show (AvlTree.plugs [] t).Sorted from h.sorted) hnone
  have hmem := AvlTree.mem_keys_iff (x := x) h.sorted
  unfold Bst.remove
  rw [h.held.root]
  obtain hleaf | ⟨i, height, l, r, hnode⟩ := hend
  · rw [hleaf] at hmem
    refine Or.inl ⟨fun hx => Bool.false_ne_true (hmem.mp hx), ?_⟩
    by_cases hroot : slot t = -1
    · exact if_pos hroot
    · rw [if_neg hroot, show ([] : Bst.Path) = way [] from rfl, hloop, Outcome.done_bind]
      cases hlocate : AvlTree.locate x [] t with
      | mk gs u =>
        rw [hlocate] at hleaf
        dsimp only at hleaf
        subst hleaf
        rfl
  · rw [hnode] at hmem
    have hx : x ∈ t.keys := hmem.mpr rfl
    have hroot : slot t ≠ -1 := by
      cases t with
      | leaf => cases hx
      | node j m g a c => exact slot_ne
    refine Or.inr ⟨hx, ?_⟩
    rw [if_neg hroot, show ([] : Bst.Path) = way [] from rfl, hloop, Outcome.done_bind]
    cases hlocate : AvlTree.locate x [] t with
    | mk gs u =>
      rw [hlocate] at hnode hplugs
      rw [show plugs [] t = t from rfl] at hplugs
      dsimp only at hnode hplugs
      subst hnode
      subst hplugs
      obtain ⟨hwithout, hfits⟩ := AvlTree.without_extract h.balanced
      generalize he : AvlTree.extract gs (.node i x height l r) = e at hwithout hfits
      obtain ⟨b₁, c, hunlink, hs₁, haround₁, hch₁, hslot⟩ := h.unlink he
      obtain ⟨j, hperm⟩ := hwithout.labels
      have hnodup : (plugs e.1 e.2).labels.Nodup :=
        (List.nodup_cons.mp (hperm.nodup_iff.mp h.held.nodup)).2
      have hsmall : Small (plugs e.1 e.2) := fun q hq =>
        h.held.small q (hperm.mem_iff.mpr (List.mem_cons_of_mem j hq))
      obtain ⟨b₂, hlink, hheld₂, hkept₂⟩ := link_ok haround₁
        (fun hne => by rw [hch₁.root, h.held.root, hslot hne]) hs₁ hnodup hsmall
      have hheld₃ : Held { b₂ with len := b₂.len - 1 } (plugs e.1 e.2) :=
        ⟨hheld₂.stored.of_arrays rfl rfl rfl rfl, hheld₂.root, hheld₂.nodup, hheld₂.small⟩
      obtain ⟨b₃, hwalk, hheld₄, hkept₃⟩ := hheld₃.walkUp hfits (by have := h.low; omega)
      refine ⟨b₃, rebuild e.1 e.2, ?_, ⟨hheld₄, ?_, hfits.rebuild, ?_, ?_⟩, ?_⟩
      · rw [found]
        dsimp only
        rw [hunlink, Outcome.done_bind]
        dsimp only
        rw [hlink, Outcome.done_bind, hwalk]
        rfl
      · rw [AvlTree.sorted_iff, AvlTree.keys_rebuild, ← AvlTree.sorted_iff]
        exact h.sorted.without hwithout
      · have hlength := hperm.length_eq
        have hblen := h.len
        rw [List.length_cons] at hlength
        rw [hkept₃.len, AvlTree.labels_rebuild]
        dsimp only
        rw [hkept₂.len, hch₁.len]
        omega
      · exact hkept₃.sized ((hch₁.kept.trans hkept₂).sized h.sized)
      · exact ⟨by rw [AvlTree.keys_rebuild]; exact hwithout.keys, by
          rw [AvlTree.labels_rebuild]; exact hwithout.labels⟩

/-! ## Sequences of operations -/

/-- The slots that can be reached from the root. -/
inductive Reachable (b : Bst) : Nat → Prop
  | root {i : Nat} : b.root = i → Reachable b i
  | left {i j : Nat} : Reachable b i → b.left[i]? = some (some (j : Int)) → Reachable b j
  | right {i j : Nat} : Reachable b i → b.right[i]? = some (some (j : Int)) → Reachable b j

/-- Every slot of a tree is reached from its root. -/
theorem Stored.reachable (hs : Stored b t) (hroot : ∀ i : Nat, slot t = i → Reachable b i) :
    ∀ i ∈ t.labels, Reachable b i := by
  induction t with
  | leaf => rintro i ⟨⟩
  | node i k h l r ihl ihr =>
    obtain ⟨hcell, hl, hr⟩ := hs
    have hi : Reachable b i := hroot i rfl
    intro j hj
    rw [AvlTree.labels_node, List.mem_append, List.mem_cons] at hj
    rcases hj with hj | rfl | hj
    · exact ihl hl (fun m hm => hi.left (hm ▸ hcell.left)) j hj
    · exact hi
    · exact ihr hr (fun m hm => hi.right (hm ▸ hcell.right)) j hj

/-- The slots a node of a tree leads to are the tree's. -/
theorem Stored.children (hs : Stored b t) {i : Nat} (hi : i ∈ t.labels) :
    ∃ k h l r, Cell b i k h (slot l) (slot r) ∧ k ∈ t.keys ∧
      (∀ j ∈ AvlTree.labels l, j ∈ t.labels) ∧ ∀ j ∈ AvlTree.labels r, j ∈ t.labels := by
  induction t with
  | leaf => cases hi
  | node i' k h l r ihl ihr =>
    obtain ⟨hcell, hl, hr⟩ := hs
    simp only [AvlTree.labels_node, AvlTree.keys, AvlTree.nodes, List.map_append, List.map_cons,
      List.mem_append, List.mem_cons] at hi ihl ihr ⊢
    rcases hi with hi | rfl | hi
    · obtain ⟨k', h', l', r', hcell', hk', hl', hr'⟩ := ihl hl hi
      exact ⟨k', h', l', r', hcell', Or.inl hk', fun j hj => Or.inl (hl' j hj),
        fun j hj => Or.inl (hr' j hj)⟩
    · exact ⟨k, h, l, r, hcell, Or.inr (Or.inl rfl), fun j hj => Or.inl hj,
        fun j hj => Or.inr (Or.inr hj)⟩
    · obtain ⟨k', h', l', r', hcell', hk', hl', hr'⟩ := ihr hr hi
      exact ⟨k', h', l', r', hcell', Or.inr (Or.inr hk'),
        fun j hj => Or.inr (Or.inr (hl' j hj)), fun j hj => Or.inr (Or.inr (hr' j hj))⟩

theorem mem_labels_of_slot {i : Nat} (h : slot t = i) : i ∈ t.labels := by
  cases t with
  | leaf => exact absurd h.symm slot_ne
  | node j k height l r =>
    rw [AvlTree.labels_node]
    exact List.mem_append_right _ (List.mem_cons.mpr (Or.inl (Int.ofNat_inj.mp h.symm)))

/-- The slots that can be reached are those of the tree. -/
theorem Held.reachable_iff (h : Held b t) {i : Nat} : Reachable b i ↔ i ∈ t.labels := by
  constructor
  · intro hi
    induction hi with
    | root hroot => exact mem_labels_of_slot (h.root.symm.trans hroot)
    | @left i j _ hleft ih =>
      obtain ⟨k, height, l, r, hcell, -, hl, -⟩ := h.stored.children ih
      have hslot := hcell.left.symm.trans hleft
      simp only [Option.some.injEq] at hslot
      exact hl j (mem_labels_of_slot hslot)
    | @right i j _ hright ih =>
      obtain ⟨k, height, l, r, hcell, -, -, hr⟩ := h.stored.children ih
      have hslot := hcell.right.symm.trans hright
      simp only [Option.some.injEq] at hslot
      exact hr j (mem_labels_of_slot hslot)
  · exact h.stored.reachable (fun j hj => Reachable.root (h.root.trans hj)) i

/-- No node that can be reached has a key. -/
def Absent (b : Bst) (x : Int64) : Prop :=
  ∀ i, Reachable b i → b.keys[i]? ≠ some (some x)

/-- The slot that the next node would get is not in use, and an `int32_t` has it. -/
def NextSlotFree (b : Bst) : Prop :=
  (∀ i, Reachable b i → (i : Int) ≠ b.len) ∧ b.len < 2 ^ 31

/-- An insertion of a new key finds its slot free. -/
def SlotOk (b : Bst) : BstOp × (Nat → Bool) → Prop
  | (.insert x, _) => Absent b x → NextSlotFree b
  | _ => True

/-- The operations on a finite set. -/
def finsetSpec (S : Finset Int64) : BstOp × (Nat → Bool) → Option (BstResult × Finset Int64)
  | (.insert x, _) => some (.bool (decide (x ∉ S)), insert x S)
  | (.contains x, _) => some (.bool (decide (x ∈ S)), S)
  | (.remove x, _) => some (.bool (decide (x ∈ S)), S.erase x)
  | (.min, _) => some (.key (if h : S.Nonempty then some (S.min' h) else none), S)
  | (.max, _) => some (.key (if h : S.Nonempty then some (S.max' h) else none), S)
  | (.len, _) => some (.int S.card, S)
  | (.clear, _) => some (.int S.card, ∅)

/-- The arena is a search tree over the set. -/
def SetHeld (b : Bst) (S : Finset Int64) : Prop := ∃ t, Good b t ∧ ∀ x, x ∈ S ↔ x ∈ t.keys

theorem setHeld_new : SetHeld Bst.new ∅ := by
  refine ⟨.leaf, ⟨⟨trivial, rfl, List.nodup_nil, ?_⟩, List.Pairwise.nil, trivial, rfl,
    rfl, rfl, rfl, rfl⟩, ?_⟩
  · rintro i ⟨⟩
  · intro x
    simp [AvlTree.keys, AvlTree.nodes]

theorem card_eq {S : Finset Int64} (h : Good b t) (hS : ∀ x, x ∈ S ↔ x ∈ t.keys) :
    b.len = S.card := by
  have hlength : t.keys.length = t.labels.length := by
    rw [AvlTree.keys, AvlTree.labels, List.length_map, List.length_map]
  rw [h.len, ← hlength, Increasing.length_eq (AvlTree.sorted_iff.mp h.sorted) hS]

theorem min_eq {S : Finset Int64} (h : t.Sorted) (hS : ∀ x, x ∈ S ↔ x ∈ t.keys) :
    t.keys.head? = if hne : S.Nonempty then some (S.min' hne) else none :=
  Increasing.head?_eq (AvlTree.sorted_iff.mp h) hS

theorem max_eq {S : Finset Int64} (h : t.Sorted) (hS : ∀ x, x ∈ S ↔ x ∈ t.keys) :
    t.keys.getLast? = if hne : S.Nonempty then some (S.max' hne) else none :=
  Increasing.getLast?_eq (AvlTree.sorted_iff.mp h) hS

/-- A key that no node of the tree has is absent. -/
theorem Held.absent (h : Held b t) {x : Int64} (hx : x ∉ t.keys) : Absent b x := by
  intro i hi hkey
  obtain ⟨k, height, l, r, hcell, hk, -⟩ := h.stored.children (h.reachable_iff.mp hi)
  have heq := hcell.key.symm.trans hkey
  simp only [Option.some.injEq] at heq
  exact hx (heq ▸ hk)

theorem step_insert {S : Finset Int64} (h : SetHeld b S) (x : Int64) (heap : Nat → Bool)
    (hok : Absent b x → NextSlotFree b) :
    StepRefines Bst.step finsetSpec Bst.refused SetHeld b S (.insert x, heap) := by
  obtain ⟨t, hgood, hS⟩ := h
  have hfree : x ∉ t.keys → t.labels.length ∉ t.labels ∧ t.labels.length < 2 ^ 31 := by
    intro hx
    obtain ⟨hslot, hlen⟩ := hok (hgood.held.absent hx)
    rw [hgood.len] at hslot hlen
    exact ⟨fun hin => hslot _ (hgood.held.reachable_iff.mpr hin) rfl, by omega⟩
  rcases hgood.insert heap x hgood.len hfree with
    ⟨hx, hrun⟩ | ⟨hx, ⟨hrun, href⟩ | ⟨b', t', hrun, hgood', hwithout⟩⟩
  · have hmem : x ∈ S := (hS x).mpr hx
    refine stepRefines_done (r := .bool false) (u := insert x S)
      (by simp only [Bst.step, hrun, Outcome.done_bind, Outcome.pure_eq]) ?_ ⟨t, hgood, ?_⟩
    · simp only [finsetSpec, hmem, not_true, decide_false]
    · rw [Finset.insert_eq_of_mem hmem]
      exact hS
  · exact stepRefines_refused (by simp only [Bst.step, hrun, Outcome.aborted_bind]) href
  · have hmem : x ∉ S := fun hin => hx ((hS x).mp hin)
    refine stepRefines_done (r := .bool true) (u := insert x S)
      (by simp only [Bst.step, hrun, Outcome.done_bind, Outcome.pure_eq]) ?_ ⟨t', hgood', ?_⟩
    · simp only [finsetSpec, hmem, not_false_iff, decide_true]
    · intro y
      rw [Finset.mem_insert, hS, hwithout.mem_keys]

theorem step_remove {S : Finset Int64} (h : SetHeld b S) (x : Int64) (heap : Nat → Bool) :
    StepRefines Bst.step finsetSpec Bst.refused SetHeld b S (.remove x, heap) := by
  obtain ⟨t, hgood, hS⟩ := h
  rcases hgood.remove x with ⟨hx, hrun⟩ | ⟨hx, b', t', hrun, hgood', hwithout⟩
  · have hmem : x ∉ S := fun hin => hx ((hS x).mp hin)
    refine stepRefines_done (r := .bool false) (u := S.erase x)
      (by simp only [Bst.step, hrun, Outcome.done_bind, Outcome.pure_eq]) ?_ ⟨t, hgood, ?_⟩
    · simp only [finsetSpec, hmem, decide_false]
    · rw [Finset.erase_eq_of_notMem hmem]
      exact hS
  · have hmem : x ∈ S := (hS x).mpr hx
    refine stepRefines_done (r := .bool true) (u := S.erase x)
      (by simp only [Bst.step, hrun, Outcome.done_bind, Outcome.pure_eq]) ?_ ⟨t', hgood', ?_⟩
    · simp only [finsetSpec, hmem, decide_true]
    · intro y
      have hleft := hgood.sorted.not_mem_without hwithout
      rw [Finset.mem_erase, hS, hwithout.mem_keys]
      constructor
      · rintro ⟨hne, heq | hy⟩
        · exact absurd heq hne
        · exact hy
      · intro hy
        exact ⟨fun heq => hleft (heq ▸ hy), Or.inr hy⟩

/-- Every operation does to the arena what it does to the set, if an insertion finds its slot
free. -/
theorem step_bst (b : Bst) (S : Finset Int64) (i : BstOp × (Nat → Bool)) (h : SetHeld b S)
    (hok : SlotOk b i) : StepRefines Bst.step finsetSpec Bst.refused SetHeld b S i := by
  obtain ⟨op, heap⟩ := i
  have ⟨t, hgood, hS⟩ := h
  cases op with
  | insert x => exact step_insert h x heap hok
  | contains x =>
    have hmem : decide (x ∈ t.keys) = decide (x ∈ S) := decide_eq_decide.mpr (hS x).symm
    exact stepRefines_done (by
      simp only [Bst.step, hgood.contains x, hmem, Outcome.done_bind, Outcome.pure_eq]) rfl h
  | remove x => exact step_remove h x heap
  | min =>
    exact stepRefines_done (by
      simp only [Bst.step, hgood.min, min_eq hgood.sorted hS, Outcome.done_bind,
        Outcome.pure_eq]) rfl h
  | max =>
    exact stepRefines_done (by
      simp only [Bst.step, hgood.max, max_eq hgood.sorted hS, Outcome.done_bind,
        Outcome.pure_eq]) rfl h
  | len =>
    exact stepRefines_done (by simp only [Bst.step, card_eq hgood hS, Outcome.pure_eq]) rfl h
  | clear =>
    exact stepRefines_done
      (by simp only [Bst.step, Bst.clear, card_eq hgood hS, Outcome.pure_eq]) rfl setHeld_new

/-- The slots that can be reached are, each once, the nodes of a balanced search tree with
correct heights. -/
def IsSearchTree (b : Bst) : Prop :=
  ∃ t : SearchTree, Held b t ∧ (∀ i, Reachable b i ↔ i ∈ t.labels) ∧ t.Sorted ∧ t.Balanced

/-- **The emitted search tree refines a finite set** over every sequence of operations in
which no insertion of a new key finds its slot in use: every operation ends and returns what
the set returns, under heaps that may refuse a growth, and after every operation the arena is
a balanced search tree. Source: backend_c.rs:2090-2347 -/
theorem bst_refines (ops : List (BstOp × (Nat → Bool)))
    (hslots : RunAllows Bst.step SlotOk ops Bst.new) :
    RunRefines Bst.step finsetSpec Bst.refused ops Bst.new ∅ ∧
      RunKeeps Bst.step IsSearchTree ops Bst.new :=
  runRefines_of_allows step_bst
    (fun _ _ ⟨t, h, _⟩ => ⟨t, h.held, fun _ => h.held.reachable_iff, h.sorted, h.balanced⟩) ops
    setHeld_new hslots

/-- Two keys, the second of them removed, and another one. -/
def freedSlot : List (BstOp × (Nat → Bool)) :=
  [(.insert 5, fun _ => true), (.insert 7, fun _ => true), (.remove 7, fun _ => true),
    (.insert 3, fun _ => true)]

theorem bst_refines_freedSlot :
    RunRefines Bst.step finsetSpec Bst.refused freedSlot Bst.new ∅ ∧
      RunKeeps Bst.step IsSearchTree freedSlot Bst.new := by
  -- with one node in slot 0 and no children, nothing else can be reached
  have hone : ∀ {b : Bst}, b.root = 0 → b.left[0]? = some (some (-1)) →
      b.right[0]? = some (some (-1)) → ∀ i, Reachable b i → i = 0 := by
    intro b hroot hl hr i hi
    induction hi with
    | root h => exact Int.ofNat_inj.mp (h.symm.trans hroot)
    | left _ hleft ih =>
      rw [ih, hl] at hleft
      exact absurd (Option.some.inj (Option.some.inj hleft)).symm slot_ne
    | right _ hright ih =>
      rw [ih, hr] at hright
      exact absurd (Option.some.inj (Option.some.inj hright)).symm slot_ne
  have hfree : ∀ {b : Bst}, b.root = 0 → b.left[0]? = some (some (-1)) →
      b.right[0]? = some (some (-1)) → b.len = 1 → NextSlotFree b := by
    intro b hroot hl hr hlen
    refine ⟨fun i hi => ?_, by rw [hlen]; decide⟩
    rw [hone hroot hl hr i hi, hlen]
    decide
  refine bst_refines freedSlot ⟨fun _ => ⟨fun i hi => ?_, by decide⟩, ?_⟩
  · induction hi with
    | root hroot => exact absurd hroot.symm slot_ne
    | left _ hleft => cases hleft
    | right _ hright => cases hright
  · rintro _ _ ⟨⟩
    refine ⟨fun _ => hfree rfl rfl rfl rfl, ?_⟩
    rintro _ _ ⟨⟩
    refine ⟨trivial, ?_⟩
    rintro _ _ ⟨⟩
    refine ⟨fun _ => hfree rfl rfl rfl rfl, ?_⟩
    intro _ _ _
    trivial

/-- Two keys, the first of them removed: the next key gets the slot of the second. -/
def reusedSlot : List (BstOp × (Nat → Bool)) :=
  [(.insert 1, fun _ => true), (.insert 2, fun _ => true), (.remove 1, fun _ => true),
    (.insert 3, fun _ => true), (.contains 2, fun _ => true)]

theorem reusedSlot_refutes :
    ¬∀ ops : List (BstOp × (Nat → Bool)),
      RunRefines Bst.step finsetSpec Bst.refused ops Bst.new ∅ := by
  intro h
  -- the last search goes round in a loop
  exact (h reusedSlot).2.2.2.2

end Vani.Analysis
