import Mathlib.Data.Nat.Fib.Basic
import Mathlib.Data.List.Nodup
import Mathlib.Order.Defs.LinearOrder

/-!
# Height-balanced search trees

Binary trees whose nodes carry a label, a key and a stored height, balanced in the manner
of Adelson-Velsky and Landis: rotations and the four-case rebalancing of one node. A tree
is taken apart into a subtree and the frames on the way up from it. Putting in another
subtree whose height differs by at most one, and rebalancing every node on the way up,
gives a balanced tree with the same nodes in the same order.
-/

set_option autoImplicit false

namespace Vani.Library

/-- A tree with labels, keys and stored heights. -/
inductive AvlTree (ι K : Type)
  | leaf
  | node (label : ι) (key : K) (height : Nat) (left right : AvlTree ι K)

namespace AvlTree

variable {ι K : Type}

/-- The stored height. -/
def stored : AvlTree ι K → Nat
  | leaf => 0
  | node _ _ h _ _ => h

@[simp] theorem stored_leaf : (leaf : AvlTree ι K).stored = 0 := rfl

@[simp] theorem stored_node (i : ι) (k : K) (h : Nat) (l r : AvlTree ι K) :
    (node i k h l r).stored = h := rfl

/-- The nodes, in order. -/
def nodes : AvlTree ι K → List (ι × K)
  | leaf => []
  | node i k _ l r => l.nodes ++ (i, k) :: r.nodes

/-- The keys, in order. -/
def keys (t : AvlTree ι K) : List K := t.nodes.map Prod.snd

/-- The labels, in the order of the keys. -/
def labels (t : AvlTree ι K) : List ι := t.nodes.map Prod.fst

@[simp] theorem labels_node (i : ι) (k : K) (h : Nat) (l r : AvlTree ι K) :
    (node i k h l r).labels = l.labels ++ i :: r.labels := by
  rw [labels, nodes, List.map_append, List.map_cons]
  rfl

/-- Balanced, with the heights stored at every node. -/
def Balanced : AvlTree ι K → Prop
  | leaf => True
  | node _ _ h l r => l.Balanced ∧ r.Balanced ∧ h = 1 + max l.stored r.stored ∧
    l.stored ≤ r.stored + 1 ∧ r.stored ≤ l.stored + 1

/-- A node with its height stored. -/
def mk (i : ι) (k : K) (l r : AvlTree ι K) : AvlTree ι K :=
  node i k (1 + max l.stored r.stored) l r

@[simp] theorem stored_mk (i : ι) (k : K) (l r : AvlTree ι K) :
    (mk i k l r).stored = 1 + max l.stored r.stored := rfl

theorem balanced_node {i : ι} {k : K} {h : Nat} {l r : AvlTree ι K} :
    (node i k h l r).Balanced ↔ l.Balanced ∧ r.Balanced ∧ h = 1 + max l.stored r.stored ∧
      l.stored ≤ r.stored + 1 ∧ r.stored ≤ l.stored + 1 := Iff.rfl

theorem balanced_mk {i : ι} {k : K} {l r : AvlTree ι K} (hl : l.Balanced) (hr : r.Balanced)
    (hlr : l.stored ≤ r.stored + 1) (hrl : r.stored ≤ l.stored + 1) : (mk i k l r).Balanced :=
  ⟨hl, hr, rfl, hlr, hrl⟩

/-- The left child becomes the root. -/
def rotateRight : AvlTree ι K → AvlTree ι K
  | node x kx _ (node y ky _ a b) c => mk y ky a (mk x kx b c)
  | t => t

/-- The right child becomes the root. -/
def rotateLeft : AvlTree ι K → AvlTree ι K
  | node x kx _ a (node y ky _ b c) => mk y ky (mk x kx a b) c
  | t => t

/-- Whether a rotation to the right would leave its left child's right side too high. -/
def heavyRight : AvlTree ι K → Bool
  | node _ _ _ a b => decide (a.stored < b.stored)
  | leaf => false

/-- Whether a rotation to the left would leave its right child's left side too high. -/
def heavyLeft : AvlTree ι K → Bool
  | node _ _ _ a b => decide (b.stored < a.stored)
  | leaf => false

/-- One node rebalanced by one or two rotations. -/
def rebalance : AvlTree ι K → AvlTree ι K
  | leaf => leaf
  | node i k _ l r =>
    if r.stored + 1 < l.stored then
      rotateRight (mk i k (if l.heavyRight then rotateLeft l else l) r)
    else if l.stored + 1 < r.stored then
      rotateLeft (mk i k l (if r.heavyLeft then rotateRight r else r))
    else mk i k l r

theorem rebalance_node (i : ι) (k : K) (h : Nat) (l r : AvlTree ι K) :
    rebalance (node i k h l r) =
      if r.stored + 1 < l.stored then
        rotateRight (mk i k (if l.heavyRight then rotateLeft l else l) r)
      else if l.stored + 1 < r.stored then
        rotateLeft (mk i k l (if r.heavyLeft then rotateRight r else r))
      else mk i k l r := rfl

@[simp] theorem labels_mk (i : ι) (k : K) (l r : AvlTree ι K) :
    (mk i k l r).labels = l.labels ++ i :: r.labels := labels_node ..

theorem nodes_mk (i : ι) (k : K) (l r : AvlTree ι K) :
    (mk i k l r).nodes = l.nodes ++ (i, k) :: r.nodes := rfl

theorem nodes_rotateRight : ∀ t : AvlTree ι K, (rotateRight t).nodes = t.nodes
  | leaf => rfl
  | node _ _ _ leaf _ => rfl
  | node i k _ (node j m _ a b) c => by
    show a.nodes ++ (j, m) :: (b.nodes ++ (i, k) :: c.nodes) =
      (a.nodes ++ (j, m) :: b.nodes) ++ (i, k) :: c.nodes
    rw [List.append_assoc, List.cons_append]

theorem nodes_rotateLeft : ∀ t : AvlTree ι K, (rotateLeft t).nodes = t.nodes
  | leaf => rfl
  | node _ _ _ _ leaf => rfl
  | node i k _ a (node j m _ b c) => by
    show (a.nodes ++ (i, k) :: b.nodes) ++ (j, m) :: c.nodes =
      a.nodes ++ (i, k) :: (b.nodes ++ (j, m) :: c.nodes)
    rw [List.append_assoc, List.cons_append]

theorem labels_rotateRight (t : AvlTree ι K) : (rotateRight t).labels = t.labels := by
  rw [labels, nodes_rotateRight, labels]

theorem labels_rotateLeft (t : AvlTree ι K) : (rotateLeft t).labels = t.labels := by
  rw [labels, nodes_rotateLeft, labels]

/-- Rebalancing keeps the nodes and their order. -/
theorem nodes_rebalance (t : AvlTree ι K) : (rebalance t).nodes = t.nodes := by
  cases t with
  | leaf => rfl
  | node i k h l r =>
    rw [rebalance_node]
    by_cases hleft : r.stored + 1 < l.stored
    · rw [if_pos hleft, nodes_rotateRight, nodes_mk]
      cases l.heavyRight
      · rfl
      · rw [if_pos rfl, nodes_rotateLeft]
        rfl
    · rw [if_neg hleft]
      by_cases hright : l.stored + 1 < r.stored
      · rw [if_pos hright, nodes_rotateLeft, nodes_mk]
        cases r.heavyLeft
        · rfl
        · rw [if_pos rfl, nodes_rotateRight]
          rfl
      · rw [if_neg hright]
        rfl

/-- What rebalancing a node with subtrees of these heights gives. -/
structure Rebalanced (l r : Nat) (t : AvlTree ι K) : Prop where
  balanced : t.Balanced
  low : max l r ≤ t.stored
  high : t.stored ≤ max l r + 1
  near : t.stored = max l r + 1 ∨ r + 1 < l ∨ l + 1 < r

theorem rebalanced_rotateRight {x y : ι} {kx ky : K} {hx hy : Nat} {a b c : AvlTree ι K}
    (hl : (node y ky hy a b).Balanced) (hc : c.Balanced) (hgap : hy = c.stored + 2)
    (hheavy : b.stored ≤ a.stored) :
    Rebalanced hy c.stored (rotateRight (node x kx hx (node y ky hy a b) c)) := by
  obtain ⟨ha, hb, hh, hab, hba⟩ := hl
  have hshape : rotateRight (node x kx hx (node y ky hy a b) c) = mk y ky a (mk x kx b c) := rfl
  have hlow : (mk x kx b c).Balanced := balanced_mk hb hc (by omega) (by omega)
  rw [hshape]
  refine ⟨balanced_mk ha hlow ?_ ?_, ?_, ?_, ?_⟩ <;> simp only [stored_mk] <;> omega

theorem rebalanced_rotateLeft {x y : ι} {kx ky : K} {hx hy : Nat} {a b c : AvlTree ι K}
    (hr : (node y ky hy b c).Balanced) (ha : a.Balanced) (hgap : hy = a.stored + 2)
    (hheavy : b.stored ≤ c.stored) :
    Rebalanced a.stored hy (rotateLeft (node x kx hx a (node y ky hy b c))) := by
  obtain ⟨hb, hc, hh, hbc, hcb⟩ := hr
  have hshape : rotateLeft (node x kx hx a (node y ky hy b c)) = mk y ky (mk x kx a b) c := rfl
  have hlow : (mk x kx a b).Balanced := balanced_mk ha hb (by omega) (by omega)
  rw [hshape]
  refine ⟨balanced_mk hlow hc ?_ ?_, ?_, ?_, ?_⟩ <;> simp only [stored_mk] <;> omega

/-- The two rotations of a left child that is heavy on its right. -/
theorem rebalanced_leftRight {x y z : ι} {kx ky kz : K} {hx hy hz : Nat}
    {a b₁ b₂ c : AvlTree ι K} (hl : (node y ky hy a (node z kz hz b₁ b₂)).Balanced)
    (hc : c.Balanced) (hgap : hy = c.stored + 2) (hheavy : a.stored < hz) :
    Rebalanced hy c.stored
      (rotateRight (node x kx hx (rotateLeft (node y ky hy a (node z kz hz b₁ b₂))) c)) := by
  obtain ⟨ha, ⟨hb₁, hb₂, hhb, hb₁₂, hb₂₁⟩, hh, hab, hba⟩ := hl
  rw [stored_node] at hh hab hba
  have hshape : rotateRight (node x kx hx (rotateLeft (node y ky hy a (node z kz hz b₁ b₂))) c) =
      mk z kz (mk y ky a b₁) (mk x kx b₂ c) := rfl
  have hleft : (mk y ky a b₁).Balanced := balanced_mk ha hb₁ (by omega) (by omega)
  have hright : (mk x kx b₂ c).Balanced := balanced_mk hb₂ hc (by omega) (by omega)
  rw [hshape]
  refine ⟨balanced_mk hleft hright ?_ ?_, ?_, ?_, ?_⟩ <;> simp only [stored_mk] <;> omega

/-- The two rotations of a right child that is heavy on its left. -/
theorem rebalanced_rightLeft {x y z : ι} {kx ky kz : K} {hx hy hz : Nat}
    {a b₁ b₂ c : AvlTree ι K} (hr : (node y ky hy (node z kz hz b₁ b₂) c).Balanced)
    (ha : a.Balanced) (hgap : hy = a.stored + 2) (hheavy : c.stored < hz) :
    Rebalanced a.stored hy
      (rotateLeft (node x kx hx a (rotateRight (node y ky hy (node z kz hz b₁ b₂) c)))) := by
  obtain ⟨⟨hb₁, hb₂, hhb, hb₁₂, hb₂₁⟩, hc, hh, hbc, hcb⟩ := hr
  rw [stored_node] at hh hbc hcb
  have hshape : rotateLeft (node x kx hx a (rotateRight (node y ky hy (node z kz hz b₁ b₂) c))) =
      mk z kz (mk x kx a b₁) (mk y ky b₂ c) := rfl
  have hleft : (mk x kx a b₁).Balanced := balanced_mk ha hb₁ (by omega) (by omega)
  have hright : (mk y ky b₂ c).Balanced := balanced_mk hb₂ hc (by omega) (by omega)
  rw [hshape]
  refine ⟨balanced_mk hleft hright ?_ ?_, ?_, ?_, ?_⟩ <;> simp only [stored_mk] <;> omega

/-- A node whose balanced children differ in height by at most two becomes balanced, and is
as high as its higher child or one higher. -/
theorem rebalanced_rebalance {i : ι} {k : K} {h : Nat} {l r : AvlTree ι K} (hl : l.Balanced)
    (hr : r.Balanced) (hlr : l.stored ≤ r.stored + 2) (hrl : r.stored ≤ l.stored + 2) :
    Rebalanced l.stored r.stored (rebalance (node i k h l r)) := by
  rw [rebalance_node]
  by_cases hleft : r.stored + 1 < l.stored
  · rw [if_pos hleft]
    cases l with
    | leaf => exact absurd hleft (Nat.not_lt_zero _)
    | node y ky hy a b =>
      rw [stored_node] at hleft hlr hrl ⊢
      by_cases hheavy : a.stored < b.stored
      · rw [if_pos (show heavyRight (node y ky hy a b) = true from decide_eq_true hheavy)]
        cases b with
        | leaf => exact absurd hheavy (Nat.not_lt_zero _)
        | node z kz hz b₁ b₂ => exact rebalanced_leftRight hl hr (by omega) hheavy
      · rw [if_neg (show ¬heavyRight (node y ky hy a b) = true from
          fun hd => hheavy (of_decide_eq_true hd))]
        exact rebalanced_rotateRight hl hr (by omega) (by omega)
  · rw [if_neg hleft]
    by_cases hright : l.stored + 1 < r.stored
    · rw [if_pos hright]
      cases r with
      | leaf => exact absurd hright (Nat.not_lt_zero _)
      | node y ky hy b c =>
        rw [stored_node] at hright hlr hrl ⊢
        by_cases hheavy : c.stored < b.stored
        · rw [if_pos (show heavyLeft (node y ky hy b c) = true from decide_eq_true hheavy)]
          cases b with
          | leaf => exact absurd hheavy (Nat.not_lt_zero _)
          | node z kz hz b₁ b₂ => exact rebalanced_rightLeft hr hl (by omega) hheavy
        · rw [if_neg (show ¬heavyLeft (node y ky hy b c) = true from
            fun hd => hheavy (of_decide_eq_true hd))]
          exact rebalanced_rotateLeft hr hl (by omega) (by omega)
    · rw [if_neg hright]
      refine ⟨balanced_mk hl hr (by omega) (by omega), ?_, ?_, ?_⟩ <;>
        rw [stored_mk] <;> omega

/-- A balanced tree has at least as many nodes as the Fibonacci numbers say. -/
theorem Balanced.fib_le {t : AvlTree ι K} (h : t.Balanced) :
    Nat.fib (t.stored + 2) ≤ t.nodes.length + 1 := by
  induction t with
  | leaf => exact le_rfl
  | node i k height l r ihl ihr =>
    obtain ⟨hl, hr, rfl, hlr, hrl⟩ := h
    have hleft := ihl hl
    have hright := ihr hr
    have hlength : (node i k (1 + max l.stored r.stored) l r).nodes.length =
        l.nodes.length + (r.nodes.length + 1) := by
      rw [nodes, List.length_append, List.length_cons]
    rw [hlength, stored]
    -- the higher child gives `fib (m + 2)`, the other at least `fib (m + 1)`
    have hsum : Nat.fib (max l.stored r.stored + 2) + Nat.fib (max l.stored r.stored + 1) ≤
        l.nodes.length + 1 + (r.nodes.length + 1) := by
      rcases le_total l.stored r.stored with hle | hle
      · rw [max_eq_right hle]
        have hmono : Nat.fib (r.stored + 1) ≤ Nat.fib (l.stored + 2) := Nat.fib_mono (by omega)
        omega
      · rw [max_eq_left hle]
        have hmono : Nat.fib (l.stored + 1) ≤ Nat.fib (r.stored + 2) := Nat.fib_mono (by omega)
        omega
    have hfib : Nat.fib (1 + max l.stored r.stored + 2) =
        Nat.fib (max l.stored r.stored + 1) + Nat.fib (max l.stored r.stored + 2) := by
      rw [show 1 + max l.stored r.stored + 2 = max l.stored r.stored + 1 + 2 by omega,
        Nat.fib_add_two]
    omega

/-! ## Frames -/

/-- A node without one of its subtrees. -/
structure Frame (ι K : Type) where
  left : Bool
  label : ι
  key : K
  height : Nat
  sibling : AvlTree ι K

/-- The node with the subtree in its place. -/
def plug (f : Frame ι K) (t : AvlTree ι K) : AvlTree ι K :=
  if f.left then node f.label f.key f.height t f.sibling
  else node f.label f.key f.height f.sibling t

/-- The tree around a subtree, the innermost frame first. -/
def plugs : List (Frame ι K) → AvlTree ι K → AvlTree ι K
  | [], t => t
  | f :: fs, t => plugs fs (plug f t)

/-- The tree around a new subtree, with every node on the way up rebalanced. -/
def rebuild : List (Frame ι K) → AvlTree ι K → AvlTree ι K
  | [], t => t
  | f :: fs, t => rebuild fs (rebalance (plug f t))

/-- The nodes before the hole. -/
def before : List (Frame ι K) → List (ι × K)
  | [] => []
  | f :: fs =>
    if f.left then before fs else before fs ++ f.sibling.nodes ++ [(f.label, f.key)]

/-- The nodes after the hole. -/
def after : List (Frame ι K) → List (ι × K)
  | [] => []
  | f :: fs =>
    if f.left then (f.label, f.key) :: f.sibling.nodes ++ after fs else after fs

attribute [local simp] plug plugs rebuild before after

theorem nodes_plug (f : Frame ι K) (t : AvlTree ι K) :
    (plug f t).nodes =
      if f.left then t.nodes ++ (f.label, f.key) :: f.sibling.nodes
      else f.sibling.nodes ++ (f.label, f.key) :: t.nodes := by
  unfold plug
  split <;> rfl

theorem nodes_plugs (fs : List (Frame ι K)) (t : AvlTree ι K) :
    (plugs fs t).nodes = before fs ++ t.nodes ++ after fs := by
  induction fs generalizing t with
  | nil => simp [plugs, before, after]
  | cons f fs ih =>
    rw [plugs, ih, nodes_plug, before, after]
    cases f.left <;> simp

theorem nodes_rebuild (fs : List (Frame ι K)) (t : AvlTree ι K) :
    (rebuild fs t).nodes = before fs ++ t.nodes ++ after fs := by
  induction fs generalizing t with
  | nil => simp [rebuild, before, after]
  | cons f fs ih =>
    rw [rebuild, ih, nodes_rebalance, nodes_plug, before, after]
    cases f.left <;> simp

theorem balanced_of_plugs {fs : List (Frame ι K)} {t : AvlTree ι K} (h : (plugs fs t).Balanced) :
    t.Balanced := by
  induction fs generalizing t with
  | nil => exact h
  | cons f fs ih =>
    have key := ih h
    unfold plug at key
    split at key
    · exact key.1
    · exact key.2.1

/-- A child at most one higher or lower makes the rebalanced node at most one higher or
lower. -/
theorem rebalance_plug {f : Frame ι K} {t t' : AvlTree ι K} (h : (plug f t).Balanced)
    (ht' : t'.Balanced) (hup : t'.stored ≤ t.stored + 1) (hdown : t.stored ≤ t'.stored + 1) :
    (rebalance (plug f t')).Balanced ∧
      (rebalance (plug f t')).stored ≤ (plug f t).stored + 1 ∧
      (plug f t).stored ≤ (rebalance (plug f t')).stored + 1 := by
  unfold plug at h ⊢
  cases hf : f.left with
  | true =>
    rw [hf, if_pos rfl] at h
    rw [if_pos rfl, if_pos rfl, stored_node]
    obtain ⟨-, hsib, hheight, hlr, hrl⟩ := h
    have hreb := rebalanced_rebalance (i := f.label) (k := f.key) (h := f.height) ht' hsib
      (by omega) (by omega)
    have hlow := hreb.low
    have hhigh := hreb.high
    have hnear := hreb.near
    exact ⟨hreb.balanced, by omega, by omega⟩
  | false =>
    rw [hf, if_neg Bool.false_ne_true] at h
    rw [if_neg Bool.false_ne_true, if_neg Bool.false_ne_true, stored_node]
    obtain ⟨hsib, -, hheight, hlr, hrl⟩ := h
    have hreb := rebalanced_rebalance (i := f.label) (k := f.key) (h := f.height) hsib ht'
      (by omega) (by omega)
    have hlow := hreb.low
    have hhigh := hreb.high
    have hnear := hreb.near
    exact ⟨hreb.balanced, by omega, by omega⟩

/-- Another subtree, at most one higher or lower, gives a balanced tree. -/
theorem balanced_rebuild {fs : List (Frame ι K)} {t t' : AvlTree ι K}
    (h : (plugs fs t).Balanced) (ht' : t'.Balanced) (hup : t'.stored ≤ t.stored + 1)
    (hdown : t.stored ≤ t'.stored + 1) :
    (rebuild fs t').Balanced := by
  induction fs generalizing t t' with
  | nil => exact ht'
  | cons f fs ih =>
    obtain ⟨hbal, hhigh, hlow⟩ :=
      rebalance_plug (balanced_of_plugs (t := plug f t) h) ht' hup hdown
    exact ih h hbal hhigh hlow

/-- A path in a balanced tree is no longer than the tree is high. -/
theorem length_add_stored_le {fs : List (Frame ι K)} {t : AvlTree ι K}
    (h : (plugs fs t).Balanced) : fs.length + t.stored ≤ (plugs fs t).stored := by
  induction fs generalizing t with
  | nil => simp [plugs]
  | cons f fs ih =>
    have hplug : (plug f t).Balanced := balanced_of_plugs h
    have key := ih h
    unfold plugs
    have hstep : t.stored + 1 ≤ (plug f t).stored := by
      unfold plug at hplug ⊢
      split at hplug
      · next hf =>
        obtain ⟨-, -, hheight, -⟩ := hplug
        rw [if_pos hf, stored, hheight]
        omega
      · next hf =>
        obtain ⟨-, -, hheight, -⟩ := hplug
        rw [if_neg hf, stored, hheight]
        omega
    rw [List.length_cons]
    omega

theorem plugs_append (fs gs : List (Frame ι K)) (t : AvlTree ι K) :
    plugs (fs ++ gs) t = plugs gs (plugs fs t) := by
  induction fs generalizing t with
  | nil => rfl
  | cons f fs ih => exact ih (plug f t)

/-- A tree has at least as many nodes as a subtree of it and the way down to it. -/
theorem length_nodes_plugs (fs : List (Frame ι K)) (t : AvlTree ι K) :
    fs.length + t.nodes.length ≤ (plugs fs t).nodes.length := by
  induction fs generalizing t with
  | nil => exact le_of_eq (Nat.zero_add _)
  | cons f fs ih =>
    have key := ih (plug f t)
    have hplug : t.nodes.length + 1 ≤ (plug f t).nodes.length := by
      rw [nodes_plug]
      split <;> rw [List.length_append, List.length_cons] <;> omega
    rw [plugs, List.length_cons]
    omega

/-- The labels around the hole. -/
def outside : List (Frame ι K) → List ι
  | [] => []
  | f :: fs => f.label :: (f.sibling.labels ++ outside fs)

theorem labels_plug_perm (f : Frame ι K) (t : AvlTree ι K) :
    (plug f t).labels.Perm (t.labels ++ f.label :: f.sibling.labels) := by
  unfold plug
  split
  · rw [labels_node]
  · rw [labels_node]
    exact List.perm_middle.trans ((List.perm_append_comm.cons _).trans List.perm_middle.symm)

theorem labels_plugs_perm (fs : List (Frame ι K)) (t : AvlTree ι K) :
    (plugs fs t).labels.Perm (t.labels ++ outside fs) := by
  induction fs generalizing t with
  | nil => rw [plugs, outside, List.append_nil]
  | cons f fs ih =>
    refine (ih (plug f t)).trans ?_
    have key := (labels_plug_perm f t).append_right (outside fs)
    rwa [List.append_assoc, List.cons_append] at key

/-- A balanced subtree of the same height may be put in without rebalancing. -/
theorem balanced_plugs {fs : List (Frame ι K)} {t t' : AvlTree ι K} (h : (plugs fs t).Balanced)
    (ht' : t'.Balanced) (hsame : t'.stored = t.stored) : (plugs fs t').Balanced := by
  induction fs generalizing t t' with
  | nil => exact ht'
  | cons f fs ih =>
    have hplug : (plug f t).Balanced := balanced_of_plugs h
    unfold plugs plug at h ⊢
    unfold plug at hplug
    split at hplug
    · next hf =>
      rw [if_pos hf] at h ⊢
      rw [balanced_node, ← hsame] at hplug
      exact ih h ⟨ht', hplug.2⟩ rfl
    · next hf =>
      rw [if_neg hf] at h ⊢
      rw [balanced_node, ← hsame] at hplug
      exact ih h ⟨hplug.1, ht', hplug.2.2⟩ rfl

theorem stored_plugs_congr (fs : List (Frame ι K)) {t t' : AvlTree ι K}
    (hsame : t'.stored = t.stored) : (plugs fs t').stored = (plugs fs t).stored := by
  induction fs generalizing t t' with
  | nil => exact hsame
  | cons f fs ih =>
    refine ih ?_
    unfold plug
    split <;> rfl

/-- A balanced subtree that fits into a hole of a balanced tree: what stood there was at most
one higher or lower. -/
structure Fits (t : AvlTree ι K) (fs : List (Frame ι K)) (t' : AvlTree ι K) : Prop where
  balanced : t'.Balanced
  prior : ∃ t₀, (plugs fs t₀).Balanced ∧ (plugs fs t₀).stored = t.stored ∧
    t'.stored ≤ t₀.stored + 1 ∧ t₀.stored ≤ t'.stored + 1

theorem Fits.rebuild {t t' : AvlTree ι K} {fs : List (Frame ι K)} (h : Fits t fs t') :
    (rebuild fs t').Balanced := by
  obtain ⟨t₀, hbal, -, hup, hdown⟩ := h.prior
  exact balanced_rebuild hbal h.balanced hup hdown

/-! ## Searching -/

/-- The keys grow from left to right. -/
def Sorted [LinearOrder K] (t : AvlTree ι K) : Prop := t.nodes.Pairwise fun m n => m.2 < n.2

/-- The way down to a key, and the subtree it leads to: one with the key at its root, or the
leaf where the key belongs. -/
def locate [LinearOrder K] (x : K) :
    List (Frame ι K) → AvlTree ι K → List (Frame ι K) × AvlTree ι K
  | fs, leaf => (fs, leaf)
  | fs, node i k h l r =>
    if x = k then (fs, node i k h l r)
    else if x < k then locate x (⟨true, i, k, h, r⟩ :: fs) l
    else locate x (⟨false, i, k, h, l⟩ :: fs) r

theorem plugs_locate [LinearOrder K] (x : K) (fs : List (Frame ι K)) (t : AvlTree ι K) :
    plugs (locate x fs t).1 (locate x fs t).2 = plugs fs t := by
  induction t generalizing fs with
  | leaf => rfl
  | node i k h l r ihl ihr =>
    unfold locate
    split
    · rfl
    · split
      · exact ihl _
      · exact ihr _

/-- A key belongs between the nodes before and those after a place. -/
def Between [LinearOrder K] (x : K) (fs : List (Frame ι K)) : Prop :=
  (∀ n ∈ before fs, n.2 < x) ∧ ∀ n ∈ after fs, x < n.2

theorem locate_cases [LinearOrder K] {x : K} {fs : List (Frame ι K)} {t : AvlTree ι K}
    (hsorted : (plugs fs t).Sorted) (hx : Between x fs) :
    Between x (locate x fs t).1 ∧
      ((locate x fs t).2 = leaf ∨ ∃ i h l r, (locate x fs t).2 = node i x h l r) := by
  induction t generalizing fs with
  | leaf => exact ⟨hx, Or.inl rfl⟩
  | node i k h l r ihl ihr =>
    have hall := hsorted
    rw [Sorted, nodes_plugs, nodes] at hall
    simp only [List.pairwise_append, List.pairwise_cons] at hall
    unfold locate
    by_cases heq : x = k
    · subst heq
      rw [if_pos rfl]
      exact ⟨hx, Or.inr ⟨i, h, l, r, rfl⟩⟩
    · rw [if_neg heq]
      by_cases hlt : x < k
      · rw [if_pos hlt]
        refine ihl hsorted ⟨hx.1, ?_⟩
        intro n hn
        simp only [after, if_true, List.cons_append, List.mem_cons, List.mem_append] at hn
        rcases hn with rfl | hr | hafter
        · exact hlt
        · exact hlt.trans (hall.1.2.1.2.1.1 n hr)
        · exact hx.2 n hafter
      · rw [if_neg hlt]
        have hgt : k < x := lt_of_le_of_ne (not_lt.mp hlt) (Ne.symm heq)
        refine ihr hsorted ⟨?_, hx.2⟩
        intro n hn
        simp only [before, Bool.false_eq_true, if_false, List.mem_append, List.mem_singleton]
          at hn
        rcases hn with (hbefore | hl) | rfl
        · exact hx.1 n hbefore
        · exact (hall.1.2.1.2.2 n hl (i, k) List.mem_cons_self).trans hgt
        · exact hgt

/-- Whether a tree has a node. -/
def isNode : AvlTree ι K → Bool
  | leaf => false
  | node .. => true

/-- A key is in a sorted tree if and only if the way down to it ends at a node. -/
theorem mem_keys_iff [LinearOrder K] {x : K} {t : AvlTree ι K} (h : t.Sorted) :
    x ∈ t.keys ↔ (locate x [] t).2.isNode = true := by
  have hnone : Between x ([] : List (Frame ι K)) := by
    constructor <;> rintro n ⟨⟩
  obtain ⟨⟨hbefore, hafter⟩, hend⟩ := locate_cases (show (plugs [] t).Sorted from h) hnone
  have hnodes := nodes_plugs (locate x [] t).1 (locate x [] t).2
  rw [plugs_locate, plugs] at hnodes
  constructor
  · intro hmem
    obtain hleaf | ⟨i, height, l, r, hnode⟩ := hend
    · rw [keys, hnodes, hleaf] at hmem
      obtain ⟨n, hn, rfl⟩ := List.mem_map.mp hmem
      rw [nodes, List.append_nil, List.mem_append] at hn
      rcases hn with hn | hn
      · exact absurd (hbefore n hn) (lt_irrefl _)
      · exact absurd (hafter n hn) (lt_irrefl _)
    · rw [hnode]
      rfl
  · intro hnode
    obtain hleaf | ⟨i, height, l, r, hshape⟩ := hend
    · rw [hleaf] at hnode
      cases hnode
    · rw [keys, hnodes, hshape, nodes]
      simp

/-- The way down to the leftmost node, and the subtree it leads to. -/
def leftmost : List (Frame ι K) → AvlTree ι K → List (Frame ι K) × AvlTree ι K
  | fs, node i k h (node j m g a b) r => leftmost (⟨true, i, k, h, r⟩ :: fs) (node j m g a b)
  | fs, t => (fs, t)

theorem leftmost_node (fs : List (Frame ι K)) (i : ι) (k : K) (h : Nat) (l r : AvlTree ι K) :
    leftmost fs (node i k h l r) =
      match l with
      | leaf => (fs, node i k h leaf r)
      | node j m g a b => leftmost (⟨true, i, k, h, r⟩ :: fs) (node j m g a b) := by
  cases l <;> rfl

/-- The leftmost node has no left child, and nothing but the nodes before the subtree stands
before it. -/
theorem leftmost_spec (fs : List (Frame ι K)) (i : ι) (k : K) (h : Nat) (l r : AvlTree ι K) :
    ∃ gs j m g b, (∀ es, leftmost (fs ++ es) (node i k h l r) = (gs ++ es, node j m g leaf b)) ∧
      plugs gs (node j m g leaf b) = plugs fs (node i k h l r) ∧ before gs = before fs := by
  induction l generalizing fs i k h r with
  | leaf => exact ⟨fs, i, k, h, r, fun _ => rfl, rfl, rfl⟩
  | node j m g a b iha _ =>
    obtain ⟨gs, j', m', g', b', hrun, hplugs, hbefore⟩ := iha (⟨true, i, k, h, r⟩ :: fs) j m g b
    refine ⟨gs, j', m', g', b', fun es => ?_, hplugs, ?_⟩
    · rw [leftmost_node]
      exact hrun es
    · rw [hbefore]
      rfl

/-! ## Taking a node out -/

/-- Where a node at the root of a subtree is taken out: the frames around the hole, and the
subtree that fills it. A node with two children gets the key of its successor, and the
successor is taken out. -/
def extract (fs : List (Frame ι K)) : AvlTree ι K → List (Frame ι K) × AvlTree ι K
  | leaf => (fs, leaf)
  | node _ _ _ l leaf => (fs, l)
  | node _ _ _ leaf r => (fs, r)
  | node i _ h l r =>
    match leftmost [] r with
    | (gs, node _ m _ _ b) => (gs ++ ⟨false, i, m, h, l⟩ :: fs, b)
    | (gs, leaf) => (gs ++ fs, leaf)

theorem nodes_rebuild_eq (fs : List (Frame ι K)) (t : AvlTree ι K) :
    (rebuild fs t).nodes = (plugs fs t).nodes := by
  rw [nodes_rebuild, nodes_plugs]

/-- What taking out a node with a key leaves of a tree. -/
structure Without (k : K) (t t' : AvlTree ι K) : Prop where
  keys : ∃ ks₁ ks₂, t.keys = ks₁ ++ k :: ks₂ ∧ t'.keys = ks₁ ++ ks₂
  labels : ∃ i, t.labels.Perm (i :: t'.labels)

/-- One node is missing, and the others keep their keys up to the label of one of them. -/
theorem without_of_nodes {i j : ι} {k m : K} {t t' : AvlTree ι K} (ns₁ ns₂ : List (ι × K))
    (ht : t.nodes = ns₁ ++ (i, k) :: (j, m) :: ns₂) (ht' : t'.nodes = ns₁ ++ (i, m) :: ns₂) :
    Without k t t' where
  keys := ⟨ns₁.map Prod.snd, m :: ns₂.map Prod.snd, by rw [keys, ht]; simp, by
    rw [keys, ht']; simp⟩
  labels := by
    refine ⟨j, ?_⟩
    have hold : t.labels = (ns₁.map Prod.fst ++ [i]) ++ j :: ns₂.map Prod.fst := by
      rw [labels, ht]
      simp
    have hnew : t'.labels = (ns₁.map Prod.fst ++ [i]) ++ ns₂.map Prod.fst := by
      rw [labels, ht']
      simp
    rw [hold, hnew]
    exact List.perm_middle

/-- A node with at most one child makes way for it. -/
theorem without_child {fs : List (Frame ι K)} {i : ι} {k : K} {h : Nat} {l r t : AvlTree ι K}
    (hbal : (plugs fs (node i k h l r)).Balanced)
    (ht : l = leaf ∧ t = r ∨ r = leaf ∧ t = l) :
    Without k (plugs fs (node i k h l r)) (plugs fs t) ∧
      Fits (plugs fs (node i k h l r)) fs t := by
  have hnode := balanced_of_plugs hbal
  obtain ⟨hl, hr, hheight, hlr, hrl⟩ := hnode
  have hnodes : ∃ ns₁ ns₂, (plugs fs (node i k h l r)).nodes = ns₁ ++ (i, k) :: ns₂ ∧
      (plugs fs t).nodes = ns₁ ++ ns₂ := by
    rw [nodes_plugs, nodes_plugs, nodes]
    rcases ht with ⟨rfl, rfl⟩ | ⟨rfl, rfl⟩
    · exact ⟨before fs, t.nodes ++ after fs, by simp [nodes], by simp⟩
    · exact ⟨before fs ++ t.nodes, after fs, by simp [nodes], rfl⟩
  obtain ⟨ns₁, ns₂, hwhole, hrest⟩ := hnodes
  refine ⟨⟨⟨ns₁.map Prod.snd, ns₂.map Prod.snd, ?_, ?_⟩, i, ?_⟩, ?_⟩
  · rw [keys, hwhole, List.map_append, List.map_cons]
  · rw [keys, hrest, List.map_append]
  · rw [labels, labels, hwhole, hrest, List.map_append, List.map_append, List.map_cons]
    exact List.perm_middle
  · rcases ht with ⟨rfl, rfl⟩ | ⟨rfl, rfl⟩
    · rw [stored_leaf] at hheight hlr hrl
      exact ⟨hr, _, hbal, rfl, by rw [stored_node]; omega, by rw [stored_node]; omega⟩
    · rw [stored_leaf] at hheight hlr hrl
      exact ⟨hl, _, hbal, rfl, by rw [stored_node]; omega, by rw [stored_node]; omega⟩

/-- A node with two children gets its successor's key, and the successor is taken out. -/
theorem without_successor {fs gs : List (Frame ι K)} {i j : ι} {k m : K} {h g : Nat}
    {l b : AvlTree ι K}
    (hbal : (plugs fs (node i k h l (plugs gs (node j m g leaf b)))).Balanced)
    (hgs : before gs = []) :
    Without k (plugs fs (node i k h l (plugs gs (node j m g leaf b))))
        (plugs (gs ++ ⟨false, i, m, h, l⟩ :: fs) b) ∧
      Fits (plugs fs (node i k h l (plugs gs (node j m g leaf b))))
        (gs ++ ⟨false, i, m, h, l⟩ :: fs) b := by
  have hsplit : ∀ t, plugs (gs ++ ⟨false, i, m, h, l⟩ :: fs) t =
      plugs fs (node i m h l (plugs gs t)) := by
    intro t
    rw [plugs_append]
    rfl
  constructor
  · refine without_of_nodes (i := i) (j := j) (m := m)
      (before fs ++ l.nodes) (b.nodes ++ after gs ++ after fs) ?_ ?_
    · rw [nodes_plugs, nodes, nodes_plugs, hgs]
      simp [nodes]
    · rw [hsplit, nodes_plugs, nodes, nodes_plugs, hgs]
      simp
  · have hnode := balanced_of_plugs hbal
    have hsucc : (node j m g leaf b).Balanced := balanced_of_plugs hnode.2.1
    obtain ⟨-, hb, hheight, hlr, hrl⟩ := hsucc
    rw [stored_leaf] at hheight hlr hrl
    refine ⟨hb, node j m g leaf b, ?_, ?_, by rw [stored_node]; omega, by
      rw [stored_node]; omega⟩
    · rw [hsplit]
      exact balanced_plugs hbal hnode rfl
    · rw [hsplit]
      exact stored_plugs_congr fs rfl

/-- A node with two children, taken apart. -/
theorem extract_two (fs : List (Frame ι K)) (i : ι) (k : K) (h : Nat) {l r : AvlTree ι K}
    (hl : l.isNode = true) (hr : r.isNode = true) :
    ∃ gs j m g b, (∀ es, leftmost es r = (gs ++ es, node j m g leaf b)) ∧
      plugs gs (node j m g leaf b) = r ∧ before gs = [] ∧
      extract fs (node i k h l r) = (gs ++ ⟨false, i, m, h, l⟩ :: fs, b) := by
  cases l with
  | leaf => cases hl
  | node j' m' g' a' b' =>
    cases r with
    | leaf => cases hr
    | node j m g a b =>
      obtain ⟨gs, js, ms, s, bs, hrun, hplugs, hgs⟩ := leftmost_spec [] j m g a b
      refine ⟨gs, js, ms, s, bs, hrun, hplugs, hgs, ?_⟩
      have hleft := hrun []
      rw [List.append_nil, List.append_nil] at hleft
      simp only [extract, hleft]

/-- Taking out the node at the root of a subtree. -/
theorem without_extract {fs : List (Frame ι K)} {i : ι} {k : K} {h : Nat} {l r : AvlTree ι K}
    (hbal : (plugs fs (node i k h l r)).Balanced) :
    Without k (plugs fs (node i k h l r))
        (plugs (extract fs (node i k h l r)).1 (extract fs (node i k h l r)).2) ∧
      Fits (plugs fs (node i k h l r)) (extract fs (node i k h l r)).1
        (extract fs (node i k h l r)).2 := by
  cases r with
  | leaf => exact without_child hbal (Or.inr ⟨rfl, rfl⟩)
  | node j m g a b =>
    cases l with
    | leaf => exact without_child hbal (Or.inl ⟨rfl, rfl⟩)
    | node j' m' g' a' b' =>
      obtain ⟨gs, js, ms, s, bs, -, hplugs, hgs, hextract⟩ := extract_two fs i k h
        (l := node j' m' g' a' b') (r := node j m g a b) rfl rfl
      rw [hextract]
      rw [← hplugs] at hbal ⊢
      exact without_successor hbal hgs

/-- A new node fits where a leaf was. -/
theorem fits_leaf {fs : List (Frame ι K)} (hbal : (plugs fs leaf).Balanced) (i : ι) (x : K) :
    Fits (plugs fs leaf) fs (mk i x leaf leaf) := by
  refine ⟨balanced_mk trivial trivial ?_ ?_, leaf, hbal, rfl, ?_, ?_⟩ <;> simp

/-- A tree is a tree with a new node, without it. -/
theorem without_new (fs : List (Frame ι K)) (i : ι) (x : K) :
    Without x (plugs fs (mk i x leaf leaf)) (plugs fs leaf) where
  keys := ⟨(before fs).map Prod.snd, (after fs).map Prod.snd, by
    rw [keys, nodes_plugs, nodes_mk]; simp [nodes], by
    rw [keys, nodes_plugs]; simp [nodes]⟩
  labels := by
    refine ⟨i, (labels_plugs_perm fs _).trans ?_⟩
    have hleaf := labels_plugs_perm fs (leaf : AvlTree ι K)
    exact hleaf.symm.cons i

theorem keys_rebuild (fs : List (Frame ι K)) (t : AvlTree ι K) :
    (rebuild fs t).keys = (plugs fs t).keys := by
  rw [keys, nodes_rebuild_eq, keys]

theorem labels_rebuild (fs : List (Frame ι K)) (t : AvlTree ι K) :
    (rebuild fs t).labels = (plugs fs t).labels := by
  rw [labels, nodes_rebuild_eq, labels]

/-- The keys are those left and the one taken out. -/
theorem Without.mem_keys {x : K} {t t' : AvlTree ι K} (hw : Without x t t') (y : K) :
    y ∈ t.keys ↔ y = x ∨ y ∈ t'.keys := by
  obtain ⟨ks₁, ks₂, hkeys, hkeys'⟩ := hw.keys
  rw [hkeys, hkeys']
  simp only [List.mem_append, List.mem_cons]
  tauto

section Order

variable [LinearOrder K] {x : K} {t t' : AvlTree ι K}

theorem sorted_iff : t.Sorted ↔ t.keys.Pairwise (· < ·) := List.pairwise_map.symm

theorem Sorted.without (h : t.Sorted) (hw : Without x t t') : t'.Sorted := by
  obtain ⟨ks₁, ks₂, hkeys, hkeys'⟩ := hw.keys
  rw [sorted_iff, hkeys] at h
  rw [sorted_iff, hkeys']
  exact h.sublist (List.Sublist.append_left (List.sublist_cons_self x ks₂) ks₁)

theorem Sorted.nodup (h : t.Sorted) : t.keys.Nodup := (sorted_iff.mp h).imp ne_of_lt

/-- The key taken out is not left. -/
theorem Sorted.not_mem_without (h : t.Sorted) (hw : Without x t t') : x ∉ t'.keys := by
  have hnodup := h.nodup
  obtain ⟨ks₁, ks₂, hkeys, hkeys'⟩ := hw.keys
  rw [hkeys, List.nodup_middle, List.nodup_cons] at hnodup
  rw [hkeys']
  exact hnodup.1

/-- A new node keeps the order where its key belongs. -/
theorem Sorted.new {fs : List (Frame ι K)} (h : (plugs fs leaf : AvlTree ι K).Sorted)
    (hx : Between x fs) (i : ι) : (plugs fs (mk i x leaf leaf)).Sorted := by
  rw [Sorted, nodes_plugs] at h ⊢
  rw [nodes, List.append_nil, List.pairwise_append] at h
  rw [nodes_mk, nodes, List.nil_append, List.append_assoc, List.pairwise_append]
  obtain ⟨hbefore, hafter, hacross⟩ := h
  refine ⟨hbefore, List.pairwise_cons.mpr ⟨hx.2, hafter⟩, fun m hm n hn => ?_⟩
  rcases List.mem_cons.mp hn with rfl | hn
  · exact hx.1 m hm
  · exact hacross m hm n hn

end Order

end AvlTree

end Vani.Library
