import Vani.Analysis.BstRefines
import Vani.Backend.Trie
import Vani.Library.PrefixTree
import Mathlib.Data.Finset.Range
import Mathlib.Data.Finset.Image
import Mathlib.Data.Set.Card

/-!
# The emitted prefix tree refines a finite set of words

The nodes in use are placed by the beginnings of the words, and every other node of the arena
is on the list of free nodes, each once. An insertion extends the tree along its word by nodes
that were not in use; a removal gives nodes back from the end of its word up to the first that
another word needs. This holds as long as the numbers of the nodes fit into `int32_t`.
-/

set_option autoImplicit false

namespace Vani.Analysis

open Vani.Library Vani.Backend

variable {t t' t'' : Trie} {free : List Nat} {used : Finset Nat} {i j : Nat} {heap : Nat → Bool}

/-! ## Rows -/

/-- The row of a node and its mark are as they were. -/
structure SameRow (t t' : Trie) (i : Nat) : Prop where
  child : ∀ c, c < 256 → t'.children[i * 256 + c]? = t.children[i * 256 + c]?
  mark : t'.isEnd[i]? = t.isEnd[i]?

theorem SameRow.trans (h : SameRow t t' i) (h' : SameRow t' t'' i) : SameRow t t'' i :=
  ⟨fun c hc => (h'.child c hc).trans (h.child c hc), h'.mark.trans h.mark⟩

/-- A node without children at which no word ends. -/
structure EmptyRow (t : Trie) (i : Nat) : Prop where
  child : ∀ c, c < 256 → t.children[i * 256 + c]? = some (some (-1))
  mark : t.isEnd[i]? = some (some false)

/-- The arrays have room for so many nodes. -/
structure RowsSized (t : Trie) : Prop where
  children : t.children.size = t.capacity * 256
  isEnd : t.isEnd.size = t.capacity

/-- A cell of a row is stored to. -/
theorem storeChild {a : Array (Option Int)} {c : Nat} (hi : i * 256 + c < a.size) (x : Int) :
    Bst.store a ((i : Int) * 256 + (c : Int)) x =
      .done (a.setIfInBounds (i * 256 + c) (some x)) := by
  have hcast : (i : Int) * 256 + (c : Int) = ((i * 256 + c : Nat) : Int) := by omega
  rw [hcast]
  exact store_of_lt hi x

theorem fetchChild {a : Array (Option Int)} {c : Nat} {x : Int}
    (h : a[i * 256 + c]? = some (some x)) :
    Bst.fetch a ((i : Int) * 256 + (c : Int)) = .done x := by
  have hcast : (i : Int) * 256 + (c : Int) = ((i * 256 + c : Nat) : Int) := by omega
  rw [hcast]
  exact fetch_of_get h

/-- A node is emptied. -/
theorem clearNode_ok (h : RowsSized t) (hi : i < t.capacity) :
    ∃ children isEnd, t.clearNode i = .done { t with children, isEnd } ∧
      RowsSized { t with children, isEnd } ∧ EmptyRow { t with children, isEnd } i ∧
      ∀ j, j ≠ i → SameRow t { t with children, isEnd } j := by
  have hsize := h.children
  obtain ⟨children, hrun, hchildren, hrow, hother⟩ := Outcome.forRange_of_step
    (f := fun c a => Bst.store a ((i : Int) * 256 + c) (-1)) (n := 256) (s := t.children)
    (fun c a => a.size = t.children.size ∧
      (∀ d, d < c → a[i * 256 + d]? = some (some (-1))) ∧
      ∀ k, k < i * 256 ∨ i * 256 + 256 ≤ k → a[k]? = t.children[k]?)
    ⟨rfl, fun d hd => absurd hd (Nat.not_lt_zero d), fun _ _ => rfl⟩ (by
      rintro c a hc ⟨ha, hrow, hother⟩
      have hlt : i * 256 + c < a.size := by omega
      refine ⟨_, storeChild hlt (-1), by rw [Array.size_setIfInBounds, ha], ?_, ?_⟩
      · intro d hd
        by_cases hdc : d = c
        · rw [hdc]
          exact Array.getElem?_setIfInBounds_self_of_lt hlt
        · rw [Array.getElem?_setIfInBounds_ne (by omega)]
          exact hrow d (by omega)
      · intro k hk
        rw [Array.getElem?_setIfInBounds_ne (by omega)]
        exact hother k hk)
  have hmark : i < t.isEnd.size := by rw [h.isEnd]; exact hi
  refine ⟨children, t.isEnd.setIfInBounds i (some false), ?_, ⟨?_, ?_⟩, ⟨?_, ?_⟩, ?_⟩
  · unfold Trie.clearNode
    rw [hrun, Outcome.done_bind, store_of_lt hmark, Outcome.done_bind]
    rfl
  · exact hchildren.trans hsize
  · exact (Array.size_setIfInBounds ..).trans h.isEnd
  · exact hrow
  · exact Array.getElem?_setIfInBounds_self_of_lt hmark
  · intro j hj
    exact ⟨fun c hc => hother _ (by omega), Array.getElem?_setIfInBounds_ne (Ne.symm hj)⟩

/-! ## The list of free nodes -/

/-- The free nodes are chained through the first cells of their rows. -/
def FreeChain (t : Trie) : List Nat → Int → Prop
  | [], head => head = -1
  | i :: is, head => head = i ∧ ∃ next, t.children[i * 256 + 0]? = some (some next) ∧
      FreeChain t is next

theorem FreeChain.frame : ∀ {free : List Nat} {head : Int}, FreeChain t free head →
    (∀ i ∈ free, SameRow t t' i) → FreeChain t' free head
  | [], _, h, _ => h
  | i :: is, _, ⟨hhead, next, hnext, h⟩, hrows => by
    refine ⟨hhead, next, ?_, h.frame fun j hj => hrows j (List.mem_cons_of_mem i hj)⟩
    rw [(hrows i List.mem_cons_self).child 0 (by decide)]
    exact hnext

/-- The nodes of the arena are in use or free, and the free ones are chained. -/
structure Arena (t : Trie) (free : List Nat) (used : Finset Nat) : Prop where
  sized : RowsSized t
  room : t.numNodes ≤ t.capacity
  chain : FreeChain t free t.freeHead
  nodup : free.Nodup
  freeCount : t.freeCount = free.length
  nodes : ∀ i, i < t.numNodes ↔ i ∈ used ∨ i ∈ free
  apart : ∀ i ∈ free, i ∉ used

namespace Arena

theorem lt_capacity (h : Arena t free used) (hi : i ∈ used ∨ i ∈ free) : i < t.capacity :=
  Nat.lt_of_lt_of_le ((h.nodes i).mpr hi) h.room

/-- The nodes in use and the free ones are all. -/
theorem count (h : Arena t free used) : t.numNodes = used.card + free.length := by
  have hall : Finset.range t.numNodes = used ∪ free.toFinset := by
    ext i
    rw [Finset.mem_range, h.nodes, Finset.mem_union, List.mem_toFinset]
  have hdisjoint : Disjoint used free.toFinset := by
    rw [Finset.disjoint_right]
    intro i hi
    exact h.apart i (List.mem_toFinset.mp hi)
  rw [← Finset.card_range t.numNodes, hall, Finset.card_union_of_disjoint hdisjoint,
    List.toFinset_card_of_nodup h.nodup]

end Arena

/-- What a new node leaves. -/
structure Added (t : Trie) (used : Finset Nat) (x : Int × Trie) (i : Nat) (free : List Nat) :
    Prop where
  node : x.1 = i
  unused : i ∉ used
  arena : Arena x.2 free (insert i used)
  empty : EmptyRow x.2 i
  rows : ∀ j ∈ used, SameRow t x.2 j
  numWords : x.2.numWords = t.numWords
  capacity : t.capacity ≤ x.2.capacity
  numNodes : x.2.numNodes = t.numNodes ∨ x.2.numNodes = used.card + 1

/-- A larger arena is needed, and the memory for it refused. -/
def GrowthRefused (heap : Nat → Bool) (t : Trie) : Prop :=
  t.capacity = t.numNodes ∧ Trie.granted heap (Bst.grownCapacity t.capacity) = false

/-- The first free node is used again. -/
theorem Arena.reuse (h : Arena t (i :: free) used) (heap : Nat → Bool) :
    ∃ x, t.newNode heap = .done x ∧ Added t used x i free := by
  obtain ⟨hhead, next, hnext, hchain⟩ := h.chain
  have hi : i < t.capacity := h.lt_capacity (Or.inr List.mem_cons_self)
  obtain ⟨hfree, hnodup⟩ := List.nodup_cons.mp h.nodup
  have hsized : RowsSized { t with freeHead := next, freeCount := t.freeCount - 1 } :=
    ⟨h.sized.children, h.sized.isEnd⟩
  obtain ⟨children, isEnd, hrun, hsized', hempty, hrows⟩ := clearNode_ok hsized hi
  have hused : i ∉ used := h.apart i List.mem_cons_self
  refine ⟨((i : Int), { t with children, isEnd, freeHead := next, freeCount := t.freeCount - 1 }),
    ?_, rfl, hused, ⟨hsized', h.room, ?_, hnodup, ?_, ?_, ?_⟩, hempty, ?_,
    rfl, le_rfl, Or.inl rfl⟩
  · unfold Trie.newNode
    rw [if_pos (by rw [hhead]; exact slot_ne), hhead]
    have hfetch := fetchChild hnext
    rw [Int.natCast_zero] at hfetch
    dsimp only
    rw [hfetch, Outcome.done_bind, hrun, Outcome.done_bind]
    rfl
  · refine FreeChain.frame (t := t) hchain fun j hj => ?_
    have hrow := hrows j fun heq => hfree (heq ▸ hj)
    exact ⟨hrow.child, hrow.mark⟩
  · have hcount := h.freeCount
    rw [List.length_cons] at hcount
    show t.freeCount - 1 = _
    omega
  · intro j
    show j < t.numNodes ↔ _
    rw [h.nodes j, Finset.mem_insert, List.mem_cons, or_left_comm, or_assoc]
  · intro j hj hmem
    rcases Finset.mem_insert.mp hmem with rfl | hmem
    · exact hfree hj
    · exact h.apart j (List.mem_cons_of_mem i hj) hmem
  · intro j hj
    have hrow := hrows j fun heq => hused (heq ▸ hj)
    exact ⟨hrow.child, hrow.mark⟩

/-- Growing keeps the arena. -/
theorem Arena.grow (h : Arena t free used) (heap : Nat → Bool) (hfull : t.capacity ≤ t.numNodes) :
    (t.grow heap).Returns (GrowthRefused heap t) fun t' =>
      Arena t' free used ∧ t'.numNodes < t'.capacity ∧ t.capacity ≤ t'.capacity ∧
        t'.numNodes = t.numNodes ∧ t'.numWords = t.numWords ∧ t'.freeHead = t.freeHead ∧
        ∀ j, j < t.capacity → SameRow t t' j := by
  have hgrown : t.capacity < Bst.grownCapacity t.capacity := by
    unfold Bst.grownCapacity
    split <;> omega
  unfold Trie.grow
  by_cases hgranted : Trie.granted heap (Bst.grownCapacity t.capacity) = true
  · rw [if_pos hgranted]
    have hsame : ∀ (a : Array (Option Int)) (n k : Nat), k < a.size →
        (Bst.resize a n)[k]? = a[k]? := by
      intro a n k hk
      unfold Bst.resize
      rw [Array.getElem?_append_left hk]
    have hrows : ∀ j, j < t.capacity → SameRow t { t with
        children := Bst.resize t.children (Bst.grownCapacity t.capacity * 256)
        isEnd := Bst.resize t.isEnd (Bst.grownCapacity t.capacity)
        capacity := Bst.grownCapacity t.capacity } j := by
      intro j hj
      refine ⟨fun c hc => hsame _ _ _ (by rw [h.sized.children]; omega), ?_⟩
      exact Array.getElem?_append_left (by rw [h.sized.isEnd]; exact hj)
    refine Outcome.Returns.of_done ⟨⟨⟨?_, ?_⟩, ?_, ?_, h.nodup, h.freeCount, h.nodes, h.apart⟩,
      ?_, hgrown.le, rfl, rfl, rfl, hrows⟩
    · exact resize_size _ (by rw [h.sized.children]; omega)
    · exact resize_size _ (by rw [h.sized.isEnd]; omega)
    · exact h.room.trans hgrown.le
    · exact h.chain.frame fun j hj => hrows j (h.lt_capacity (Or.inr hj))
    · exact lt_of_le_of_lt h.room hgrown
  · rw [if_neg hgranted]
    exact Or.inl ⟨rfl, le_antisymm hfull h.room, by simpa using hgranted⟩

/-- The arena is extended by a node. -/
theorem Arena.extend (h : Arena t [] used) (hroom : t.numNodes < t.capacity) :
    ∃ children isEnd, t.clearNode t.numNodes = .done { t with children, isEnd } ∧
      Added t used (t.numNodes, { t with children, isEnd, numNodes := t.numNodes + 1 }) t.numNodes
        [] := by
  obtain ⟨children, isEnd, hrun, hsized, hempty, hrows⟩ := clearNode_ok h.sized hroom
  have hnodes : ∀ j, j < t.numNodes ↔ j ∈ used := by
    intro j
    rw [h.nodes j]
    exact or_iff_left List.not_mem_nil
  have hunused : t.numNodes ∉ used := fun hmem => Nat.lt_irrefl _ ((hnodes _).mpr hmem)
  refine ⟨children, isEnd, hrun, rfl, hunused, ⟨⟨hsized.children, hsized.isEnd⟩, hroom, h.chain,
    List.nodup_nil, h.freeCount, ?_, fun _ hj => absurd hj List.not_mem_nil⟩,
    ⟨hempty.child, hempty.mark⟩, ?_, rfl, le_rfl, Or.inr ?_⟩
  · intro j
    show j < t.numNodes + 1 ↔ _
    rw [Finset.mem_insert, ← hnodes j]
    simp only [List.not_mem_nil, or_false]
    omega
  · intro j hj
    have hrow := hrows j fun heq => hunused (heq ▸ hj)
    exact ⟨hrow.child, hrow.mark⟩
  · show t.numNodes + 1 = used.card + 1
    rw [h.count, List.length_nil]

/-- A new node is one that was not in use. -/
theorem Arena.newNode (h : Arena t free used) (heap : Nat → Bool) :
    (t.newNode heap).Returns (GrowthRefused heap t) fun x => ∃ i free', Added t used x i free' := by
  cases free with
  | cons i free =>
    obtain ⟨x, hrun, hadded⟩ := h.reuse heap
    exact Outcome.Returns.of_exists ⟨x, hrun, i, free, hadded⟩
  | nil =>
    have hhead : t.freeHead = -1 := h.chain
    unfold Trie.newNode
    rw [if_neg (by rw [hhead]; exact fun hne => hne rfl)]
    by_cases hfull : t.capacity ≤ t.numNodes
    · rw [if_pos hfull]
      refine Outcome.Returns.bind (h.grow heap hfull) ?_
      rintro t₁ ⟨h₁, hroom, hcapacity, hnodes, hwords, -, hrows⟩
      obtain ⟨children, isEnd, hrun, hadded⟩ := h₁.extend hroom
      dsimp only
      rw [hrun, Outcome.done_bind]
      refine Outcome.Returns.of_done ⟨t₁.numNodes, [], rfl, hadded.unused, hadded.arena,
        hadded.empty, ?_, hwords, hcapacity, ?_⟩
      · intro j hj
        exact (hrows j (h.lt_capacity (Or.inl hj))).trans (hadded.rows j hj)
      · exact hadded.numNodes.imp_left fun heq => heq.trans hnodes
    · rw [if_neg hfull, Outcome.pure_eq, Outcome.done_bind]
      obtain ⟨children, isEnd, hrun, hadded⟩ := h.extend (Nat.lt_of_not_le hfull)
      dsimp only
      rw [hrun, Outcome.done_bind]
      exact Outcome.Returns.of_done ⟨t.numNodes, [], hadded⟩

/-! ## Words in the arena -/

variable {S P : Finset (List UInt8)} {place : List UInt8 → Nat} {v w : List UInt8} {c : UInt8}

/-- The nodes of `P` stand at their places, and the words of `S` are marked. -/
structure Spelled (t : Trie) (S P : Finset (List UInt8)) (place : List UInt8 → Nat) : Prop where
  root : place [] = 0
  inj : ∀ p ∈ P, ∀ q ∈ P, place p = place q → p = q
  child : ∀ p ∈ P, ∀ c : UInt8, t.children[place p * 256 + c.toNat]? =
    some (some (if p ++ [c] ∈ P then (place (p ++ [c]) : Int) else -1))
  mark : ∀ p ∈ P, t.isEnd[place p]? = some (some (decide (p ∈ S)))

theorem Spelled.frame (h : Spelled t S P place) (hrows : ∀ p ∈ P, SameRow t t' (place p)) :
    Spelled t' S P place where
  root := h.root
  inj := h.inj
  child p hp c := ((hrows p hp).child c.toNat c.toNat_lt).trans (h.child p hp c)
  mark p hp := (hrows p hp).mark.trans (h.mark p hp)

/-- The nodes of the words, and the free ones. -/
structure TrieHolds (t : Trie) (S P : Finset (List UInt8)) (place : List UInt8 → Nat)
    (free : List Nat) : Prop where
  spelled : Spelled t S P place
  arena : Arena t free (P.image place)
  numWords : t.numWords = S.card
  small : t.numNodes ≤ 2 ^ 31

namespace TrieHolds

theorem card_used (h : TrieHolds t S P place free) : (P.image place).card = P.card :=
  Finset.card_image_of_injOn fun p hp q hq heq => h.spelled.inj p hp q hq heq

theorem place_lt (h : TrieHolds t S P place free) (hv : v ∈ P) : place v < t.numNodes :=
  (h.arena.nodes _).mpr (Or.inl (Finset.mem_image_of_mem place hv))

end TrieHolds

/-- A byte and the cell of a row. -/
theorem byte_ne {d : UInt8} (h : d ≠ c) : d.toNat ≠ c.toNat :=
  fun heq => h (UInt8.toNat_inj.mp heq)

/-- A node is attached: the row of a new node is empty, and its number is stored with its
parent. -/
theorem Spelled.attach (h : Spelled t S P place) (hclosed : ∀ p (d : UInt8), p ++ [d] ∈ P → p ∈ P)
    (hmarked : v ++ [c] ∉ S) (hv : v ∈ P) (hnew : v ++ [c] ∉ P)
    (hi : ∀ p ∈ P, place p ≠ i) (hempty : EmptyRow t i) :
    Spelled
      { t with children := t.children.setIfInBounds (place v * 256 + c.toNat) (some (i : Int)) }
      S (insert (v ++ [c]) P) (Function.update place (v ++ [c]) i) := by
  have hold : ∀ p ∈ P, Function.update place (v ++ [c]) i p = place p := fun p hp =>
    Function.update_of_ne (fun heq : p = v ++ [c] => hnew (heq ▸ hp)) _ _
  have hself : Function.update place (v ++ [c]) i (v ++ [c]) = i := Function.update_self ..
  have hlt : place v * 256 + c.toNat < t.children.size := lt_of_get (h.child v hv c)
  have hcell : ∀ j (d : UInt8), (j ≠ place v ∨ d ≠ c) →
      (t.children.setIfInBounds (place v * 256 + c.toNat) (some (i : Int)))[j * 256 + d.toNat]? =
        t.children[j * 256 + d.toNat]? := by
    intro j d hne
    refine Array.getElem?_setIfInBounds_ne fun heq => ?_
    have hd := d.toNat_lt
    have hc := c.toNat_lt
    rcases hne with hne | hne
    · omega
    · have := byte_ne hne
      omega
  refine ⟨?_, ?_, ?_, ?_⟩
  · exact (Function.update_of_ne (by simp) _ _).trans h.root
  · intro p hp q hq heq
    rcases Finset.mem_insert.mp hp with rfl | hp <;> rcases Finset.mem_insert.mp hq with rfl | hq
    · rfl
    · rw [hself, hold q hq] at heq
      exact absurd heq.symm (hi q hq)
    · rw [hself, hold p hp] at heq
      exact absurd heq (hi p hp)
    · rw [hold p hp, hold q hq] at heq
      exact h.inj p hp q hq heq
  · intro p hp d
    dsimp only
    rcases Finset.mem_insert.mp hp with rfl | hp
    · have hnone : v ++ [c] ++ [d] ∉ insert (v ++ [c]) P := by
        rw [Finset.mem_insert, not_or]
        exact ⟨by simp, fun hmem => hnew (hclosed _ d hmem)⟩
      rw [hself, if_neg hnone, hcell i d (Or.inl fun heq => hi v hv heq.symm)]
      exact hempty.child d.toNat d.toNat_lt
    · rw [hold p hp]
      by_cases hpd : p = v ∧ d = c
      · obtain ⟨rfl, rfl⟩ := hpd
        rw [if_pos (Finset.mem_insert_self _ P), hself]
        exact Array.getElem?_setIfInBounds_self_of_lt hlt
      · have hne : place p ≠ place v ∨ d ≠ c := by
          by_cases hd : d = c
          · exact Or.inl fun heq => hpd ⟨h.inj p hp v hv heq, hd⟩
          · exact Or.inr hd
        have hother : p ++ [d] ≠ v ++ [c] := by
          intro heq
          obtain ⟨h₁, h₂⟩ := List.append_inj' heq rfl
          exact hpd ⟨h₁, List.singleton_inj.mp h₂⟩
        rw [hcell _ d hne, h.child p hp d]
        by_cases hmem : p ++ [d] ∈ P
        · rw [if_pos hmem, if_pos (Finset.mem_insert_of_mem hmem), hold _ hmem]
        · rw [if_neg hmem, if_neg fun hin => (Finset.mem_insert.mp hin).elim hother hmem]
  · intro p hp
    rcases Finset.mem_insert.mp hp with rfl | hp
    · rw [hself, decide_eq_false hmarked]
      exact hempty.mark
    · rw [hold p hp]
      exact h.mark p hp

/-! ## Insertion -/

/-- The child of a node for a byte. -/
theorem Spelled.fetchNext (h : Spelled t S P place) (hv : v ∈ P) (c : UInt8) :
    Bst.fetch t.children ((place v : Int) * 256 + (c.toNat : Int)) =
      .done (if v ++ [c] ∈ P then (place (v ++ [c]) : Int) else -1) :=
  fetchChild (h.child v hv c)

/-- The store to a cell of a row in use keeps the arena. -/
theorem Arena.storeChild (h : Arena t free used) (hi : i ∈ used) {c : Nat} (hc : c < 256)
    (x : Int) :
    Arena { t with children := t.children.setIfInBounds (i * 256 + c) (some x) } free used where
  sized := ⟨(Array.size_setIfInBounds ..).trans h.sized.children, h.sized.isEnd⟩
  room := h.room
  chain := by
    refine FreeChain.frame (t := t) h.chain fun j hj => ⟨fun d hd => ?_, rfl⟩
    have hne : j ≠ i := fun heq => h.apart j hj (heq ▸ hi)
    exact Array.getElem?_setIfInBounds_ne (by omega)
  nodup := h.nodup
  freeCount := h.freeCount
  nodes := h.nodes
  apart := h.apart

theorem image_update {i : Nat} (hnew : v ++ [c] ∉ P) :
    (insert (v ++ [c]) P).image (Function.update place (v ++ [c]) i) =
      insert i (P.image place) := by
  rw [Finset.image_insert, Function.update_self]
  congr 1
  refine Finset.image_congr fun p hp => ?_
  exact Function.update_of_ne (fun heq : p = v ++ [c] => hnew (heq ▸ hp)) _ _

/-- What a byte of an insertion leaves. -/
structure Inserting (t : Trie) (S : Finset (List UInt8)) (v : List UInt8) (x : Int × Trie) :
    Prop where
  holds : ∃ place free, x.1 = (place v : Int) ∧ TrieHolds x.2 S (beginnings (insert v S)) place free
  capacity : t.capacity ≤ x.2.capacity

/-- The memory for an arena larger than this one, of at most `2^32` nodes, is refused. -/
def LargerRefused (heap : Nat → Bool) (t : Trie) : Prop :=
  ∃ n, t.capacity < n ∧ n ≤ 2 ^ 32 ∧ Trie.granted heap n = false

theorem GrowthRefused.larger (h : GrowthRefused heap t') (hcapacity : t.capacity ≤ t'.capacity)
    (hsmall : t'.numNodes ≤ 2 ^ 31) : LargerRefused heap t := by
  have hfull := h.1
  refine ⟨_, ?_, ?_, h.2⟩ <;>
  · unfold Bst.grownCapacity
    split <;> omega

/-- A heap that refuses nothing without need grants such an arena. -/
theorem not_largerRefused (t : Trie) : ¬ LargerRefused (fun _ => true) t := by
  rintro ⟨n, -, hn, href⟩
  unfold Trie.granted at href
  rw [malloc_granted (by omega), malloc_granted (by omega)] at href
  cases href

/-- A byte for which the node is there, or is added. -/
theorem insertTurn_ok {x : Int × Trie} (heap : Nat → Bool) (c : UInt8) (h : Inserting t S v x)
    (hroom : (beginnings (insert (v ++ [c]) S)).card ≤ 2 ^ 31) :
    (Trie.insertTurn heap c x).Returns (LargerRefused heap t) (Inserting t S (v ++ [c])) := by
  obtain ⟨⟨place, free, hcur, hholds⟩, hcapacity⟩ := h
  have hv : v ∈ beginnings (insert v S) := self_mem_beginnings_insert v S
  unfold Trie.insertTurn
  rw [hcur, hholds.spelled.fetchNext hv c, Outcome.done_bind]
  by_cases hnext : v ++ [c] ∈ beginnings (insert v S)
  · rw [if_pos hnext, if_neg slot_ne]
    refine Outcome.Returns.of_done ⟨⟨place, free, rfl, ?_⟩, hcapacity⟩
    rw [beginnings_insert_concat_of_mem hnext]
    exact hholds
  · rw [if_neg hnext, if_pos rfl]
    have hnew := hholds.arena.newNode heap
    refine Outcome.Returns.bind
      (hnew.imp_reason fun href => href.larger hcapacity hholds.small) ?_
    rintro ⟨_, t₁⟩ ⟨i, free', rfl, hunused, harena, hempty, hrows, hwords, hcapacity', hnodes⟩
    have hspelled : Spelled t₁ S (beginnings (insert v S)) place :=
      hholds.spelled.frame fun p hp => hrows _ (Finset.mem_image_of_mem place hp)
    have hnodes' : t₁.numNodes ≤ 2 ^ 31 := by
      have hcard : (beginnings (insert (v ++ [c]) S)).card =
          (beginnings (insert v S)).card + 1 := by
        rw [beginnings_insert_concat, Finset.card_insert_of_notMem hnext]
      have hsmall := hholds.small
      have hused := hholds.card_used
      rcases hnodes with hnodes | hnodes
      · exact hnodes.trans_le hsmall
      · exact hnodes.trans_le (by omega)
    have hi31 : i < 2 ^ 31 :=
      lt_of_lt_of_le ((harena.nodes i).mpr (Or.inl (Finset.mem_insert_self i _))) hnodes'
    have hlt : place v * 256 + c.toNat < t₁.children.size := lt_of_get (hspelled.child v hv c)
    dsimp only
    rw [toInt32_of_lt hi31, storeChild hlt, Outcome.done_bind]
    refine Outcome.Returns.of_done ⟨⟨Function.update place (v ++ [c]) i, free', ?_, ?_⟩,
      hcapacity.trans hcapacity'⟩
    · rw [Function.update_self]
    · rw [beginnings_insert_concat]
      refine ⟨?_, ?_, hwords.trans hholds.numWords, hnodes'⟩
      · refine hspelled.attach (fun p d => beginnings_concat) ?_ hv hnext ?_ hempty
        · exact fun hS => hnext (mem_beginnings_insert.mpr (Or.inr (subset_beginnings hS)))
        · exact fun p hp heq => hunused (heq ▸ Finset.mem_image_of_mem place hp)
      · rw [image_update hnext]
        exact harena.storeChild (Finset.mem_insert_of_mem (Finset.mem_image_of_mem place hv))
          c.toNat_lt _

/-- All bytes of an insertion. -/
theorem insertLoop_ok (heap : Nat → Bool) : ∀ (s : List UInt8) {v : List UInt8} {x : Int × Trie},
    Inserting t S v x → (beginnings (insert (v ++ s) S)).card ≤ 2 ^ 31 →
      (Trie.insertLoop heap s x).Returns (LargerRefused heap t) (Inserting t S (v ++ s))
  | [], v, x, h, _ => by
    rw [List.append_nil]
    exact Outcome.Returns.of_done h
  | c :: s, v, x, h, hroom => by
    rw [List.append_cons] at hroom ⊢
    have hle := (card_beginnings_insert_le (S := S) (List.prefix_append (v ++ [c]) s)).trans hroom
    exact Outcome.Returns.bind (insertTurn_ok heap c h hle) fun x' h' =>
      insertLoop_ok heap s h' hroom

/-- The mark of a node is set, or taken away. -/
theorem Spelled.setMark (h : Spelled t S P place) (hv : v ∈ P) (S' : Finset (List UInt8))
    (hother : ∀ p, p ≠ v → (p ∈ S' ↔ p ∈ S)) :
    Spelled { t with isEnd := t.isEnd.setIfInBounds (place v) (some (decide (v ∈ S'))) } S' P
      place where
  root := h.root
  inj := h.inj
  child := h.child
  mark p hp := by
    by_cases hpv : p = v
    · rw [hpv]
      exact Array.getElem?_setIfInBounds_self_of_lt (lt_of_get (h.mark v hv))
    · have hne : place v ≠ place p := fun heq => hpv (h.inj p hp v hv heq.symm)
      dsimp only
      rw [Array.getElem?_setIfInBounds_ne hne, h.mark p hp, decide_eq_decide.mpr (hother p hpv)]

theorem Arena.storeMark (h : Arena t free used) (i : Nat) (b : Bool) (n : Int) :
    Arena { t with isEnd := t.isEnd.setIfInBounds i (some b), numWords := n } free used where
  sized := ⟨h.sized.children, (Array.size_setIfInBounds ..).trans h.sized.isEnd⟩
  room := h.room
  chain := by
    have hsame : ∀ {l : List Nat} {head : Int}, FreeChain t l head →
        FreeChain { t with isEnd := t.isEnd.setIfInBounds i (some b), numWords := n } l head := by
      intro l
      induction l with
      | nil => exact id
      | cons j l ih => exact fun ⟨hhead, next, hnext, hl⟩ => ⟨hhead, next, hnext, ih hl⟩
    exact hsame h.chain
  nodup := h.nodup
  freeCount := h.freeCount
  nodes := h.nodes
  apart := h.apart

/-- The arena holds the words of the set. -/
def HoldsWords (t : Trie) (S : Finset (List UInt8)) : Prop :=
  ∃ place free, TrieHolds t S (beginnings S) place free

/-- The end of an insertion. -/
theorem TrieHolds.markEnd (h : TrieHolds t S (beginnings (insert w S)) place free) :
    ∃ t', t.markEnd (place w) = .done (decide (w ∉ S), t') ∧ HoldsWords t' (insert w S) := by
  have hw : w ∈ beginnings (insert w S) := self_mem_beginnings_insert w S
  have hmark := h.spelled.mark w hw
  unfold Trie.markEnd
  rw [fetch_of_get hmark, Outcome.done_bind]
  by_cases hmem : w ∈ S
  · rw [if_pos (decide_eq_true hmem), decide_eq_false (not_not.mpr hmem)]
    refine ⟨t, rfl, place, free, ?_⟩
    rw [Finset.insert_eq_of_mem hmem] at h ⊢
    exact h
  · rw [if_neg (by rw [decide_eq_false hmem]; exact Bool.false_ne_true), decide_eq_true hmem,
      store_of_lt (lt_of_get hmark), Outcome.done_bind]
    refine ⟨_, rfl, place, free, ?_, h.arena.storeMark (place w) true _, ?_, h.small⟩
    · have hset := h.spelled.setMark hw (insert w S) fun p hp => by
        rw [Finset.mem_insert, or_iff_right hp]
      rw [decide_eq_true (Finset.mem_insert_self w S)] at hset
      exact ⟨hset.root, hset.inj, hset.child, hset.mark⟩
    · show t.numWords + 1 = _
      rw [h.numWords, Finset.card_insert_of_notMem hmem]
      omega

/-- An insertion. -/
theorem holdsWords_insert (h : HoldsWords t S) (heap : Nat → Bool)
    (hroom : (beginnings (insert w S)).card ≤ 2 ^ 31) :
    (t.insert heap w).Returns (LargerRefused heap t) fun x =>
      x.1 = decide (w ∉ S) ∧ HoldsWords x.2 (insert w S) := by
  obtain ⟨place, free, hholds⟩ := h
  have hnil : beginnings (insert [] S) = beginnings S :=
    beginnings_insert_of_mem (nil_mem_beginnings S)
  rw [← hnil] at hholds
  have hroot : (0 : Int) = (place [] : Int) := by rw [hholds.spelled.root]; rfl
  unfold Trie.insert
  by_cases hw : w = []
  · rw [if_pos hw, hw, hroot]
    obtain ⟨t', hrun, hwords⟩ := hholds.markEnd
    exact Outcome.Returns.of_exists ⟨_, hrun, rfl, hwords⟩
  · rw [if_neg hw]
    have hstart : Inserting t S [] (0, t) := ⟨⟨place, free, hroot, hholds⟩, le_rfl⟩
    refine Outcome.Returns.bind (insertLoop_ok heap w hstart hroom) ?_
    rintro ⟨_, t₁⟩ ⟨⟨place', free', rfl, hholds'⟩, -⟩
    obtain ⟨t', hrun, hwords⟩ := hholds'.markEnd
    exact Outcome.Returns.of_exists ⟨_, hrun, rfl, hwords⟩

/-! ## Queries -/

/-- The way down along a word comes to its node, or off the tree. -/
theorem Spelled.walk (h : Spelled t S P place) (hclosed : ∀ p q : List UInt8, p ++ q ∈ P → p ∈ P) :
    ∀ (s : List UInt8) {v : List UInt8}, v ∈ P → t.walk s (place v) =
      .done (if v ++ s ∈ P then (place (v ++ s) : Int) else -1)
  | [], v, hv => by
    rw [List.append_nil, if_pos hv]
    rfl
  | c :: s, v, hv => by
    rw [Trie.walk, h.fetchNext hv c, Outcome.done_bind, List.append_cons v c s]
    by_cases hnext : v ++ [c] ∈ P
    · rw [if_pos hnext, if_neg slot_ne]
      exact h.walk hclosed s hnext
    · rw [if_neg hnext, if_pos rfl, if_neg fun hmem => hnext (hclosed _ s hmem)]
      rfl

theorem beginnings_append (p q : List UInt8) (h : p ++ q ∈ beginnings S) : p ∈ beginnings S :=
  beginnings_closed h (List.prefix_append p q)

theorem TrieHolds.walk (h : TrieHolds t S (beginnings S) place free) (w : List UInt8) :
    t.walk w 0 = .done (if w ∈ beginnings S then (place w : Int) else -1) := by
  have hwalk := h.spelled.walk beginnings_append w (nil_mem_beginnings S)
  rwa [h.spelled.root] at hwalk

theorem holdsWords_contains (h : HoldsWords t S) (w : List UInt8) :
    t.contains w = .done (decide (w ∈ S)) := by
  obtain ⟨place, free, hholds⟩ := h
  unfold Trie.contains
  rw [hholds.walk, Outcome.done_bind]
  by_cases hw : w ∈ beginnings S
  · rw [if_pos hw, if_neg slot_ne, fetch_of_get (hholds.spelled.mark w hw)]
  · rw [if_neg hw, if_pos rfl, decide_eq_false fun hmem => hw (subset_beginnings hmem)]
    rfl

theorem holdsWords_startsWith (h : HoldsWords t S) (w : List UInt8) :
    t.startsWith w = .done (decide (w ∈ beginnings S)) := by
  obtain ⟨place, free, hholds⟩ := h
  unfold Trie.startsWith
  rw [hholds.walk, Outcome.done_bind]
  by_cases hw : w ∈ beginnings S
  · rw [if_pos hw, decide_eq_true slot_ne, decide_eq_true hw]
    rfl
  · rw [if_neg hw, decide_eq_false hw]
    rfl

/-- The nodes in use are counted. -/
theorem holdsWords_nodeCount (h : HoldsWords t S) : t.nodeCount = (beginnings S).card := by
  obtain ⟨place, free, hholds⟩ := h
  unfold Trie.nodeCount
  rw [hholds.arena.count, hholds.card_used, hholds.arena.freeCount]
  omega

/-! ## Removal -/

/-- The way has the nodes and the bytes along a word. -/
structure Along (way : Trie.Way) (place : List UInt8 → Nat) (w : List UInt8) : Prop where
  node : ∀ p : List UInt8, p <+: w → way.node[p.length]? = some (some (place p : Int))
  ch : ∀ (p : List UInt8) (d : UInt8), p ++ [d] <+: w → way.ch[p.length]? = some (some d.toNat)

theorem load_of_get {α : Type} {a : Array (Option α)} {x : α} (h : a[i]? = some (some x)) :
    Vec.load a i = .done x := by
  unfold Vec.load Outcome.read
  rw [h]
  rfl

/-- One byte further. -/
theorem Along.concat {way : Trie.Way} (h : Along way place v) (c : UInt8)
    (hnode : v.length + 1 < way.node.size) (hch : v.length < way.ch.size) :
    Along ⟨way.node.setIfInBounds (v.length + 1) (some (place (v ++ [c]) : Int)),
      way.ch.setIfInBounds v.length (some c.toNat)⟩ place (v ++ [c]) where
  node p hp := by
    rcases List.prefix_concat_iff.mp hp with rfl | hp
    · rw [List.length_append, List.length_singleton]
      exact Array.getElem?_setIfInBounds_self_of_lt hnode
    · have hle := hp.length_le
      rw [Array.getElem?_setIfInBounds_ne (by omega)]
      exact h.node p hp
  ch p d hp := by
    rcases List.prefix_concat_iff.mp hp with heq | hp
    · obtain ⟨rfl, hd⟩ := List.append_inj' heq rfl
      rw [List.singleton_inj.mp hd]
      exact Array.getElem?_setIfInBounds_self_of_lt hch
    · have hle := hp.length_le
      rw [List.length_append, List.length_singleton] at hle
      rw [Array.getElem?_setIfInBounds_ne (by omega)]
      exact h.ch p d hp

/-- The way down notes the nodes and the bytes. -/
theorem Spelled.descend (h : Spelled t S P place)
    (hclosed : ∀ p q : List UInt8, p ++ q ∈ P → p ∈ P) :
    ∀ (s : List UInt8) {v : List UInt8} {way : Trie.Way}, v ∈ P →
      v.length + s.length < way.node.size → v.length + s.length ≤ way.ch.size →
      Along way place v →
      v ++ s ∉ P ∧ t.descend s v.length (place v) way = .done none ∨
        v ++ s ∈ P ∧ ∃ way', Along way' place (v ++ s) ∧
          t.descend s v.length (place v) way = .done (some ((place (v ++ s) : Int), way'))
  | [], v, way, hv, _, _, hway => by
    rw [List.append_nil]
    exact Or.inr ⟨hv, way, hway, rfl⟩
  | c :: s, v, way, hv, hnode, hch, hway => by
    rw [List.length_cons] at hnode hch
    rw [Trie.descend, h.fetchNext hv c, Outcome.done_bind, List.append_cons v c s]
    by_cases hnext : v ++ [c] ∈ P
    · rw [if_pos hnext, if_neg slot_ne, Outcome.write_of_lt (by omega), Outcome.done_bind,
        Outcome.write_of_lt (by omega), Outcome.done_bind]
      have hlen : (v ++ [c]).length = v.length + 1 := by
        rw [List.length_append, List.length_singleton]
      have hrest := h.descend hclosed s hnext
        (by rw [hlen, Array.size_setIfInBounds]; omega)
        (by rw [hlen, Array.size_setIfInBounds]; omega)
        (hway.concat c (by omega) (by omega))
      rw [hlen] at hrest
      exact hrest
    · rw [if_neg hnext, if_pos rfl]
      exact Or.inl ⟨fun hmem => hnext (hclosed _ s hmem), rfl⟩

/-- The scan of a row finds a child if there is one. -/
theorem Spelled.hasChild (h : Spelled t S P place) (hv : v ∈ P) : ∀ k, k ≤ 256 →
    (∃ c : UInt8, v ++ [c] ∈ P) ∧ t.hasChild (place v) k = .done true ∨
      (∀ c : UInt8, 256 - k ≤ c.toNat → v ++ [c] ∉ P) ∧ t.hasChild (place v) k = .done false
  | 0, _ => Or.inr ⟨fun c hc => absurd c.toNat_lt (by omega), rfl⟩
  | k + 1, hk => by
    have hbyte : (UInt8.ofNat (256 - (k + 1))).toNat = 256 - (k + 1) :=
      UInt8.toNat_ofNat_of_lt (show 256 - (k + 1) < 256 by omega)
    have hfetch := h.fetchNext hv (UInt8.ofNat (256 - (k + 1)))
    rw [hbyte] at hfetch
    rw [Trie.hasChild, hfetch, Outcome.done_bind]
    by_cases hmem : v ++ [UInt8.ofNat (256 - (k + 1))] ∈ P
    · rw [if_pos hmem, if_pos slot_ne]
      exact Or.inl ⟨⟨_, hmem⟩, rfl⟩
    · rw [if_neg hmem, if_neg (fun hne => hne rfl)]
      refine (h.hasChild hv k (by omega)).imp_right fun ⟨hnone, hrun⟩ => ⟨fun c hc => ?_, hrun⟩
      rcases Nat.eq_or_lt_of_le hc with heq | hgt
      · rw [heq, UInt8.ofNat_toNat] at hmem
        exact hmem
      · exact hnone c (by omega)

/-- The head of the list of free nodes is kept by the conversion. -/
theorem Arena.toInt32_freeHead (h : Arena t free used) (hsmall : t.numNodes ≤ 2 ^ 31) :
    Bst.toInt32 t.freeHead = t.freeHead := by
  have hchain := h.chain
  cases hfree : free with
  | nil =>
    rw [hfree] at hchain
    rw [show t.freeHead = -1 from hchain]
    rfl
  | cons i is =>
    rw [hfree] at hchain
    have hi : i < t.numNodes := (h.nodes i).mpr (Or.inr (hfree ▸ List.mem_cons_self))
    rw [hchain.1, toInt32_of_lt (by omega)]

/-- A node is given back. -/
def givenBack (t : Trie) (i j d : Nat) : Trie :=
  { t with
    children := (t.children.setIfInBounds (j * 256 + d) (some (-1))).setIfInBounds (i * 256 + 0)
      (some (Bst.toInt32 t.freeHead))
    freeHead := i
    freeCount := t.freeCount + 1 }

/-- The rows of the node and of its parent are stored to. -/
theorem givenBack_child {d e k : Nat} (hne : k ≠ i)
    (hother : k ≠ j ∨ e ≠ d) (he : e < 256) (hd : d < 256) :
    (givenBack t i j d).children[k * 256 + e]? = t.children[k * 256 + e]? := by
  unfold givenBack
  dsimp only
  rw [Array.getElem?_setIfInBounds_ne (by omega), Array.getElem?_setIfInBounds_ne (by omega)]

theorem Arena.release (h : Arena t free used) (hsmall : t.numNodes ≤ 2 ^ 31) (hi : i ∈ used)
    (hj : j ∈ used) (hij : j ≠ i) {d : Nat} (hd : d < 256) :
    Arena (givenBack t i j d) (i :: free) (used.erase i) where
  sized := by
    refine ⟨?_, h.sized.isEnd⟩
    unfold givenBack
    dsimp only
    rw [Array.size_setIfInBounds, Array.size_setIfInBounds, h.sized.children]
  room := h.room
  chain := by
    have hlt := h.lt_capacity (Or.inl hi)
    refine ⟨rfl, t.freeHead, ?_, ?_⟩
    · rw [← h.toInt32_freeHead hsmall]
      unfold givenBack
      dsimp only
      rw [h.toInt32_freeHead hsmall]
      refine Array.getElem?_setIfInBounds_self_of_lt ?_
      rw [Array.size_setIfInBounds, h.sized.children]
      omega
    · refine h.chain.frame fun k hk => ⟨fun e he => ?_, rfl⟩
      have hki : k ≠ i := fun heq => h.apart k hk (heq ▸ hi)
      have hkj : k ≠ j := fun heq => h.apart k hk (heq ▸ hj)
      exact givenBack_child hki (Or.inl hkj) he hd
  nodup := List.nodup_cons.mpr ⟨fun hmem => h.apart i hmem hi, h.nodup⟩
  freeCount := by
    show t.freeCount + 1 = _
    rw [h.freeCount, List.length_cons]
    omega
  nodes k := by
    show k < t.numNodes ↔ _
    rw [h.nodes k, Finset.mem_erase, List.mem_cons]
    by_cases hk : k = i
    · simp [hk, hi]
    · simp [hk]
  apart k hk hmem := by
    rw [Finset.mem_erase] at hmem
    rcases List.mem_cons.mp hk with rfl | hk
    · exact hmem.1 rfl
    · exact h.apart k hk hmem.2

/-- Without children and a mark, a node goes. -/
theorem Spelled.release (h : Spelled t S P place) (hv : v ∈ P) (hvc : v ++ [c] ∈ P) :
    Spelled (givenBack t (place (v ++ [c])) (place v) c.toNat) S (P.erase (v ++ [c])) place where
  root := h.root
  inj p hp q hq := h.inj p (Finset.mem_of_mem_erase hp) q (Finset.mem_of_mem_erase hq)
  child p hp d := by
    obtain ⟨hpu, hp⟩ := Finset.mem_erase.mp hp
    have hrow : place p ≠ place (v ++ [c]) := fun heq => hpu (h.inj p hp _ hvc heq)
    have hcell := lt_of_get (h.child v hv c)
    by_cases hpd : p = v ∧ d = c
    · obtain ⟨rfl, rfl⟩ := hpd
      rw [if_neg (Finset.notMem_erase _ P)]
      unfold givenBack
      dsimp only
      have hd := d.toNat_lt
      rw [Array.getElem?_setIfInBounds_ne (by omega)]
      exact Array.getElem?_setIfInBounds_self_of_lt hcell
    · have hother : p ++ [d] ≠ v ++ [c] := by
        intro heq
        obtain ⟨h₁, h₂⟩ := List.append_inj' heq rfl
        exact hpd ⟨h₁, List.singleton_inj.mp h₂⟩
      have hne : place p ≠ place v ∨ d.toNat ≠ c.toNat := by
        by_cases hd : d = c
        · exact Or.inl fun heq => hpd ⟨h.inj p hp v hv heq, hd⟩
        · exact Or.inr (byte_ne hd)
      rw [givenBack_child hrow hne d.toNat_lt c.toNat_lt, h.child p hp d,
        if_congr (Finset.mem_erase_of_ne_of_mem hother |> fun himp =>
          ⟨himp, Finset.mem_of_mem_erase⟩) rfl rfl]
  mark p hp := h.mark p (Finset.mem_of_mem_erase hp)

/-- A node with neither is givenBack. -/
theorem TrieHolds.release (h : TrieHolds t S (beginnings (insert (v ++ [c]) S)) place free)
    (hgone : v ++ [c] ∉ beginnings S) :
    t.unlink (place (v ++ [c])) (place v) c.toNat =
        .done (givenBack t (place (v ++ [c])) (place v) c.toNat) ∧
      TrieHolds (givenBack t (place (v ++ [c])) (place v) c.toNat) S (beginnings (insert v S)) place
        (place (v ++ [c]) :: free) := by
  have hvc : v ++ [c] ∈ beginnings (insert (v ++ [c]) S) := self_mem_beginnings_insert _ S
  have hv : v ∈ beginnings (insert (v ++ [c]) S) := beginnings_concat hvc
  have hne : place v ≠ place (v ++ [c]) := fun heq => by
    have := h.spelled.inj v hv _ hvc heq
    simp at this
  have hcell := lt_of_get (h.spelled.child v hv c)
  have hcell' := lt_of_get (h.spelled.child _ hvc 0)
  constructor
  · unfold Trie.unlink
    have hlt : place (v ++ [c]) * 256 + 0 <
        (t.children.setIfInBounds (place v * 256 + c.toNat) (some (-1))).size := by
      rw [Array.size_setIfInBounds]
      exact hcell'
    have hstore := storeChild hlt (Bst.toInt32 t.freeHead)
    rw [Int.natCast_zero] at hstore
    rw [storeChild hcell, Outcome.done_bind, hstore]
    rfl
  · rw [beginnings_insert_shorten hgone]
    refine ⟨h.spelled.release hv hvc, ?_, h.numWords, h.small⟩
    have himage : ((beginnings (insert (v ++ [c]) S)).erase (v ++ [c])).image place =
        ((beginnings (insert (v ++ [c]) S)).image place).erase (place (v ++ [c])) := by
      ext i
      simp only [Finset.mem_image, Finset.mem_erase]
      constructor
      · rintro ⟨p, ⟨hpu, hp⟩, rfl⟩
        exact ⟨fun heq => hpu (h.spelled.inj p hp _ hvc heq), p, hp, rfl⟩
      · rintro ⟨hi, p, hp, rfl⟩
        exact ⟨p, ⟨fun heq => hi (by rw [heq]), hp⟩, rfl⟩
    rw [himage]
    exact h.arena.release h.small (Finset.mem_image_of_mem place hvc)
      (Finset.mem_image_of_mem place hv) hne c.toNat_lt

/-- The way back up gives the nodes back that no word needs. -/
theorem holdsWords_climb {way : Trie.Way} (v : List UInt8) (hway : Along way place v)
    (h : TrieHolds t S (beginnings (insert v S)) place free) :
    ∃ t', Trie.climb way v.length t = .done t' ∧ HoldsWords t' S := by
  induction v using List.reverseRecOn generalizing t free with
  | nil =>
    rw [beginnings_insert_of_mem (nil_mem_beginnings S)] at h
    exact ⟨t, rfl, place, free, h⟩
  | append_singleton v c ih =>
    have hvc : v ++ [c] ∈ beginnings (insert (v ++ [c]) S) := self_mem_beginnings_insert _ S
    have hnode := hway.node (v ++ [c]) List.prefix_rfl
    have hparent := hway.node v (List.prefix_append v [c])
    have hch := hway.ch v c List.prefix_rfl
    have hroot : (place (v ++ [c]) : Int) ≠ 0 := by
      intro hzero
      have heq : place (v ++ [c]) = place [] := by rw [h.spelled.root]; omega
      have := h.spelled.inj _ hvc _ (nil_mem_beginnings _) heq
      simp at this
    have hstays : v ++ [c] ∈ beginnings S → HoldsWords t S := fun hmem => by
      rw [beginnings_insert_of_mem hmem] at h
      exact ⟨place, free, h⟩
    rw [List.length_append, List.length_singleton] at hnode ⊢
    rw [Trie.climb, load_of_get hnode, Outcome.done_bind, if_neg hroot,
      fetch_of_get (h.spelled.mark _ hvc), Outcome.done_bind]
    by_cases hend : v ++ [c] ∈ S
    · rw [if_pos (decide_eq_true hend)]
      exact ⟨t, rfl, hstays (subset_beginnings hend)⟩
    · rw [if_neg (by rw [decide_eq_false hend]; exact Bool.false_ne_true)]
      obtain ⟨hsome, hscan⟩ | ⟨hnone, hscan⟩ := h.spelled.hasChild hvc 256 le_rfl
      · rw [hscan, Outcome.done_bind, if_pos rfl]
        exact ⟨t, rfl, hstays (beginnings_of_needed (Or.inr hsome))⟩
      · have hgone : v ++ [c] ∉ beginnings S :=
          not_mem_beginnings (by simp) hend fun d => hnone d (by omega)
        obtain ⟨hunlink, hholds⟩ := h.release hgone
        rw [hscan, Outcome.done_bind, if_neg Bool.false_ne_true, load_of_get hparent,
          Outcome.done_bind, load_of_get hch, Outcome.done_bind, hunlink, Outcome.done_bind]
        have hway' : Along way place v :=
          ⟨fun p hp => hway.node p (hp.trans (List.prefix_append v [c])),
            fun p d hp => hway.ch p d (hp.trans (List.prefix_append v [c]))⟩
        exact ih hway' hholds

/-- A removal. -/
theorem holdsWords_delete (h : HoldsWords t S) (heap : Nat → Bool)
    (hsmall : w.length + 1 < 2 ^ 61) :
    (t.delete heap w).Returns (Trie.wayGranted heap w.length = false) fun x =>
      x.1 = decide (w ∈ S) ∧ HoldsWords x.2 (S.erase w) := by
  obtain ⟨place, free, hholds⟩ := h
  unfold Trie.delete
  by_cases hgranted : Trie.wayGranted heap w.length = true
  · rw [if_pos hgranted]
    have hnode : (Trie.newWay w.length).node.size = w.length + 1 := by
      unfold Trie.newWay
      rw [Array.size_replicate]
      omega
    have hch : w.length ≤ (Trie.newWay w.length).ch.size := by
      unfold Trie.newWay
      rw [Array.size_replicate]
      split <;> omega
    rw [Outcome.write_of_lt (by omega), Outcome.done_bind]
    have hstart : Along ⟨(Trie.newWay w.length).node.setIfInBounds 0 (some 0),
        (Trie.newWay w.length).ch⟩ place [] := by
      refine ⟨fun p hp => ?_, fun p d hp => ?_⟩
      · rw [List.prefix_nil.mp hp, hholds.spelled.root]
        exact Array.getElem?_setIfInBounds_self_of_lt (by omega)
      · simp at hp
    have hdescend := hholds.spelled.descend beginnings_append w (nil_mem_beginnings S)
      (by rw [Array.size_setIfInBounds, hnode, List.length_nil]; omega)
      (by rw [List.length_nil, Nat.zero_add]; exact hch) hstart
    rw [List.length_nil, hholds.spelled.root, List.nil_append, Int.natCast_zero] at hdescend
    have hkeeps : w ∉ S → HoldsWords t (S.erase w) := fun hmem => by
      rw [Finset.erase_eq_of_notMem hmem]
      exact ⟨place, free, hholds⟩
    obtain ⟨hnone, hrun⟩ | ⟨hsome, way, hway, hrun⟩ := hdescend
    · have hmem : w ∉ S := fun hmem => hnone (subset_beginnings hmem)
      rw [hrun, Outcome.done_bind]
      exact Outcome.Returns.of_done ⟨(decide_eq_false hmem).symm, hkeeps hmem⟩
    · have hmark := hholds.spelled.mark w hsome
      rw [hrun, Outcome.done_bind]
      dsimp only
      rw [fetch_of_get hmark, Outcome.done_bind]
      by_cases hmem : w ∈ S
      · rw [if_pos (decide_eq_true hmem), store_of_lt (lt_of_get hmark), Outcome.done_bind]
        have hset := hholds.spelled.setMark hsome (S.erase w) fun p hp => by
          rw [Finset.mem_erase, and_iff_right hp]
        rw [decide_eq_false (Finset.notMem_erase w S)] at hset
        have hcard := Finset.card_erase_add_one hmem
        obtain ⟨t', hclimb, hwords⟩ := holdsWords_climb (S := S.erase w)
          (t := { t with
            isEnd := t.isEnd.setIfInBounds (place w) (some false)
            numWords := t.numWords - 1 }) w hway (by
          rw [beginnings_insert_erase hmem]
          refine ⟨⟨hset.root, hset.inj, hset.child, hset.mark⟩,
            hholds.arena.storeMark (place w) false _, ?_, hholds.small⟩
          show t.numWords - 1 = _
          rw [hholds.numWords]
          omega)
        rw [hclimb, Outcome.done_bind]
        exact Outcome.Returns.of_done ⟨(decide_eq_true hmem).symm, hwords⟩
      · rw [if_neg (by rw [decide_eq_false hmem]; exact Bool.false_ne_true)]
        exact Outcome.Returns.of_done ⟨(decide_eq_false hmem).symm, hkeeps hmem⟩
  · rw [if_neg hgranted]
    exact Or.inl ⟨rfl, by simpa using hgranted⟩

/-! ## The arena as a whole -/

/-- An arena with the root alone holds no words. -/
theorem holdsWords_empty (harena : Arena t [] {0}) (hempty : EmptyRow t 0)
    (hwords : t.numWords = 0) : HoldsWords t ∅ := by
  have hone : t.numNodes = 1 := harena.count
  refine ⟨fun _ => 0, [], ⟨rfl, ?_, ?_, ?_⟩, ?_, hwords, by omega⟩
  · rw [beginnings_empty]
    intro p hp q hq _
    rw [Finset.mem_singleton.mp hp, Finset.mem_singleton.mp hq]
  · intro p _ c
    rw [if_neg (by simp [beginnings_empty])]
    exact hempty.child c.toNat c.toNat_lt
  · intro p _
    rw [decide_eq_false (Finset.notMem_empty p)]
    exact hempty.mark
  · rw [beginnings_empty, Finset.image_singleton]
    exact harena

/-- A new tree. -/
theorem holdsWords_new (heap : Nat → Bool) :
    (Trie.new heap).Returns (Trie.granted heap 8 = false) fun t => HoldsWords t ∅ := by
  have hdropped : Arena Trie.dropped [] ∅ :=
    ⟨⟨rfl, rfl⟩, le_rfl, rfl, List.nodup_nil, rfl, by simp [Trie.dropped], by simp⟩
  unfold Trie.new
  refine Outcome.Returns.bind ((hdropped.newNode heap).imp_reason fun href => href.2) ?_
  rintro ⟨_, t⟩ ⟨i, free, -, -, harena, hempty, -, hwords, -, hnodes⟩
  have hcount : t.numNodes = 1 + free.length := by
    have hcount := harena.count
    rwa [Finset.card_insert_of_notMem (Finset.notMem_empty i), Finset.card_empty] at hcount
  have hone : t.numNodes = 1 := by
    rcases hnodes with hzero | hone
    · have hzero' : t.numNodes = 0 := hzero
      omega
    · exact hone
  have hi : i = 0 := by
    have hlt : i < t.numNodes := (harena.nodes i).mpr (Or.inl (Finset.mem_insert_self i ∅))
    omega
  have hfree : free = [] := List.length_eq_zero_iff.mp (by omega)
  subst hi hfree
  exact Outcome.Returns.of_done (holdsWords_empty harena hempty hwords)

/-- Clearing leaves the root. -/
theorem holdsWords_clear (h : HoldsWords t S) :
    ∃ t', t.clear = .done ((S.card : Int), t') ∧ HoldsWords t' ∅ := by
  obtain ⟨place, free, hholds⟩ := h
  have hroot := hholds.place_lt (nil_mem_beginnings S)
  have hpos : 0 < t.capacity := by
    have hroom := hholds.arena.room
    omega
  obtain ⟨children, isEnd, hrun, hsized, hempty, -⟩ := clearNode_ok hholds.arena.sized hpos
  refine ⟨{ t with children, isEnd, numNodes := 1, numWords := 0, freeHead := -1, freeCount := 0 },
    ?_, holdsWords_empty ?_ ⟨hempty.child, hempty.mark⟩ rfl⟩
  · have hrun' : t.clearNode 0 = .done { t with children, isEnd } := hrun
    unfold Trie.clear
    rw [if_pos hpos, hrun', hholds.numWords]
    rfl
  · refine ⟨⟨hsized.children, hsized.isEnd⟩, hpos, rfl, List.nodup_nil, rfl, fun i => ?_, ?_⟩
    · show i < 1 ↔ _
      simp
    · exact fun i hi => absurd hi List.not_mem_nil

/-! ## What can be reached -/

/-- The nodes that can be reached from the root. -/
inductive TrieReachable (t : Trie) : Nat → Prop
  | root : TrieReachable t 0
  | child {i j : Nat} {c : UInt8} : TrieReachable t i →
      t.children[i * 256 + c.toNat]? = some (some (j : Int)) → TrieReachable t j

/-- The nodes on the list of free nodes. -/
inductive OnFreeList (t : Trie) : Nat → Prop
  | head {i : Nat} : t.freeHead = (i : Int) → OnFreeList t i
  | next {i j : Nat} : OnFreeList t i → t.children[i * 256 + 0]? = some (some (j : Int)) →
      OnFreeList t j

theorem FreeChain.head_mem {head : Int} (h : FreeChain t free head) (hi : head = (i : Int)) :
    i ∈ free := by
  cases free with
  | nil => exact absurd (hi.symm.trans h) slot_ne
  | cons k is =>
    have hki : (k : Int) = i := h.1.symm.trans hi
    rw [Int.ofNat_inj.mp hki]
    exact List.mem_cons_self

theorem FreeChain.next_mem {head : Int} (h : FreeChain t free head) (hi : i ∈ free)
    (hj : t.children[i * 256 + 0]? = some (some (j : Int))) : j ∈ free := by
  induction free generalizing head with
  | nil => exact absurd hi List.not_mem_nil
  | cons k is ih =>
    obtain ⟨-, next, hnext, h⟩ := h
    rcases List.mem_cons.mp hi with rfl | hi
    · have heq : next = j := Option.some.inj (Option.some.inj (hnext.symm.trans hj))
      exact List.mem_cons_of_mem _ (h.head_mem heq)
    · exact List.mem_cons_of_mem k (ih h hi)

theorem Arena.mem_free (h : Arena t free used) (hi : OnFreeList t i) : i ∈ free := by
  induction hi with
  | head hhead => exact h.chain.head_mem hhead
  | next _ hnext ih => exact h.chain.next_mem ih hnext

/-- What can be reached are the places of the beginnings. -/
theorem TrieHolds.reachable_iff (h : TrieHolds t S (beginnings S) place free) :
    TrieReachable t i ↔ i ∈ (beginnings S).image place := by
  constructor
  · intro hi
    induction hi with
    | root => exact Finset.mem_image.mpr ⟨[], nil_mem_beginnings S, h.spelled.root⟩
    | @child i j c _ hcell ih =>
      obtain ⟨p, hp, rfl⟩ := Finset.mem_image.mp ih
      have heq := Option.some.inj (Option.some.inj ((h.spelled.child p hp c).symm.trans hcell))
      by_cases hpc : p ++ [c] ∈ beginnings S
      · rw [if_pos hpc] at heq
        exact Finset.mem_image.mpr ⟨_, hpc, Int.ofNat_inj.mp heq⟩
      · rw [if_neg hpc] at heq
        exact absurd heq.symm slot_ne
  · intro hi
    obtain ⟨p, hp, rfl⟩ := Finset.mem_image.mp hi
    clear hi
    induction p using List.reverseRecOn with
    | nil =>
      rw [h.spelled.root]
      exact .root
    | append_singleton p c ih =>
      have hchild := h.spelled.child p (beginnings_concat hp) c
      rw [if_pos hp] at hchild
      exact .child (ih (beginnings_concat hp)) hchild

/-- No free node can be reached, and the nodes that can be reached are counted. -/
structure FreeApart (t : Trie) : Prop where
  apart : ∀ i, OnFreeList t i → ¬ TrieReachable t i
  count : t.nodeCount = ({i | TrieReachable t i} : Set Nat).ncard

theorem HoldsWords.freeApart (h : HoldsWords t S) : FreeApart t := by
  have hcount := holdsWords_nodeCount h
  obtain ⟨place, free, hholds⟩ := h
  refine ⟨fun i hfree hreach => ?_, ?_⟩
  · exact hholds.arena.apart i (hholds.arena.mem_free hfree) (hholds.reachable_iff.mp hreach)
  · have hset : ({i | TrieReachable t i} : Set Nat) =
        ((beginnings S).image place : Finset Nat) := by
      ext i
      exact hholds.reachable_iff
    rw [hcount, hset, Set.ncard_coe_finset, hholds.card_used]

/-! ## Sequences of operations -/

/-- The operations on a finite set of words. -/
def wordsSpec : Finset (List UInt8) → TrieOp × (Nat → Bool) →
    Option (TrieResult × Finset (List UInt8))
  | S, (.insert s, _) => some (.bool (s.bytes ∉ S), insert s.bytes S)
  | S, (.contains s, _) => some (.bool (s.bytes ∈ S), S)
  | S, (.startsWith s, _) => some (.bool (s.bytes = [] ∨ ∃ w ∈ S, s.bytes <+: w), S)
  | S, (.delete s, _) => some (.bool (s.bytes ∈ S), S.erase s.bytes)
  | S, (.len, _) => some (.int S.card, S)
  | S, (.nodeCount, _) =>
    some (.int (((S.biUnion fun w => w.inits.toFinset).erase []).card + 1), S)
  | S, (.clear, _) => some (.int S.card, ∅)

/-- The tree of an insertion has at most `2^31` nodes, and the way of a removal has a size. -/
def WordFits (S : Finset (List UInt8)) : TrieOp × (Nat → Bool) → Prop
  | (.insert s, _) => (beginnings (insert s.bytes S)).card ≤ 2 ^ 31
  | (.delete s, _) => s.bytes.length + 1 < 2 ^ 61
  | _ => True

theorem step_trie (t : Trie) (S : Finset (List UInt8)) (i : TrieOp × (Nat → Bool))
    (h : HoldsWords t S) (hok : WordFits S i) :
    StepRefines Trie.step wordsSpec Trie.refused HoldsWords t S i := by
  obtain ⟨op, heap⟩ := i
  cases op with
  | insert s =>
    obtain ⟨hrun, href⟩ | ⟨⟨r, t'⟩, hrun, hr, hwords⟩ := holdsWords_insert h heap hok
    · obtain ⟨n, hn, -, hgranted⟩ := href
      exact stepRefines_refused (by simp only [Trie.step, hrun, Outcome.aborted_bind])
        ⟨n, hn, hgranted⟩
    · obtain rfl : r = _ := hr
      exact stepRefines_done (by simp only [Trie.step, hrun, Outcome.done_bind, Outcome.pure_eq])
        rfl hwords
  | contains s =>
    exact stepRefines_done (by
      simp only [Trie.step, holdsWords_contains h, Outcome.done_bind, Outcome.pure_eq]) rfl h
  | startsWith s =>
    have hiff : decide (s.bytes ∈ beginnings S) =
        decide (s.bytes = [] ∨ ∃ w ∈ S, s.bytes <+: w) := decide_eq_decide.mpr mem_beginnings
    exact stepRefines_done (by
      simp only [Trie.step, holdsWords_startsWith h, hiff, Outcome.done_bind,
        Outcome.pure_eq]) rfl h
  | delete s =>
    obtain ⟨hrun, href⟩ | ⟨⟨r, t'⟩, hrun, hr, hwords⟩ := holdsWords_delete h heap hok
    · exact stepRefines_refused (by simp only [Trie.step, hrun, Outcome.aborted_bind]) href
    · obtain rfl : r = _ := hr
      exact stepRefines_done (by simp only [Trie.step, hrun, Outcome.done_bind, Outcome.pure_eq])
        rfl hwords
  | len =>
    have hwords : t.numWords = S.card := by
      obtain ⟨place, free, hholds⟩ := h
      exact hholds.numWords
    exact stepRefines_done (by simp only [Trie.step, hwords, Outcome.pure_eq]) rfl h
  | nodeCount =>
    have hcount := holdsWords_nodeCount h
    rw [card_beginnings, Nat.cast_add, Nat.cast_one] at hcount
    exact stepRefines_done (by simp only [Trie.step, hcount, Outcome.pure_eq]) rfl h
  | clear =>
    obtain ⟨t', hrun, hwords⟩ := holdsWords_clear h
    exact stepRefines_done (by simp only [Trie.step, hrun, Outcome.done_bind, Outcome.pure_eq])
      rfl hwords

/-- The word `a`. -/
def oneLetter : CText := ⟨[97], by decide⟩

/-- A word in, asked for and out again. -/
def oneWord : List (TrieOp × (Nat → Bool)) :=
  [(.insert oneLetter, fun _ => true), (.startsWith oneLetter, fun _ => true),
    (.delete oneLetter, fun _ => true), (.nodeCount, fun _ => true)]

/-- The way along a word whose cells are there. -/
theorem walk_along (hroot : place [] = 0) (s : List UInt8) (v : List UInt8)
    (hcells : ∀ (p : List UInt8) (d : UInt8), p ++ [d] <+: v →
      t.children[place p * 256 + d.toNat]? = some (some (place (p ++ [d]) : Int))) :
    t.walk (v ++ s) 0 = t.walk s (place v) := by
  induction v using List.reverseRecOn generalizing s with
  | nil =>
    rw [hroot]
    rfl
  | append_singleton v c ih =>
    have hshorter := ih (c :: s) fun p d hp => hcells p d (hp.trans (List.prefix_append v [c]))
    rw [List.append_assoc, List.singleton_append, hshorter, Trie.walk,
      fetchChild (hcells v c List.prefix_rfl), Outcome.done_bind, if_neg slot_ne]

theorem insertLoop_append (heap : Nat → Bool) (s : List UInt8) (c : UInt8) (x : Int × Trie) :
    Trie.insertLoop heap (s ++ [c]) x = (do
      let x ← Trie.insertLoop heap s x
      Trie.insertTurn heap c x) := by
  induction s generalizing x with
  | nil =>
    rw [List.nil_append, Trie.insertLoop, Trie.insertLoop, Outcome.pure_eq, Outcome.done_bind]
    cases Trie.insertTurn heap c x <;> rfl
  | cons d s ih =>
    rw [List.cons_append, Trie.insertLoop, Trie.insertLoop, Outcome.bind_bind]
    congr 1
    funext y
    exact ih y

theorem letterRun_noNul (n : Nat) : (0 : UInt8) ∉ List.replicate n 97 :=
  fun h => absurd (List.eq_of_mem_replicate h) (by decide)

/-- So many letters `a`. -/
def letterRun (n : Nat) : CText := ⟨List.replicate n 97, letterRun_noNul n⟩

/-- With `2^31` nodes in use the next is the node `2^31`. -/
theorem next_node (h : TrieHolds t S P place free) (hcard : P.card = 2 ^ 31) :
    ∃ t', t.newNode (fun _ => true) = .done (((2 ^ 31 : Nat) : Int), t') ∧ EmptyRow t' (2 ^ 31) ∧
      ∀ p ∈ P, SameRow t t' (place p) := by
  have hused := h.card_used
  have hcount := h.arena.count
  have hsmall := h.small
  have hfree : free = [] := List.length_eq_zero_iff.mp (by omega)
  obtain ⟨-, href⟩ | ⟨⟨_, t'⟩, hrun, i, free', rfl, hunused, harena, hempty, hrows, -, -, hnodes⟩ :=
    h.arena.newNode fun _ => true
  · exact absurd (href.larger le_rfl hsmall) (not_largerRefused t)
  · have hlt : i < t'.numNodes := (harena.nodes i).mpr (Or.inl (Finset.mem_insert_self i _))
    have hge : t.numNodes ≤ i := by
      by_contra hlt'
      rcases (h.arena.nodes i).mp (by omega) with hmem | hmem
      · exact hunused hmem
      · rw [hfree] at hmem
        exact absurd hmem List.not_mem_nil
    have hnumNodes : t'.numNodes ≤ 2 ^ 31 + 1 := by
      rcases hnodes with hnodes | hnodes
      · have heq : t'.numNodes = t.numNodes := hnodes
        omega
      · have heq : t'.numNodes = (P.image place).card + 1 := hnodes
        omega
    have hi : i = 2 ^ 31 := by omega
    subst hi
    exact ⟨t', hrun, hempty, fun p hp => hrows _ (Finset.mem_image_of_mem place hp)⟩

/-- The node is stored with its parent as a negative number, and the way along the word that
got it leads out of the arena. -/
theorem lost_node {t₁ t₂ : Trie} (h : TrieHolds t S P place free)
    (hrows : ∀ p ∈ P, SameRow t t₁ (place p)) (hv : ∀ p, p <+: v → p ∈ P)
    (hchildren : t₂.children =
      t₁.children.setIfInBounds (place v * 256 + c.toNat) (some (-2 ^ 31))) :
    t₂.contains (v ++ [c]) = .stuck := by
  have hself := hv v List.prefix_rfl
  have hspelled := h.spelled.frame hrows
  have hlt := lt_of_get (hspelled.child v hself c)
  have hwalk : t₂.walk (v ++ [c]) 0 = .done (-2 ^ 31) := by
    rw [walk_along h.spelled.root [c] v]
    · have hlast : t₂.children[place v * 256 + c.toNat]? = some (some (-2 ^ 31)) := by
        rw [hchildren]
        exact Array.getElem?_setIfInBounds_self_of_lt hlt
      rw [Trie.walk, fetchChild hlast]
      rfl
    · intro p d hp
      have hpP := hv p ((List.prefix_append p [d]).trans hp)
      have hne : place p ≠ place v := fun heq => by
        have hle := hp.length_le
        rw [h.spelled.inj p hpP v hself heq, List.length_append, List.length_singleton] at hle
        omega
      have hd := d.toNat_lt
      have hc := c.toNat_lt
      rw [hchildren, Array.getElem?_setIfInBounds_ne (by omega), hspelled.child p hpP d,
        if_pos (hv _ hp)]
  unfold Trie.contains
  rw [hwalk]
  rfl

/-- The word of `2^31` letters is put into a new tree and asked for. -/
def longWord : List (TrieOp × (Nat → Bool)) :=
  [(.insert (letterRun (2 ^ 31)), fun _ => true), (.contains (letterRun (2 ^ 31)), fun _ => true)]

end Vani.Analysis
