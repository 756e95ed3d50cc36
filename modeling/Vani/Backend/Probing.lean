import Vani.Library.Outcome
import Vani.Library.OpenAddressing
import Vani.Library.CInteger
import Mathlib.Data.Nat.Bitwise

/-!
# The probe loops of the emitted hash tables

The emitted `HashSet<i64>` and `HashMap<i64, i64>` use the same three loops over an array
of slot states and an array of keys. Each goes round the table from the slot of the key's
hash, and nothing it reads changes on the way, so a loop that has not left after as many
turns as there are slots never leaves.
-/

set_option autoImplicit false

namespace Vani.Backend

open Vani.Library Vani.Library.Table

/-- The states of a slot: 0, 1 and 2 in the `occ` bytes.
Source: backend_c.rs:954-962 -/
inductive Occ
  | empty
  | occupied
  | tombstone
  deriving DecidableEq, Inhabited

/-- FNV-1a over the bytes of the key. Source: backend_c.rs:977-987, 1173-1182 -/
def hashKey (k : Int64) : UInt64 :=
  (List.range 8).foldl
    (fun h i => (h ^^^ ((k.toUInt64 >>> UInt64.ofNat (i * 8)) &&& 0xff)) * 0x100000001b3)
    0xcbf29ce484222325

/-- The hash as a number. -/
def hashOf (k : Int64) : Nat := (hashKey k).toNat

/-- The loop of a search: the slot of the key, or `none` at an empty slot.
Source: backend_c.rs:1037-1047, 1055-1064, 1204-1213, 1239-1247, 1277-1291 -/
def searchLoop (occ : Array Occ) (keys : Array Int64) (capacity : Nat) (k : Int64) :
    Outcome (Option Nat) :=
  Outcome.loop
    (fun i => do
      match ← Outcome.read occ i with
      | .empty => pure (.inr none)
      | .occupied =>
        if (← Outcome.read keys i) = k then pure (.inr (some i))
        else pure (.inl ((i + 1) &&& (capacity - 1)))
      | .tombstone => pure (.inl ((i + 1) &&& (capacity - 1))))
    capacity (hashOf k &&& (capacity - 1))

/-- Where an insertion's loop leaves: at the key, or at an empty slot with the first
tombstone passed, if any. -/
inductive Landing
  | found (i : Nat)
  | free (i : Nat) (firstTomb : Option Nat)
  deriving DecidableEq

/-- The slot a new key goes to. -/
def Landing.slot (i : Nat) (firstTomb : Option Nat) : Nat := firstTomb.getD i

/-- The loop of an insertion. Source: backend_c.rs:1015-1027, 1251-1266 -/
def insertLoop (occ : Array Occ) (keys : Array Int64) (capacity : Nat) (k : Int64) :
    Outcome Landing :=
  Outcome.loop
    (fun (i, firstTomb) => do
      match ← Outcome.read occ i with
      | .empty => pure (.inr (.free i firstTomb))
      | .occupied =>
        if (← Outcome.read keys i) = k then pure (.inr (.found i))
        else pure (.inl ((i + 1) &&& (capacity - 1), firstTomb))
      | .tombstone => pure (.inl ((i + 1) &&& (capacity - 1), firstTomb.or (some i))))
    capacity (hashOf k &&& (capacity - 1), none)

/-- The loop of a rehash. Source: backend_c.rs:988-995, 1183-1193 -/
def rehashLoop (occ : Array Occ) (capacity : Nat) (k : Int64) : Outcome Nat :=
  Outcome.loop
    (fun i => do
      if (← Outcome.read occ i) = .occupied then pure (.inl ((i + 1) &&& (capacity - 1)))
      else pure (.inr i))
    capacity (hashOf k &&& (capacity - 1))

/-! ## The arrays as a table -/

section View

variable {E : Type} {key : E → Int64}

/-- The slots the arrays stand for; `entry` is what the other arrays hold at an index. -/
def view (occ : Array Occ) (entry : Nat → E) (i : Nat) : Slot E :=
  match occ[i]? with
  | some .occupied => .full (entry i)
  | some .tombstone => .tombstone
  | _ => .empty

theorem view_full_iff {occ : Array Occ} {entry : Nat → E} {i : Nat} {e : E} :
    view occ entry i = .full e ↔ occ[i]? = some .occupied ∧ entry i = e := by
  unfold view
  cases occ[i]? with
  | none => simp
  | some o => cases o <;> simp

theorem view_tombstone_iff {occ : Array Occ} {entry : Nat → E} {i : Nat} :
    view occ entry i = .tombstone ↔ occ[i]? = some .tombstone := by
  unfold view
  cases occ[i]? with
  | none => simp
  | some o => cases o <;> simp

theorem view_empty_iff {occ : Array Occ} {entry : Nat → E} {i : Nat} (hi : i < occ.size) :
    view occ entry i = .empty ↔ occ[i]? = some .empty := by
  unfold view
  rw [Array.getElem?_eq_getElem hi]
  cases occ[i] <;> simp

theorem view_new (n : Nat) (entry : Nat → E) :
    view (Array.replicate n .empty) entry = fun _ => .empty := by
  funext i
  unfold view
  rw [Array.getElem?_replicate]
  by_cases hi : i < n <;> simp [hi]

/-- Filling a slot. -/
theorem view_fill {occ : Array Occ} {entry entry' : Nat → E} {i : Nat} (hi : i < occ.size)
    (hother : ∀ j, j ≠ i → entry' j = entry j) :
    view (occ.setIfInBounds i .occupied) entry' =
      Function.update (view occ entry) i (.full (entry' i)) := by
  funext j
  by_cases hj : j = i
  · subst hj
    rw [Function.update_self]
    exact view_full_iff.mpr ⟨Array.getElem?_setIfInBounds_self_of_lt hi, rfl⟩
  · rw [Function.update_of_ne hj]
    unfold view
    rw [Array.getElem?_setIfInBounds_ne (Ne.symm hj), hother j hj]

/-- Turning a slot into a tombstone. -/
theorem view_bury {occ : Array Occ} (entry : Nat → E) {i : Nat} (hi : i < occ.size) :
    view (occ.setIfInBounds i .tombstone) entry =
      Function.update (view occ entry) i .tombstone := by
  funext j
  by_cases hj : j = i
  · subst hj
    rw [Function.update_self]
    exact view_tombstone_iff.mpr (Array.getElem?_setIfInBounds_self_of_lt hi)
  · rw [Function.update_of_ne hj]
    unfold view
    rw [Array.getElem?_setIfInBounds_ne (Ne.symm hj)]

end View

/-! ## Where the loops leave -/

section Loops

variable {E : Type} {key : E → Int64} {occ : Array Occ} {keys : Array Int64} {entry : Nat → E}
  {n d : Nat} {k : Int64}

/-- The arrays have `n` slots, a power of two, and `keys` holds the entries' keys. -/
structure Shape (key : E → Int64) (occ : Array Occ) (keys : Array Int64) (entry : Nat → E)
    (n : Nat) : Prop where
  occ_size : occ.size = n
  keys_size : keys.size = n
  power : ∃ e, n = 2 ^ e
  key_eq : ∀ i, i < n → keys[i]? = some (key (entry i))

theorem Shape.pos (h : Shape key occ keys entry n) : 0 < n := by
  obtain ⟨e, rfl⟩ := h.power
  exact Nat.two_pow_pos e

/-- `& mask` is the remainder by the number of slots. -/
theorem Shape.mask (h : Shape key occ keys entry n) (i : Nat) : i &&& (n - 1) = i % n := by
  obtain ⟨e, rfl⟩ := h.power
  exact Nat.and_two_pow_sub_one_eq_mod i e

theorem Shape.start (h : Shape key occ keys entry n) (i : Nat) : i &&& (n - 1) = probe n i 0 :=
  h.mask i

theorem Shape.next (h : Shape key occ keys entry n) (i j : Nat) :
    (probe n i j + 1) &&& (n - 1) = probe n i (j + 1) := by
  rw [h.mask, probe_succ]

theorem Shape.read_key (h : Shape key occ keys entry n) {i : Nat} (hi : i < n) :
    Outcome.read keys i = .done (key (entry i)) := by
  unfold Outcome.read
  rw [h.key_eq i hi]

theorem Shape.read_occ (h : Shape key occ keys entry n) {i : Nat} (hi : i < n) :
    ∃ x, Outcome.read occ i = .done x ∧ occ[i]? = some x := by
  have hi' : i < occ.size := h.occ_size ▸ hi
  exact ⟨occ[i], Outcome.read_of_lt hi', Array.getElem?_eq_getElem hi'⟩

/-- What an index reads as, by the slot it stands for. -/
theorem Shape.read_cases (h : Shape key occ keys entry n) {i : Nat} (hi : i < n) :
    view occ entry i = .empty ∧ Outcome.read occ i = .done .empty ∨
    view occ entry i = .tombstone ∧ Outcome.read occ i = .done .tombstone ∨
    view occ entry i = .full (entry i) ∧ Outcome.read occ i = .done .occupied := by
  obtain ⟨x, hread, hget⟩ := h.read_occ hi
  have hi' : i < occ.size := h.occ_size ▸ hi
  cases x with
  | empty => exact Or.inl ⟨(view_empty_iff hi').mpr hget, hread⟩
  | tombstone => exact Or.inr (Or.inl ⟨view_tombstone_iff.mpr hget, hread⟩)
  | occupied => exact Or.inr (Or.inr ⟨view_full_iff.mpr ⟨hget, rfl⟩, hread⟩)

/-- A key is written into a slot. -/
theorem Shape.fill {k : Int64} {slot : Nat} {entry' : Nat → E}
    (h : Shape key occ keys entry n) (hslot : slot < n)
    (hother : ∀ j, j ≠ slot → entry' j = entry j) (hkey : key (entry' slot) = k) :
    Shape key (occ.setIfInBounds slot .occupied) (keys.setIfInBounds slot k) entry' n where
  occ_size := by rw [Array.size_setIfInBounds, h.occ_size]
  keys_size := by rw [Array.size_setIfInBounds, h.keys_size]
  power := h.power
  key_eq i hi := by
    by_cases hne : i = slot
    · subst hne
      rw [Array.getElem?_setIfInBounds_self_of_lt (h.keys_size ▸ hi), hkey]
    · rw [Array.getElem?_setIfInBounds_ne (Ne.symm hne), hother i hne, h.key_eq i hi]

theorem searchLoop_of_end (h : Shape key occ keys entry n) {r : Option Nat} (hd : d < n)
    (hpass : Passes key hashOf n (view occ entry) k d)
    (hend : view occ entry (probe n (hashOf k) d) = .empty ∧ r = none ∨
      (∃ e, view occ entry (probe n (hashOf k) d) = .full e ∧ key e = k) ∧
        r = some (probe n (hashOf k) d)) :
    searchLoop occ keys n k = .done r := by
  unfold searchLoop
  rw [h.start]
  refine Outcome.loop_of_path (fun j => probe n (hashOf k) j) hd ?_ ?_
  · intro j hj
    have hlt := probe_lt h.pos (hashOf k) j
    obtain ⟨hne, hkey⟩ := hpass j hj
    rcases h.read_cases hlt with ⟨hv, -⟩ | ⟨-, hread⟩ | ⟨hv, hread⟩
    · exact absurd hv hne
    · simp only [hread, Outcome.done_bind, h.next, Outcome.pure_eq]
    · simp only [hread, Outcome.done_bind, h.read_key hlt, if_neg (hkey _ hv), h.next,
        Outcome.pure_eq]
  · have hlt := probe_lt h.pos (hashOf k) d
    rcases h.read_cases hlt with ⟨hv, hread⟩ | ⟨hv, -⟩ | ⟨hv, hread⟩
    · rcases hend with ⟨-, rfl⟩ | ⟨⟨e, he, -⟩, -⟩
      · simp only [hread, Outcome.done_bind, Outcome.pure_eq]
      · rw [hv] at he
        cases he
    · rcases hend with ⟨he, -⟩ | ⟨⟨e, he, -⟩, -⟩ <;> (rw [hv] at he; cases he)
    · rcases hend with ⟨he, -⟩ | ⟨⟨e, he, hk⟩, rfl⟩
      · rw [hv] at he
        cases he
      · rw [hv] at he
        cases he
        simp only [hread, Outcome.done_bind, h.read_key hlt, if_pos hk, Outcome.pure_eq]

/-- The first tombstone among the first `j` slots looked at. -/
def firstTomb (occ : Array Occ) (n h : Nat) : Nat → Option Nat
  | 0 => none
  | j + 1 =>
    if occ[probe n h j]? = some .tombstone then (firstTomb occ n h j).or (some (probe n h j))
    else firstTomb occ n h j

theorem firstTomb_some {h i j : Nat} (hfirst : firstTomb occ n h j = some i) :
    ∃ j', j' < j ∧ probe n h j' = i ∧ occ[i]? = some .tombstone := by
  induction j with
  | zero => cases hfirst
  | succ j ih =>
    unfold firstTomb at hfirst
    split at hfirst
    · next ht =>
      cases hprev : firstTomb occ n h j with
      | none =>
        rw [hprev] at hfirst
        cases hfirst
        exact ⟨j, Nat.lt_succ_self j, rfl, ht⟩
      | some i' =>
        rw [hprev] at hfirst
        cases hfirst
        obtain ⟨j', hj', hp, hocc⟩ := ih hprev
        exact ⟨j', by omega, hp, hocc⟩
    · obtain ⟨j', hj', hp, hocc⟩ := ih hfirst
      exact ⟨j', by omega, hp, hocc⟩

theorem insertLoop_of_end (h : Shape key occ keys entry n) {r : Landing} (hd : d < n)
    (hpass : Passes key hashOf n (view occ entry) k d)
    (hend : view occ entry (probe n (hashOf k) d) = .empty ∧
        r = .free (probe n (hashOf k) d) (firstTomb occ n (hashOf k) d) ∨
      (∃ e, view occ entry (probe n (hashOf k) d) = .full e ∧ key e = k) ∧
        r = .found (probe n (hashOf k) d)) :
    insertLoop occ keys n k = .done r := by
  unfold insertLoop
  rw [h.start]
  refine Outcome.loop_of_path
    (fun j => (probe n (hashOf k) j, firstTomb occ n (hashOf k) j)) hd ?_ ?_
  · intro j hj
    have hlt := probe_lt h.pos (hashOf k) j
    obtain ⟨hne, hkey⟩ := hpass j hj
    rcases h.read_cases hlt with ⟨hv, -⟩ | ⟨hv, hread⟩ | ⟨hv, hread⟩
    · exact absurd hv hne
    · have hocc := view_tombstone_iff.mp hv
      simp only [hread, Outcome.done_bind, h.next, Outcome.pure_eq, firstTomb, if_pos hocc]
    · have hocc : occ[probe n (hashOf k) j]? ≠ some .tombstone := by
        rw [(view_full_iff.mp hv).1]
        exact nofun
      simp only [hread, Outcome.done_bind, h.read_key hlt, if_neg (hkey _ hv), h.next,
        Outcome.pure_eq, firstTomb, if_neg hocc]
  · have hlt := probe_lt h.pos (hashOf k) d
    rcases h.read_cases hlt with ⟨hv, hread⟩ | ⟨hv, -⟩ | ⟨hv, hread⟩
    · rcases hend with ⟨-, rfl⟩ | ⟨⟨e, he, -⟩, -⟩
      · simp only [hread, Outcome.done_bind, Outcome.pure_eq]
      · rw [hv] at he
        cases he
    · rcases hend with ⟨he, -⟩ | ⟨⟨e, he, -⟩, -⟩ <;> (rw [hv] at he; cases he)
    · rcases hend with ⟨he, -⟩ | ⟨⟨e, he, hk⟩, rfl⟩
      · rw [hv] at he
        cases he
      · rw [hv] at he
        cases he
        simp only [hread, Outcome.done_bind, h.read_key hlt, if_pos hk, Outcome.pure_eq]

theorem rehashLoop_of_end (h : Shape key occ keys entry n) (hd : d < n)
    (hfresh : ∀ i, view occ entry i ≠ .tombstone)
    (hpass : Passes key hashOf n (view occ entry) k d)
    (hend : view occ entry (probe n (hashOf k) d) = .empty) :
    rehashLoop occ n k = .done (probe n (hashOf k) d) := by
  unfold rehashLoop
  rw [h.start]
  refine Outcome.loop_of_path (fun j => probe n (hashOf k) j) hd ?_ ?_
  · intro j hj
    have hlt := probe_lt h.pos (hashOf k) j
    rcases h.read_cases hlt with ⟨hv, -⟩ | ⟨hv, -⟩ | ⟨-, hread⟩
    · exact absurd hv (hpass j hj).1
    · exact absurd hv (hfresh _)
    · simp only [hread, Outcome.done_bind, if_true, h.next, Outcome.pure_eq]
  · have hlt := probe_lt h.pos (hashOf k) d
    rcases h.read_cases hlt with ⟨-, hread⟩ | ⟨hv, -⟩ | ⟨hv, -⟩
    · simp only [hread, Outcome.done_bind, reduceCtorEq, if_false, Outcome.pure_eq]
    · exact absurd hv (hfresh _)
    · rw [hend] at hv
      cases hv

end Loops

end Vani.Backend
