import Vani.Backend.HashTables
import Mathlib.Data.Finmap

/-!
# The emitted hash tables refine sets and maps

The invariant `Ok` says that the arrays stand for a sound table, that the counters count
its slots and that at most half of the slots hold a key or a tombstone, which leaves every
search an empty slot to end at. Each loop's result, each way of writing a slot and the
rehash are settled once for both tables; the set and the map then follow operation by
operation.
-/

set_option autoImplicit false

namespace Vani.Analysis

open Vani.Library Vani.Library.Table Vani.Backend

section Shared

variable {E : Type} {key : E → Int64} {occ : Array Occ} {keys : Array Int64} {entry : Nat → E}
  {n len tombs : Nat}

/-- The arrays are a sound table of `n` slots with room, and the counters are right. -/
structure Ok (key : E → Int64) (occ : Array Occ) (keys : Array Int64) (entry : Nat → E)
    (n len tombs : Nat) : Prop extends Shape key occ keys entry n where
  even : n % 2 = 0
  bytes : n * 8 < 2 ^ 63
  sound : Sound key hashOf n (view occ entry)
  len_eq : len = count Slot.isFull n (view occ entry)
  tombs_eq : tombs = count Slot.isTombstone n (view occ entry)
  load : (len + tombs) * 2 ≤ n

theorem Ok.room (h : Ok key occ keys entry n len tombs) :
    ∃ i, i < n ∧ view occ entry i = .empty := by
  have hload := h.load
  have hpos := h.pos
  apply exists_empty
  rw [← h.len_eq, ← h.tombs_eq]
  omega

/-- The way from an absent key's hash ends at an empty slot. -/
theorem Ok.miss {k : Int64} (h : Ok key occ keys entry n len tombs)
    (hk : ∀ e, e ∈ content n (view occ entry) → key e ≠ k) :
    ∃ d, d < n ∧ view occ entry (probe n (hashOf k) d) = .empty ∧
      Passes key hashOf n (view occ entry) k d :=
  Table.miss hk h.room

/-- A search finds the key's slot, or finds that no entry has the key. -/
theorem Ok.search (h : Ok key occ keys entry n len tombs) (k : Int64) :
    (∃ i e, i < n ∧ view occ entry i = .full e ∧ key e = k ∧
        searchLoop occ keys n k = .done (some i)) ∨
      (∀ e, e ∈ content n (view occ entry) → key e ≠ k) ∧
        searchLoop occ keys n k = .done none := by
  by_cases hk : ∃ e, e ∈ content n (view occ entry) ∧ key e = k
  · obtain ⟨e, ⟨i, hi, ht⟩, rfl⟩ := hk
    obtain ⟨d, hd, rfl, hpass⟩ := h.sound.hit hi ht
    exact Or.inl ⟨_, e, hi, ht, rfl,
      searchLoop_of_end h.toShape hd hpass (Or.inr ⟨⟨e, ht, rfl⟩, rfl⟩)⟩
  · have hk' : ∀ e, e ∈ content n (view occ entry) → key e ≠ k :=
      fun e he hkey => hk ⟨e, he, hkey⟩
    obtain ⟨d, hd, hempty, hpass⟩ := h.miss hk'
    exact Or.inr ⟨hk', searchLoop_of_end h.toShape hd hpass (Or.inl ⟨hempty, rfl⟩)⟩

/-- A slot a new key may take: on the key's way, and without an entry. -/
def Free (occ : Array Occ) (entry : Nat → E) (n : Nat) (k : Int64)
    (slot : Nat) : Prop :=
  slot < n ∧ (∀ e, view occ entry slot ≠ .full e) ∧
    ∃ d, probe n (hashOf k) d = slot ∧
      ∀ j, j < d → view occ entry (probe n (hashOf k) j) ≠ .empty

/-- An insertion finds the key's slot, or a slot for it. -/
theorem Ok.landing (h : Ok key occ keys entry n len tombs) (k : Int64) :
    (∃ i e, i < n ∧ view occ entry i = .full e ∧ key e = k ∧
        insertLoop occ keys n k = .done (.found i)) ∨
      (∀ e, e ∈ content n (view occ entry) → key e ≠ k) ∧
        ∃ i, (insertLoop occ keys n k = .done (.free i none) ∧ Free occ entry n k i ∧
            view occ entry i = .empty) ∨
          ∃ slot, insertLoop occ keys n k = .done (.free i (some slot)) ∧
            Free occ entry n k slot ∧ view occ entry slot = .tombstone := by
  by_cases hk : ∃ e, e ∈ content n (view occ entry) ∧ key e = k
  · obtain ⟨e, ⟨i, hi, ht⟩, rfl⟩ := hk
    obtain ⟨d, hd, rfl, hpass⟩ := h.sound.hit hi ht
    exact Or.inl ⟨_, e, hi, ht, rfl,
      insertLoop_of_end h.toShape hd hpass (Or.inr ⟨⟨e, ht, rfl⟩, rfl⟩)⟩
  · have hk' : ∀ e, e ∈ content n (view occ entry) → key e ≠ k :=
      fun e he hkey => hk ⟨e, he, hkey⟩
    obtain ⟨d, hd, hempty, hpass⟩ := h.miss hk'
    have hloop := insertLoop_of_end h.toShape hd hpass (Or.inl ⟨hempty, rfl⟩)
    refine Or.inr ⟨hk', probe n (hashOf k) d, ?_⟩
    cases hfirst : firstTomb occ n (hashOf k) d with
    | none =>
      rw [hfirst] at hloop
      refine Or.inl ⟨hloop, ⟨probe_lt h.pos _ _, ?_, d, rfl, fun j hj => (hpass j hj).1⟩,
        hempty⟩
      rw [hempty]
      exact fun e => nofun
    | some slot =>
      rw [hfirst] at hloop
      obtain ⟨j, hj, rfl, hocc⟩ := firstTomb_some hfirst
      have htomb : view occ entry (probe n (hashOf k) j) = .tombstone :=
        view_tombstone_iff.mpr hocc
      refine Or.inr ⟨_, hloop, ⟨probe_lt h.pos _ _, ?_, j, rfl,
        fun j' hj' => (hpass j' (by omega)).1⟩, htomb⟩
      rw [htomb]
      exact fun e => nofun

/-! ## Writing one slot -/

/-- A new key goes into a free slot. -/
theorem Ok.fill {k : Int64} {slot : Nat} {entry' : Nat → E}
    (h : Ok key occ keys entry n len tombs) (hroom : (len + tombs) * 2 < n)
    (hnew : ∀ e, e ∈ content n (view occ entry) → key e ≠ k)
    (hfree : Free occ entry n k slot) (hother : ∀ j, j ≠ slot → entry' j = entry j)
    (hkey : key (entry' slot) = k) :
    Ok key (occ.setIfInBounds slot .occupied) (keys.setIfInBounds slot k) entry' n (len + 1)
        (if (view occ entry slot).isTombstone then tombs - 1 else tombs) ∧
      content n (view (occ.setIfInBounds slot .occupied) entry') =
        insert (entry' slot) (content n (view occ entry)) := by
  obtain ⟨hslot, hnone, d, hd, hpass⟩ := hfree
  have hview := view_fill (h.occ_size.symm ▸ hslot : slot < occ.size) hother
  have heven := h.even
  have hload := h.load
  have hfull := count_update (t := view occ entry) Slot.isFull hslot (.full (entry' slot))
  have htomb := count_update (t := view occ entry) Slot.isTombstone hslot (.full (entry' slot))
  have hnotfull : (view occ entry slot).isFull = false := by
    cases hs : view occ entry slot with
    | full e => exact absurd hs (hnone e)
    | _ => rfl
  subst hkey
  rw [hview]
  refine ⟨{ toShape := h.toShape.fill hslot hother rfl, even := heven, bytes := h.bytes,
            sound := ?_, len_eq := ?_, tombs_eq := ?_, load := ?_ }, content_place hslot hnone⟩
  · rw [hview]
    exact h.sound.place hd hpass hnew
  · rw [hview]
    rw [hnotfull] at hfull
    simp only [Slot.isFull, if_true, Bool.false_eq_true, if_false] at hfull
    have := h.len_eq
    omega
  · rw [hview]
    have := h.tombs_eq
    cases hs : view occ entry slot with
    | full e => exact absurd hs (hnone e)
    | empty =>
      rw [hs] at htomb
      simp only [Slot.isTombstone, Bool.false_eq_true, if_false] at htomb
      simp only [Slot.isTombstone, Bool.false_eq_true, if_false]
      omega
    | tombstone =>
      rw [hs] at htomb
      simp only [Slot.isTombstone, Bool.false_eq_true, if_false, if_true] at htomb
      simp only [Slot.isTombstone, if_true]
      omega
  · split <;> omega

/-- A key's slot becomes a tombstone. -/
theorem Ok.bury {i : Nat} {e : E} (h : Ok key occ keys entry n len tombs) (hi : i < n)
    (ht : view occ entry i = .full e) :
    Ok key (occ.setIfInBounds i .tombstone) keys entry n (len - 1) (tombs + 1) ∧
      content n (view (occ.setIfInBounds i .tombstone) entry) =
        content n (view occ entry) \ {e} := by
  have hview := view_bury entry (h.occ_size.symm ▸ hi : i < occ.size)
  have hload := h.load
  have hfull := count_update (t := view occ entry) Slot.isFull hi .tombstone
  have htomb := count_update (t := view occ entry) Slot.isTombstone hi .tombstone
  rw [ht] at hfull htomb
  simp only [Slot.isFull, Slot.isTombstone, Bool.false_eq_true, if_false, if_true]
    at hfull htomb
  have hlen := h.len_eq
  have htombs := h.tombs_eq
  rw [hview]
  refine ⟨{ occ_size := by rw [Array.size_setIfInBounds, h.occ_size], keys_size := h.keys_size,
            power := h.power, key_eq := h.key_eq, even := h.even, bytes := h.bytes,
            sound := hview ▸ h.sound.erase, len_eq := ?_, tombs_eq := ?_, load := by omega },
    h.sound.content_erase hi ht⟩
  · rw [hview]
    omega
  · rw [hview]
    omega

/-- A key's entry is replaced by another of the same key. -/
theorem Ok.replace {i : Nat} {e : E} {entry' : Nat → E} (h : Ok key occ keys entry n len tombs)
    (hi : i < n) (ht : view occ entry i = .full e)
    (hother : ∀ j, j ≠ i → entry' j = entry j) (hkey : key (entry' i) = key e) :
    Ok key occ keys entry' n len tombs ∧
      content n (view occ entry') = insert (entry' i) (content n (view occ entry) \ {e}) := by
  have hocc := (view_full_iff.mp ht).1
  have hentry := (view_full_iff.mp ht).2
  have hsame : occ.setIfInBounds i .occupied = occ := by
    apply Array.ext_getElem?
    intro j
    by_cases hj : j = i
    · subst hj
      rw [Array.getElem?_setIfInBounds_self_of_lt (h.occ_size ▸ hi), hocc]
    · rw [Array.getElem?_setIfInBounds_ne (Ne.symm hj)]
  have hview := view_fill (h.occ_size.symm ▸ hi : i < occ.size) hother
  rw [hsame] at hview
  have hfull := count_update (t := view occ entry) Slot.isFull hi (.full (entry' i))
  have htomb := count_update (t := view occ entry) Slot.isTombstone hi (.full (entry' i))
  rw [ht] at hfull htomb
  simp only [Slot.isFull, Slot.isTombstone, Bool.false_eq_true, if_false, if_true]
    at hfull htomb
  have hlen := h.len_eq
  have htombs := h.tombs_eq
  refine ⟨{ occ_size := h.occ_size, keys_size := h.keys_size, power := h.power, key_eq := ?_,
            even := h.even, bytes := h.bytes, sound := hview ▸ h.sound.replace hi ht hkey,
            len_eq := ?_, tombs_eq := ?_, load := h.load }, hview ▸ h.sound.content_replace hi ht⟩
  · intro j hj
    by_cases hne : j = i
    · subst hne
      rw [h.key_eq j hj, hkey, hentry]
    · rw [hother j hne, h.key_eq j hj]
  · rw [hview]
    omega
  · rw [hview]
    omega

/-! ## Growing -/

theorem Ok.not_tombstone (h : Ok key occ keys entry n len 0) (i : Nat) :
    view occ entry i ≠ .tombstone := by
  intro ht
  by_cases hi : i < n
  · have hcount := ne_of_count_eq_zero h.tombs_eq.symm hi
    rw [ht] at hcount
    cases hcount
  · have hocc := view_tombstone_iff.mp ht
    rw [Array.getElem?_eq_none (by rw [h.occ_size]; omega)] at hocc
    cases hocc

/-- A fresh table of `n` slots. -/
theorem ok_fresh {entry : Nat → E} {e : Nat} (hbig : 1 ≤ e) (hn : n = 2 ^ e)
    (hbytes : n * 8 < 2 ^ 63) (hkeys : keys.size = n)
    (hkey : ∀ i, i < n → keys[i]? = some (key (entry i))) :
    Ok key (Array.replicate n .empty) keys entry n 0 0 where
  occ_size := Array.size_replicate
  keys_size := hkeys
  power := ⟨e, hn⟩
  key_eq := hkey
  even := by
    obtain ⟨m, rfl⟩ : ∃ m, e = m + 1 := ⟨e - 1, by omega⟩
    rw [hn, Nat.pow_succ, Nat.mul_mod_left]
  bytes := hbytes
  sound := by
    rw [view_new]
    exact sound_empty
  len_eq := by rw [view_new, count_empty _ rfl]
  tombs_eq := by rw [view_new, count_empty _ rfl]
  load := by omega

/-- A rehash puts the next entry of the old table into the new one. -/
theorem Ok.refill {occ' : Array Occ} {keys' : Array Int64} {entry' : Nat → E} {n' len' i : Nat}
    (h : Ok key occ keys entry n len tombs) (h' : Ok key occ' keys' entry' n' len' 0)
    (hbig : n < n') (hi : i < n) (hfull : view occ entry i = .full (entry i))
    (hcontent : content n' (view occ' entry') = content i (view occ entry))
    (hlen : len' = count Slot.isFull i (view occ entry)) :
    ∃ slot, rehashLoop occ' n' (key (entry i)) = .done slot ∧ slot < n' ∧
      ∀ entry'' : Nat → E, (∀ j, j ≠ slot → entry'' j = entry' j) → entry'' slot = entry i →
        Ok key (occ'.setIfInBounds slot .occupied) (keys'.setIfInBounds slot (key (entry i)))
            entry'' n' (len' + 1) 0 ∧
          content n' (view (occ'.setIfInBounds slot .occupied) entry'') =
            content (i + 1) (view occ entry) ∧
          len' + 1 = count Slot.isFull (i + 1) (view occ entry) := by
  have hnew : ∀ e, e ∈ content n' (view occ' entry') → key e ≠ key (entry i) := by
    intro e he hkey
    rw [hcontent] at he
    obtain ⟨j, hj, htj⟩ := he
    exact absurd (h.sound.unique (by omega) hi htj hfull hkey) (by omega)
  obtain ⟨d, hd, hempty, hpass⟩ := h'.miss hnew
  refine ⟨_, rehashLoop_of_end h'.toShape hd h'.not_tombstone hpass hempty,
    probe_lt h'.pos _ _, ?_⟩
  intro entry'' hother hslot
  have hroom : (len' + 0) * 2 < n' := by
    have hle := count_mono (t := view occ entry) Slot.isFull (Nat.le_of_lt hi)
    have hload := h.load
    have hold := h.len_eq
    omega
  have hfree : Free occ' entry' n' (key (entry i)) (probe n' (hashOf (key (entry i))) d) := by
    refine ⟨probe_lt h'.pos _ _, ?_, d, rfl, fun j hj => (hpass j hj).1⟩
    rw [hempty]
    exact fun e => nofun
  obtain ⟨hok, hcont⟩ := h'.fill hroom hnew hfree hother (by rw [hslot])
  rw [hempty] at hok
  refine ⟨hok, ?_, ?_⟩
  · rw [hcont, hslot, hcontent, content_succ_full hfull]
  · rw [count_succ, hfull, hlen]
    rfl

theorem grown_power {capacity : Nat} (h : capacity = 0 ∨ ∃ e, capacity = 2 ^ e) :
    capacity < grownCapacity capacity ∧ ∃ e, 1 ≤ e ∧ grownCapacity capacity = 2 ^ e := by
  unfold grownCapacity
  split
  · next hzero => exact ⟨by omega, 3, by decide, rfl⟩
  · next hne =>
    obtain ⟨e, rfl⟩ := h.resolve_left hne
    exact ⟨by omega, e + 1, by omega, by rw [Nat.pow_succ]⟩

/-- A slot of the old table without an entry changes nothing. -/
theorem skip_slot {i : Nat} (h : ∀ e, view occ entry i ≠ .full e) :
    content (i + 1) (view occ entry) = content i (view occ entry) ∧
      count Slot.isFull (i + 1) (view occ entry) = count Slot.isFull i (view occ entry) := by
  refine ⟨content_succ_other h, ?_⟩
  rw [count_succ]
  cases ht : view occ entry i with
  | full e => exact absurd ht (h e)
  | _ => rfl

end Shared

/-! ## The set -/

/-- What a slot's array elements hold. -/
def setEntry (keys : Array Int64) (i : Nat) : Int64 := keys.getD i 0

/-- The arrays of the set are a sound table with room. -/
def SetOk (s : HashSet) : Prop :=
  Ok id s.occ s.keys (setEntry s.keys) s.capacity s.len s.tombstones

/-- The keys in the table. -/
def setContent (s : HashSet) : Set Int64 := content s.capacity (view s.occ (setEntry s.keys))

theorem setEntry_key {keys : Array Int64} {i : Nat} (hi : i < keys.size) :
    keys[i]? = some (id (setEntry keys i)) := by
  rw [setEntry, Array.getD_eq_getD_getElem?, Array.getElem?_eq_getElem hi]
  rfl

theorem setEntry_set {keys : Array Int64} {i : Nat} (hi : i < keys.size) (k : Int64) :
    setEntry (keys.setIfInBounds i k) i = k := by
  rw [setEntry, Array.getD_eq_getD_getElem?, Array.getElem?_setIfInBounds_self_of_lt hi]
  rfl

theorem setEntry_set_ne {keys : Array Int64} {i j : Nat} (hj : j ≠ i) (k : Int64) :
    setEntry (keys.setIfInBounds i k) j = setEntry keys j := by
  rw [setEntry, setEntry, Array.getD_eq_getD_getElem?, Array.getD_eq_getD_getElem?,
    Array.getElem?_setIfInBounds_ne (Ne.symm hj)]

/-- What has been rehashed after `i` slots of the old set. -/
def SetRehashed (s : HashSet) (capacity i : Nat) (t : HashSet) : Prop :=
  SetOk t ∧ t.capacity = capacity ∧ t.tombstones = 0 ∧
    t.len = count Slot.isFull i (view s.occ (setEntry s.keys)) ∧
    setContent t = content i (view s.occ (setEntry s.keys))

theorem rehash_set_step {s t : HashSet} {capacity i : Nat} (hs : SetOk s)
    (hbig : s.capacity < capacity) (hi : i < s.capacity) (ht : SetRehashed s capacity i t) :
    ∃ t', (do
      if (← Outcome.read s.occ i) = .occupied then t.insertInto (← Outcome.read s.keys i)
      else pure t) = Outcome.done t' ∧ SetRehashed s capacity (i + 1) t' := by
  obtain ⟨hok, rfl, htombs, hlen, hcontent⟩ := ht
  rcases hs.read_cases hi with ⟨hv, hread⟩ | ⟨hv, hread⟩ | ⟨hv, hread⟩
  · obtain ⟨hcont, hcount⟩ := skip_slot (by rw [hv]; exact fun e => nofun)
    refine ⟨t, by simp [hread], hok, rfl, htombs, ?_, ?_⟩
    · rw [hcount, hlen]
    · rw [hcont, hcontent]
  · obtain ⟨hcont, hcount⟩ := skip_slot (by rw [hv]; exact fun e => nofun)
    refine ⟨t, by simp [hread], hok, rfl, htombs, ?_, ?_⟩
    · rw [hcount, hlen]
    · rw [hcont, hcontent]
  · have hok₀ := hok
    unfold SetOk at hok₀
    rw [htombs] at hok₀
    obtain ⟨slot, hloop, hslot, hnext⟩ :=
      Ok.refill hs hok₀ hbig hi hv hcontent hlen
    have hkeys : slot < t.keys.size := hok.keys_size ▸ hslot
    have hocc : slot < t.occ.size := hok.occ_size ▸ hslot
    obtain ⟨hok', hcont', hcount'⟩ := hnext (setEntry (t.keys.setIfInBounds slot _))
      (fun j hj => setEntry_set_ne hj _) (setEntry_set hkeys _)
    have hdone : t.insertInto (setEntry s.keys i) =
        .done ⟨t.keys.setIfInBounds slot (setEntry s.keys i),
          t.occ.setIfInBounds slot .occupied, t.len + 1, t.capacity, t.tombstones⟩ := by
      unfold HashSet.insertInto
      rw [show rehashLoop t.occ t.capacity (setEntry s.keys i) = .done slot from hloop]
      simp only [Outcome.done_bind, Outcome.write_of_lt hkeys, Outcome.write_of_lt hocc,
        Outcome.pure_eq]
    refine ⟨⟨t.keys.setIfInBounds slot (setEntry s.keys i),
      t.occ.setIfInBounds slot .occupied, t.len + 1, t.capacity, t.tombstones⟩, ?_, ?_, rfl,
      htombs, hcount', hcont'⟩
    · rw [hread, Outcome.done_bind, if_pos rfl, hs.read_key hi]
      exact hdone
    · show Ok _ _ _ _ _ _ t.tombstones
      rw [htombs]
      exact hok'

/-- A growth keeps the keys and leaves room for one more. -/
theorem grow_set {heap : Nat → Bool} {s : HashSet} (hs : s.capacity = 0 ∨ SetOk s)
    (hheap : (malloc heap (grownCapacity s.capacity * 8) &&
      malloc heap (grownCapacity s.capacity)) = true) :
    ∃ s', s.grow heap = .done s' ∧ SetOk s' ∧ setContent s' = setContent s ∧
      (s'.len + s'.tombstones) * 2 < s'.capacity := by
  have hbytes : grownCapacity s.capacity * 8 < 2 ^ 63 := by
    rw [Bool.and_eq_true] at hheap
    simp only [malloc, Bool.and_eq_true, decide_eq_true_eq] at hheap
    exact hheap.1.2
  obtain ⟨hbig, e, he, hpow⟩ := grown_power (hs.imp_right fun h => h.power)
  have hkeys : (Array.replicate (grownCapacity s.capacity) (0 : Int64)).size =
      grownCapacity s.capacity := Array.size_replicate
  have hfresh : SetRehashed s (grownCapacity s.capacity) 0
      ⟨Array.replicate (grownCapacity s.capacity) 0,
        Array.replicate (grownCapacity s.capacity) .empty, 0, grownCapacity s.capacity, 0⟩ := by
    refine ⟨ok_fresh he hpow hbytes hkeys fun i hi => setEntry_key ?_, rfl, rfl, rfl, ?_⟩
    · rw [hkeys]
      exact hi
    unfold setContent
    rw [view_new, content_empty, content_zero]
  obtain ⟨t, hrun, hok, hcap, htombs, hlen, hcontent⟩ :=
    Outcome.forRange_of_step (SetRehashed s (grownCapacity s.capacity)) hfresh
      fun i t hi ht => rehash_set_step (hs.resolve_left (by omega)) hbig hi ht
  refine ⟨t, ?_, hok, hcontent, ?_⟩
  · unfold HashSet.grow
    simp only [hheap, if_true]
    exact hrun
  · rw [htombs, hlen, hcap]
    rcases hs with hzero | hs
    · rw [hzero]
      exact show (0 + 0) * 2 < 8 by decide
    · have hload := hs.load
      have hcount := hs.len_eq
      omega

/-- The set in memory and the set it stands for. -/
def SetRel (s : HashSet) (S : Finset Int64) : Prop :=
  (s.capacity = 0 ∧ s.len = 0 ∧ S = ∅) ∨ SetOk s ∧ setContent s = S

theorem setRel_new : SetRel HashSet.new ∅ :=
  Or.inl ⟨rfl, rfl, rfl⟩

theorem SetRel.length {s : HashSet} {S : Finset Int64} (h : SetRel s S) : s.length = S.card := by
  unfold HashSet.length
  rcases h with ⟨-, hlen, rfl⟩ | ⟨hok, hcontent⟩
  · rw [hlen]
    decide
  · have hcard := hok.sound.ncard_content
    have hload := hok.load
    have hbytes := hok.bytes
    rw [← hok.len_eq, show content _ _ = _ from hcontent, Set.ncard_coe_finset] at hcard
    rw [toInt64_of_lt (by omega), hcard]

theorem mem_of_slot {s : HashSet} {S : Finset Int64} (hcontent : setContent s = S) {i : Nat}
    {k : Int64} (hi : i < s.capacity) (ht : view s.occ (setEntry s.keys) i = .full k) : k ∈ S := by
  rw [← Finset.mem_coe, ← hcontent]
  exact ⟨i, hi, ht⟩

theorem contains_set {s : HashSet} {S : Finset Int64} (h : SetRel s S) (k : Int64) :
    s.contains k = .done (decide (k ∈ S)) := by
  unfold HashSet.contains
  rcases h with ⟨hcap, -, rfl⟩ | ⟨hok, hcontent⟩
  · rw [if_pos hcap]
    rfl
  · rw [if_neg (Nat.pos_iff_ne_zero.mp hok.pos)]
    rcases hok.search k with ⟨i, e, hi, ht, hkey, hrun⟩ | ⟨hnone, hrun⟩
    · obtain rfl : e = k := hkey
      rw [hrun, Outcome.done_bind, decide_eq_true (mem_of_slot hcontent hi ht)]
      rfl
    · have hk : k ∉ S := fun hk => hnone k (hcontent ▸ hk : k ∈ setContent s) rfl
      rw [hrun, Outcome.done_bind, decide_eq_false hk]
      rfl

theorem remove_set {s : HashSet} {S : Finset Int64} (h : SetRel s S) (k : Int64) :
    ∃ s', s.remove k = .done (decide (k ∈ S), s') ∧ SetRel s' (S.erase k) := by
  unfold HashSet.remove
  rcases h with ⟨hcap, hlen, rfl⟩ | ⟨hok, hcontent⟩
  · rw [if_pos hcap]
    exact ⟨s, rfl, Or.inl ⟨hcap, hlen, rfl⟩⟩
  · rw [if_neg (Nat.pos_iff_ne_zero.mp hok.pos)]
    rcases hok.search k with ⟨i, e, hi, ht, hkey, hrun⟩ | ⟨hnone, hrun⟩
    · obtain rfl : e = k := hkey
      obtain ⟨hok', hcontent'⟩ := hok.bury hi ht
      refine ⟨⟨s.keys, s.occ.setIfInBounds i .tombstone, s.len - 1, s.capacity,
        s.tombstones + 1⟩, ?_, Or.inr ⟨hok', ?_⟩⟩
      · rw [hrun, Outcome.done_bind, decide_eq_true (mem_of_slot hcontent hi ht)]
        simp only [Outcome.write_of_lt (hok.occ_size.symm ▸ hi : i < s.occ.size),
          Outcome.done_bind, Outcome.pure_eq]
      · rw [Finset.coe_erase, ← hcontent]
        exact hcontent'
    · have hk : k ∉ S := fun hk => hnone k (hcontent ▸ hk : k ∈ setContent s) rfl
      refine ⟨s, ?_, Or.inr ⟨hok, ?_⟩⟩
      · rw [hrun, Outcome.done_bind, decide_eq_false hk]
        rfl
      · rw [Finset.erase_eq_of_notMem hk, hcontent]

/-- A free slot takes the new key. -/
theorem fill_set {s : HashSet} (hok : SetOk s) (hroom : (s.len + s.tombstones) * 2 < s.capacity)
    {k : Int64} (hnew : k ∉ setContent s) {slot : Nat}
    (hfree : Free s.occ (setEntry s.keys) s.capacity k slot) :
    Outcome.write s.keys slot k = .done (s.keys.setIfInBounds slot k) ∧
      Outcome.write s.occ slot .occupied = .done (s.occ.setIfInBounds slot .occupied) ∧
      ∀ tombs, tombs = (if (view s.occ (setEntry s.keys) slot).isTombstone then s.tombstones - 1
          else s.tombstones) →
        SetOk ⟨s.keys.setIfInBounds slot k, s.occ.setIfInBounds slot .occupied, s.len + 1,
            s.capacity, tombs⟩ ∧
          setContent ⟨s.keys.setIfInBounds slot k, s.occ.setIfInBounds slot .occupied, s.len + 1,
            s.capacity, tombs⟩ = insert k (setContent s) := by
  have hkeys : slot < s.keys.size := hok.keys_size ▸ hfree.1
  have hocc : slot < s.occ.size := hok.occ_size ▸ hfree.1
  refine ⟨Outcome.write_of_lt hkeys k, Outcome.write_of_lt hocc _, ?_⟩
  rintro tombs rfl
  have hentry := setEntry_set hkeys k
  obtain ⟨hok', hcontent'⟩ := Ok.fill hok hroom
    (fun e he (hkey : e = k) => hnew (hkey ▸ he)) hfree
    (fun j hj => setEntry_set_ne hj k) (hentry : id (setEntry _ slot) = k)
  rw [hentry] at hcontent'
  exact ⟨hok', hcontent'⟩

theorem place_set {s : HashSet} {S : Finset Int64} (hok : SetOk s) (hcontent : setContent s = S)
    (hroom : (s.len + s.tombstones) * 2 < s.capacity) (k : Int64) :
    ∃ s', s.place k = .done (decide (k ∉ S), s') ∧ SetRel s' (insert k S) := by
  unfold HashSet.place
  rcases hok.landing k with ⟨i, e, hi, ht, hkey, hrun⟩ | ⟨hnone, i, hland⟩
  · obtain rfl : e = k := hkey
    have hmem := mem_of_slot hcontent hi ht
    refine ⟨s, ?_, Or.inr ⟨hok, ?_⟩⟩
    · rw [hrun, Outcome.done_bind, decide_eq_false (not_not.mpr hmem)]
      rfl
    · rw [Finset.insert_eq_of_mem hmem, hcontent]
  · have hnew : k ∉ setContent s := fun hk => hnone k hk rfl
    have hk : k ∉ S := fun hk => hnew (hcontent ▸ hk)
    rw [decide_eq_true hk]
    unfold SetRel
    rw [Finset.coe_insert, ← hcontent]
    rcases hland with ⟨hrun, hfree, hempty⟩ | ⟨slot, hrun, hfree, htomb⟩
    · obtain ⟨hwk, hwo, hfill⟩ := fill_set hok hroom hnew hfree
      refine ⟨_, ?_, Or.inr (hfill s.tombstones (by rw [hempty]; rfl))⟩
      simp only [hrun, Outcome.done_bind, hwk, hwo, Outcome.pure_eq]
    · obtain ⟨hwk, hwo, hfill⟩ := fill_set hok hroom hnew hfree
      refine ⟨_, ?_, Or.inr (hfill (s.tombstones - 1) (by rw [htomb]; rfl))⟩
      simp only [hrun, Outcome.done_bind, hwk, hwo, Outcome.pure_eq]

/-- An insertion is refused for want of memory, or inserts the key. -/
theorem insert_set {s : HashSet} {S : Finset Int64} (h : SetRel s S) (heap : Nat → Bool)
    (k : Int64) :
    s.insert heap k = .aborted ∧ s.refused (.insert k, heap) ∨
      ∃ s', s.insert heap k = .done (decide (k ∉ S), s') ∧ SetRel s' (insert k S) := by
  have hok : s.capacity = 0 ∨ SetOk s := h.imp (fun h => h.1) (fun h => h.1)
  unfold HashSet.insert
  by_cases hgrow : mustGrow s.capacity s.len s.tombstones = true
  · rw [if_pos hgrow]
    by_cases hheap : (malloc heap (grownCapacity s.capacity * 8) &&
        malloc heap (grownCapacity s.capacity)) = true
    · obtain ⟨s', hrun, hok', hcontent', hroom⟩ := grow_set hok hheap
      rw [hrun, Outcome.done_bind]
      refine Or.inr (place_set hok' ?_ hroom k)
      rw [hcontent']
      rcases h with ⟨hcap, -, rfl⟩ | ⟨-, hcontent⟩
      · unfold setContent
        rw [hcap, content_zero, Finset.coe_empty]
      · exact hcontent
    · refine Or.inl ⟨?_, hgrow, Bool.eq_false_iff.mpr hheap⟩
      unfold HashSet.grow
      rw [if_neg hheap]
      rfl
  · rw [if_neg hgrow, Outcome.pure_eq, Outcome.done_bind]
    simp only [mustGrow, Bool.or_eq_true, decide_eq_true_eq, not_or, not_le] at hgrow
    obtain ⟨hok', hcontent⟩ := h.resolve_left fun h => hgrow.1 h.1
    exact Or.inr (place_set hok' hcontent hgrow.2 k)

/-- The operations on a finite set. -/
def setSpec (S : Finset Int64) : SetOp × (Nat → Bool) → Option (SetResult × Finset Int64)
  | (.new, _) => some (.unit, ∅)
  | (.insert k, _) => some (.bool (k ∉ S), insert k S)
  | (.contains k, _) => some (.bool (k ∈ S), S)
  | (.remove k, _) => some (.bool (k ∈ S), S.erase k)
  | (.len, _) => some (.int S.card, S)
  | (.clear, _) => some (.int S.card, ∅)

theorem step_set (s : HashSet) (S : Finset Int64) (i : SetOp × (Nat → Bool)) (h : SetRel s S) :
    StepRefines HashSet.step setSpec HashSet.refused SetRel s S i := by
  obtain ⟨op, heap⟩ := i
  cases op with
  | new => exact stepRefines_done rfl rfl setRel_new
  | insert k =>
    rcases insert_set h heap k with ⟨hrun, href⟩ | ⟨s', hrun, hrel⟩
    · exact stepRefines_refused (by simp only [HashSet.step, hrun, Outcome.aborted_bind]) href
    · exact stepRefines_done
        (by simp only [HashSet.step, hrun, Outcome.done_bind, Outcome.pure_eq]) rfl hrel
  | contains k =>
    exact stepRefines_done (by
      simp only [HashSet.step, contains_set h k, Outcome.done_bind, Outcome.pure_eq]) rfl h
  | remove k =>
    obtain ⟨s', hrun, hrel⟩ := remove_set h k
    exact stepRefines_done
      (by simp only [HashSet.step, hrun, Outcome.done_bind, Outcome.pure_eq]) rfl hrel
  | len => exact stepRefines_done (by simp only [HashSet.step, h.length, Outcome.pure_eq]) rfl h
  | clear =>
    have hlen : s.clear = ((S.card : Int), HashSet.new) := by
      rw [← h.length]
      rfl
    exact stepRefines_done (by simp only [HashSet.step, hlen, Outcome.pure_eq]) rfl setRel_new

/-- **The emitted hash set refines a finite set**: over every sequence of operations, under
heaps that may refuse a growth, every operation ends and returns what the set returns; and
in every state a run comes to each key has one slot, its probe sequence comes to that slot,
and a table with slots has an empty one.
Source: backend_c.rs:951-1084 -/
theorem hashSet_refines :
    (∀ ops, RunRefines HashSet.step setSpec HashSet.refused ops HashSet.new ∅) ∧
      ∀ s, Reached HashSet.step HashSet.new s → s.capacity = 0 ∨
        Sound id hashOf s.capacity (view s.occ (setEntry s.keys)) ∧
          ∃ i, i < s.capacity ∧ view s.occ (setEntry s.keys) i = .empty := by
  refine ⟨fun ops => runRefines_of_step step_set ops setRel_new, fun s hr => ?_⟩
  obtain ⟨S, ⟨hcap, -⟩ | ⟨hok, -⟩⟩ := hr.rel step_set setRel_new
  · exact Or.inl hcap
  · exact Or.inr ⟨hok.sound, hok.room⟩

/-! ## The map -/

/-- What a slot's array elements hold. -/
def mapEntry (keys values : Array Int64) (i : Nat) : Int64 × Int64 :=
  (setEntry keys i, setEntry values i)

/-- The arrays of the map are a sound table with room, and there is a value for every slot. -/
def MapOk (m : HashMap) : Prop :=
  Ok Prod.fst m.occ m.keys (mapEntry m.keys m.values) m.capacity m.len m.tombstones ∧
    m.values.size = m.capacity

/-- The pairs in the table. -/
def mapContent (m : HashMap) : Set (Int64 × Int64) :=
  content m.capacity (view m.occ (mapEntry m.keys m.values))

theorem mapEntry_set {keys values : Array Int64} {i : Nat} (hk : i < keys.size)
    (hv : i < values.size) (k v : Int64) :
    mapEntry (keys.setIfInBounds i k) (values.setIfInBounds i v) i = (k, v) := by
  rw [mapEntry, setEntry_set hk, setEntry_set hv]

theorem mapEntry_set_ne {keys values : Array Int64} {i j : Nat} (hj : j ≠ i) (k v : Int64) :
    mapEntry (keys.setIfInBounds i k) (values.setIfInBounds i v) j = mapEntry keys values j := by
  rw [mapEntry, setEntry_set_ne hj, setEntry_set_ne hj, mapEntry]

theorem read_setEntry {values : Array Int64} {i : Nat} (hi : i < values.size) :
    Outcome.read values i = .done (setEntry values i) := by
  unfold Outcome.read
  rw [setEntry_key hi]
  rfl

/-- What has been rehashed after `i` slots of the old map. -/
def MapRehashed (m : HashMap) (capacity i : Nat) (t : HashMap) : Prop :=
  MapOk t ∧ t.capacity = capacity ∧ t.tombstones = 0 ∧
    t.len = count Slot.isFull i (view m.occ (mapEntry m.keys m.values)) ∧
    mapContent t = content i (view m.occ (mapEntry m.keys m.values))

theorem rehash_map_step {m t : HashMap} {capacity i : Nat} (hm : MapOk m)
    (hbig : m.capacity < capacity) (hi : i < m.capacity) (ht : MapRehashed m capacity i t) :
    ∃ t', (do
      if (← Outcome.read m.occ i) = .occupied then
        t.insertRaw (← Outcome.read m.keys i) (← Outcome.read m.values i)
      else pure t) = Outcome.done t' ∧ MapRehashed m capacity (i + 1) t' := by
  obtain ⟨⟨hok, hvsize⟩, rfl, htombs, hlen, hcontent⟩ := ht
  rcases hm.1.read_cases hi with ⟨hv, hread⟩ | ⟨hv, hread⟩ | ⟨hv, hread⟩
  · obtain ⟨hcont, hcount⟩ := skip_slot (by rw [hv]; exact fun e => nofun)
    refine ⟨t, by simp [hread], ⟨hok, hvsize⟩, rfl, htombs, ?_, ?_⟩
    · rw [hcount, hlen]
    · rw [hcont, hcontent]
  · obtain ⟨hcont, hcount⟩ := skip_slot (by rw [hv]; exact fun e => nofun)
    refine ⟨t, by simp [hread], ⟨hok, hvsize⟩, rfl, htombs, ?_, ?_⟩
    · rw [hcount, hlen]
    · rw [hcont, hcontent]
  · have hok₀ := hok
    rw [htombs] at hok₀
    obtain ⟨slot, hloop, hslot, hnext⟩ :=
      Ok.refill hm.1 hok₀ hbig hi hv hcontent hlen
    have hkeys : slot < t.keys.size := hok.keys_size ▸ hslot
    have hvalues : slot < t.values.size := hvsize ▸ hslot
    have hocc : slot < t.occ.size := hok.occ_size ▸ hslot
    obtain ⟨hok', hcont', hcount'⟩ := hnext
      (mapEntry (t.keys.setIfInBounds slot (setEntry m.keys i))
        (t.values.setIfInBounds slot (setEntry m.values i)))
      (fun j hj => mapEntry_set_ne hj _ _) (mapEntry_set hkeys hvalues _ _)
    have hdone : t.insertRaw (setEntry m.keys i) (setEntry m.values i) =
        .done ⟨t.keys.setIfInBounds slot (setEntry m.keys i),
          t.values.setIfInBounds slot (setEntry m.values i),
          t.occ.setIfInBounds slot .occupied, t.len + 1, t.capacity, t.tombstones⟩ := by
      unfold HashMap.insertRaw
      rw [show rehashLoop t.occ t.capacity (setEntry m.keys i) = .done slot from hloop]
      simp only [Outcome.done_bind, Outcome.write_of_lt hkeys, Outcome.write_of_lt hvalues,
        Outcome.write_of_lt hocc, Outcome.pure_eq]
    refine ⟨⟨t.keys.setIfInBounds slot (setEntry m.keys i),
      t.values.setIfInBounds slot (setEntry m.values i),
      t.occ.setIfInBounds slot .occupied, t.len + 1, t.capacity, t.tombstones⟩, ?_, ⟨?_, ?_⟩,
      rfl, htombs, hcount', hcont'⟩
    · rw [hread, Outcome.done_bind, if_pos rfl, hm.1.read_key hi,
        read_setEntry (hm.2 ▸ hi : i < m.values.size)]
      exact hdone
    · show Ok _ _ _ _ _ _ t.tombstones
      rw [htombs]
      exact hok'
    · rw [Array.size_setIfInBounds]
      exact hvsize

/-- A growth keeps the pairs and leaves room for one more. -/
theorem grow_map {heap : Nat → Bool} {m : HashMap} (hm : m.capacity = 0 ∨ MapOk m)
    (hheap : (malloc heap (grownCapacity m.capacity * 8) &&
      malloc heap (grownCapacity m.capacity * 8) &&
        malloc heap (grownCapacity m.capacity)) = true) :
    ∃ m', m.grow heap = .done m' ∧ MapOk m' ∧ mapContent m' = mapContent m ∧
      (m'.len + m'.tombstones) * 2 < m'.capacity := by
  have hbytes : grownCapacity m.capacity * 8 < 2 ^ 63 := by
    rw [Bool.and_eq_true, Bool.and_eq_true] at hheap
    simp only [malloc, Bool.and_eq_true, decide_eq_true_eq] at hheap
    exact hheap.1.1.2
  obtain ⟨hbig, e, he, hpow⟩ := grown_power (hm.imp_right fun h => h.1.power)
  have hkeys : (Array.replicate (grownCapacity m.capacity) (0 : Int64)).size =
      grownCapacity m.capacity := Array.size_replicate
  have hfresh : MapRehashed m (grownCapacity m.capacity) 0
      ⟨Array.replicate (grownCapacity m.capacity) 0, Array.replicate (grownCapacity m.capacity) 0,
        Array.replicate (grownCapacity m.capacity) .empty, 0, grownCapacity m.capacity, 0⟩ := by
    refine ⟨⟨ok_fresh he hpow hbytes hkeys fun i hi => ?_, hkeys⟩, rfl, rfl, rfl, ?_⟩
    · exact setEntry_key (by rw [hkeys]; exact hi)
    · unfold mapContent
      rw [view_new, content_empty, content_zero]
  obtain ⟨t, hrun, hok, hcap, htombs, hlen, hcontent⟩ :=
    Outcome.forRange_of_step (MapRehashed m (grownCapacity m.capacity)) hfresh
      fun i t hi ht => rehash_map_step (hm.resolve_left (by omega)) hbig hi ht
  refine ⟨t, ?_, hok, hcontent, ?_⟩
  · unfold HashMap.grow
    simp only [hheap, if_true]
    exact hrun
  · rw [htombs, hlen, hcap]
    rcases hm with hzero | hm
    · rw [hzero]
      exact show (0 + 0) * 2 < 8 by decide
    · have hload := hm.1.load
      have hcount := hm.1.len_eq
      omega

/-- A finite map. -/
abbrev FiniteMap := Finmap fun _ : Int64 => Int64

/-- The pairs of a finite map. -/
def graph (M : FiniteMap) : Set (Int64 × Int64) := {e | M.lookup e.1 = some e.2}

theorem graph_empty : graph ∅ = ∅ := by
  ext e
  simp [graph]

theorem graph_insert_new {M : FiniteMap} {k : Int64} (hk : M.lookup k = none) (v : Int64) :
    graph (M.insert k v) = insert (k, v) (graph M) := by
  ext ⟨k', v'⟩
  simp only [graph, Set.mem_ofPred_eq, Set.mem_insert_iff, Prod.mk.injEq]
  by_cases hkk : k' = k
  · subst hkk
    rw [Finmap.lookup_insert, hk]
    simp [eq_comm]
  · rw [Finmap.lookup_insert_of_ne _ hkk]
    simp [hkk]

theorem graph_insert_old {M : FiniteMap} {k old : Int64} (hk : M.lookup k = some old)
    (v : Int64) : graph (M.insert k v) = insert (k, v) (graph M \ {(k, old)}) := by
  ext ⟨k', v'⟩
  simp only [graph, Set.mem_ofPred_eq, Set.mem_insert_iff, Set.mem_sdiff,
    Set.mem_singleton_iff, Prod.mk.injEq]
  by_cases hkk : k' = k
  · subst hkk
    rw [Finmap.lookup_insert, hk]
    simp [eq_comm]
  · rw [Finmap.lookup_insert_of_ne _ hkk]
    simp [hkk]

theorem graph_erase {M : FiniteMap} {k old : Int64} (hk : M.lookup k = some old) :
    graph (M.erase k) = graph M \ {(k, old)} := by
  ext ⟨k', v'⟩
  simp only [graph, Set.mem_ofPred_eq, Set.mem_sdiff, Set.mem_singleton_iff, Prod.mk.injEq]
  by_cases hkk : k' = k
  · subst hkk
    rw [Finmap.lookup_erase, hk]
    simp [eq_comm]
  · rw [Finmap.lookup_erase_ne hkk]
    simp [hkk]

theorem graph_erase_absent {M : FiniteMap} {k : Int64} (hk : M.lookup k = none) :
    graph (M.erase k) = graph M := by
  ext ⟨k', v'⟩
  simp only [graph, Set.mem_ofPred_eq]
  by_cases hkk : k' = k
  · subst hkk
    rw [Finmap.lookup_erase, hk]
  · rw [Finmap.lookup_erase_ne hkk]

theorem ncard_graph (M : FiniteMap) : (graph M).ncard = M.keys.card := by
  have hinj : Set.InjOn Prod.fst (graph M) := by
    rintro ⟨k, v⟩ hv ⟨k', v'⟩ hv' hkk
    obtain rfl : k = k' := hkk
    rw [graph, Set.mem_ofPred_eq] at hv hv'
    rw [hv] at hv'
    cases hv'
    rfl
  have himage : Prod.fst '' graph M = (M.keys : Set Int64) := by
    ext k
    rw [Finset.mem_coe, Finmap.mem_keys, Finmap.mem_iff]
    constructor
    · rintro ⟨⟨k, v⟩, hv, rfl⟩
      exact ⟨v, hv⟩
    · rintro ⟨v, hv⟩
      exact ⟨(k, v), hv, rfl⟩
  rw [← hinj.ncard_image, himage, Set.ncard_coe_finset]

/-- The map in memory and the map it stands for. -/
def MapRel (m : HashMap) (M : FiniteMap) : Prop :=
  (m.capacity = 0 ∧ m.len = 0 ∧ M = ∅) ∨ MapOk m ∧ mapContent m = graph M

theorem mapRel_new : MapRel HashMap.new ∅ :=
  Or.inl ⟨rfl, rfl, rfl⟩

theorem MapRel.length {m : HashMap} {M : FiniteMap} (h : MapRel m M) :
    m.length = M.keys.card := by
  unfold HashMap.length
  rcases h with ⟨-, hlen, rfl⟩ | ⟨⟨hok, -⟩, hcontent⟩
  · rw [hlen]
    decide
  · have hcard := hok.sound.ncard_content
    have hload := hok.load
    have hbytes := hok.bytes
    rw [← hok.len_eq, show content _ _ = _ from hcontent, ncard_graph] at hcard
    rw [toInt64_of_lt (by omega), hcard]

theorem lookup_of_slot {m : HashMap} {M : FiniteMap} (hcontent : mapContent m = graph M) {i : Nat}
    {e : Int64 × Int64} (hi : i < m.capacity)
    (ht : view m.occ (mapEntry m.keys m.values) i = .full e) :
    M.lookup e.1 = some e.2 ∧ setEntry m.values i = e.2 := by
  refine ⟨?_, ?_⟩
  · have hmem : e ∈ mapContent m := ⟨i, hi, ht⟩
    rw [hcontent] at hmem
    exact hmem
  · rw [← (view_full_iff.mp ht).2]
    rfl

theorem lookup_none {m : HashMap} {M : FiniteMap} (hcontent : mapContent m = graph M) {k : Int64}
    (hnone : ∀ e, e ∈ mapContent m → e.1 ≠ k) : M.lookup k = none := by
  cases hk : M.lookup k with
  | none => rfl
  | some v =>
    have hmem : (k, v) ∈ mapContent m := hcontent ▸ (hk : (k, v) ∈ graph M)
    exact absurd rfl (hnone _ hmem)

theorem get_map {m : HashMap} {M : FiniteMap} (h : MapRel m M) (k : Int64) :
    m.get k = .done (M.lookup k) := by
  unfold HashMap.get
  rcases h with ⟨hcap, -, rfl⟩ | ⟨⟨hok, hsize⟩, hcontent⟩
  · rw [if_pos hcap]
    rfl
  · rw [if_neg (Nat.pos_iff_ne_zero.mp hok.pos)]
    rcases hok.search k with ⟨i, e, hi, ht, rfl, hrun⟩ | ⟨hnone, hrun⟩
    · obtain ⟨hlookup, hvalue⟩ := lookup_of_slot hcontent hi ht
      rw [hrun, hlookup, Outcome.done_bind]
      simp only [read_setEntry (hsize.symm ▸ hi : i < m.values.size), hvalue]
      rfl
    · rw [hrun, lookup_none hcontent hnone]
      rfl

theorem containsKey_map {m : HashMap} {M : FiniteMap} (h : MapRel m M) (k : Int64) :
    m.containsKey k = .done (M.lookup k).isSome := by
  unfold HashMap.containsKey
  rcases h with ⟨hcap, -, rfl⟩ | ⟨⟨hok, -⟩, hcontent⟩
  · rw [if_pos hcap]
    rfl
  · rw [if_neg (Nat.pos_iff_ne_zero.mp hok.pos)]
    rcases hok.search k with ⟨i, e, hi, ht, rfl, hrun⟩ | ⟨hnone, hrun⟩
    · rw [hrun, (lookup_of_slot hcontent hi ht).1]
      rfl
    · rw [hrun, lookup_none hcontent hnone]
      rfl

theorem remove_map {m : HashMap} {M : FiniteMap} (h : MapRel m M) (k : Int64) :
    ∃ m', m.remove k = .done (M.lookup k, m') ∧ MapRel m' (M.erase k) := by
  unfold HashMap.remove
  rcases h with ⟨hcap, hlen, rfl⟩ | ⟨⟨hok, hsize⟩, hcontent⟩
  · rw [if_pos hcap]
    exact ⟨m, rfl, Or.inl ⟨hcap, hlen, rfl⟩⟩
  · rw [if_neg (Nat.pos_iff_ne_zero.mp hok.pos)]
    rcases hok.search k with ⟨i, e, hi, ht, rfl, hrun⟩ | ⟨hnone, hrun⟩
    · obtain ⟨hlookup, hvalue⟩ := lookup_of_slot hcontent hi ht
      obtain ⟨hok', hcontent'⟩ := hok.bury hi ht
      refine ⟨⟨m.keys, m.values, m.occ.setIfInBounds i .tombstone, m.len - 1, m.capacity,
        m.tombstones + 1⟩, ?_, Or.inr ⟨⟨hok', hsize⟩, ?_⟩⟩
      · rw [hrun, hlookup, Outcome.done_bind]
        simp only [read_setEntry (hsize.symm ▸ hi : i < m.values.size), hvalue,
          Outcome.write_of_lt (hok.occ_size.symm ▸ hi : i < m.occ.size),
          Outcome.done_bind, Outcome.pure_eq]
      · rw [graph_erase hlookup, ← hcontent]
        exact hcontent'
    · have hk := lookup_none hcontent hnone
      refine ⟨m, ?_, Or.inr ⟨⟨hok, hsize⟩, ?_⟩⟩
      · rw [hrun, hk]
        rfl
      · rw [graph_erase_absent hk, hcontent]

/-- A free slot takes the new pair. -/
theorem fill_map {m : HashMap} (hok : MapOk m) (hroom : (m.len + m.tombstones) * 2 < m.capacity)
    {k : Int64} (v : Int64) (hnew : ∀ e, e ∈ mapContent m → e.1 ≠ k) {slot : Nat}
    (hfree : Free m.occ (mapEntry m.keys m.values) m.capacity k slot) :
    Outcome.write m.keys slot k = .done (m.keys.setIfInBounds slot k) ∧
      Outcome.write m.values slot v = .done (m.values.setIfInBounds slot v) ∧
      Outcome.write m.occ slot .occupied = .done (m.occ.setIfInBounds slot .occupied) ∧
      ∀ tombs, tombs = (if (view m.occ (mapEntry m.keys m.values) slot).isTombstone then
          m.tombstones - 1 else m.tombstones) →
        MapOk ⟨m.keys.setIfInBounds slot k, m.values.setIfInBounds slot v,
            m.occ.setIfInBounds slot .occupied, m.len + 1, m.capacity, tombs⟩ ∧
          mapContent ⟨m.keys.setIfInBounds slot k, m.values.setIfInBounds slot v,
            m.occ.setIfInBounds slot .occupied, m.len + 1, m.capacity, tombs⟩ =
              insert (k, v) (mapContent m) := by
  obtain ⟨hok, hsize⟩ := hok
  have hkeys : slot < m.keys.size := hok.keys_size ▸ hfree.1
  have hvalues : slot < m.values.size := hsize ▸ hfree.1
  have hocc : slot < m.occ.size := hok.occ_size ▸ hfree.1
  refine ⟨Outcome.write_of_lt hkeys k, Outcome.write_of_lt hvalues v,
    Outcome.write_of_lt hocc _, ?_⟩
  rintro tombs rfl
  have hentry := mapEntry_set hkeys hvalues k v
  obtain ⟨hok', hcontent'⟩ := Ok.fill hok hroom hnew hfree
    (fun j hj => mapEntry_set_ne hj k v) (show Prod.fst (mapEntry _ _ slot) = k by rw [hentry])
  rw [hentry] at hcontent'
  exact ⟨⟨hok', by rw [Array.size_setIfInBounds]; exact hsize⟩, hcontent'⟩

theorem place_map {m : HashMap} {M : FiniteMap} (hok : MapOk m) (hcontent : mapContent m = graph M)
    (hroom : (m.len + m.tombstones) * 2 < m.capacity) (k v : Int64) :
    ∃ m', m.place k v = .done (M.lookup k, m') ∧ MapRel m' (M.insert k v) := by
  unfold HashMap.place
  rcases hok.1.landing k with ⟨i, e, hi, ht, rfl, hrun⟩ | ⟨hnone, i, hland⟩
  · obtain ⟨hlookup, hvalue⟩ := lookup_of_slot hcontent hi ht
    have hvalues : i < m.values.size := hok.2.symm ▸ hi
    have hentry : mapEntry m.keys (m.values.setIfInBounds i v) i = (e.1, v) := by
      rw [mapEntry, setEntry_set hvalues, ← (view_full_iff.mp ht).2, mapEntry]
    have hother : ∀ j, j ≠ i → mapEntry m.keys (m.values.setIfInBounds i v) j =
        mapEntry m.keys m.values j := by
      intro j hj
      rw [mapEntry, setEntry_set_ne hj, mapEntry]
    obtain ⟨hok', hcontent'⟩ := hok.1.replace hi ht hother (by rw [hentry])
    refine ⟨⟨m.keys, m.values.setIfInBounds i v, m.occ, m.len, m.capacity, m.tombstones⟩, ?_,
      Or.inr ⟨⟨hok', by rw [Array.size_setIfInBounds]; exact hok.2⟩, ?_⟩⟩
    · rw [hrun, hlookup, Outcome.done_bind]
      simp only [read_setEntry hvalues, hvalue, Outcome.write_of_lt hvalues, Outcome.done_bind,
        Outcome.pure_eq]
    · rw [graph_insert_old hlookup, ← hcontent, ← hentry]
      exact hcontent'
  · have hk := lookup_none hcontent hnone
    rw [hk]
    unfold MapRel
    rw [graph_insert_new hk, ← hcontent]
    rcases hland with ⟨hrun, hfree, hempty⟩ | ⟨slot, hrun, hfree, htomb⟩
    · obtain ⟨hwk, hwv, hwo, hfill⟩ := fill_map hok hroom v hnone hfree
      refine ⟨_, ?_, Or.inr (hfill m.tombstones (by rw [hempty]; rfl))⟩
      simp only [hrun, Outcome.done_bind, hwk, hwv, hwo, Outcome.pure_eq]
    · obtain ⟨hwk, hwv, hwo, hfill⟩ := fill_map hok hroom v hnone hfree
      refine ⟨_, ?_, Or.inr (hfill (m.tombstones - 1) (by rw [htomb]; rfl))⟩
      simp only [hrun, Outcome.done_bind, hwk, hwv, hwo, Outcome.pure_eq]

/-- An insertion is refused for want of memory, or inserts the pair. -/
theorem insert_map {m : HashMap} {M : FiniteMap} (h : MapRel m M) (heap : Nat → Bool)
    (k v : Int64) :
    m.insert heap k v = .aborted ∧ m.refused (.insert k v, heap) ∨
      ∃ m', m.insert heap k v = .done (M.lookup k, m') ∧ MapRel m' (M.insert k v) := by
  have hok : m.capacity = 0 ∨ MapOk m := h.imp (fun h => h.1) (fun h => h.1)
  unfold HashMap.insert
  by_cases hgrow : mustGrow m.capacity m.len m.tombstones = true
  · rw [if_pos hgrow]
    by_cases hheap : (malloc heap (grownCapacity m.capacity * 8) &&
        malloc heap (grownCapacity m.capacity * 8) &&
          malloc heap (grownCapacity m.capacity)) = true
    · obtain ⟨m', hrun, hok', hcontent', hroom⟩ := grow_map hok hheap
      rw [hrun, Outcome.done_bind]
      refine Or.inr (place_map hok' ?_ hroom k v)
      rw [hcontent']
      rcases h with ⟨hcap, -, rfl⟩ | ⟨-, hcontent⟩
      · unfold mapContent
        rw [hcap, content_zero, graph_empty]
      · exact hcontent
    · refine Or.inl ⟨?_, hgrow, Bool.eq_false_iff.mpr hheap⟩
      unfold HashMap.grow
      rw [if_neg hheap]
      rfl
  · rw [if_neg hgrow, Outcome.pure_eq, Outcome.done_bind]
    simp only [mustGrow, Bool.or_eq_true, decide_eq_true_eq, not_or, not_le] at hgrow
    obtain ⟨hok', hcontent⟩ := h.resolve_left fun h => hgrow.1 h.1
    exact Or.inr (place_map hok' hcontent hgrow.2 k v)

/-- The operations on a finite map. -/
def mapSpec (M : FiniteMap) : MapOp × (Nat → Bool) → Option (MapResult × FiniteMap)
  | (.new, _) => some (.unit, ∅)
  | (.insert k v, _) => some (.value (M.lookup k), M.insert k v)
  | (.get k, _) => some (.value (M.lookup k), M)
  | (.containsKey k, _) => some (.bool (M.lookup k).isSome, M)
  | (.remove k, _) => some (.value (M.lookup k), M.erase k)
  | (.len, _) => some (.int M.keys.card, M)
  | (.clear, _) => some (.int M.keys.card, ∅)

theorem step_map (m : HashMap) (M : FiniteMap) (i : MapOp × (Nat → Bool)) (h : MapRel m M) :
    StepRefines HashMap.step mapSpec HashMap.refused MapRel m M i := by
  obtain ⟨op, heap⟩ := i
  cases op with
  | new => exact stepRefines_done rfl rfl mapRel_new
  | insert k v =>
    rcases insert_map h heap k v with ⟨hrun, href⟩ | ⟨m', hrun, hrel⟩
    · exact stepRefines_refused (by simp only [HashMap.step, hrun, Outcome.aborted_bind]) href
    · exact stepRefines_done
        (by simp only [HashMap.step, hrun, Outcome.done_bind, Outcome.pure_eq]) rfl hrel
  | get k =>
    exact stepRefines_done (by
      simp only [HashMap.step, get_map h k, Outcome.done_bind, Outcome.pure_eq]) rfl h
  | containsKey k =>
    exact stepRefines_done (by
      simp only [HashMap.step, containsKey_map h k, Outcome.done_bind, Outcome.pure_eq]) rfl h
  | remove k =>
    obtain ⟨m', hrun, hrel⟩ := remove_map h k
    exact stepRefines_done
      (by simp only [HashMap.step, hrun, Outcome.done_bind, Outcome.pure_eq]) rfl hrel
  | len => exact stepRefines_done (by simp only [HashMap.step, h.length, Outcome.pure_eq]) rfl h
  | clear =>
    have hlen : m.clear = ((M.keys.card : Int), HashMap.new) := by
      rw [← h.length]
      rfl
    exact stepRefines_done (by simp only [HashMap.step, hlen, Outcome.pure_eq]) rfl mapRel_new

/-- **The emitted hash map refines a finite map**: over every sequence of operations, under
heaps that may refuse a growth, every operation ends and returns what the map returns; and
in every state a run comes to the pairs in the table are those of a finite map.
Source: backend_c.rs:1145-1296 -/
theorem hashMap_refines :
    (∀ ops, RunRefines HashMap.step mapSpec HashMap.refused ops HashMap.new ∅) ∧
      ∀ m, Reached HashMap.step HashMap.new m → m.capacity = 0 ∨
        (∃ M, mapContent m = graph M) ∧
          ∃ i, i < m.capacity ∧ view m.occ (mapEntry m.keys m.values) i = .empty := by
  refine ⟨fun ops => runRefines_of_step step_map ops mapRel_new, fun m hr => ?_⟩
  obtain ⟨M, ⟨hcap, -⟩ | ⟨hok, hcontent⟩⟩ := hr.rel step_map mapRel_new
  · exact Or.inl hcap
  · exact Or.inr ⟨⟨M, hcontent⟩, hok.1.room⟩

end Vani.Analysis
