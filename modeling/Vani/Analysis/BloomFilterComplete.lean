import Vani.Backend.BloomFilter
import Mathlib.Data.Finset.Insert
import Mathlib.Tactic.IntervalCases
import Mathlib.Tactic.Ring

/-!
# The Bloom filter has no false negatives

The bits at the positions of every inserted key's probes stay set until the filter is
cleared, since an insertion only sets bits, and a query probes the same positions. The
number of bits is eight times the number of bytes, so that each probe is in the array.
-/

set_option autoImplicit false

namespace Vani.Analysis

open Vani.Library Vani.Backend Vani.Backend.BloomFilter

/-! ## Bits -/

/-- The bit at a position is set. -/
def Marked (bits : Array UInt8) (pos : Nat) : Prop :=
  ∃ b, bits[pos >>> 3]? = some b ∧ b &&& mask pos ≠ 0

theorem mask_ne_zero (pos : Nat) : mask pos ≠ 0 := by
  unfold mask
  have hlt : pos &&& 7 < 8 := Nat.lt_succ_of_le Nat.and_le_right
  generalize pos &&& 7 = n at hlt
  interval_cases n <;> decide

theorem byte_or_and (b c m : UInt8) : (b ||| c) &&& m = (b &&& m) ||| (c &&& m) := by
  apply UInt8.toBitVec_inj.mp
  simp only [UInt8.toBitVec_and, UInt8.toBitVec_or]
  ext i hi
  simp only [BitVec.getElem_and, BitVec.getElem_or, Bool.and_or_distrib_right]

/-- A bit that is set stays set when another is. -/
theorem or_mask_left {b m : UInt8} (h : b &&& m ≠ 0) (c : UInt8) : (b ||| c) &&& m ≠ 0 := by
  rw [byte_or_and]
  intro hzero
  exact h (UInt8.or_eq_zero_iff.mp hzero).1

theorem or_mask_self {m : UInt8} (h : m ≠ 0) (b : UInt8) : (b ||| m) &&& m ≠ 0 := by
  rw [byte_or_and, UInt8.and_self]
  intro hzero
  exact h (UInt8.or_eq_zero_iff.mp hzero).2

theorem shift_lt {pos n : Nat} (h : pos < 8 * n) : pos >>> 3 < n := by
  rw [Nat.shiftRight_eq_div_pow]
  omega

/-- A bit in the array is set, and those that are set stay so. -/
theorem mark_ok {bits : Array UInt8} {pos : Nat} (hpos : pos < 8 * bits.size) :
    ∃ bits', mark bits pos = .done bits' ∧ bits'.size = bits.size ∧ Marked bits' pos ∧
      ∀ q, Marked bits q → Marked bits' q := by
  have hlt := shift_lt hpos
  refine ⟨bits.setIfInBounds (pos >>> 3) (bits[pos >>> 3] ||| mask pos), ?_,
    Array.size_setIfInBounds, ?_, fun q hq => ?_⟩
  · unfold mark
    rw [Outcome.read_of_lt hlt, Outcome.done_bind, Outcome.write_of_lt hlt]
  · exact ⟨_, Array.getElem?_setIfInBounds_self_of_lt hlt, or_mask_self (mask_ne_zero pos) _⟩
  · obtain ⟨b, hb, hset⟩ := hq
    by_cases hsame : pos >>> 3 = q >>> 3
    · rw [← hsame, Array.getElem?_eq_getElem hlt] at hb
      cases hb
      refine ⟨bits[pos >>> 3] ||| mask pos, ?_, or_mask_left hset _⟩
      rw [← hsame]
      exact Array.getElem?_setIfInBounds_self_of_lt hlt
    · exact ⟨b, by rw [Array.getElem?_setIfInBounds_ne hsame, hb], hset⟩

/-! ## Probes -/

/-- The position of a probe in an array of `numBits` bits. -/
def probeBit (numBits : Int) (x : Int64) (k : Nat) : Nat :=
  (hashKey x + UInt64.ofNat k * stride x).toNat % toSize numBits

/-- There are eight bits for every byte of the array, and some. -/
structure BitSized (bytes : Nat) (numBits : Int) : Prop where
  pos : 0 < bytes
  bits : numBits = 8 * bytes
  small : numBits < 2 ^ 63

theorem BitSized.toSize {bytes : Nat} {numBits : Int} (h : BitSized bytes numBits) :
    BloomFilter.toSize numBits = 8 * bytes := by
  have hsmall := h.small
  have hbits := h.bits
  unfold BloomFilter.toSize
  omega

/-- Every probe is in the array. -/
theorem BitSized.position {bf : BloomFilter} (h : BitSized bf.bits.size bf.numBits) (x : Int64)
    (k : Nat) :
    BloomFilter.position bf x k = .done (probeBit bf.numBits x k) ∧
      probeBit bf.numBits x k < 8 * bf.bits.size := by
  have hpos := h.pos
  have hsize := h.toSize
  constructor
  · exact if_neg (by omega)
  · unfold probeBit
    rw [hsize]
    exact Nat.mod_lt _ (by omega)

/-! ## The operations -/

/-- The bits of a set's elements are set, for the keys inserted since the last clear and
their number. -/
structure FilterHolds (bf : BloomFilter) (t : Finset Int64 × Int) : Prop where
  sized : BitSized bf.bits.size bf.numBits ∨ bf.numBits = 0 ∧ bf.numHashes = 0
  marked : ∀ x ∈ t.1, ∀ k, k < bf.numHashes.toNat → Marked bf.bits (probeBit bf.numBits x k)
  count : bf.insertCount = t.2

theorem filterHolds_dropped : FilterHolds BloomFilter.dropped (∅, 0) where
  sized := Or.inr ⟨rfl, rfl⟩
  marked x hx := absurd hx (Finset.notMem_empty x)
  count := rfl

theorem wrap_of_small {n : Int} (hn : 0 ≤ n) (hlt : n < 2 ^ 63) : cLong.wrap n = n := by
  refine IntType.wrap_of_fits (by decide) ⟨?_, ?_⟩
  · exact (show cLong.lo ≤ 0 by decide).trans hn
  · have hhi : cLong.hi = 2 ^ 63 - 1 := rfl
    omega

/-- The number of bytes for a number of bits that is granted. -/
theorem byteCount_granted {heap : Nat → Bool} {n : Int} (hn : 0 < n) (hlt : n < 2 ^ 63)
    (h : malloc heap (toSize (byteCount n)) = true) :
    ∃ m : Nat, 0 < m ∧ byteCount n = m ∧ toSize (byteCount n) = m ∧ (8 * m : Int) < 2 ^ 63 := by
  have hgranted : toSize (byteCount n) < 2 ^ 63 := by
    unfold malloc at h
    rw [Bool.and_eq_true, decide_eq_true_eq] at h
    exact h.2
  have hfit : n + 7 < 2 ^ 63 := by
    -- the sum would wrap to a negative number, and so its quotient to a huge size
    by_contra hbig
    have hwrap : cLong.wrap (n + 7) = n + 7 - 2 ^ 64 := by
      unfold IntType.wrap
      simp only [cLong, if_true]
      rw [Int.bmod_def]
      omega
    unfold toSize byteCount at hgranted
    rw [hwrap] at hgranted
    have hneg : (n + 7 - 2 ^ 64).tdiv 8 = -((2 ^ 64 - n - 7) / 8) := by
      rw [show n + 7 - 2 ^ 64 = -(2 ^ 64 - n - 7) by ring, Int.neg_tdiv,
        Int.tdiv_eq_ediv_of_nonneg (by omega)]
    rw [hneg] at hgranted
    omega
  have hwrap := wrap_of_small (show 0 ≤ n + 7 by omega) hfit
  have hbytes : byteCount n = (n + 7) / 8 := by
    unfold byteCount
    rw [hwrap, Int.tdiv_eq_ediv_of_nonneg (by omega)]
  refine ⟨((n + 7) / 8).toNat, by omega, ?_, ?_, by omega⟩
  · rw [hbytes]
    omega
  · unfold toSize
    rw [hbytes]
    omega

theorem new_ok (heap : Nat → Bool) (numBits numHashes : Int64) :
    (BloomFilter.new heap numBits numHashes = .aborted ∧
        malloc heap (toSize (byteCount (if numBits.toInt ≤ 0 then 64 else numBits.toInt))) =
          false) ∨
      ∃ bf, BloomFilter.new heap numBits numHashes = .done bf ∧ FilterHolds bf (∅, 0) := by
  have hpos : 0 < (if numBits.toInt ≤ 0 then 64 else numBits.toInt) := by
    split <;> omega
  have hlt : (if numBits.toInt ≤ 0 then 64 else numBits.toInt) < 2 ^ 63 := by
    have hrange := numBits.toInt_lt
    split <;> omega
  unfold BloomFilter.new
  dsimp only
  generalize (if numBits.toInt ≤ 0 then 64 else numBits.toInt) = n at hpos hlt ⊢
  generalize (if numHashes.toInt ≤ 0 then 1 else numHashes.toInt) = m
  cases hmem : malloc heap (toSize (byteCount n)) with
  | false => exact Or.inl ⟨if_neg Bool.false_ne_true, rfl⟩
  | true =>
    obtain ⟨bytes, hbytes_pos, hbytes, hsize, hsmall⟩ := byteCount_granted hpos hlt hmem
    refine Or.inr ⟨⟨Array.replicate bytes 0, 8 * bytes, m, 0⟩, ?_, ?_⟩
    · rw [if_pos rfl, hsize, hbytes, wrap_of_small (by omega) (by omega), mul_comm]
      rfl
    · refine ⟨Or.inl ?_, fun x hx => absurd hx (Finset.notMem_empty x), rfl⟩
      dsimp only
      rw [Array.size_replicate]
      exact ⟨hbytes_pos, rfl, hsmall⟩

/-- The number of bytes for the bits of an array is that of the array. -/
theorem BitSized.byteCount {bytes : Nat} {numBits : Int} (h : BitSized bytes numBits) :
    BloomFilter.toSize (BloomFilter.byteCount numBits) = bytes := by
  have hbits := h.bits
  have hsmall := h.small
  have hquot : BloomFilter.byteCount numBits = (numBits + 7) / 8 := by
    unfold BloomFilter.byteCount
    rw [wrap_of_small (by omega) (by omega), Int.tdiv_eq_ediv_of_nonneg (by omega)]
  unfold BloomFilter.toSize
  rw [hquot]
  omega

variable {bf : BloomFilter} {t : Finset Int64 × Int}

theorem FilterHolds.sized_of_pos (h : FilterHolds bf t) (hpos : 0 < bf.numHashes) :
    BitSized bf.bits.size bf.numBits := by
  rcases h.sized with hs | ⟨-, hzero⟩
  · exact hs
  · omega

/-- An insertion sets the bits of its key and no bit is reset. -/
theorem FilterHolds.insert (h : FilterHolds bf t) (x : Int64) :
    ∃ bf', bf.insert x = .done (cLong.wrap (t.2 + 1), bf') ∧
      FilterHolds bf' (Insert.insert x t.1, cLong.wrap (t.2 + 1)) := by
  -- after `k` turns the first `k` probes are set, and what was set still is
  obtain ⟨bits, hrun, hsize, hset, hkeep⟩ := Outcome.forRange_of_step
    (f := fun k bits => do
      let pos ← BloomFilter.position bf x k
      mark bits pos)
    (n := bf.numHashes.toNat) (s := bf.bits)
    (fun k (bits : Array UInt8) => bits.size = bf.bits.size ∧
      (∀ j, j < k → Marked bits (probeBit bf.numBits x j)) ∧
      ∀ q, Marked bf.bits q → Marked bits q)
    ⟨rfl, fun j hj => absurd hj (Nat.not_lt_zero j), fun _ hq => hq⟩ (by
      rintro k bits hk ⟨hsize, hset, hkeep⟩
      have hpos := (h.sized_of_pos (by omega)).position x k
      obtain ⟨bits', hmark, hsize', hnew, hold⟩ := mark_ok (hsize ▸ hpos.2)
      refine ⟨bits', ?_, hsize'.trans hsize, fun j hj => ?_, fun q hq => hold q (hkeep q hq)⟩
      · rw [hpos.1, Outcome.done_bind, hmark]
      · rcases Nat.lt_succ_iff_lt_or_eq.mp hj with hlt | rfl
        · exact hold _ (hset j hlt)
        · exact hnew)
  refine ⟨{ bf with bits, insertCount := cLong.wrap (bf.insertCount + 1) }, ?_, ?_, ?_, ?_⟩
  · unfold BloomFilter.insert
    rw [hrun, h.count]
    rfl
  · rw [hsize]
    exact h.sized
  · intro y hy k hk
    rcases Finset.mem_insert.mp hy with rfl | hy
    · exact hset k hk
    · exact hkeep _ (h.marked y hy k hk)
  · exact congrArg (fun n => cLong.wrap (n + 1)) h.count

/-- A probe is in the array, at a bit that is set if its key has been inserted. -/
theorem FilterHolds.probe (h : FilterHolds bf t) (x : Int64) {k : Nat}
    (hk : (k : Int) < bf.numHashes) :
    ∃ pos, BloomFilter.position bf x k = .done pos ∧ pos < 8 * bf.bits.size ∧
      (x ∈ t.1 → Marked bf.bits pos) := by
  have hpos : 0 < bf.numHashes := by omega
  have hlt : k < bf.numHashes.toNat := by omega
  obtain ⟨hrun, hbound⟩ := (h.sized_of_pos hpos).position x k
  exact ⟨_, hrun, hbound, fun hx => h.marked x hx k hlt⟩

/-- A query ends, and finds every key inserted. -/
theorem FilterHolds.contains (h : FilterHolds bf t) (x : Int64) :
    ∃ b, bf.contains x = .done b ∧ (x ∈ t.1 → b = true) := by
  refine Outcome.loop_of_measure (fun _ => True) (fun k => bf.numHashes.toNat - k)
    (Nat.lt_succ_of_le (Nat.sub_le _ _)) trivial ?_
  intro k _
  by_cases hk : (k : Int) < bf.numHashes
  · obtain ⟨pos, hrun, hlt, hmarked⟩ := h.probe x hk
    obtain ⟨b, hb⟩ : ∃ b, bf.bits[pos >>> 3]? = some b :=
      ⟨_, Array.getElem?_eq_getElem (shift_lt hlt)⟩
    have hread : Outcome.read bf.bits (pos >>> 3) = .done b := by
      unfold Outcome.read
      rw [hb]
    by_cases hzero : b &&& mask pos = 0
    · refine Or.inr ⟨false, ?_, fun hx => ?_⟩
      · simp only [containsTurn, if_pos hk, hrun, hread, Outcome.done_bind, if_pos hzero,
          Outcome.pure_eq]
      · obtain ⟨c, hc, hset⟩ := hmarked hx
        rw [hb] at hc
        cases hc
        exact absurd hzero hset
    · refine Or.inl ⟨k + 1, ?_, trivial, by omega⟩
      simp only [containsTurn, if_pos hk, hrun, hread, Outcome.done_bind, if_neg hzero,
        Outcome.pure_eq]
  · refine Or.inr ⟨true, ?_, fun _ => rfl⟩
    simp only [containsTurn, if_neg hk, Outcome.pure_eq]

/-- Clearing empties the filter and keeps its size. -/
theorem FilterHolds.clear (h : FilterHolds bf t) :
    ∃ bf', bf.clear = .done (t.2, bf') ∧ FilterHolds bf' (∅, 0) := by
  unfold BloomFilter.clear
  by_cases hbits : bf.bits ≠ #[] ∧ 0 < bf.numBits
  · rw [if_pos hbits]
    have hs : BitSized bf.bits.size bf.numBits := by
      rcases h.sized with hs | ⟨hzero, -⟩
      · exact hs
      · omega
    have hbytes := hs.byteCount
    have hsrc : 0 + bf.bits.size ≤ (Array.replicate bf.bits.size (0 : UInt8)).size := by
      rw [Array.size_replicate, Nat.zero_add]
    have hdst : 0 + bf.bits.size ≤ bf.bits.size := by rw [Nat.zero_add]
    obtain ⟨bits, hcopy, hsize, -⟩ := Outcome.copy_of_le hsrc hdst
    refine ⟨{ bf with bits, insertCount := 0 }, ?_, Or.inl ?_, ?_, rfl⟩
    · unfold zero
      rw [hbytes, hcopy, h.count]
      rfl
    · rw [hsize]
      exact hs
    · intro x hx
      exact absurd hx (Finset.notMem_empty x)
  · refine ⟨{ bf with insertCount := 0 }, ?_, h.sized, ?_, rfl⟩
    · rw [if_neg hbits, h.count]
      rfl
    · intro x hx
      exact absurd hx (Finset.notMem_empty x)

/-! ## Sequences of operations -/

/-- What the operations may return, for the keys inserted since the last clear and their
number: a query finds every one of these keys. -/
def bloomFilterSpec (t : Finset Int64 × Int) : BloomFilterOp × (Nat → Bool) →
    BloomFilterResult → Finset Int64 × Int → Prop
  | (.new _ _, _), r, t' => r = .unit ∧ t' = (∅, 0)
  | (.insert x, _), r, t' =>
    r = .int (cLong.wrap (t.2 + 1)) ∧ t' = (insert x t.1, cLong.wrap (t.2 + 1))
  | (.contains x, _), r, t' => (∃ b, r = .bool b ∧ (x ∈ t.1 → b = true)) ∧ t' = t
  | (.clear, _), r, t' => r = .int t.2 ∧ t' = (∅, 0)
  | (.len, _), r, t' => (∃ n, r = .int n) ∧ t' = t
  | (.count, _), r, t' => r = .int t.2 ∧ t' = t

theorem step_bloomFilter (bf : BloomFilter) (t : Finset Int64 × Int)
    (i : BloomFilterOp × (Nat → Bool)) (h : FilterHolds bf t) :
    StepSatisfies BloomFilter.step bloomFilterSpec BloomFilter.refused FilterHolds bf t i := by
  obtain ⟨op, heap⟩ := i
  cases op with
  | new numBits numHashes =>
    rcases new_ok heap numBits numHashes with ⟨hrun, href⟩ | ⟨bf', hrun, hbf'⟩
    · exact stepSatisfies_refused
        (by simp only [BloomFilter.step, hrun, Outcome.aborted_bind]) href
    · exact stepSatisfies_done
        (by simp only [BloomFilter.step, hrun, Outcome.done_bind, Outcome.pure_eq])
        ⟨rfl, rfl⟩ hbf'
  | insert x =>
    obtain ⟨bf', hrun, hbf'⟩ := h.insert x
    exact stepSatisfies_done
      (by simp only [BloomFilter.step, hrun, Outcome.done_bind, Outcome.pure_eq])
      ⟨rfl, rfl⟩ hbf'
  | contains x =>
    obtain ⟨b, hrun, hb⟩ := h.contains x
    exact stepSatisfies_done
      (by simp only [BloomFilter.step, hrun, Outcome.done_bind, Outcome.pure_eq])
      ⟨⟨b, rfl, hb⟩, rfl⟩ h
  | clear =>
    obtain ⟨bf', hrun, hbf'⟩ := h.clear
    exact stepSatisfies_done
      (by simp only [BloomFilter.step, hrun, Outcome.done_bind, Outcome.pure_eq])
      ⟨rfl, rfl⟩ hbf'
  | len => exact stepSatisfies_done rfl ⟨⟨_, rfl⟩, rfl⟩ h
  | count => exact stepSatisfies_done rfl ⟨congrArg _ h.count, rfl⟩ h

/-- **The emitted Bloom filter has no false negatives**: in every sequence of operations, for
every size and number of hashes, a query returns true for each key inserted since the last
clear; and in every state a run comes to each probe is at a bit of the array.
Source: backend_c.rs:1963-2031 -/
theorem bloomFilter_complete (ops : List (BloomFilterOp × (Nat → Bool))) :
    RunSatisfies BloomFilter.step bloomFilterSpec BloomFilter.refused ops BloomFilter.dropped
        (∅, 0) ∧
      RunKeeps BloomFilter.step (fun bf => ∀ x (k : Nat), (k : Int) < bf.numHashes →
        ∃ pos, bf.position x k = .done pos ∧ pos >>> 3 < bf.bits.size) ops
        BloomFilter.dropped := by
  have hall : RunAllows BloomFilter.step (fun _ _ => True) ops BloomFilter.dropped :=
    runAllows_of_all (fun _ _ => trivial) ops _
  refine runSatisfies_of_allows (fun bf t i h _ => step_bloomFilter bf t i h)
    (fun bf t h x k hk => ?_) ops filterHolds_dropped hall
  obtain ⟨pos, hrun, hlt, -⟩ := h.probe x hk
  exact ⟨pos, hrun, shift_lt hlt⟩

end Vani.Analysis
