import Vani.Backend.Strings
import Mathlib

/-!
# Replacement in two passes

The first pass counts the matches and computes the length from their number, the second copies
into a buffer of that length. Both follow the same search, so they agree as long as the length
and its NUL fit `size_t`. Nothing checks that they do: a longer result is given a buffer of the
length modulo `2 ^ 64`, and the second pass writes past its end.
-/

set_option autoImplicit false

namespace Vani.Analysis

open Vani.Library Vani.Backend Outcome

/-! ## The first pass -/

/-- The first pass counts the occurrences. -/
theorem countLoop_run {l d : List UInt8} (hl : 0 ∉ l) (hd : 0 ∉ d) (hne : d ≠ [])
    (s : List UInt8) {fuel p hits : Nat} (hs : l.drop p = s) (hp : p ≤ l.length)
    (hfuel : s.length < fuel) (hhits : hits + occurrences d s < 2 ^ 64) :
    Outcome.loop (countTurn (textBuffer l) (textBuffer d) d.length) fuel (hits, p) =
      .done (hits + occurrences d s) := by
  have hpos : 0 < d.length := List.length_pos_iff.mpr hne
  induction s using search_induction hne generalizing fuel p hits with
  | hnone s hfind =>
    obtain ⟨fuel, rfl⟩ : ∃ m, fuel = m + 1 := ⟨fuel - 1, by omega⟩
    have hturn : countTurn (textBuffer l) (textBuffer d) d.length (hits, p) =
        .done (.inr hits) := by
      unfold countTurn
      dsimp only
      rw [strstr_textBuffer hl hd hp, done_bind, hs, hfind]
      rfl
    rw [Outcome.loop, hturn, occurrences_of_none hfind]
    rfl
  | hsome s i hfind ih =>
    obtain ⟨fuel, rfl⟩ : ∃ m, fuel = m + 1 := ⟨fuel - 1, by omega⟩
    rw [occurrences_of_some hne hfind] at hhits ⊢
    have hturn : countTurn (textBuffer l) (textBuffer d) d.length (hits, p) =
        .done (.inl (hits + 1, p + i + d.length)) := by
      unfold countTurn
      dsimp only
      rw [strstr_textBuffer hl hd hp, done_bind, hs, hfind, Option.map_some]
      dsimp only
      rw [Nat.mod_eq_of_lt (by omega)]
      rfl
    have hend := findIn_end_le hfind
    have hslen := congrArg List.length hs
    rw [List.length_drop] at hslen
    rw [Outcome.loop, hturn]
    dsimp only
    rw [ih (by rw [← hs, List.drop_drop, Nat.add_assoc]) (by omega)
      (by rw [List.length_drop]; omega) (by omega), Nat.add_assoc, Nat.add_comm 1]

theorem countHits_run {s d : CStr} (hne : d.bytes ≠ []) :
    countHits s.buffer d.buffer d.bytes.length s.bytes.length =
      .done (occurrences d.bytes s.bytes) := by
  have hsmall := s.small
  have hpos : 0 < d.bytes.length := List.length_pos_iff.mpr hne
  have hmul := occurrences_mul_le hne s.bytes
  have hle : occurrences d.bytes s.bytes ≤ occurrences d.bytes s.bytes * d.bytes.length :=
    Nat.le_mul_of_pos_right _ hpos
  unfold countHits
  have hbound : 0 + occurrences d.bytes s.bytes < 2 ^ 64 := by omega
  have hrun := countLoop_run s.noNul d.noNul hne s.bytes List.drop_zero (Nat.zero_le _)
    (Nat.lt_succ_self _) hbound
  rw [Nat.zero_add] at hrun
  exact hrun

/-- The length is computed modulo `2 ^ 64`. -/
theorem newLength_eq {sLen hits toLen fnLen : Nat} (h : hits * fnLen ≤ sLen) :
    newLength sLen hits toLen fnLen = (sLen + hits * toLen - hits * fnLen) % 2 ^ 64 := by
  unfold newLength
  rw [UInt64.toNat_sub, UInt64.toNat_add, UInt64.toNat_mul, UInt64.toNat_mul]
  simp only [UInt64.toNat_ofNat']
  rw [← Nat.mul_mod, ← Nat.mul_mod]
  omega

/-! ## The second pass -/

/-- A turn of the second pass before a match. -/
theorem copyTurn_some {l d e : List UInt8} (hl : 0 ∉ l) (hd : 0 ∉ d) {out : TextBuffer}
    {dst p i : Nat} (hp : p ≤ l.length) (hfind : findIn d (l.drop p) = some i) :
    copyTurn (textBuffer l) (textBuffer d) (textBuffer e) d.length e.length (out, dst, p) = (do
      let out ← copySpan out dst (textBuffer l) p i
      let out ← copySpan out (dst + i) (textBuffer e) 0 e.length
      pure (.inl (out, dst + i + e.length, p + (i + d.length)))) := by
  unfold copyTurn
  dsimp only
  rw [strstr_textBuffer hl hd hp, done_bind, hfind, Option.map_some]
  dsimp only
  rw [Nat.add_sub_cancel_left, Nat.add_assoc p]

/-- A turn of the second pass behind the last match. -/
theorem copyTurn_none {l d e : List UInt8} (hl : 0 ∉ l) (hd : 0 ∉ d) {out : TextBuffer}
    {dst p : Nat} (hp : p ≤ l.length) (hfind : findIn d (l.drop p) = none) :
    copyTurn (textBuffer l) (textBuffer d) (textBuffer e) d.length e.length (out, dst, p) = (do
      let out ← copySpan out dst (textBuffer l) p (l.length - p)
      pure (.inr (← Outcome.write out (dst + (l.length - p)) (some 0)))) := by
  unfold copyTurn
  dsimp only
  rw [strstr_textBuffer hl hd hp, done_bind, hfind, Option.map_none]
  dsimp only
  rw [strlen_textBuffer hl hp, done_bind]

/-- The second pass fills a buffer that has the right size. -/
theorem copyLoop_run {l d e : List UInt8} (hl : 0 ∉ l) (hd : 0 ∉ d) (hne : d ≠ [])
    (s : List UInt8) {fuel p : Nat} (hs : l.drop p = s) (hp : p ≤ l.length)
    (hfuel : s.length < fuel) {out : TextBuffer} {w : List UInt8} (hout : Begins out w)
    (hsize : out.size = (w ++ e.intercalate (segments d s)).length + 1) :
    Outcome.loop (copyTurn (textBuffer l) (textBuffer d) (textBuffer e) d.length e.length) fuel
      (out, w.length, p) = .done (textBuffer (w ++ e.intercalate (segments d s))) := by
  have hpos : 0 < d.length := List.length_pos_iff.mpr hne
  induction s using search_induction hne generalizing fuel p out w with
  | hnone s hfind =>
    obtain ⟨fuel, rfl⟩ : ∃ m, fuel = m + 1 := ⟨fuel - 1, by omega⟩
    have hslen : l.length - p = s.length := by rw [← hs, List.length_drop]
    rw [segments_of_none hfind, List.intercalate_singleton] at hsize ⊢
    rw [List.length_append] at hsize
    obtain ⟨out', hcopy, hsize', hout'⟩ := hout.copySpan (t := l) (p := p) (n := s.length)
      (by omega) (by omega)
    rw [hs, List.take_length] at hout'
    have hwrite := hout'.terminate (by rw [hsize', hsize, List.length_append])
    rw [List.length_append] at hwrite
    rw [Outcome.loop, copyTurn_none hl hd hp (hs ▸ hfind), hslen, hcopy, done_bind, hwrite]
    rfl
  | hsome s i hfind ih =>
    obtain ⟨fuel, rfl⟩ : ∃ m, fuel = m + 1 := ⟨fuel - 1, by omega⟩
    have hend := findIn_end_le hfind
    have hslen : l.length - p = s.length := by rw [← hs, List.length_drop]
    have htake : (s.take i).length = i := by
      rw [List.length_take]
      omega
    rw [segments_of_some hne hfind, List.intercalate_cons_of_ne_nil (segments_ne_nil _ _),
      ← List.append_assoc, ← List.append_assoc] at hsize ⊢
    have hroom := hsize
    rw [List.length_append, List.length_append, List.length_append, htake] at hroom
    -- the bytes before the match, then the replacement
    obtain ⟨out₁, hcopy₁, hsize₁, hout₁⟩ := hout.copySpan (t := l) (p := p) (n := i)
      (by omega) (by omega)
    rw [hs] at hout₁
    obtain ⟨out₂, hcopy₂, hsize₂, hout₂⟩ := hout₁.copySpan (t := e) (p := 0) (n := e.length)
      (by omega) (by rw [List.length_append, htake]; omega)
    rw [List.drop_zero, List.take_length] at hout₂
    rw [List.length_append, htake] at hcopy₂
    rw [Outcome.loop, copyTurn_some hl hd hp (hs ▸ hfind), hcopy₁, done_bind, hcopy₂, done_bind]
    have hdst : w.length + i + e.length = (w ++ s.take i ++ e).length := by
      rw [List.length_append, List.length_append, htake]
    dsimp only [pure_eq]
    rw [hdst]
    refine ih ?_ (by omega) (by rw [List.length_drop]; omega) hout₂ ?_
    · rw [← hs, List.drop_drop]
    · rw [hsize₂, hsize₁, hsize]

/-- The second pass leaves a buffer that is too small. -/
theorem copyLoop_stuck {l d e : List UInt8} (hl : 0 ∉ l) (hd : 0 ∉ d) (hne : d ≠ [])
    (s : List UInt8) {p : Nat} (hs : l.drop p = s) (hp : p ≤ l.length) {out : TextBuffer}
    {dst : Nat} (hsize : out.size ≤ dst + (e.intercalate (segments d s)).length) (fuel : Nat) :
    Outcome.loop (copyTurn (textBuffer l) (textBuffer d) (textBuffer e) d.length e.length) fuel
      (out, dst, p) = .stuck := by
  induction s using search_induction hne generalizing fuel p out dst with
  | hnone s hfind =>
    cases fuel with
    | zero => rfl
    | succ fuel =>
      have hslen : l.length - p = s.length := by rw [← hs, List.length_drop]
      rw [segments_of_none hfind, List.intercalate_singleton] at hsize
      rw [Outcome.loop, copyTurn_none hl hd hp (hs ▸ hfind), hslen]
      rcases copySpan_cases out dst (textBuffer l) p s.length with hno | ⟨out', hcopy, hsize'⟩
      · rw [hno]
        rfl
      · have hwrite : Outcome.write out' (dst + s.length) (some 0) = .stuck := if_neg (by omega)
        rw [hcopy, done_bind, hwrite]
        rfl
  | hsome s i hfind ih =>
    cases fuel with
    | zero => rfl
    | succ fuel =>
      have hend := findIn_end_le hfind
      have hslen : l.length - p = s.length := by rw [← hs, List.length_drop]
      rw [segments_of_some hne hfind, List.intercalate_cons_of_ne_nil (segments_ne_nil _ _),
        List.length_append, List.length_append, List.length_take] at hsize
      rw [Outcome.loop, copyTurn_some hl hd hp (hs ▸ hfind)]
      rcases copySpan_cases out dst (textBuffer l) p i with hno | ⟨out₁, hcopy₁, hsize₁⟩
      · rw [hno]
        rfl
      · rw [hcopy₁, done_bind]
        rcases copySpan_cases out₁ (dst + i) (textBuffer e) 0 e.length with
          hno | ⟨out₂, hcopy₂, hsize₂⟩
        · rw [hno]
          rfl
        · rw [hcopy₂, done_bind]
          refine ih ?_ (by omega) ?_ fuel
          · rw [← hs, List.drop_drop]
          · omega

/-! ## The passes together -/

/-- The length the first pass computes is that of the text with the replacements. -/
def LengthsAgree (s from' to' : CStr) : Prop :=
  ∃ hits, countHits s.buffer from'.buffer from'.bytes.length s.bytes.length = .done hits ∧
    newLength s.bytes.length hits to'.bytes.length from'.bytes.length =
      (replaceIn from'.bytes to'.bytes s.bytes).length

/-- The passes agree, and the result is the text with the replacements; only a refused request
for memory aborts. -/
def ReplacesAll (s from' to' : CStr) : Prop :=
  (from'.bytes ≠ [] → LengthsAgree s from' to') ∧
    ∀ heap, Returns (strReplace heap (some s.buffer) (some from'.buffer) (some to'.buffer))
      (malloc heap ((replaceIn from'.bytes to'.bytes s.bytes).length + 1) = false)
      (· = textBuffer (replaceIn from'.bytes to'.bytes s.bytes))

/-- The length that is computed, from the length that is right. -/
theorem newLength_replaceIn {s from' : CStr} (to' : CStr) (hne : from'.bytes ≠ []) :
    newLength s.bytes.length (occurrences from'.bytes s.bytes) to'.bytes.length
      from'.bytes.length = (replaceIn from'.bytes to'.bytes s.bytes).length % 2 ^ 64 := by
  have hlen := length_replaceIn hne to'.bytes s.bytes
  rw [newLength_eq (occurrences_mul_le hne s.bytes), ← hlen, Nat.add_sub_cancel]

/-- What is left of a replacement after the first pass. -/
theorem strReplace_eq (heap : Nat → Bool) {s from' : CStr} (to' : CStr) (hne : from'.bytes ≠ []) :
    strReplace heap (some s.buffer) (some from'.buffer) (some to'.buffer) = (do
      let out ← newText heap
        (((replaceIn from'.bytes to'.bytes s.bytes).length % 2 ^ 64 + 1) % 2 ^ 64)
      Outcome.loop (copyTurn s.buffer from'.buffer to'.buffer from'.bytes.length
        to'.bytes.length) (s.bytes.length + 1) (out, 0, 0)) := by
  have hfn : from'.bytes.length ≠ 0 := mt List.length_eq_zero_iff.mp hne
  have hlen : ∀ t : CStr, strlen t.buffer 0 = .done t.bytes.length := fun t =>
    strlen_textBuffer t.noNul (Nat.zero_le _)
  unfold strReplace orEmpty
  dsimp only [Option.getD_some]
  rw [hlen, hlen, hlen, done_bind, done_bind, if_neg hfn, done_bind, countHits_run hne, done_bind,
    newLength_replaceIn to' hne]

/-- Where there is nothing to replace the string is copied. -/
theorem strReplace_empty (heap : Nat → Bool) (s from' to' : CStr) (hnil : from'.bytes = []) :
    Returns (strReplace heap (some s.buffer) (some from'.buffer) (some to'.buffer))
      (malloc heap (s.bytes.length + 1) = false) (· = s.buffer) := by
  have hsmall := s.small
  have hlen : ∀ t : CStr, strlen t.buffer 0 = .done t.bytes.length := fun t =>
    strlen_textBuffer t.noNul (Nat.zero_le _)
  unfold strReplace orEmpty
  dsimp only [Option.getD_some]
  rw [hlen, hlen, hnil, done_bind, done_bind, List.length_nil, if_pos rfl]
  unfold dupText
  rw [Nat.mod_eq_of_lt (by omega)]
  apply (newText_returns heap _).bind
  rintro _ rfl
  have hsize : s.buffer.size = s.bytes.length + 1 := size_textBuffer s.bytes
  have hsrc : 0 + (s.bytes.length + 1) ≤ s.buffer.size := by omega
  have hdst : 0 + (s.bytes.length + 1) ≤
      (Array.replicate (s.bytes.length + 1) (none : Option UInt8)).size := by
    rw [Array.size_replicate, Nat.zero_add]
  obtain ⟨a, hcopy, hasize, hget⟩ := Outcome.copy_of_le hsrc hdst
  rw [hcopy]
  refine Returns.of_done (Array.ext_getElem? fun i => ?_)
  by_cases hi : i < s.bytes.length + 1
  · rw [hget, if_pos ⟨Nat.zero_le i, by omega⟩, Nat.sub_zero, Nat.zero_add]
  · rw [Array.getElem?_eq_none (by rw [hasize, Array.size_replicate]; omega),
      Array.getElem?_eq_none (by omega)]

/-- A result that fits is right. -/
theorem strReplace_fits (heap : Nat → Bool) (s from' to' : CStr) (hne : from'.bytes ≠ [])
    (hfits : (replaceIn from'.bytes to'.bytes s.bytes).length + 1 < 2 ^ 64) :
    Returns (strReplace heap (some s.buffer) (some from'.buffer) (some to'.buffer))
      (malloc heap ((replaceIn from'.bytes to'.bytes s.bytes).length + 1) = false)
      (· = textBuffer (replaceIn from'.bytes to'.bytes s.bytes)) := by
  rw [strReplace_eq heap to' hne, Nat.mod_add_mod, Nat.mod_eq_of_lt hfits]
  apply (newText_returns heap _).bind
  rintro _ rfl
  have hrepl : replaceIn from'.bytes to'.bytes s.bytes =
      to'.bytes.intercalate (segments from'.bytes s.bytes) := if_neg hne
  rw [hrepl]
  refine Returns.of_exists ⟨_, ?_, rfl⟩
  exact copyLoop_run s.noNul from'.noNul hne s.bytes List.drop_zero (Nat.zero_le _)
    (Nat.lt_succ_self _) (begins_nil _) Array.size_replicate

/-- A result that does not fit overruns the buffer, once there is one. -/
theorem strReplace_overruns (heap : Nat → Bool) (s from' to' : CStr) (hne : from'.bytes ≠ [])
    (hover : 2 ^ 64 ≤ (replaceIn from'.bytes to'.bytes s.bytes).length + 1)
    (hgranted : malloc heap
      (((replaceIn from'.bytes to'.bytes s.bytes).length + 1) % 2 ^ 64) = true) :
    strReplace heap (some s.buffer) (some from'.buffer) (some to'.buffer) = .stuck := by
  have hrepl : replaceIn from'.bytes to'.bytes s.bytes =
      to'.bytes.intercalate (segments from'.bytes s.bytes) := if_neg hne
  rw [strReplace_eq heap to' hne, Nat.mod_add_mod]
  unfold newText
  rw [if_pos hgranted, pure_eq, done_bind]
  have hsize : ((replaceIn from'.bytes to'.bytes s.bytes).length + 1) % 2 ^ 64 ≤
      (replaceIn from'.bytes to'.bytes s.bytes).length := by
    have hlt : ((replaceIn from'.bytes to'.bytes s.bytes).length + 1) % 2 ^ 64 < 2 ^ 64 :=
      Nat.mod_lt _ (Nat.two_pow_pos 64)
    omega
  refine copyLoop_stuck s.noNul from'.noNul hne s.bytes List.drop_zero (Nat.zero_le _) ?_ _
  rw [Array.size_replicate, Nat.zero_add, ← hrepl]
  exact hsize

/-- **The two passes agree exactly if the result fits**: the text with the replacements and its
NUL is shorter than `2 ^ 64`, or there is nothing to replace.
Source: backend_c.rs:5237-5288 -/
theorem strReplace_iff (s from' to' : CStr) :
    ReplacesAll s from' to' ↔ from'.bytes = [] ∨
      s.bytes.length + occurrences from'.bytes s.bytes * to'.bytes.length + 1 <
        2 ^ 64 + occurrences from'.bytes s.bytes * from'.bytes.length := by
  by_cases hne : from'.bytes = []
  · refine iff_of_true ⟨fun h => absurd hne h, fun heap => ?_⟩ (Or.inl hne)
    have hself : replaceIn from'.bytes to'.bytes s.bytes = s.bytes := if_pos hne
    rw [hself]
    exact strReplace_empty heap s from' to' hne
  · have hlen := length_replaceIn hne to'.bytes s.bytes
    have hcond : (from'.bytes = [] ∨
        s.bytes.length + occurrences from'.bytes s.bytes * to'.bytes.length + 1 <
          2 ^ 64 + occurrences from'.bytes s.bytes * from'.bytes.length) ↔
        (replaceIn from'.bytes to'.bytes s.bytes).length + 1 < 2 ^ 64 := by
      rw [or_iff_right hne]
      omega
    rw [hcond]
    constructor
    · rintro ⟨hagree, hruns⟩
      obtain ⟨hits, hcount, hnew⟩ := hagree hne
      rw [countHits_run hne] at hcount
      cases hcount
      rw [newLength_replaceIn to' hne] at hnew
      by_contra hover
      -- the only length that is computed right and does not fit is the greatest
      have hmax : (replaceIn from'.bytes to'.bytes s.bytes).length + 1 = 2 ^ 64 := by omega
      have hstuck := strReplace_overruns (fun _ => true) s from' to' hne (by omega) (by
        rw [hmax, Nat.mod_self]
        exact malloc_granted (Nat.two_pow_pos 63))
      rcases hruns fun _ => true with ⟨hrun, -⟩ | ⟨out, hrun, -⟩
      · rw [hstuck] at hrun
        cases hrun
      · rw [hstuck] at hrun
        cases hrun
    · intro hfits
      refine ⟨fun _ => ⟨_, countHits_run hne, ?_⟩,
        fun heap => strReplace_fits heap s from' to' hne hfits⟩
      rw [newLength_replaceIn to' hne]
      exact Nat.mod_eq_of_lt (by omega)

/-! ## A product that wraps -/

/-- A letter repeated. -/
def letters (n : Nat) (h : n + 1 < 2 ^ 63) : CStr where
  bytes := List.replicate n 97
  noNul hmem := absurd (List.eq_of_mem_replicate hmem) (by decide)
  small := by rwa [List.length_replicate]

/-- Each letter replaced by as many letters. -/
theorem length_replaceIn_letters (n : Nat) (h : n + 1 < 2 ^ 63) :
    (replaceIn [97] (letters n h).bytes (letters n h).bytes).length = n * n := by
  have hne : ([97] : List UInt8) ≠ [] := List.cons_ne_nil _ _
  have hoccurs : occurrences [97] (letters n h).bytes = n := by
    have hlen := length_segments [97] (letters n h).bytes
    unfold letters at hlen ⊢
    rw [segments_replicate, List.length_replicate] at hlen
    omega
  have hlen := length_replaceIn hne (letters n h).bytes (letters n h).bytes
  have hn : (letters n h).bytes.length = n := List.length_replicate
  rw [hoccurs, hn, List.length_singleton] at hlen
  omega

/-- Four gibibytes of a letter, and the letter replaced by as many: the length is computed to
be zero, and the buffer is overrun. -/
theorem letters_refutes :
    ¬ ReplacesAll (letters (2 ^ 32) (by norm_num)) (letters 1 (by norm_num))
      (letters (2 ^ 32) (by norm_num)) := by
  have hlen := length_replaceIn_letters (2 ^ 32) (by norm_num)
  have hsquare : (2 ^ 32 * 2 ^ 32 : Nat) = 2 ^ 64 := by norm_num
  have hone : (letters 1 (by norm_num)).bytes = [97] := rfl
  have hstuck := strReplace_overruns (fun _ => true) (letters (2 ^ 32) (by norm_num))
    (letters 1 (by norm_num)) (letters (2 ^ 32) (by norm_num)) (List.cons_ne_nil _ _)
    (by rw [hone, hlen, hsquare]; exact Nat.le_succ _)
    (by
      rw [hone, hlen, hsquare, Nat.add_mod_left]
      exact malloc_granted (by norm_num))
  rintro ⟨-, hruns⟩
  rcases hruns fun _ => true with ⟨hrun, -⟩ | ⟨out, hrun, -⟩
  · rw [hstuck] at hrun
    cases hrun
  · rw [hstuck] at hrun
    cases hrun

end Vani.Analysis
