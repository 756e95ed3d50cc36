import Vani.Backend.Strings
import Vani.Analysis.VecRefines

/-!
# Splitting and joining strings

A split follows the search for the delimiter: each turn copies the piece before the next
occurrence, so the vector comes to hold the segments of the string. A join adds up the lengths
and then writes the pieces and the separators one behind the other, up to that length. Joined
by the delimiter, the pieces are the string again.
-/

set_option autoImplicit false

namespace Vani.Analysis

open Vani.Library Vani.Backend Outcome

/-- The buffer of a piece, as a vector holds it. -/
def piece (t : List UInt8) : Option TextBuffer := some (textBuffer t)

/-- The vector holds strings with these bytes. -/
def HoldsTexts (v : VecStr) (ts : List (List UInt8)) : Prop := Holding 8 v (ts.map piece)

/-- A request of at most so many bytes is refused. -/
def Refused (heap : Nat → Bool) (bytes : Nat) : Prop :=
  ∃ n, n ≤ bytes ∧ malloc heap n = false

/-! ## Splitting -/

/-- The bytes of a span make a string of their own. -/
theorem dupSpan_returns (heap : Nat → Bool) {l : List UInt8} {p n : Nat}
    (hp : p + n ≤ l.length) (hsmall : l.length + 1 < 2 ^ 63) :
    Returns (dupSpan heap (textBuffer l) p n) (malloc heap (n + 1) = false)
      (· = textBuffer ((l.drop p).take n)) := by
  have hmod : (n + 1) % 2 ^ 64 = n + 1 := Nat.mod_eq_of_lt (by omega)
  have hlen : ((l.drop p).take n).length = n := by
    rw [List.length_take, List.length_drop]
    omega
  unfold dupSpan
  rw [hmod]
  apply (newText_returns heap (n + 1)).bind
  rintro _ rfl
  have hroom : ([] : List UInt8).length + n ≤
      (Array.replicate (n + 1) (none : Option UInt8)).size := by
    rw [Array.size_replicate, List.length_nil]
    omega
  obtain ⟨a, hcopy, hsize, hbegins⟩ := (begins_nil _).copySpan hp hroom
  rw [List.nil_append] at hbegins
  have hwrite := hbegins.terminate (by rw [hsize, hlen, Array.size_replicate])
  rw [hlen] at hwrite
  rw [List.length_nil] at hcopy
  rw [hcopy, done_bind, hwrite]
  exact Returns.of_done rfl

/-- A piece is put behind the others. -/
theorem pushPiece_returns (heap : Nat → Bool) {v : VecStr} {ts : List (List UInt8)}
    (h : HoldsTexts v ts) (t : List UInt8) :
    Returns (pushPiece heap v (textBuffer t)) (Refused heap (16 * (ts.length + 2)))
      (HoldsTexts · (ts ++ [t])) := by
  have hlen : v.len = ts.length := by rw [h.len_eq, List.length_map]
  have hle := h.len_le
  have hreserve : Returns (reservePiece heap v) (Refused heap (16 * (ts.length + 2)))
      fun w => HoldsTexts w ts ∧ w.len < w.capacity := by
    unfold reservePiece
    by_cases hfull : v.capacity ≤ v.len
    · rw [if_pos hfull]
      have hbytes : v.capacity * 8 < 2 ^ 63 := h.bytes
      have hgrown : v.capacity < grownPieces v.capacity ∧
          grownPieces v.capacity * pointerSize ≤ 16 * (ts.length + 2) ∧
          grownPieces v.capacity * pointerSize < 2 ^ 64 := by
        unfold grownPieces pointerSize
        split <;> omega
      rw [Nat.mod_eq_of_lt hgrown.2.2]
      rcases malloc_cases heap (grownPieces v.capacity * pointerSize) with hno | ⟨hyes, hsmall⟩
      · exact Or.inl ⟨if_neg (by rw [hno]; exact Bool.false_ne_true), _, hgrown.2.1, hno⟩
      · rw [if_pos hyes]
        exact Returns.of_done ⟨h.grow (Nat.le_of_lt hgrown.1) hsmall, by dsimp only; omega⟩
    · rw [if_neg hfull]
      exact Returns.of_done ⟨h, by omega⟩
  unfold pushPiece
  apply hreserve.bind
  rintro w ⟨hw, hroom⟩
  have hcells := hw.cells
  rw [write_of_lt (by omega), done_bind]
  refine Returns.of_done ?_
  unfold HoldsTexts
  rw [List.map_append]
  exact Holding.append hw hroom (piece t)

/-- One turn: the piece up to the delimiter is put behind the others, and the search goes on
behind the delimiter. -/
theorem splitTurn_returns (heap : Nat → Bool) {l d : List UInt8} (hl : 0 ∉ l) (hd : 0 ∉ d)
    (hsmall : l.length + 1 < 2 ^ 63) {p : Nat} (hp : p ≤ l.length) {v : VecStr}
    {ts : List (List UInt8)} (hts : ts.length ≤ p) (h : HoldsTexts v ts) :
    Returns (splitTurn heap (textBuffer l) (textBuffer d) d.length (v, p))
      (Refused heap (16 * (l.length + 2))) fun x =>
        match findIn d (l.drop p) with
        | none => ∃ w, x = .inr w ∧ HoldsTexts w (ts ++ [l.drop p])
        | some i => ∃ w, x = .inl (w, p + (i + d.length)) ∧
            HoldsTexts w (ts ++ [(l.drop p).take i]) := by
  have hpush : ∀ n, p + n ≤ l.length → Returns (do
      let dup ← dupSpan heap (textBuffer l) p n
      pushPiece heap v dup) (Refused heap (16 * (l.length + 2)))
      (HoldsTexts · (ts ++ [(l.drop p).take n])) := by
    intro n hn
    have hspan := dupSpan_returns heap hn hsmall
    refine (hspan.imp_reason fun href => ⟨n + 1, by omega, href⟩).bind ?_
    rintro _ rfl
    refine (pushPiece_returns heap h _).imp_reason ?_
    rintro ⟨m, hm, href⟩
    exact ⟨m, by omega, href⟩
  unfold splitTurn
  dsimp only
  rw [strstr_textBuffer hl hd hp, done_bind]
  cases hfind : findIn d (l.drop p) with
  | none =>
    have hrest := hpush (l.length - p) (by omega)
    rw [List.take_of_length_le (by rw [List.length_drop])] at hrest
    rw [Option.map_none, spanTo, strlen_textBuffer hl hp, done_bind, ← bind_bind]
    apply hrest.bind
    intro w hw
    exact Returns.of_done ⟨w, rfl, hw⟩
  | some i =>
    have hend := findIn_end_le hfind
    rw [List.length_drop] at hend
    have hi := (findIn_some hfind).2.1
    rw [List.length_drop] at hi
    rw [Option.map_some, spanTo, pure_eq, done_bind, Nat.add_sub_cancel_left, ← bind_bind]
    apply (hpush i (by omega)).bind
    intro w hw
    exact Returns.of_done ⟨w, by rw [Nat.add_assoc], hw⟩

/-- The loop comes to hold the segments. -/
theorem splitLoop_returns (heap : Nat → Bool) {l d : List UInt8} (hl : 0 ∉ l) (hd : 0 ∉ d)
    (hne : d ≠ []) (hsmall : l.length + 1 < 2 ^ 63) (s : List UInt8) {fuel p : Nat}
    (hs : l.drop p = s) (hp : p ≤ l.length) (hfuel : s.length < fuel) {v : VecStr}
    {ts : List (List UInt8)} (hts : ts.length ≤ p) (h : HoldsTexts v ts) :
    Returns (Outcome.loop (splitTurn heap (textBuffer l) (textBuffer d) d.length) fuel (v, p))
      (Refused heap (16 * (l.length + 2))) (HoldsTexts · (ts ++ segments d s)) := by
  have hpos : 0 < d.length := List.length_pos_iff.mpr hne
  induction s using search_induction hne generalizing fuel p v ts with
  | hnone s hfind =>
    obtain ⟨fuel, rfl⟩ : ∃ m, fuel = m + 1 := ⟨fuel - 1, by omega⟩
    have hturn := splitTurn_returns heap hl hd hsmall hp hts h
    rw [hs, hfind] at hturn
    rw [segments_of_none hfind]
    apply hturn.loop_succ
    · rintro s' ⟨w, hw, -⟩
      cases hw
    · rintro r ⟨w, hw, hholds⟩
      cases hw
      exact hholds
  | hsome s i hfind ih =>
    obtain ⟨fuel, rfl⟩ : ∃ m, fuel = m + 1 := ⟨fuel - 1, by omega⟩
    have hturn := splitTurn_returns heap hl hd hsmall hp hts h
    rw [hs, hfind] at hturn
    have hend := findIn_end_le hfind
    have hslen := congrArg List.length hs
    rw [List.length_drop] at hslen
    rw [segments_of_some hne hfind, List.append_cons]
    apply hturn.loop_succ
    · rintro s' ⟨w, hw, hholds⟩
      cases hw
      refine ih ?_ (by omega) ?_ ?_ hholds
      · rw [← hs, List.drop_drop]
      · rw [List.length_drop]
        omega
      · rw [List.length_append, List.length_singleton]
        omega
    · rintro r ⟨w, hw, -⟩
      cases hw

/-- A split by a delimiter holds the segments of the string. -/
theorem strSplit_returns (heap : Nat → Bool) (s d : CStr) (hd : d.bytes ≠ []) :
    Returns (strSplit heap (some s.buffer) (some d.buffer))
      (Refused heap (16 * (s.bytes.length + 2))) (HoldsTexts · (segments d.bytes s.bytes)) := by
  have hlen : d.bytes.length ≠ 0 := mt List.length_eq_zero_iff.mp hd
  have hdl := strlen_textBuffer d.noNul (Nat.zero_le _)
  have hsl := strlen_textBuffer s.noNul (Nat.zero_le _)
  unfold strSplit strlenOrZero orEmpty CStr.buffer
  dsimp only [Option.getD_some]
  rw [hdl, hsl, done_bind, done_bind, Nat.sub_zero, Nat.sub_zero, if_neg hlen]
  have hempty : HoldsTexts ⟨#[], 0, 0⟩ [] := holding_empty
  exact splitLoop_returns heap s.noNul d.noNul hd s.small s.bytes List.drop_zero (Nat.zero_le _)
    (Nat.lt_succ_self _) (Nat.zero_le _) hempty

/-! ## Joining -/

/-- The strings of a vector are read by their places. -/
theorem HoldsTexts.load {v : VecStr} {ts : List (List UInt8)} (h : HoldsTexts v ts) {i : Nat}
    (hi : i < ts.length) : Vec.load v.data i = .done (some (textBuffer ts[i])) := by
  have hload := Holding.load h (show i < (ts.map piece).length by rwa [List.length_map])
  rw [List.getElem_map] at hload
  exact hload

/-- The first loop adds up the lengths. -/
theorem totalTurn_run {v : VecStr} {ts : List (List UInt8)} (h : HoldsTexts v ts)
    (hnul : ∀ t ∈ ts, 0 ∉ t) (hsmall : (ts.map List.length).sum < 2 ^ 64) :
    forRange (totalTurn v) ts.length 0 = .done (ts.map List.length).sum := by
  obtain ⟨total, hrun, htotal⟩ := forRange_of_step (n := ts.length) (f := totalTurn v) (s := 0)
    (fun i total => total = ((ts.take i).map List.length).sum) rfl (by
      rintro i _ hi rfl
      have hsplit : (ts.map List.length).sum =
          ((ts.take (i + 1)).map List.length).sum + ((ts.drop (i + 1)).map List.length).sum := by
        rw [← List.sum_append, ← List.map_append, List.take_append_drop]
      have hstep : ((ts.take (i + 1)).map List.length).sum =
          ((ts.take i).map List.length).sum + ts[i].length := by
        rw [List.take_succ_eq_append_getElem hi, List.map_append, List.sum_append]
        simp
      refine ⟨_, ?_, hstep.symm⟩
      unfold totalTurn
      rw [h.load hi, done_bind]
      dsimp only
      rw [strlen_textBuffer (hnul _ (List.getElem_mem hi)) (Nat.zero_le _), done_bind, Nat.sub_zero,
        Nat.mod_eq_of_lt (by omega)]
      rfl)
  rw [List.take_length] at htotal
  rw [hrun, htotal]

/-- The separator is written where it is due. -/
theorem joinSep_ok {e : List UInt8} {out : TextBuffer} {l : List UInt8} (h : Begins out l)
    {i : Nat} (hi : 0 < i) (hroom : l.length + e.length ≤ out.size) :
    ∃ out', joinSep (some (textBuffer e)) e.length i out l.length =
      .done (out', (l ++ e).length) ∧ out'.size = out.size ∧ Begins out' (l ++ e) := by
  unfold joinSep
  by_cases he : 0 < e.length
  · obtain ⟨out', hcopy, hsize, hbegins⟩ := h.copy (t := e) (p := 0) (by omega) hroom
    rw [List.drop_zero, List.take_length] at hbegins
    refine ⟨out', ?_, hsize, hbegins⟩
    rw [if_pos ⟨hi, he⟩, List.length_append]
    unfold orEmpty
    rw [Option.getD_some, hcopy]
    rfl
  · have hnil : e = [] := List.length_eq_zero_iff.mp (by omega)
    subst hnil
    refine ⟨out, ?_, rfl, ?_⟩
    · rw [if_neg fun hno => he hno.2, List.append_nil]
      rfl
    · rw [List.append_nil]
      exact h

/-- What is written after so many turns is shorter than the whole. -/
theorem length_intercalate_take (e : List UInt8) {ts : List (List UInt8)} {i : Nat}
    (hi : i < ts.length) :
    (e.intercalate (ts.take (i + 1))).length ≤ (e.intercalate ts).length := by
  have hne : ts ≠ [] := List.length_pos_iff.mp (by omega)
  have hsplit : (ts.map List.length).sum =
      ((ts.take (i + 1)).map List.length).sum + ((ts.drop (i + 1)).map List.length).sum := by
    rw [← List.sum_append, ← List.map_append, List.take_append_drop]
  have hseps : i * e.length ≤ (ts.length - 1) * e.length := Nat.mul_le_mul_right _ (by omega)
  have htake : ts.take (i + 1) ≠ [] := by
    rw [Ne, List.take_eq_nil_iff, not_or]
    exact ⟨Nat.succ_ne_zero i, hne⟩
  rw [length_intercalate e hne, length_intercalate e htake, List.length_take,
    Nat.min_eq_left (by omega), Nat.add_sub_cancel]
  omega

/-- One turn of the second loop writes the separator and the string. -/
theorem joinTurn_ok {v : VecStr} {ts : List (List UInt8)} (h : HoldsTexts v ts)
    (hnul : ∀ t ∈ ts, 0 ∉ t) {e : List UInt8} {out : TextBuffer} {i : Nat} (hi : i < ts.length)
    (hout : Begins out (e.intercalate (ts.take i)))
    (hsize : (e.intercalate ts).length ≤ out.size) :
    ∃ out', joinTurn v (some (textBuffer e)) e.length i
        (out, (e.intercalate (ts.take i)).length) =
      .done (out', (e.intercalate (ts.take (i + 1))).length) ∧ out'.size = out.size ∧
      Begins out' (e.intercalate (ts.take (i + 1))) := by
  have hroom := length_intercalate_take e hi
  rw [List.take_succ_eq_append_getElem hi] at hroom ⊢
  -- before the first string there is no separator
  obtain ⟨l, out₁, hsep, hsize₁, hbegins₁, hnext⟩ : ∃ l out₁,
      joinSep (some (textBuffer e)) e.length i out (e.intercalate (ts.take i)).length =
        .done (out₁, l.length) ∧ out₁.size = out.size ∧ Begins out₁ l ∧
        e.intercalate (ts.take i ++ [ts[i]]) = l ++ ts[i] := by
    by_cases hpos : 0 < i
    · have hne : ts.take i ≠ [] := by
        rw [Ne, List.take_eq_nil_iff, not_or]
        exact ⟨by omega, List.length_pos_iff.mp (by omega)⟩
      rw [intercalate_concat e hne, List.length_append, List.length_append] at hroom
      obtain ⟨out₁, hsep, hsize₁, hbegins₁⟩ := joinSep_ok hout (e := e) hpos (by omega)
      exact ⟨_, out₁, hsep, hsize₁, hbegins₁, intercalate_concat e hne _⟩
    · obtain rfl : i = 0 := by omega
      refine ⟨[], out, if_neg fun hno => hpos hno.1, rfl, begins_nil out, ?_⟩
      rw [List.take_zero, List.nil_append, List.nil_append, List.intercalate_singleton]
  rw [hnext] at hroom ⊢
  rw [List.length_append] at hroom ⊢
  obtain ⟨out', hcopy, hsize', hbegins'⟩ := hbegins₁.copy (t := ts[i]) (p := 0)
    (n := ts[i].length) (by omega) (by omega)
  rw [List.drop_zero, List.take_length] at hbegins'
  refine ⟨out', ?_, hsize'.trans hsize₁, hbegins'⟩
  unfold joinTurn
  dsimp only
  rw [hsep, done_bind, h.load hi]
  dsimp only
  rw [done_bind]
  dsimp only
  rw [strlen_textBuffer (hnul _ (List.getElem_mem hi)) (Nat.zero_le _), done_bind, Nat.sub_zero,
    hcopy]
  rfl

/-- A join of strings that fit in memory is their bytes with the separator between them. -/
theorem strJoin_returns (heap : Nat → Bool) {v : VecStr} {ts : List (List UInt8)}
    (h : HoldsTexts v ts) (hne : ts ≠ []) (hnul : ∀ t ∈ ts, 0 ∉ t) {e : List UInt8} (he : 0 ∉ e)
    (hsmall : (e.intercalate ts).length + 1 < 2 ^ 64) :
    Returns (strJoin heap (some v) (some (textBuffer e)))
      (malloc heap ((e.intercalate ts).length + 1) = false)
      (· = textBuffer (e.intercalate ts)) := by
  have hpos : 0 < ts.length := List.length_pos_iff.mpr hne
  have hlen : v.len = ts.length := by rw [h.len_eq, List.length_map]
  have hwhole := length_intercalate e hne
  have htotal : (if 1 < ts.length then
      ((ts.map List.length).sum + e.length * (ts.length - 1)) % 2 ^ 64
      else (ts.map List.length).sum) = (e.intercalate ts).length := by
    by_cases hone : 1 < ts.length
    · rw [if_pos hone, Nat.mul_comm, ← hwhole, Nat.mod_eq_of_lt (by omega)]
    · obtain hlen : ts.length = 1 := by omega
      rw [if_neg hone, hwhole, hlen, Nat.sub_self, Nat.zero_mul, Nat.add_zero]
  unfold strJoin
  dsimp only
  rw [hlen, if_neg (Nat.ne_of_gt hpos), strlenOrZero, strlen_textBuffer he (Nat.zero_le _),
    done_bind, totalTurn_run h hnul (by omega), done_bind]
  dsimp only [Nat.sub_zero]
  rw [htotal, Nat.mod_eq_of_lt hsmall]
  apply (newText_returns heap _).bind
  rintro _ rfl
  obtain ⟨⟨out, p⟩, hrun, rfl, hsize, hbegins⟩ := forRange_of_step (n := ts.length)
    (f := joinTurn v (some (textBuffer e)) e.length)
    (s := (Array.replicate ((e.intercalate ts).length + 1) none, 0))
    (fun i st => st.2 = (e.intercalate (ts.take i)).length ∧
      st.1.size = (e.intercalate ts).length + 1 ∧ Begins st.1 (e.intercalate (ts.take i)))
    ⟨rfl, Array.size_replicate, begins_nil _⟩ (by
      rintro i ⟨out, p⟩ hi ⟨rfl, hsize, hbegins⟩
      dsimp only at hsize hbegins ⊢
      obtain ⟨out', hturn, hsize', hbegins'⟩ :=
        joinTurn_ok h hnul hi hbegins (by rw [hsize]; exact Nat.le_succ _)
      exact ⟨_, hturn, rfl, hsize'.trans hsize, hbegins'⟩)
  dsimp only at hsize hbegins
  rw [List.take_length] at hbegins hrun
  rw [hrun, done_bind, hbegins.terminate hsize]
  exact Returns.of_done rfl

/-! ## The round trip -/

/-- **A string split by a delimiter and joined by it is the string again**: the pieces do not
hold the delimiter, there is one more of them than there are occurrences of it, and every
access is within its buffer. Only a refused request for memory aborts.
Source: backend_c.rs:5003-5039, 5185-5227 -/
theorem strJoin_strSplit (heap : Nat → Bool) (s d : CStr) (hd : d.bytes ≠ []) :
    Returns (strSplit heap (some s.buffer) (some d.buffer))
      (Refused heap (16 * (s.bytes.length + 2))) fun v => ∃ ts, HoldsTexts v ts ∧
        (∀ t ∈ ts, ¬ d.bytes <:+: t) ∧ ts.length = occurrences d.bytes s.bytes + 1 ∧
        Returns (strJoin heap (some v) (some d.buffer))
          (malloc heap (s.bytes.length + 1) = false) (· = s.buffer) := by
  refine (strSplit_returns heap s d hd).mono fun v hv => ⟨_, hv, ?_, ?_, ?_⟩
  · exact fun t ht => not_infix_segments hd ht
  · exact length_segments d.bytes s.bytes
  · have hback := intercalate_segments hd s.bytes
    have hsmall := s.small
    have hjoin := strJoin_returns heap hv (segments_ne_nil _ _)
      (fun t ht hmem => s.noNul (mem_of_mem_segments hd ht hmem)) d.noNul
      (by rw [hback]; omega)
    rw [hback] at hjoin
    exact hjoin

/-- "a,,b" and ",". -/
theorem strJoin_strSplit_commas :
    Returns (strSplit (fun _ => true) (some (textBuffer [97, 44, 44, 98])) (some (textBuffer [44])))
      (Refused (fun _ => true) 96) fun v => ∃ ts, HoldsTexts v ts ∧
        (∀ t ∈ ts, ¬ [44] <:+: t) ∧ ts.length = 3 ∧
        Returns (strJoin (fun _ => true) (some v) (some (textBuffer [44])))
          (malloc (fun _ => true) 5 = false) (· = textBuffer [97, 44, 44, 98]) :=
  strJoin_strSplit (fun _ => true) ⟨⟨[97, 44, 44, 98], by decide⟩, by decide⟩
    ⟨⟨[44], by decide⟩, by decide⟩ (by decide)

end Vani.Analysis
