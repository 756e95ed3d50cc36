import Mathlib.Algebra.GroupWithZero.Nat
import Mathlib.Tactic.Common

/-!
# Occurrences of one list in another

A scan from the left that skips every occurrence it finds. The elements between the
occurrences are the segments; joined by the list that was looked for they are the list that
was scanned. The scan goes element by element; a search for the next occurrence comes to the
same segments.
-/

set_option autoImplicit false

namespace Vani.Library

variable {α : Type} [DecidableEq α]

/-- The place of the leftmost occurrence. -/
def findIn (d : List α) : List α → Option Nat
  | [] => if d = [] then some 0 else none
  | c :: s => if d <+: c :: s then some 0 else (findIn d s).map (· + 1)

/-- The number of occurrences the scan counts, with so many elements left to skip. -/
def occurrencesFrom (d : List α) : Nat → List α → Nat
  | _, [] => 0
  | skip + 1, _ :: s => occurrencesFrom d skip s
  | 0, c :: s =>
    if d <+: c :: s then occurrencesFrom d (d.length - 1) s + 1 else occurrencesFrom d 0 s

/-- The number of leftmost occurrences that do not overlap. -/
def occurrences (d s : List α) : Nat := occurrencesFrom d 0 s

/-- The segments between the occurrences, with so many elements left to skip. -/
def segmentsFrom (d : List α) : Nat → List α → List (List α)
  | _, [] => [[]]
  | skip + 1, _ :: s => segmentsFrom d skip s
  | 0, c :: s =>
    if d <+: c :: s then [] :: segmentsFrom d (d.length - 1) s
    else (segmentsFrom d 0 s).modifyHead (c :: ·)

/-- The segments between the leftmost occurrences that do not overlap. -/
def segments (d s : List α) : List (List α) := segmentsFrom d 0 s

/-- Every leftmost occurrence that does not overlap an earlier one replaced; there is nothing
to replace for the empty list. -/
def replaceIn (d e s : List α) : List α := if d = [] then s else e.intercalate (segments d s)

/-! ## The scan -/

theorem segmentsFrom_ne_nil (d : List α) (skip : Nat) (s : List α) :
    segmentsFrom d skip s ≠ [] := by
  induction s generalizing skip with
  | nil => simp [segmentsFrom]
  | cons c s ih =>
    cases skip with
    | zero =>
      unfold segmentsFrom
      split
      · exact List.cons_ne_nil _ _
      · rw [Ne, List.modifyHead_eq_nil_iff]
        exact ih 0
    | succ skip => exact ih skip

theorem segments_ne_nil (d s : List α) : segments d s ≠ [] := segmentsFrom_ne_nil d 0 s

theorem segmentsFrom_skip (d : List α) {skip : Nat} {s : List α} (h : skip ≤ s.length) :
    segmentsFrom d skip s = segments d (s.drop skip) := by
  induction s generalizing skip with
  | nil =>
    rw [List.length_nil, Nat.le_zero] at h
    rw [h, List.drop_zero]
    rfl
  | cons c s ih =>
    cases skip with
    | zero => rfl
    | succ skip => exact ih (Nat.le_of_succ_le_succ h)

/-- There is one more segment than there are occurrences. -/
theorem length_segmentsFrom (d : List α) (skip : Nat) (s : List α) :
    (segmentsFrom d skip s).length = occurrencesFrom d skip s + 1 := by
  induction s generalizing skip with
  | nil => cases skip <;> rfl
  | cons c s ih =>
    cases skip with
    | zero =>
      unfold segmentsFrom occurrencesFrom
      by_cases hd : d <+: c :: s
      · rw [if_pos hd, if_pos hd, List.length_cons, ih]
      · rw [if_neg hd, if_neg hd, List.length_modifyHead, ih]
    | succ skip => exact ih skip

theorem length_segments (d s : List α) : (segments d s).length = occurrences d s + 1 :=
  length_segmentsFrom d 0 s

/-- The segments where an occurrence begins. -/
theorem segments_of_begins {d s : List α} (hd : d ≠ []) (h : d <+: s) :
    segments d s = [] :: segments d (s.drop d.length) := by
  have hpos : 0 < d.length := List.length_pos_iff.mpr hd
  have hle := h.length_le
  cases s with
  | nil => exact absurd (List.prefix_nil.mp h) hd
  | cons c s =>
    rw [List.length_cons] at hle
    obtain ⟨n, hn⟩ : ∃ n, d.length = n + 1 := ⟨d.length - 1, by omega⟩
    unfold segments
    rw [segmentsFrom, if_pos h, hn, Nat.add_sub_cancel, segmentsFrom_skip d (by omega)]
    rfl

/-- The segments where none begins. -/
theorem segments_of_not_begins {d s : List α} {c : α} (h : ¬ d <+: c :: s) :
    segments d (c :: s) = (segments d s).modifyHead (c :: ·) := by
  unfold segments
  rw [segmentsFrom, if_neg h]

/-! ## The search -/

/-- The place that is found is that of an occurrence, and there is none before it. -/
theorem findIn_some {d s : List α} {i : Nat} (h : findIn d s = some i) :
    d <+: s.drop i ∧ i ≤ s.length ∧ ∀ j < i, ¬ d <+: s.drop j := by
  induction s generalizing i with
  | nil =>
    unfold findIn at h
    split at h
    · next hd =>
      cases h
      exact ⟨hd ▸ List.nil_prefix, Nat.le_refl 0, nofun⟩
    · cases h
  | cons c s ih =>
    unfold findIn at h
    split at h
    · next hd =>
      cases h
      exact ⟨hd, Nat.zero_le _, nofun⟩
    · next hd =>
      obtain ⟨k, hk, rfl⟩ := Option.map_eq_some_iff.mp h
      obtain ⟨hpre, hle, hleast⟩ := ih hk
      refine ⟨hpre, Nat.succ_le_succ hle, fun j hj => ?_⟩
      cases j with
      | zero => exact hd
      | succ j => exact hleast j (by omega)

theorem findIn_end_le {d s : List α} {i : Nat} (h : findIn d s = some i) :
    i + d.length ≤ s.length := by
  obtain ⟨hpre, hle, -⟩ := findIn_some h
  have hlen := hpre.length_le
  rw [List.length_drop] at hlen
  omega

/-- Where nothing is found, nothing is there. -/
theorem findIn_none {d s : List α} (h : findIn d s = none) : ¬ d <:+: s := by
  induction s with
  | nil =>
    unfold findIn at h
    split at h
    · cases h
    · next hd => exact fun hin => hd (List.infix_nil.mp hin)
  | cons c s ih =>
    unfold findIn at h
    split at h
    · cases h
    · next hd =>
      rw [List.infix_cons_iff]
      rintro (hpre | hin)
      · exact hd hpre
      · exact ih (Option.map_eq_none_iff.mp h) hin

/-- Where nothing is found there is one segment. -/
theorem segments_of_none {d s : List α} (h : findIn d s = none) : segments d s = [s] := by
  induction s with
  | nil => rfl
  | cons c s ih =>
    have hd : ¬ d <+: c :: s := fun hpre => findIn_none h hpre.isInfix
    unfold findIn at h
    rw [if_neg hd] at h
    rw [segments_of_not_begins hd, ih (Option.map_eq_none_iff.mp h)]
    rfl

/-- The first segment ends at the place that is found, and the others lie behind the
occurrence there. -/
theorem segments_of_some {d s : List α} {i : Nat} (hd : d ≠ []) (h : findIn d s = some i) :
    segments d s = s.take i :: segments d (s.drop (i + d.length)) := by
  induction s generalizing i with
  | nil =>
    unfold findIn at h
    rw [if_neg hd] at h
    cases h
  | cons c s ih =>
    unfold findIn at h
    split at h
    · next hpre =>
      cases h
      rw [segments_of_begins hd hpre, List.take_zero, Nat.zero_add]
    · next hpre =>
      obtain ⟨k, hk, rfl⟩ := Option.map_eq_some_iff.mp h
      rw [segments_of_not_begins hpre, ih hk, List.modifyHead_cons, List.take_succ_cons,
        Nat.add_right_comm, List.drop_succ_cons]

/-- Recursion along the search: nothing is found, or what lies behind an occurrence comes
first. -/
theorem search_induction {d : List α} (hd : d ≠ []) {P : List α → Prop}
    (hnone : ∀ s, findIn d s = none → P s)
    (hsome : ∀ s i, findIn d s = some i → P (s.drop (i + d.length)) → P s) (s : List α) : P s := by
  have hpos : 0 < d.length := List.length_pos_iff.mpr hd
  induction hn : s.length using Nat.strongRecOn generalizing s with
  | ind n ih =>
    cases hfind : findIn d s with
    | none => exact hnone s hfind
    | some i =>
      have hle := findIn_end_le hfind
      have hlen : (s.drop (i + d.length)).length < n := by
        rw [List.length_drop]
        omega
      exact hsome s i hfind (ih _ hlen _ rfl)

/-! ## What the segments are -/

/-- The segments joined are the list. -/
theorem intercalate_segments {d : List α} (hd : d ≠ []) (s : List α) :
    d.intercalate (segments d s) = s := by
  induction s using search_induction hd with
  | hnone s h => rw [segments_of_none h, List.intercalate_singleton]
  | hsome s i h ih =>
    obtain ⟨⟨t, ht⟩, -, -⟩ := findIn_some h
    rw [segments_of_some hd h, List.intercalate_cons_of_ne_nil (segments_ne_nil _ _), ih,
      ← List.drop_drop, ← ht, List.drop_left, List.append_assoc, ht, List.take_append_drop]

/-- What was looked for occurs in no segment. -/
theorem not_infix_segments {d : List α} (hd : d ≠ []) {s t : List α} (ht : t ∈ segments d s) :
    ¬ d <:+: t := by
  induction s using search_induction hd with
  | hnone s h =>
    rw [segments_of_none h, List.mem_singleton] at ht
    exact ht ▸ findIn_none h
  | hsome s i h ih =>
    rw [segments_of_some hd h, List.mem_cons] at ht
    rcases ht with rfl | ht
    · rintro ⟨a, b, hab⟩
      obtain ⟨-, hle, hleast⟩ := findIn_some h
      have hlen := congrArg List.length hab
      have hpos : 0 < d.length := List.length_pos_iff.mpr hd
      simp only [List.length_append, List.length_take] at hlen
      refine hleast a.length (by omega) ⟨b ++ s.drop i, ?_⟩
      have hs : s = a ++ (d ++ (b ++ s.drop i)) := by
        rw [← List.append_assoc, ← List.append_assoc, hab, List.take_append_drop]
      conv_rhs => rw [hs, List.drop_left]
    · exact ih ht

/-- The elements of a segment are elements of the list. -/
theorem mem_of_mem_segments {d : List α} (hd : d ≠ []) {s t : List α} (ht : t ∈ segments d s)
    {c : α} (hc : c ∈ t) : c ∈ s := by
  induction s using search_induction hd with
  | hnone s h =>
    rw [segments_of_none h, List.mem_singleton] at ht
    exact ht ▸ hc
  | hsome s i h ih =>
    rw [segments_of_some hd h, List.mem_cons] at ht
    rcases ht with rfl | ht
    · exact List.mem_of_mem_take hc
    · exact List.mem_of_mem_drop (ih ht)

/-! ## Lengths -/

omit [DecidableEq α] in
/-- The length of a joined list. -/
theorem length_intercalate (e : List α) {l : List (List α)} (hl : l ≠ []) :
    (e.intercalate l).length = (l.map List.length).sum + (l.length - 1) * e.length := by
  induction l with
  | nil => exact absurd rfl hl
  | cons t l ih =>
    cases l with
    | nil => simp
    | cons u l =>
      rw [List.intercalate_cons_cons, List.length_append, List.length_append,
        ih (List.cons_ne_nil u l)]
      simp only [List.map_cons, List.sum_cons, List.length_cons, Nat.add_sub_cancel, Nat.succ_mul]
      omega

omit [DecidableEq α] in
/-- One more list is joined on. -/
theorem intercalate_concat (e : List α) {l : List (List α)} (hl : l ≠ []) (t : List α) :
    e.intercalate (l ++ [t]) = e.intercalate l ++ e ++ t := by
  induction l with
  | nil => exact absurd rfl hl
  | cons u l ih =>
    cases l with
    | nil => simp
    | cons w l =>
      rw [List.cons_append, List.cons_append, List.intercalate_cons_cons,
        List.intercalate_cons_cons, ← List.cons_append, ih (List.cons_ne_nil w l)]
      simp only [List.append_assoc]

/-- The length after replacement, as the occurrences found change it. -/
theorem length_replaceIn {d : List α} (hd : d ≠ []) (e s : List α) :
    (replaceIn d e s).length + occurrences d s * d.length =
      s.length + occurrences d s * e.length := by
  have hlen := congrArg List.length (intercalate_segments hd s)
  unfold replaceIn
  rw [if_neg hd]
  rw [length_intercalate d (segments_ne_nil d s), length_segments, Nat.add_sub_cancel] at hlen
  rw [length_intercalate e (segments_ne_nil d s), length_segments, Nat.add_sub_cancel]
  omega

theorem occurrences_of_none {d s : List α} (h : findIn d s = none) : occurrences d s = 0 := by
  have hlen := length_segments d s
  rw [segments_of_none h, List.length_singleton] at hlen
  omega

theorem occurrences_of_some {d s : List α} {i : Nat} (hd : d ≠ []) (h : findIn d s = some i) :
    occurrences d s = occurrences d (s.drop (i + d.length)) + 1 := by
  have hlen := length_segments d s
  rw [segments_of_some hd h, List.length_cons, length_segments] at hlen
  omega

/-- The occurrences are parts of the list. -/
theorem occurrences_mul_le {d : List α} (hd : d ≠ []) (s : List α) :
    occurrences d s * d.length ≤ s.length := by
  have hlen := congrArg List.length (intercalate_segments hd s)
  rw [length_intercalate d (segments_ne_nil d s), length_segments, Nat.add_sub_cancel] at hlen
  omega

/-- An element repeated holds as many occurrences of it. -/
theorem segments_replicate (c : α) (n : Nat) :
    segments [c] (List.replicate n c) = List.replicate (n + 1) [] := by
  induction n with
  | zero => rfl
  | succ n ih =>
    have hpre : [c] <+: List.replicate (n + 1) c := ⟨List.replicate n c, rfl⟩
    rw [segments_of_begins (List.cons_ne_nil c []) hpre, List.replicate_succ,
      List.length_singleton, List.drop_succ_cons, List.drop_zero, ih, ← List.replicate_succ]

-- Empty segments before and behind an occurrence, and the first of two that overlap.
example : segments [1, 1] [1, 1, 2, 1, 1, 1] = [[], [2], [1]] := by decide

end Vani.Library
