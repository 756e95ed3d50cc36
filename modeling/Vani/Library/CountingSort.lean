import Mathlib.Data.List.Infix
import Mathlib.Tactic.Common

/-!
# Counting sort

Items with keys below a bound, or with none, are brought into the order of their keys in two
passes: the sizes of the buckets give the offset at which each begins, and a cursor for each
bucket then takes its items one after the other. Items of one key keep their order.
-/

set_option autoImplicit false

namespace Vani.Library

variable {α : Type} (key : α → Option Nat) (l : List α)

/-- The items with the key, in their order. -/
def bucket (u : Nat) : List α := l.filter fun x => key x = some u

/-- Where the bucket begins. -/
def offset : Nat → Nat
  | 0 => 0
  | u + 1 => offset u + (bucket key l u).length

variable {key l} {u v n i j : Nat} {x : α}

theorem offset_succ : offset key l (u + 1) = offset key l u + (bucket key l u).length := rfl

theorem bucket_concat : bucket key (l ++ [x]) u =
    bucket key l u ++ if key x = some u then [x] else [] := by
  unfold bucket
  rw [List.filter_append]
  by_cases hx : key x = some u <;> simp [hx]

theorem isPrefix_bucket (key : α → Option Nat) {l' : List α} (h : l' <+: l) (u : Nat) :
    bucket key l' u <+: bucket key l u :=
  h.filter _

theorem offset_mono (h : u ≤ v) : offset key l u ≤ offset key l v := by
  induction h with
  | refl => exact Nat.le_refl _
  | step _ ih => exact Nat.le_trans ih (Nat.le_add_right _ _)

theorem length_filter_or {p q : α → Bool} (h : ∀ x, p x = true → q x = false) :
    (l.filter fun x => p x || q x).length = (l.filter p).length + (l.filter q).length := by
  induction l with
  | nil => rfl
  | cons x l ih =>
    rw [List.filter_cons, List.filter_cons, List.filter_cons]
    cases hp : p x with
    | true =>
      rw [h x hp]
      simp only [Bool.or_false, if_true, Bool.false_eq_true, if_false, List.length_cons]
      omega
    | false =>
      cases q x with
      | true =>
        simp only [Bool.or_true, if_true, Bool.false_eq_true, if_false, List.length_cons]
        omega
      | false =>
        simp only [Bool.or_false, Bool.false_eq_true, if_false]
        exact ih

/-- The buckets hold the items with a key below the bound. -/
theorem offset_eq_length : offset key l n = (l.filter fun x => (key x).any (· < n)).length := by
  induction n with
  | zero => simp [offset]
  | succ n ih =>
    have hsplit : (fun x => (key x).any (· < n + 1)) =
        fun x => (key x).any (· < n) || decide (key x = some n) := by
      funext x
      cases key x with
      | none => rfl
      | some w =>
        rw [Option.any_some, Option.any_some, Bool.eq_iff_iff, Bool.or_eq_true,
          decide_eq_true_iff, decide_eq_true_iff, decide_eq_true_iff, Option.some.injEq]
        omega
    rw [offset_succ, ih, hsplit, length_filter_or]
    · rfl
    · intro x hx
      apply decide_eq_false
      intro hn
      rw [hn, Option.any_some, decide_eq_true_iff] at hx
      exact Nat.lt_irrefl n hx

/-- A place within a bucket lies before the end. -/
theorem place_lt (hu : u < n) (hj : j < (bucket key l u).length) :
    offset key l u + j < offset key l n := by
  have hle : offset key l (u + 1) ≤ offset key l n := offset_mono hu
  rw [offset_succ] at hle
  omega

/-- Different places in buckets are different positions. -/
theorem place_inj (hi : i < (bucket key l u).length) (hj : j < (bucket key l v).length)
    (h : offset key l u + i = offset key l v + j) : u = v ∧ i = j := by
  have huv : ¬ u < v := by
    intro hlt
    have hpos := place_lt hlt hi
    omega
  have hvu : ¬ v < u := by
    intro hlt
    have hpos := place_lt hlt hj
    omega
  obtain rfl : u = v := by omega
  exact ⟨rfl, by omega⟩

/-! ## The second pass -/

/-- The items so far are in their places, and the cursors behind them. `holds p x` says that
position `p` has the item. -/
structure Scattered (key : α → Option Nat) (l taken : List α) (n : Nat) (cur : Nat → Nat)
    (holds : Nat → α → Prop) : Prop where
  cursor : ∀ u, u < n → cur u = offset key l u + (bucket key taken u).length
  placed : ∀ u, u < n → ∀ j x, (bucket key taken u)[j]? = some x → holds (offset key l u + j) x

namespace Scattered

variable {taken : List α} {cur cur' : Nat → Nat} {holds holds' : Nat → α → Prop}

/-- An item without a bucket is passed over. -/
theorem skip (h : Scattered key l taken n cur holds) (hx : ∀ u, u < n → key x ≠ some u) :
    Scattered key l (taken ++ [x]) n cur holds := by
  have hsame : ∀ u, u < n → bucket key (taken ++ [x]) u = bucket key taken u := by
    intro u hu
    rw [bucket_concat, if_neg (hx u hu), List.append_nil]
  constructor
  · intro u hu
    rw [hsame u hu]
    exact h.cursor u hu
  · intro u hu j y hy
    rw [hsame u hu] at hy
    exact h.placed u hu j y hy

/-- The cursor has room for its next item. -/
theorem cursor_lt (h : Scattered key l taken n cur holds) (hpre : taken ++ [x] <+: l)
    (hu : u < n) (hx : key x = some u) : cur u < offset key l n := by
  have hlen := (isPrefix_bucket key hpre u).length_le
  rw [bucket_concat, if_pos hx, List.length_append, List.length_singleton] at hlen
  rw [h.cursor u hu]
  exact place_lt hu (by omega)

/-- An item goes where the cursor of its bucket is. -/
theorem place (h : Scattered key l taken n cur holds) (hpre : taken ++ [x] <+: l)
    (hu : u < n) (hx : key x = some u) (hcur : cur' u = cur u + 1)
    (hcur' : ∀ v, v ≠ u → cur' v = cur v) (hnew : holds' (cur u) x)
    (hkeep : ∀ p y, p ≠ cur u → holds p y → holds' p y) :
    Scattered key l (taken ++ [x]) n cur' holds' := by
  have hlen : ∀ v, (bucket key taken v).length ≤ (bucket key l v).length := fun v =>
    (isPrefix_bucket key ((List.prefix_append taken [x]).trans hpre) v).length_le
  have hroom : (bucket key taken u).length < (bucket key l u).length := by
    have hle := (isPrefix_bucket key hpre u).length_le
    rw [bucket_concat, if_pos hx, List.length_append, List.length_singleton] at hle
    omega
  constructor
  · intro v hv
    rw [bucket_concat]
    by_cases hvu : v = u
    · subst hvu
      rw [if_pos hx, List.length_append, List.length_singleton, hcur, h.cursor v hv]
      omega
    · have hne : ¬ key x = some v := by
        rw [hx, Option.some.injEq]
        exact fun hc => hvu hc.symm
      rw [if_neg hne, List.append_nil, hcur' v hvu]
      exact h.cursor v hv
  · intro v hv j y hy
    rw [bucket_concat] at hy
    by_cases hj : j < (bucket key taken v).length
    · rw [List.getElem?_append_left hj] at hy
      apply hkeep
      · intro hpos
        rw [h.cursor u hu] at hpos
        obtain ⟨rfl, hji⟩ := place_inj (by have := hlen v; omega) hroom hpos
        omega
      · exact h.placed v hv j y hy
    · rw [List.getElem?_append_right (by omega)] at hy
      by_cases hvu : v = u
      · subst hvu
        rw [if_pos hx] at hy
        obtain ⟨hlt, rfl⟩ := List.getElem?_eq_some_iff.mp hy
        have hzero : j - (bucket key taken v).length = 0 := by
          simpa using hlt
        have hat : offset key l v + j = cur v := by
          rw [h.cursor v hv]
          omega
        rw [hat]
        simpa [hzero] using hnew
      · have hne : ¬ key x = some v := by
          rw [hx, Option.some.injEq]
          exact fun hc => hvu hc.symm
        rw [if_neg hne] at hy
        cases hy

end Scattered

end Vani.Library
