import Vani.Backend.Channel
import Vani.Library.RingBuffer

/-!
# The window of a channel's slots

Tickets from the first that has not been released on to `cap` more fall on different slots.
In that window the sequence number of a slot tells whose turn it is: the ticket itself until
its producer publishes, one more until the consumer releases. A producer that finds its
ticket there has a free slot, if one more than a ticket is not the ticket that comes around
to the slot next, so the capacity must not be one.
-/

set_option autoImplicit false

namespace Vani.Analysis

open Vani.Library Vani.Backend Vani.Backend.Channel

variable {P α : Type}

/-! ## Slots -/

theorem pow2_of_accepted {N : Nat} (h : channelCapacityIsPow2 N = true) : ∃ k, N = 2 ^ k := by
  unfold channelCapacityIsPow2 at h
  rw [Bool.and_eq_true, decide_eq_true_iff, beq_iff_eq] at h
  exact (Nat.and_sub_one_eq_zero_iff_isPowerOfTwo (Nat.ne_of_gt h.1)).mp h.2

/-- A ticket is masked to its remainder. -/
theorem slot_eq {N k : Nat} (hN : N = 2 ^ k) (n : Nat) :
    Channel.slot N (n : Int) = .done (n % N) := by
  have hpos : 0 < N := by
    rw [hN]
    exact Nat.two_pow_pos k
  have hmask : ((N : Int) - 1) = ((N - 1 : Nat) : Int) := by omega
  have hland : (n : Int).land ((N : Int) - 1) = ((n % N : Nat) : Int) := by
    rw [hmask, hN, ← Nat.and_two_pow_sub_one_eq_mod]
    rfl
  unfold Channel.slot
  rw [hland, if_pos (Int.natCast_nonneg _)]
  rfl

/-! ## The window -/

/-- Whether a producer has a ticket that it has not published. -/
def holdsTicket : Send α → Bool
  | .store _ _ | .publish _ _ => true
  | _ => false

/-- The window: `ts` are the tickets in order, and the first `R` of them are released. -/
structure Ring (N R : Nat) (ts : List (P × α)) (ps : P → Send α) (c : Channel α) : Prop where
  buf_size : c.buf.size = N
  seq_size : c.seq.size = N
  tail : c.tail = ts.length
  room : ts.length ≤ R + N
  le : R ≤ ts.length
  free : ∀ n, ts.length ≤ n → n < R + N → c.seq[n % N]? = some (n : Int)
  taken : ∀ n p v, R ≤ n → ts[n]? = some (p, v) →
    c.seq[n % N]? = some (n : Int) ∧ ps p = .store v n ∨
      c.seq[n % N]? = some (n : Int) ∧ ps p = .publish v n ∧ c.buf[n % N]? = some v ∨
      c.seq[n % N]? = some ((n : Int) + 1) ∧ c.buf[n % N]? = some v
  holder : ∀ p v t, ps p = .store v t ∨ ps p = .publish v t →
    ∃ n : Nat, t = n ∧ R ≤ n ∧ ts[n]? = some (p, v) ∧ c.seq[n % N]? = some (n : Int)

namespace Ring

variable {N R : Nat} {ts : List (P × α)} {ps : P → Send α} {c : Channel α}

theorem window (h : Ring N R ts ps c) {m : Nat} {x : P × α} (hm : R ≤ m) (hx : ts[m]? = some x) :
    R ≤ m ∧ m < R + N := by
  have hlt := (List.getElem?_eq_some_iff.mp hx).1
  have hroom := h.room
  omega

/-- A sequence number is less than the capacity past the tickets. -/
theorem seq_lt (h : Ring N R ts ps c) {i : Nat} (hi : i < N) :
    ∃ x : Int, c.seq[i]? = some x ∧ 0 ≤ x ∧ x < ts.length + N := by
  obtain ⟨n, hR, hlt, rfl⟩ := exists_position R hi
  have hle := h.le
  rcases Nat.lt_or_ge n ts.length with hn | hn
  · have hx := List.getElem?_eq_getElem hn
    rcases h.taken n _ _ hR hx with ⟨hs, -⟩ | ⟨hs, -⟩ | ⟨hs, -⟩
    · exact ⟨n, hs, by omega, by omega⟩
    · exact ⟨n, hs, by omega, by omega⟩
    · exact ⟨n + 1, hs, by omega, by omega⟩
  · exact ⟨n, h.free n hn hlt, by omega, by omega⟩

/-- A producer that finds its ticket in the slot has room, for two slots or more. -/
theorem room_of_seq (h : Ring N R ts ps c) (hN : 2 ≤ N)
    (hseq : c.seq[ts.length % N]? = some (ts.length : Int)) : ts.length < R + N := by
  have hroom := h.room
  rcases Nat.lt_or_ge ts.length (R + N) with hlt | hge
  · exact hlt
  · -- the slot is that of the first ticket of the window, and holds it or one more
    have hlen : ts.length = R + N := by omega
    rw [hlen, Nat.add_mod_right] at hseq
    obtain ⟨⟨q, w⟩, hx⟩ : ∃ x, ts[R]? = some x :=
      ⟨_, List.getElem?_eq_getElem (by omega)⟩
    rcases h.taken R q w le_rfl hx with ⟨hs, -⟩ | ⟨hs, -⟩ | ⟨hs, -⟩ <;>
    · rw [hseq] at hs
      have hval := Option.some.inj hs
      push_cast at hval
      omega

/-- A published ticket is held by no producer, and its value is in the slot. -/
theorem value_of_seq (h : Ring N R ts ps c) (hseq : c.seq[R % N]? = some ((R : Int) + 1))
    (hN : 2 ≤ N) : ∃ x, ts[R]? = some x ∧ c.buf[R % N]? = some x.2 := by
  have hlt : R < ts.length := by
    by_contra hge
    have hfree := h.free R (by omega) (by omega)
    rw [hseq] at hfree
    have hval := Option.some.inj hfree
    omega
  refine ⟨ts[R], List.getElem?_eq_getElem hlt, ?_⟩
  rcases h.taken R ts[R].1 ts[R].2 le_rfl (List.getElem?_eq_getElem hlt) with
    ⟨hs, -⟩ | ⟨hs, -⟩ | ⟨-, hbuf⟩
  · rw [hseq] at hs
    have hval := Option.some.inj hs
    omega
  · rw [hseq] at hs
    have hval := Option.some.inj hs
    omega
  · exact hbuf

/-- The consumer releases the slot of the first ticket of the window. -/
theorem release (h : Ring N R ts ps c) (hlt : R < ts.length)
    (hdone : c.seq[R % N]? = some ((R : Int) + 1)) :
    Ring N (R + 1) ts ps { c with seq := c.seq.setIfInBounds (R % N) (R + N) } := by
  have hroom := h.room
  have hfirst : R ≤ R ∧ R < R + N := by omega
  have hother : ∀ m, R ≤ m ∧ m < R + N → m ≠ R →
      (c.seq.setIfInBounds (R % N) ((R : Int) + N))[m % N]? = c.seq[m % N]? := fun m hm hne =>
    Array.getElem?_setIfInBounds_ne (mod_ne_of_window hfirst hm (Ne.symm hne))
  refine ⟨h.buf_size, ?_, h.tail, by omega, by omega, fun m hm hlt' => ?_,
    fun m q w hm hq => ?_, fun q w t hq => ?_⟩
  · rw [Array.size_setIfInBounds, h.seq_size]
  · by_cases hlast : m = R + N
    · subst hlast
      have hbound : R % N < c.seq.size := by
        rw [h.seq_size]
        exact Nat.mod_lt R (by omega)
      rw [Nat.add_mod_right, Array.getElem?_setIfInBounds_self_of_lt hbound]
      push_cast
      rfl
    · rw [hother m ⟨by omega, by omega⟩ (by omega)]
      exact h.free m hm (by omega)
  · rw [hother m (h.window (by omega) hq) (by omega)]
    exact h.taken m q w (by omega) hq
  · obtain ⟨m, ht, hm, hx, hseq⟩ := h.holder q w t hq
    have hne : m ≠ R := by
      rintro rfl
      rw [hdone] at hseq
      have hval := Option.some.inj hseq
      omega
    refine ⟨m, ht, by omega, hx, ?_⟩
    rw [hother m (h.window hm hx) hne, hseq]

variable [DecidableEq P] {p : P} {v : α} {n : Nat}

/-- A producer without a ticket goes on without one. -/
theorem move (h : Ring N R ts ps c) (hp : holdsTicket (ps p) = false) {x : Send α}
    (hx : holdsTicket x = false) : Ring N R ts (Function.update ps p x) c where
  buf_size := h.buf_size
  seq_size := h.seq_size
  tail := h.tail
  room := h.room
  le := h.le
  free := h.free
  taken m q w hm hq := by
    by_cases hqp : q = p
    · subst hqp
      rcases h.taken m q w hm hq with ⟨-, hst⟩ | ⟨-, hst, -⟩ | hdone
      · rw [hst] at hp
        cases hp
      · rw [hst] at hp
        cases hp
      · exact Or.inr (Or.inr hdone)
    · rw [Function.update_of_ne hqp]
      exact h.taken m q w hm hq
  holder q w t hq := by
    by_cases hqp : q = p
    · subst hqp
      rw [Function.update_self] at hq
      rcases hq with rfl | rfl <;> cases hx
    · rw [Function.update_of_ne hqp] at hq
      exact h.holder q w t hq

/-- A producer takes the next ticket. -/
theorem take (h : Ring N R ts ps c) (hp : holdsTicket (ps p) = false) (hroom : ts.length < R + N) :
    Ring N R (ts ++ [(p, v)]) (Function.update ps p (.store v ts.length))
      { c with tail := ts.length + 1 } where
  buf_size := h.buf_size
  seq_size := h.seq_size
  tail := by
    rw [List.length_append, List.length_singleton]
    rfl
  room := by
    rw [List.length_append, List.length_singleton]
    omega
  le := by
    have hle := h.le
    rw [List.length_append]
    omega
  free m hm hlt := by
    rw [List.length_append, List.length_singleton] at hm
    exact h.free m (by omega) hlt
  taken m q w hm hq := by
    by_cases hnew : m < ts.length
    · rw [List.getElem?_append_left hnew] at hq
      by_cases hqp : q = p
      · subst hqp
        rcases h.taken m q w hm hq with ⟨-, hst⟩ | ⟨-, hst, -⟩ | hdone
        · rw [hst] at hp
          cases hp
        · rw [hst] at hp
          cases hp
        · exact Or.inr (Or.inr hdone)
      · rw [Function.update_of_ne hqp]
        exact h.taken m q w hm hq
    · have hlast : m = ts.length := by
        have hlt := (List.getElem?_eq_some_iff.mp hq).1
        rw [List.length_append, List.length_singleton] at hlt
        omega
      subst hlast
      rw [List.getElem?_concat_length] at hq
      cases hq
      refine Or.inl ⟨h.free ts.length le_rfl hroom, ?_⟩
      rw [Function.update_self]
  holder q w t hq := by
    by_cases hqp : q = p
    · subst hqp
      rw [Function.update_self] at hq
      rcases hq with hq | hq
      · cases hq
        refine ⟨ts.length, rfl, h.le, ?_, h.free ts.length le_rfl hroom⟩
        rw [List.getElem?_concat_length]
      · cases hq
    · rw [Function.update_of_ne hqp] at hq
      obtain ⟨m, ht, hm, hx, hseq⟩ := h.holder q w t hq
      refine ⟨m, ht, hm, ?_, hseq⟩
      rw [List.getElem?_append_left (List.getElem?_eq_some_iff.mp hx).1, hx]

/-- A producer stores its value into the slot of its ticket. -/
theorem store (h : Ring N R ts ps c) (hp : ps p = .store v n) :
    Ring N R ts (Function.update ps p (.publish v n))
      { c with buf := c.buf.setIfInBounds (n % N) v } where
  buf_size := by rw [Array.size_setIfInBounds, h.buf_size]
  seq_size := h.seq_size
  tail := h.tail
  room := h.room
  le := h.le
  free := h.free
  taken m q w hm hq := by
    obtain ⟨n', hn', hRn, hx, hseq⟩ := h.holder p v n (Or.inl hp)
    obtain rfl : n = n' := by omega
    by_cases hmn : m = n
    · subst hmn
      rw [hq] at hx
      cases hx
      refine Or.inr (Or.inl ⟨hseq, Function.update_self _ _ _, ?_⟩)
      have hbound : m % N < c.buf.size := by
        rw [h.buf_size]
        exact Nat.mod_lt m (by have := h.window hm hq; omega)
      rw [Array.getElem?_setIfInBounds_self_of_lt hbound]
    · have hslot : n % N ≠ m % N :=
        mod_ne_of_window (h.window hRn hx) (h.window hm hq) (Ne.symm hmn)
      rw [Array.getElem?_setIfInBounds_ne hslot]
      by_cases hqp : q = p
      · subst hqp
        rcases h.taken m q w hm hq with ⟨-, hst⟩ | ⟨-, hst, -⟩ | hdone
        · rw [hp] at hst
          cases hst
          exact absurd rfl hmn
        · rw [hp] at hst
          cases hst
        · exact Or.inr (Or.inr hdone)
      · rw [Function.update_of_ne hqp]
        exact h.taken m q w hm hq
  holder q w t hq := by
    by_cases hqp : q = p
    · subst hqp
      rw [Function.update_self] at hq
      rcases hq with hq | hq
      · cases hq
      · cases hq
        exact h.holder q v n (Or.inl hp)
    · rw [Function.update_of_ne hqp] at hq
      exact h.holder q w t hq

/-- A producer publishes its ticket. -/
theorem publish (h : Ring N R ts ps c) (hp : ps p = .publish v n) :
    Ring N R ts (Function.update ps p .idle)
      { c with seq := c.seq.setIfInBounds (n % N) (n + 1) } := by
  obtain ⟨n', hn', hRn, hx, hseq⟩ := h.holder p v n (Or.inr hp)
  obtain rfl : n = n' := by omega
  have hwin := h.window hRn hx
  have hother : ∀ m, R ≤ m ∧ m < R + N → m ≠ n →
      (c.seq.setIfInBounds (n % N) ((n : Int) + 1))[m % N]? = c.seq[m % N]? := fun m hm hne =>
    Array.getElem?_setIfInBounds_ne (mod_ne_of_window hwin hm (Ne.symm hne))
  refine ⟨h.buf_size, ?_, h.tail, h.room, h.le, fun m hm hlt => ?_, fun m q w hm hq => ?_,
    fun q w t hq => ?_⟩
  · rw [Array.size_setIfInBounds, h.seq_size]
  · have hlt' := (List.getElem?_eq_some_iff.mp hx).1
    rw [hother m ⟨by omega, hlt⟩ (by omega)]
    exact h.free m hm hlt
  · by_cases hmn : m = n
    · subst hmn
      rw [hq] at hx
      cases hx
      have hbound : m % N < c.seq.size := by
        rw [h.seq_size]
        exact Nat.mod_lt m (by omega)
      refine Or.inr (Or.inr ⟨Array.getElem?_setIfInBounds_self_of_lt hbound, ?_⟩)
      rcases h.taken m p v hm hq with ⟨-, hst⟩ | ⟨-, -, hbuf⟩ | ⟨-, hbuf⟩
      · rw [hp] at hst
        cases hst
      · exact hbuf
      · exact hbuf
    · rw [hother m (h.window hm hq) hmn]
      by_cases hqp : q = p
      · subst hqp
        rcases h.taken m q w hm hq with ⟨-, hst⟩ | ⟨-, hst, -⟩ | hdone
        · rw [hp] at hst
          cases hst
        · rw [hp] at hst
          cases hst
          exact absurd rfl hmn
        · exact Or.inr (Or.inr hdone)
      · rw [Function.update_of_ne hqp]
        exact h.taken m q w hm hq
  · by_cases hqp : q = p
    · subst hqp
      rw [Function.update_self] at hq
      rcases hq with hq | hq <;> cases hq
    · rw [Function.update_of_ne hqp] at hq
      obtain ⟨m, ht, hm, hxm, hseqm⟩ := h.holder q w t hq
      have hmn : m ≠ n := by
        rintro rfl
        rw [hxm] at hx
        cases hx
        exact hqp rfl
      refine ⟨m, ht, hm, hxm, ?_⟩
      rw [hother m (h.window hm hxm) hmn, hseqm]

end Ring

end Vani.Analysis
