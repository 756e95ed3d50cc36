import Vani.Backend.VecQueries
import Vani.Analysis.SortedArrays

/-!
# Safety of the filter on vectors

The filter asks its predicate about every element twice. The buffer has room for as many
elements as the first round picks, and the second round fills it: the filter is safe exactly
where the second round picks as many elements as the first. A predicate that is a function of
the element does.
-/

set_option autoImplicit false

namespace Vani.Analysis

open Vani.Library Vani.Backend

variable {ω : Type} {p : Predicate ω} {v : Vec Int64} {l : List Int64} {heap : Nat → Bool}

/-- A round of questions goes on to one more element, unless a call has not returned. -/
def more (p : Predicate ω) : List Int64 × Option ω → Int64 → List Int64 × Option ω
  | (xs, none), _ => (xs, none)
  | (xs, some w), x =>
    match p w x with
    | none => (xs, none)
    | some (true, w') => (xs ++ [x], some w')
    | some (false, w') => (xs, some w')

/-- What a round of questions picks and the world after it; `none` where a call does not
return. -/
def picked (p : Predicate ω) (w : ω) (l : List Int64) : List Int64 × Option ω :=
  l.foldl (more p) ([], some w)

theorem picked_concat (w : ω) (l : List Int64) (x : Int64) :
    picked p w (l ++ [x]) = more p (picked p w l) x := by
  unfold picked
  rw [List.foldl_append]
  rfl

theorem more_length_le (r : List Int64 × Option ω) (x : Int64) :
    (more p r x).1.length ≤ r.1.length + 1 := by
  obtain ⟨xs, _ | w⟩ := r
  · exact Nat.le_succ _
  · rcases hx : p w x with _ | ⟨_ | _, w'⟩
    · simp only [more, hx, Nat.le_succ]
    · simp only [more, hx, Nat.le_succ]
    · simp only [more, hx, List.length_append, List.length_singleton, Nat.le_refl]

/-- A round picks no more than there is. -/
theorem picked_length_le (w : ω) (l : List Int64) : (picked p w l).1.length ≤ l.length := by
  induction l using List.reverseRecOn with
  | nil => exact Nat.le_refl 0
  | append_singleton xs x ih =>
    rw [picked_concat, List.length_append]
    exact (more_length_le _ x).trans (Nat.succ_le_succ ih)

theorem take_succ_concat {i : Nat} (hi : i < l.length) : l.take (i + 1) = l.take i ++ [l[i]] := by
  rw [List.take_add_one, List.getElem?_eq_getElem hi]
  rfl

/-- The outcome of a round whose calls all return, or one that ends in a call. -/
def afterRound {β : Type} (r : List Int64 × Option ω) (k : ω → β) : Outcome β :=
  match r.2 with
  | none => .aborted
  | some w => .done (k w)

/-- The first loop counts what a round of questions picks. -/
theorem countLoop_ok (h : Holding 8 v l) (w : ω) {n : Nat} (hn : n ≤ l.length) :
    Outcome.forRange (Vec.countTurn p v) n (0, w) =
      afterRound (picked p w (l.take n)) fun w' => ((picked p w (l.take n)).1.length, w') := by
  induction n with
  | zero => rfl
  | succ i ih =>
    rw [Outcome.forRange, ih (Nat.le_of_succ_le hn), take_succ_concat hn, picked_concat]
    rcases picked p w (l.take i) with ⟨xs, _ | w'⟩
    · rfl
    · have hload := h.load hn
      simp only [afterRound, Outcome.done_bind, Vec.countTurn, hload, Vec.ask]
      rcases hx : p w' l[i] with _ | ⟨_ | _, w''⟩
      · simp only [more, hx, Outcome.aborted_bind]
      · simp only [more, hx, Outcome.pure_eq, Outcome.done_bind, Bool.false_eq_true, if_false]
      · simp only [more, hx, Outcome.pure_eq, Outcome.done_bind, if_true, List.length_append,
          List.length_singleton]

/-- A buffer of `n` cells filled from its start. -/
def filled (n : Nat) (xs : List Int64) : Array (Option Int64) :=
  (xs.map some ++ List.replicate (n - xs.length) none).toArray

theorem filled_size {n : Nat} {xs : List Int64} (h : xs.length ≤ n) : (filled n xs).size = n := by
  unfold filled
  rw [List.size_toArray, List.length_append, List.length_map, List.length_replicate]
  omega

theorem filled_get {n : Nat} {xs : List Int64} {i : Nat} (hi : i < xs.length) :
    (filled n xs)[i]? = some xs[i]? := by
  unfold filled
  rw [List.getElem?_toArray, List.getElem?_append_left (by rwa [List.length_map]),
    List.getElem?_map, List.getElem?_eq_getElem hi]
  rfl

/-- A cell behind those filled. -/
theorem filled_get_none {n : Nat} {xs : List Int64} (h : xs.length < n) :
    (filled n xs)[xs.length]? = some none := by
  unfold filled
  rw [List.getElem?_toArray, List.getElem?_append_right (by rw [List.length_map]),
    List.length_map, Nat.sub_self, List.getElem?_replicate_of_lt (by omega)]

/-- The next cell is written, if there is one. -/
theorem filled_write {n : Nat} {xs : List Int64} (h : xs.length ≤ n) (x : Int64) :
    Outcome.write (filled n xs) xs.length (some x) =
      if xs.length < n then .done (filled n (xs ++ [x])) else .stuck := by
  unfold Outcome.write
  rw [filled_size h]
  by_cases hlt : xs.length < n
  · rw [if_pos hlt, if_pos hlt]
    refine congrArg Outcome.done ?_
    obtain ⟨m, hm⟩ : ∃ m, n - xs.length = m + 1 := ⟨n - xs.length - 1, by omega⟩
    have hm' : n - (xs ++ [x]).length = m := by
      rw [List.length_append, List.length_singleton]
      omega
    unfold filled
    rw [hm, hm', List.replicate_succ, List.map_append, List.setIfInBounds_toArray,
      List.set_append_right _ _ (by rw [List.length_map]), List.length_map, Nat.sub_self,
      List.set_cons_zero, List.append_assoc]
    rfl
  · rw [if_neg hlt, if_neg hlt]

/-- The second loop copies what a round of questions picks, and is stuck where that is more
than the buffer has room for. -/
theorem fillLoop_ok (h : Holding 8 v l) (w : ω) (room : Nat) {n : Nat} (hn : n ≤ l.length) :
    Outcome.forRange (Vec.fillTurn p v) n (0, Array.replicate room none, w) =
      if (picked p w (l.take n)).1.length ≤ room then
        afterRound (picked p w (l.take n)) fun w' =>
          ((picked p w (l.take n)).1.length, filled room (picked p w (l.take n)).1, w')
      else .stuck := by
  induction n with
  | zero =>
    rw [List.take_zero, if_pos (show (picked p w []).1.length ≤ room from Nat.zero_le room)]
    simp [Outcome.forRange, picked, afterRound, filled]
  | succ i ih =>
    rw [Outcome.forRange, ih (Nat.le_of_succ_le hn), take_succ_concat hn, picked_concat]
    rcases picked p w (l.take i) with ⟨xs, _ | w'⟩
    · by_cases hroom : xs.length ≤ room
      · simp only [more, hroom, if_true, afterRound, Outcome.aborted_bind]
      · simp only [more, hroom, if_false, Outcome.stuck_bind]
    · have hload := h.load hn
      by_cases hroom : xs.length ≤ room
      · simp only [hroom, if_true, afterRound, Outcome.done_bind, Vec.fillTurn, hload, Vec.ask]
        rcases hx : p w' l[i] with _ | ⟨_ | _, w''⟩
        · simp only [more, hx, hroom, if_true, Outcome.aborted_bind]
        · simp only [more, hx, hroom, if_true, Outcome.pure_eq, Outcome.done_bind,
            Bool.false_eq_true, if_false]
        · simp only [more, hx, Outcome.pure_eq, Outcome.done_bind, if_true, List.length_append,
            List.length_singleton, filled_write hroom]
          by_cases hlt : xs.length < room
          · rw [if_pos hlt, if_pos (Nat.succ_le_of_lt hlt), Outcome.done_bind]
          · rw [if_neg hlt, if_neg (fun hle => hlt (Nat.lt_of_succ_le hle)), Outcome.stuck_bind]
      · rw [if_neg hroom, Outcome.stuck_bind]
        have hlong : ¬(more p (xs, some w') l[i]).1.length ≤ room := by
          rcases hx : p w' l[i] with _ | ⟨_ | _, w''⟩
          · simpa only [more, hx] using hroom
          · simpa only [more, hx] using hroom
          · simp only [more, hx, List.length_append]
            omega
        exact (if_neg hlong).symm

/-! ## The filter -/

/-- The second round picks as many elements as the first, as far as it comes; where the
first picks none or there is no memory there is no second. -/
def SecondAgrees (heap : Nat → Bool) (p : Predicate ω) (w : ω) (l : List Int64) : Prop :=
  ∀ w', (picked p w l).2 = some w' → 0 < (picked p w l).1.length →
    malloc heap ((picked p w l).1.length * 8) = true →
    (picked p w' l).1.length ≤ (picked p w l).1.length ∧
      ∀ w'', (picked p w' l).2 = some w'' →
        (picked p w' l).1.length = (picked p w l).1.length

/-- The filter stays within its buffers, and what it returns is initialised. -/
def SafeFilter : Outcome (Vec Int64 × ω) → Prop
  | .stuck => False
  | .aborted => True
  | .done (out, _) => ∃ xs, Holding 8 out xs

/-- The predicate is a function of the element. -/
def AnswersBy (p : Predicate ω) (q : Int64 → Bool) : Prop :=
  ∀ w x, ∃ w', p w x = some (q x, w')

/-- The filter picks the elements of a predicate that is a function of the element, or is
refused the memory for them. -/
def ExactFilter (heap : Nat → Bool) (p : Predicate ω) (l : List Int64) :
    Outcome (Vec Int64 × ω) → Prop
  | .stuck => False
  | .aborted => ∀ q, AnswersBy p q → malloc heap ((l.filter q).length * 8) = false
  | .done (out, _) => ∀ q, AnswersBy p q → Holding 8 out (l.filter q)

/-- What the filter does, by its two rounds. -/
theorem filter_eq (h : Holding 8 v l) (w : ω) :
    Vec.filter p heap v w =
      match (picked p w l).2 with
      | none => .aborted
      | some w' =>
        if (picked p w l).1.length = 0 then .done (⟨#[], 0, 0⟩, w')
        else if malloc heap ((picked p w l).1.length * 8) then
          if (picked p w' l).1.length ≤ (picked p w l).1.length then
            afterRound (picked p w' l) fun w'' =>
              (⟨filled (picked p w l).1.length (picked p w' l).1, (picked p w l).1.length,
                (picked p w l).1.length⟩, w'')
          else .stuck
        else .aborted := by
  have htake : l.take v.len = l := by rw [h.len_eq, List.take_length]
  have hcount := countLoop_ok (p := p) h w (Nat.le_of_eq h.len_eq)
  rw [htake] at hcount
  unfold Vec.filter
  rw [hcount]
  unfold afterRound
  rcases (picked p w l).2 with _ | w'
  · rfl
  · rw [Outcome.done_bind]
    dsimp only
    have hfill := fillLoop_ok (p := p) h w' (picked p w l).1.length (Nat.le_of_eq h.len_eq)
    rw [htake] at hfill
    rw [hfill]
    by_cases hle : (picked p w' l).1.length ≤ (picked p w l).1.length
    · simp only [if_pos hle]
      unfold afterRound
      rcases (picked p w' l).2 with _ | w'' <;> rfl
    · simp only [if_neg hle]
      rfl

/-- Rounds of a predicate that is a function of the element. -/
theorem AnswersBy.picked {q : Int64 → Bool} (hq : AnswersBy p q) (w : ω) (l : List Int64) :
    ∃ w', Analysis.picked p w l = (l.filter q, some w') := by
  induction l using List.reverseRecOn with
  | nil => exact ⟨w, rfl⟩
  | append_singleton xs x ih =>
    obtain ⟨w₁, hxs⟩ := ih
    obtain ⟨w₂, hx⟩ := hq w₁ x
    refine ⟨w₂, ?_⟩
    rw [picked_concat, hxs, more, hx, List.filter_append]
    cases hqx : q x with
    | true => simp only [List.filter_cons, hqx, if_true, List.filter_nil]
    | false =>
      simp only [List.filter_cons, hqx, Bool.false_eq_true, if_false, List.filter_nil,
        List.append_nil]

/-- A buffer filled by a round holds what is picked exactly where it is filled to its end. -/
theorem holding_filled_iff (h : Holding 8 v l) {w : ω} {n : Nat} {xs : List Int64}
    (hn : n = (picked p w l).1.length) (hle : xs.length ≤ n) :
    (∃ ys, Holding 8 ⟨filled n xs, n, n⟩ ys) ↔ xs.length = n := by
  constructor
  · rintro ⟨ys, hys⟩
    by_contra hne
    have hlt : xs.length < n := by omega
    have hlen : n = ys.length := hys.len_eq
    have hcell := hys.elem xs.length (by omega)
    rw [show (filled n xs)[xs.length]? = some none from filled_get_none hlt,
      List.getElem?_eq_getElem (by omega)] at hcell
    cases hcell
  · intro heq
    refine ⟨xs, filled_size hle, heq.symm, Nat.le_refl _, ?_, fun i hi => filled_get hi⟩
    have hpicked := picked_length_le (p := p) w l
    have hvec := h.len_eq
    have hcap := h.len_le
    have hbytes : v.capacity * 8 < 2 ^ 63 := h.bytes
    exact (show n * 8 < 2 ^ 63 by omega)

/-- **The filter on vectors** is safe, and exact for a predicate that is a function of the
element, exactly where the second round of questions picks as many elements as the first.
Source: backend_c.rs:6198-6217 -/
theorem filter_safe_iff (heap : Nat → Bool) (p : Predicate ω) (v : Vec Int64) (l : List Int64)
    (w : ω) (h : Holding 8 v l) :
    (SafeFilter (v.filter p heap w) ∧ ExactFilter heap p l (v.filter p heap w)) ↔
      SecondAgrees heap p w l := by
  have hrounds : ∀ {q}, AnswersBy p q → ∀ w, (picked p w l).1 = l.filter q ∧
      (picked p w l).2 ≠ none := by
    intro q hq w
    obtain ⟨w', hround⟩ := hq.picked w l
    rw [hround]
    exact ⟨rfl, nofun⟩
  rw [filter_eq h]
  unfold SecondAgrees
  rcases hworld : (picked p w l).2 with _ | w'
  · exact ⟨fun _ => nofun, fun _ => ⟨trivial, fun q hq => absurd hworld (hrounds hq w).2⟩⟩
  dsimp only
  by_cases hzero : (picked p w l).1.length = 0
  · -- nothing is picked, and there is no second round
    rw [if_pos hzero]
    refine ⟨fun _ w' _ hpos => absurd hzero (Nat.ne_of_gt hpos),
      fun _ => ⟨⟨[], holding_empty⟩, fun q hq => ?_⟩⟩
    rw [← (hrounds hq w).1, List.eq_nil_of_length_eq_zero hzero]
    exact holding_empty
  rw [if_neg hzero]
  by_cases hmem : malloc heap ((picked p w l).1.length * 8) = true
  · rw [if_pos hmem]
    have hpos : 0 < (picked p w l).1.length := Nat.pos_of_ne_zero hzero
    by_cases hle : (picked p w' l).1.length ≤ (picked p w l).1.length
    · rw [if_pos hle]
      unfold afterRound
      rcases hworld' : (picked p w' l).2 with _ | w''
      · refine ⟨fun _ w₁ hw₁ _ _ => ?_, fun _ => ⟨trivial, fun q hq =>
          absurd hworld' (hrounds hq w').2⟩⟩
        cases hw₁
        exact ⟨hle, fun _ hnone => by rw [hworld'] at hnone; cases hnone⟩
      · have hholding := holding_filled_iff h rfl hle
        refine ⟨fun hsafe w₁ hw₁ _ _ => ?_, fun hagree => ?_⟩
        · cases hw₁
          exact ⟨hle, fun _ _ => hholding.mp hsafe.1⟩
        · have heq := (hagree w' rfl hpos hmem).2 w'' hworld'
          refine ⟨hholding.mpr heq, fun q hq => ?_⟩
          obtain ⟨ys, hys⟩ := hholding.mpr heq
          have hsame : (picked p w' l).1 = l.filter q := (hrounds hq w').1
          rw [← hsame]
          exact ⟨filled_size hle, heq.symm, Nat.le_refl _, hys.bytes, fun i hi => filled_get hi⟩
    · rw [if_neg hle]
      exact ⟨fun hsafe => hsafe.1.elim, fun hagree => absurd (hagree w' rfl hpos hmem).1 hle⟩
  · rw [if_neg hmem]
    refine ⟨fun _ w' _ _ hyes => absurd hyes hmem, fun _ => ⟨trivial, fun q hq => ?_⟩⟩
    rw [← (hrounds hq w).1]
    exact Bool.eq_false_iff.mpr hmem

/-- A predicate that answers every second question with yes. -/
def alternating : Predicate Bool := fun turn _ => some (turn, !turn)

/-- The condition at three elements and a predicate that picks the same twice. -/
theorem filter_safe_three :
    (SafeFilter (Vec.filter (fun w x => some (decide (x < 3), w)) (fun _ => true)
          ⟨([1, 5, 2] : List Int64).map some |>.toArray, 3, 3⟩ ()) ∧
        ExactFilter (fun _ => true) (fun w x => some (decide (x < 3), w)) [1, 5, 2]
          (Vec.filter (fun w x => some (decide (x < 3), w)) (fun _ => true)
            ⟨([1, 5, 2] : List Int64).map some |>.toArray, 3, 3⟩ ())) ↔
      SecondAgrees (fun _ => true) (fun (w : Unit) x => some (decide (x < 3), w)) () [1, 5, 2] :=
  filter_safe_iff _ _ _ _ _ (holding_full (l := [1, 5, 2]) (by decide))

/-- Three questions and three more: the first round picks one element, the second two. -/
theorem alternating_refutes :
    ¬∀ (heap : Nat → Bool) (p : Predicate Bool) (v : Vec Int64) (l : List Int64) (w : Bool),
      Holding 8 v l →
        SafeFilter (v.filter p heap w) ∧ ExactFilter heap p l (v.filter p heap w) := by
  intro hall
  have hsafe := (hall (fun _ => true) alternating
    ⟨([1, 2, 3] : List Int64).map some |>.toArray, 3, 3⟩ [1, 2, 3] false
    (holding_full (l := [1, 2, 3]) (by decide))).1
  exact hsafe

end Vani.Analysis
