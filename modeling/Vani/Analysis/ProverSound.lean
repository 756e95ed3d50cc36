import Vani.Analysis.NewFacts
import Vani.Analysis.Substitution
import Vani.Program.StructuralProver

/-!
# When the structural prover is right

The prover takes an expression to be equal to itself. That holds of one value, not of two
evaluations: a call with effects can answer differently the second time, a NaN differs from
itself, and the `eq` of a user type says what it likes. Negation turns an ordering round,
which a NaN makes false both ways. Away from these the prover is right.
-/

set_option autoImplicit false

namespace Vani.Analysis

open Vani.Program Vani.Model

variable {W : Type} {P : Prims W} {T : Nominal} {σ σ' : Store W}

/-! ## Equal expressions -/

mutual

/-- Expressions that compare equal are equal. -/
theorem eq_of_exprsEqual : ∀ {a b : Expr}, exprsEqual a b = true → a = b := by
  intro a b h
  cases a <;> cases b <;> simp only [exprsEqual, Bool.and_eq_true, beq_iff_eq] at h
  all_goals first
    | cases h; done
    | rw [h]
    | rw [eq_of_exprsEqual h]
    | rw [eq_of_allExprsEqual h]
    | rw [h.1, eq_of_exprsEqual h.2]
    | rw [(Ty.same_iff _ _).1 h.1, eq_of_exprsEqual h.2]
    | rw [h.1, eq_of_allExprsEqual h.2]
    | rw [eq_of_exprsEqual h.1, eq_of_exprsEqual h.2]
    | rw [h.1.1, eq_of_exprsEqual h.1.2, eq_of_exprsEqual h.2]

theorem eq_of_allExprsEqual : ∀ {as bs : List Expr}, allExprsEqual as bs = true → as = bs
  | [], [], _ => rfl
  | a :: as, b :: bs, h => by
    rw [allExprsEqual, Bool.and_eq_true] at h
    rw [eq_of_exprsEqual h.1, eq_of_allExprsEqual h.2]
  | [], _ :: _, h => by cases h
  | _ :: _, [], h => by cases h

end

/-! ## Comparing a value with itself -/

/-- What the machine makes of a comparison of scalars that are not both integers or both
booleans: floats compare as IEEE 754 has it, scalars of two kinds not at all. -/
def compareScalars (op : BinaryOp) : Scalar → Scalar → Option Scalar
  | .float _ _ a, .float _ _ b => (Value.compareFloats op a b).map Scalar.bool
  | _, _ => none

/-- Comparisons are the machine's. -/
structure IeeeComparisons (P : Prims W) : Prop where
  folds : ∀ op l r, (flipComparison op).isSome = true →
    P.floatFold (.binary op) [l, r] = compareScalars op l r
  noElse : ∀ op l r, (flipComparison op).isSome = true → P.scalarElse (.binary op) [l, r] = none

mutual

/-- Whether a value is equal to itself: there is no NaN in it, and the `eq` of its types
says so. -/
def selfEqual (nominal : Value → Value → Option Bool) : Value → Bool
  | .scalar (.float _ _ bits) => !Value.isNaN bits
  | .seq vs => allSelfEqual nominal vs
  | .tuple vs => allSelfEqual nominal vs
  | .struct n fs => nominal (.struct n fs) (.struct n fs) == some true
  | .enum e v ps => nominal (.enum e v ps) (.enum e v ps) == some true
  | _ => true

/-- `selfEqual`, for each element. -/
def allSelfEqual (nominal : Value → Value → Option Bool) : List Value → Bool
  | [] => true
  | v :: vs => selfEqual nominal v && allSelfEqual nominal vs

end

theorem ieeeEq_self (bits : Nat) : Value.ieeeEq bits bits = !Value.isNaN bits := by
  simp [Value.ieeeEq]

mutual

/-- Run-time `==` of a value with itself. -/
theorem eqWith_self (nominal : Value → Value → Option Bool) :
    ∀ v b, Value.eqWith nominal v v = some b → b = selfEqual nominal v
  | .scalar s, b, h => by
    cases s <;> simp [Value.eqWith, Value.eqvScalar, ieeeEq_self] at h <;>
      simp [selfEqual, h]
  | .seq vs, b, h => by
    rw [selfEqual]
    exact eqWithList_self nominal vs b h
  | .tuple vs, b, h => by
    rw [selfEqual]
    exact eqWithList_self nominal vs b h
  | .struct n fs, b, h => by
    rw [Value.eqWith] at h
    cases b <;> simp [selfEqual, h]
  | .enum e v ps, b, h => by
    rw [Value.eqWith] at h
    cases b <;> simp [selfEqual, h]
  | .str _, b, h | .fn _, b, h | .handle _, b, h => by
    simp [Value.eqWith, Value.beq, Value.eqv] at h
    simp [selfEqual, h]

theorem eqWithList_self (nominal : Value → Value → Option Bool) :
    ∀ vs b, Value.eqWithList nominal vs vs = some b → b = allSelfEqual nominal vs
  | [], b, h => by
    simp [Value.eqWithList] at h
    simp [allSelfEqual, h]
  | v :: vs, b, h => by
    rw [Value.eqWithList] at h
    rw [allSelfEqual]
    cases hv : Value.eqWith nominal v v with
    | none => simp [hv] at h
    | some c =>
      have hself := eqWith_self nominal v c hv
      rw [hv] at h
      cases c with
      | true => rw [← hself, Bool.true_and]; exact eqWithList_self nominal vs b h
      | false =>
        cases h
        rw [← hself, Bool.false_and]

end

/-- A comparison of a value with itself comes out as the operator and `selfEqual` say. -/
def selfCompared (P : Prims W) (op : BinaryOp) (v : Value) : Bool :=
  match op with
  | .eq | .le | .ge => selfEqual P.nominalEq v
  | .ne => !selfEqual P.nominalEq v
  | _ => false

/-- Comparing a float with itself. -/
theorem compareFloats_self {op : BinaryOp} {a : Nat} {b : Bool}
    (h : Value.compareFloats op a a = some b) :
    b = selfCompared P op (.scalar (.float .f64 false a)) := by
  cases op <;> simp [Value.compareFloats, ieeeEq_self] at h <;>
    simp [selfCompared, selfEqual, h]

/-- Run-time comparison of scalars of which one is no integer and no boolean. -/
theorem runBinary_scalars (hP : IeeeComparisons P) {op : BinaryOp} {l r : Scalar}
    (hop : (flipComparison op).isSome = true)
    (hfold : foldBinary P.floatFold op l r = P.floatFold (.binary op) [l, r])
    (hbool : ∀ x y, ¬(l = .bool x ∧ r = .bool y)) :
    P.runBinary op (.scalar l) (.scalar r) = (compareScalars op l r).map Value.scalar := by
  have hrun : P.runBinary op (.scalar l) (.scalar r) =
      (P.orElse (.binary op) [l, r] (foldBinary P.floatFold op l r)).map Value.scalar := by
    cases l <;> cases r <;> first | rfl | exact absurd ⟨rfl, rfl⟩ (hbool _ _)
  rw [hrun, hfold, hP.folds op l r hop]
  cases compareScalars op l r with
  | none => simp [Prims.orElse, hP.noElse op l r hop]
  | some s => rfl

/-- Run-time comparison of floats. -/
theorem runBinary_floats (hP : IeeeComparisons P) {op : BinaryOp} {t t' : FloatTy} {f f' : Bool}
    {a b : Nat} (hop : (flipComparison op).isSome = true) :
    P.runBinary op (.scalar (.float t f a)) (.scalar (.float t' f' b)) =
      (Value.compareFloats op a b).map fun r => .scalar (.bool r) := by
  rw [runBinary_scalars hP hop rfl (by simp), compareScalars, Option.map_map]
  rfl

/-- Two scalars that compare are of one kind. -/
theorem kinds_of_compared (hP : IeeeComparisons P) {op : BinaryOp} {l r : Scalar} {v : Value}
    (hop : (flipComparison op).isSome = true)
    (h : P.runBinary op (.scalar l) (.scalar r) = some v) :
    (∃ t f x t' f' y, l = .int t f x ∧ r = .int t' f' y) ∨
      (∃ x y, l = .bool x ∧ r = .bool y) ∨
      ∃ t f x t' f' y, l = .float t f x ∧ r = .float t' f' y := by
  cases l <;> cases r
  case int.int => exact .inl ⟨_, _, _, _, _, _, rfl, rfl⟩
  case bool.bool => exact .inr (.inl ⟨_, _, rfl, rfl⟩)
  case float.float => exact .inr (.inr ⟨_, _, _, _, _, _, rfl, rfl⟩)
  all_goals
    rw [runBinary_scalars hP hop rfl (by simp), compareScalars] at h
    · cases h
    · simp

/-- Run-time comparison of a value with itself. -/
theorem runBinary_self (hP : IeeeComparisons P) {op : BinaryOp} {v : Value} {b : Bool}
    (hop : (flipComparison op).isSome = true)
    (h : P.runBinary op v v = some (.scalar (.bool b))) : b = selfCompared P op v := by
  cases v with
  | scalar s =>
    cases s with
    | int t f x =>
      cases op <;> simp [flipComparison] at hop <;>
        simp [Prims.runBinary, Prims.orElse, foldBinary, compareIntegers] at h <;>
        simp [selfCompared, selfEqual, ← h]
    | bool x =>
      cases op <;> simp [flipComparison] at hop <;>
        simp [Prims.runBinary, foldBinary] at h <;> simp [selfCompared, selfEqual, ← h]
    | float t f x =>
      rw [runBinary_floats hP hop, Option.map_eq_some_iff] at h
      obtain ⟨c, hc, hcb⟩ := h
      cases hcb
      have hself := compareFloats_self (P := P) hc
      cases op <;> exact hself
  | str s =>
    cases op <;> simp [flipComparison] at hop <;> simp [Prims.runBinary] at h <;>
      simp [selfCompared, selfEqual, ← h]
  | seq vs | tuple vs | struct n fs | enum e x ps | fn n | handle i =>
    cases op <;> simp [flipComparison] at hop <;> simp [Prims.runBinary] at h
    all_goals
      first
      | exact eqWith_self P.nominalEq _ _ h
      | have hne := eqWith_self P.nominalEq _ _ h
        simp [selfCompared, ← hne]

/-! ## Negation -/

/-- Whether an operator orders its operands. -/
def isOrdering : BinaryOp → Bool
  | .lt | .le | .gt | .ge => true
  | _ => false

/-- Whether a value is a NaN. -/
def isNaNValue : Value → Bool
  | .scalar (.float _ _ bits) => Value.isNaN bits
  | _ => false

theorem decide_lt (x y : Int) : decide (x < y) = !decide (y ≤ x) := by
  rw [← decide_not]
  simp only [Int.not_le]

/-- Turning round the comparison of two floats negates it, but for an ordering of a NaN. -/
theorem compareFloats_flip {op flipped : BinaryOp} {a b : Nat} {r : Bool}
    (hflip : flipComparison op = some flipped) (h : Value.compareFloats op a b = some r) :
    Value.compareFloats flipped a b = some (!r) ↔
      ¬(isOrdering op = true ∧ (Value.isNaN a = true ∨ Value.isNaN b = true)) := by
  cases op <;> simp only [flipComparison, Option.some.injEq, reduceCtorEq] at hflip <;>
    subst hflip <;> simp only [Value.compareFloats, Option.some.injEq] at h ⊢ <;> rw [← h] <;>
    simp only [decide_lt, isOrdering] <;> cases Value.isNaN a <;> cases Value.isNaN b <;> simp

/-- Turning round a comparison negates it, but for an ordering of a NaN. -/
theorem runBinary_negated (hP : IeeeComparisons P) {op flipped : BinaryOp} {a b : Value}
    {r : Bool} (hflip : flipComparison op = some flipped)
    (h : P.runBinary op a b = some (.scalar (.bool r))) :
    P.runBinary flipped a b = some (.scalar (.bool (!r))) ↔
      ¬(isOrdering op = true ∧ (isNaNValue a = true ∨ isNaNValue b = true)) := by
  have hop : (flipComparison op).isSome = true := by rw [hflip]; rfl
  have hop' : (flipComparison flipped).isSome = true := by
    cases op <;> simp [flipComparison] at hflip <;> subst hflip <;> rfl
  cases a with
  | scalar l =>
    cases b with
    | scalar r' =>
      rcases kinds_of_compared hP hop h with ⟨t, f, x, t', f', y, rfl, rfl⟩ |
        ⟨x, y, rfl, rfl⟩ | ⟨t, f, x, t', f', y, rfl, rfl⟩
      · simp only [isNaNValue, Bool.false_eq_true, or_self, and_false, not_false_eq_true, iff_true]
        cases op <;> simp [flipComparison] at hflip <;> subst hflip <;>
          simp [Prims.runBinary, Prims.orElse, foldBinary, compareIntegers] at h ⊢ <;>
          simp [← h, decide_lt]
      · simp only [isNaNValue, Bool.false_eq_true, or_self, and_false, not_false_eq_true, iff_true]
        cases op <;> simp [flipComparison] at hflip <;> subst hflip <;>
          simp [Prims.runBinary, foldBinary] at h ⊢ <;> simp [← h, bne]
      · rw [runBinary_floats hP hop, Option.map_eq_some_iff] at h
        obtain ⟨c, hc, hcr⟩ := h
        cases hcr
        simp only [runBinary_floats hP hop', isNaNValue, ← compareFloats_flip hflip hc]
        cases Value.compareFloats flipped x y <;> simp
    | _ =>
      cases op <;> simp [flipComparison] at hflip <;> subst hflip <;>
        simp [Prims.runBinary, isNaNValue, isOrdering] at h ⊢ <;> simp [h]
  | _ =>
    cases b <;> cases op <;> simp [flipComparison] at hflip <;> subst hflip <;>
      simp [Prims.runBinary, isNaNValue, isOrdering] at h ⊢ <;> simp [← h, bne]

/-- `!e` is the opposite of `e`. -/
theorem Eval.not_inv {e : Expr} {b : Bool} {w : List String}
    (h : Eval P T (.expr (.unary .not e)) σ (.val (.scalar (.bool b))) σ' w) :
    Eval P T (.expr e) σ (.val (.scalar (.bool (!b)))) σ' w := by
  obtain ⟨u, hu, happ⟩ := Eval.strict_one_inv h rfl
  cases u with
  | scalar s =>
    cases s <;> simp [StrictOp.apply, Prims.runUnary] at happ
    simpa [← happ] using hu
  | _ => simp [StrictOp.apply, Prims.runUnary] at happ

/-- The expression orders two operands one of which comes out as a NaN. -/
def OrdersNaN (P : Prims W) (T : Nominal) (σ : Store W) : Expr → Prop
  | .binary op l r => isOrdering op = true ∧ ∃ a b τ τ' w w',
      Eval P T (.expr l) σ (.val a) τ w ∧ Eval P T (.expr r) τ (.val b) τ' w' ∧
        (isNaNValue a = true ∨ isNaNValue b = true)
  | _ => False

/-- The negation of an expression evaluates to the opposite, unless the expression orders a
NaN. -/
theorem negate_correct_iff (hP : IeeeComparisons P) {e : Expr} {b : Bool} {w : List String}
    (h : Eval P T (.expr e) σ (.val (.scalar (.bool b))) σ' w) :
    (∃ τ w', Eval P T (.expr (negate e)) σ (.val (.scalar (.bool (!b)))) τ w') ↔
      ¬OrdersNaN P T σ e := by
  have hnot : Eval P T (.expr (.unary .not e)) σ (.val (.scalar (.bool (!b)))) σ' (w ++ []) :=
    .strict rfl (.argsCons h .argsNil) rfl
  unfold negate
  split
  · next inner =>
    simp only [OrdersNaN, not_false_eq_true, iff_true]
    exact ⟨_, _, Eval.not_inv h⟩
  · next v =>
    have hv := Eval.literal_inv rfl h
    cases hv
    simp only [OrdersNaN, not_false_eq_true, iff_true]
    exact ⟨_, _, .literal rfl⟩
  · next op l r =>
    split
    · next flipped hflip =>
      have hop : ¬(op = .and ∨ op = .or) := by rintro (rfl | rfl) <;> cases hflip
      have hop' : ¬(flipped = .and ∨ flipped = .or) := by
        cases op <;> simp [flipComparison] at hflip <;> subst hflip <;> simp
      obtain ⟨u, v, τ, w₁, w₂, hl, hr, -, hrun⟩ := Eval.binary_inv hop h
      have hoperands : operands T (.binary flipped l r) = some (.binary flipped, [l, r]) := by
        rw [operands, if_neg hop']
      have hiff := runBinary_negated hP hflip hrun
      constructor
      · rintro ⟨τ', w', hneg⟩ ⟨hord, a, a', τ₁, τ₂, w₃, w₄, hla, hra, hnan⟩
        obtain ⟨u', v', τ₃, w₅, w₆, hl', hr', -, hrun'⟩ := Eval.binary_inv hop' hneg
        obtain ⟨hu, rfl, -⟩ := Eval.det hl' hl
        cases hu
        obtain ⟨hv, -, -⟩ := Eval.det hr' hr
        cases hv
        obtain ⟨ha, rfl, -⟩ := Eval.det hla hl
        cases ha
        obtain ⟨ha', -, -⟩ := Eval.det hra hr
        cases ha'
        exact hiff.1 hrun' ⟨hord, hnan⟩
      · intro hnone
        have hrun' := hiff.2 fun hnan =>
          hnone ⟨hnan.1, u, v, τ, σ', w₁, w₂, hl, hr, hnan.2⟩
        exact ⟨σ', _, .strict hoperands (.argsCons hl (.argsCons hr .argsNil)) hrun'⟩
    · next hflip =>
      have hnone : ¬OrdersNaN P T σ (.binary op l r) := by
        rintro ⟨hord, -⟩
        cases op <;> first | cases hord; done | cases hflip
      simp only [hnone, not_false_eq_true, iff_true]
      exact ⟨_, _, hnot⟩
  · next hne hnb hbin =>
    have hnone : ¬OrdersNaN P T σ e := by
      cases e <;> simp only [OrdersNaN, not_false_eq_true]
      exact absurd rfl (hbin _ _ _)
    simp only [hnone, not_false_eq_true, iff_true]
    exact ⟨_, _, hnot⟩

/-! ## The verdicts -/

/-- What the prover takes a comparison of an expression with itself to come out as. -/
def expected : BinaryOp → Bool
  | .eq | .le | .ge => true
  | _ => false

/-- The comparison `e op e` comes out as expected. Of an operand without effects that is:
its value equals itself, or the operator is `<` or `>`. An operand with effects is
evaluated twice, and its two values have to stand as the operator says. -/
def Repeats (P : Prims W) (T : Nominal) (op : BinaryOp) (e : Expr) (σ : Store W) : Prop :=
  if plain P T e = true then
    op = .lt ∨ op = .gt ∨
      ∀ v τ w, Eval P T (.expr e) σ (.val v) τ w → selfEqual P.nominalEq v = true
  else
    ∀ a b τ τ' w w', Eval P T (.expr e) σ (.val a) τ w → Eval P T (.expr e) τ (.val b) τ' w' →
      P.runBinary op a b = some (.scalar (.bool (expected op)))

theorem selfCompared_expected {op : BinaryOp} (hop : (flipComparison op).isSome = true)
    (v : Value) : selfCompared P op v = expected op ↔
      op = .lt ∨ op = .gt ∨ selfEqual P.nominalEq v = true := by
  cases op <;> simp [flipComparison] at hop <;> simp [selfCompared, expected]

/-- A comparison of equal expressions comes out as expected exactly where it repeats. -/
theorem repeats_iff (hP : IeeeComparisons P) {op : BinaryOp} {l r : Expr} {b : Bool}
    {w : List String} (hop : (flipComparison op).isSome = true) (heq : exprsEqual l r = true)
    (h : Eval P T (.expr (.binary op l r)) σ (.val (.scalar (.bool b))) σ' w) :
    b = expected op ↔ Repeats P T op l σ := by
  obtain rfl := eq_of_exprsEqual heq
  have hcon : ¬(op = .and ∨ op = .or) := by rintro (rfl | rfl) <;> cases hop
  obtain ⟨u, v, τ, w₁, w₂, hl, hr, -, hrun⟩ := Eval.binary_inv hcon h
  unfold Repeats
  split
  · next hplain =>
    -- the two evaluations are one
    obtain ⟨rfl, -⟩ := Eval.plain_pure hl hplain
    obtain ⟨huv, -, -⟩ := Eval.det hl hr
    cases huv
    rw [runBinary_self hP hop hrun, selfCompared_expected hop]
    constructor
    · rintro (h | h | h)
      · exact .inl h
      · exact .inr (.inl h)
      · refine .inr (.inr fun v' τ' w' h' => ?_)
        obtain ⟨hv, -, -⟩ := Eval.det h' hl
        cases hv
        exact h
    · rintro (h | h | h)
      · exact .inl h
      · exact .inr (.inl h)
      · exact .inr (.inr (h _ _ _ hl))
  · constructor
    · rintro rfl a b' τ₁ τ₂ w₃ w₄ ha hb
      obtain ⟨hv, rfl, -⟩ := Eval.det ha hl
      cases hv
      obtain ⟨hv, -, -⟩ := Eval.det hb hr
      cases hv
      exact hrun
    · intro h
      have hrun' := h _ _ _ _ _ _ hl hr
      rw [hrun] at hrun'
      cases hrun'
      rfl

mutual

/-- A verdict "true" is right: the comparisons it rests on repeat, and of an `||` one side
that it does not rest on may make up for the other. -/
def TrueHolds (P : Prims W) (T : Nominal) : Expr → Store W → Prop
  | .binary op l r, σ =>
    match op with
    | .eq | .le | .ge => Repeats P T op l σ
    | .or =>
      (if isStructurallyTrue l = true then TrueHolds P T l σ else EvalsTrue P T σ l) ∨
        ∃ τ w, Eval P T (.expr l) σ (.val (.scalar (.bool false))) τ w ∧
          if isStructurallyTrue r = true then TrueHolds P T r τ else EvalsTrue P T τ r
    | .and => TrueHolds P T l σ ∧
        ∀ τ w, Eval P T (.expr l) σ (.val (.scalar (.bool true))) τ w → TrueHolds P T r τ
    | _ => True
  | .unary .not e, σ => FalseHolds P T e σ
  | _, _ => True

/-- A verdict "false" is right. -/
def FalseHolds (P : Prims W) (T : Nominal) : Expr → Store W → Prop
  | .binary op l _, σ => Repeats P T op l σ
  | .unary .not e, σ => TrueHolds P T e σ
  | _, _ => True

end

/-- What an expression evaluates to, it evaluates to alone. -/
theorem Eval.evalsTrue_iff {e : Expr} {b : Bool} {w : List String}
    (h : Eval P T (.expr e) σ (.val (.scalar (.bool b))) σ' w) : EvalsTrue P T σ e ↔ b = true := by
  constructor
  · rintro ⟨τ, w', h'⟩
    obtain ⟨hb, -, -⟩ := Eval.det h h'
    cases hb
    rfl
  · rintro rfl
    exact ⟨_, _, h⟩

mutual

theorem trueHolds_iff (hP : IeeeComparisons P) : ∀ (e : Expr) {σ σ' : Store W} {b : Bool}
    {w : List String}, Eval P T (.expr e) σ (.val (.scalar (.bool b))) σ' w →
    isStructurallyTrue e = true → (b = true ↔ TrueHolds P T e σ)
  | .bool v, σ, σ', b, w, h, hs => by
    cases Eval.literal_inv rfl h
    cases v
    · cases hs
    · simp [TrueHolds]
  | .unary .not e, σ, σ', b, w, h, hs => by
    have hiff := falseHolds_iff hP e (Eval.not_inv h) hs
    rw [TrueHolds, ← hiff]
    cases b <;> simp
  | .binary op l r, σ, σ', b, w, h, hs => by
    cases op with
    | eq | le | ge => exact repeats_iff hP rfl hs h
    | or =>
      obtain ⟨c, τ, w₁, hl, hrest⟩ := Eval.shortcut_inv (.inr rfl) h
      have hleft : (if isStructurallyTrue l = true then TrueHolds P T l σ
          else EvalsTrue P T σ l) ↔ c = true := by
        split
        · next hsl => exact (trueHolds_iff hP l hl hsl).symm
        · exact Eval.evalsTrue_iff hl
      rw [TrueHolds, hleft]
      rcases hrest with ⟨hdec, hb, -⟩ | ⟨hdec, b', w₂, hr, hb, -⟩
      · cases hb
        have hc : b = true := hdec
        simp [hc]
      · cases hb
        have hc : c = false := hdec
        subst hc
        have hright : (if isStructurallyTrue r = true then TrueHolds P T r τ
            else EvalsTrue P T τ r) ↔ b = true := by
          split
          · next hsr => exact (trueHolds_iff hP r hr hsr).symm
          · exact Eval.evalsTrue_iff hr
        constructor
        · intro hb
          exact .inr ⟨τ, w₁, hl, hright.2 hb⟩
        · rintro (hc | ⟨τ', w', hl', hr'⟩)
          · cases hc
          · obtain ⟨-, rfl, -⟩ := Eval.det hl hl'
            exact hright.1 hr'
    | and =>
      obtain ⟨hsl, hsr⟩ : isStructurallyTrue l = true ∧ isStructurallyTrue r = true := by
        simpa [isStructurallyTrue] using hs
      obtain ⟨c, τ, w₁, hl, hrest⟩ := Eval.shortcut_inv (.inl rfl) h
      rw [TrueHolds, ← trueHolds_iff hP l hl hsl]
      rcases hrest with ⟨hdec, hb, -⟩ | ⟨hdec, b', w₂, hr, hb, -⟩
      · cases hb
        have hc : b = false := by simpa [decides] using hdec
        simp [hc]
      · cases hb
        have hc : c = true := by simpa [decides] using hdec
        subst hc
        rw [trueHolds_iff hP r hr hsr]
        constructor
        · intro hr'
          refine ⟨rfl, fun τ' w' hl' => ?_⟩
          obtain ⟨-, rfl, -⟩ := Eval.det hl hl'
          exact hr'
        · exact fun hall => hall.2 τ w₁ hl
    | _ => cases hs
  | .unary .neg _, _, _, _, _, _, hs => by cases hs

theorem falseHolds_iff (hP : IeeeComparisons P) : ∀ (e : Expr) {σ σ' : Store W} {b : Bool}
    {w : List String}, Eval P T (.expr e) σ (.val (.scalar (.bool b))) σ' w →
    isStructurallyFalse e = true → (b = false ↔ FalseHolds P T e σ)
  | .bool v, σ, σ', b, w, h, hs => by
    cases Eval.literal_inv rfl h
    cases v
    · simp [FalseHolds]
    · cases hs
  | .unary .not e, σ, σ', b, w, h, hs => by
    have hiff := trueHolds_iff hP e (Eval.not_inv h) hs
    rw [FalseHolds, ← hiff]
    cases b <;> simp
  | .binary op l r, σ, σ', b, w, h, hs => by
    cases op with
    | ne | lt | gt => exact repeats_iff hP rfl hs h
    | _ => cases hs
  | .unary .neg _, _, _, _, _, _, hs => by cases hs

end

/-- What the prover and `negate` promise of an expression that evaluates to `b`. -/
structure ProverRight (P : Prims W) (T : Nominal) (σ : Store W) (e : Expr) (b : Bool) : Prop where
  provedTrue : isStructurallyTrue e = true → b = true
  provedFalse : isStructurallyFalse e = true → b = false
  negated : ∃ τ w, Eval P T (.expr (negate e)) σ (.val (.scalar (.bool (!b)))) τ w

/-- The comparisons a verdict rests on repeat, and the expression orders no NaN. -/
structure ProverCareful (P : Prims W) (T : Nominal) (σ : Store W) (e : Expr) : Prop where
  onTrue : isStructurallyTrue e = true → TrueHolds P T e σ
  onFalse : isStructurallyFalse e = true → FalseHolds P T e σ
  noNaN : ¬OrdersNaN P T σ e

/-- The prover and `negate` are right about an expression in a store exactly where the
comparisons of equal expressions that a verdict rests on repeat, and no NaN is ordered. -/
theorem proverRight_iff (hP : IeeeComparisons P) {e : Expr} {b : Bool} {w : List String}
    (h : Eval P T (.expr e) σ (.val (.scalar (.bool b))) σ' w) :
    ProverRight P T σ e b ↔ ProverCareful P T σ e := by
  constructor
  · intro hright
    refine ⟨fun hs => ?_, fun hs => ?_, ?_⟩
    · exact (trueHolds_iff hP e h hs).1 (hright.provedTrue hs)
    · exact (falseHolds_iff hP e h hs).1 (hright.provedFalse hs)
    · exact (negate_correct_iff hP h).1 hright.negated
  · intro hcare
    refine ⟨fun hs => ?_, fun hs => ?_, ?_⟩
    · exact (trueHolds_iff hP e h hs).2 (hcare.onTrue hs)
    · exact (falseHolds_iff hP e h hs).2 (hcare.onFalse hs)
    · exact (negate_correct_iff hP h).2 hcare.noNaN

/-! ## A NaN -/

/-- A machine without callees that compares floats. -/
def ieeeMachine : Prims Unit where
  scalarElse _ _ := none
  floatFold op args :=
    match op, args with
    | .binary op, [l, r] => compareScalars op l r
    | _, _ => none
  castElse _ _ := none
  isPure _ := false
  pureCall _ _ := none
  call _ _ _ := none
  mutRecv _ := false

theorem ieeeMachine_comparisons : IeeeComparisons ieeeMachine where
  folds _ _ _ _ := rfl
  noElse _ _ _ _ := rfl

/-- A program without nominal types. -/
def noUserTypes : Nominal := ⟨fun _ => false, fun _ => false⟩

/-- The expression `x == x`. -/
def selfEquation : Expr := .binary .eq (.var "x") (.var "x")

/-- A store that holds `x` alone. -/
def holding (v : Value) : Store Unit where
  scopes := [fun n => if n = "x" then some v else none]
  ghosts _ := none
  world := ()

theorem holding_lookup (v : Value) : (holding v).lookup "x" = some v := by
  simp [Store.lookup, holding, lookupScopes]

/-- What `x == x` evaluates to. -/
theorem selfEquation_eval {v : Value} {b : Bool}
    (h : ieeeMachine.runBinary .eq v v = some (.scalar (.bool b))) :
    Eval ieeeMachine noUserTypes (.expr selfEquation) (holding v) (.val (.scalar (.bool b)))
      (holding v) ([] ++ ([] ++ [])) :=
  .strict rfl (.argsCons (.var (holding_lookup v)) (.argsCons (.var (holding_lookup v)) .argsNil)) h

/-- A `f64` NaN. -/
def someNaN : Value := .scalar (.float .f64 false 0x7FF8000000000000)

/-- The prover is right about an equation between an integer variable and itself. -/
theorem selfEquation_right : ProverRight ieeeMachine noUserTypes
    (holding (.scalar (.int .i64 false 3))) selfEquation true := by
  refine (proverRight_iff ieeeMachine_comparisons (selfEquation_eval (by rfl))).2 ⟨?_, ?_, ?_⟩
  · intro _
    show Repeats ieeeMachine noUserTypes .eq (.var "x") _
    have hplain : plain ieeeMachine noUserTypes (.var "x") = true := by simp [plain]
    rw [Repeats, if_pos hplain]
    refine .inr (.inr fun v τ w h => ?_)
    have hv := Eval.var_inv h
    rw [holding_lookup] at hv
    cases hv
    rfl
  · intro h
    cases h
  · rintro ⟨h, -⟩
    cases h

/-- The prover takes `x == x` for true, and of a NaN it is false. -/
theorem selfEquation_refutes :
    ¬∀ (W : Type) (P : Prims W) (T : Nominal) (σ σ' : Store W) (e : Expr) (b : Bool)
      (w : List String), IeeeComparisons P →
      Eval P T (.expr e) σ (.val (.scalar (.bool b))) σ' w → ProverRight P T σ e b := by
  intro h
  have hright := h Unit ieeeMachine noUserTypes _ _ selfEquation false _ ieeeMachine_comparisons
    (selfEquation_eval (v := someNaN) (by rfl))
  cases hright.provedTrue rfl

end Vani.Analysis
