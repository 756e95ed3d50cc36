import Vani.Analysis.FixedWidth
import Vani.Program.CheckConst

/-!
# Folded nodes against the generated code

The checker folds with exact integers and keeps a result that the node's type has. The C
text computes at C's own types. The two agree except where a negated constant leaves its
type, where C computes at a type that has not the result, and on a shifted negative value,
which is reported and has a value nonetheless. Here are the statement, the condition, and
the nodes of negations and of arithmetic operators.
-/

set_option autoImplicit false

namespace Vani.Analysis

open Vani.Program Vani.Library Vani.Backend

/-! ## The statement -/

/-- The type a constant's name is constTypes with. -/
def constTypes (env : ConstEnv) (name : String) : Option IntTy := (env name).map ConstInfo.ty

/-- The value it has at run time. -/
def constValues (env : ConstEnv) (name : String) : Option Int := (env name).map ConstInfo.value

/-- Named constants have values of their types. -/
def ConstantsInRange (env : ConstEnv) : Prop :=
  ∀ name info, env name = some info → (cType info.ty).Fits info.value

/-- The number C represents a constant by. -/
def number : TypedConst → Int
  | .int v => v
  | .bool b => if b then 1 else 0

/-- The type has the constant. -/
def HasType : TypedConst → Ty → Prop
  | .int v, .int t => (cType t).Fits v
  | .bool _, .bool => True
  | _, _ => False

/-- A constant recorded for a node is one its type has, and the value of the node's text. -/
def Folds (env : ConstEnv) (c : CheckedExpr) : Prop :=
  ∀ k, c.constant = some k → HasType k c.ty ∧
    ∃ ce v, emitExpr c.expr = some ce ∧ cEval (constTypes env) (constValues env) ce = some v ∧
      v.value = number k

/-- An overflow, a division or a shift is reported. -/
def Reports (errors : List FoldError) : Prop := ∃ e ∈ errors, e.kind ≠ .typing

/-- At the type, the operation on what is known of its operands overflows, divides by zero
or shifts out of range. -/
def Faults (op : BinaryOp) (t : IntTy) (a b : Option Int) : Prop :=
  ((op = .div ∨ op = .rem) ∧ b = some 0) ∨
    ((op = .shl ∨ op = .shr) ∧ ∃ n, b = some n ∧ (n < 0 ∨ (t.bits : Int) ≤ n)) ∨
      ∃ x y z, a = some x ∧ b = some y ∧ exactInteger op x y = some z ∧ ¬(cType t).Fits z

/-- The negation of the constant is not one the node's type has. -/
def NegationFaults (c : CheckedExpr) (ty : Ty) : Prop :=
  ∃ t v, ty = .int t ∧ c.intConstant = some v ∧ ¬(cType t).Fits (-v)

/-- The node of a unary operator agrees: what is recorded is its value, what is reported
its fault. -/
def UnaryAgrees (env : ConstEnv) (op : UnaryOp) (c : CheckedExpr) : Prop :=
  Folds env (checkUnary op c).1 ∧
    (Reports (checkUnary op c).2 → NegationFaults c (checkUnary op c).1.ty)

/-- The same for a binary operator. -/
def BinaryAgrees (env : ConstEnv) (op : BinaryOp) (l r : CheckedExpr) : Prop :=
  ∀ c errors, checkBinary op l r = some (c, errors) → Folds env c ∧
    (Reports errors → ∃ t, c.ty = .int t ∧ Faults op t l.intConstant r.intConstant)

/-- The same for a cast, where the value cast is not one the target has. -/
def CastAgrees (env : ConstEnv) (c : CheckedExpr) (t : IntTy) : Prop :=
  Folds env (explicitCast c t).1 ∧
    (Reports (explicitCast c t).2 → ∃ v, c.intConstant = some v ∧ ¬(cType t).Fits v)

/-- Every node of the expression agrees. -/
def EveryNodeAgrees (env : ConstEnv) : Expr → Prop
  | .unary op e => EveryNodeAgrees env e ∧
    ∀ c errors, checkExpr env e = some (c, errors) → UnaryAgrees env op c
  | .binary op l r => EveryNodeAgrees env l ∧ EveryNodeAgrees env r ∧
    ∀ cl el cr er, checkExpr env l = some (cl, el) → checkExpr env r = some (cr, er) →
      BinaryAgrees env op cl cr
  | .cast e (.int t) => EveryNodeAgrees env e ∧
    ∀ c errors, checkExpr env e = some (c, errors) → CastAgrees env c t
  | e => ∀ c errors, checkExpr env e = some (c, errors) → Folds env c

/-- An expression over integer constants: literals that a 64-bit type has, names of
constants, operators other than `&&` and `||`, and casts to integer types. -/
def OverConstants (env : ConstEnv) : Expr → Prop
  | .int v => 0 ≤ v ∧ v ≤ IntTy.maxValue .u64
  | .var name => (env name).isSome
  | .unary _ e => OverConstants env e
  | .binary op l r => op ≠ .and ∧ op ≠ .or ∧ OverConstants env l ∧ OverConstants env r
  | .cast e (.int _) => OverConstants env e
  | _ => False

/-! ## The condition -/

/-- The text of a node is a negative number. -/
def IsNegativeNumber : TypedExpr → Prop
  | .mk (.int v) _ => v < 0
  | _ => False

/-- The negation of a constant is one that the operand's type has, and the type C negates
at, and its text is none that begins with a minus. -/
def NegationCareful (c : CheckedExpr) : Prop :=
  ∀ t v, c.ty = .int t → t.isSigned = true ∨ c.flexibleInteger = true →
    c.intConstant = some v → (cType .i64).Fits (-v) →
      (c.flexibleInteger = false → (cType t).Fits (-v)) ∧
        (promote (computedAt c.expr)).Fits (-v) ∧ ¬IsNegativeNumber c.expr

/-- The type at which C computes an operator on two operands of a type. -/
def cTypeOf (op : BinaryOp) (t : IntTy) (l r : CheckedExpr) : IntType :=
  common (promote (computedAt l.expr)) (promote (rightAt op true (.int t) (computedAt r.expr)))

/-- A result that the node's type has is one that the type of C has, of a remainder also
the quotient. -/
def ArithmeticCareful (noun : String) (op : BinaryOp) (l r : CheckedExpr) : Prop :=
  ∀ t a b x, promotedType noun l r = .ok t →
    (coerceNumericOperand l t).intConstant = some a →
    (coerceNumericOperand r t).intConstant = some b →
    exactInteger op a b = some x → (cType t).Fits x →
      (cTypeOf op t (coerceNumericOperand l t) (coerceNumericOperand r t)).Fits x ∧
        QuotientFits op (cTypeOf op t (coerceNumericOperand l t) (coerceNumericOperand r t)) a b

/-- A negative value is shifted left only where the shift faults, and a result that the
node's type has is one that the type of C has, the count below its width. -/
def ShiftCareful (op : BinaryOp) (l r : CheckedExpr) : Prop :=
  ∀ t a, l.ty = .int t → l.intConstant = some a →
    (op = .shl → a < 0 → Faults op t l.intConstant r.intConstant) ∧
      ∀ n x, r.intConstant = some n → 0 ≤ n → n < t.bits → exactInteger op a n = some x →
        (cType t).Fits x →
          n < (promote (computedAt l.expr)).bits ∧ (promote (computedAt l.expr)).Fits x

/-- What a node of a binary operator has to meet. -/
def BinaryCareful (op : BinaryOp) (l r : CheckedExpr) : Prop :=
  match op with
  | .add | .sub | .mul | .div => ArithmeticCareful "numeric" op l r
  | .rem | .bitAnd | .bitOr | .bitXor => ArithmeticCareful "an integer" op l r
  | .shl | .shr => (∃ s, r.ty = .int s) → ShiftCareful op l r
  | _ => True

/-- Every node of the expression meets its condition; a named constant is not the least
`i64`, whose text C reads as an unsigned number. -/
def EveryNodeCareful (env : ConstEnv) : Expr → Prop
  | .var name => ∀ info, env name = some info → info.isConst = true → info.value ≠ -2 ^ 63
  | .unary .neg e => EveryNodeCareful env e ∧
    ∀ c errors, checkExpr env e = some (c, errors) → NegationCareful c
  | .unary .not e => EveryNodeCareful env e
  | .binary op l r => EveryNodeCareful env l ∧ EveryNodeCareful env r ∧
    ∀ cl el cr er, checkExpr env l = some (cl, el) → checkExpr env r = some (cr, er) →
      BinaryCareful op cl cr
  | .cast e (.int _) => EveryNodeCareful env e
  | _ => True

/-! ## The types of C -/

/-- The types at which C may compute an expression of a type that holds a constant. -/
def HoldsAt (t : IntTy) (T : IntType) : Prop := T = cType t ∨ T = cInt ∨ T = cLong

theorem held_promote {t : IntTy} {T : IntType} (h : HoldsAt t T) : HoldsAt t (promote T) := by
  rcases h with rfl | rfl | rfl
  · cases t <;> simp [HoldsAt, promote, cType, cInt, cLong, IntTy.bits, IntTy.isSigned]
  · exact .inr (.inl rfl)
  · exact .inr (.inr rfl)

theorem held_common {t : IntTy} {T₁ T₂ : IntType} (h₁ : HoldsAt t T₁) (h₂ : HoldsAt t T₂) :
    HoldsAt t (common (promote T₁) (promote T₂)) := by
  rcases h₁ with rfl | rfl | rfl <;> rcases h₂ with rfl | rfl | rfl
  all_goals cases t <;>
    simp [HoldsAt, promote, common, cType, cInt, cLong, IntTy.bits, IntTy.isSigned]

theorem bits_pos_of_held {t : IntTy} {T : IntType} (h : HoldsAt t T) : 0 < T.bits := by
  rcases h with rfl | rfl | rfl
  · exact cType_bits_pos t
  · decide
  · decide

theorem held_fits_promote {t : IntTy} {T : IntType} {x : Int} (h : HoldsAt t T) (hx : T.Fits x) :
    (promote T).Fits x := by
  rcases h with rfl | rfl | rfl
  · exact fits_promote (allowed_cType t) hx
  · exact hx
  · exact hx

/-- The common type of two operands of a type has the values of both. -/
theorem held_fits_common {t : IntTy} {T₁ T₂ : IntType} {a b : Int} (h₁ : HoldsAt t T₁)
    (h₂ : HoldsAt t T₂) (ha : (cType t).Fits a ∧ T₁.Fits a) (hb : (cType t).Fits b ∧ T₂.Fits b) :
    (common (promote T₁) (promote T₂)).Fits a ∧ (common (promote T₁) (promote T₂)).Fits b := by
  rcases h₁ with rfl | rfl | rfl <;> rcases h₂ with rfl | rfl | rfl
  all_goals cases t <;>
    simp only [promote, common, cType, cInt, cLong, IntTy.bits, IntTy.isSigned, IntType.Fits,
      IntType.lo, IntType.hi] at ha hb ⊢ <;>
    simp at ha hb ⊢ <;> omega

theorem fits_iff (v : Int) (t : IntTy) : valueFitsType v t = true ↔ (cType t).Fits v := by
  rw [valueFitsType, Bool.and_eq_true, decide_eq_true_eq, decide_eq_true_eq]
  cases t <;>
    simp [IntTy.minValue, IntTy.maxValue, cType, IntType.Fits, IntType.lo, IntType.hi,
      IntTy.bits, IntTy.isSigned]

/-- A signed or unsigned result is the exact one where the type has it. -/
theorem result_value_iff {T : IntType} (hT : 0 < T.bits) (x : Int) :
    (∃ c, result T x = some c ∧ c.value = x) ↔ T.Fits x := by
  constructor
  · rintro ⟨c, hc, rfl⟩
    exact (result_type_fits hT hc).2
  · intro hx
    refine ⟨⟨T, x⟩, ?_, rfl⟩
    rw [result]
    split
    · rfl
    · rw [IntType.wrap_of_fits hT hx]

theorem result_of_fits {T : IntType} (hT : 0 < T.bits) {x : Int} (hx : T.Fits x) :
    result T x = some ⟨T, x⟩ := by
  obtain ⟨c, hc, hv⟩ := (result_value_iff hT x).2 hx
  obtain ⟨htype, -⟩ := result_type_fits hT hc
  rw [hc, ← hv, ← htype]

/-! ## Nodes that agree -/

/-- A recorded constant is the value that C computes for the node, at a type that holds it. -/
def FoldedRight (env : ConstEnv) (c : CheckedExpr) : Prop :=
  ∀ k, c.constant = some k → HasType k c.ty ∧
    (∃ ce, emitExpr c.expr = some ce ∧
      cEval (constTypes env) (constValues env) ce = some ⟨computedAt c.expr, number k⟩ ∧
        ((∃ n, ce = .negLit n) → IsNegativeNumber c.expr)) ∧
    (∀ t, c.ty = .int t → HoldsAt t (computedAt c.expr) ∧ (computedAt c.expr).Fits (number k)) ∧
    (c.ty = .bool → computedAt c.expr = cInt)

variable {env : ConstEnv}

theorem FoldedRight.agrees {c : CheckedExpr} (h : FoldedRight env c) : Folds env c := by
  intro k hk
  obtain ⟨htype, ⟨ce, hce, hv, -⟩, -⟩ := h k hk
  exact ⟨htype, ce, _, hce, hv, rfl⟩

/-- Nothing is asked of a node without a constant. -/
theorem FoldedRight.of_none {c : CheckedExpr} (h : c.constant = none) : FoldedRight env c := by
  intro k hk
  rw [h] at hk
  cases hk

theorem intConstant_eq {c : CheckedExpr} {v : Int} :
    c.intConstant = some v ↔ c.constant = some (.int v) := by
  unfold CheckedExpr.intConstant
  cases h : c.constant with
  | none => simp
  | some k => cases k <;> simp

/-- What is known of an integer operand. -/
theorem FoldedRight.int {c : CheckedExpr} (h : FoldedRight env c) {t : IntTy} {v : Int} (ht : c.ty = .int t)
    (hv : c.intConstant = some v) :
    (cType t).Fits v ∧ HoldsAt t (computedAt c.expr) ∧ (computedAt c.expr).Fits v ∧
      ∃ ce, emitExpr c.expr = some ce ∧
        cEval (constTypes env) (constValues env) ce = some ⟨computedAt c.expr, v⟩ ∧
          ((∃ n, ce = .negLit n) → IsNegativeNumber c.expr) := by
  obtain ⟨htype, hce, hint, -⟩ := h _ (intConstant_eq.1 hv)
  rw [ht] at htype
  obtain ⟨hheld, hfits⟩ := hint t ht
  exact ⟨htype, hheld, hfits, hce⟩

theorem coerce_ty (c : CheckedExpr) (t : IntTy) : (coerceNumericOperand c t).ty = .int t := by
  unfold coerceNumericOperand
  split
  · next s hs =>
    split
    · next h => rw [hs, h]
    · rfl
  · rfl

/-- Casts convert their operand, which a type that has the value leaves alone. -/
theorem cast_right {c : CheckedExpr} {s t : IntTy} {v : Int} (hc : FoldedRight env c)
    (hs : c.ty = .int s) (hv : c.intConstant = some v) (hfits : (cType t).Fits v) :
    FoldedRight env (.new (.cast c.expr (.int t)) (.int t) (some (.int v))) := by
  obtain ⟨-, -, -, ce, hce, heval, -⟩ := hc.int hs hv
  rintro k ⟨⟩
  refine ⟨hfits, ⟨.cast t ce, ?_, ?_, ?_⟩, ?_, ?_⟩
  · simp only [CheckedExpr.new, emitExpr, hce, Option.map_some]
  · simp only [cEval, heval, Option.map_some, convert, number,
      IntType.wrap_of_fits (cType_bits_pos t) hfits]
    rfl
  · rintro ⟨n, hn⟩
    cases hn
  · rintro _ ⟨⟩
    exact ⟨.inl rfl, hfits⟩
  · intro h
    cases h

/-- An operand keeps its constant when it is brought to a type that has it. -/
theorem coerce_constant {c : CheckedExpr} {t : IntTy} {v : Int}
    (h : (coerceNumericOperand c t).intConstant = some v) :
    c.intConstant = some v ∧ (c.ty = .int t ∨ (cType t).Fits v) := by
  unfold coerceNumericOperand at h
  have hcast : (CheckedExpr.new (.cast c.expr (.int t)) (.int t)
      (c.constant.bind (castInteger t))).intConstant = some v →
      c.intConstant = some v ∧ (c.ty = .int t ∨ (cType t).Fits v) := by
    intro h
    rw [intConstant_eq] at h
    obtain ⟨k, hk, hcast⟩ := Option.bind_eq_some_iff.1 h
    cases k with
    | int x =>
      rw [castInteger] at hcast
      split at hcast
      · next hx =>
        cases hcast
        exact ⟨intConstant_eq.2 hk, .inr ((fits_iff _ _).1 hx)⟩
      · cases hcast
    | bool b => cases hcast
  split at h
  · next s hs =>
    split at h
    · next hst => exact ⟨h, .inl (hst ▸ hs)⟩
    · exact hcast h
  · exact hcast h

theorem coerce_right {c : CheckedExpr} {s t : IntTy} (hc : FoldedRight env c) (hs : c.ty = .int s) :
    FoldedRight env (coerceNumericOperand c t) := by
  cases hconst : (coerceNumericOperand c t).constant with
  | none => exact FoldedRight.of_none hconst
  | some k =>
    by_cases hst : s = t
    · rw [coerceNumericOperand, hs]
      simpa [hst] using hc
    · have hform : coerceNumericOperand c t = .new (.cast c.expr (.int t)) (.int t)
          (c.constant.bind (castInteger t)) := by
        rw [coerceNumericOperand, hs]
        simp [hst]
      have hint : ∃ v, k = .int v := by
        rw [hform] at hconst
        obtain ⟨k', hk', hcast⟩ := Option.bind_eq_some_iff.1 hconst
        cases k' with
        | int x =>
          rw [castInteger] at hcast
          split at hcast <;> cases hcast
          exact ⟨x, rfl⟩
        | bool b => cases hcast
      obtain ⟨v, rfl⟩ := hint
      obtain ⟨hv, hfits⟩ := coerce_constant (intConstant_eq.2 hconst)
      have hfits : (cType t).Fits v := by
        rcases hfits with h | h
        · rw [hs] at h
          cases h
          exact absurd rfl hst
        · exact h
      rw [hform] at hconst ⊢
      rw [show c.constant.bind (castInteger t) = _ from hconst]
      exact cast_right hc hs hv hfits

/-! ## Unary operators -/

theorem emitExpr_negative {e : TypedExpr} (h : IsNegativeNumber e) :
    ∃ n, emitExpr e = some (.negLit n) := by
  obtain ⟨kind, ty⟩ := e
  cases kind with
  | int v =>
    have hv : ¬0 ≤ v := not_le.2 h
    exact ⟨v.natAbs, by rw [emitExpr, if_neg hv]⟩
  | _ => cases h

/-- The type at which the checker has the negation of an operand. -/
def negationTy (t : IntTy) (flexible : Bool) : IntTy := if flexible then .i64 else t

/-- The check of a negation that has a type. -/
theorem checkUnary_neg {c : CheckedExpr} {t : IntTy} {v : Int} (ht : c.ty = .int t)
    (hsign : t.isSigned = true ∨ c.flexibleInteger = true) (hv : c.intConstant = some v) :
    checkUnary .neg c = (.new (.unary .neg c.expr) (.int (negationTy t c.flexibleInteger))
      ((negateConstant v).1.map .int), (negateConstant v).2) := by
  have hno : ¬(t.isSigned = false ∧ c.flexibleInteger = false) := by
    rintro ⟨h₁, h₂⟩
    rcases hsign with h | h
    · rw [h₁] at h; cases h
    · rw [h₂] at h; cases h
  simp only [checkUnary, ht, if_neg hno, hv, negationTy]

/-- The check of a negation without a type or of an unknown operand records nothing and
reports no fault. -/
theorem checkUnary_neg_other {c : CheckedExpr}
    (h : ∀ t v, c.ty = .int t → t.isSigned = true ∨ c.flexibleInteger = true →
      c.intConstant ≠ some v) :
    (checkUnary .neg c).1.constant = none ∧ ¬Reports (checkUnary .neg c).2 := by
  have htyping : ∀ m, ¬Reports (typingError m).2 := by
    rintro m ⟨e, he, hkind⟩
    cases List.mem_singleton.1 he
    exact hkind rfl
  simp only [checkUnary]
  split
  · next t ht =>
    split
    · exact ⟨rfl, htyping _⟩
    · next hno =>
      have hsign : t.isSigned = true ∨ c.flexibleInteger = true := by
        cases hs : t.isSigned <;> cases hf : c.flexibleInteger <;> simp_all
      split
      · next v hv => exact absurd hv (h t v ht hsign)
      · refine ⟨rfl, ?_⟩
        rintro ⟨e, he, -⟩
        cases he
  · exact ⟨rfl, htyping _⟩

/-- A constant that `i64` has is negated, and of another an overflow is reported. -/
theorem negateConstant_cases (v : Int) :
    ((cType .i64).Fits (-v) ∧ negateConstant v = (some (-v), [])) ∨
      (¬(cType .i64).Fits (-v) ∧ (negateConstant v).1 = none ∧ Reports (negateConstant v).2) := by
  unfold negateConstant checked128
  by_cases h64 : (cType .i64).Fits (-v)
  · have h128 : -2 ^ 127 ≤ -v ∧ -v < 2 ^ 127 := by
      have := h64.1
      have := h64.2
      simp [cType, IntType.lo, IntType.hi, IntTy.bits, IntTy.isSigned] at *
      omega
    rw [if_pos h128]
    simp [(fits_iff _ _).2 h64, h64]
  · refine .inr ⟨h64, ?_⟩
    have hnot : valueFitsType (-v) .i64 = false := by
      rw [← Bool.not_eq_true, fits_iff]
      exact h64
    by_cases h128 : -2 ^ 127 ≤ -v ∧ -v < 2 ^ 127
    · rw [if_pos h128]
      simp [hnot, Reports]
    · rw [if_neg h128]
      simp [Reports]

/-- C negates a constant at the promoted type of its text, which is none that begins with a
minus. -/
theorem negation_eval {c : CheckedExpr} {t : IntTy} {v : Int} (ty : Ty) (hc : FoldedRight env c)
    (ht : c.ty = .int t) (hv : c.intConstant = some v) (hno : ¬IsNegativeNumber c.expr) :
    ∃ ce, emitExpr (.mk (.unary .neg c.expr) ty) = some (.unary .neg ce) ∧
      cEval (constTypes env) (constValues env) (.unary .neg ce) =
        result (promote (computedAt c.expr)) (-v) := by
  obtain ⟨-, hheld, hfits, ce, hce, heval, hneg⟩ := hc.int ht hv
  have hwrap := IntType.wrap_of_fits (bits_pos_of_held (held_promote hheld))
    (held_fits_promote hheld hfits)
  refine ⟨ce, emitExpr_unary hce fun _ n h => hno (hneg ⟨n, h⟩), ?_⟩
  simp only [cEval, heval, Option.bind_some, Library.negate, hwrap]

/-- The text of a negation has the value where the type of C has it. -/
theorem negation_value (ty : Ty) {c : CheckedExpr} {t : IntTy} {v : Int} (hc : FoldedRight env c)
    (ht : c.ty = .int t) (hv : c.intConstant = some v) :
    (∃ ce a, emitExpr (.mk (.unary .neg c.expr) ty) = some ce ∧
      cEval (constTypes env) (constValues env) ce = some a ∧ a.value = -v) ↔
      (promote (computedAt c.expr)).Fits (-v) ∧ ¬IsNegativeNumber c.expr := by
  obtain ⟨-, hheld, -⟩ := hc.int ht hv
  have hpos := bits_pos_of_held (held_promote hheld)
  constructor
  · rintro ⟨ce', a, hce', ha, hav⟩
    have hno : ¬IsNegativeNumber c.expr := by
      intro hnum
      obtain ⟨n, hn⟩ := emitExpr_negative hnum
      rw [emitExpr, hn, Option.bind_some, negates, if_pos rfl] at hce'
      cases hce'
    obtain ⟨ce, hce, heval⟩ := negation_eval ty hc ht hv hno
    rw [hce] at hce'
    cases hce'
    rw [heval] at ha
    exact ⟨(result_value_iff hpos (-v)).1 ⟨a, ha, hav⟩, hno⟩
  · rintro ⟨hfit, hno⟩
    obtain ⟨ce, hce, heval⟩ := negation_eval ty hc ht hv hno
    rw [result_of_fits hpos hfit] at heval
    exact ⟨_, _, hce, heval, rfl⟩

/-- Only a literal adapts to the other operand. -/
def LiteralIfFlexible (c : CheckedExpr) : Prop :=
  c.flexibleInteger = true → ∃ v, 0 ≤ v ∧ c = (checkLiteral v).1

/-- The type of C that has the negation of a literal holds an `i64`. -/
theorem held_literal {v : Int} (hv : 0 ≤ v)
    (hfits : (promote (computedAt (checkLiteral v).1.expr)).Fits (-v)) :
    HoldsAt .i64 (promote (computedAt (checkLiteral v).1.expr)) := by
  have hat : computedAt (checkLiteral v).1.expr = (literal v.natAbs).type := rfl
  rw [hat] at hfits ⊢
  unfold literal at hfits ⊢
  split
  · exact .inr (.inl rfl)
  · next hint =>
    rw [if_neg hint] at hfits
    split
    · exact .inr (.inr rfl)
    · next hlong =>
      rw [if_neg hlong] at hfits
      -- no `unsigned long` is negative
      have hneg : (0 : Int) ≤ -v := hfits.1
      have hzero : v = 0 := by omega
      exact absurd (by rw [hzero]; decide) hint

theorem fits_i64 {t : IntTy} (ht : t.isSigned = true) {x : Int} (hx : (cType t).Fits x) :
    (cType .i64).Fits x := by
  cases t <;> simp [IntTy.isSigned] at ht <;>
    simp [cType, IntType.Fits, IntType.lo, IntType.hi, IntTy.bits, IntTy.isSigned] at hx ⊢ <;>
    omega

/-- The negation of a constant agrees exactly where it is careful, and is then right. -/
theorem negation_agrees_iff {c : CheckedExpr} (hc : FoldedRight env c) (hflex : LiteralIfFlexible c) :
    (UnaryAgrees env .neg c ↔ NegationCareful c) ∧
      (NegationCareful c → FoldedRight env (checkUnary .neg c).1) := by
  by_cases hcase : ∃ t v, c.ty = .int t ∧ (t.isSigned = true ∨ c.flexibleInteger = true) ∧
      c.intConstant = some v
  · obtain ⟨t, v, ht, hsign, hv⟩ := hcase
    have hform := checkUnary_neg ht hsign hv
    have hvalue := negation_value (.int (negationTy t c.flexibleInteger)) hc ht hv
    obtain ⟨-, hheld, -⟩ := hc.int ht hv
    rcases negateConstant_cases v with ⟨h64, hneg⟩ | ⟨h64, hneg, hrep⟩
    · -- a constant is recorded
      rw [hneg] at hform
      have hcare : NegationCareful c ↔ (cType (negationTy t c.flexibleInteger)).Fits (-v) ∧
          (promote (computedAt c.expr)).Fits (-v) ∧ ¬IsNegativeNumber c.expr := by
        constructor
        · intro hcare
          obtain ⟨hown, hrest⟩ := hcare t v ht hsign hv h64
          refine ⟨?_, hrest⟩
          unfold negationTy
          split
          · exact h64
          · next h => exact hown (Bool.not_eq_true _ ▸ h)
        · rintro ⟨hown, hrest⟩ t' v' ht' _ hv' _
          rw [ht] at ht'
          cases ht'
          rw [hv] at hv'
          cases hv'
          refine ⟨fun h => ?_, hrest⟩
          rwa [negationTy, h] at hown
      rw [hcare, UnaryAgrees, hform]
      constructor
      · constructor
        · rintro ⟨hagree, -⟩
          obtain ⟨htype, hce⟩ := hagree (.int (-v)) rfl
          exact ⟨htype, hvalue.1 hce⟩
        · rintro ⟨hown, hrest⟩
          refine ⟨?_, ?_⟩
          · rintro _ ⟨⟩
            exact ⟨hown, hvalue.2 hrest⟩
          · rintro ⟨e, he, -⟩
            cases he
      · rintro ⟨hown, hfit, hno⟩
        have hheld' : HoldsAt (negationTy t c.flexibleInteger) (promote (computedAt c.expr)) := by
          unfold negationTy
          split
          · next h =>
            obtain ⟨n, hn, rfl⟩ := hflex h
            cases intConstant_eq.1 hv
            exact held_literal hn hfit
          · exact held_promote hheld
        obtain ⟨ce, hce, heval⟩ :=
          negation_eval (.int (negationTy t c.flexibleInteger)) hc ht hv hno
        rw [result_of_fits (bits_pos_of_held (held_promote hheld)) hfit] at heval
        rintro _ ⟨⟩
        refine ⟨hown, ⟨_, hce, heval, ?_⟩, ?_, ?_⟩
        · rintro ⟨n, hn⟩
          cases hn
        · rintro _ ⟨⟩
          exact ⟨hheld', hfit⟩
        · intro h
          cases h
    · -- an overflow is reported
      have hcare : NegationCareful c := by
        intro t' v' _ _ hv' hfits
        rw [hv] at hv'
        cases hv'
        exact absurd hfits h64
      have hnone : (checkUnary .neg c).1.constant = none := by
        rw [hform, hneg]
        rfl
      have hright : FoldedRight env (checkUnary .neg c).1 := FoldedRight.of_none hnone
      refine ⟨iff_of_true ⟨hright.agrees, fun _ => ?_⟩ hcare, fun _ => hright⟩
      rw [hform]
      refine ⟨negationTy t c.flexibleInteger, v, rfl, hv, ?_⟩
      unfold negationTy
      split
      · exact h64
      · next h =>
        rcases hsign with hs | hs
        · exact fun hfits => h64 (fits_i64 hs hfits)
        · exact absurd hs h
  · have hother : ∀ t v, c.ty = .int t → t.isSigned = true ∨ c.flexibleInteger = true →
        c.intConstant ≠ some v := fun t v ht hs hv => hcase ⟨t, v, ht, hs, hv⟩
    obtain ⟨hnone, hrep⟩ := checkUnary_neg_other hother
    have hcare : NegationCareful c := fun t v ht hs hv _ => absurd hv (hother t v ht hs)
    have hright : FoldedRight env (checkUnary .neg c).1 := FoldedRight.of_none hnone
    exact ⟨iff_of_true ⟨hright.agrees, fun h => absurd h hrep⟩ hcare, fun _ => hright⟩

/-- `!` agrees, and what it records is right. -/
theorem not_agrees {c : CheckedExpr} (hc : FoldedRight env c) :
    UnaryAgrees env .not c ∧ FoldedRight env (checkUnary .not c).1 := by
  have hright : FoldedRight env (checkUnary .not c).1 := by
    intro k hk
    have hb : ∃ b, c.constant = some (.bool b) ∧ k = .bool (!b) := by
      simp only [checkUnary, CheckedExpr.new] at hk
      split at hk
      · next b hb =>
        cases hk
        exact ⟨b, hb, rfl⟩
      · cases hk
    obtain ⟨b, hb, rfl⟩ := hb
    obtain ⟨-, ⟨ce, hce, heval, -⟩, -⟩ := hc _ hb
    refine ⟨trivial, ⟨.unary .not ce, ?_, ?_, ?_⟩, ?_, fun _ => rfl⟩
    · exact emitExpr_unary hce (by simp)
    · simp only [cEval, heval, Option.map_some, number]
      cases b <;> rfl
    · rintro ⟨n, hn⟩
      cases hn
    · intro t ht
      cases ht
  refine ⟨⟨hright.agrees, ?_⟩, hright⟩
  rintro ⟨e, he, hkind⟩
  simp only [checkUnary] at he
  split at he
  · cases he
  · cases List.mem_singleton.1 he
    exact absurd rfl hkind

/-! ## Binary operators -/

/-- Operands brought to a type are integers. -/
theorem promotedType_ok {noun : String} {l r : CheckedExpr} {t : IntTy}
    (h : promotedType noun l r = .ok t) : (∃ lt, l.ty = .int lt) ∧ ∃ rt, r.ty = .int rt := by
  unfold promotedType at h
  split at h
  · next lt rt hl hr => exact ⟨⟨lt, hl⟩, rt, hr⟩
  · cases h
  · cases h

theorem exactInteger_isSome {op : BinaryOp} (hop : isArithmetic op = true) (a : Int) {b : Int}
    (hb : op = .div ∨ op = .rem → b ≠ 0) : ∃ x, exactInteger op a b = some x := by
  cases op <;> first | exact ⟨_, rfl⟩ | cases hop; done | skip
  · exact ⟨_, if_neg (hb (.inl rfl))⟩
  · exact ⟨_, if_neg (hb (.inr rfl))⟩

/-- What is recorded or reported of an operator on constants. -/
theorem evalIntegerBinaryReporting_cases {op : BinaryOp} {a b x : Int} (t : IntTy)
    (hb : op = .div ∨ op = .rem → b ≠ 0) (hx : exactInteger op a b = some x) :
    ((cType t).Fits x ∧ evalIntegerBinaryReporting op a b t = (some x, [])) ∨
      (¬(cType t).Fits x ∧ (evalIntegerBinaryReporting op a b t).1 = none) := by
  have hdiv : ¬(op = .div ∧ b = 0) := fun h => hb (.inl h.1) h.2
  have hrem : ¬(op = .rem ∧ b = 0) := fun h => hb (.inr h.1) h.2
  simp only [evalIntegerBinaryReporting, if_neg hdiv, if_neg hrem, hx, Option.bind_some]
  by_cases hfits : (cType t).Fits x
  · have h128 : -2 ^ 127 ≤ x ∧ x < 2 ^ 127 := by
      cases t <;>
        simp [cType, IntType.Fits, IntType.lo, IntType.hi, IntTy.bits, IntTy.isSigned] at hfits <;>
        omega
    refine .inl ⟨hfits, ?_⟩
    simp only [checked128, if_pos h128, (fits_iff x t).2 hfits, if_true]
  · refine .inr ⟨hfits, ?_⟩
    have hnot : ¬valueFitsType x t = true := fun h => hfits ((fits_iff x t).1 h)
    unfold checked128
    split
    · rfl
    · next v hv =>
      split at hv
      · cases hv
        rw [if_neg hnot]
      · cases hv

/-- The text of an arithmetic node, on operands of its type. -/
theorem arithmetic_eval {op : BinaryOp} (hop : isArithmetic op = true) {l r : CheckedExpr}
    {t : IntTy} {a b x : Int} (hl : FoldedRight env l) (hr : FoldedRight env r) (hlt : l.ty = .int t)
    (hrt : r.ty = .int t) (ha : l.intConstant = some a) (hb : r.intConstant = some b)
    (hx : exactInteger op a b = some x) :
    HoldsAt t (cTypeOf op t l r) ∧ ∃ cl cr,
      emitExpr (.mk (.binary op l.expr r.expr true) (.int t)) = some (.binary op cl cr) ∧
      (QuotientFits op (cTypeOf op t l r) a b →
        cEval (constTypes env) (constValues env) (.binary op cl cr) = result (cTypeOf op t l r) x) ∧
      (¬QuotientFits op (cTypeOf op t l r) a b →
        cEval (constTypes env) (constValues env) (.binary op cl cr) = none) := by
  obtain ⟨hfa, hheldl, hfl, cl, hcl, hevall, -⟩ := hl.int hlt ha
  obtain ⟨hfb, hheldr, hfr, cr, hcr, hevalr, -⟩ := hr.int hrt hb
  have hnoshift : ¬(op = .shl ∨ op = .shr) := by
    rintro (rfl | rfl) <;> cases hop
  obtain ⟨T₂, hright, hT₂, -⟩ := cEval_emitRight op true t hevalr hfb (exact_divisor hx)
    (fun h => absurd h hnoshift)
  have hT₂ := hT₂ hop
  have hheld₂ : HoldsAt t T₂ ∧ T₂.Fits b := by
    rcases rightAt_cases op true t (computedAt r.expr) with h | h
    · rw [hT₂, h]
      exact ⟨hheldr, hfr⟩
    · rw [hT₂, h]
      exact ⟨.inl rfl, hfb⟩
  have htype : cTypeOf op t l r = common (promote (computedAt l.expr)) (promote T₂) := by
    rw [cTypeOf, hT₂]
  have hheld := held_common hheldl hheld₂.1
  obtain ⟨hca, hcb⟩ := held_fits_common hheldl hheld₂.1 ⟨hfa, hfl⟩ ⟨hfb, hheld₂.2⟩
  have hpos := bits_pos_of_held hheld
  have hexact := cBinary_exact hop (IntType.wrap_of_fits hpos hca)
    (IntType.wrap_of_fits hpos hcb) hx
  have heval : cEval (constTypes env) (constValues env)
      (.binary op cl (emitRight op true (.int t) (.int t) cr)) =
      cBinary op ⟨computedAt l.expr, a⟩ ⟨T₂, b⟩ := by
    simp only [cEval, hevall, hright]
  refine ⟨htype ▸ hheld, cl, emitRight op true (.int t) (.int t) cr, ?_, ?_⟩
  · have hlt' : l.expr.ty = .int t := hlt
    have hrt' : r.expr.ty = .int t := hrt
    simp only [emitExpr, hcl, hcr, hlt', hrt']
  · rw [heval, htype]
    exact hexact

/-- The node of an operator on two integers agrees. -/
def NodeAgrees (env : ConstEnv) (op : BinaryOp) (l r : CheckedExpr) (res : Checked) : Prop :=
  Folds env res.1 ∧
    (Reports res.2 → ∃ t, res.1.ty = .int t ∧ Faults op t l.intConstant r.intConstant)

theorem not_reports_nil : ¬Reports [] := by
  rintro ⟨e, he, -⟩
  cases he

theorem not_reports_typing (m : String) : ¬Reports [⟨.typing, m⟩] := by
  rintro ⟨e, he, hkind⟩
  cases List.mem_singleton.1 he
  exact hkind rfl

/-- A node that records nothing and reports nothing agrees. -/
theorem NodeAgrees.of_none {op : BinaryOp} {l r : CheckedExpr} {res : Checked}
    (h : res.1.constant = none) (hrep : ¬Reports res.2) : NodeAgrees env op l r res :=
  ⟨(FoldedRight.of_none h).agrees, fun h => absurd h hrep⟩

/-- A constant recorded for an arithmetic node. -/
theorem arithmetic_recorded {op : BinaryOp} (hop : isArithmetic op = true) {l r : CheckedExpr}
    {t : IntTy} {a b x : Int} (hl : FoldedRight env l) (hr : FoldedRight env r) (hlt : l.ty = .int t)
    (hrt : r.ty = .int t) (ha : l.intConstant = some a) (hb : r.intConstant = some b)
    (hx : exactInteger op a b = some x) (hfits : (cType t).Fits x) :
    (Folds env (binaryNode op l r (.int t) (some (.int x))) ↔
        (cTypeOf op t l r).Fits x ∧ QuotientFits op (cTypeOf op t l r) a b) ∧
      ((cTypeOf op t l r).Fits x ∧ QuotientFits op (cTypeOf op t l r) a b →
        FoldedRight env (binaryNode op l r (.int t) (some (.int x)))) := by
  obtain ⟨hheld, cl, cr, hce, hyes, hno⟩ := arithmetic_eval hop hl hr hlt hrt ha hb hx
  have hpos := bits_pos_of_held hheld
  have hright : (cTypeOf op t l r).Fits x ∧ QuotientFits op (cTypeOf op t l r) a b →
      FoldedRight env (binaryNode op l r (.int t) (some (.int x))) := by
    rintro ⟨hfit, hquot⟩ _ ⟨⟩
    have hat : computedAt (.mk (.binary op l.expr r.expr true) (.int t)) = cTypeOf op t l r := by
      have hrt' : r.expr.ty = .int t := hrt
      have hnoshift : ¬(op = .shl ∨ op = .shr) := by
        rintro (rfl | rfl) <;> cases hop
      have hnocompare : isComparison op = false := by
        cases op <;> first | rfl | cases hop
      rw [computedAt, if_neg hnoshift, hnocompare, hrt', cTypeOf]
      rfl
    refine ⟨hfits, ⟨.binary op cl cr, hce, ?_, ?_⟩, ?_, ?_⟩
    · rw [hyes hquot, result_of_fits hpos hfit]
      simp only [binaryNode, CheckedExpr.new, hat, number]
    · rintro ⟨n, hn⟩
      cases hn
    · rintro _ ⟨⟩
      simp only [binaryNode, CheckedExpr.new, hat]
      exact ⟨hheld, hfit⟩
    · intro h
      cases h
  refine ⟨⟨fun hagree => ?_, fun h => (hright h).agrees⟩, hright⟩
  obtain ⟨-, ce, v, hce', hv, hvx⟩ := hagree _ rfl
  have hce'' : emitExpr (.mk (.binary op l.expr r.expr true) (.int t)) = some ce := hce'
  rw [hce] at hce''
  cases hce''
  by_cases hquot : QuotientFits op (cTypeOf op t l r) a b
  · rw [hyes hquot] at hv
    exact ⟨(result_value_iff hpos x).1 ⟨v, hv, hvx⟩, hquot⟩
  · rw [hno hquot] at hv
    cases hv

/-- The node of an operator on two integers agrees exactly where it is careful, and is then
right. -/
theorem integerNode_agrees_iff {noun : String} {zero : Option String} {op : BinaryOp}
    (hop : isArithmetic op = true) (hzero : zero.isSome = true ↔ op = .div ∨ op = .rem)
    {l r : CheckedExpr} (hl : FoldedRight env l) (hr : FoldedRight env r) :
    (NodeAgrees env op l r (checkIntegerNode noun zero op l r) ↔ ArithmeticCareful noun op l r) ∧
      (ArithmeticCareful noun op l r → FoldedRight env (checkIntegerNode noun zero op l r).1) := by
  cases hprom : promotedType noun l r with
  | error m =>
    have hcare : ArithmeticCareful noun op l r := by
      intro t a b x ht
      rw [hprom] at ht
      cases ht
    have hform : checkIntegerNode noun zero op l r = typingError m := by
      rw [checkIntegerNode, hprom]
    rw [hform]
    exact ⟨iff_of_true (.of_none rfl (not_reports_typing m)) hcare, fun _ => .of_none rfl⟩
  | ok t =>
    obtain ⟨⟨lt, hlt⟩, rt, hrt⟩ := promotedType_ok hprom
    have hcl : FoldedRight env (coerceNumericOperand l t) := coerce_right hl hlt
    have hcr : FoldedRight env (coerceNumericOperand r t) := coerce_right hr hrt
    -- without both constants, or with a zero divisor, nothing is asked
    have hnone : (∀ a b x, (coerceNumericOperand l t).intConstant = some a →
        (coerceNumericOperand r t).intConstant = some b → exactInteger op a b ≠ some x) →
        ArithmeticCareful noun op l r := by
      intro h t' a b x ht ha hb hx
      rw [hprom] at ht
      cases ht
      exact absurd hx (h a b x ha hb)
    simp only [checkIntegerNode, hprom]
    split
    · next m hr0 =>
      have hdiv : op = .div ∨ op = .rem := hzero.1 rfl
      have hcare := hnone fun a b x _ hb hx => by
        rw [hr0] at hb
        cases hb
        exact exact_divisor hx hdiv rfl
      refine ⟨iff_of_true ⟨(FoldedRight.of_none rfl).agrees, fun _ => ⟨t, rfl, .inl ⟨hdiv, ?_⟩⟩⟩ hcare,
        fun _ => FoldedRight.of_none rfl⟩
      exact (coerce_constant hr0).1
    · next hz =>
      split
      · next a b ha hb =>
        have hb0 : op = .div ∨ op = .rem → b ≠ 0 := by
          intro hdiv h0
          obtain ⟨m, hm⟩ := Option.isSome_iff_exists.1 (hzero.2 hdiv)
          exact hz m hm (h0 ▸ hb)
        obtain ⟨x, hx⟩ := exactInteger_isSome hop a hb0
        have hcare : (cType t).Fits x → (ArithmeticCareful noun op l r ↔
            (cTypeOf op t (coerceNumericOperand l t) (coerceNumericOperand r t)).Fits x ∧
            QuotientFits op (cTypeOf op t (coerceNumericOperand l t) (coerceNumericOperand r t))
              a b) := by
          intro hfits
          constructor
          · exact fun h => h t a b x hprom ha hb hx hfits
          · intro h t' a' b' x' ht' ha' hb' hx' _
            rw [hprom] at ht'
            cases ht'
            rw [ha] at ha'
            cases ha'
            rw [hb] at hb'
            cases hb'
            rw [hx] at hx'
            cases hx'
            exact h
        rcases evalIntegerBinaryReporting_cases t hb0 hx with ⟨hfits, heval⟩ | ⟨hfits, heval⟩
        · rw [heval, hcare hfits]
          have hrec := arithmetic_recorded hop hcl hcr (coerce_ty l t) (coerce_ty r t) ha hb hx
            hfits
          refine ⟨⟨fun h => hrec.1.1 h.1, fun h => ⟨hrec.1.2 h, ?_⟩⟩, hrec.2⟩
          exact fun h => absurd h not_reports_nil
        · have hright : FoldedRight env (binaryNode op (coerceNumericOperand l t)
              (coerceNumericOperand r t) (.int t)
              ((evalIntegerBinaryReporting op a b t).1.map .int)) := by
            apply FoldedRight.of_none
            rw [heval]
            rfl
          have hcare' : ArithmeticCareful noun op l r := by
            intro t' a' b' x' ht' ha' hb' hx' hfits'
            rw [hprom] at ht'
            cases ht'
            rw [ha] at ha'
            cases ha'
            rw [hb] at hb'
            cases hb'
            rw [hx] at hx'
            cases hx'
            exact absurd hfits' hfits
          refine ⟨iff_of_true ⟨hright.agrees, fun _ => ⟨t, rfl, .inr (.inr ?_)⟩⟩ hcare',
            fun _ => hright⟩
          exact ⟨a, b, x, (coerce_constant ha).1, (coerce_constant hb).1, hx, hfits⟩
      · next hnoconst =>
        have hcare := hnone fun a b _ ha hb _ => hnoconst a b ha hb
        exact ⟨iff_of_true (.of_none rfl not_reports_nil) hcare, fun _ => FoldedRight.of_none rfl⟩

end Vani.Analysis
