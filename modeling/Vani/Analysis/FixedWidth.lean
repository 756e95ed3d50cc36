import Vani.Backend.EmitInt

/-!
# The emitted integer expressions keep fixed-width meaning

C computes on operands narrower than `int` at `int`, and a literal is an `int` whatever
type the checker gave it; the verifier computes at each node's own type. The two agree on
every node of an expression exactly when every operation that C computes at another type
has an exact result that both types have. One lemma for each operator compares the two
computations; the theorem is an induction on the typing of the expression.
-/

set_option autoImplicit false

namespace Vani.Analysis

open Vani.Program Vani.Library Vani.Backend

/-! ## The statement -/

/-- The C type of a right operand, given the type it has unchecked: a checked divisor has
the type of the helper that checks it. -/
def rightAt (op : BinaryOp) (checked : Bool) (ty : Ty) (T : IntType) : IntType :=
  match op, checked, ty with
  | .div, true, .int t | .rem, true, .int t => cType t
  | _, _, _ => T

/-- The type at which C computes the text emitted for an expression. -/
def computedAt : TypedExpr → IntType
  | .mk (.int v) _ => (literal v.natAbs).type
  | .mk (.var _) (.int t) => cType t
  | .mk (.unary .neg e) _ => promote (computedAt e)
  | .mk (.binary op l r checked) _ =>
    if op = .shl ∨ op = .shr then promote (computedAt l)
    else if isComparison op then cInt
    else common (promote (computedAt l)) (promote (rightAt op checked r.ty (computedAt r)))
  | .mk (.cast _ _) (.int t) => cType t
  | _ => cInt

/-- Every variable holds a value of its type. -/
def InStore (Γ : String → Option IntTy) (σ : String → Option Int) : Prop :=
  ∀ name t, Γ name = some t → ∃ v, σ name = some v ∧ (cType t).Fits v

/-- The operator neither traps on the operands' values nor is undefined in C on operands of
the operands' own types. -/
def NodeDefined (σ : String → Option Int) (op : BinaryOp) (l r : TypedExpr) : Prop :=
  ∀ a b t s, fixedValue σ l = some a → fixedValue σ r = some b →
    l.ty = .int t → r.ty = .int s →
      (fixedBinary op l.ty a b).isSome ∧ (cBinary op ⟨cType t, a⟩ ⟨cType s, b⟩).isSome

/-- No operation of the expression traps, and none is undefined in C on operands of the
operands' own types. -/
def OpsDefined (σ : String → Option Int) : TypedExpr → Prop
  | .mk (.unary .neg e) _ => OpsDefined σ e ∧
    ∀ v t, fixedValue σ e = some v → e.ty = .int t → (negate ⟨cType t, v⟩).isSome
  | .mk (.unary .not e) _ => OpsDefined σ e
  | .mk (.binary op l r _) _ => OpsDefined σ l ∧ OpsDefined σ r ∧ NodeDefined σ op l r
  | .mk (.cast e _) _ => OpsDefined σ e
  | _ => True

/-- The emitted text has the value of the expression. -/
def Matches (Γ : String → Option IntTy) (σ : String → Option Int) (e : TypedExpr) : Prop :=
  ∃ ce c v, emitExpr e = some ce ∧ cEval Γ σ ce = some c ∧ fixedValue σ e = some v ∧ c.value = v

/-- The text emitted for every node of the expression has the value of that node. -/
def AllMatch (Γ : String → Option IntTy) (σ : String → Option Int) : TypedExpr → Prop
  | .mk (.unary op e) t => Matches Γ σ (.mk (.unary op e) t) ∧ AllMatch Γ σ e
  | .mk (.binary op l r checked) t =>
    Matches Γ σ (.mk (.binary op l r checked) t) ∧ AllMatch Γ σ l ∧ AllMatch Γ σ r
  | .mk (.cast e t') t => Matches Γ σ (.mk (.cast e t') t) ∧ AllMatch Γ σ e
  | e => Matches Γ σ e

/-- An exact result that C computes at a type other than the node's own is one that both
types have. -/
def FitsBoth (t : IntTy) (T : IntType) (x : Int) : Prop :=
  T ≠ cType t → (cType t).Fits x ∧ T.Fits x

/-- C does not compute the remainder of two values whose quotient its type does not have. -/
def QuotientFits (op : BinaryOp) (T : IntType) (a b : Int) : Prop :=
  op = .rem → (result T (a.tdiv b)).isSome

/-- The exact result of an arithmetic operator or shift fits, of a remainder also the
quotient, and a shift count lies within the width at which C shifts. -/
def NodeFits (σ : String → Option Int) (t : IntTy) (op : BinaryOp) (l r : TypedExpr)
    (checked : Bool) : Prop :=
  ∀ a b x, fixedValue σ l = some a → fixedValue σ r = some b → exactInteger op a b = some x →
    FitsBoth t (computedAt (.mk (.binary op l r checked) (.int t))) x ∧
      (computedAt (.mk (.binary op l r checked) (.int t)) ≠ cType t →
        QuotientFits op (computedAt (.mk (.binary op l r checked) (.int t))) a b) ∧
      (op = .shl ∨ op = .shr → b < (computedAt (.mk (.binary op l r checked) (.int t))).bits)

/-- Every negation, arithmetic operation and shift of the expression that C computes at a
type other than the node's own has an exact result both types have, and every shift count
lies within the width at which C shifts. -/
def AllFit (σ : String → Option Int) : TypedExpr → Prop
  | .mk (.unary .neg e) (.int t) => AllFit σ e ∧
    ∀ v, fixedValue σ e = some v → FitsBoth t (promote (computedAt e)) (-v)
  | .mk (.unary _ e) _ => AllFit σ e
  | .mk (.binary op l r checked) (.int t) =>
    AllFit σ l ∧ AllFit σ r ∧ NodeFits σ t op l r checked
  | .mk (.binary _ l r _) _ => AllFit σ l ∧ AllFit σ r
  | .mk (.cast e _) _ => AllFit σ e
  | _ => True

/-! ## The types C computes at -/

/-- The C types of an expression of type `t`: its own, or `int` where `int` has a reason
to stand in. -/
def Allowed (t : IntTy) (T : IntType) : Prop :=
  T = cType t ∨ T = cInt ∧ (t.bits < 32 ∨ t = .i64)

section

attribute [local simp] promote common cType cInt IntTy.bits IntTy.isSigned

theorem cType_bits_pos (t : IntTy) : 0 < (cType t).bits := by
  cases t <;> decide

theorem allowed_cType (t : IntTy) : Allowed t (cType t) :=
  Or.inl rfl

theorem allowed_promote {t : IntTy} {T : IntType} (h : Allowed t T) : Allowed t (promote T) := by
  rcases h with rfl | ⟨rfl, ht⟩
  · cases t <;> simp [Allowed]
  · exact Or.inr ⟨rfl, ht⟩

theorem allowed_common {t : IntTy} {T₁ T₂ : IntType} (h₁ : Allowed t T₁) (h₂ : Allowed t T₂) :
    Allowed t (common (promote T₁) (promote T₂)) := by
  rcases h₁ with rfl | ⟨rfl, ht⟩ <;> rcases h₂ with rfl | ⟨rfl, ht'⟩
  all_goals cases t <;>
    simp_all [Allowed]

/-- Both types have a value of the node's type that the narrower of two computations has. -/
theorem fits_common {t : IntTy} {T₁ T₂ : IntType} {x : Int} (h₁ : Allowed t T₁)
    (h₂ : Allowed t T₂) (hx : (cType t).Fits x) (hx₁ : T₁.Fits x) :
    (common (promote T₁) (promote T₂)).Fits x := by
  rcases h₁ with rfl | ⟨rfl, ht⟩ <;> rcases h₂ with rfl | ⟨rfl, ht'⟩
  all_goals cases t <;>
    simp_all [IntType.Fits, IntType.lo, IntType.hi]
  all_goals omega

theorem common_comm {t : IntTy} {T₁ T₂ : IntType} (h₁ : Allowed t T₁) (h₂ : Allowed t T₂) :
    common (promote T₂) (promote T₁) = common (promote T₁) (promote T₂) := by
  rcases h₁ with rfl | ⟨rfl, ht⟩ <;> rcases h₂ with rfl | ⟨rfl, ht'⟩
  all_goals cases t <;>
    simp_all

theorem fits_promote {t : IntTy} {T : IntType} {x : Int} (h : Allowed t T)
    (hx : T.Fits x) : (promote T).Fits x := by
  rcases h with rfl | ⟨rfl, ht⟩
  · cases t <;> simp_all [IntType.Fits, IntType.lo, IntType.hi]
    all_goals omega
  · exact hx

theorem bits_pos_of_allowed {t : IntTy} {T : IntType} (h : Allowed t T) : 0 < T.bits := by
  rcases h with rfl | ⟨rfl, ht⟩
  · exact cType_bits_pos t
  · decide

end

/-! ## One computation, at the node's type and at the type of C -/

/-- A result C computes at the node's own type, where it is defined, is the fixed-width
one; a result it computes at `int` is the fixed-width one when both types have it. -/
theorem result_iff {t : IntTy} {T : IntType} {x : Int} (hT : Allowed t T)
    (hdef : T = cType t → (result T x).isSome) :
    (∃ c, result T x = some c ∧ c.value = (cType t).wrap x) ↔ FitsBoth t T x := by
  by_cases hown : T = cType t
  · constructor
    · intro _ hne
      exact absurd hown hne
    · intro _
      obtain ⟨c, hc⟩ := Option.isSome_iff_exists.mp (hdef hown)
      refine ⟨c, hc, ?_⟩
      rcases result_eq hc with ⟨_, hv⟩ | ⟨_, hv, hfits⟩
      · rw [hv, hown]
      · rw [hv, ← hown, IntType.wrap_of_fits (bits_pos_of_allowed hT) hfits]
  · obtain ⟨rfl, _⟩ := hT.resolve_left hown
    have hsigned : cInt.signed = true := rfl
    constructor
    · intro ⟨c, hc, hv⟩ _
      obtain ⟨hfits, rfl⟩ := (result_signed hsigned).mp hc
      exact ⟨(IntType.wrap_eq_iff (cType_bits_pos t)).mp hv.symm, hfits⟩
    · intro h
      obtain ⟨hown', hfits⟩ := h hown
      exact ⟨⟨cInt, x⟩, (result_signed hsigned).mpr ⟨hfits, rfl⟩,
        (IntType.wrap_of_fits (cType_bits_pos t) hown').symm⟩

/-- The value of a computation at a type of the node is one that type has. -/
theorem result_type_fits {T : IntType} {x : Int} {c : CValue} (hT : 0 < T.bits)
    (h : result T x = some c) : c.type = T ∧ T.Fits c.value := by
  rcases result_eq h with ⟨ht, hv⟩ | ⟨ht, hv, hfits⟩
  · exact ⟨ht, hv ▸ IntType.wrap_fits hT x⟩
  · exact ⟨ht, hv ▸ hfits⟩

/-- Conversion to the common type leaves both operands alone. -/
theorem wrap_operands {t : IntTy} {T₁ T₂ : IntType} {a b : Int} (h₁ : Allowed t T₁)
    (h₂ : Allowed t T₂) (ha : (cType t).Fits a ∧ T₁.Fits a)
    (hb : (cType t).Fits b ∧ T₂.Fits b) :
    (common (promote T₁) (promote T₂)).wrap a = a ∧
      (common (promote T₁) (promote T₂)).wrap b = b := by
  have hpos := bits_pos_of_allowed (allowed_common h₁ h₂)
  refine ⟨IntType.wrap_of_fits hpos (fits_common h₁ h₂ ha.1 ha.2),
    IntType.wrap_of_fits hpos ?_⟩
  rw [← common_comm h₁ h₂]
  exact fits_common h₂ h₁ hb.1 hb.2

/-- C computes an arithmetic operator at the common type of operands that this type has. -/
theorem cBinary_exact {op : BinaryOp} (hop : isArithmetic op = true) {T₁ T₂ : IntType}
    {a b x : Int} (hwa : (common (promote T₁) (promote T₂)).wrap a = a)
    (hwb : (common (promote T₁) (promote T₂)).wrap b = b) (hx : exactInteger op a b = some x) :
    (QuotientFits op (common (promote T₁) (promote T₂)) a b →
      cBinary op ⟨T₁, a⟩ ⟨T₂, b⟩ = result (common (promote T₁) (promote T₂)) x) ∧
    (¬QuotientFits op (common (promote T₁) (promote T₂)) a b →
      cBinary op ⟨T₁, a⟩ ⟨T₂, b⟩ = none) := by
  have hform : arithmetic (exactInteger op) ⟨T₁, a⟩ ⟨T₂, b⟩ =
      result (common (promote T₁) (promote T₂)) x := by
    simp only [arithmetic, hwa, hwb, hx, Option.bind_some]
  by_cases hrem : op = .rem
  · subst hrem
    have hb0 : b ≠ 0 := by
      rintro rfl
      simp [exactInteger] at hx
    have hquot : arithmetic (exactInteger .div) ⟨T₁, a⟩ ⟨T₂, b⟩ =
        result (common (promote T₁) (promote T₂)) (a.tdiv b) := by
      simp only [arithmetic, hwa, hwb, exactInteger, if_neg hb0, Option.bind_some]
    constructor
    · intro hfits
      obtain ⟨q, hq⟩ := Option.isSome_iff_exists.mp (hfits rfl)
      simp only [cBinary, remainder, hquot, hq, hform, Option.bind_some]
    · intro hnot
      have hnone : result (common (promote T₁) (promote T₂)) (a.tdiv b) = none := by
        rw [← Option.not_isSome_iff_eq_none]
        exact fun h => hnot fun _ => h
      simp only [cBinary, remainder, hquot, hnone, Option.bind_none]
  · constructor
    · intro _
      rw [← hform]
      cases op <;> first | rfl | exact absurd rfl hrem | cases hop
    · intro hnot
      exact absurd (fun h => absurd h hrem) hnot

theorem cBinary_arithmetic {op : BinaryOp} (hop : isArithmetic op = true) {t : IntTy}
    {T₁ T₂ : IntType} {a b x : Int} (h₁ : Allowed t T₁) (h₂ : Allowed t T₂)
    (ha : (cType t).Fits a ∧ T₁.Fits a) (hb : (cType t).Fits b ∧ T₂.Fits b)
    (hx : exactInteger op a b = some x) :
    (QuotientFits op (common (promote T₁) (promote T₂)) a b →
      cBinary op ⟨T₁, a⟩ ⟨T₂, b⟩ = result (common (promote T₁) (promote T₂)) x) ∧
    (¬QuotientFits op (common (promote T₁) (promote T₂)) a b →
      cBinary op ⟨T₁, a⟩ ⟨T₂, b⟩ = none) := by
  obtain ⟨hwa, hwb⟩ := wrap_operands h₁ h₂ ha hb
  exact cBinary_exact hop hwa hwb hx

theorem result_of_cBinary {op : BinaryOp} (hop : isArithmetic op = true) {t : IntTy}
    {T₁ T₂ : IntType} {a b x : Int} {c : CValue} (h₁ : Allowed t T₁) (h₂ : Allowed t T₂)
    (ha : (cType t).Fits a ∧ T₁.Fits a) (hb : (cType t).Fits b ∧ T₂.Fits b)
    (hx : exactInteger op a b = some x) (hc : cBinary op ⟨T₁, a⟩ ⟨T₂, b⟩ = some c) :
    result (common (promote T₁) (promote T₂)) x = some c := by
  have hform := cBinary_arithmetic hop h₁ h₂ ha hb hx
  by_cases hq : QuotientFits op (common (promote T₁) (promote T₂)) a b
  · rw [← hform.1 hq, hc]
  · rw [hform.2 hq] at hc
    cases hc

/-- Where the node's own type is one C computes at, C computes at it on operands of that
type. -/
theorem common_own {t : IntTy} {T₁ T₂ : IntType} (h₁ : Allowed t T₁) (h₂ : Allowed t T₂)
    (h : common (promote T₁) (promote T₂) = cType t) :
    common (promote (cType t)) (promote (cType t)) = cType t := by
  rcases h₁ with rfl | ⟨rfl, ht⟩ <;> rcases h₂ with rfl | ⟨rfl, ht'⟩
  all_goals cases t <;>
    simp_all [promote, common, cType, cInt, IntTy.bits, IntTy.isSigned]

theorem promote_own {t : IntTy} {T : IntType} (hT : Allowed t T) (h : promote T = cType t) :
    promote (cType t) = cType t := by
  rcases hT with rfl | ⟨rfl, ht⟩
  · exact h
  · cases t <;> simp_all [promote, cType, cInt, IntTy.bits, IntTy.isSigned]

theorem arithmetic_iff {op : BinaryOp} (hop : isArithmetic op = true) {t : IntTy}
    {T₁ T₂ : IntType} {a b x : Int} (h₁ : Allowed t T₁) (h₂ : Allowed t T₂)
    (ha : (cType t).Fits a ∧ T₁.Fits a) (hb : (cType t).Fits b ∧ T₂.Fits b)
    (hx : exactInteger op a b = some x)
    (hdef : (cBinary op ⟨cType t, a⟩ ⟨cType t, b⟩).isSome) :
    (∃ c, cBinary op ⟨T₁, a⟩ ⟨T₂, b⟩ = some c ∧ c.value = (cType t).wrap x) ↔
      FitsBoth t (common (promote T₁) (promote T₂)) x ∧
        (common (promote T₁) (promote T₂) ≠ cType t →
          QuotientFits op (common (promote T₁) (promote T₂)) a b) := by
  have hown := allowed_cType t
  -- at the node's own type the quotient fits
  have hquot : QuotientFits op (common (promote (cType t)) (promote (cType t))) a b := by
    by_contra hnot
    rw [(cBinary_arithmetic hop hown hown ⟨ha.1, ha.1⟩ ⟨hb.1, hb.1⟩ hx).2 hnot] at hdef
    cases hdef
  rw [(cBinary_arithmetic hop hown hown ⟨ha.1, ha.1⟩ ⟨hb.1, hb.1⟩ hx).1 hquot] at hdef
  by_cases hq : QuotientFits op (common (promote T₁) (promote T₂)) a b
  · rw [(cBinary_arithmetic hop h₁ h₂ ha hb hx).1 hq]
    have hiff := result_iff (x := x) (allowed_common h₁ h₂) (fun hT => by
      rw [common_own h₁ h₂ hT] at hdef
      rw [hT]
      exact hdef)
    simpa [hq] using hiff
  · rw [(cBinary_arithmetic hop h₁ h₂ ha hb hx).2 hq]
    have hne : common (promote T₁) (promote T₂) ≠ cType t := by
      intro hT
      rw [common_own h₁ h₂ hT, ← hT] at hquot
      exact hq hquot
    simp [hq, hne]

/-- C shifts at the promoted type of the left operand. -/
theorem cBinary_shift {op : BinaryOp} (hop : op = .shl ∨ op = .shr) {T S : IntType}
    {a b x : Int} (hx : exactInteger op a b = some x) :
    cBinary op ⟨T, a⟩ ⟨S, b⟩ =
      if 0 ≤ b ∧ b < (promote T).bits ∧ (op = .shl → 0 ≤ a) then result (promote T) x
      else none := by
  rcases hop with rfl | rfl
  · by_cases hb : 0 ≤ b
    · simp only [exactInteger, if_pos hb, Option.some.injEq] at hx
      simp [cBinary, shiftLeft, hx]
    · simp [cBinary, shiftLeft, hb]
  · by_cases hb : 0 ≤ b
    · simp only [exactInteger, if_pos hb, Option.some.injEq] at hx
      simp [cBinary, shiftRight, hx]
    · simp [cBinary, shiftRight, hb]

theorem shift_iff {op : BinaryOp} (hop : op = .shl ∨ op = .shr) {t : IntTy}
    {T S S' : IntType} {a b x : Int} (hT : Allowed t T) (hx : exactInteger op a b = some x)
    (hdef : (cBinary op ⟨cType t, a⟩ ⟨S', b⟩).isSome) :
    (∃ c, cBinary op ⟨T, a⟩ ⟨S, b⟩ = some c ∧ c.value = (cType t).wrap x) ↔
      FitsBoth t (promote T) x ∧ b < (promote T).bits := by
  rw [cBinary_shift hop hx] at hdef
  rw [cBinary_shift hop hx]
  split at hdef
  · next hguard =>
    obtain ⟨hnonneg, -, hleft⟩ := hguard
    by_cases hcount : b < (promote T).bits
    · rw [if_pos ⟨hnonneg, hcount, hleft⟩]
      have key := result_iff (x := x) (allowed_promote hT) (fun h => by
        rw [promote_own hT h] at hdef
        rw [h]
        exact hdef)
      simpa [hcount] using key
    · simp [hcount]
  · cases hdef

theorem negate_iff {t : IntTy} {T : IntType} {v : Int} (hT : Allowed t T)
    (hv : (cType t).Fits v ∧ T.Fits v) (hdef : (negate ⟨cType t, v⟩).isSome) :
    (∃ c, negate ⟨T, v⟩ = some c ∧ c.value = (cType t).wrap (-v)) ↔
      FitsBoth t (promote T) (-v) := by
  have hwrap : ∀ {S : IntType}, Allowed t S → S.Fits v → (promote S).wrap v = v :=
    fun h hfits => IntType.wrap_of_fits (bits_pos_of_allowed (allowed_promote h))
      (fits_promote h hfits)
  simp only [Library.negate, hwrap hT hv.2, hwrap (allowed_cType t) hv.1] at hdef ⊢
  refine result_iff (allowed_promote hT) ?_
  intro h
  rw [promote_own hT h] at hdef
  rw [h]
  exact hdef

/-- C compares values of the node's type as they are. -/
theorem cBinary_comparison {op : BinaryOp} (hop : isComparison op = true) {t : IntTy}
    {T₁ T₂ : IntType} {a b : Int} (h₁ : Allowed t T₁) (h₂ : Allowed t T₂)
    (ha : (cType t).Fits a ∧ T₁.Fits a) (hb : (cType t).Fits b ∧ T₂.Fits b) :
    ∃ c, cBinary op ⟨T₁, a⟩ ⟨T₂, b⟩ = some c ∧ fixedBinary op (.int t) a b = some c.value ∧
      c.type = cInt := by
  obtain ⟨hwa, hwb⟩ := wrap_operands h₁ h₂ ha hb
  have hform : cBinary op ⟨T₁, a⟩ ⟨T₂, b⟩ = some
      (comparison (fun x y => (compareIntegers op x y).getD false) ⟨T₁, a⟩ ⟨T₂, b⟩) := by
    cases op <;> first | rfl | cases hop
  refine ⟨_, hform, ?_, rfl⟩
  simp only [comparison, hwa, hwb]
  cases op <;> first | rfl | cases hop

/-! ## The nodes of an expression -/

section Nodes

attribute [local simp] emitExpr cEval fixedValue computedAt emitRight

variable {Γ : String → Option IntTy} {σ : String → Option Int}

/-- The text emitted for the expression has its value, at the C type foreseen. -/
def Computed (Γ : String → Option IntTy) (σ : String → Option Int) (e : TypedExpr) : Prop :=
  ∃ ce c v, emitExpr e = some ce ∧ cEval Γ σ ce = some c ∧ fixedValue σ e = some v ∧
    c.value = v ∧ c.type = computedAt e ∧
      ∀ t, e.ty = .int t → Allowed t c.type ∧ (cType t).Fits v ∧ c.type.Fits v

theorem Computed.matches {e : TypedExpr} (h : Computed Γ σ e) : Matches Γ σ e := by
  obtain ⟨ce, c, v, hemit, hc, hv, heq, -⟩ := h
  exact ⟨ce, c, v, hemit, hc, hv, heq⟩

/-- A check of the right operand lets its value through. -/
theorem cEval_emitRight (op : BinaryOp) (checked : Bool) (t : IntTy) {s : IntTy} {cr : CExpr}
    {c : CValue} (hc : cEval Γ σ cr = some c) (hfits : (cType s).Fits c.value)
    (hdiv : op = .div ∨ op = .rem → c.value ≠ 0)
    (hshift : op = .shl ∨ op = .shr → 0 ≤ c.value ∧ c.value < t.bits) :
    ∃ T, cEval Γ σ (emitRight op checked (.int t) (.int s) cr) = some ⟨T, c.value⟩ ∧
      (isArithmetic op = true → T = rightAt op checked (.int s) c.type) ∧
      (isComparison op = true → T = c.type) := by
  have hwrap : convert (cType s) c = ⟨cType s, c.value⟩ := by
    simp only [convert, IntType.wrap_of_fits (cType_bits_pos s) hfits]
  have hplain : cEval Γ σ cr = some ⟨c.type, c.value⟩ := hc
  cases checked with
  | false =>
    refine ⟨c.type, ?_, ?_, fun _ => rfl⟩
    · cases op <;> exact hplain
    · intro _
      cases op <;> rfl
  | true =>
    by_cases hd : op = .div ∨ op = .rem
    · refine ⟨cType s, ?_, ?_, ?_⟩
      · have hne := hdiv hd
        rcases hd with rfl | rfl <;> simp [emitRight, cEval, hc, hwrap, hne]
      · rcases hd with rfl | rfl <;> exact fun _ => rfl
      · rcases hd with rfl | rfl <;> exact fun h => by cases h
    by_cases hs : op = .shl ∨ op = .shr
    · refine ⟨cType s, ?_, ?_, ?_⟩
      · have hcount := hshift hs
        rcases hs with rfl | rfl <;> simp [emitRight, cEval, hc, hwrap, hcount]
      · rcases hs with rfl | rfl <;> exact fun h => by cases h
      · rcases hs with rfl | rfl <;> exact fun h => by cases h
    · refine ⟨c.type, ?_, ?_, fun _ => rfl⟩
      · cases op <;> first | exact hplain | simp_all
      · cases op <;> first | exact fun _ => rfl | simp_all

theorem fixedBinary_arithmetic {op : BinaryOp} (hop : isArithmetic op = true) (t : IntTy)
    (a b : Int) : fixedBinary op (.int t) a b = (exactInteger op a b).map (cType t).wrap := by
  cases op <;> first | rfl | cases hop

theorem exact_divisor {op : BinaryOp} {a b x : Int} (hx : exactInteger op a b = some x)
    (hop : op = .div ∨ op = .rem) : b ≠ 0 := by
  intro hb
  rcases hop with rfl | rfl <;> simp [exactInteger, hb] at hx

theorem rightAt_cases (op : BinaryOp) (checked : Bool) (t : IntTy) (T : IntType) :
    rightAt op checked (.int t) T = T ∨ rightAt op checked (.int t) T = cType t := by
  cases checked
  · exact Or.inl (by cases op <;> rfl)
  · cases op <;> first | exact Or.inl rfl | exact Or.inr rfl

theorem arithmetic_node {op : BinaryOp} (hop : isArithmetic op = true) {l r : TypedExpr}
    {checked : Bool} {t : IntTy} (hl : Computed Γ σ l) (hr : Computed Γ σ r)
    (hlt : l.ty = .int t) (hrt : r.ty = .int t) (hdef : NodeDefined σ op l r) :
    (Matches Γ σ (.mk (.binary op l r checked) (.int t)) → NodeFits σ t op l r checked) ∧
      (NodeFits σ t op l r checked → Computed Γ σ (.mk (.binary op l r checked) (.int t))) := by
  obtain ⟨cl, ⟨T₁, a⟩, _, hel, hcl, hvl, rfl, hatl, hfl⟩ := hl
  obtain ⟨cr, ⟨T₂, b⟩, _, her, hcr, hvr, rfl, hatr, hfr⟩ := hr
  dsimp only at hatl hatr hfl hfr hvl hvr
  subst hatl hatr
  obtain ⟨hallowl, hfitl⟩ := hfl t hlt
  obtain ⟨hallowr, hfitr⟩ := hfr t hrt
  obtain ⟨hfixed, hown⟩ := hdef a b t t hvl hvr hlt hrt
  rw [hlt, fixedBinary_arithmetic hop, Option.isSome_map] at hfixed
  obtain ⟨x, hx⟩ := Option.isSome_iff_exists.mp hfixed
  have hnoshift : ¬(op = .shl ∨ op = .shr) := by
    rintro (rfl | rfl) <;> cases hop
  have hnocompare : isComparison op = false := by
    cases op <;> first | rfl | cases hop
  obtain ⟨T₂, hright, hT₂, -⟩ := cEval_emitRight op checked t hcr hfitr.1 (exact_divisor hx) (fun h => absurd h hnoshift)
  have hT₂ := hT₂ hop
  have hat : computedAt (.mk (.binary op l r checked) (.int t)) =
      common (promote (computedAt l)) (promote T₂) := by
    rw [hT₂, computedAt, if_neg hnoshift, hnocompare, hrt]
    rfl
  have hright₂ : Allowed t T₂ ∧ T₂.Fits b := by
    rcases rightAt_cases op checked t (computedAt r) with h | h
    · rw [hT₂, h]
      exact ⟨hallowr, hfitr.2⟩
    · rw [hT₂, h]
      exact ⟨allowed_cType t, hfitr.1⟩
  have hemit : emitExpr (.mk (.binary op l r checked) (.int t)) =
      some (.binary op cl (emitRight op checked (.int t) (.int t) cr)) := by
    simp only [emitExpr, hel, her, hlt, hrt]
  have heval : cEval Γ σ (.binary op cl (emitRight op checked (.int t) (.int t) cr)) =
      cBinary op ⟨computedAt l, a⟩ ⟨T₂, b⟩ := by
    simp only [cEval, hcl, hright]
  have hvalue : fixedValue σ (.mk (.binary op l r checked) (.int t)) =
      some ((cType t).wrap x) := by
    simp only [fixedValue, hvl, hvr, hlt, fixedBinary_arithmetic hop, hx, Option.map_some]
  have key := arithmetic_iff hop hallowl hright₂.1 hfitl ⟨hfitr.1, hright₂.2⟩ hx hown
  rw [← hat] at key
  constructor
  · intro hmatch a' b' x' ha' hb' hx'
    rw [hvl] at ha'
    rw [hvr] at hb'
    cases ha'
    cases hb'
    rw [hx] at hx'
    cases hx'
    suffices hvalue : ∃ c, cBinary op ⟨computedAt l, a⟩ ⟨T₂, b⟩ = some c ∧
        c.value = (cType t).wrap x from
      ⟨(key.mp hvalue).1, (key.mp hvalue).2, fun h => absurd h hnoshift⟩
    obtain ⟨ce, c, v, he, hc, hv, heq⟩ := hmatch
    rw [hemit] at he
    cases he
    rw [heval] at hc
    rw [hvalue] at hv
    cases hv
    exact ⟨c, hc, heq⟩
  · intro hfit
    obtain ⟨hboth, hquot, -⟩ := hfit a b x hvl hvr hx
    obtain ⟨c, hc, hv⟩ := key.mpr ⟨hboth, hquot⟩
    refine ⟨_, c, _, hemit, heval.trans hc, hvalue, hv, ?_⟩
    have hc := result_of_cBinary hop hallowl hright₂.1 hfitl ⟨hfitr.1, hright₂.2⟩ hx hc
    rw [← hat] at hc
    have hallow : Allowed t (computedAt (.mk (.binary op l r checked) (.int t))) :=
      hat ▸ allowed_common hallowl hright₂.1
    obtain ⟨htype, hfits⟩ := result_type_fits (bits_pos_of_allowed hallow) hc
    refine ⟨htype, ?_⟩
    rintro _ ⟨⟩
    rw [htype, ← hv]
    exact ⟨hallow, hv ▸ IntType.wrap_fits (cType_bits_pos t) x, hfits⟩

theorem fixedBinary_shift {op : BinaryOp} (hop : op = .shl ∨ op = .shr) {t : IntTy}
    {a b : Int} (h : (fixedBinary op (.int t) a b).isSome) :
    (0 ≤ b ∧ b < t.bits) ∧
      ∃ x, exactInteger op a b = some x ∧ fixedBinary op (.int t) a b = some ((cType t).wrap x) := by
  have hform : fixedBinary op (.int t) a b =
      if 0 ≤ b ∧ b < t.bits then (exactInteger op a b).map (cType t).wrap else none := by
    rcases hop with rfl | rfl <;> rfl
  rw [hform] at h ⊢
  split at h
  · next hcount =>
    rw [Option.isSome_map] at h
    obtain ⟨x, hx⟩ := Option.isSome_iff_exists.mp h
    exact ⟨hcount, x, hx, by rw [if_pos hcount, hx, Option.map_some]⟩
  · cases h

theorem shift_node {op : BinaryOp} (hop : op = .shl ∨ op = .shr) {l r : TypedExpr}
    {checked : Bool} {t s : IntTy} (hl : Computed Γ σ l) (hr : Computed Γ σ r)
    (hlt : l.ty = .int t) (hrt : r.ty = .int s) (hdef : NodeDefined σ op l r) :
    (Matches Γ σ (.mk (.binary op l r checked) (.int t)) → NodeFits σ t op l r checked) ∧
      (NodeFits σ t op l r checked → Computed Γ σ (.mk (.binary op l r checked) (.int t))) := by
  obtain ⟨cl, ⟨T₁, a⟩, _, hel, hcl, hvl, rfl, hatl, hfl⟩ := hl
  obtain ⟨cr, ⟨T₂, b⟩, _, her, hcr, hvr, rfl, hatr, hfr⟩ := hr
  dsimp only at hatl hatr hfl hfr hvl hvr
  subst hatl hatr
  obtain ⟨hallowl, hfitl⟩ := hfl t hlt
  obtain ⟨hallowr, hfitr⟩ := hfr s hrt
  obtain ⟨hfixed, hown⟩ := hdef a b t s hvl hvr hlt hrt
  rw [hlt] at hfixed
  obtain ⟨hcount, x, hx, hfixed⟩ := fixedBinary_shift hop hfixed
  obtain ⟨T₂, hright, -⟩ := cEval_emitRight op checked t hcr hfitr.1 (exact_divisor hx) (fun _ => hcount)
  have hat : computedAt (.mk (.binary op l r checked) (.int t)) = promote (computedAt l) := by
    rw [computedAt, if_pos hop]
  have hemit : emitExpr (.mk (.binary op l r checked) (.int t)) =
      some (.binary op cl (emitRight op checked (.int t) (.int s) cr)) := by
    simp only [emitExpr, hel, her, hlt, hrt]
  have heval : cEval Γ σ (.binary op cl (emitRight op checked (.int t) (.int s) cr)) =
      cBinary op ⟨computedAt l, a⟩ ⟨T₂, b⟩ := by
    simp only [cEval, hcl, hright]
  have hvalue : fixedValue σ (.mk (.binary op l r checked) (.int t)) =
      some ((cType t).wrap x) := by
    simp only [fixedValue, hvl, hvr, hlt, hfixed]
  have key := shift_iff (S := T₂) hop hallowl hx hown
  rw [← hat] at key
  constructor
  · intro hmatch a' b' x' ha' hb' hx'
    rw [hvl] at ha'
    rw [hvr] at hb'
    cases ha'
    cases hb'
    rw [hx] at hx'
    cases hx'
    obtain ⟨ce, c, v, he, hc, hv, heq⟩ := hmatch
    rw [hemit] at he
    cases he
    rw [heval] at hc
    rw [hvalue] at hv
    cases hv
    obtain ⟨hfit, hwidth⟩ := key.mp ⟨c, hc, heq⟩
    refine ⟨hfit, fun _ hrem => ?_, fun _ => hwidth⟩
    subst hrem
    rcases hop with h | h <;> cases h
  · intro hfit
    obtain ⟨hfit, -, hwidth⟩ := hfit a b x hvl hvr hx
    obtain ⟨c, hc, hv⟩ := key.mpr ⟨hfit, hwidth hop⟩
    refine ⟨_, c, _, hemit, heval.trans hc, hvalue, hv, ?_⟩
    rw [cBinary_shift hop hx, ← hat] at hc
    split at hc
    · have hallow : Allowed t (computedAt (.mk (.binary op l r checked) (.int t))) :=
        hat ▸ allowed_promote hallowl
      obtain ⟨htype, hfits⟩ := result_type_fits (bits_pos_of_allowed hallow) hc
      refine ⟨htype, ?_⟩
      rintro _ ⟨⟩
      rw [htype, ← hv]
      exact ⟨hallow, hv ▸ IntType.wrap_fits (cType_bits_pos t) x, hfits⟩
    · cases hc

theorem comparison_node {op : BinaryOp} (hop : isComparison op = true) {l r : TypedExpr}
    {checked : Bool} {t : IntTy} (hl : Computed Γ σ l) (hr : Computed Γ σ r)
    (hlt : l.ty = .int t) (hrt : r.ty = .int t) :
    Computed Γ σ (.mk (.binary op l r checked) .bool) := by
  obtain ⟨cl, ⟨T₁, a⟩, _, hel, hcl, hvl, rfl, hatl, hfl⟩ := hl
  obtain ⟨cr, ⟨T₂, b⟩, _, her, hcr, hvr, rfl, hatr, hfr⟩ := hr
  dsimp only at hatl hatr hfl hfr hvl hvr
  subst hatl hatr
  obtain ⟨hallowl, hfitl⟩ := hfl t hlt
  obtain ⟨hallowr, hfitr⟩ := hfr t hrt
  have hnoshift : ¬(op = .shl ∨ op = .shr) := by
    rintro (rfl | rfl) <;> cases hop
  have hnodivide : ¬(op = .div ∨ op = .rem) := by
    rintro (rfl | rfl) <;> cases hop
  obtain ⟨T₂, hright, -, hT₂⟩ := cEval_emitRight op checked t hcr hfitr.1 (fun h => absurd h hnodivide) (fun h => absurd h hnoshift)
  obtain rfl := hT₂ hop
  obtain ⟨c, hc, hfixed, htype⟩ := cBinary_comparison hop hallowl hallowr hfitl hfitr
  refine ⟨.binary op cl (emitRight op checked (.int t) (.int t) cr), c, c.value, ?_, ?_, ?_,
    rfl, ?_, fun _ h => by cases h⟩
  · simp only [emitExpr, hel, her, hlt, hrt]
  · simp only [cEval, hcl, hright, hc]
  · simp only [fixedValue, hvl, hvr, hlt, hfixed]
  · rw [htype, computedAt, if_neg hnoshift, if_pos hop]

/-- An operator is emitted before its operand, unless that is a minus before a negative
number. -/
theorem emitExpr_unary {op : UnaryOp} {e : TypedExpr} {t : Ty} {ce : CExpr}
    (hce : emitExpr e = some ce) (hneg : op = .neg → ∀ n, ce ≠ .negLit n) :
    emitExpr (.mk (.unary op e) t) = some (.unary op ce) := by
  rw [emitExpr, hce, Option.bind_some]
  cases ce with
  | negLit n =>
    have hop : op ≠ .neg := fun h => hneg h n rfl
    rw [negates, if_neg hop]
  | _ => rfl

/-- Without named constants no number is negative. -/
theorem emitExpr_ne_negLit {e : TypedExpr} (htyped : IntTyped Γ e) (n : Nat) :
    emitExpr e ≠ some (.negLit n) := by
  intro h
  cases htyped with
  | int _ => simp [emitExpr] at h
  | var _ => cases h
  | neg _ _ _ | negLiteral | not _ _ =>
    rw [emitExpr, Option.bind_eq_some_iff] at h
    obtain ⟨ce, -, hce⟩ := h
    cases ce <;> simp [negates] at hce
  | arithmetic _ _ _ _ _ | shift _ _ _ _ _ | compare _ _ _ _ _ =>
    rw [emitExpr] at h
    split at h <;> cases h
  | cast _ _ =>
    rw [emitExpr, Option.map_eq_some_iff] at h
    obtain ⟨ce, -, hce⟩ := h
    cases hce

theorem neg_node {e : TypedExpr} {t : IntTy} (he : Computed Γ σ e) (ht : e.ty = .int t)
    (hneg : ∀ n, emitExpr e ≠ some (.negLit n))
    (hdef : ∀ v t, fixedValue σ e = some v → e.ty = .int t → (negate ⟨cType t, v⟩).isSome) :
    (Matches Γ σ (.mk (.unary .neg e) (.int t)) →
        ∀ v, fixedValue σ e = some v → FitsBoth t (promote (computedAt e)) (-v)) ∧
      ((∀ v, fixedValue σ e = some v → FitsBoth t (promote (computedAt e)) (-v)) →
        Computed Γ σ (.mk (.unary .neg e) (.int t))) := by
  obtain ⟨ce, ⟨T, v⟩, _, hemit, hc, hv, rfl, hat, hf⟩ := he
  dsimp only at hat hf hv
  subst hat
  obtain ⟨hallow, hfits⟩ := hf t ht
  have key := negate_iff hallow hfits (hdef v t hv ht)
  have hemit' : emitExpr (.mk (.unary .neg e) (.int t)) = some (.unary .neg ce) :=
    emitExpr_unary hemit fun _ n h => hneg n (h ▸ hemit)
  have heval : cEval Γ σ (.unary .neg ce) = negate ⟨computedAt e, v⟩ := by
    simp only [cEval, hc, Option.bind_some]
  have hvalue : fixedValue σ (.mk (.unary .neg e) (.int t)) = some ((cType t).wrap (-v)) := by
    simp only [fixedValue, hv, Option.map_some]
  constructor
  · intro hmatch v' hv'
    rw [hv] at hv'
    cases hv'
    obtain ⟨_, c, _, he, hc, hv, heq⟩ := hmatch
    rw [hemit'] at he
    cases he
    rw [heval] at hc
    rw [hvalue] at hv
    cases hv
    exact key.mp ⟨c, hc, heq⟩
  · intro hfit
    obtain ⟨c, hc, hval⟩ := key.mpr (hfit v hv)
    refine ⟨_, c, _, hemit', heval.trans hc, hvalue, hval, ?_⟩
    have hallow' := allowed_promote hallow
    obtain ⟨htype, hfits'⟩ := result_type_fits (bits_pos_of_allowed hallow') hc
    refine ⟨htype, ?_⟩
    rintro _ ⟨⟩
    rw [htype, ← hval]
    exact ⟨hallow', hval ▸ IntType.wrap_fits (cType_bits_pos t) (-v), hfits'⟩

theorem not_node {e : TypedExpr} (he : Computed Γ σ e) :
    Computed Γ σ (.mk (.unary .not e) .bool) := by
  obtain ⟨ce, c, _, hemit, hc, hv, rfl, -⟩ := he
  refine ⟨.unary .not ce, ⟨cInt, if c.value = 0 then 1 else 0⟩, _, ?_, ?_, ?_, rfl, rfl,
    fun _ h => by cases h⟩
  · exact emitExpr_unary hemit (by simp)
  · simp only [cEval, hc, Option.map_some]
  · simp only [fixedValue, hv, Option.map_some]

theorem cast_node {e : TypedExpr} {t : IntTy} (he : Computed Γ σ e) :
    Computed Γ σ (.mk (.cast e (.int t)) (.int t)) := by
  obtain ⟨ce, c, _, hemit, hc, hv, rfl, -⟩ := he
  refine ⟨.cast t ce, convert (cType t) c, (cType t).wrap c.value, ?_, ?_, ?_, rfl, rfl, ?_⟩
  · simp only [emitExpr, hemit, Option.map_some]
  · simp only [cEval, hc, Option.map_some]
  · simp only [fixedValue, hv, Option.map_some]
  · rintro _ ⟨⟩
    have hfits := IntType.wrap_fits (cType_bits_pos t) c.value
    exact ⟨allowed_cType t, hfits, hfits⟩

theorem var_node {name : String} {t : IntTy} (hstore : InStore Γ σ) (hname : Γ name = some t) :
    Computed Γ σ (.mk (.var name) (.int t)) := by
  obtain ⟨v, hv, hfits⟩ := hstore name t hname
  refine ⟨.var name, ⟨cType t, v⟩, v, rfl, ?_, hv, rfl, rfl, ?_⟩
  · simp only [cEval, hname, hv]
  · rintro _ ⟨⟩
    exact ⟨allowed_cType t, hfits, hfits⟩

theorem literal_node {n : Nat} (hn : (n : Int) ≤ IntTy.maxValue .u64) :
    Computed Γ σ (.mk (.int n)
      (.int (if (n : Int) ≤ IntTy.maxValue .i64 then .i64 else .u64))) := by
  have hvalue : (literal n).value = n := by
    unfold literal
    split
    · rfl
    · split <;> rfl
  refine ⟨.lit n, literal n, n, by simp [emitExpr], rfl, rfl, hvalue, rfl, ?_⟩
  rintro _ ⟨⟩
  unfold literal
  by_cases hint : cInt.Fits n
  · have hi64 : (n : Int) ≤ IntTy.maxValue .i64 := by
      have hle : (n : Int) ≤ 2 ^ 31 - 1 := hint.2
      exact hle.trans (by decide)
    rw [if_pos hint, if_pos hi64]
    have hlow : (cType .i64).lo ≤ n :=
      (show (cType .i64).lo ≤ 0 by decide).trans (Int.natCast_nonneg n)
    exact ⟨Or.inr ⟨rfl, Or.inr rfl⟩, ⟨hlow, hi64⟩, hint⟩
  · rw [if_neg hint]
    by_cases hlong : cLong.Fits n
    · have hi64 : (n : Int) ≤ IntTy.maxValue .i64 := hlong.2
      rw [if_pos hlong, if_pos hi64]
      exact ⟨Or.inl rfl, hlong, hlong⟩
    · have hi64 : ¬(n : Int) ≤ IntTy.maxValue .i64 := by
        intro h
        refine hlong ⟨?_, h⟩
        simp [IntType.lo, cLong]
      rw [if_neg hlong, if_neg hi64]
      refine ⟨Or.inl rfl, ⟨Int.natCast_nonneg n, hn⟩, ⟨Int.natCast_nonneg n, hn⟩⟩

end Nodes

/-! ## The whole expression -/

/-- On an expression whose operations trap nowhere and are defined, every node's text has
the node's value exactly when every exact result fits; and then the type C computes at is
known too. -/
theorem allMatch_iff_and_computed {Γ : String → Option IntTy} {σ : String → Option Int}
    (hstore : InStore Γ σ) {e : TypedExpr} (htyped : IntTyped Γ e) (hdef : OpsDefined σ e) :
    (AllMatch Γ σ e ↔ AllFit σ e) ∧ (AllFit σ e → Computed Γ σ e) := by
  induction htyped with
  | int hn =>
    have hc := literal_node (Γ := Γ) (σ := σ) hn
    exact ⟨iff_of_true hc.matches trivial, fun _ => hc⟩
  | var hname =>
    have hc := var_node hstore hname
    exact ⟨iff_of_true hc.matches trivial, fun _ => hc⟩
  | neg htyped ht _ ih =>
    have hneg := emitExpr_ne_negLit htyped
    obtain ⟨hdefe, hdefn⟩ := hdef
    obtain ⟨ihm, ihc⟩ := ih hdefe
    constructor
    · constructor
      · rintro ⟨hmatch, hme⟩
        have hfe := ihm.mp hme
        exact ⟨hfe, (neg_node (ihc hfe) ht hneg hdefn).1 hmatch⟩
      · rintro ⟨hfe, hfn⟩
        exact ⟨((neg_node (ihc hfe) ht hneg hdefn).2 hfn).matches, ihm.mpr hfe⟩
    · rintro ⟨hfe, hfn⟩
      exact (neg_node (ihc hfe) ht hneg hdefn).2 hfn
  | negLiteral =>
    -- C negates the literal at `unsigned long`, where `-2 ^ 63` is `2 ^ 63`
    have hvalue : cEval Γ σ (.unary .neg (.lit (2 ^ 63 : Int).toNat)) =
        some ⟨cUnsignedLong, 2 ^ 63⟩ :=
      show negate (literal (2 ^ 63 : Int).toNat) = _ by decide
    have hnomatch : ¬AllMatch Γ σ
        (.mk (.unary .neg (.mk (.int (2 ^ 63)) (.int .u64))) (.int .i64)) := by
      rintro ⟨⟨_, c, v, ⟨⟩, hc, hv, heq⟩, -⟩
      rw [show (if (0 : Int) ≤ 2 ^ 63 then CExpr.lit (2 ^ 63 : Int).toNat else _) = _ from
        if_pos (by decide), hvalue] at hc
      cases hc
      cases hv
      exact absurd heq (by decide)
    have hnofit : ¬AllFit σ
        (.mk (.unary .neg (.mk (.int (2 ^ 63)) (.int .u64))) (.int .i64)) := by
      rintro ⟨-, hfit⟩
      exact absurd (hfit (2 ^ 63) rfl (by decide)).2 (by decide)
    exact ⟨iff_of_false hnomatch hnofit, fun h => absurd h hnofit⟩
  | not _ _ ih =>
    obtain ⟨ihm, ihc⟩ := ih hdef
    refine ⟨⟨fun h => ihm.mp h.2, fun hfe => ⟨(not_node (ihc hfe)).matches, ihm.mpr hfe⟩⟩, ?_⟩
    intro hfe
    exact not_node (ihc hfe)
  | arithmetic hop _ _ hlt hrt ihl ihr =>
    obtain ⟨hdefl, hdefr, hdefn⟩ := hdef
    obtain ⟨ihml, ihcl⟩ := ihl hdefl
    obtain ⟨ihmr, ihcr⟩ := ihr hdefr
    constructor
    · constructor
      · rintro ⟨hmatch, hml, hmr⟩
        have hfl := ihml.mp hml
        have hfr := ihmr.mp hmr
        exact ⟨hfl, hfr, (arithmetic_node hop (ihcl hfl) (ihcr hfr) hlt hrt hdefn).1 hmatch⟩
      · rintro ⟨hfl, hfr, hfn⟩
        exact ⟨((arithmetic_node hop (ihcl hfl) (ihcr hfr) hlt hrt hdefn).2 hfn).matches,
          ihml.mpr hfl, ihmr.mpr hfr⟩
    · rintro ⟨hfl, hfr, hfn⟩
      exact (arithmetic_node hop (ihcl hfl) (ihcr hfr) hlt hrt hdefn).2 hfn
  | shift hop _ _ hlt hrt ihl ihr =>
    obtain ⟨hdefl, hdefr, hdefn⟩ := hdef
    obtain ⟨ihml, ihcl⟩ := ihl hdefl
    obtain ⟨ihmr, ihcr⟩ := ihr hdefr
    constructor
    · constructor
      · rintro ⟨hmatch, hml, hmr⟩
        have hfl := ihml.mp hml
        have hfr := ihmr.mp hmr
        exact ⟨hfl, hfr, (shift_node hop (ihcl hfl) (ihcr hfr) hlt hrt hdefn).1 hmatch⟩
      · rintro ⟨hfl, hfr, hfn⟩
        exact ⟨((shift_node hop (ihcl hfl) (ihcr hfr) hlt hrt hdefn).2 hfn).matches,
          ihml.mpr hfl, ihmr.mpr hfr⟩
    · rintro ⟨hfl, hfr, hfn⟩
      exact (shift_node hop (ihcl hfl) (ihcr hfr) hlt hrt hdefn).2 hfn
  | compare hop _ _ hlt hrt ihl ihr =>
    obtain ⟨hdefl, hdefr, -⟩ := hdef
    obtain ⟨ihml, ihcl⟩ := ihl hdefl
    obtain ⟨ihmr, ihcr⟩ := ihr hdefr
    constructor
    · constructor
      · rintro ⟨-, hml, hmr⟩
        exact ⟨ihml.mp hml, ihmr.mp hmr⟩
      · rintro ⟨hfl, hfr⟩
        exact ⟨(comparison_node hop (ihcl hfl) (ihcr hfr) hlt hrt).matches,
          ihml.mpr hfl, ihmr.mpr hfr⟩
    · rintro ⟨hfl, hfr⟩
      exact comparison_node hop (ihcl hfl) (ihcr hfr) hlt hrt
  | cast _ _ ih =>
    obtain ⟨ihm, ihc⟩ := ih hdef
    refine ⟨⟨fun h => ihm.mp h.2, fun hfe => ⟨(cast_node (ihc hfe)).matches, ihm.mpr hfe⟩⟩, ?_⟩
    intro hfe
    exact cast_node (ihc hfe)

/-- `a + b < 100` at `u8`. -/
def sumTest : TypedExpr :=
  .mk (.binary .lt
    (.mk (.binary .add (.mk (.var "a") (.int .u8)) (.mk (.var "b") (.int .u8)) false) (.int .u8))
    (.mk (.cast (.mk (.int 100) (.int .i64)) (.int .u8)) (.int .u8)) false) .bool

example : (emitExpr sumTest).map CExpr.text = some "((v_a + v_b) < ((uint8_t)(100)))" := by
  decide +kernel

/-- Two variables of type `u8`. -/
def twoBytes : String → Option IntTy := fun name =>
  if name = "a" ∨ name = "b" then some .u8 else none

/-- A store of two variables. -/
def twoValues (a b : Int) : String → Option Int := fun name =>
  if name = "a" then some a else if name = "b" then some b else none

theorem twoValues_inStore {a b : Int} (ha : (cType .u8).Fits a) (hb : (cType .u8).Fits b) :
    InStore twoBytes (twoValues a b) := by
  intro name t h
  simp only [twoBytes] at h
  split at h
  · next hname =>
    cases h
    rcases hname with rfl | rfl
    · exact ⟨a, rfl, ha⟩
    · exact ⟨b, rfl, hb⟩
  · cases h

theorem sumTest_typed : IntTyped twoBytes sumTest :=
  .compare rfl (.arithmetic rfl (.var rfl) (.var rfl) rfl rfl)
    (.cast (.int (n := 100) (by decide)) rfl) rfl rfl

theorem sumTest_defined {a b : Int} (h : (cBinary .add ⟨cType .u8, a⟩ ⟨cType .u8, b⟩).isSome) :
    OpsDefined (twoValues a b) sumTest := by
  refine ⟨⟨trivial, trivial, ?_⟩, trivial, ?_⟩
  · intro x y t s hx hy ht hs
    cases hx
    cases hy
    cases ht
    cases hs
    exact ⟨rfl, h⟩
  · intro x y t s _ _ ht hs
    cases ht
    cases hs
    exact ⟨rfl, rfl⟩

end Vani.Analysis
