import Vani.Analysis.FoldedNodes

/-!
# Folding against the generated code

The remaining nodes (shifts, comparisons, casts, leaves), and from all of them by induction
whole constant expressions.
-/

set_option autoImplicit false

namespace Vani.Analysis

open Vani.Program Vani.Library Vani.Backend

variable {env : ConstEnv}

/-! ## Shifts -/

theorem reports_append (es fs : List FoldError) :
    Reports (es ++ fs) ↔ Reports es ∨ Reports fs := by
  simp only [Reports, List.mem_append]
  constructor
  · rintro ⟨e, h | h, hkind⟩
    · exact .inl ⟨e, h, hkind⟩
    · exact .inr ⟨e, h, hkind⟩
  · rintro (⟨e, h, hkind⟩ | ⟨e, h, hkind⟩)
    · exact ⟨e, .inl h, hkind⟩
    · exact ⟨e, .inr h, hkind⟩

theorem reports_singleton {k : ErrorKind} {m : String} : Reports [⟨k, m⟩] ↔ k ≠ .typing := by
  simp [Reports]

theorem reports_shiftCount (t : IntTy) (n : Int) :
    Reports (shiftCountErrors t n) ↔ n < 0 ∨ (t.bits : Int) ≤ n := by
  rw [shiftCountErrors, reports_append]
  apply or_congr
  · split
    · next h => simp [reports_singleton, h]
    · next h => simp [not_reports_nil, h]
  · split
    · next h => simp [reports_singleton, h]
    · next h => simp [not_reports_nil, h]

theorem reports_shiftOperand (op : BinaryOp) {t : IntTy} {a : Int} (ha : (cType t).Fits a) :
    Reports (shiftOperandErrors op t a) ↔ op = .shl ∧ a < 0 := by
  have hsigned : a < 0 → t.isSigned = true := by
    intro hneg
    by_contra hs
    have hlo : (cType t).lo = 0 := by
      simp [IntType.lo, cType, hs]
    have := ha.1
    omega
  unfold shiftOperandErrors
  split
  · next h => simp [reports_singleton, h.1, h.2.2]
  · next h =>
    simp only [not_reports_nil, false_iff]
    exact fun h' => h ⟨h'.1, hsigned h'.2, h'.2⟩

/-- The text of a shift by a count within the width of the operand's type. -/
theorem shift_eval {op : BinaryOp} (hop : op = .shl ∨ op = .shr) {l r : CheckedExpr}
    {t s : IntTy} {a n x : Int} (hl : FoldedRight env l) (hr : FoldedRight env r) (hlt : l.ty = .int t)
    (hrt : r.ty = .int s) (ha : l.intConstant = some a) (hn : r.intConstant = some n)
    (hrange : 0 ≤ n ∧ n < t.bits) (hx : exactInteger op a n = some x) :
    ∃ cl cr, emitExpr (.mk (.binary op l.expr r.expr true) (.int t)) = some (.binary op cl cr) ∧
      cEval (constTypes env) (constValues env) (.binary op cl cr) =
        if n < (promote (computedAt l.expr)).bits ∧ (op = .shl → 0 ≤ a) then
          result (promote (computedAt l.expr)) x
        else none := by
  obtain ⟨-, -, -, cl, hcl, hevall, -⟩ := hl.int hlt ha
  obtain ⟨hfn, -, -, cr, hcr, hevalr, -⟩ := hr.int hrt hn
  have hnodiv : ¬(op = .div ∨ op = .rem) := by
    rcases hop with rfl | rfl <;> simp
  obtain ⟨T₂, hright, -⟩ := cEval_emitRight op true t hevalr hfn (fun h => absurd h hnodiv)
    (fun _ => hrange)
  have hlt' : l.expr.ty = .int t := hlt
  have hrt' : r.expr.ty = .int s := hrt
  refine ⟨cl, emitRight op true (.int t) (.int s) cr, ?_, ?_⟩
  · simp only [emitExpr, hcl, hcr, hlt', hrt']
  · simp only [cEval, hevall, hright, cBinary_shift hop hx, hrange.1, true_and]

/-- A constant recorded for a shift. -/
theorem shift_recorded {op : BinaryOp} (hop : op = .shl ∨ op = .shr) {l r : CheckedExpr}
    {t s : IntTy} {a n x : Int} (hl : FoldedRight env l) (hr : FoldedRight env r) (hlt : l.ty = .int t)
    (hrt : r.ty = .int s) (ha : l.intConstant = some a) (hn : r.intConstant = some n)
    (hrange : 0 ≤ n ∧ n < t.bits) (hx : exactInteger op a n = some x)
    (hfits : (cType t).Fits x) (hleft : op = .shl → 0 ≤ a) :
    (Folds env (binaryNode op l r (.int t) (some (.int x))) ↔
        n < (promote (computedAt l.expr)).bits ∧ (promote (computedAt l.expr)).Fits x) ∧
      (n < (promote (computedAt l.expr)).bits ∧ (promote (computedAt l.expr)).Fits x →
        FoldedRight env (binaryNode op l r (.int t) (some (.int x)))) := by
  obtain ⟨-, hheld, -⟩ := hl.int hlt ha
  have hheld := held_promote hheld
  have hpos := bits_pos_of_held hheld
  obtain ⟨cl, cr, hce, heval⟩ := shift_eval hop hl hr hlt hrt ha hn hrange hx
  have hright : n < (promote (computedAt l.expr)).bits ∧
      (promote (computedAt l.expr)).Fits x →
      FoldedRight env (binaryNode op l r (.int t) (some (.int x))) := by
    rintro ⟨hcount, hfit⟩ _ ⟨⟩
    have hat : computedAt (.mk (.binary op l.expr r.expr true) (.int t)) =
        promote (computedAt l.expr) := by
      rw [computedAt, if_pos hop]
    refine ⟨hfits, ⟨.binary op cl cr, hce, ?_, ?_⟩, ?_, ?_⟩
    · rw [heval, if_pos ⟨hcount, hleft⟩, result_of_fits hpos hfit]
      simp only [binaryNode, CheckedExpr.new, hat, number]
    · rintro ⟨n, hn⟩
      cases hn
    · rintro _ ⟨⟩
      simp only [binaryNode, CheckedExpr.new, hat]
      exact ⟨hheld, hfit⟩
    · intro h
      cases h
  refine ⟨⟨fun hagree => ?_, fun h => (hright h).agrees⟩, hright⟩
  obtain ⟨-, ce, v, hce', hv, hvx⟩ := hagree _ rfl
  have hce'' : emitExpr (.mk (.binary op l.expr r.expr true) (.int t)) = some ce := hce'
  rw [hce] at hce''
  cases hce''
  rw [heval] at hv
  split at hv
  · next h => exact ⟨h.1, (result_value_iff hpos x).1 ⟨v, hv, hvx⟩⟩
  · cases hv

theorem evalShiftReporting_cases {op : BinaryOp} {a n x : Int} (t : IntTy)
    (hx : exactInteger op a n = some x) :
    ((cType t).Fits x ∧ evalShiftReporting op a n t = (some x, [])) ∨
      (¬(cType t).Fits x ∧ (evalShiftReporting op a n t).1 = none) := by
  simp only [evalShiftReporting, hx]
  by_cases hfits : (cType t).Fits x
  · exact .inl ⟨hfits, by rw [if_pos ((fits_iff x t).2 hfits)]⟩
  · exact .inr ⟨hfits, by rw [if_neg fun h => hfits ((fits_iff x t).1 h)]⟩

/-- A shift of a known value by an unknown count agrees exactly where nothing is reported. -/
theorem shift_unknown_count {op : BinaryOp} (hop : op = .shl ∨ op = .shr) {l r : CheckedExpr}
    {t : IntTy} {a : Int} (ha : l.intConstant = some a) (hn : r.intConstant = none)
    (hlt : l.ty = .int t) (hfits : (cType t).Fits a) :
    NodeAgrees env op l r (binaryNode op l r (.int t) none, shiftOperandErrors op t a) ↔
      ShiftCareful op l r := by
  have hnofault : ¬Faults op t l.intConstant r.intConstant := by
    rw [hn]
    rintro (⟨h, -⟩ | ⟨-, n, h, -⟩ | ⟨_, _, _, -, h, -⟩)
    · rcases hop with rfl | rfl <;> rcases h with h | h <;> cases h
    · cases h
    · cases h
  constructor
  · rintro ⟨-, hrep⟩ t' a' ht' ha'
    rw [hlt] at ht'
    cases ht'
    rw [ha] at ha'
    cases ha'
    refine ⟨fun hshl hneg => ?_, fun n x hn' => ?_⟩
    · obtain ⟨t', ht', hfault⟩ := hrep ((reports_shiftOperand op hfits).2 ⟨hshl, hneg⟩)
      cases ht'
      exact hfault
    · rw [hn] at hn'
      cases hn'
  · intro hcare
    refine ⟨(FoldedRight.of_none rfl).agrees, fun hrep => ⟨t, rfl, ?_⟩⟩
    obtain ⟨hshl, hneg⟩ := (reports_shiftOperand op hfits).1 hrep
    exact (hcare t a hlt ha).1 hshl hneg

/-- A shift by a known count. -/
theorem shift_known_count {op : BinaryOp} (hop : op = .shl ∨ op = .shr) {l r : CheckedExpr}
    {t s : IntTy} {a n : Int} (hl : FoldedRight env l) (hr : FoldedRight env r) (hlt : l.ty = .int t)
    (hrt : r.ty = .int s) (ha : l.intConstant = some a) (hn : r.intConstant = some n)
    (hrange : 0 ≤ n ∧ n < t.bits) :
    let res : Checked := (binaryNode op l r (.int t) ((evalShiftReporting op a n t).1.map .int),
      shiftCountErrors t n ++ shiftOperandErrors op t a ++ (evalShiftReporting op a n t).2)
    (NodeAgrees env op l r res ↔ ShiftCareful op l r) ∧
      (ShiftCareful op l r → FoldedRight env res.1) := by
  intro res
  obtain ⟨hfa, -⟩ := hl.int hlt ha
  obtain ⟨x, hx⟩ : ∃ x, exactInteger op a n = some x := by
    rcases hop with rfl | rfl <;> exact ⟨_, if_pos hrange.1⟩
  have hnocount : ¬Reports (shiftCountErrors t n) := by
    rw [reports_shiftCount]
    omega
  have hcare : ShiftCareful op l r ↔ (op = .shl → a < 0 → Faults op t (some a) (some n)) ∧
      ((cType t).Fits x → n < (promote (computedAt l.expr)).bits ∧
        (promote (computedAt l.expr)).Fits x) := by
    constructor
    · intro h
      obtain ⟨h₁, h₂⟩ := h t a hlt ha
      rw [ha, hn] at h₁
      exact ⟨h₁, fun hfits => h₂ n x hn hrange.1 hrange.2 hx hfits⟩
    · rintro ⟨h₁, h₂⟩ t' a' ht' ha'
      rw [hlt] at ht'
      cases ht'
      have ha'' := ha.symm.trans ha'
      cases ha''
      rw [ha, hn]
      refine ⟨h₁, fun n' x' hn' _ _ hx' => ?_⟩
      cases hn'
      rw [hx] at hx'
      cases hx'
      exact h₂
  have hfault : Faults op t (some a) (some n) ↔ ¬(cType t).Fits x := by
    constructor
    · rintro (⟨h, -⟩ | ⟨-, m, h, hout⟩ | ⟨a', n', x', h₁, h₂, hx', hfits⟩)
      · rcases hop with rfl | rfl <;> rcases h with h | h <;> cases h
      · cases h
        omega
      · cases h₁
        cases h₂
        rw [hx] at hx'
        cases hx'
        exact hfits
    · exact fun h => .inr (.inr ⟨a, n, x, rfl, rfl, hx, h⟩)
  rcases evalShiftReporting_cases t hx with ⟨hfits, heval⟩ | ⟨hfits, heval⟩
  · have hres : res = (binaryNode op l r (.int t) (some (.int x)),
        shiftCountErrors t n ++ shiftOperandErrors op t a ++ []) := by
      simp only [res, heval, Option.map_some]
    rw [hres, hcare, hfault]
    by_cases hneg : op = .shl ∧ a < 0
    · -- reported, though the shift has a value
      have hrep : Reports (shiftCountErrors t n ++ shiftOperandErrors op t a ++ []) := by
        rw [List.append_nil, reports_append]
        exact .inr ((reports_shiftOperand op hfa).2 hneg)
      refine ⟨iff_of_false ?_ fun h => h.1 hneg.1 hneg.2 hfits, fun h => ?_⟩
      · rintro ⟨-, hfaults⟩
        obtain ⟨t', ht', hf⟩ := hfaults hrep
        cases ht'
        rw [ha, hn, hfault] at hf
        exact hf hfits
      · exact absurd hfits (h.1 hneg.1 hneg.2)
    · have hleft : op = .shl → 0 ≤ a := fun h => by
        by_contra hlt'
        exact hneg ⟨h, by omega⟩
      have hnorep : ¬Reports (shiftCountErrors t n ++ shiftOperandErrors op t a ++ []) := by
        rw [List.append_nil, reports_append, reports_shiftOperand op hfa]
        rintro (h | h)
        · exact hnocount h
        · exact hneg h
      have hrec := shift_recorded hop hl hr hlt hrt ha hn hrange hx hfits hleft
      constructor
      · constructor
        · rintro ⟨hagree, -⟩
          exact ⟨fun h h' => absurd ⟨h, h'⟩ hneg, fun _ => hrec.1.1 hagree⟩
        · rintro ⟨-, h⟩
          exact ⟨hrec.1.2 (h hfits), fun h => absurd h hnorep⟩
      · exact fun h => hrec.2 (h.2 hfits)
  · have hright : FoldedRight env res.1 := by
      apply FoldedRight.of_none
      simp only [res, heval]
      rfl
    refine ⟨iff_of_true ⟨hright.agrees, fun _ => ⟨t, rfl, ?_⟩⟩ ?_, fun _ => hright⟩
    · rw [ha, hn]
      exact hfault.2 hfits
    · rw [hcare]
      exact ⟨fun _ _ => hfault.2 hfits, fun h => absurd h hfits⟩

/-- The node of a shift agrees exactly where it is careful, and is then right. -/
theorem shift_agrees_iff {op : BinaryOp} (hop : op = .shl ∨ op = .shr) {l r : CheckedExpr}
    (hl : FoldedRight env l) (hr : FoldedRight env r) :
    (NodeAgrees env op l r (checkShift op l r) ↔
        ((∃ s, r.ty = .int s) → ShiftCareful op l r)) ∧
      (((∃ s, r.ty = .int s) → ShiftCareful op l r) → FoldedRight env (checkShift op l r).1) := by
  by_cases hints : (∃ t, l.ty = .int t) ∧ ∃ s, r.ty = .int s
  · obtain ⟨⟨t, hlt⟩, s, hrt⟩ := hints
    have hguard : ((∃ s, r.ty = .int s) → ShiftCareful op l r) ↔ ShiftCareful op l r :=
      ⟨fun h => h ⟨s, hrt⟩, fun h _ => h⟩
    rw [hguard]
    simp only [checkShift, hlt, hrt]
    cases ha : l.intConstant with
    | none =>
      have hcare : ShiftCareful op l r := by
        intro t' a' _ ha'
        rw [ha] at ha'
        cases ha'
      refine ⟨iff_of_true ⟨(FoldedRight.of_none rfl).agrees, fun hrep => ⟨t, rfl, ?_⟩⟩ hcare,
        fun _ => FoldedRight.of_none rfl⟩
      cases hn : r.intConstant with
      | none =>
        rw [hn] at hrep
        exact absurd hrep not_reports_nil
      | some n =>
        rw [hn] at hrep
        have hrep' : Reports (shiftCountErrors t n ++ []) := hrep
        rw [List.append_nil, reports_shiftCount] at hrep'
        exact .inr (.inl ⟨hop, n, rfl, hrep'⟩)
    | some a =>
      obtain ⟨hfa, -⟩ := hl.int hlt ha
      cases hn : r.intConstant with
      | none => exact ⟨shift_unknown_count hop ha hn hlt hfa, fun _ => FoldedRight.of_none rfl⟩
      | some n =>
        by_cases hrange : 0 ≤ n ∧ n < t.bits
        · simp only [if_pos hrange]
          exact shift_known_count hop hl hr hlt hrt ha hn hrange
        · -- the count is out of range
          have hfault : Faults op t l.intConstant r.intConstant :=
            .inr (.inl ⟨hop, n, hn, by omega⟩)
          have hcare : ShiftCareful op l r := by
            intro t' a' ht' ha'
            rw [hlt] at ht'
            cases ht'
            refine ⟨fun _ _ => hfault, fun n' x hn' h0 hlt' => ?_⟩
            rw [hn] at hn'
            cases hn'
            exact absurd ⟨h0, hlt'⟩ hrange
          simp only [if_neg hrange]
          exact ⟨iff_of_true ⟨(FoldedRight.of_none rfl).agrees, fun _ => ⟨t, rfl, hfault⟩⟩ hcare,
            fun _ => FoldedRight.of_none rfl⟩
  · have hcare : (∃ s, r.ty = .int s) → ShiftCareful op l r := by
      intro hs t a ht
      exact absurd ⟨⟨t, ht⟩, hs⟩ hints
    have hform : (checkShift op l r).1.constant = none ∧ ¬Reports (checkShift op l r).2 := by
      unfold checkShift
      split
      · next t s hlt hrt => exact absurd ⟨⟨t, hlt⟩, s, hrt⟩ hints
      · exact ⟨rfl, not_reports_typing _⟩
      · exact ⟨rfl, not_reports_typing _⟩
    exact ⟨iff_of_true (.of_none hform.1 hform.2) hcare, fun _ => FoldedRight.of_none hform.1⟩

/-! ## Comparisons -/

theorem compareIntegers_isSome {op : BinaryOp} (hop : isComparison op = true) (a b : Int) :
    ∃ c, compareIntegers op a b = some c := by
  cases op <;> first | exact ⟨_, rfl⟩ | cases hop

/-- C compares as it is told two numbers that the common type of their texts has. -/
theorem comparison_eval {op : BinaryOp} (hop : isComparison op = true) {l r : TypedExpr}
    {cl cr : CExpr} {T₁ T₂ : IntType} {a b : Int} {c : Bool} (ty : Ty)
    (hcl : emitExpr l = some cl) (hcr : emitExpr r = some cr)
    (hl : cEval (constTypes env) (constValues env) cl = some ⟨T₁, a⟩)
    (hr : cEval (constTypes env) (constValues env) cr = some ⟨T₂, b⟩)
    (ha : (common (promote T₁) (promote T₂)).wrap a = a)
    (hb : (common (promote T₁) (promote T₂)).wrap b = b) (hc : compareIntegers op a b = some c) :
    emitExpr (.mk (.binary op l r true) ty) = some (.binary op cl cr) ∧
      cEval (constTypes env) (constValues env) (.binary op cl cr) = some ⟨cInt, if c then 1 else 0⟩ := by
  have hright : emitRight op true l.ty r.ty cr = cr := by
    cases op <;> first | rfl | cases hop
  have hform : cBinary op ⟨T₁, a⟩ ⟨T₂, b⟩ = some
      (comparison (fun x y => (compareIntegers op x y).getD false) ⟨T₁, a⟩ ⟨T₂, b⟩) := by
    cases op <;> first | rfl | cases hop
  constructor
  · simp only [emitExpr, hcl, hcr, hright]
  · simp only [cEval, hl, hr, hform, comparison, ha, hb, hc, Option.getD_some]

/-- A comparison is right where its text has the value. -/
theorem comparison_right {op : BinaryOp} (hop : isComparison op = true) {l r : CheckedExpr}
    {cl cr : CExpr} {b : Bool}
    (hce : emitExpr (.mk (.binary op l.expr r.expr true) .bool) = some (.binary op cl cr))
    (heval : cEval (constTypes env) (constValues env) (.binary op cl cr) =
      some ⟨cInt, if b then 1 else 0⟩) :
    FoldedRight env (binaryNode op l r .bool (some (.bool b))) := by
  have hat : computedAt (.mk (.binary op l.expr r.expr true) .bool) = cInt := by
    have hnoshift : ¬(op = .shl ∨ op = .shr) := by
      rintro (rfl | rfl) <;> cases hop
    rw [computedAt, if_neg hnoshift, hop]
    rfl
  rintro _ ⟨⟩
  refine ⟨trivial, ⟨.binary op cl cr, hce, ?_, ?_⟩, ?_, fun _ => hat⟩
  · rw [heval]
    simp only [binaryNode, CheckedExpr.new, hat, number]
  · rintro ⟨n, hn⟩
    cases hn
  · intro t ht
    cases ht

theorem checkComparison_agrees {op : BinaryOp} (hop : isComparison op = true)
    {l r : CheckedExpr} (hl : FoldedRight env l) (hr : FoldedRight env r) :
    FoldedRight env (checkComparison op l r).1 ∧ ¬Reports (checkComparison op l r).2 := by
  unfold checkComparison
  split
  · exact ⟨FoldedRight.of_none rfl, not_reports_typing _⟩
  · next t hprom =>
    refine ⟨?_, not_reports_nil⟩
    obtain ⟨⟨lt, hlt⟩, rt, hrt⟩ := promotedType_ok hprom
    have hcl : FoldedRight env (coerceNumericOperand l t) := coerce_right hl hlt
    have hcr : FoldedRight env (coerceNumericOperand r t) := coerce_right hr hrt
    dsimp only
    split
    · next a b ha hb =>
      obtain ⟨hfa, hheldl, hfl, cl, hce, hevall, -⟩ := hcl.int (coerce_ty l t) ha
      obtain ⟨hfb, hheldr, hfr, cr, hce', hevalr, -⟩ := hcr.int (coerce_ty r t) hb
      have hpos := bits_pos_of_held (held_common hheldl hheldr)
      obtain ⟨hca, hcb⟩ := held_fits_common hheldl hheldr ⟨hfa, hfl⟩ ⟨hfb, hfr⟩
      obtain ⟨c, hc⟩ := compareIntegers_isSome hop a b
      obtain ⟨hnode, heval⟩ := comparison_eval hop .bool hce hce' hevall hevalr
        (IntType.wrap_of_fits hpos hca) (IntType.wrap_of_fits hpos hcb) hc
      rw [hc]
      exact comparison_right hop hnode heval
    · exact FoldedRight.of_none rfl

theorem checkEquality_agrees {op : BinaryOp} (hop : op = .eq ∨ op = .ne) {l r : CheckedExpr}
    (hl : FoldedRight env l) (hr : FoldedRight env r) :
    FoldedRight env (checkEquality op l r).1 ∧ ¬Reports (checkEquality op l r).2 := by
  have hcompare : isComparison op = true := by rcases hop with rfl | rfl <;> rfl
  unfold checkEquality
  split
  · next hlt hrt =>
    refine ⟨?_, not_reports_nil⟩
    dsimp only
    split
    · next a b ha hb =>
      obtain ⟨-, ⟨cl, hce, hevall, -⟩, -, hatl⟩ := hl _ ha
      obtain ⟨-, ⟨cr, hce', hevalr, -⟩, -, hatr⟩ := hr _ hb
      rw [hatl hlt] at hevall
      rw [hatr hrt] at hevalr
      have hwrap : ∀ b : Bool, (common (promote cInt) (promote cInt)).wrap (number (.bool b)) =
          number (.bool b) := by decide
      have hc : compareIntegers op (number (.bool a)) (number (.bool b)) =
          some (if op = .eq then a == b else a != b) := by
        rcases hop with rfl | rfl <;> cases a <;> cases b <;> rfl
      obtain ⟨hnode, heval⟩ := comparison_eval hcompare .bool hce hce' hevall hevalr (hwrap a)
        (hwrap b) hc
      exact comparison_right hcompare hnode heval
    · exact FoldedRight.of_none rfl
  · exact ⟨FoldedRight.of_none rfl, not_reports_typing _⟩
  · exact ⟨FoldedRight.of_none rfl, not_reports_typing _⟩
  · exact checkComparison_agrees hcompare hl hr

/-- The node of a binary operator agrees exactly where it is careful, and is then right. -/
theorem binary_agrees_iff {op : BinaryOp} {l r : CheckedExpr} (hl : FoldedRight env l)
    (hr : FoldedRight env r) :
    (BinaryAgrees env op l r ↔ BinaryCareful op l r) ∧
      (BinaryCareful op l r → ∀ res, checkBinary op l r = some res → FoldedRight env res.1) := by
  have hnode : ∀ res, checkBinary op l r = some res →
      (NodeAgrees env op l r res ↔ BinaryCareful op l r) ∧
        (BinaryCareful op l r → FoldedRight env res.1) := by
    rintro res hres
    have hcompare : (FoldedRight env res.1 ∧ ¬Reports res.2) →
        (NodeAgrees env op l r res ↔ True) ∧ (True → FoldedRight env res.1) := fun h =>
      ⟨iff_of_true ⟨h.1.agrees, fun hrep => absurd hrep h.2⟩ trivial, fun _ => h.1⟩
    cases op <;> cases hres
    case add | sub | mul | div => exact integerNode_agrees_iff rfl (by simp) hl hr
    case rem | bitAnd | bitOr | bitXor => exact integerNode_agrees_iff rfl (by simp) hl hr
    case shl => exact shift_agrees_iff (.inl rfl) hl hr
    case shr => exact shift_agrees_iff (.inr rfl) hl hr
    case lt | le | gt | ge => exact hcompare (checkComparison_agrees rfl hl hr)
    case eq => exact hcompare (checkEquality_agrees (.inl rfl) hl hr)
    case ne => exact hcompare (checkEquality_agrees (.inr rfl) hl hr)
  cases hres : checkBinary op l r with
  | none =>
    have hcare : BinaryCareful op l r := by
      cases op <;> trivial
    refine ⟨iff_of_true (fun c errors h => ?_) hcare, fun _ res h => ?_⟩
    · rw [hres] at h
      cases h
    · cases h
  | some res =>
    obtain ⟨hiff, hright⟩ := hnode res hres
    constructor
    · rw [← hiff]
      constructor
      · exact fun h => h res.1 res.2 hres
      · intro h c errors hc
        rw [hres] at hc
        cases hc
        exact h
    · rintro hcare _ ⟨⟩
      exact hright hcare

/-! ## Casts and leaves -/

/-- A cast agrees, and what it records is right. -/
theorem cast_agrees {c : CheckedExpr} (hc : FoldedRight env c) (t : IntTy) :
    CastAgrees env c t ∧ FoldedRight env (explicitCast c t).1 := by
  have hboth : FoldedRight env (explicitCast c t).1 ∧
      (Reports (explicitCast c t).2 → ∃ v, c.intConstant = some v ∧ ¬(cType t).Fits v) := by
    simp only [explicitCast]
    split
    · next s hs =>
      split
      · next hst =>
        refine ⟨?_, fun h => absurd h not_reports_nil⟩
        cases hconst : c.constant with
        | none => exact FoldedRight.of_none rfl
        | some k =>
          cases k with
          | int v =>
            have hv := intConstant_eq.2 hconst
            exact cast_right hc hs hv (hst ▸ (hc.int hs hv).1)
          | bool b =>
            have htype := (hc _ hconst).1
            rw [hs] at htype
            cases htype
      · split
        · next v hv =>
          split
          · next k hk =>
            rw [castInteger] at hk
            split at hk
            · next hfits =>
              cases hk
              exact ⟨cast_right hc hs hv ((fits_iff _ _).1 hfits),
                fun h => absurd h not_reports_nil⟩
            · cases hk
          · next hk =>
            refine ⟨FoldedRight.of_none rfl, fun _ => ⟨v, hv, fun hfits => ?_⟩⟩
            rw [castInteger, if_pos ((fits_iff _ _).2 hfits)] at hk
            cases hk
        · exact ⟨FoldedRight.of_none rfl, fun h => absurd h not_reports_nil⟩
    · refine ⟨FoldedRight.of_none ?_, fun h => absurd h (not_reports_typing _)⟩
      rfl
  exact ⟨⟨hboth.1.agrees, hboth.2⟩, hboth.1⟩

/-- The type C gives the text of a number, by its size. -/
theorem literal_cases (n : Nat) :
    (literal n = ⟨cInt, n⟩ ∧ (n : Int) < 2 ^ 31) ∨ (literal n = ⟨cLong, n⟩ ∧ (n : Int) < 2 ^ 63) ∨
      (literal n = ⟨cUnsignedLong, n⟩ ∧ (2 : Int) ^ 63 ≤ n) := by
  unfold literal
  split
  · next h =>
    have hle : (n : Int) ≤ 2 ^ 31 - 1 := h.2
    exact .inl ⟨rfl, by omega⟩
  · split
    · next h =>
      have hle : (n : Int) ≤ 2 ^ 63 - 1 := h.2
      exact .inr (.inl ⟨rfl, by omega⟩)
    · next h =>
      refine .inr (.inr ⟨rfl, ?_⟩)
      by_contra hlt
      refine h ⟨?_, ?_⟩
      · exact (show cLong.lo ≤ 0 by decide).trans (Int.natCast_nonneg n)
      · have hhi : cLong.hi = 2 ^ 63 - 1 := by decide
        omega

/-- The text of a number has a type that holds its value, but for the least `i64`. -/
theorem literal_held {v : Int} {t : IntTy} (hfits : (cType t).Fits v) (hmin : v ≠ -2 ^ 63) :
    HoldsAt t (literal v.natAbs).type ∧ (literal v.natAbs).type.Fits v := by
  have hint : cInt.lo = -2 ^ 31 ∧ cInt.hi = 2 ^ 31 - 1 := by decide
  have hlong : cLong.lo = -2 ^ 63 ∧ cLong.hi = 2 ^ 63 - 1 := by decide
  rcases literal_cases v.natAbs with ⟨h, hn⟩ | ⟨h, hn⟩ | ⟨h, hn⟩
  · rw [h]
    refine ⟨.inr (.inl rfl), ?_, ?_⟩
    · rw [hint.1]
      omega
    · rw [hint.2]
      omega
  · rw [h]
    refine ⟨.inr (.inr rfl), ?_, ?_⟩
    · rw [hlong.1]
      omega
    · rw [hlong.2]
      omega
  · -- only `u64` has a value of this size
    have ht : t = .u64 := by
      cases t <;>
        simp [cType, IntType.Fits, IntType.lo, IntType.hi, IntTy.bits, IntTy.isSigned] at hfits ⊢ <;>
        omega
    subst ht
    rw [h]
    exact ⟨.inl rfl, hfits⟩

/-- C negates a number of its own type. -/
theorem negate_number {T : IntType} {n : Nat} (hpos : 0 < T.bits) (hT : promote T = T)
    (hn : T.Fits n) (hneg : T.Fits (-n)) : Library.negate ⟨T, n⟩ = some ⟨T, -n⟩ := by
  simp only [Library.negate, hT, IntType.wrap_of_fits hpos hn]
  exact result_of_fits hpos hneg

/-- The text of a number has its value, but for the least `i64`. -/
theorem number_eval (env : ConstEnv) {v : Int} {t : IntTy} (hfits : (cType t).Fits v) (hmin : v ≠ -2 ^ 63)
    (ty : Ty) : ∃ ce, emitExpr (.mk (.int v) ty) = some ce ∧
      cEval (constTypes env) (constValues env) ce = some ⟨(literal v.natAbs).type, v⟩ ∧
        ((∃ n, ce = .negLit n) → v < 0) := by
  obtain ⟨hheld, hfit⟩ := literal_held hfits hmin
  by_cases hv : 0 ≤ v
  · refine ⟨.lit v.toNat, by rw [emitExpr, if_pos hv], ?_, ?_⟩
    · have hnat : v.toNat = v.natAbs := by omega
      have hcast : (v.natAbs : Int) = v := by omega
      rw [cEval, hnat]
      rcases literal_cases v.natAbs with ⟨h, -⟩ | ⟨h, -⟩ | ⟨h, -⟩ <;> rw [h, hcast]
    · rintro ⟨n, hn⟩
      cases hn
  · refine ⟨.negLit v.natAbs, by rw [emitExpr, if_neg hv], ?_, fun _ => by omega⟩
    have hneg : -(v.natAbs : Int) = v := by omega
    have hint : cInt.lo = -2 ^ 31 ∧ cInt.hi = 2 ^ 31 - 1 := by decide
    have hlong : cLong.lo = -2 ^ 63 ∧ cLong.hi = 2 ^ 63 - 1 := by decide
    have hlo : -2 ^ 63 ≤ v := by
      cases t <;>
        simp [cType, IntType.Fits, IntType.lo, IntType.hi, IntTy.bits, IntTy.isSigned] at hfits <;>
        omega
    rw [cEval]
    rcases literal_cases v.natAbs with ⟨h, hn⟩ | ⟨h, hn⟩ | ⟨h, hn⟩
    · rw [h] at hfit ⊢
      rw [negate_number (by decide) rfl ⟨by rw [hint.1]; omega, by rw [hint.2]; omega⟩
        (by rw [hneg]; exact hfit), hneg]
    · rw [h] at hfit ⊢
      rw [negate_number (by decide) rfl ⟨by rw [hlong.1]; omega, by rw [hlong.2]; omega⟩
        (by rw [hneg]; exact hfit), hneg]
    · omega

/-- The text of the least `i64` is not its value. -/
theorem leastNumber_eval (env : ConstEnv) (ty : Ty) : ∃ ce v, emitExpr (.mk (.int (-2 ^ 63)) ty) = some ce ∧
    cEval (constTypes env) (constValues env) ce = some v ∧ v.value ≠ -2 ^ 63 :=
  ⟨.negLit (2 ^ 63), ⟨cUnsignedLong, 2 ^ 63⟩, by rw [emitExpr]; rfl,
    show Library.negate (literal (2 ^ 63)) = _ by decide, by decide⟩

/-- A number at a type that has it is right, but for the least `i64`. -/
theorem number_right (env : ConstEnv) {v : Int} {t : IntTy} (hfits : (cType t).Fits v) (hmin : v ≠ -2 ^ 63)
    (flexible : Bool) : FoldedRight env
      { CheckedExpr.new (.int v) (.int t) (some (.int v)) with flexibleInteger := flexible } := by
  rintro _ ⟨⟩
  obtain ⟨ce, hce, heval, hneg⟩ := number_eval env hfits hmin (.int t)
  refine ⟨hfits, ⟨ce, hce, heval, hneg⟩, ?_, ?_⟩
  · rintro _ ⟨⟩
    exact literal_held hfits hmin
  · intro h
    cases h

theorem literal_right {v : Int} (hv : 0 ≤ v ∧ v ≤ IntTy.maxValue .u64) :
    FoldedRight env (checkLiteral v).1 := by
  refine number_right env ?_ (by omega) true
  split
  · next h => exact ⟨(show (cType .i64).lo ≤ 0 by decide).trans hv.1, h⟩
  · exact ⟨hv.1, hv.2⟩

/-- The name of a constant agrees exactly where it is careful, and is then right. -/
theorem name_agrees_iff (henv : ConstantsInRange env) {name : String} {info : ConstInfo}
    (hinfo : env name = some info) :
    (Folds env (checkName name info) ↔ (info.isConst = true → info.value ≠ -2 ^ 63)) ∧
      ((info.isConst = true → info.value ≠ -2 ^ 63) → FoldedRight env (checkName name info)) := by
  have hfits := henv name info hinfo
  cases hconst : info.isConst with
  | false =>
    have hright : FoldedRight env (checkName name info) := by
      rintro _ ⟨⟩
      refine ⟨hfits, ⟨.var name, ?_, ?_, ?_⟩, ?_, ?_⟩
      · simp [checkName, hconst, CheckedExpr.new, emitExpr]
      · simp [checkName, hconst, CheckedExpr.new, cEval, constTypes, constValues, hinfo, computedAt, number]
      · rintro ⟨n, hn⟩
        cases hn
      · rintro _ ⟨⟩
        simp only [checkName, hconst, CheckedExpr.new]
        exact ⟨.inl rfl, hfits⟩
      · intro h
        cases h
    exact ⟨iff_of_true hright.agrees (by simp), fun _ => hright⟩
  | true =>
    have hform : checkName name info =
        .new (.int info.value) (.int info.ty) (some (.int info.value)) := by
      simp [checkName, hconst]
    rw [hform]
    by_cases hmin : info.value = -2 ^ 63
    · have hno : ¬Folds env (.new (.int info.value) (.int info.ty) (some (.int info.value))) := by
        intro hagree
        obtain ⟨-, ce, v, hce, hv, hval⟩ := hagree _ rfl
        obtain ⟨ce', v', hce', hv', hne⟩ := leastNumber_eval env (.int info.ty)
        rw [← hmin] at hce'
        have hce'' : emitExpr (.mk (.int info.value) (.int info.ty)) = some ce := hce
        rw [hce'] at hce''
        cases hce''
        rw [hv] at hv'
        cases hv'
        exact hne (hval.trans hmin)
      exact ⟨iff_of_false hno fun h => h rfl hmin, fun h => absurd hmin (h rfl)⟩
    · have hright := number_right env hfits hmin false
      exact ⟨iff_of_true hright.agrees fun _ => hmin, fun _ => hright⟩

/-! ## Whole expressions -/

theorem checkIntegerNode_flexible (noun : String) (zero : Option String) (op : BinaryOp)
    (l r : CheckedExpr) : (checkIntegerNode noun zero op l r).1.flexibleInteger = false := by
  unfold checkIntegerNode
  split
  · rfl
  · dsimp only
    split
    · rfl
    · split <;> rfl

theorem checkComparison_flexible (op : BinaryOp) (l r : CheckedExpr) :
    (checkComparison op l r).1.flexibleInteger = false := by
  unfold checkComparison
  split <;> rfl

/-- An operation is no literal. -/
theorem checkBinary_flexible {op : BinaryOp} {l r : CheckedExpr} {res : Checked}
    (h : checkBinary op l r = some res) : res.1.flexibleInteger = false := by
  have hshift : ∀ op, (checkShift op l r).1.flexibleInteger = false := by
    intro op
    unfold checkShift
    split
    · dsimp only
      split
      · split <;> rfl
      · rfl
    · rfl
    · rfl
  have hequality : ∀ op, (checkEquality op l r).1.flexibleInteger = false := by
    intro op
    unfold checkEquality
    split
    · rfl
    · rfl
    · rfl
    · exact checkComparison_flexible _ _ _
  cases op <;> cases h
  case add | sub | mul | div | rem | bitAnd | bitOr | bitXor =>
    exact checkIntegerNode_flexible _ _ _ _ _
  case shl | shr => exact hshift _
  case lt | le | gt | ge => exact checkComparison_flexible _ _ _
  case eq | ne => exact hequality _

theorem checkUnary_flexible (op : UnaryOp) (c : CheckedExpr) :
    (checkUnary op c).1.flexibleInteger = false := by
  cases op with
  | not => rfl
  | neg =>
    simp only [checkUnary]
    split
    · split
      · rfl
      · split <;> rfl
    · rfl

theorem explicitCast_flexible (c : CheckedExpr) (t : IntTy) :
    (explicitCast c t).1.flexibleInteger = false := by
  simp only [explicitCast]
  split
  · split
    · rfl
    · split
      · split <;> rfl
      · rfl
  · rfl

theorem literalIfFlexible_of_false {c : CheckedExpr} (h : c.flexibleInteger = false) :
    LiteralIfFlexible c := by
  intro h'
  rw [h] at h'
  cases h'

/-- What the induction over an expression carries. -/
structure Folded (env : ConstEnv) (e : Expr) : Prop where
  agrees_iff : EveryNodeAgrees env e ↔ EveryNodeCareful env e
  right : EveryNodeCareful env e → ∀ c errors, checkExpr env e = some (c, errors) → FoldedRight env c
  literal : ∀ c errors, checkExpr env e = some (c, errors) → LiteralIfFlexible c

attribute [local simp] EveryNodeAgrees EveryNodeCareful checkExpr

theorem Folded.unary {e : Expr} (h : Folded env e) (op : UnaryOp) :
    Folded env (.unary op e) := by
  have hinv : ∀ c errors, checkExpr env (.unary op e) = some (c, errors) →
      ∃ c' errors', checkExpr env e = some (c', errors') ∧ c = (checkUnary op c').1 := by
    intro c errors hc
    rw [checkExpr, Option.map_eq_some_iff] at hc
    obtain ⟨⟨c', errors'⟩, hc', hcc⟩ := hc
    cases hcc
    exact ⟨c', errors', hc', rfl⟩
  refine ⟨?_, ?_, ?_⟩
  · rw [EveryNodeAgrees, h.agrees_iff]
    cases op with
    | neg =>
      rw [EveryNodeCareful]
      constructor
      · rintro ⟨hcare, hnode⟩
        refine ⟨hcare, fun c errors hc => ?_⟩
        exact (negation_agrees_iff (h.right hcare c errors hc) (h.literal c errors hc)).1.1
          (hnode c errors hc)
      · rintro ⟨hcare, hnode⟩
        refine ⟨hcare, fun c errors hc => ?_⟩
        exact (negation_agrees_iff (h.right hcare c errors hc) (h.literal c errors hc)).1.2
          (hnode c errors hc)
    | not =>
      rw [EveryNodeCareful]
      exact ⟨fun hall => hall.1, fun hcare =>
        ⟨hcare, fun c errors hc => (not_agrees (h.right hcare c errors hc)).1⟩⟩
  · intro hcare c errors hc
    obtain ⟨c', errors', hc', rfl⟩ := hinv c errors hc
    cases op with
    | neg =>
      obtain ⟨hcare, hnode⟩ := hcare
      exact (negation_agrees_iff (h.right hcare c' errors' hc') (h.literal c' errors' hc')).2
        (hnode c' errors' hc')
    | not => exact (not_agrees (h.right hcare c' errors' hc')).2
  · intro c errors hc
    obtain ⟨c', errors', -, rfl⟩ := hinv c errors hc
    exact literalIfFlexible_of_false (checkUnary_flexible op c')

theorem Folded.binary {l r : Expr} (hl : Folded env l) (hr : Folded env r) (op : BinaryOp) :
    Folded env (.binary op l r) := by
  have hinv : ∀ c errors, checkExpr env (.binary op l r) = some (c, errors) →
      ∃ cl el cr er res, checkExpr env l = some (cl, el) ∧ checkExpr env r = some (cr, er) ∧
        checkBinary op cl cr = some res ∧ c = res.1 := by
    intro c errors hc
    rw [checkExpr] at hc
    split at hc
    · next cl el cr er hcl hcr =>
      obtain ⟨res, hres, hcc⟩ := Option.map_eq_some_iff.1 hc
      cases hcc
      exact ⟨cl, el, cr, er, res, hcl, hcr, hres, rfl⟩
    · cases hc
  refine ⟨?_, ?_, ?_⟩
  · rw [EveryNodeAgrees, EveryNodeCareful, hl.agrees_iff, hr.agrees_iff]
    constructor
    · rintro ⟨hcl, hcr, hnode⟩
      refine ⟨hcl, hcr, fun cl el cr er hl' hr' => ?_⟩
      exact (binary_agrees_iff (hl.right hcl cl el hl') (hr.right hcr cr er hr')).1.1
        (hnode cl el cr er hl' hr')
    · rintro ⟨hcl, hcr, hnode⟩
      refine ⟨hcl, hcr, fun cl el cr er hl' hr' => ?_⟩
      exact (binary_agrees_iff (hl.right hcl cl el hl') (hr.right hcr cr er hr')).1.2
        (hnode cl el cr er hl' hr')
  · rintro ⟨hcl, hcr, hnode⟩ c errors hc
    obtain ⟨cl, el, cr, er, res, hl', hr', hres, rfl⟩ := hinv c errors hc
    exact (binary_agrees_iff (hl.right hcl cl el hl') (hr.right hcr cr er hr')).2
      (hnode cl el cr er hl' hr') res hres
  · intro c errors hc
    obtain ⟨cl, el, cr, er, res, -, -, hres, rfl⟩ := hinv c errors hc
    exact literalIfFlexible_of_false (checkBinary_flexible hres)

theorem Folded.cast {e : Expr} (h : Folded env e) (t : IntTy) :
    Folded env (.cast e (.int t)) := by
  have hinv : ∀ c errors, checkExpr env (.cast e (.int t)) = some (c, errors) →
      ∃ c' errors', checkExpr env e = some (c', errors') ∧ c = (explicitCast c' t).1 := by
    intro c errors hc
    rw [checkExpr, Option.map_eq_some_iff] at hc
    obtain ⟨⟨c', errors'⟩, hc', hcc⟩ := hc
    cases hcc
    exact ⟨c', errors', hc', rfl⟩
  refine ⟨?_, ?_, ?_⟩
  · rw [EveryNodeAgrees, EveryNodeCareful, h.agrees_iff]
    exact ⟨fun hall => hall.1, fun hcare =>
      ⟨hcare, fun c errors hc => (cast_agrees (h.right hcare c errors hc) t).1⟩⟩
  · intro hcare c errors hc
    obtain ⟨c', errors', hc', rfl⟩ := hinv c errors hc
    exact (cast_agrees (h.right hcare c' errors' hc') t).2
  · intro c errors hc
    obtain ⟨c', errors', -, rfl⟩ := hinv c errors hc
    exact literalIfFlexible_of_false (explicitCast_flexible c' t)

/-- A literal is careful and right. -/
theorem folded_literal {v : Int} (hv : 0 ≤ v ∧ v ≤ IntTy.maxValue .u64) :
    Folded env (.int v) := by
  refine ⟨iff_of_true (fun c errors hc => ?_) trivial, fun _ c errors hc => ?_, fun c errors hc => ?_⟩
  · cases hc
    exact (literal_right hv).agrees
  · cases hc
    exact literal_right hv
  · cases hc
    exact fun _ => ⟨v, hv.1, rfl⟩

theorem folded_name (henv : ConstantsInRange env) {name : String} (hname : (env name).isSome = true) :
    Folded env (.var name) := by
  obtain ⟨info, hinfo⟩ := Option.isSome_iff_exists.1 hname
  have hcheck : checkExpr env (.var name) = some (checkName name info, []) := by
    rw [checkExpr, hinfo]
    rfl
  have hcare : EveryNodeCareful env (.var name) ↔
      (info.isConst = true → info.value ≠ -2 ^ 63) := by
    constructor
    · exact fun h => h info hinfo
    · intro h info' hinfo'
      rw [hinfo] at hinfo'
      cases hinfo'
      exact h
  refine ⟨?_, ?_, ?_⟩
  · rw [hcare, ← (name_agrees_iff henv hinfo).1]
    constructor
    · exact fun h => h _ _ hcheck
    · intro h c errors hc
      rw [hcheck] at hc
      cases hc
      exact h
  · intro h c errors hc
    rw [hcheck] at hc
    cases hc
    exact (name_agrees_iff henv hinfo).2 (hcare.1 h)
  · intro c errors hc
    rw [hcheck] at hc
    cases hc
    exact literalIfFlexible_of_false rfl

theorem folded (henv : ConstantsInRange env) : ∀ e, OverConstants env e → Folded env e
  | .int _, h => folded_literal h
  | .var _, h => folded_name henv h
  | .unary op e, h => (folded henv e h).unary op
  | .binary op l r, h => (folded henv l h.2.2.1).binary (folded henv r h.2.2.2) op
  | .cast e (.int t), h => (folded henv e h).cast t

/-- Every node of an expression over constants agrees with its generated code exactly where
every node is careful. -/
theorem folding_agrees_iff (henv : ConstantsInRange env) {e : Expr} (he : OverConstants env e) :
    EveryNodeAgrees env e ↔ EveryNodeCareful env e :=
  (folded henv e he).agrees_iff

/-! ## A negation that leaves its type -/

/-- No names. -/
def noConstants : ConstEnv := fun _ => none

theorem noConstants_inRange : ConstantsInRange noConstants := by
  intro name info h
  cases h

/-- `-5` agrees. -/
theorem minusFive_agrees : EveryNodeAgrees noConstants (.unary .neg (.int 5)) := by
  have hover : OverConstants noConstants (.unary .neg (.int 5)) := ⟨by decide, by decide⟩
  refine (folding_agrees_iff noConstants_inRange hover).2 ⟨trivial, ?_⟩
  rintro c errors ⟨⟩ t v ht _ hv _
  cases hv
  refine ⟨fun h => ?_, by decide, fun h => ?_⟩
  · cases h
  · exact absurd (show (5 : Int) < 0 from h) (by decide)

/-- `-((-128) as i8)`. -/
def minusLeastByte : Expr := .unary .neg (.cast (.unary .neg (.int 128)) (.int .i8))

/-- The checker records 128 for `-((-128) as i8)`, an `i8`. -/
theorem minusLeastByte_refutes : ¬∀ (env : ConstEnv) (e : Expr), ConstantsInRange env →
    OverConstants env e → EveryNodeAgrees env e := by
  intro h
  have hagree := h noConstants minusLeastByte noConstants_inRange ⟨by decide, by decide⟩
  obtain ⟨hnode, -⟩ := hagree.2 _ _ rfl
  obtain ⟨htype, -⟩ := hnode (.int 128) (by rfl)
  exact absurd htype.2 (by decide)

end Vani.Analysis
