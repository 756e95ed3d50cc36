import Vani.Model.Eval

/-!
# Inversion

How an expression of each shape came to its value. Most shapes evaluate their operands
and compute on the values; the operators that can skip an operand, and the two choices,
have their own lemmas.
-/

set_option autoImplicit false

namespace Vani.Analysis

open Vani.Program Vani.Model

variable {W : Type} {P : Prims W} {T : Nominal} {σ σ' : Store W}

/-! ## Constructs that compute on their operands -/

section Operands

attribute [local simp] operands asCall literal

/-- A call is never a construct with operands of its own. -/
theorem asCall_of_operands {e : Expr} {op : StrictOp} {es : List Expr}
    (h : operands T e = some (op, es)) : asCall P T e = none := by
  cases e with
  | call n args =>
    rw [operands, Option.map_eq_some_iff] at h
    obtain ⟨op', hb, _⟩ := h
    rw [asCall, hb]
  | methodCall e m args =>
    cases e <;> simp only [operands] at h
    case var n =>
      split at h
      · next henum => simp only [asCall, henum, if_true]
      · cases h
    all_goals cases h
  | _ => rfl

/-- The evaluation of a construct that computes on the values of its operands. -/
theorem Eval.strict_inv {e : Expr} {op : StrictOp} {es : List Expr} {r : Result}
    {w : List String} (h : Eval P T (.expr e) σ r σ' w) (hop : operands T e = some (op, es)) :
    ∃ vs v, r = .val v ∧ Eval P T (.args es) σ (.vals vs) σ' w ∧ op.apply P vs = some v := by
  cases h with
  | literal hlit => cases e <;> first | cases hlit; done | cases hop
  | var _ => cases hop
  | strict hop' hargs happ =>
    rw [hop] at hop'
    cases hop'
    exact ⟨_, _, rfl, hargs, happ⟩
  | short _ hor _ => rw [operands, if_pos hor] at hop; cases hop
  | long _ hor _ _ => rw [operands, if_pos hor] at hop; cases hop
  | pureCall hcall _ _ _ _ => rw [asCall_of_operands hop] at hcall; cases hcall
  | call hcall _ _ _ _ => rw [asCall_of_operands hop] at hcall; cases hcall
  | ifExpr _ _ => cases hop
  | match_ _ _ _ => cases hop
  | block _ _ => cases hop

/-- The same, for one operand. -/
theorem Eval.strict_one_inv {e a : Expr} {op : StrictOp} {v : Value} {w : List String}
    (h : Eval P T (.expr e) σ (.val v) σ' w) (hop : operands T e = some (op, [a])) :
    ∃ u, Eval P T (.expr a) σ (.val u) σ' w ∧ op.apply P [u] = some v := by
  obtain ⟨vs, v', hr, hargs, happ⟩ := Eval.strict_inv h hop
  cases hr
  cases hargs with
  | @argsCons _ _ u us _ σ₁ _ w₁ w₂ ha hnil =>
    cases hnil
    rw [List.append_nil]
    exact ⟨u, ha, happ⟩

/-- The evaluation of a variable. -/
theorem Eval.var_inv {n : String} {v : Value} {w : List String}
    (h : Eval P T (.expr (.var n)) σ (.val v) σ' w) : σ.lookup n = some v := by
  cases h with
  | literal hlit => cases hlit
  | var hv => exact hv
  | strict hop _ _ => cases hop
  | pureCall hcall _ _ _ _ => cases hcall
  | call hcall _ _ _ _ => cases hcall

theorem Eval.literal_inv {e : Expr} {u v : Value} {w : List String} (hlit : literal e = some u)
    (h : Eval P T (.expr e) σ (.val v) σ' w) : v = u := by
  cases h with
  | literal h => exact Option.some.inj (h.symm.trans hlit)
  | var _ => cases hlit
  | strict hop _ _ => cases e <;> first | cases hlit; done | cases hop
  | short _ _ _ => cases hlit
  | long _ _ _ _ => cases hlit
  | pureCall hcall _ _ _ _ => cases e <;> first | cases hlit; done | cases hcall
  | call hcall _ _ _ _ => cases e <;> first | cases hlit; done | cases hcall
  | ifExpr _ _ => cases hlit
  | match_ _ _ _ => cases hlit
  | block _ _ => cases hlit

/-- Both operands of an operator other than `&&` and `||` are evaluated, left to right. -/
theorem Eval.binary_inv {op : BinaryOp} {l r : Expr} {v : Value} {w : List String}
    (hop : ¬(op = .and ∨ op = .or)) (h : Eval P T (.expr (.binary op l r)) σ (.val v) σ' w) :
    ∃ a b τ w₁ w₂, Eval P T (.expr l) σ (.val a) τ w₁ ∧ Eval P T (.expr r) τ (.val b) σ' w₂ ∧
      w = w₁ ++ w₂ ∧ P.runBinary op a b = some v := by
  have hoperands : operands T (.binary op l r) = some (.binary op, [l, r]) := by
    rw [operands, if_neg hop]
  obtain ⟨vs, v', hr, hargs, happ⟩ := Eval.strict_inv h hoperands
  cases hr
  cases hargs with
  | argsCons hl hrest =>
    cases hrest with
    | argsCons hr hnil =>
      cases hnil
      exact ⟨_, _, _, _, _, hl, hr, by simp, happ⟩

/-- `&&` and `||` stop at a left operand that decides, and else have the value of the right
one. -/
theorem Eval.shortcut_inv {op : BinaryOp} {l r : Expr} {v : Value} {w : List String}
    (hop : op = .and ∨ op = .or) (h : Eval P T (.expr (.binary op l r)) σ (.val v) σ' w) :
    ∃ b τ w₁, Eval P T (.expr l) σ (.val (.scalar (.bool b))) τ w₁ ∧
      (decides op b = true ∧ v = .scalar (.bool b) ∧ w = w₁ ∨
        decides op b = false ∧ ∃ b' w₂, Eval P T (.expr r) τ (.val (.scalar (.bool b'))) σ' w₂ ∧
          v = .scalar (.bool b') ∧ w = w₁ ++ w₂) := by
  cases h with
  | literal hlit => cases hlit
  | strict hs _ _ => rw [operands, if_pos hop] at hs; cases hs
  | short hl _ hdec => exact ⟨_, _, _, hl, Or.inl ⟨hdec, rfl, rfl⟩⟩
  | long hl _ hdec hr => exact ⟨_, _, _, hl, Or.inr ⟨hdec, _, _, hr, rfl, rfl⟩⟩
  | pureCall hcall _ _ _ _ => cases hcall
  | call hcall _ _ _ _ => cases hcall

theorem Eval.ifExpr_inv {c t f : Expr} {v : Value} {w : List String}
    (h : Eval P T (.expr (.ifExpr c t f)) σ (.val v) σ' w) :
    ∃ b u τ w₁ w₂, Eval P T (.expr c) σ (.val (.scalar (.bool b))) τ w₁ ∧
      Eval P T (.expr (if b then t else f)) τ (.val u) σ' w₂ ∧ v = u.settle ∧ w = w₁ ++ w₂ := by
  cases h with
  | literal hlit => cases hlit
  | strict hs _ _ => cases hs
  | pureCall hcall _ _ _ _ => cases hcall
  | call hcall _ _ _ _ => cases hcall
  | ifExpr hc hb => exact ⟨_, _, _, _, _, hc, hb, rfl, rfl⟩

theorem Eval.match_inv {s : Expr} {arms : List (Pattern × Expr)} {v : Value} {w : List String}
    (h : Eval P T (.expr (.match_ s arms)) σ (.val v) σ' w) :
    ∃ u bs body u' τ τ' w₁ w₂, Eval P T (.expr s) σ (.val u) τ w₁ ∧
      selectArm arms u = some (bs, body) ∧
      Eval P T (.expr body) (declareAll bs τ.push) (.val u') τ' w₂ ∧ v = u'.settle ∧
      w = w₁ ++ w₂ := by
  cases h with
  | literal hlit => cases hlit
  | strict hs _ _ => cases hs
  | pureCall hcall _ _ _ _ => cases hcall
  | call hcall _ _ _ _ => cases hcall
  | match_ hs hsel hb => exact ⟨_, _, _, _, _, _, _, _, hs, hsel, hb, rfl, rfl⟩

end Operands

/-! ## Determinism -/

/-- A literal has no operands and is no call. -/
theorem literal_alone {e : Expr} {v : Value} (h : literal e = some v) :
    operands T e = none ∧ asCall P T e = none := by
  cases e <;> first | exact ⟨rfl, rfl⟩ | cases h

/-- Evaluation is deterministic, in its value, its store and the names it assigns. -/
theorem Eval.det {c : Code} {σ σ₁ σ₂ : Store W} {r₁ r₂ : Result} {w₁ w₂ : List String}
    (h₁ : Eval P T c σ r₁ σ₁ w₁) (h₂ : Eval P T c σ r₂ σ₂ w₂) :
    r₁ = r₂ ∧ σ₁ = σ₂ ∧ w₁ = w₂ := by
  induction h₁ generalizing r₂ σ₂ w₂ with
  | literal hlit => 
    cases h₂ with
    | literal hlit' =>
      rw [hlit] at hlit'
      cases hlit'
      simp
    | strict hop _ _ => simp [(literal_alone (P := P) (T := T) hlit).1] at hop
    | pureCall hcall | call hcall => simp [(literal_alone (P := P) (T := T) hlit).2] at hcall
    | _ => cases hlit
  | var hv => 
    cases h₂ with
    | var hv' =>
      rw [hv] at hv'
      cases hv'
      simp
    | literal h | strict h | pureCall h | call h => cases h
  | strict hop hargs happ ih =>
    obtain ⟨vs, v, rfl, hargs', happ'⟩ := Eval.strict_inv h₂ hop
    obtain ⟨hvs, rfl, rfl⟩ := ih hargs'
    cases hvs
    rw [happ] at happ'
    cases happ'
    simp
  | short hl hop hdec ih => 
    cases h₂ with
    | short hl' _ _ => exact ih hl'
    | long hl' _ hdec' _ =>
      obtain ⟨hb, -, -⟩ := ih hl'
      cases hb
      rw [hdec] at hdec'
      cases hdec'
    | strict h => rw [operands, if_pos hop] at h; cases h
    | literal h | pureCall h | call h => cases h
  | long hl hop hdec hr ihl ihr => 
    cases h₂ with
    | short hl' _ hdec' =>
      obtain ⟨hb, -, -⟩ := ihl hl'
      cases hb
      rw [hdec] at hdec'
      cases hdec'
    | long hl' _ _ hr' =>
      obtain ⟨-, rfl, rfl⟩ := ihl hl'
      obtain ⟨hb, rfl, rfl⟩ := ihr hr'
      simp [hb]
    | strict h => rw [operands, if_pos hop] at h; cases h
    | literal h | pureCall h | call h => cases h
  | pureCall hcall hpure hargs hres hback ih => 
    cases h₂ with
    | pureCall hcall' hpure' hargs' hres' hback' =>
      rw [hcall] at hcall'
      cases hcall'
      obtain ⟨hvs, rfl, rfl⟩ := ih hargs'
      cases hvs
      rw [hres] at hres'
      cases hres'
      rw [hback] at hback'
      cases hback'
      simp
    | call hcall' hpure' _ _ _ =>
      rw [hcall] at hcall'
      cases hcall'
      rw [hpure] at hpure'
      cases hpure'
    | strict h => simp [asCall_of_operands h] at hcall
    | literal h => simp [(literal_alone (P := P) (T := T) h).2] at hcall
    | _ => cases hcall
  | call hcall hpure hargs hres hback ih => 
    cases h₂ with
    | call hcall' hpure' hargs' hres' hback' =>
      rw [hcall] at hcall'
      cases hcall'
      obtain ⟨hvs, rfl, rfl⟩ := ih hargs'
      cases hvs
      rw [hres] at hres'
      cases hres'
      rw [hback] at hback'
      cases hback'
      simp
    | pureCall hcall' hpure' _ _ _ =>
      rw [hcall] at hcall'
      cases hcall'
      rw [hpure] at hpure'
      cases hpure'
    | strict h => simp [asCall_of_operands h] at hcall
    | literal h => simp [(literal_alone (P := P) (T := T) h).2] at hcall
    | _ => cases hcall
  | ifExpr hc hb ihc ihb =>
    cases h₂ with
    | ifExpr hc' hb' =>
      obtain ⟨hb, rfl, rfl⟩ := ihc hc'
      cases hb
      obtain ⟨hv, rfl, rfl⟩ := ihb hb'
      cases hv
      simp
    | literal h | strict h | pureCall h | call h => cases h
  | match_ hs hsel hb ihs ihb => 
    cases h₂ with
    | match_ hs' hsel' hb' =>
      obtain ⟨hu, rfl, rfl⟩ := ihs hs'
      cases hu
      rw [hsel] at hsel'
      cases hsel'
      obtain ⟨hv, rfl, rfl⟩ := ihb hb'
      cases hv
      simp
    | literal h | strict h | pureCall h | call h => cases h
  | block hss ht ihs iht =>
    cases h₂ with
    | block hss' ht' =>
      obtain ⟨-, rfl, rfl⟩ := ihs hss'
      obtain ⟨hv, rfl, rfl⟩ := iht ht'
      cases hv
      simp
    | literal h | strict h | pureCall h | call h => cases h
  | argsNil | stmtsNil => cases h₂; simp
  | argsCons he hes ihe ihes =>
    cases h₂ with
    | argsCons he' hes' =>
      obtain ⟨hv, rfl, rfl⟩ := ihe he'
      obtain ⟨hvs, rfl, rfl⟩ := ihes hes'
      cases hv
      cases hvs
      simp
  | let_ hn he hco hss ihe ihs =>
    cases h₂ with
    | let_ _ he' hco' hss' =>
      obtain ⟨hv, rfl, rfl⟩ := ihe he'
      cases hv
      rw [hco] at hco'
      cases hco'
      obtain ⟨-, rfl, rfl⟩ := ihs hss'
      simp
    | discard => exact absurd rfl hn
  | discard he hss ihe ihs =>
    cases h₂ with
    | let_ hn => exact absurd rfl hn
    | discard he' hss' =>
      obtain ⟨-, rfl, rfl⟩ := ihe he'
      obtain ⟨-, rfl, rfl⟩ := ihs hss'
      simp
  | assign he hold hco hss ihe ihs =>
    cases h₂ with
    | assign he' hold' hco' hss' =>
      obtain ⟨hv, rfl, rfl⟩ := ihe he'
      cases hv
      rw [hold] at hold'
      cases hold'
      rw [hco] at hco'
      cases hco'
      obtain ⟨-, rfl, rfl⟩ := ihs hss'
      simp
  | print hi hss ihi ihs =>
    cases h₂ with
    | print hi' hss' =>
      obtain ⟨-, rfl, rfl⟩ := ihi hi'
      obtain ⟨-, rfl, rfl⟩ := ihs hss'
      simp
  | whileFalse hc hss ihc ihs =>
    cases h₂ with
    | whileFalse hc' hss' =>
      obtain ⟨-, rfl, rfl⟩ := ihc hc'
      obtain ⟨-, rfl, rfl⟩ := ihs hss'
      simp
    | whileTrue _ hc' _ _ => cases (ihc hc').1
  | whileTrue hw hc hbody hrest ihc ihb ihr => 
    cases h₂ with
    | whileFalse hc' hss' => cases (ihc hc').1
    | whileTrue _ hc' hbody' hrest' =>
      obtain ⟨-, rfl, rfl⟩ := ihc hc'
      obtain ⟨-, rfl, rfl⟩ := ihb hbody'
      obtain ⟨-, rfl, rfl⟩ := ihr hrest'
      simp

end Vani.Analysis
