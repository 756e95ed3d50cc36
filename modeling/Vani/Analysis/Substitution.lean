import Vani.Analysis.Names
import Vani.Program.Facts

/-!
# Substitution in facts

The verifier turns a callee's clause into a fact by substituting arguments for
parameters, and a fact about an array into one about its earlier contents by renaming.
Both are one operation, and on plain expressions, those without binders and effects, it
commutes with evaluation.
-/

set_option autoImplicit false

namespace Vani.Analysis

open Vani.Program Vani.Model

variable {W : Type}

mutual

/-- An expression without binders, short of effects: its value depends on the values of
its variables alone. -/
def plain (P : Prims W) (T : Nominal) : Expr → Bool
  | .int _ | .float _ | .bool _ | .str _ | .var _ => true
  | .unary _ e => plain P T e
  | .binary _ l r => plain P T l && plain P T r
  | .cast e _ => plain P T e
  | .call n args => ((builtinOp n args).isSome || P.isPure n) && allPlain P T args
  | .arrayLit es => allPlain P T es
  | .index a i => plain P T a && plain P T i
  | .len a => plain P T a
  | .ref e => plain P T e
  | .tuple es => allPlain P T es
  | .tupleAccess e _ => plain P T e
  | .fieldAccess e _ => plain P T e &&
    match e with
    | .var n => !T.isEnum n
    | _ => true
  | .ifExpr c t f => plain P T c && plain P T t && plain P T f
  | _ => false

/-- `plain`, for each element of a list. -/
def allPlain (P : Prims W) (T : Nominal) : List Expr → Bool
  | [] => true
  | e :: es => plain P T e && allPlain P T es

end

/-- A substitution carries the variables of `σ` that satisfy `used` to expressions with
the same values in `τ`, none of them a borrow or the name of an enumeration. -/
structure Carries (P : Prims W) (T : Nominal) (ρ : Subs) (used : String → Prop)
    (σ τ : Store W) : Prop where
  value : ∀ n v, used n → σ.lookup n = some v →
    Eval P T (.expr (substituteExpr ρ (.var n))) τ (.val v) τ []
  notRefMut : ∀ n, used n → isRefMut (substituteExpr ρ (.var n)) = false
  notEnum : ∀ n m, used n → T.isEnum n = false → substituteExpr ρ (.var n) = .var m →
    T.isEnum m = false

variable {P : Prims W} {T : Nominal} {ρ : Subs} {used used' : String → Prop} {σ τ : Store W}

attribute [local simp] plain allPlain substituteExpr substituteAll exprMentions anyMentions

theorem Carries.sub (h : Carries P T ρ used σ τ) (hsub : ∀ n, used' n → used n) :
    Carries P T ρ used' σ τ :=
  ⟨fun n v hn => h.value n v (hsub n hn), fun n hn => h.notRefMut n (hsub n hn),
    fun n m hn => h.notEnum n m (hsub n hn)⟩

/-- The empty substitution changes nothing. -/
theorem Carries.nil : Carries P T [] used σ σ where
  value _ _ _ hv := .var hv
  notRefMut _ _ := rfl
  notEnum n m _ hn hm := by
    cases hm
    exact hn

theorem length_substituteAll (es : List Expr) : (substituteAll ρ es).length = es.length := by
  induction es with
  | nil => rfl
  | cons e es ih => rw [substituteAll, List.length_cons, List.length_cons, ih]

/-- A plain expression is no `mut ref` borrow, also after a substitution. -/
theorem isRefMut_substitute {e : Expr} (he : plain P T e = true)
    (hρ : ∀ n, e = .var n → isRefMut (substituteExpr ρ (.var n)) = false) :
    isRefMut (substituteExpr ρ e) = isRefMut e := by
  cases e with
  | var n => exact hρ n rfl
  | refMut e => exact absurd he (by simp [plain])
  | _ => rfl

/-- A substitution does not change which builtin a call of plain arguments is. -/
theorem builtinOp_substitute {n : String} {args : List Expr}
    (hargs : allPlain P T args = true)
    (hρ : ∀ m, Expr.var m ∈ args → isRefMut (substituteExpr ρ (.var m)) = false) :
    builtinOp n (substituteAll ρ args) = builtinOp n args := by
  have hhead : headRefMut (substituteAll ρ args) = headRefMut args := by
    cases args with
    | nil => rfl
    | cons e es =>
      rw [allPlain, Bool.and_eq_true] at hargs
      exact isRefMut_substitute hargs.1 fun m hm => hρ m (hm ▸ List.mem_cons_self ..)
  rw [builtinOp, builtinOp, hhead, length_substituteAll]

/-- A variable among expressions is mentioned by them. -/
theorem anyMentions_of_var_mem {n : String} {es : List Expr} (h : Expr.var n ∈ es) :
    anyMentions n es = true := by
  induction es with
  | nil => cases h
  | cons e es ih =>
    rw [anyMentions, Bool.or_eq_true]
    rcases List.mem_cons.1 h with h | h
    · exact .inl (by simp [← h, exprMentions])
    · exact .inr (ih h)

/-- The operands of a plain construct are plain, and substitution goes into them. -/
theorem operands_substitute {e : Expr} {op : StrictOp} {es : List Expr}
    (he : plain P T e = true) (hop : operands T e = some (op, es))
    (hρ : Carries P T ρ (fun n => exprMentions n e = true) σ τ) :
    operands T (substituteExpr ρ e) = some (op, substituteAll ρ es) ∧
      allPlain P T es = true ∧ ∀ n, anyMentions n es = true → exprMentions n e = true := by
  cases e with
  | binary bop l r =>
    rw [operands] at hop
    split at hop
    · cases hop
    · next hb =>
      cases hop
      rw [substituteExpr, operands, if_neg hb]
      exact ⟨rfl, by simpa [plain, allPlain] using he, by simp [anyMentions, exprMentions]⟩
  | fieldAccess e f =>
    simp only [plain, Bool.and_eq_true] at he
    cases e with
    | var n =>
      have henum : T.isEnum n = false := by simpa using he.2
      simp only [operands, henum] at hop
      cases hop
      refine ⟨?_, rfl, by simp [anyMentions, exprMentions]⟩
      rw [substituteExpr, substituteAll, substituteAll]
      cases hn : substituteExpr ρ (.var n) with
      | var m =>
        have hm : T.isEnum m = false := hρ.notEnum n m (by simp [exprMentions]) henum hn
        simp [operands, hm]
      | _ => rfl
    | _ =>
      cases hop
      exact ⟨rfl, by rw [allPlain, he.1]; rfl, by simp [anyMentions, exprMentions]⟩
  | call n args =>
    rw [operands, Option.map_eq_some_iff] at hop
    obtain ⟨op', hb, hop⟩ := hop
    cases hop
    simp only [plain, Bool.and_eq_true] at he
    refine ⟨?_, he.2, fun m hm => hm⟩
    rw [substituteExpr, operands, builtinOp_substitute he.2, hb]
    · rfl
    · exact fun m hm => hρ.notRefMut m (anyMentions_of_var_mem hm)
  | arrayLit es => cases hop; exact ⟨rfl, by simpa [plain] using he, fun _ hn => hn⟩
  | tuple es => cases hop; exact ⟨rfl, by simpa [plain] using he, fun _ hn => hn⟩
  -- the remaining constructs have one or two operands, or are not plain
  | _ => first
    | cases hop; done
    | simp [plain] at he; done
    | cases hop
      exact ⟨rfl, by simpa [plain, allPlain] using he, by simp [anyMentions, exprMentions]⟩

/-- A plain call is one of a pure function, with plain arguments. -/
theorem asCall_substitute {e : Expr} {n : String} {args : List Expr}
    (he : plain P T e = true) (hcall : asCall P T e = some (n, args))
    (hρ : Carries P T ρ (fun m => exprMentions m e = true) σ τ) :
    asCall P T (substituteExpr ρ e) = some (n, substituteAll ρ args) ∧
      allPlain P T args = true ∧ P.isPure n = true ∧
      ∀ m, anyMentions m args = true → exprMentions m e = true := by
  cases e with
  | call f as =>
    rw [asCall] at hcall
    simp only [plain, Bool.and_eq_true] at he
    cases hb : builtinOp f as with
    | some op => rw [hb] at hcall; cases hcall
    | none =>
      rw [hb] at hcall
      cases hcall
      have hpure : P.isPure n = true := by simpa [hb] using he.1
      refine ⟨?_, he.2, hpure, fun m hm => hm⟩
      rw [substituteExpr, asCall, builtinOp_substitute he.2, hb]
      exact fun m hm => hρ.notRefMut m (anyMentions_of_var_mem hm)
  | _ => first | cases hcall | simp [plain] at he

/-- Plain arguments lend nothing out. -/
theorem mutTargets_plain {es : List Expr} (hes : allPlain P T es = true) :
    mutTargets es = [] := by
  induction es with
  | nil => rfl
  | cons e es ih =>
    simp only [allPlain, Bool.and_eq_true] at hes
    cases e <;> first | exact ih hes.2 | simp [plain] at hes

/-- Nor do they after a substitution. -/
theorem mutTargets_substitute {es : List Expr} (hes : allPlain P T es = true)
    (hρ : ∀ n, Expr.var n ∈ es → isRefMut (substituteExpr ρ (.var n)) = false) :
    mutTargets (substituteAll ρ es) = [] := by
  induction es with
  | nil => rfl
  | cons e es ih =>
    simp only [allPlain, Bool.and_eq_true] at hes
    have hrest := ih hes.2 fun n hn => hρ n (List.mem_cons_of_mem _ hn)
    have he : isRefMut (substituteExpr ρ e) = false := by
      rw [isRefMut_substitute hes.1 fun n hn => hρ n (hn ▸ List.mem_cons_self ..)]
      cases e <;> first | rfl | simp [plain] at hes
    rw [substituteAll]
    generalize substituteExpr ρ e = e' at he ⊢
    cases e' <;> first | exact hrest | cases he

/-- What plainness gives for an evaluation: it has no effect, and the substituted
expression evaluates alike wherever the substitution carries the variables. -/
def Substitutes (P : Prims W) (T : Nominal) (c : Code) (r : Result) (w : List String)
    (σ σ' : Store W) : Prop :=
  match c with
  | .expr e => plain P T e = true → σ' = σ ∧ w = [] ∧
      ∀ ρ τ, Carries P T ρ (fun n => exprMentions n e = true) σ τ →
        Eval P T (.expr (substituteExpr ρ e)) τ r τ []
  | .args es => allPlain P T es = true → σ' = σ ∧ w = [] ∧
      ∀ ρ τ, Carries P T ρ (fun n => anyMentions n es = true) σ τ →
        Eval P T (.args (substituteAll ρ es)) τ r τ []
  | .stmts _ => True

theorem Eval.substitutes {c : Code} {σ σ' : Store W} {r : Result} {w : List String}
    (h : Eval P T c σ r σ' w) : Substitutes P T c r w σ σ' := by
  induction h with
  | @literal e v σ hlit =>
    refine fun _ => ⟨rfl, rfl, fun ρ τ _ => .literal ?_⟩
    cases e <;> first | exact hlit | cases hlit
  | var hv => exact fun _ => ⟨rfl, rfl, fun ρ τ hρ => hρ.value _ _ (by simp [exprMentions]) hv⟩
  | @strict e op es vs v σ σ' w hop _ happ ih =>
    intro he
    obtain ⟨_, hes, _⟩ := operands_substitute he hop (Carries.nil : Carries P T [] _ σ σ)
    obtain ⟨hσ, hw, hsub⟩ := ih hes
    refine ⟨hσ, hw, fun ρ τ hρ => ?_⟩
    obtain ⟨hop', _, hmem⟩ := operands_substitute he hop hρ
    exact .strict hop' (hsub ρ τ (hρ.sub hmem)) happ
  | @short op l r b σ σ' w _ hop hdec ih =>
    intro he
    rw [plain, Bool.and_eq_true] at he
    obtain ⟨hσ, hw, hsub⟩ := ih he.1
    refine ⟨hσ, hw, fun ρ τ hρ => ?_⟩
    rw [substituteExpr]
    exact .short (hsub ρ τ (hρ.sub fun n hn => by simp [exprMentions, hn])) hop hdec
  | @long op l r b b' σ σ' σ'' w w' _ hop hdec _ ih ih' =>
    intro he
    rw [plain, Bool.and_eq_true] at he
    obtain ⟨rfl, rfl, hl⟩ := ih he.1
    obtain ⟨rfl, rfl, hr⟩ := ih' he.2
    refine ⟨rfl, rfl, fun ρ τ hρ => ?_⟩
    rw [substituteExpr]
    exact .long (hl ρ τ (hρ.sub fun n hn => by simp [exprMentions, hn])) hop hdec
      (hr ρ τ (hρ.sub fun n hn => by simp [exprMentions, hn]))
  | @pureCall e n args vs v outs σ σ' σ'' w hcall hpure _ hv hback ih =>
    intro he
    obtain ⟨_, hargs, _, _⟩ := asCall_substitute he hcall (Carries.nil : Carries P T [] _ σ σ)
    obtain ⟨rfl, rfl, hsub⟩ := ih hargs
    rw [mutTargets_plain hargs] at hback ⊢
    cases outs with
    | cons v vs => cases hback
    | nil =>
      cases hback
      refine ⟨rfl, rfl, fun ρ τ hρ => ?_⟩
      obtain ⟨hcall', _, _, hmem⟩ := asCall_substitute he hcall hρ
      have hnone := mutTargets_substitute (ρ := ρ) hargs fun m hm =>
        hρ.notRefMut m (hmem m (anyMentions_of_var_mem hm))
      have hback : writeBack (mutTargets (substituteAll ρ args)) [] τ = some τ := by
        rw [hnone]
        rfl
      have heval := Eval.pureCall hcall' hpure (hsub ρ τ (hρ.sub hmem)) hv hback
      rwa [hnone] at heval
  | @call e n args vs v outs x σ σ' σ'' w hcall hpure _ _ _ _ =>
    intro he
    obtain ⟨_, _, hpure', _⟩ := asCall_substitute he hcall (Carries.nil : Carries P T [] _ σ σ)
    rw [hpure] at hpure'
    cases hpure'
  | @ifExpr c t f b v σ σ' σ'' w w' _ _ ih ih' =>
    intro he
    simp only [plain, Bool.and_eq_true] at he
    obtain ⟨rfl, rfl, hc⟩ := ih he.1.1
    obtain ⟨rfl, rfl, hb⟩ := ih' (by cases b <;> [exact he.2; exact he.1.2])
    refine ⟨rfl, rfl, fun ρ τ hρ => ?_⟩
    rw [substituteExpr]
    refine .ifExpr (hc ρ τ (hρ.sub fun n hn => by simp [exprMentions, hn])) ?_
    have hbranch := hb ρ τ (hρ.sub fun n hn => by cases b <;> simp_all [exprMentions])
    cases b <;> exact hbranch
  | match_ _ _ _ _ _ => exact fun he => absurd he (by simp [plain])
  | block _ _ _ _ => exact fun he => absurd he (by simp [plain])
  | argsNil => exact fun _ => ⟨rfl, rfl, fun _ _ _ => .argsNil⟩
  | @argsCons e es v vs σ σ' σ'' w w' _ _ ih ih' =>
    intro hes
    rw [allPlain, Bool.and_eq_true] at hes
    obtain ⟨rfl, rfl, he⟩ := ih hes.1
    obtain ⟨rfl, rfl, hrest⟩ := ih' hes.2
    refine ⟨rfl, rfl, fun ρ τ hρ => ?_⟩
    rw [substituteAll]
    exact .argsCons (he ρ τ (hρ.sub fun n hn => by simp [anyMentions, hn]))
      (hrest ρ τ (hρ.sub fun n hn => by simp [anyMentions, hn]))
  | _ => trivial

/-- A plain expression evaluates without effect. -/
theorem Eval.plain_pure {e : Expr} {σ σ' : Store W} {r : Result} {w : List String}
    (h : Eval P T (.expr e) σ r σ' w) (he : plain P T e = true) : σ' = σ ∧ w = [] :=
  ⟨(Eval.substitutes h he).1, (Eval.substitutes h he).2.1⟩

/-- The substitution lemma. -/
theorem Eval.substitute {e : Expr} {σ σ' τ : Store W} {r : Result} {w : List String}
    (h : Eval P T (.expr e) σ r σ' w) (he : plain P T e = true)
    (hρ : Carries P T ρ (fun n => exprMentions n e = true) σ τ) :
    Eval P T (.expr (substituteExpr ρ e)) τ r τ [] :=
  (Eval.substitutes h he).2.2 ρ τ hρ

/-! ## Renaming an array to an earlier version -/

/-- Different versions have different names. -/
theorem versioned_inj {name : String} {k l : Nat} (h : versioned name k = versioned name l) :
    k = l := by
  have hstr : toString k = toString l := (String.append_right_inj (name ++ "#")).1 h
  rw [Nat.toString_eq_repr, Nat.toString_eq_repr] at hstr
  have hdigits := congrArg String.toList hstr
  rw [Nat.toList_repr, Nat.toList_repr] at hdigits
  rw [← Nat.ofDigitChars_ten_toDigits (n := k), hdigits, Nat.ofDigitChars_ten_toDigits]

mutual

/-- Pinning is a substitution of one variable. Source: checker.rs:23484-23569 -/
theorem pinVarToVersion_eq (name : String) (version : Nat) :
    ∀ e, pinVarToVersion name version e =
      substituteExpr [(name, .var (versioned name version))] e
  | .var n => by
    simp only [pinVarToVersion, substituteExpr, List.lookup_cons, List.lookup_nil]
    by_cases h : n = name
    · simp [h]
    · have hne : (n == name) = false := beq_eq_false_iff_ne.2 h
      simp [h, hne]
  | .int _ | .float _ | .bool _ | .str _ | .anonFn _ _ _ => rfl
  | .unary op e => congrArg (Expr.unary op) (pinVarToVersion_eq name version e)
  | .binary op l r => congrArg₂ (Expr.binary op) (pinVarToVersion_eq name version l)
      (pinVarToVersion_eq name version r)
  | .cast e ty => congrArg (Expr.cast · ty) (pinVarToVersion_eq name version e)
  | .call f args => congrArg (Expr.call f) (pinAll_eq name version args)
  | .methodCall e m args => congrArg₂ (Expr.methodCall · m) (pinVarToVersion_eq name version e)
      (pinAll_eq name version args)
  | .arrayLit es => congrArg Expr.arrayLit (pinAll_eq name version es)
  | .index a i => congrArg₂ Expr.index (pinVarToVersion_eq name version a)
      (pinVarToVersion_eq name version i)
  | .len a => congrArg Expr.len (pinVarToVersion_eq name version a)
  | .ref e => congrArg Expr.ref (pinVarToVersion_eq name version e)
  | .refMut e => congrArg Expr.refMut (pinVarToVersion_eq name version e)
  | .tuple es => congrArg Expr.tuple (pinAll_eq name version es)
  | .tupleAccess e i => congrArg (Expr.tupleAccess · i) (pinVarToVersion_eq name version e)
  | .structLit n fs => congrArg (Expr.structLit n) (pinFields_eq name version fs)
  | .fieldAccess e f => congrArg (Expr.fieldAccess · f) (pinVarToVersion_eq name version e)
  | .match_ s arms => congrArg₂ Expr.match_ (pinVarToVersion_eq name version s)
      (pinArms_eq name version arms)
  | .ifExpr c t f => by
    rw [pinVarToVersion, substituteExpr, pinVarToVersion_eq, pinVarToVersion_eq,
      pinVarToVersion_eq]
  | .block ss tail => congrArg₂ Expr.block (pinLets_eq name version ss)
      (pinVarToVersion_eq name version tail)
  | .try_ e => congrArg Expr.try_ (pinVarToVersion_eq name version e)

theorem pinAll_eq (name : String) (version : Nat) :
    ∀ es, pinAll name version es = substituteAll [(name, .var (versioned name version))] es
  | [] => rfl
  | e :: es => congrArg₂ List.cons (pinVarToVersion_eq name version e) (pinAll_eq name version es)

theorem pinFields_eq (name : String) (version : Nat) :
    ∀ fs, pinFields name version fs =
      substituteFields [(name, .var (versioned name version))] fs
  | [] => rfl
  | (f, e) :: fs => by
    rw [pinFields, substituteFields, pinVarToVersion_eq, pinFields_eq]

theorem pinArms_eq (name : String) (version : Nat) :
    ∀ arms, pinArms name version arms =
      substituteArms [(name, .var (versioned name version))] arms
  | [] => rfl
  | (p, e) :: arms => by
    rw [pinArms, substituteArms, pinVarToVersion_eq, pinArms_eq]

theorem pinLets_eq (name : String) (version : Nat) :
    ∀ ss, pinLets name version ss = substituteLets [(name, .var (versioned name version))] ss
  | [] => rfl
  | s :: ss => by
    cases s <;> simp only [pinLets, substituteLets, pinLets_eq name version ss]
    rw [pinVarToVersion_eq]

end

mutual

/-- Pinning one name keeps the mentions of the others. -/
theorem exprMentions_pin {m name : String} (version : Nat) (hm : m ≠ name) :
    ∀ e, exprMentions m e = true → exprMentions m (pinVarToVersion name version e) = true
  | .var n, h => by
    have hn : n ≠ name := by rintro rfl; simp [exprMentions, hm.symm] at h
    rwa [pinVarToVersion, if_neg hn]
  | .int _, h | .float _, h | .bool _, h | .str _, h | .anonFn _ _ _, h => h
  | .unary _ e, h => exprMentions_pin version hm e h
  | .binary _ l r, h => by
    simp only [exprMentions, pinVarToVersion, Bool.or_eq_true] at h ⊢
    exact h.imp (exprMentions_pin version hm l) (exprMentions_pin version hm r)
  | .cast e _, h => exprMentions_pin version hm e h
  | .call _ args, h => anyMentions_pin version hm args h
  | .methodCall e _ args, h => by
    simp only [exprMentions, pinVarToVersion, Bool.or_eq_true] at h ⊢
    exact h.imp (exprMentions_pin version hm e) (anyMentions_pin version hm args)
  | .arrayLit es, h => anyMentions_pin version hm es h
  | .index a i, h => by
    simp only [exprMentions, pinVarToVersion, Bool.or_eq_true] at h ⊢
    exact h.imp (exprMentions_pin version hm a) (exprMentions_pin version hm i)
  | .len a, h => exprMentions_pin version hm a h
  | .ref e, h => exprMentions_pin version hm e h
  | .refMut e, h => exprMentions_pin version hm e h
  | .tuple es, h => anyMentions_pin version hm es h
  | .tupleAccess e _, h => exprMentions_pin version hm e h
  | .structLit _ fs, h => anyFieldMentions_pin version hm fs h
  | .fieldAccess e _, h => exprMentions_pin version hm e h
  | .match_ s arms, h => by
    simp only [exprMentions, pinVarToVersion, Bool.or_eq_true] at h ⊢
    exact h.imp (exprMentions_pin version hm s) (anyArmMentions_pin version hm arms)
  | .ifExpr c t f, h => by
    simp only [exprMentions, pinVarToVersion, Bool.or_eq_true] at h ⊢
    exact h.imp (Or.imp (exprMentions_pin version hm c) (exprMentions_pin version hm t))
      (exprMentions_pin version hm f)
  | .block ss tail, h => by
    simp only [exprMentions, pinVarToVersion, Bool.or_eq_true] at h ⊢
    exact h.imp (anyLetMentions_pin version hm ss) (exprMentions_pin version hm tail)
  | .try_ e, h => exprMentions_pin version hm e h

theorem anyMentions_pin {m name : String} (version : Nat) (hm : m ≠ name) :
    ∀ es, anyMentions m es = true → anyMentions m (pinAll name version es) = true
  | [], h => h
  | e :: es, h => by
    simp only [anyMentions, pinAll, Bool.or_eq_true] at h ⊢
    exact h.imp (exprMentions_pin version hm e) (anyMentions_pin version hm es)

theorem anyFieldMentions_pin {m name : String} (version : Nat) (hm : m ≠ name) :
    ∀ fs, anyFieldMentions m fs = true → anyFieldMentions m (pinFields name version fs) = true
  | [], h => h
  | (_, e) :: fs, h => by
    simp only [anyFieldMentions, pinFields, Bool.or_eq_true] at h ⊢
    exact h.imp (exprMentions_pin version hm e) (anyFieldMentions_pin version hm fs)

theorem anyArmMentions_pin {m name : String} (version : Nat) (hm : m ≠ name) :
    ∀ arms, anyArmMentions m arms = true → anyArmMentions m (pinArms name version arms) = true
  | [], h => h
  | (_, e) :: arms, h => by
    simp only [anyArmMentions, pinArms, Bool.or_eq_true] at h ⊢
    exact h.imp (exprMentions_pin version hm e) (anyArmMentions_pin version hm arms)

theorem anyLetMentions_pin {m name : String} (version : Nat) (hm : m ≠ name) :
    ∀ ss, anyLetMentions m ss = true → anyLetMentions m (pinLets name version ss) = true
  | [], h => h
  | s :: ss, h => by
    cases s <;> simp only [anyLetMentions, pinLets, Bool.or_eq_true] at h ⊢
    case let_ _ _ e =>
      exact h.imp (exprMentions_pin version hm e) (anyLetMentions_pin version hm ss)
    all_goals exact anyLetMentions_pin version hm ss h

end

mutual

/-- A plain expression depends on the names it mentions. -/
theorem names_of_mentions {n : String} : ∀ e, plain P T e = true → exprMentions n e = true →
    n ∈ exprNames P T e
  | .var m, _, h => by
    rw [exprMentions, beq_iff_eq] at h
    exact List.mem_singleton.2 h.symm
  | .int _, _, h | .float _, _, h | .bool _, _, h | .str _, _, h => by cases h
  | .unary _ e, he, h => names_of_mentions e he h
  | .binary _ l r, he, h => by
    simp only [plain, exprMentions, Bool.and_eq_true, Bool.or_eq_true] at he h
    exact List.mem_append.2 (h.imp (names_of_mentions l he.1) (names_of_mentions r he.2))
  | .cast e _, he, h => names_of_mentions e he h
  | .call _ args, he, h => by
    simp only [plain, Bool.and_eq_true] at he
    exact List.mem_append_right _ (names_of_anyMentions args he.2 h)
  | .arrayLit es, he, h => names_of_anyMentions es he h
  | .index a i, he, h => by
    simp only [plain, exprMentions, Bool.and_eq_true, Bool.or_eq_true] at he h
    exact List.mem_append.2 (h.imp (names_of_mentions a he.1) (names_of_mentions i he.2))
  | .len a, he, h => names_of_mentions a he h
  | .ref e, he, h => names_of_mentions e he h
  | .tuple es, he, h => names_of_anyMentions es he h
  | .tupleAccess e _, he, h => names_of_mentions e he h
  | .fieldAccess e _, he, h => by
    simp only [plain, Bool.and_eq_true] at he
    exact names_of_mentions e he.1 h
  | .ifExpr c t f, he, h => by
    simp only [plain, exprMentions, Bool.and_eq_true, Bool.or_eq_true] at he h
    rw [exprNames, List.mem_append, List.mem_append, ← or_assoc]
    exact h.imp (Or.imp (names_of_mentions c he.1.1) (names_of_mentions t he.1.2))
      (names_of_mentions f he.2)

theorem names_of_anyMentions {n : String} : ∀ es, allPlain P T es = true →
    anyMentions n es = true → n ∈ argsNames P T es
  | [], _, h => by cases h
  | e :: es, he, h => by
    simp only [allPlain, anyMentions, Bool.and_eq_true, Bool.or_eq_true] at he h
    exact List.mem_append.2 (h.imp (names_of_mentions e he.1) (names_of_anyMentions es he.2))

end

/-- Pinning renames a variable to a variable. -/
theorem isRefMut_pinVar (name : String) (version : Nat) (n : String) :
    isRefMut (substituteExpr [(name, .var (versioned name version))] (.var n)) = false := by
  rw [← pinVarToVersion_eq, pinVarToVersion]
  split <;> rfl

mutual

/-- Pinning keeps an expression plain. -/
theorem plain_pin {name : String} {version : Nat}
    (henum : T.isEnum (versioned name version) = false) :
    ∀ e, plain P T e = true → plain P T (pinVarToVersion name version e) = true
  | .var n, _ => by rw [pinVarToVersion]; split <;> rfl
  | .int _, h | .float _, h | .bool _, h | .str _, h => h
  | .unary _ e, h => plain_pin henum e h
  | .binary _ l r, h => by
    simp only [plain, pinVarToVersion, Bool.and_eq_true] at h ⊢
    exact h.imp (plain_pin henum l) (plain_pin henum r)
  | .cast e _, h => plain_pin henum e h
  | .call f args, h => by
    simp only [plain, pinVarToVersion, Bool.and_eq_true] at h ⊢
    have hop := builtinOp_substitute (n := f) h.2 fun m _ => isRefMut_pinVar name version m
    rw [pinAll_eq, hop, ← pinAll_eq]
    exact ⟨h.1, allPlain_pin henum args h.2⟩
  | .arrayLit es, h => allPlain_pin henum es h
  | .index a i, h => by
    simp only [plain, pinVarToVersion, Bool.and_eq_true] at h ⊢
    exact h.imp (plain_pin henum a) (plain_pin henum i)
  | .len a, h => plain_pin henum a h
  | .ref e, h => plain_pin henum e h
  | .tuple es, h => allPlain_pin henum es h
  | .tupleAccess e _, h => plain_pin henum e h
  | .fieldAccess e f, h => by
    simp only [plain, pinVarToVersion, Bool.and_eq_true] at h ⊢
    refine ⟨plain_pin henum e h.1, ?_⟩
    cases e with
    | var n =>
      rw [pinVarToVersion]
      by_cases hn : n = name
      · rw [if_pos hn]; simp [henum]
      · rw [if_neg hn]; exact h.2
    | _ => rfl
  | .ifExpr c t f, h => by
    simp only [plain, pinVarToVersion, Bool.and_eq_true] at h ⊢
    exact h.imp (And.imp (plain_pin henum c) (plain_pin henum t)) (plain_pin henum f)

theorem allPlain_pin {name : String} {version : Nat}
    (henum : T.isEnum (versioned name version) = false) :
    ∀ es, allPlain P T es = true → allPlain P T (pinAll name version es) = true
  | [], h => h
  | e :: es, h => by
    simp only [allPlain, pinAll, Bool.and_eq_true] at h ⊢
    exact h.imp (plain_pin henum e) (allPlain_pin henum es)

end

mutual

/-- Pinning an array leaves an expression that does not mention it as it is. -/
theorem pin_of_not_mentions {name : String} {version : Nat} :
    ∀ e, exprMentions name e = false → pinVarToVersion name version e = e
  | .var n, h => by rw [pinVarToVersion, if_neg (beq_eq_false_iff_ne.1 h)]
  | .int _, _ | .float _, _ | .bool _, _ | .str _, _ | .anonFn _ _ _, _ => rfl
  | .unary op e, h => congrArg (Expr.unary op) (pin_of_not_mentions e h)
  | .binary op l r, h => by
    rw [exprMentions, Bool.or_eq_false_iff] at h
    rw [pinVarToVersion, pin_of_not_mentions l h.1, pin_of_not_mentions r h.2]
  | .cast e ty, h => congrArg (Expr.cast · ty) (pin_of_not_mentions e h)
  | .call f args, h => congrArg (Expr.call f) (pinAll_of_not_mentions args h)
  | .methodCall e m args, h => by
    rw [exprMentions, Bool.or_eq_false_iff] at h
    rw [pinVarToVersion, pin_of_not_mentions e h.1, pinAll_of_not_mentions args h.2]
  | .arrayLit es, h => congrArg Expr.arrayLit (pinAll_of_not_mentions es h)
  | .index a i, h => by
    rw [exprMentions, Bool.or_eq_false_iff] at h
    rw [pinVarToVersion, pin_of_not_mentions a h.1, pin_of_not_mentions i h.2]
  | .len a, h => congrArg Expr.len (pin_of_not_mentions a h)
  | .ref e, h => congrArg Expr.ref (pin_of_not_mentions e h)
  | .refMut e, h => congrArg Expr.refMut (pin_of_not_mentions e h)
  | .tuple es, h => congrArg Expr.tuple (pinAll_of_not_mentions es h)
  | .tupleAccess e i, h => congrArg (Expr.tupleAccess · i) (pin_of_not_mentions e h)
  | .structLit n fs, h => congrArg (Expr.structLit n) (pinFields_of_not_mentions fs h)
  | .fieldAccess e f, h => congrArg (Expr.fieldAccess · f) (pin_of_not_mentions e h)
  | .match_ s arms, h => by
    rw [exprMentions, Bool.or_eq_false_iff] at h
    rw [pinVarToVersion, pin_of_not_mentions s h.1, pinArms_of_not_mentions arms h.2]
  | .ifExpr c t f, h => by
    rw [exprMentions, Bool.or_eq_false_iff, Bool.or_eq_false_iff] at h
    rw [pinVarToVersion, pin_of_not_mentions c h.1.1, pin_of_not_mentions t h.1.2,
      pin_of_not_mentions f h.2]
  | .block ss tail, h => by
    rw [exprMentions, Bool.or_eq_false_iff] at h
    rw [pinVarToVersion, pinLets_of_not_mentions ss h.1, pin_of_not_mentions tail h.2]
  | .try_ e, h => congrArg Expr.try_ (pin_of_not_mentions e h)

theorem pinAll_of_not_mentions {name : String} {version : Nat} :
    ∀ es, anyMentions name es = false → pinAll name version es = es
  | [], _ => rfl
  | e :: es, h => by
    rw [anyMentions, Bool.or_eq_false_iff] at h
    rw [pinAll, pin_of_not_mentions e h.1, pinAll_of_not_mentions es h.2]

theorem pinFields_of_not_mentions {name : String} {version : Nat} :
    ∀ fs, anyFieldMentions name fs = false → pinFields name version fs = fs
  | [], _ => rfl
  | (f, e) :: fs, h => by
    rw [anyFieldMentions, Bool.or_eq_false_iff] at h
    rw [pinFields, pin_of_not_mentions e h.1, pinFields_of_not_mentions fs h.2]

theorem pinArms_of_not_mentions {name : String} {version : Nat} :
    ∀ arms, anyArmMentions name arms = false → pinArms name version arms = arms
  | [], _ => rfl
  | (p, e) :: arms, h => by
    rw [anyArmMentions, Bool.or_eq_false_iff] at h
    rw [pinArms, pin_of_not_mentions e h.1, pinArms_of_not_mentions arms h.2]

theorem pinLets_of_not_mentions {name : String} {version : Nat} :
    ∀ ss, anyLetMentions name ss = false → pinLets name version ss = ss
  | [], _ => rfl
  | .let_ n ann e :: ss, h => by
    rw [anyLetMentions, Bool.or_eq_false_iff] at h
    rw [pinLets, pin_of_not_mentions e h.1, pinLets_of_not_mentions ss h.2]
  | .letTuple .. :: ss, h | .return_ .. :: ss, h | .assert .. :: ss, h | .prove .. :: ss, h
  | .print .. :: ss, h | .if_ .. :: ss, h | .while_ .. :: ss, h | .assign .. :: ss, h
  | .break_ :: ss, h | .continue_ :: ss, h | .indexAssign .. :: ss, h
  | .fieldAssign .. :: ss, h | .for_ .. :: ss, h | .forIter .. :: ss, h
  | .taskSpawn .. :: ss, h | .taskJoin .. :: ss, h =>
    congrArg (List.cons _) (pinLets_of_not_mentions ss h)

end

end Vani.Analysis
