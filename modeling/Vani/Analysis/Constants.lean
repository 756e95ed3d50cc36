import Vani.Model.Visits
import Vani.Analysis.Writes
import Vani.Analysis.Inversion

/-!
# Tracked constants

`constOf` reads the constants of variables from the environment. If these are the values
of the variables, the constant of an expression is its value, under two provisos on the
folding itself: a negated constant stays in the range of its own type, and the lengths
taken from array types are those of the arrays.
-/

set_option autoImplicit false

namespace Vani.Analysis

open Vani.Program Vani.Model

variable {W : Type}

/-! ## Environments -/

theorem lookup_cons_if {α : Type} (m n : String) (a : α) (l : List (String × α)) :
    List.lookup n ((m, a) :: l) = if n = m then some a else l.lookup n := by
  rw [List.lookup_cons]
  by_cases hn : n = m
  · simp [hn]
  · simp [hn, beq_eq_false_iff_ne.2 hn]

theorem lookup_insertKey (name n : String) (info : VarInfo) (scope : EnvScope) :
    (insertKey name info scope).lookup n = if n = name then some info else scope.lookup n := by
  rw [insertKey, lookup_cons_if]
  by_cases hn : n = name
  · rw [if_pos hn, if_pos hn]
  · rw [if_neg hn, if_neg hn]
    induction scope with
    | nil => rfl
    | cons p scope ih =>
      obtain ⟨m, i⟩ := p
      by_cases hm : m = name
      · simp [hm, ih, lookup_cons_if, hn]
      · simp [hm, ih, lookup_cons_if]

theorem tracked_insertCurrent {env : Env} {name : String} {info : VarInfo} {n : String}
    {c : Scalar} (h : tracked (env.insertCurrent name info) n = some c) :
    if n = name then info.constant = some c else tracked env n = some c := by
  unfold tracked at h ⊢
  cases env with
  | nil =>
    simp [Env.insertCurrent, Env.lookup] at h
  | cons scope rest =>
    rw [Env.insertCurrent, Env.lookup, lookup_insertKey] at h
    by_cases hn : n = name
    · simpa [hn] using h
    · simpa [hn, Env.lookup] using h

theorem tracked_pushScope (env : Env) (n : String) : tracked env.pushScope n = tracked env n := by
  simp [tracked, Env.pushScope, Env.lookup]

/-- Binding names without constants only hides constants. -/
theorem tracked_insertPlain {env : Env} {names : List String} {types : List Ty} {n : String}
    {c : Scalar} (h : tracked (insertPlain env names types) n = some c) :
    n ∉ names ∧ tracked env n = some c := by
  induction names generalizing env types with
  | nil => exact ⟨List.not_mem_nil, h⟩
  | cons m names ih =>
    obtain ⟨hnot, hrest⟩ := ih h
    have hm := tracked_insertCurrent hrest
    by_cases hn : n = m
    · rw [if_pos hn] at hm
      cases hm
    · rw [if_neg hn] at hm
      exact ⟨by simp [hn, hnot], hm⟩

theorem lookup_clear (scope : EnvScope) (names : List String) (n : String) :
    List.lookup n (scope.map fun p =>
      (p.1, if names.contains p.1 then { p.2 with constant := none } else p.2)) =
    (scope.lookup n).map fun info =>
      if names.contains n then { info with constant := none } else info := by
  induction scope with
  | nil => rfl
  | cons p scope ih =>
    obtain ⟨m, info⟩ := p
    rw [List.map_cons, lookup_cons_if, lookup_cons_if, ih]
    by_cases hnm : n = m
    · simp [hnm]
    · simp [hnm]

/-- Forgetting constants leaves a part of them. -/
theorem tracked_clear {env : Env} {names : List String} {n : String} {c : Scalar}
    (h : tracked (clearConstantsFor env names) n = some c) : tracked env n = some c := by
  unfold tracked clearConstantsFor at h
  unfold tracked
  induction env with
  | nil => exact h
  | cons scope rest ih =>
    rw [List.map_cons, Env.lookup, lookup_clear] at h
    rw [Env.lookup]
    cases hs : scope.lookup n with
    | none =>
      rw [hs] at h
      exact ih h
    | some info =>
      rw [hs] at h
      by_cases hn : n ∈ names
      · simp [hn] at h
      · simpa [hn] using h

/-- An assignment makes the checker forget the constant of its name, and no other. -/
theorem tracked_modify {env : Env} {name n : String} {c : Scalar}
    (h : tracked (env.modify (fun info => { info with constant := none }) name) n = some c) :
    n ≠ name ∧ tracked env n = some c := by
  unfold tracked at h ⊢
  induction env with
  | nil => cases h
  | cons scope rest ih =>
    rw [Env.modify] at h
    cases hs : scope.lookup name with
    | none =>
      rw [hs] at h
      simp only [Env.lookup] at h ⊢
      cases hn : scope.lookup n with
      | none =>
        rw [hn] at h
        exact ih h
      | some info =>
        rw [hn] at h
        exact ⟨fun hname => by (rw [hname, hs] at hn; cases hn), h⟩
    | some info =>
      rw [hs] at h
      simp only [Env.lookup, lookup_insertKey] at h ⊢
      by_cases hn : n = name
      · simp [hn] at h
      · simpa [hn] using h

/-- A new array version leaves the constants alone. -/
theorem tracked_version {env : Env} {name n : String} (f : Nat → Nat) :
    tracked (env.modify (fun info => { info with arrayVersion := f info.arrayVersion }) name) n =
      tracked env n := by
  unfold tracked
  induction env with
  | nil => rfl
  | cons scope rest ih =>
    rw [Env.modify]
    cases hs : scope.lookup name with
    | none =>
      simp only [Env.lookup]
      cases scope.lookup n with
      | none => exact ih
      | some info => rfl
    | some info =>
      simp only [Env.lookup, lookup_insertKey]
      by_cases hn : n = name
      · subst hn
        simp [hs]
      · simp [hn]

/-! ## Constants and values -/

/-- The tracked constants are the values of their names. -/
def Agrees (env : Env) (scopes : List Scope) : Prop :=
  ∀ n c, tracked env n = some c → lookupScopes scopes n = some (.scalar c)

/-- None of the names has a tracked constant. -/
def Untracked (env : Env) (w : List String) : Prop := ∀ n, n ∈ w → tracked env n = none

variable {ctx : Context} {P : Prims W} {T : Nominal} {env : Env} {σ σ' : Store W}

theorem Untracked.left {w w' : List String} (h : Untracked env (w ++ w')) : Untracked env w :=
  fun n hn => h n (List.mem_append_left _ hn)

theorem Untracked.right {w w' : List String} (h : Untracked env (w ++ w')) : Untracked env w' :=
  fun n hn => h n (List.mem_append_right _ hn)

/-- Writes to names without constants keep the agreement. -/
theorem Agrees.writes {scopes scopes' : List Scope} {w : List String}
    (h : Agrees env scopes) (hw : ScopesWrite w scopes scopes') (hun : Untracked env w) :
    Agrees env scopes' := by
  intro n c hn
  rw [hw.lookup fun hmem => ?_]
  · exact h n c hn
  · rw [hun n hmem] at hn
    cases hn

theorem Agrees.push (h : Agrees env σ.scopes) : Agrees env σ.push.scopes :=
  fun n c hn => h n c hn

theorem Agrees.pushScope {scopes : List Scope} (h : Agrees env scopes) :
    Agrees env.pushScope scopes := by
  intro n c hn
  rw [tracked_pushScope] at hn
  exact h n c hn

/-- What folding is right about: negation that stays within the operand's type, and array
lengths. Negation is held against the range of `i64` whatever the type is.
Source: checker.rs:13051-13063 -/
def NegationFits (op : UnaryOp) (s : Scalar) : Prop :=
  match op, s with
  | .neg, .int t false v => valueFitsType (-v) .i64 = true → valueFitsType (-v) t = true
  | _, _ => True

mutual

/-- Along the evaluation of an expression, each negated constant stays within its type and
each array whose length is folded has that length. -/
def FoldsRight (ctx : Context) (P : Prims W) (T : Nominal) (env : Env) : Store W → Expr → Prop
  | σ, .unary op e =>
    FoldsRight ctx P T env σ e ∧ ∀ s, constOf ctx env e = some s → NegationFits op s
  | σ, .binary _ l r => FoldsRight ctx P T env σ l ∧
    ∀ v σ' w, Eval P T (.expr l) σ (.val v) σ' w → FoldsRight ctx P T env σ' r
  | σ, .cast e _ => FoldsRight ctx P T env σ e
  | σ, .len a => ∀ element length, (ctx.typeOf env a).deref = .array element length →
    ∀ v σ' w, Eval P T (.expr a) σ (.val v) σ' w → ∃ vs, v = .seq vs ∧ vs.length = length
  | σ, .ifExpr c t f => FoldsRight ctx P T env σ c ∧
    ∀ v σ' w, Eval P T (.expr c) σ (.val v) σ' w →
      FoldsRight ctx P T env σ' t ∧ FoldsRight ctx P T env σ' f
  | σ, .match_ s arms => FoldsRight ctx P T env σ s ∧
    ∀ v σ' w, Eval P T (.expr s) σ (.val v) σ' w → ArmsFoldRight ctx P T env σ'.push arms
  | _, _ => True

/-- The same for the bodies of match arms. -/
def ArmsFoldRight (ctx : Context) (P : Prims W) (T : Nominal) (env : Env) :
    Store W → List (Pattern × Expr) → Prop
  | _, [] => True
  | σ, (_, e) :: arms => FoldsRight ctx P T env σ e ∧ ArmsFoldRight ctx P T env σ arms

end

/-! ## Folding computes the value -/

theorem runUnary_of_fold {op : UnaryOp} {a s : Scalar} {v : Value} (hfit : NegationFits op a)
    (hfold : foldUnary P.floatFold op a = some s) (hrun : P.runUnary op (.scalar a) = some v) :
    v = .scalar s := by
  cases a with
  | int t flexible k =>
    cases op with
    | not => cases hfold
    | neg =>
      simp only [foldUnary] at hfold
      split at hfold
      · next h64 =>
        cases hfold
        have hown : valueFitsType (-k) (if flexible then .i64 else t) = true := by
          cases flexible with
          | true => exact h64
          | false => exact hfit h64
        simp only [Prims.runUnary, Prims.runNeg, hown, if_true, Option.map_some] at hrun
        exact (Option.some.inj hrun).symm
      · cases hfold
  | float t flexible b =>
    cases op with
    | not => cases hrun
    | neg =>
      simp only [Prims.runUnary, hfold, Prims.orElse, Option.map_some] at hrun
      exact (Option.some.inj hrun).symm
  | bool b =>
    cases op with
    | not =>
      cases hfold
      exact (Option.some.inj hrun).symm
    | neg => cases hfold

theorem runBinary_of_fold {op : BinaryOp} {a b s : Scalar} {v : Value}
    (hfold : foldBinary P.floatFold op a b = some s)
    (hrun : P.runBinary op (.scalar a) (.scalar b) = some v) : v = .scalar s := by
  cases a <;> cases b <;>
    (simp only [Prims.runBinary, hfold, Prims.orElse, Option.map_some] at hrun
     exact (Option.some.inj hrun).symm)

theorem runCast_of_fold {ty : Ty} {a s : Scalar} {v : Value}
    (hfold : foldCast P.floatFold ty a = some s) (hrun : P.runCast ty (.scalar a) = some v) :
    v = .scalar s := by
  simp only [Prims.runCast, hfold, Prims.orElse, Option.map_some] at hrun
  exact (Option.some.inj hrun).symm

/-- On an integer, the arm the checker looks at is the one that is taken, and it binds
nothing. -/
theorem selectArm_int {arms : List (Pattern × Expr)} {t : IntTy} {flexible : Bool} {k : Int}
    {bs : List (String × Value)} {body : Expr}
    (h : selectArm arms (.scalar (.int t flexible k)) = some (bs, body)) : bs = [] := by
  induction arms with
  | nil => cases h
  | cons arm arms ih =>
    obtain ⟨p, e⟩ := arm
    rw [selectArm] at h
    cases p <;> simp only [matchPattern] at h
    case int m =>
      split at h
      · next heq =>
        split at heq <;> cases heq
        cases h
        rfl
      · exact ih h
    case wildcard =>
      cases h
      rfl
    all_goals exact ih h

mutual

/-- **Folding is right.** The constant of an expression is its value, where the tracked
constants are the values of their names and evaluation assigns none of these. -/
theorem constOf_sound (hfloat : ctx.floatFold = P.floatFold) :
    ∀ (e : Expr) {σ σ' : Store W} {v : Value} {w : List String} {s : Scalar},
      constOf ctx env e = some s → Eval P T (.expr e) σ (.val v) σ' w →
      Agrees env σ.scopes → Untracked env w → FoldsRight ctx P T env σ e → v = .scalar s
  | .int k, _, _, _, _, _, hc, h, _, _, _ => by
    cases hc
    exact Eval.literal_inv rfl h
  | .float b, _, _, _, _, _, hc, h, _, _, _ => by
    cases hc
    exact Eval.literal_inv rfl h
  | .bool b, _, _, _, _, _, hc, h, _, _, _ => by
    cases hc
    exact Eval.literal_inv rfl h
  | .var n, σ, _, _, _, s, hc, h, hagree, _, _ => by
    rw [constOf] at hc
    have hlook := Eval.var_inv h
    rw [Store.lookup, hagree n s hc] at hlook
    exact (Option.some.inj hlook).symm
  | .unary op e, σ, σ', v, w, s, hc, h, hagree, hun, hright => by
    rw [constOf] at hc
    rw [FoldsRight] at hright
    obtain ⟨u, hu, happ⟩ := Eval.strict_one_inv h rfl
    cases he : constOf ctx env e with
    | none => rw [he] at hc; cases hc
    | some a =>
      rw [he] at hc
      obtain rfl := constOf_sound hfloat e he hu hagree hun hright.1
      exact runUnary_of_fold (hright.2 a he) (hfloat ▸ hc) happ
  | .binary op l r, σ, σ', v, w, s, hc, h, hagree, hun, hright => by
    rw [FoldsRight] at hright
    cases hl : constOf ctx env l with
    | none => rw [constOf, hl] at hc; cases hc
    | some a =>
      by_cases hop : op = .and ∨ op = .or
      · obtain ⟨b, τ, w₁, hel, hcases⟩ := Eval.shortcut_inv hop h
        obtain ⟨hdec, rfl, rfl⟩ | ⟨hdec, b', w₂, her, rfl, rfl⟩ := hcases
        · cases constOf_sound hfloat l hl hel hagree hun hright.1
          rw [constOf, hl] at hc
          obtain rfl | rfl := hop <;> cases b <;> cases hdec <;> cases hc <;> rfl
        · cases constOf_sound hfloat l hl hel hagree hun.left hright.1
          have hagree' := hagree.writes (Eval.writes hel).scopes hun.left
          cases hr : constOf ctx env r with
          | none =>
            rw [constOf, hl] at hc
            obtain rfl | rfl := hop <;> cases b <;> cases hdec <;> rw [hr] at hc <;> cases hc
          | some c =>
            cases constOf_sound hfloat r hr her hagree' hun.right (hright.2 _ _ _ hel)
            rw [constOf, hl] at hc
            obtain rfl | rfl := hop <;> cases b <;> cases hdec <;> rw [hr] at hc <;>
              cases hc <;> cases b' <;> rfl
      · obtain ⟨x, y, τ, w₁, w₂, hel, her, rfl, hrun⟩ := Eval.binary_inv hop h
        have hagree' := hagree.writes (Eval.writes hel).scopes hun.left
        obtain rfl := constOf_sound hfloat l hl hel hagree hun.left hright.1
        have hboth : ∃ c, constOf ctx env r = some c ∧ foldBinary ctx.floatFold op a c = some s := by
          rw [constOf, hl] at hc
          simp only at hc
          split at hc
          · exact absurd (Or.inl rfl) hop
          · exact absurd (Or.inr rfl) hop
          · split at hc
            · next c hr => exact ⟨c, hr, hc⟩
            · cases hc
        obtain ⟨c, hr, hfold⟩ := hboth
        obtain rfl := constOf_sound hfloat r hr her hagree' hun.right (hright.2 _ _ _ hel)
        exact runBinary_of_fold (hfloat ▸ hfold) hrun
  | .cast e ty, σ, σ', v, w, s, hc, h, hagree, hun, hright => by
    rw [constOf] at hc
    rw [FoldsRight] at hright
    obtain ⟨u, hu, happ⟩ := Eval.strict_one_inv h rfl
    cases he : constOf ctx env e with
    | none => rw [he] at hc; cases hc
    | some a =>
      rw [he] at hc
      obtain rfl := constOf_sound hfloat e he hu hagree hun hright
      exact runCast_of_fold (hfloat ▸ hc) happ
  | .len a, σ, σ', v, w, s, hc, h, hagree, hun, hright => by
    rw [constOf] at hc
    rw [FoldsRight] at hright
    obtain ⟨u, hu, happ⟩ := Eval.strict_one_inv h rfl
    split at hc
    · next element length hty =>
      cases hc
      obtain ⟨vs, rfl, hlen⟩ := hright element length hty u σ' w hu
      cases happ
      rw [hlen]
    · cases hc
  | .ifExpr c t f, σ, σ', v, w, s, hc, h, hagree, hun, hright => by
    rw [FoldsRight] at hright
    obtain ⟨b, u, τ, w₁, w₂, hec, heb, rfl, rfl⟩ := Eval.ifExpr_inv h
    have hagree' := hagree.writes (Eval.writes hec).scopes hun.left
    obtain ⟨hrt, hrf⟩ := hright.2 _ _ _ hec
    rw [constOf] at hc
    split at hc
    · next hcond =>
      cases constOf_sound hfloat c hcond hec hagree hun.left hright.1
      obtain ⟨s', hs', rfl⟩ := Option.map_eq_some_iff.1 hc
      rw [constOf_sound hfloat t hs' heb hagree' hun.right hrt]
      rfl
    · next hcond =>
      cases constOf_sound hfloat c hcond hec hagree hun.left hright.1
      obtain ⟨s', hs', rfl⟩ := Option.map_eq_some_iff.1 hc
      rw [constOf_sound hfloat f hs' heb hagree' hun.right hrf]
      rfl
    · cases hc
  | .match_ scrutinee arms, σ, σ', v, w, s, hc, h, hagree, hun, hright => by
    rw [FoldsRight] at hright
    obtain ⟨u, bs, body, u', τ, τ', w₁, w₂, hes, hsel, heb, rfl, rfl⟩ := Eval.match_inv h
    have hagree' := hagree.writes (Eval.writes hes).scopes hun.left
    rw [constOf] at hc
    split at hc
    · next t flexible k hscrutinee =>
      obtain rfl := constOf_sound hfloat scrutinee hscrutinee hes hagree hun.left hright.1
      obtain rfl := selectArm_int hsel
      obtain ⟨s', hs', rfl⟩ := Option.map_eq_some_iff.1 hc
      rw [constOfArms_sound hfloat arms hs' hsel heb hagree'.push hun.right
        (hright.2 _ _ _ hes)]
      rfl
    · cases hc
  | .str _, _, _, _, _, _, hc, _, _, _, _ => by cases hc
  | .call _ _, _, _, _, _, _, hc, _, _, _, _ => by cases hc
  | .methodCall _ _ _, _, _, _, _, _, hc, _, _, _, _ => by cases hc
  | .arrayLit _, _, _, _, _, _, hc, _, _, _, _ => by cases hc
  | .index _ _, _, _, _, _, _, hc, _, _, _, _ => by cases hc
  | .ref _, _, _, _, _, _, hc, _, _, _, _ => by cases hc
  | .refMut _, _, _, _, _, _, hc, _, _, _, _ => by cases hc
  | .tuple _, _, _, _, _, _, hc, _, _, _, _ => by cases hc
  | .tupleAccess _ _, _, _, _, _, _, hc, _, _, _, _ => by cases hc
  | .structLit _ _, _, _, _, _, _, hc, _, _, _, _ => by cases hc
  | .fieldAccess _ _, _, _, _, _, _, hc, _, _, _, _ => by cases hc
  | .block _ _, _, _, _, _, _, hc, _, _, _, _ => by cases hc
  | .try_ _, _, _, _, _, _, hc, _, _, _, _ => by cases hc
  | .anonFn _ _ _, _, _, _, _, _, hc, _, _, _, _ => by cases hc

/-- The same for the arm an integer selects. -/
theorem constOfArms_sound (hfloat : ctx.floatFold = P.floatFold) :
    ∀ (arms : List (Pattern × Expr)) {σ σ' : Store W} {v : Value} {w : List String} {s : Scalar}
      {t : IntTy} {flexible : Bool} {k : Int} {bs : List (String × Value)} {body : Expr},
      constOfArms ctx env k arms = some s →
      selectArm arms (.scalar (.int t flexible k)) = some (bs, body) →
      Eval P T (.expr body) σ (.val v) σ' w →
      Agrees env σ.scopes → Untracked env w → ArmsFoldRight ctx P T env σ arms → v = .scalar s
  | [], _, _, _, _, _, _, _, _, _, _, hc, _, _, _, _, _ => by cases hc
  | (p, e) :: arms, σ, σ', v, w, s, t, flexible, k, bs, body, hc, hsel, h, hagree, hun, hright => by
    rw [ArmsFoldRight] at hright
    rw [selectArm] at hsel
    cases p with
    | int m =>
      rw [constOfArms] at hc
      by_cases hm : k = m
      · subst hm
        rw [if_pos rfl] at hc
        simp only [matchPattern, if_true] at hsel
        cases hsel
        exact constOf_sound hfloat e hc h hagree hun hright.1
      · rw [if_neg fun h => hm h.symm] at hc
        simp only [matchPattern, if_neg hm] at hsel
        exact constOfArms_sound hfloat arms hc hsel h hagree hun hright.2
    | wildcard =>
      rw [constOfArms] at hc
      cases hsel
      exact constOf_sound hfloat e hc h hagree hun hright.1
    | _ => exact constOfArms_sound hfloat arms hc hsel h hagree hun hright.2

end

/-- The constant recorded for a binding is the value it is given. -/
theorem coerce_of_constant {ann : Option Ty} {a s : Scalar} {v : Value}
    (hfloat : ctx.floatFold = P.floatFold) (hc : coerceConstant ctx ann (some a) = some s)
    (hv : coerce P ann (.scalar a) = some v) : v = .scalar s := by
  cases ann with
  | none =>
    cases hc
    exact (Option.some.inj hv).symm
  | some target =>
    obtain ⟨r, hfold, rfl⟩ := Option.map_eq_some_iff.1 hc
    rw [hfloat] at hfold
    cases target with
    | int t =>
      obtain ⟨u, hu, rfl⟩ := Option.map_eq_some_iff.1 hv
      rw [runCast_of_fold hfold hu]
      rfl
    | float t =>
      obtain ⟨u, hu, rfl⟩ := Option.map_eq_some_iff.1 hv
      rw [runCast_of_fold hfold hu]
      rfl
    | bool =>
      cases a <;> cases hfold
      exact (Option.some.inj hv).symm
    | _ => cases a <;> cases hfold

end Vani.Analysis
