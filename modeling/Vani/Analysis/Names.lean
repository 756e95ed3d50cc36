import Vani.Analysis.Writes

/-!
# What evaluation depends on

`exprNames` lists the names an expression reads or writes, its callees included, and
`"@"` when it calls something that may depend on the world. Two stores that agree on
these names evaluate the expression alike, whatever else they hold and however their
bindings are spread over scopes.
-/

set_option autoImplicit false

namespace Vani.Analysis

open Vani.Program Vani.Model

variable {W : Type}

/-- Take bound names out of a list of names; the world is never bound. -/
def without (bound names : List String) : List String :=
  names.filter fun n => n == worldName || !bound.contains n

theorem mem_without {bound names : List String} {n : String} :
    n ∈ without bound names ↔ n ∈ names ∧ (n = worldName ∨ n ∉ bound) := by
  simp [without]

/-- The names a pattern binds. -/
def patternNames : Pattern → List String
  | .variantWithBinding _ _ x => [x]
  | _ => []

/-- The names a call depends on: the callee's, and the world if the callee is not pure. -/
def calleeNames (P : Prims W) : Option String → List String
  | none => []
  | some n => n :: if P.isPure n then [] else [worldName]

/-- The callee of a method call. -/
def methodCallee (T : Nominal) (receiver : Expr) (m : String) : Option String :=
  match receiver with
  | .var n => if T.isEnum n then none else if T.isStruct n then some (n ++ "_" ++ m) else some m
  | _ => some m

/-- The callee of a call, `none` for the builtins that are operators. -/
def callCallee (n : String) (args : List Expr) : Option String :=
  match builtinOp n args with
  | some _ => none
  | none => some n

mutual

/-- The names the evaluation of an expression depends on. -/
def exprNames (P : Prims W) (T : Nominal) : Expr → List String
  | .int _ | .float _ | .bool _ | .str _ => []
  | .var n => [n]
  | .unary _ e => exprNames P T e
  | .binary _ l r => exprNames P T l ++ exprNames P T r
  | .call n args => calleeNames P (callCallee n args) ++ argsNames P T args
  | .methodCall receiver m args =>
    calleeNames P (methodCallee T receiver m) ++ (exprNames P T receiver ++ argsNames P T args)
  | .cast e _ => exprNames P T e
  | .arrayLit es => argsNames P T es
  | .index a i => exprNames P T a ++ exprNames P T i
  | .len a => exprNames P T a
  | .ref e => exprNames P T e
  | .refMut e => exprNames P T e
  | .tuple es => argsNames P T es
  | .tupleAccess e _ => exprNames P T e
  | .structLit _ fs => fieldsNames P T fs
  | .fieldAccess e _ => exprNames P T e
  | .match_ s arms => exprNames P T s ++ armsNames P T arms
  | .ifExpr c t f => exprNames P T c ++ (exprNames P T t ++ exprNames P T f)
  | .block ss tail => blockNames P T ss (exprNames P T tail)
  | .try_ e => exprNames P T e
  | .anonFn _ _ _ => []

/-- The names of an operand list. -/
def argsNames (P : Prims W) (T : Nominal) : List Expr → List String
  | [] => []
  | e :: es => exprNames P T e ++ argsNames P T es

/-- The names of the fields of a struct literal. -/
def fieldsNames (P : Prims W) (T : Nominal) : List (String × Expr) → List String
  | [] => []
  | (_, e) :: fs => exprNames P T e ++ fieldsNames P T fs

/-- The names of match arms, without those their patterns bind. -/
def armsNames (P : Prims W) (T : Nominal) : List (Pattern × Expr) → List String
  | [] => []
  | (p, e) :: arms => without (patternNames p) (exprNames P T e) ++ armsNames P T arms

/-- The names of the expressions among print items. -/
def itemsNames (P : Prims W) (T : Nominal) : List PrintItem → List String
  | [] => []
  | .expr e :: items => exprNames P T e ++ itemsNames P T items
  | .str _ :: items => itemsNames P T items

/-- The names of block statements followed by something that depends on `tl`. -/
def blockNames (P : Prims W) (T : Nominal) : List Stmt → List String → List String
  | [], tl => tl
  | .let_ n _ e :: ss, tl =>
    exprNames P T e ++ without (if n = "_" then [] else [n]) (blockNames P T ss tl)
  | .assign n e :: ss, tl => exprNames P T e ++ (n :: blockNames P T ss tl)
  | .print items :: ss, tl => itemsNames P T items ++ blockNames P T ss tl
  | .while_ c _ body :: ss, tl =>
    exprNames P T c ++ (blockNames P T body [] ++ blockNames P T ss tl)
  | _ :: ss, tl => blockNames P T ss tl

end

/-! ## Names of operands and of calls -/

variable {P : Prims W} {T : Nominal}

attribute [local simp] blockNames argsNames fieldsNames itemsNames exprNames operands asCall

/-- What follows a block's statements depends on the world only if the block does. -/
theorem world_mem_blockNames {tl : List String} (h : worldName ∈ tl) (ss : List Stmt) :
    worldName ∈ blockNames P T ss tl := by
  induction ss with
  | nil => exact h
  | cons s ss ih => cases s <;> simp [blockNames, mem_without, ih]

/-- The fields of a struct literal, as operands. -/
theorem argsNames_map_snd (fs : List (String × Expr)) :
    argsNames P T (fs.map Prod.snd) = fieldsNames P T fs := by
  induction fs with
  | nil => rfl
  | cons f fs ih => obtain ⟨n, e⟩ := f; rw [List.map_cons, argsNames, fieldsNames, ih]

/-- The items of a print, as operands. -/
theorem argsNames_printExprs (items : List PrintItem) :
    argsNames P T (printExprs items) = itemsNames P T items := by
  induction items with
  | nil => rfl
  | cons item items ih =>
    cases item with
    | expr e => rw [printExprs, argsNames, itemsNames, ih]
    | str s => rw [printExprs, itemsNames, ih]

/-- The operands of a construct bring no new names. -/
theorem operands_names {e : Expr} {op : StrictOp} {es : List Expr}
    (h : operands T e = some (op, es)) : argsNames P T es ⊆ exprNames P T e := by
  intro n hn
  cases e with
  | unary _ e => cases h; simpa [argsNames, exprNames] using hn
  | binary op l r =>
    rw [operands] at h
    split at h
    · cases h
    · cases h; simpa [argsNames, exprNames] using hn
  | cast e ty => cases h; simpa [argsNames, exprNames] using hn
  | arrayLit es => cases h; simpa [exprNames] using hn
  | index a i => cases h; simpa [argsNames, exprNames] using hn
  | len a => cases h; simpa [argsNames, exprNames] using hn
  | ref e => cases h; simpa [argsNames, exprNames] using hn
  | refMut e => cases h; simpa [argsNames, exprNames] using hn
  | tuple es => cases h; simpa [exprNames] using hn
  | tupleAccess e i => cases h; simpa [argsNames, exprNames] using hn
  | structLit m fs => cases h; rw [argsNames_map_snd] at hn; simpa [exprNames] using hn
  | fieldAccess e f =>
    have hsub : argsNames P T es ⊆ argsNames P T [e] := by
      cases e <;> simp only [operands] at h
      case var m =>
        split at h <;> cases h
        · exact fun _ hm => absurd hm (by simp [argsNames])
        · exact fun _ hm => hm
      all_goals
        cases h
        exact fun _ hm => hm
    simpa [argsNames, exprNames] using hsub hn
  | methodCall receiver m args =>
    cases receiver <;> simp only [operands] at h
    case var x =>
      split at h <;> cases h
      simp [exprNames, hn]
    all_goals cases h
  | call m args =>
    rw [operands, Option.map_eq_some_iff] at h
    obtain ⟨op', _, hop⟩ := h
    cases hop
    simp [exprNames, hn]
  | _ => cases h

/-- Writing an argument by reference does not change its names. -/
theorem argsNames_receiver (b : Bool) (e : Expr) (args : List Expr) :
    argsNames P T ((if b then .refMut e else e) :: args) =
      exprNames P T e ++ argsNames P T args := by
  cases b <;> simp [argsNames, exprNames]

/-- The arguments of a call and its callee are among the names of the call. -/
theorem asCall_names {e : Expr} {n : String} {args : List Expr}
    (h : asCall P T e = some (n, args)) :
    calleeNames P (some n) ++ argsNames P T args ⊆ exprNames P T e := by
  cases e with
  | call m as =>
    rw [asCall] at h
    cases hb : builtinOp m as with
    | some op => rw [hb] at h; cases h
    | none =>
      rw [hb] at h
      cases h
      rw [exprNames, callCallee, hb]
      exact fun _ hm => hm
  | methodCall receiver m as =>
    have hcase : methodCallee T receiver m = some n ∧
        argsNames P T args ⊆ exprNames P T receiver ++ argsNames P T as := by
      cases receiver <;> simp only [asCall] at h
      case var x =>
        rw [methodCallee]
        split at h
        · cases h
        · next henum =>
          rw [if_neg henum]
          split at h
          · next hstruct =>
            cases h
            rw [if_pos hstruct]
            exact ⟨rfl, fun _ hm => List.mem_append_right _ hm⟩
          · next hstruct =>
            cases h
            rw [if_neg hstruct, argsNames_receiver]
            exact ⟨rfl, fun _ hm => hm⟩
      all_goals
        cases h
        rw [argsNames_receiver]
        exact ⟨rfl, fun _ hm => hm⟩
    intro x hx
    rw [exprNames, hcase.1]
    rcases List.mem_append.1 hx with hx | hx
    · exact List.mem_append_left _ hx
    · exact List.mem_append_right _ (hcase.2 hx)
  | _ => cases h

/-- The places a call lends out are among the names of its arguments. -/
theorem mutTargets_names (args : List Expr) :
    (mutTargets args).map Prod.fst ⊆ argsNames P T args := by
  induction args with
  | nil => exact fun _ hm => hm
  | cons e args ih =>
    have hskip : ∀ x, x ∈ (mutTargets args).map Prod.fst → x ∈ argsNames P T (e :: args) :=
      fun x hx => List.mem_append_right _ (ih hx)
    intro x hx
    cases e with
    | refMut inner =>
      rw [mutTargets] at hx
      cases hp : place inner with
      | none => rw [hp] at hx; exact hskip x hx
      | some p =>
        rw [hp] at hx
        rcases List.mem_cons.1 hx with hx | hx
        · refine List.mem_append_left _ ?_
          rw [exprNames]
          cases inner with
          | var m => cases hp; rw [hx]; exact List.mem_singleton.2 rfl
          | fieldAccess o f =>
            cases o with
            | var m => cases hp; rw [hx]; exact List.mem_singleton.2 rfl
            | _ => cases hp
          | _ => cases hp
        · exact hskip x hx
    | _ => exact hskip x hx

/-- What a pattern binds. -/
theorem matchPattern_names {p : Pattern} {v : Value} {bs : List (String × Value)}
    (h : matchPattern p v = some bs) : bs.map Prod.fst = patternNames p := by
  unfold matchPattern at h
  split at h <;> (try split at h) <;> cases h <;> rfl

/-- The body of the selected arm mentions what the arms mention, besides the names its
pattern binds. -/
theorem selectArm_names {arms : List (Pattern × Expr)} {v : Value}
    {bs : List (String × Value)} {body : Expr} (h : selectArm arms v = some (bs, body)) :
    ∀ n, n ∈ exprNames P T body →
      (n ∈ bs.map Prod.fst ∧ n ≠ worldName) ∨ n ∈ armsNames P T arms := by
  induction arms with
  | nil => cases h
  | cons arm arms ih =>
    obtain ⟨p, e⟩ := arm
    rw [selectArm] at h
    intro n hn
    cases hm : matchPattern p v with
    | none =>
      rw [hm] at h
      exact (ih h n hn).imp id fun hmem => List.mem_append_right _ hmem
    | some bs' =>
      rw [hm] at h
      cases h
      rw [matchPattern_names hm]
      by_cases hb : n ∈ patternNames p ∧ n ≠ worldName
      · exact .inl hb
      · refine .inr (List.mem_append_left _ (mem_without.2 ⟨hn, ?_⟩))
        tauto

end Vani.Analysis
