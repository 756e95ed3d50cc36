import Vani.Analysis.Holds
import Vani.Analysis.Inversion
import Vani.Program.Check

/-!
# Facts that become true

The facts a statement adds, and the conditions under which they are true of the store it
leaves: the negated condition of a branch not taken, the equations recorded for a `let`,
and those for an element assignment.
-/

set_option autoImplicit false

namespace Vani.Analysis

open Vani.Program Vani.Model

variable {W : Type} {P : Prims W} {T : Nominal} {σ σ' τ : Store W}

/-! ## Evaluation without effect -/

theorem ScopesWrite.eq_of_nil {ss ss' : List Scope} (h : ScopesWrite [] ss ss') : ss' = ss := by
  generalize hw : ([] : List String) = w at h
  induction h with
  | nil => rfl
  | cons hs _ ih =>
    subst hw
    rw [ih rfl, show _ = _ from funext fun n => hs.keep n List.not_mem_nil]

/-- Writing nothing changes nothing. -/
theorem Writes.eq_of_nil (h : Writes [] σ σ') : σ' = σ := by
  have hscopes : σ'.scopes = σ.scopes := h.scopes.eq_of_nil
  have hghosts : σ'.ghosts = σ.ghosts := funext fun n => h.ghosts n List.not_mem_nil
  cases σ
  cases σ'
  simp only [Store.mk.injEq]
  exact ⟨hscopes, hghosts, h.world List.not_mem_nil⟩

/-- The expression has the value, and evaluating it assigns nothing. -/
def Gives (P : Prims W) (T : Nominal) (σ : Store W) (e : Expr) (v : Value) : Prop :=
  Eval P T (.expr e) σ (.val v) σ []

/-- An evaluation that assigns nothing. -/
theorem Eval.gives {e : Expr} {v : Value} (h : Eval P T (.expr e) σ (.val v) σ' []) :
    σ' = σ ∧ Gives P T σ e v := by
  have hσ : σ' = σ := Writes.eq_of_nil (Eval.writes h)
  subst hσ
  exact ⟨rfl, h⟩

namespace Gives

theorem evalsTrue {e : Expr} (h : Gives P T σ e (.scalar (.bool true))) : EvalsTrue P T σ e :=
  ⟨σ, [], h⟩

theorem transfer {e : Expr} {v : Value} (h : Gives P T σ e v) (hsame : SameFor P T e σ τ) :
    Gives P T τ e v := by
  obtain ⟨τ', hτ⟩ := hsame.eval h
  obtain ⟨rfl, hg⟩ := Eval.gives hτ
  exact hg

theorem int (n : Int) :
    Gives P T σ (.int n) (.scalar (.int (if n ≤ IntTy.maxValue .i64 then .i64 else .u64) true n)) :=
  .literal rfl

theorem var {n : String} {v : Value} (h : σ.lookup n = some v) : Gives P T σ (.var n) v :=
  Eval.var h

/-- One operand. -/
theorem strict_one {e a : Expr} {op : StrictOp} {u v : Value}
    (hop : operands T e = some (op, [a])) (ha : Gives P T σ a u)
    (happ : op.apply P [u] = some v) : Gives P T σ e v :=
  .strict hop (.argsCons ha .argsNil) happ

/-- Two operands. -/
theorem strict_two {e a b : Expr} {op : StrictOp} {u u' v : Value}
    (hop : operands T e = some (op, [a, b])) (ha : Gives P T σ a u) (hb : Gives P T σ b u')
    (happ : op.apply P [u, u'] = some v) : Gives P T σ e v :=
  .strict hop (.argsCons ha (.argsCons hb .argsNil)) happ

/-- An equation between values that compare equal. -/
theorem eqFact {a b : Expr} {u v : Value} (ha : Gives P T σ a u) (hb : Gives P T σ b v)
    (heq : P.runBinary .eq u v = some (.scalar (.bool true))) :
    Gives P T σ (eqFact a b) (.scalar (.bool true)) :=
  have hop : operands T (Program.eqFact a b) = some (.binary .eq, [a, b]) := by
    simp [Program.eqFact, operands]
  strict_two hop ha hb heq

theorem len {a : Expr} {vs : List Value} (ha : Gives P T σ a (.seq vs)) :
    Gives P T σ (.len a) (.scalar (.int .u64 false vs.length)) :=
  strict_one rfl ha rfl

theorem index {a i : Expr} {vs : List Value} {t : IntTy} {b : Bool} {k : Nat} {v : Value}
    (ha : Gives P T σ a (.seq vs)) (hi : Gives P T σ i (.scalar (.int t b k)))
    (hv : vs[k]? = some v) : Gives P T σ (.index a i) v :=
  strict_two rfl ha hi (by simp [StrictOp.apply, hv])

end Gives

/-- The operands of an evaluation that assigns nothing. -/
theorem Eval.gives_args {es : List Expr} {vs : List Value}
    (h : Eval P T (.args es) σ (.vals vs) σ' []) :
    σ' = σ ∧ List.Forall₂ (Gives P T σ) es vs := by
  induction es generalizing σ vs with
  | nil => cases h; exact ⟨rfl, .nil⟩
  | cons e es ih =>
    generalize hw : ([] : List String) = w'' at h
    cases h with
    | argsCons he hes =>
      obtain ⟨rfl, rfl⟩ := List.append_eq_nil_iff.1 hw.symm
      obtain ⟨rfl, hgive⟩ := Eval.gives he
      obtain ⟨rfl, hrest⟩ := ih hes
      exact ⟨rfl, .cons hgive hrest⟩

/-! ## Comparisons and their negations -/

theorem runBinary_compare {op : BinaryOp} {t t' : IntTy} {b b' : Bool} {x y : Int} {r : Bool}
    (h : compareIntegers op x y = some r) :
    P.runBinary op (.scalar (.int t b x)) (.scalar (.int t' b' y)) =
      some (.scalar (.bool r)) := by
  cases op <;> simp [compareIntegers] at h <;>
    simp [Prims.runBinary, Prims.orElse, foldBinary, compareIntegers, h]

/-- Equality of integers does not look at their types. -/
theorem runBinary_eq_int {t t' : IntTy} {b b' : Bool} {x : Int} :
    P.runBinary .eq (.scalar (.int t b x)) (.scalar (.int t' b' x)) =
      some (.scalar (.bool true)) :=
  runBinary_compare (by simp [compareIntegers])

/-- The operands of a comparison are comparable: not two floats of which one is NaN.
Integers, booleans, strings and compound values always are. -/
def Comparable (P : Prims W) (op flipped : BinaryOp) (a b : Value) : Prop :=
  match a, b with
  | .scalar (.int _ _ _), .scalar (.int _ _ _) => True
  | .scalar (.bool _), .scalar (.bool _) => True
  | .scalar _, .scalar _ => P.runBinary op a b = some (.scalar (.bool false)) →
      P.runBinary flipped a b = some (.scalar (.bool true))
  | _, _ => True

/-- The flipped comparison is true where the comparison is false. -/
theorem runBinary_flip {op flipped : BinaryOp} {a b : Value}
    (hflip : flipComparison op = some flipped) (hcomp : Comparable P op flipped a b)
    (h : P.runBinary op a b = some (.scalar (.bool false))) :
    P.runBinary flipped a b = some (.scalar (.bool true)) := by
  unfold Comparable at hcomp
  split at hcomp
  · next t bx x t' by' y =>
    have hex : ∃ r, compareIntegers op x y = some r := by
      cases op <;> simp [flipComparison] at hflip <;> exact ⟨_, rfl⟩
    obtain ⟨r, hr⟩ := hex
    rw [runBinary_compare hr] at h
    refine runBinary_compare ?_
    have hfalse : r = false := by simpa using h
    subst hfalse
    cases op <;> simp [flipComparison] at hflip <;> subst hflip <;>
      simp [compareIntegers] at hr ⊢ <;> omega
  · cases op <;> simp [flipComparison] at hflip <;> subst hflip <;>
      simp_all [Prims.runBinary, foldBinary]
  · exact hcomp h
  · -- no two scalars: strings are ordered, compound values have equality only
    cases op <;> simp [flipComparison] at hflip <;> subst hflip <;>
      cases a <;> cases b <;> simp_all [Prims.runBinary]

/-- Where the condition is an ordering, its operands are comparable. -/
def NegationSafe (P : Prims W) (T : Nominal) (σ : Store W) (c : Expr) : Prop :=
  ∀ op l r flipped, c = .binary op l r → flipComparison op = some flipped →
    ∀ a b σ' w, Eval P T (.args [l, r]) σ (.vals [a, b]) σ' w → Comparable P op flipped a b

/-- Only `true` is negated to `false`. -/
theorem runUnary_not_false {v : Value}
    (h : P.runUnary .not v = some (.scalar (.bool false))) : v = .scalar (.bool true) := by
  cases v with
  | scalar s => cases s <;> simp [Prims.runUnary] at h; rw [h]
  | _ => simp [Prims.runUnary] at h

/-- A condition that comes out false has a true negation. -/
theorem negate_true {c : Expr} {w : List String}
    (h : Eval P T (.expr c) σ (.val (.scalar (.bool false))) σ' w)
    (hsafe : NegationSafe P T σ c) : EvalsTrue P T σ (negate c) := by
  have hnot : EvalsTrue P T σ (.unary .not c) :=
    ⟨σ', w ++ [], .strict rfl (.argsCons h .argsNil) rfl⟩
  unfold negate
  split
  · next inner =>
    obtain ⟨u, hu, happ⟩ := Eval.strict_one_inv h rfl
    rw [runUnary_not_false happ] at hu
    exact ⟨σ', w, hu⟩
  · cases h with
    | literal hlit => cases hlit; exact ⟨σ, [], .literal rfl⟩
    | strict hop _ _ => cases hop
    | pureCall hcall _ _ _ _ => cases hcall
    | call hcall _ _ _ _ => cases hcall
  · next op l r =>
    split
    · next flipped hflip =>
      -- the operands of a comparison are evaluated once, and compared the other way
      have hop : operands T (.binary op l r) = some (.binary op, [l, r]) := by
        cases op <;> simp [flipComparison] at hflip <;> simp [operands]
      have hop' : operands T (.binary flipped l r) = some (.binary flipped, [l, r]) := by
        cases op <;> simp [flipComparison] at hflip <;> subst hflip <;> simp [operands]
      obtain ⟨vs, v, hr, hargs, happ⟩ := Eval.strict_inv h hop
      cases hr
      obtain ⟨a, b, rfl⟩ : ∃ a b, vs = [a, b] := by
        cases hargs with
        | argsCons _ hb => cases hb with
          | argsCons _ hnil => cases hnil; exact ⟨_, _, rfl⟩
      have hcomp := hsafe op l r flipped rfl hflip a b _ _ hargs
      exact ⟨σ', w, .strict hop' hargs (runBinary_flip hflip hcomp happ)⟩
    · exact hnot
  · exact hnot

/-! ## Equality of contents -/

mutual

/-- A value equals itself, bit for bit. -/
theorem same_refl : ∀ v, Value.same v v = true
  | .scalar s => by cases s <;> simp [Value.same, Value.eqv, Value.eqvScalar]
  | .str _ => by simp [Value.same, Value.eqv]
  | .seq vs => sameList_refl vs
  | .tuple vs => sameList_refl vs
  | .struct n fs => by
    rw [Value.same, Value.eqv, Bool.and_eq_true]
    exact ⟨beq_self_eq_true n, sameFields_refl fs⟩
  | .enum e v ps => by
    rw [Value.same, Value.eqv, Bool.and_eq_true, Bool.and_eq_true]
    exact ⟨⟨beq_self_eq_true e, beq_self_eq_true v⟩, sameList_refl ps⟩
  | .fn _ => by simp [Value.same, Value.eqv]
  | .handle _ => by simp [Value.same, Value.eqv]

theorem sameList_refl : ∀ vs, Value.eqvList (fun x y => x == y) vs vs = true
  | [] => rfl
  | v :: vs => by
    rw [Value.eqvList, Bool.and_eq_true]
    exact ⟨same_refl v, sameList_refl vs⟩

theorem sameFields_refl : ∀ fs, Value.eqvFields (fun x y => x == y) fs fs = true
  | [] => rfl
  | (f, v) :: fs => by
    rw [Value.eqvFields, Bool.and_eq_true, Bool.and_eq_true]
    exact ⟨⟨beq_self_eq_true f, same_refl v⟩, sameFields_refl fs⟩

end

/-- Settling a value does not change its contents. -/
theorem same_settle (v : Value) : Value.same v.settle v = true := by
  cases v with
  | scalar s => cases s <;> simp [Value.same, Value.settle, Scalar.settle, Value.eqv, Value.eqvScalar]
  | _ => exact same_refl _

/-- A list is the store of another when it is so slot by slot. -/
theorem isStore_of {new old : List Value} {k : Int} {v : Value}
    (h : ∀ (j : Nat) x, new[j]? = some x →
      if (j : Int) = k then Value.same x v = true
      else ∃ y, old[j]? = some y ∧ Value.same x y = true) :
    Value.isStore new old k v = true := by
  rw [Value.isStore, List.all_eq_true]
  intro j hj
  have hlt : j < new.length := List.mem_range.1 hj
  have hx : new[j]? = some new[j] := List.getElem?_eq_getElem hlt
  have hj := h j _ hx
  simp only [hx]
  split
  · next hk => rwa [if_pos hk] at hj
  · next hk =>
    rw [if_neg hk] at hj
    obtain ⟨y, hy, hsame⟩ := hj
    simp only [hy, hsame]

/-- Overwriting a slot is the store of the new value. -/
theorem isStore_set {vs : List Value} {k : Nat} {x v : Value} (hv : Value.same x v = true) :
    Value.isStore (vs.set k x) vs k v = true := by
  refine isStore_of fun j y hj => ?_
  by_cases hjk : j = k
  · subst hjk
    rw [if_pos rfl]
    rw [List.getElem?_set_self' ] at hj
    cases hvs : vs[j]? <;> simp [hvs] at hj
    exact hj ▸ hv
  · rw [if_neg (by exact_mod_cast hjk)]
    rw [List.getElem?_set_ne (Ne.symm hjk)] at hj
    exact ⟨y, hj, same_refl y⟩

/-- So is appending a value at the end. -/
theorem isStore_append {vs : List Value} {x v : Value} (hv : Value.same x v = true) :
    Value.isStore (vs ++ [x]) vs vs.length v = true := by
  refine isStore_of fun j y hj => ?_
  rcases Nat.lt_trichotomy j vs.length with hlt | heq | hgt
  · rw [if_neg (by omega)]
    rw [List.getElem?_append_left hlt] at hj
    exact ⟨y, hj, same_refl y⟩
  · subst heq
    rw [if_pos rfl]
    simp at hj
    exact hj ▸ hv
  · rw [List.getElem?_eq_none (by simp; omega)] at hj
    cases hj

end Vani.Analysis
