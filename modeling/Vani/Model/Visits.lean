import Vani.Model.Machine

/-!
# Inside an expression

Evaluation is big-step, but an element access deep inside an expression happens at a
moment of its own, in a store the operands before it may have changed, under the
environment the checker has there. A `Visit` is such a moment, and `Descends` leads from
one to the moments inside it, in evaluation order.
-/

set_option autoImplicit false

namespace Vani.Model

open Vani.Program

/-- What is about to be evaluated: an expression, operands, or the rest of a block with its
tail (the body of a `while` has none). -/
inductive Spot
  | expr (e : Expr)
  | args (es : List Expr)
  | block (ss : List Stmt) (tail : Option Expr)

/-- A moment of an evaluation, with the environment the checker has for it. -/
structure Visit (W : Type) where
  env : Env
  spot : Spot
  store : Store W

variable {W : Type}

/-- From a moment to a later one inside the same evaluation; the list has the names
assigned in between. The checker keeps the environment through assignments and loops of a
block expression, and adds the bindings of its `let`s and of patterns.
Source: checker.rs:10331-12558 -/
inductive Descends (ctx : Context) (P : Prims W) (T : Nominal) :
    Visit W → List String → Visit W → Prop
  | operands {env e op es σ} : operands T e = some (op, es) →
      Descends ctx P T ⟨env, .expr e, σ⟩ [] ⟨env, .args es, σ⟩
  | callArgs {env e n args σ} : asCall P T e = some (n, args) →
      Descends ctx P T ⟨env, .expr e, σ⟩ [] ⟨env, .args args, σ⟩
  | left {env op l r σ} : op = .and ∨ op = .or →
      Descends ctx P T ⟨env, .expr (.binary op l r), σ⟩ [] ⟨env, .expr l, σ⟩
  | right {env op l r b σ σ' w} : op = .and ∨ op = .or →
      Eval P T (.expr l) σ (.val (.scalar (.bool b))) σ' w → decides op b = false →
      Descends ctx P T ⟨env, .expr (.binary op l r), σ⟩ w ⟨env, .expr r, σ'⟩
  | cond {env c t f σ} : Descends ctx P T ⟨env, .expr (.ifExpr c t f), σ⟩ [] ⟨env, .expr c, σ⟩
  | branch {env c t f b σ σ' w} : Eval P T (.expr c) σ (.val (.scalar (.bool b))) σ' w →
      Descends ctx P T ⟨env, .expr (.ifExpr c t f), σ⟩ w
        ⟨env, .expr (if b then t else f), σ'⟩
  | scrutinee {env s arms σ} :
      Descends ctx P T ⟨env, .expr (.match_ s arms), σ⟩ [] ⟨env, .expr s, σ⟩
  -- the types are those of the payload
  | arm {env s arms bs body u σ σ' w types} : Eval P T (.expr s) σ (.val u) σ' w →
      selectArm arms u = some (bs, body) →
      Descends ctx P T ⟨env, .expr (.match_ s arms), σ⟩ w
        ⟨insertPlain env.pushScope (bs.map Prod.fst) types, .expr body, declareAll bs σ'.push⟩
  | block {env ss tail σ} : Descends ctx P T ⟨env, .expr (.block ss tail), σ⟩ []
      ⟨env.pushScope, .block ss (some tail), σ.push⟩
  | head {env e es σ} : Descends ctx P T ⟨env, .args (e :: es), σ⟩ [] ⟨env, .expr e, σ⟩
  | tail {env e es v σ σ' w} : Eval P T (.expr e) σ (.val v) σ' w →
      Descends ctx P T ⟨env, .args (e :: es), σ⟩ w ⟨env, .args es, σ'⟩
  | blockTail {env tail σ} :
      Descends ctx P T ⟨env, .block [] (some tail), σ⟩ [] ⟨env, .expr tail, σ⟩
  | letInit {env n ann e ss tail σ} :
      Descends ctx P T ⟨env, .block (.let_ n ann e :: ss) tail, σ⟩ [] ⟨env, .expr e, σ⟩
  | letRest {env n ann e ss tail v v' σ σ' w} : n ≠ "_" →
      Eval P T (.expr e) σ (.val v) σ' w → coerce P ann v = some v' →
      Descends ctx P T ⟨env, .block (.let_ n ann e :: ss) tail, σ⟩ w
        ⟨letEnv ctx ⟨env, [], false⟩ n ann e, .block ss tail, σ'.declare n v'⟩
  | discardRest {env ann e ss tail v σ σ' w} : Eval P T (.expr e) σ (.val v) σ' w →
      Descends ctx P T ⟨env, .block (.let_ "_" ann e :: ss) tail, σ⟩ w ⟨env, .block ss tail, σ'⟩
  | assignValue {env n e ss tail σ} :
      Descends ctx P T ⟨env, .block (.assign n e :: ss) tail, σ⟩ [] ⟨env, .expr e, σ⟩
  | assignRest {env n e ss tail old v v' σ σ' w} : Eval P T (.expr e) σ (.val v) σ' w →
      lookupScopes σ'.scopes n = some old → coerceLike P old v = some v' →
      Descends ctx P T ⟨env, .block (.assign n e :: ss) tail, σ⟩ (w ++ [n])
        ⟨env, .block ss tail, σ'.assign n v'⟩
  | printItems {env items ss tail σ} :
      Descends ctx P T ⟨env, .block (.print items :: ss) tail, σ⟩ []
        ⟨env, .args (printExprs items), σ⟩
  | printRest {env items ss tail vs σ σ' w} :
      Eval P T (.args (printExprs items)) σ (.vals vs) σ' w →
      Descends ctx P T ⟨env, .block (.print items :: ss) tail, σ⟩ w ⟨env, .block ss tail, σ'⟩
  | whileCond {env c invs body ss tail σ} :
      Descends ctx P T ⟨env, .block (.while_ c invs body :: ss) tail, σ⟩ [] ⟨env, .expr c, σ⟩
  | whileBody {env c invs body ss tail σ σ' w} : onlyWrites body = true →
      Eval P T (.expr c) σ (.val (.scalar (.bool true))) σ' w →
      Descends ctx P T ⟨env, .block (.while_ c invs body :: ss) tail, σ⟩ w
        ⟨env, .block body none, σ'⟩
  | whileAgain {env c invs body ss tail σ σ' σ'' w w'} : onlyWrites body = true →
      Eval P T (.expr c) σ (.val (.scalar (.bool true))) σ' w →
      Eval P T (.stmts body) σ' .done σ'' w' →
      Descends ctx P T ⟨env, .block (.while_ c invs body :: ss) tail, σ⟩ (w ++ w')
        ⟨env, .block (.while_ c invs body :: ss) tail, σ''⟩
  | whileRest {env c invs body ss tail σ σ' w} :
      Eval P T (.expr c) σ (.val (.scalar (.bool false))) σ' w →
      Descends ctx P T ⟨env, .block (.while_ c invs body :: ss) tail, σ⟩ w
        ⟨env, .block ss tail, σ'⟩

/-- The moments inside a moment, along descents that meet the condition `K`. -/
inductive Visits (ctx : Context) (P : Prims W) (T : Nominal)
    (K : Visit W → List String → Prop) (v₀ : Visit W) : Visit W → Prop
  | start : Visits ctx P T K v₀ v₀
  | step {v w v'} : Visits ctx P T K v₀ v → K v w → Descends ctx P T v w v' →
      Visits ctx P T K v₀ v'

/-- The expressions a statement evaluates before anything else happens; the condition of a
`while` is evaluated at its head, and a `prove` is not executed. -/
def stmtOperands : Stmt → List Expr
  | .let_ _ _ e | .letTuple _ _ e | .return_ e | .assert e _ | .assign _ e => [e]
  | .print items => printExprs items
  | .if_ c _ _ => [c]
  | .indexAssign _ i _ v => [i, v]
  | .fieldAssign _ _ v => [v]
  | .for_ _ s e _ _ _ _ => [s, e]
  | _ => []

/-- The first moment of the evaluations a configuration is about to perform. -/
inductive Enters : Config W → Visit W → Prop
  | stmt {st s rest frs σ} :
      Enters ⟨.point ⟨st, s :: rest⟩, frs, σ⟩ ⟨st.env, .args (stmtOperands s), σ⟩
  | cond {st c invs body rest frs σ} :
      Enters ⟨.head (.while_ st c invs body rest), frs, σ⟩ ⟨st.env, .args [c], σ⟩

end Vani.Model
