import Vani.Program.ConstFold

/-!
# The fact list

The verifier keeps a list of boolean expressions that are taken to hold at the current
program point. This file has the operations on single facts: does a fact mention a
name, pin a name to an array version, substitute, negate; and the facts recorded for a
`let`. They follow the source form by form: inside a block expression only the
initialisers of its `let`s and its tail are visited.
-/

set_option autoImplicit false

namespace Vani.Program

mutual

/-- Source: checker.rs:22752-22813 -/
def exprMentions (name : String) : Expr → Bool
  | .var n => n == name
  | .int _ | .float _ | .bool _ | .str _ => false
  | .unary _ e => exprMentions name e
  | .binary _ l r => exprMentions name l || exprMentions name r
  | .cast e _ => exprMentions name e
  | .call _ args => anyMentions name args
  | .methodCall receiver _ args => exprMentions name receiver || anyMentions name args
  | .arrayLit es => anyMentions name es
  | .index a i => exprMentions name a || exprMentions name i
  | .len a => exprMentions name a
  | .ref e | .refMut e => exprMentions name e
  | .tuple es => anyMentions name es
  | .tupleAccess e _ => exprMentions name e
  | .structLit _ fs => anyFieldMentions name fs
  | .fieldAccess e _ => exprMentions name e
  | .match_ s arms => exprMentions name s || anyArmMentions name arms
  | .ifExpr c t f => exprMentions name c || exprMentions name t || exprMentions name f
  | .block ss tail => anyLetMentions name ss || exprMentions name tail
  | .try_ e => exprMentions name e
  | .anonFn _ _ _ => false

/-- `args.iter().any(|a| expr_mentions(a, name))` -/
def anyMentions (name : String) : List Expr → Bool
  | [] => false
  | e :: es => exprMentions name e || anyMentions name es

/-- The same over the fields of a struct literal. -/
def anyFieldMentions (name : String) : List (String × Expr) → Bool
  | [] => false
  | (_, e) :: fs => exprMentions name e || anyFieldMentions name fs

/-- The same over match arms. -/
def anyArmMentions (name : String) : List (Pattern × Expr) → Bool
  | [] => false
  | (_, e) :: arms => exprMentions name e || anyArmMentions name arms

/-- The same over the `let`s of a block. -/
def anyLetMentions (name : String) : List Stmt → Bool
  | [] => false
  | .let_ _ _ e :: ss => exprMentions name e || anyLetMentions name ss
  | _ :: ss => anyLetMentions name ss

end

/-- Source: checker.rs:23472-23474 -/
def dropFactsMentioning (name : String) (smtFacts : List Expr) : List Expr :=
  smtFacts.filter fun f => !exprMentions name f

/-- The name `n#v` of an earlier content of an array. -/
def versioned (name : String) (version : Nat) : String := name ++ "#" ++ toString version

mutual

/-- Source: checker.rs:23484-23569. A source name never contains `#`, so a versioned
name is never pinned again. -/
def pinVarToVersion (name : String) (version : Nat) : Expr → Expr
  | .var n => if n = name then .var (versioned name version) else .var n
  | .int v => .int v
  | .float b => .float b
  | .bool b => .bool b
  | .str s => .str s
  | .unary op e => .unary op (pinVarToVersion name version e)
  | .binary op l r =>
    .binary op (pinVarToVersion name version l) (pinVarToVersion name version r)
  | .cast e ty => .cast (pinVarToVersion name version e) ty
  | .call f args => .call f (pinAll name version args)
  | .methodCall receiver m args =>
    .methodCall (pinVarToVersion name version receiver) m (pinAll name version args)
  | .arrayLit es => .arrayLit (pinAll name version es)
  | .index a i => .index (pinVarToVersion name version a) (pinVarToVersion name version i)
  | .len a => .len (pinVarToVersion name version a)
  | .ref e => .ref (pinVarToVersion name version e)
  | .refMut e => .refMut (pinVarToVersion name version e)
  | .tuple es => .tuple (pinAll name version es)
  | .tupleAccess e i => .tupleAccess (pinVarToVersion name version e) i
  | .structLit n fs => .structLit n (pinFields name version fs)
  | .fieldAccess e f => .fieldAccess (pinVarToVersion name version e) f
  | .match_ s arms => .match_ (pinVarToVersion name version s) (pinArms name version arms)
  | .ifExpr c t f =>
    .ifExpr (pinVarToVersion name version c) (pinVarToVersion name version t)
      (pinVarToVersion name version f)
  | .block ss tail => .block (pinLets name version ss) (pinVarToVersion name version tail)
  | .try_ e => .try_ (pinVarToVersion name version e)
  | .anonFn ps r body => .anonFn ps r body

/-- `pinVarToVersion` on a list. -/
def pinAll (name : String) (version : Nat) : List Expr → List Expr
  | [] => []
  | e :: es => pinVarToVersion name version e :: pinAll name version es

/-- `pinVarToVersion` on the fields of a struct literal. -/
def pinFields (name : String) (version : Nat) : List (String × Expr) → List (String × Expr)
  | [] => []
  | (f, e) :: fs => (f, pinVarToVersion name version e) :: pinFields name version fs

/-- `pinVarToVersion` on match arms. -/
def pinArms (name : String) (version : Nat) : List (Pattern × Expr) → List (Pattern × Expr)
  | [] => []
  | (p, e) :: arms => (p, pinVarToVersion name version e) :: pinArms name version arms

/-- `pinVarToVersion` on the `let`s of a block. -/
def pinLets (name : String) (version : Nat) : List Stmt → List Stmt
  | [] => []
  | .let_ n ann e :: ss => .let_ n ann (pinVarToVersion name version e) :: pinLets name version ss
  | s :: ss => s :: pinLets name version ss

end

/-- A substitution: replacement expressions for names. -/
abbrev Subs : Type := List (String × Expr)

mutual

/-- Source: checker.rs:22573-22696 -/
def substituteExpr (subs : Subs) : Expr → Expr
  | .var n => (subs.lookup n).getD (.var n)
  | .int v => .int v
  | .float b => .float b
  | .bool b => .bool b
  | .str s => .str s
  | .unary op e => .unary op (substituteExpr subs e)
  | .binary op l r => .binary op (substituteExpr subs l) (substituteExpr subs r)
  | .cast e ty => .cast (substituteExpr subs e) ty
  | .call f args => .call f (substituteAll subs args)
  | .methodCall receiver m args =>
    .methodCall (substituteExpr subs receiver) m (substituteAll subs args)
  | .arrayLit es => .arrayLit (substituteAll subs es)
  | .index a i => .index (substituteExpr subs a) (substituteExpr subs i)
  | .len a => .len (substituteExpr subs a)
  | .ref e => .ref (substituteExpr subs e)
  | .refMut e => .refMut (substituteExpr subs e)
  | .tuple es => .tuple (substituteAll subs es)
  | .tupleAccess e i => .tupleAccess (substituteExpr subs e) i
  | .structLit n fs => .structLit n (substituteFields subs fs)
  | .fieldAccess e f => .fieldAccess (substituteExpr subs e) f
  | .match_ s arms => .match_ (substituteExpr subs s) (substituteArms subs arms)
  | .ifExpr c t f =>
    .ifExpr (substituteExpr subs c) (substituteExpr subs t) (substituteExpr subs f)
  | .block ss tail => .block (substituteLets subs ss) (substituteExpr subs tail)
  | .try_ e => .try_ (substituteExpr subs e)
  | .anonFn ps r body => .anonFn ps r body

/-- `substituteExpr` on a list. -/
def substituteAll (subs : Subs) : List Expr → List Expr
  | [] => []
  | e :: es => substituteExpr subs e :: substituteAll subs es

/-- `substituteExpr` on the fields of a struct literal. -/
def substituteFields (subs : Subs) : List (String × Expr) → List (String × Expr)
  | [] => []
  | (f, e) :: fs => (f, substituteExpr subs e) :: substituteFields subs fs

/-- `substituteExpr` on match arms. -/
def substituteArms (subs : Subs) : List (Pattern × Expr) → List (Pattern × Expr)
  | [] => []
  | (p, e) :: arms => (p, substituteExpr subs e) :: substituteArms subs arms

/-- `substituteExpr` on the `let`s of a block. -/
def substituteLets (subs : Subs) : List Stmt → List Stmt
  | [] => []
  | .let_ n ann e :: ss => .let_ n ann (substituteExpr subs e) :: substituteLets subs ss
  | s :: ss => s :: substituteLets subs ss

end

/-- The comparison that holds exactly when the given one does not.
Source: checker.rs:23611-23619 -/
def flipComparison : BinaryOp → Option BinaryOp
  | .eq => some .ne
  | .ne => some .eq
  | .lt => some .ge
  | .le => some .gt
  | .gt => some .le
  | .ge => some .lt
  | _ => none

/-- Source: checker.rs:23603-23646 -/
def negate : Expr → Expr
  | .unary .not inner => inner
  | .bool v => .bool (!v)
  | .binary op l r => match flipComparison op with
    | some flipped => .binary flipped l r
    | none => .unary .not (.binary op l r)
  | e => .unary .not e

/-- Strip borrows down to a variable. Source: checker.rs:23973-23979 -/
def unwrapToVar : Expr → Option String
  | .var n => some n
  | .ref e | .refMut e => unwrapToVar e
  | _ => none

/-- `a == b` as a fact. -/
def eqFact (a b : Expr) : Expr := .binary .eq a b

/-- `<var>[k] == elements[k]` for every `k`, from slot `i` on.
Source: checker.rs:23938-23967 -/
def arrayElementFacts (letVar : String) : Nat → List Expr → List Expr
  | _, [] => []
  | i, e :: es =>
    eqFact (.index (.var letVar) (.int i)) e :: arrayElementFacts letVar (i + 1) es

/-- The equation `new = store old k v` between array versions. -/
def storeEqFact (new old : String) (k v : Expr) : Expr :=
  .call "__smt_store_eq" [.var new, .var old, k, v]

/-- The equation between two arrays. -/
def arrayEqFact (a b : String) : Expr := .call "__smt_array_eq" [.var a, .var b]

/-- Source: checker.rs:23981-24192 -/
def vecBuiltinFacts (callName : String) (args : List Expr) (letVar : String) : List Expr :=
  let lenVar := Expr.len (.var letVar)
  match callName, args with
  | "vec", args => eqFact lenVar (.int args.length) :: arrayElementFacts letVar 0 args
  | "push", [xs, v] =>
    [eqFact lenVar (.binary .add (.len xs) (.int 1)),
      eqFact (.index (.var letVar) (.len xs)) v] ++
    match unwrapToVar xs with
    | some base => [storeEqFact letVar base (.len xs) v]
    | none => []
  | "clone", [xs] =>
    eqFact lenVar (.len xs) ::
    match unwrapToVar xs with
    | some base => [arrayEqFact letVar base]
    | none => []
  | "set", [xs, i, v] =>
    [eqFact lenVar (.len xs), eqFact (.index (.var letVar) i) v] ++
    match unwrapToVar xs with
    | some base => [storeEqFact letVar base i v]
    | none => []
  | _, _ => []

/-- What the checker keeps of a callee's declaration. Source: checker.rs:174-199 -/
structure Signature where
  paramNames : List String
  returnType : Ty
  requires : List Expr
  ensures : List Expr
  isPure : Bool

/-- The name of the result inside `ensures` clauses. Source: checker.rs:203 -/
def returnName : String := "_return"

/-- The clauses of the callee with the arguments for its parameters and the new binding
for `_return`. Source: checker.rs:24197-24225 -/
def ensuresFacts (signatures : String → Option Signature) (callName : String)
    (args : List Expr) (letVar : String) : List Expr :=
  match signatures callName with
  | none => []
  | some sig =>
    if sig.ensures.isEmpty || args.length != sig.paramNames.length then []
    else
      let subs := (returnName, Expr.var letVar) :: sig.paramNames.zip args
      sig.ensures.map (substituteExpr subs)

/-- Does the list contain a `break` of this loop? Source: checker.rs:23583-23597 -/
def containsBreak : List Stmt → Bool
  | [] => false
  | .break_ :: _ => true
  | .if_ _ thenBody elseBody :: rest =>
    containsBreak thenBody || containsBreak elseBody || containsBreak rest
  | _ :: rest => containsBreak rest

end Vani.Program
