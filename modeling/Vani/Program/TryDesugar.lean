import Vani.Program.TypeDecls

/-!
# Try-lets and guards

`let v = try e;` leaves the function early with the empty variant of its return type, or
binds the payload. The checker rewrites it before anything is typed: the statements after it
move into the arm of a match on `e`. A function with a `try` has its guards, the statements
`if cond { return x; }`, turned into matches first, so that only statements are left that
may stand in a block expression.
-/

set_option autoImplicit false

namespace Vani.Program

/-! ## Where a try is -/

mutual

/-- Source: checker.rs:4811-4848 -/
def exprContainsTry : Expr → Bool
  | .try_ _ => true
  | .block stmts tail => bodyContainsTry stmts || exprContainsTry tail
  | .ifExpr cond thenValue elseValue =>
    exprContainsTry cond || exprContainsTry thenValue || exprContainsTry elseValue
  | .match_ scrutinee arms => exprContainsTry scrutinee || armsContainTry arms
  | .call _ args | .arrayLit args => exprsContainTry args
  | .binary _ left right => exprContainsTry left || exprContainsTry right
  | .unary _ e | .cast e _ => exprContainsTry e
  | .methodCall receiver _ args => exprContainsTry receiver || exprsContainTry args
  | _ => false

def exprsContainTry : List Expr → Bool
  | [] => false
  | e :: es => exprContainsTry e || exprsContainTry es

def armsContainTry : List (Pattern × Expr) → Bool
  | [] => false
  | (_, e) :: arms => exprContainsTry e || armsContainTry arms

/-- Source: checker.rs:4787-4809 -/
def stmtContainsTry : Stmt → Bool
  | .let_ _ _ e | .letTuple _ _ e | .return_ e | .assert e _ | .prove e | .assign _ e =>
    exprContainsTry e
  | .if_ cond thenBody elseBody =>
    exprContainsTry cond || bodyContainsTry thenBody || bodyContainsTry elseBody
  | .while_ cond _ body => exprContainsTry cond || bodyContainsTry body
  | .for_ _ _ _ _ body _ _ | .forIter _ _ _ body | .taskSpawn _ body => bodyContainsTry body
  | _ => false

/-- Source: checker.rs:4783-4785 -/
def bodyContainsTry : List Stmt → Bool
  | [] => false
  | s :: ss => stmtContainsTry s || bodyContainsTry ss

end

/-! ## Guards -/

/-- Rewrite the bodies inside a statement. -/
def inBodies (rewrite : List Stmt → List Stmt) : Stmt → Stmt
  | .if_ cond thenBody elseBody => .if_ cond (rewrite thenBody) (rewrite elseBody)
  | .while_ cond invariants body => .while_ cond invariants (rewrite body)
  | .for_ var start end_ invariants body parallel reductions =>
    .for_ var start end_ invariants (rewrite body) parallel reductions
  | .forIter var collection consumes body => .forIter var collection consumes (rewrite body)
  | .taskSpawn name body => .taskSpawn name (rewrite body)
  | s => s

/-- The first guard of a list, with the statements before it and those after it.
Source: checker.rs:4892-4916 -/
def splitGuard : List Stmt → Option (List Stmt × Expr × Expr × List Stmt)
  | [] => none
  | .if_ cond [.return_ x] [] :: rest => some ([], cond, x, rest)
  | s :: rest => (splitGuard rest).map fun (front, cond, x, between) =>
      (s :: front, cond, x, between)

/-- Fold the first guard and what follows it into a match, where the list ends in a return.
Source: checker.rs:4882-4959 -/
def foldGuard (body : List Stmt) : Option (List Stmt) :=
  match body.getLast? with
  | some (.return_ y) =>
    (splitGuard body.dropLast).map fun (front, cond, x, between) =>
      front ++ [.return_ (.match_ cond
        [(.bool true, x), (.bool false, if between.isEmpty then y else .block between y)])]
  | _ => none

/-- The rewriting of guards, with a bound on the depth of its calls.
Source: checker.rs:4866-4964 -/
def rewriteGuardIfs : Nat → List Stmt → List Stmt
  | 0, body => body
  | fuel + 1, body =>
    let inner := body.map (inBodies (rewriteGuardIfs fuel))
    match foldGuard inner with
    | some shorter => rewriteGuardIfs fuel shorter
    | none => inner

mutual

/-- The statements in a statement, those in expressions not counted. -/
def countStmt : Stmt → Nat
  | .if_ _ thenBody elseBody => countStmts thenBody + countStmts elseBody + 1
  | .while_ _ _ body | .for_ _ _ _ _ body _ _ | .forIter _ _ _ body | .taskSpawn _ body =>
    countStmts body + 1
  | _ => 1

def countStmts : List Stmt → Nat
  | [] => 0
  | s :: ss => countStmt s + countStmts ss

end

/-! ## Try-lets -/

/-- `__try_v_<n>` -/
def tryName (n : Nat) : String := "__try_v_" ++ toString n

def isTryLet : Stmt → Bool
  | .let_ _ _ (.try_ _) => true
  | _ => false

/-- What may stand between a try-let and the return. Source: checker.rs:5048-5056 -/
def blockVocabulary : Stmt → Bool
  | .let_ .. | .print _ | .assign .. | .while_ .. => true
  | _ => false

/-- The enum a function returns, its variant with a payload and the one without. -/
structure EarlyReturn where
  enumName : String
  someVariant : String
  noneVariant : String

/-- Source: checker.rs:5068-5074 -/
def onlyLetPrintAssign : String :=
  "`try` desugar in v1 requires only `let`, `print`, and reassignment statements between the " ++
    "`try`-let and the final `return`; control flow (if/while/for) isn't supported yet (T2.6 " ++
    "phase 2 follow-up)"

/-- Source: checker.rs:5089-5096 -/
def returnsNoEnum (returnType : Ty) : String :=
  "`try` requires the enclosing function's return type to be an enum; got " ++ returnType.display

/-- Source: checker.rs:5115-5125 -/
def variantCounts (enumName : String) (payloaded payloadless : Nat) : String :=
  "`try` requires the enum '" ++ enumName ++ "' to have exactly one payloaded variant and one " ++
    "payload-less variant; got " ++ toString payloaded ++ " payloaded and " ++
    toString payloadless ++ " payload-less"

/-- `enum_by_name.get`, where a later declaration replaces an earlier one.
Source: checker.rs:4739-4745 -/
def enumByName (enums : List EnumDecl) (name : String) : Option EnumDecl :=
  (enums.filter (·.name = name)).getLast?

/-- The variants to leave and to go on with. An enum that is not declared is passed over.
Source: checker.rs:5086-5127 -/
def returnVariants (enums : List EnumDecl) : Ty → Except String (Option EarlyReturn)
  | .enum name =>
    match enumByName enums name with
    | none => .ok none
    | some decl =>
      let payloaded := decl.variants.filter fun v => !v.payload.isEmpty
      let payloadless := decl.variants.filter fun v => v.payload.isEmpty
      match payloaded, payloadless with
      | [some_], [none_] => .ok (some ⟨name, some_.name, none_.name⟩)
      | _, _ => .error (variantCounts name payloaded.length payloadless.length)
  | ty => .error (returnsNoEnum ty)

/-- The statements up to the first try-let, and the value of the block: a match whose first
arm goes on with the rest, rewritten in the same way. Source: checker.rs:5161-5254 -/
def tryRewriteBlockStmts (r : EarlyReturn) : List Stmt → Expr → Nat → List Stmt × Expr × Nat
  | [], tail, counter => ([], tail, counter)
  | .let_ name ann (.try_ inner) :: after, tail, counter =>
    let (stmts, tail, counter') := tryRewriteBlockStmts r after tail (counter + 1)
    ([], .match_ inner
      [(.variantWithBinding r.enumName r.someVariant (tryName counter),
          .block (.let_ name ann (.var (tryName counter)) :: stmts) tail),
        (.variant r.enumName r.noneVariant, .fieldAccess (.var r.enumName) r.noneVariant)],
      counter')
  | s :: ss, tail, counter =>
    let (stmts, tail, counter') := tryRewriteBlockStmts r ss tail counter
    (s :: stmts, tail, counter')

/-- The counter for names and the messages so far. -/
structure TryState where
  counter : Nat
  diagnostics : List String

/-- Source: checker.rs:5016-5150 -/
def tryRewriteAtTop (enums : List EnumDecl) (returnType : Ty) (body : List Stmt)
    (st : TryState) : List Stmt × TryState :=
  match body.getLast? with
  | some (.return_ e) =>
    if body.dropLast.any isTryLet then
      if body.dropLast.all blockVocabulary then
        match returnVariants enums returnType with
        | .error message => (body, { st with diagnostics := st.diagnostics ++ [message] })
        | .ok none => (body, st)
        | .ok (some r) =>
          let (stmts, tail, counter) := tryRewriteBlockStmts r body.dropLast e st.counter
          (stmts ++ [.return_ tail], { st with counter := counter })
      else (body, { st with diagnostics := st.diagnostics ++ [onlyLetPrintAssign] })
    else (body, st)
  | _ => (body, st)

mutual

/-- Source: checker.rs:4979-5004 -/
def tryRewriteStmt (enums : List EnumDecl) (returnType : Ty) :
    Stmt → TryState → Stmt × TryState
  | .if_ cond thenBody elseBody, st =>
    let (thenInner, st) := tryRewriteStmts enums returnType thenBody st
    let (thenBody, st) := tryRewriteAtTop enums returnType thenInner st
    let (elseInner, st) := tryRewriteStmts enums returnType elseBody st
    let (elseBody, st) := tryRewriteAtTop enums returnType elseInner st
    (.if_ cond thenBody elseBody, st)
  | .while_ cond invariants body, st =>
    let (inner, st) := tryRewriteStmts enums returnType body st
    let (body, st) := tryRewriteAtTop enums returnType inner st
    (.while_ cond invariants body, st)
  | .for_ var start end_ invariants body parallel reductions, st =>
    let (inner, st) := tryRewriteStmts enums returnType body st
    let (body, st) := tryRewriteAtTop enums returnType inner st
    (.for_ var start end_ invariants body parallel reductions, st)
  | .forIter var collection consumes body, st =>
    let (inner, st) := tryRewriteStmts enums returnType body st
    let (body, st) := tryRewriteAtTop enums returnType inner st
    (.forIter var collection consumes body, st)
  | .taskSpawn name body, st =>
    let (inner, st) := tryRewriteStmts enums returnType body st
    let (body, st) := tryRewriteAtTop enums returnType inner st
    (.taskSpawn name body, st)
  | s, st => (s, st)

def tryRewriteStmts (enums : List EnumDecl) (returnType : Ty) :
    List Stmt → TryState → List Stmt × TryState
  | [], st => ([], st)
  | s :: ss, st =>
    let (s, st) := tryRewriteStmt enums returnType s st
    let (ss, st) := tryRewriteStmts enums returnType ss st
    (s :: ss, st)

end

/-- Source: checker.rs:4969-5006 -/
def tryRewriteStmtList (enums : List EnumDecl) (returnType : Ty) (body : List Stmt)
    (st : TryState) : List Stmt × TryState :=
  let (inner, st) := tryRewriteStmts enums returnType body st
  tryRewriteAtTop enums returnType inner st

/-- The body of a function once its guards are rewritten. Source: checker.rs:4757-4759 -/
def rewriteGuards (body : List Stmt) : List Stmt :=
  if bodyContainsTry body then rewriteGuardIfs (countStmts body + 1) body else body

/-- Source: checker.rs:4732-4778 -/
def desugarTryLet (enums : List EnumDecl) (f : Function) (st : TryState) :
    Function × TryState :=
  let (body, st) := tryRewriteStmtList enums f.returnType (rewriteGuards f.body) st
  ({ f with body := body }, st)

end Vani.Program
