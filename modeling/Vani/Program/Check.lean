import Vani.Program.Facts

/-!
# The statement checker's knowledge

`check_one_stmt` threads an environment and a fact list through a function body. This
file follows what happens to the two kinds of knowledge in them, tracked constants and
facts, for every statement form: `afterStmt` is the knowledge after a statement, and
`ifBody`, `whileBody`, … the knowledge a nested body starts with. The types the checker
assigns to expressions come in through `Context.typeOf`; move state and diagnostics are
left to other files.
-/

set_option autoImplicit false

namespace Vani.Program

/-- The parts of a binding's record the two kinds of knowledge depend on.
Source: checker.rs:205-266 -/
structure VarInfo where
  ty : Ty
  constant : Option Scalar
  arrayVersion : Nat

/-- One scope of the environment. -/
abbrev EnvScope : Type := List (String × VarInfo)

/-- The open scopes, innermost first. Source: checker.rs:13-21 -/
abbrev Env : Type := List EnvScope

/-- `BTreeMap::insert`. -/
def insertKey (name : String) (info : VarInfo) (scope : EnvScope) : EnvScope :=
  (name, info) :: scope.filter fun p => p.1 != name

namespace Env

/-- Source: checker.rs:110-112 -/
def lookup : Env → String → Option VarInfo
  | [], _ => none
  | scope :: rest, name =>
    match scope.lookup name with
    | some info => some info
    | none => lookup rest name

/-- Source: checker.rs:130-132 -/
def currentGet (env : Env) (name : String) : Option VarInfo :=
  match env with
  | [] => none
  | scope :: _ => scope.lookup name

/-- Source: checker.rs:134-136 -/
def insertCurrent (env : Env) (name : String) (info : VarInfo) : Env :=
  match env with
  | [] => []
  | scope :: rest => insertKey name info scope :: rest

/-- Source: checker.rs:101-103 -/
def pushScope (env : Env) : Env := [] :: env

/-- Apply a change to the innermost binding of a name (`lookup_mut`).
Source: checker.rs:114-121 -/
def modify (f : VarInfo → VarInfo) : Env → String → Env
  | [], _ => []
  | scope :: rest, name =>
    match scope.lookup name with
    | some info => insertKey name (f info) scope :: rest
    | none => scope :: modify f rest name

end Env

/-- The constant tracked for a name. -/
def tracked (env : Env) (name : String) : Option Scalar :=
  (env.lookup name).bind VarInfo.constant

/-- Forget the constant of every binding whose name is listed.
Source: checker.rs:7081-7092 -/
def clearConstantsFor (env : Env) (names : List String) : Env :=
  env.map fun scope => scope.map fun p =>
    (p.1, if names.contains p.1 then { p.2 with constant := none } else p.2)

mutual

/-- The names a statement list may write, as the merges see it. Statements inside a
block expression, tuple `let`s and task bodies are not visited.
Source: checker.rs:7102-7203 -/
def branchMutations : List Stmt → List String
  | [] => []
  | .assign name e :: ss => name :: (exprMutations e ++ branchMutations ss)
  | .indexAssign name i _ v :: ss =>
    name :: (exprMutations i ++ exprMutations v ++ branchMutations ss)
  | .fieldAssign object _ v :: ss =>
    (unwrapToVar object).toList ++ exprMutations object ++ exprMutations v ++
      branchMutations ss
  | .let_ _ _ e :: ss => exprMutations e ++ branchMutations ss
  | .return_ e :: ss => exprMutations e ++ branchMutations ss
  | .assert e _ :: ss => exprMutations e ++ branchMutations ss
  | .prove e :: ss => exprMutations e ++ branchMutations ss
  | .print items :: ss => itemMutations items ++ branchMutations ss
  | .if_ c t f :: ss =>
    exprMutations c ++ branchMutations t ++ branchMutations f ++ branchMutations ss
  | .while_ c invs body :: ss =>
    exprMutations c ++ exprsMutations invs ++ branchMutations body ++ branchMutations ss
  | .for_ _ s e invs body _ _ :: ss =>
    exprMutations s ++ exprMutations e ++ exprsMutations invs ++ branchMutations body ++
      branchMutations ss
  | .forIter _ _ _ body :: ss => branchMutations body ++ branchMutations ss
  | _ :: ss => branchMutations ss

/-- Source: checker.rs:7205-7297 -/
def exprMutations : Expr → List String
  | .refMut inner => (unwrapToVar inner).toList ++ exprMutations inner
  | .ref inner => exprMutations inner
  | .call _ args => exprsMutations args
  | .methodCall receiver _ args => exprMutations receiver ++ exprsMutations args
  | .binary _ l r => exprMutations l ++ exprMutations r
  | .unary _ e => exprMutations e
  | .index a i => exprMutations a ++ exprMutations i
  | .len a => exprMutations a
  | .cast e _ => exprMutations e
  | .arrayLit es => exprsMutations es
  | .tuple es => exprsMutations es
  | .tupleAccess e _ => exprMutations e
  | .structLit _ fs => fieldsMutations fs
  | .fieldAccess e _ => exprMutations e
  | .match_ s arms => exprMutations s ++ armsMutations arms
  | .ifExpr c t f => exprMutations c ++ exprMutations t ++ exprMutations f
  | .block _ tail => exprMutations tail
  | .try_ e => exprMutations e
  | _ => []

/-- `exprMutations` over a list. -/
def exprsMutations : List Expr → List String
  | [] => []
  | e :: es => exprMutations e ++ exprsMutations es

/-- `exprMutations` over the fields of a struct literal. -/
def fieldsMutations : List (String × Expr) → List String
  | [] => []
  | (_, e) :: fs => exprMutations e ++ fieldsMutations fs

/-- `exprMutations` over the bodies of match arms. -/
def armsMutations : List (Pattern × Expr) → List String
  | [] => []
  | (_, e) :: arms => exprMutations e ++ armsMutations arms

/-- `exprMutations` over the expressions among print items. -/
def itemMutations : List PrintItem → List String
  | [] => []
  | .expr e :: items => exprMutations e ++ itemMutations items
  | .str _ :: items => itemMutations items

end

/-- What the checker consults besides environment and facts: the types it gives to
expressions, the callees' declarations, the host's float arithmetic, and the solver's
verdict on a goal under a list of facts (`Verdict::Proven`). -/
structure Context where
  typeOf : Env → Expr → Ty
  signatures : String → Option Signature
  floatFold : ScalarOp → List Scalar → Option Scalar
  proves : List Expr → Expr → Prop

section

variable (ctx : Context)

mutual

/-- The constant `check_expr` attaches to an expression.
Source: checker.rs:10331-12558, 12966-12995, 13026-13946, 21811-21844 -/
def constOf (env : Env) : Expr → Option Scalar
  | .int v => some (.int (if v ≤ IntTy.maxValue .i64 then .i64 else .u64) true v)
  | .float b => some (.float .f64 true b)
  | .bool b => some (.bool b)
  | .var n => tracked env n
  | .unary op e => match constOf env e with
    | some s => foldUnary ctx.floatFold op s
    | none => none
  | .binary op l r =>
    match constOf env l with
    | none => none
    | some a =>
      match op, a with
      | .and, .bool false => some (.bool false)
      | .or, .bool true => some (.bool true)
      | op, a => match constOf env r with
        | some b => foldBinary ctx.floatFold op a b
        | none => none
  | .cast e ty => match constOf env e with
    | some s => foldCast ctx.floatFold ty s
    | none => none
  | .len a => match (ctx.typeOf env a).deref with
    | .array _ length => some (.int .u64 false length)
    | _ => none
  | .ifExpr c t f => match constOf env c with
    | some (.bool true) => (constOf env t).map Scalar.settle
    | some (.bool false) => (constOf env f).map Scalar.settle
    | _ => none
  | .match_ s arms => match constOf env s with
    | some (.int _ _ v) => (constOfArms env v arms).map Scalar.settle
    | _ => none
  | _ => none

/-- The constant of the arm an integer scrutinee selects.
Source: checker.rs:12173-12191 -/
def constOfArms (env : Env) (v : Int) : List (Pattern × Expr) → Option Scalar
  | [] => none
  | (.int k, e) :: arms => if k = v then constOf env e else constOfArms env v arms
  | (.wildcard, e) :: _ => constOf env e
  | _ :: arms => constOfArms env v arms

end

/-- The constant of an initialiser after its coercion to the annotated type.
Source: checker.rs:21846-21855, 22072-22077 -/
def coerceConstant (ann : Option Ty) (constant : Option Scalar) : Option Scalar :=
  match constant, ann with
  | none, _ => none
  | some s, none => some s.settle
  | some s, some t => (foldCast ctx.floatFold t s).map Scalar.settle

end

/-- The knowledge at a program point, and whether a loop encloses it. -/
structure CheckState where
  env : Env
  facts : List Expr
  inLoop : Bool

/-- The expression a constant is in facts. Source: checker.rs:23652-23664 -/
def constExpr : Scalar → Option Expr
  | .int _ _ v => some (.int v)
  | .bool b => some (.bool b)
  | .float _ _ _ => none

/-- The facts together with `name == constant` for every tracked constant.
Source: checker.rs:23648-23682 -/
def currentSmtFacts (st : CheckState) : List Expr :=
  st.facts ++ st.env.flatten.filterMap fun p =>
    match p.2.constant with
    | some c => (constExpr c).map fun e => eqFact (.var p.1) e
    | none => none

variable (ctx : Context)

/-- The facts a `let` keeps: those about an earlier binding of the name in the same
scope go, unless a loop encloses the statement. Source: checker.rs:7481-7491 -/
def letKept (st : CheckState) (name : String) : List Expr :=
  if (st.env.currentGet name).isSome && !st.inLoop then dropFactsMentioning name st.facts
  else st.facts

/-- The equations a `let` records about its own initialiser, when the name is new to the
scope and the initialiser does not mention it. Source: checker.rs:7636-7684 -/
def recordedFacts (st : CheckState) (name : String) (e : Expr) : List Expr :=
  if (st.env.currentGet name).isSome then []
  else match e with
    | .call f args => if anyMentions name args then [] else vecBuiltinFacts f args name
    | .arrayLit es => if anyMentions name es then [] else arrayElementFacts name 0 es
    | .var base =>
      if base != name && (ctx.typeOf st.env e).deref.isSequence then [arrayEqFact name base]
      else []
    | _ => []

/-- The clauses of the callee a `let` records. Source: checker.rs:7623 -/
def callFacts (name : String) : Expr → List Expr
  | .call f args => ensuresFacts ctx.signatures f args name
  | _ => []

/-- The facts a `let` adds. Source: checker.rs:7620-7684 -/
def letFacts (st : CheckState) (name : String) (e : Expr) : List Expr :=
  callFacts ctx name e ++ recordedFacts ctx st name e

/-- The record a `let` puts into the environment. Source: checker.rs:7616-7632 -/
def letInfo (st : CheckState) (ann : Option Ty) (e : Expr) : VarInfo where
  ty := ann.getD (ctx.typeOf st.env e)
  constant := coerceConstant ctx ann (constOf ctx st.env e)
  arrayVersion := 0

/-- The record of a binding nothing is known about. -/
def plainInfo (ty : Ty) : VarInfo := ⟨ty, none, 0⟩

/-- The environment after a `let`. -/
def letEnv (st : CheckState) (name : String) (ann : Option Ty) (e : Expr) : Env :=
  st.env.insertCurrent name (letInfo ctx st ann e)

/-- Source: checker.rs:7765-7784 -/
def assignKept (st : CheckState) (name : String) : List Expr :=
  if st.inLoop then st.facts else dropFactsMentioning name st.facts

/-- The array version an element assignment starts from. -/
def currentVersion (st : CheckState) (name : String) : Nat :=
  match st.env.lookup name with
  | some info => info.arrayVersion
  | none => 0

/-- The earlier facts, about the contents before an element assignment.
Source: checker.rs:8556-8569 -/
def pinnedFacts (st : CheckState) (name : String) : List Expr :=
  st.facts.map (pinVarToVersion name (currentVersion st name))

/-- The two facts an element assignment adds; the field path plays no part in them.
Source: checker.rs:8573-8623 -/
def indexFacts (st : CheckState) (name : String) (index value : Expr) : List Expr :=
  [storeEqFact (versioned name (currentVersion st name + 1))
      (versioned name (currentVersion st name)) index value,
    eqFact (.index (.var name) index) value]

mutual

/-- Does control never pass the statement? Source: checker.rs:7018-7042, 7413-7421 -/
def stmtTerminates : Stmt → Bool
  | .return_ _ | .break_ | .continue_ => true
  | .if_ _ t f => listTerminates t && listTerminates f
  | _ => false

/-- Does control never reach the end of the list? -/
def listTerminates : List Stmt → Bool
  | [] => false
  | s :: ss => stmtTerminates s || listTerminates ss

end

/-- The guard known after an `if` with exactly one terminating branch.
Source: checker.rs:8048-8053 -/
def guardFacts (cond : Expr) (thenBody elseBody : List Stmt) : List Expr :=
  match listTerminates thenBody, listTerminates elseBody with
  | true, false => [negate cond]
  | false, true => [cond]
  | _, _ => []

/-- Source: checker.rs:8010-8046 -/
def ifBody (st : CheckState) (cond : Expr) (branch : Bool) : CheckState where
  env := st.env.pushScope
  facts := st.facts ++ [if branch then cond else negate cond]
  inLoop := st.inLoop

/-- Source: checker.rs:8186-8196 -/
def whileBody (st : CheckState) (cond : Expr) (invariants : List Expr) : CheckState where
  env := st.env.pushScope
  facts := st.facts ++ invariants ++ [cond]
  inLoop := true

/-- The state in which a `for` checks its invariants on entry.
Source: checker.rs:8762-8823 -/
def forEntry (st : CheckState) (var : String) (start : Expr) : CheckState where
  env := st.env.pushScope.insertCurrent var (plainInfo (ctx.typeOf st.env start))
  facts := st.facts ++ [eqFact (.var var) start]
  inLoop := st.inLoop

/-- Source: checker.rs:8825-8853 -/
def forBody (st : CheckState) (var : String) (start end_ : Expr) (invariants : List Expr) :
    CheckState where
  env := st.env.pushScope.insertCurrent var (plainInfo (ctx.typeOf st.env start))
  facts := st.facts ++ invariants ++
    [.binary .ge (.var var) start, .binary .lt (.var var) end_]
  inLoop := true

/-- Source: checker.rs:9106-9135 -/
def forIterBody (st : CheckState) (var collection : String) : CheckState where
  env := st.env.pushScope.insertCurrent var
    (plainInfo (ctx.typeOf st.env (.index (.var collection) (.int 0))))
  facts := st.facts
  inLoop := true

/-- Source: checker.rs:9237-9250 -/
def taskBody (st : CheckState) : CheckState where
  env := st.env.pushScope
  facts := st.facts
  inLoop := st.inLoop

/-- What is known after a `while`, beyond what was known before it.
Source: checker.rs:8260-8263 -/
def whileExit (cond : Expr) (invariants : List Expr) (body : List Stmt) : List Expr :=
  invariants ++ if containsBreak body then [] else [negate cond]

/-- What is known after a `for`. Source: checker.rs:8920-8933 -/
def forExit (var : String) (end_ : Expr) (invariants : List Expr) (body : List Stmt) :
    List Expr :=
  invariants ++ if containsBreak body then [] else [.binary .ge (.var var) end_]

/-- The element types of a tuple type. -/
def tupleTypes : Ty → List Ty
  | .tuple ts => ts
  | _ => []

/-- Bind every name of a tuple `let`; an accepted one has as many types as names.
Source: checker.rs:9364-9500 -/
def insertPlain (env : Env) : List String → List Ty → Env
  | [], _ => env
  | n :: ns, ts => insertPlain (env.insertCurrent n (plainInfo (ts.headD .bool))) ns ts.tail

/-- The knowledge after a statement that control passes.
Source: checker.rs:7413-9501 -/
def afterStmt (st : CheckState) : Stmt → CheckState
  | .let_ name ann e =>
    if name = "_" then st
    else
      { st with
        env := letEnv ctx st name ann e
        facts := letKept st name ++ letFacts ctx st name e }
  | .letTuple names ann e =>
    { st with env := insertPlain st.env names (tupleTypes (ann.getD (ctx.typeOf st.env e))) }
  | .assign name _ =>
    { st with
      env := st.env.modify (fun info => { info with constant := none }) name
      facts := assignKept st name }
  | .if_ cond t f =>
    { st with
      env := clearConstantsFor st.env (branchMutations t ++ branchMutations f)
      facts := st.facts ++ guardFacts cond t f }
  | .while_ cond invs body =>
    { st with
      env := clearConstantsFor st.env (branchMutations body)
      facts := st.facts ++ whileExit cond invs body }
  | .for_ var _ end_ invs body _ _ =>
    { st with
      env := clearConstantsFor st.env (branchMutations body)
      facts := st.facts ++ forExit var end_ invs body }
  | .forIter _ _ _ body =>
    { st with env := clearConstantsFor st.env (branchMutations body) }
  | .indexAssign name i _ v =>
    { st with
      env := st.env.modify (fun info => { info with arrayVersion := info.arrayVersion + 1 }) name
      facts := pinnedFacts st name ++ indexFacts st name i v }
  | .taskSpawn name _ => { st with env := st.env.insertCurrent name (plainInfo .task) }
  | _ => st

/-- The length of the array an element is read from without a bounds check, where the
read is one: a constant index into a fixed array. An index out of range is rejected.
Source: checker.rs:12923-12953 -/
def uncheckedRead (env : Env) (array index : Expr) : Option Nat :=
  match (ctx.typeOf env array).deref, constOf ctx env index with
  | .array _ length, some (.int _ _ k) => if 0 ≤ k ∧ k < length then some length else none
  | _, _ => none

/-- The same for an element assignment; the array must be owned, not behind a reference.
Source: checker.rs:8434-8457 -/
def uncheckedWrite (env : Env) (name : String) (index : Expr) : Option Nat :=
  match (env.lookup name).map VarInfo.ty, constOf ctx env index with
  | some (.array _ length), some (.int _ _ k) => if 0 ≤ k ∧ k < length then some length else none
  | _, _ => none

mutual

/-- The checker accepts the loop invariants inside a statement: each is proved from the
facts known where its loop is entered. Source: checker.rs:8174-8187, 8799-8823 -/
def loopsProved : CheckState → Stmt → Prop
  | st, .if_ c t f => loopsProvedAll (ifBody st c true) t ∧ loopsProvedAll (ifBody st c false) f
  | st, .while_ c invs body =>
    (∀ inv, inv ∈ invs → ctx.proves (currentSmtFacts st) inv) ∧
      loopsProvedAll (whileBody st c invs) body
  | st, .for_ x s e invs body _ _ =>
    (∀ inv, inv ∈ invs → ctx.proves (currentSmtFacts (forEntry ctx st x s)) inv) ∧
      loopsProvedAll (forBody ctx st x s e invs) body
  | st, .forIter x xs _ body => loopsProvedAll (forIterBody ctx st x xs) body
  | st, .taskSpawn _ body => loopsProvedAll (taskBody st) body
  | _, _ => True

/-- The same along a statement list. -/
def loopsProvedAll : CheckState → List Stmt → Prop
  | _, [] => True
  | st, s :: ss => loopsProved st s ∧ loopsProvedAll (afterStmt ctx st s) ss

end

/-- The knowledge a function body starts with. Source: checker.rs:6951 -/
def entryState (env : Env) (f : Function) : CheckState := ⟨env, f.requires, false⟩

end Vani.Program
