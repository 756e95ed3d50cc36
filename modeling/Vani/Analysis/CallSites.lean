import Vani.Program.Generics
import Mathlib.Tactic.Common

/-!
# Call sites

All the calls in a piece of code, wherever they stand, with the type that the first argument has
at that point; beside them the calls as the pass on generic functions sees them. What the pass
collects and what it rewrites are both functions of the list of call sites.
-/

set_option autoImplicit false

namespace Vani.Analysis

open Vani.Program

/-! ## Types of names -/

/-- What a written type stands for, and the types of the names in scope. -/
structure TypeEnv where
  written : Ty → Ty
  names : String → Option Ty

/-- What the checker says of types, where the form of an expression does not. -/
structure Typing where
  ofExpr : TypeEnv → Expr → Ty
  range : TypeEnv → Expr → Expr → Ty
  element : TypeEnv → String → Ty
  payload : TypeEnv → Expr → Pattern → Ty
  components : TypeEnv → Expr → List Ty

namespace TypeEnv

def declare (Γ : TypeEnv) (name : String) (ty : Option Ty) : TypeEnv :=
  { Γ with names := fun n => if n = name then ty else Γ.names n }

def declareAll (Γ : TypeEnv) : List (String × Ty) → TypeEnv
  | [] => Γ
  | (name, ty) :: rest => (Γ.declare name (some ty)).declareAll rest

def declareParams (Γ : TypeEnv) (params : List Param) : TypeEnv :=
  Γ.declareAll (params.map fun p => (p.name, Γ.written p.ty))

end TypeEnv

section

variable (T : Typing)

/-- The type of an argument. A number too large for `i64` is a `u64`.
Source: checker.rs:10331-10350 -/
def Typing.argument (Γ : TypeEnv) : Expr → Option Ty
  | .int v => some (.int (if v ≤ IntTy.maxValue .i64 then .i64 else .u64))
  | .float _ => some (.float .f64)
  | .bool _ => some .bool
  | .var name => Γ.names name
  | e => some (T.ofExpr Γ e)

/-- The names after a statement. -/
def TypeEnv.after (Γ : TypeEnv) : Stmt → TypeEnv
  | .let_ name ann e =>
    Γ.declare name (match ann with
      | some ty => some (Γ.written ty)
      | none => T.argument Γ e)
  | .letTuple names ann e =>
    Γ.declareAll (names.zip (match ann with
      | some (.tuple ts) => ts.map Γ.written
      | _ => T.components Γ e))
  | .taskSpawn name _ => Γ.declare name (some .task)
  | _ => Γ

def TypeEnv.afterAll (Γ : TypeEnv) : List Stmt → TypeEnv
  | [] => Γ
  | s :: ss => (Γ.after T s).afterAll ss

/-- The names in the arm of a match. -/
def TypeEnv.inArm (Γ : TypeEnv) (scrutinee : Expr) : Pattern → TypeEnv
  | .variantWithBinding enumName variant binding =>
    Γ.declare binding (some (T.payload Γ scrutinee (.variantWithBinding enumName variant binding)))
  | _ => Γ

/-! ## Calls -/

/-- A function and the type of the first argument it is called with. -/
abbrev TypedCall := String × Option Ty

mutual

/-- The calls in an expression. -/
def callsInExpr (Γ : TypeEnv) : Expr → List TypedCall
  | .call name args => (name, args.head?.bind (T.argument Γ)) :: callsInExprs Γ args
  | .unary _ e | .cast e _ | .len e | .ref e | .refMut e | .tupleAccess e _ | .fieldAccess e _
  | .try_ e => callsInExpr Γ e
  | .binary _ l r | .index l r => callsInExpr Γ l ++ callsInExpr Γ r
  | .arrayLit es | .tuple es => callsInExprs Γ es
  | .methodCall receiver _ args => callsInExpr Γ receiver ++ callsInExprs Γ args
  | .structLit _ fields => callsInFields Γ fields
  | .match_ scrutinee arms => callsInExpr Γ scrutinee ++ callsInArms Γ scrutinee arms
  | .ifExpr c t e => callsInExpr Γ c ++ (callsInExpr Γ t ++ callsInExpr Γ e)
  | .block stmts tail => callsInStmts Γ stmts ++ callsInExpr (Γ.afterAll T stmts) tail
  | .anonFn params _ body => callsInStmts (Γ.declareParams params) body
  | .int _ | .float _ | .bool _ | .str _ | .var _ => []

def callsInExprs (Γ : TypeEnv) : List Expr → List TypedCall
  | [] => []
  | e :: es => callsInExpr Γ e ++ callsInExprs Γ es

def callsInFields (Γ : TypeEnv) : List (String × Expr) → List TypedCall
  | [] => []
  | (_, e) :: fields => callsInExpr Γ e ++ callsInFields Γ fields

def callsInArms (Γ : TypeEnv) (scrutinee : Expr) : List (Pattern × Expr) → List TypedCall
  | [] => []
  | (pattern, e) :: arms =>
    callsInExpr (Γ.inArm T scrutinee pattern) e ++ callsInArms Γ scrutinee arms

def callsInItems (Γ : TypeEnv) : List PrintItem → List TypedCall
  | [] => []
  | .expr e :: items => callsInExpr Γ e ++ callsInItems Γ items
  | .str _ :: items => callsInItems Γ items

/-- The calls in a statement. -/
def callsInStmt (Γ : TypeEnv) : Stmt → List TypedCall
  | .let_ _ _ e | .letTuple _ _ e | .return_ e | .assert e _ | .prove e | .assign _ e =>
    callsInExpr Γ e
  | .print items => callsInItems Γ items
  | .if_ c th el => callsInExpr Γ c ++ (callsInStmts Γ th ++ callsInStmts Γ el)
  | .while_ c invariants body =>
    callsInExpr Γ c ++ (callsInExprs Γ invariants ++ callsInStmts Γ body)
  | .indexAssign _ index _ value => callsInExpr Γ index ++ callsInExpr Γ value
  | .fieldAssign object _ value => callsInExpr Γ object ++ callsInExpr Γ value
  | .for_ var start end_ invariants body _ _ =>
    callsInExpr Γ start ++ (callsInExpr Γ end_ ++
      (callsInExprs (Γ.declare var (some (T.range Γ start end_))) invariants ++
        callsInStmts (Γ.declare var (some (T.range Γ start end_))) body))
  | .forIter var collection _ body =>
    callsInStmts (Γ.declare var (some (T.element Γ collection))) body
  | .taskSpawn _ body => callsInStmts Γ body
  | .break_ | .continue_ | .taskJoin _ => []

def callsInStmts (Γ : TypeEnv) : List Stmt → List TypedCall
  | [] => []
  | s :: ss => callsInStmt Γ s ++ callsInStmts (Γ.after T s) ss

end

end

mutual

/-- The names of the functions called in an expression. -/
def calledInExpr : Expr → List String
  | .call name args => name :: calledInExprs args
  | .unary _ e | .cast e _ | .len e | .ref e | .refMut e | .tupleAccess e _ | .fieldAccess e _
  | .try_ e => calledInExpr e
  | .binary _ l r | .index l r => calledInExpr l ++ calledInExpr r
  | .arrayLit es | .tuple es => calledInExprs es
  | .methodCall receiver _ args => calledInExpr receiver ++ calledInExprs args
  | .structLit _ fields => calledInFields fields
  | .match_ scrutinee arms => calledInExpr scrutinee ++ calledInArms arms
  | .ifExpr c t e => calledInExpr c ++ (calledInExpr t ++ calledInExpr e)
  | .block stmts tail => calledInStmts stmts ++ calledInExpr tail
  | .anonFn _ _ body => calledInStmts body
  | .int _ | .float _ | .bool _ | .str _ | .var _ => []

def calledInExprs : List Expr → List String
  | [] => []
  | e :: es => calledInExpr e ++ calledInExprs es

def calledInFields : List (String × Expr) → List String
  | [] => []
  | (_, e) :: fields => calledInExpr e ++ calledInFields fields

def calledInArms : List (Pattern × Expr) → List String
  | [] => []
  | (_, e) :: arms => calledInExpr e ++ calledInArms arms

def calledInItems : List PrintItem → List String
  | [] => []
  | .expr e :: items => calledInExpr e ++ calledInItems items
  | .str _ :: items => calledInItems items

/-- The names of the functions called in a statement. -/
def calledInStmt : Stmt → List String
  | .let_ _ _ e | .letTuple _ _ e | .return_ e | .assert e _ | .prove e | .assign _ e =>
    calledInExpr e
  | .print items => calledInItems items
  | .if_ c th el => calledInExpr c ++ (calledInStmts th ++ calledInStmts el)
  | .while_ c invariants body => calledInExpr c ++ (calledInExprs invariants ++ calledInStmts body)
  | .indexAssign _ index _ value => calledInExpr index ++ calledInExpr value
  | .fieldAssign object _ value => calledInExpr object ++ calledInExpr value
  | .for_ _ start end_ invariants body _ _ =>
    calledInExpr start ++ (calledInExpr end_ ++ (calledInExprs invariants ++ calledInStmts body))
  | .forIter _ _ _ body | .taskSpawn _ body => calledInStmts body
  | .break_ | .continue_ | .taskJoin _ => []

def calledInStmts : List Stmt → List String
  | [] => []
  | s :: ss => calledInStmt s ++ calledInStmts ss

end

section

variable (T : Typing)

mutual

/-- Which functions are called does not depend on types. -/
theorem callsInExpr_names (Γ : TypeEnv) :
    ∀ e : Expr, (callsInExpr T Γ e).map Prod.fst = calledInExpr e
  | .unary _ e | .cast e _ | .len e | .ref e | .refMut e | .tupleAccess e _ | .fieldAccess e _
  | .try_ e => by
    simp only [callsInExpr, calledInExpr, callsInExpr_names Γ e]
  | .call _ args => by
    simp only [callsInExpr, calledInExpr, List.map_cons, callsInExprs_names Γ args]
  | .binary _ l r | .index l r => by
    simp only [callsInExpr, calledInExpr, List.map_append, callsInExpr_names Γ l,
      callsInExpr_names Γ r]
  | .arrayLit es | .tuple es => by
    simp only [callsInExpr, calledInExpr, callsInExprs_names Γ es]
  | .methodCall receiver _ args => by
    simp only [callsInExpr, calledInExpr, List.map_append, callsInExpr_names Γ receiver,
      callsInExprs_names Γ args]
  | .structLit _ fields => by
    simp only [callsInExpr, calledInExpr, callsInFields_names Γ fields]
  | .match_ scrutinee arms => by
    simp only [callsInExpr, calledInExpr, List.map_append, callsInExpr_names Γ scrutinee,
      callsInArms_names Γ scrutinee arms]
  | .ifExpr c t e => by
    simp only [callsInExpr, calledInExpr, List.map_append, callsInExpr_names Γ c,
      callsInExpr_names Γ t, callsInExpr_names Γ e]
  | .block stmts tail => by
    simp only [callsInExpr, calledInExpr, List.map_append, callsInStmts_names Γ stmts,
      callsInExpr_names (Γ.afterAll T stmts) tail]
  | .anonFn params _ body => by
    simp only [callsInExpr, calledInExpr, callsInStmts_names (Γ.declareParams params) body]
  | .int _ | .float _ | .bool _ | .str _ | .var _ => by
    simp only [callsInExpr, calledInExpr, List.map_nil]

theorem callsInExprs_names (Γ : TypeEnv) :
    ∀ es : List Expr, (callsInExprs T Γ es).map Prod.fst = calledInExprs es
  | [] => by simp only [callsInExprs, calledInExprs, List.map_nil]
  | e :: es => by
    simp only [callsInExprs, calledInExprs, List.map_append, callsInExpr_names Γ e,
      callsInExprs_names Γ es]

theorem callsInFields_names (Γ : TypeEnv) :
    ∀ fields : List (String × Expr), (callsInFields T Γ fields).map Prod.fst = calledInFields fields
  | [] => by simp only [callsInFields, calledInFields, List.map_nil]
  | (_, e) :: fields => by
    simp only [callsInFields, calledInFields, List.map_append, callsInExpr_names Γ e,
      callsInFields_names Γ fields]

theorem callsInArms_names (Γ : TypeEnv) (scrutinee : Expr) :
    ∀ arms : List (Pattern × Expr),
      (callsInArms T Γ scrutinee arms).map Prod.fst = calledInArms arms
  | [] => by simp only [callsInArms, calledInArms, List.map_nil]
  | (pattern, e) :: arms => by
    simp only [callsInArms, calledInArms, List.map_append,
      callsInExpr_names (Γ.inArm T scrutinee pattern) e, callsInArms_names Γ scrutinee arms]

theorem callsInItems_names (Γ : TypeEnv) :
    ∀ items : List PrintItem, (callsInItems T Γ items).map Prod.fst = calledInItems items
  | [] => by simp only [callsInItems, calledInItems, List.map_nil]
  | .expr e :: items => by
    simp only [callsInItems, calledInItems, List.map_append, callsInExpr_names Γ e,
      callsInItems_names Γ items]
  | .str _ :: items => by
    simp only [callsInItems, calledInItems, callsInItems_names Γ items]

theorem callsInStmt_names (Γ : TypeEnv) :
    ∀ s : Stmt, (callsInStmt T Γ s).map Prod.fst = calledInStmt s
  | .let_ _ _ e | .letTuple _ _ e | .return_ e | .assert e _ | .prove e | .assign _ e => by
    simp only [callsInStmt, calledInStmt, callsInExpr_names Γ e]
  | .print items => by
    simp only [callsInStmt, calledInStmt, callsInItems_names Γ items]
  | .if_ c th el => by
    simp only [callsInStmt, calledInStmt, List.map_append, callsInExpr_names Γ c,
      callsInStmts_names Γ th, callsInStmts_names Γ el]
  | .while_ c invariants body => by
    simp only [callsInStmt, calledInStmt, List.map_append, callsInExpr_names Γ c,
      callsInExprs_names Γ invariants, callsInStmts_names Γ body]
  | .indexAssign _ index _ value => by
    simp only [callsInStmt, calledInStmt, List.map_append, callsInExpr_names Γ index,
      callsInExpr_names Γ value]
  | .fieldAssign object _ value => by
    simp only [callsInStmt, calledInStmt, List.map_append, callsInExpr_names Γ object,
      callsInExpr_names Γ value]
  | .for_ var start end_ invariants body _ _ => by
    simp only [callsInStmt, calledInStmt, List.map_append, callsInExpr_names Γ start,
      callsInExpr_names Γ end_,
      callsInExprs_names (Γ.declare var (some (T.range Γ start end_))) invariants,
      callsInStmts_names (Γ.declare var (some (T.range Γ start end_))) body]
  | .forIter var collection _ body => by
    simp only [callsInStmt, calledInStmt,
      callsInStmts_names (Γ.declare var (some (T.element Γ collection))) body]
  | .taskSpawn _ body => by
    simp only [callsInStmt, calledInStmt, callsInStmts_names Γ body]
  | .break_ | .continue_ | .taskJoin _ => by
    simp only [callsInStmt, calledInStmt, List.map_nil]

theorem callsInStmts_names (Γ : TypeEnv) :
    ∀ ss : List Stmt, (callsInStmts T Γ ss).map Prod.fst = calledInStmts ss
  | [] => by simp only [callsInStmts, calledInStmts, List.map_nil]
  | s :: ss => by
    simp only [callsInStmts, calledInStmts, List.map_append, callsInStmt_names Γ s,
      callsInStmts_names (Γ.after T s) ss]

end

/-! ## Calls as the pass sees them -/

/-- A call, with the type that the annotations before it give to its first argument; none if the
pass does not come here, or there is no argument. -/
structure SeenCall where
  name : String
  type : Option Ty
  inferred : Option (Except GenericsError Ty)

namespace SeenCall

def call (site : SeenCall) : TypedCall := (site.name, site.type)

/-- A call that the pass does not come to. -/
def hidden (call : TypedCall) : SeenCall := ⟨call.1, call.2, none⟩

/-- The name after the pass. -/
def renamed (generics : String → Bool) (site : SeenCall) : String :=
  match site.inferred with
  | some (.ok ty) => if generics site.name then instanceName site.name ty else site.name
  | _ => site.name

end SeenCall

mutual

/-- The call sites in an expression. -/
def sitesInExpr (Γ : TypeEnv) (table : TypeTable) : Expr → List SeenCall
  | .call name args =>
    ⟨name, args.head?.bind (T.argument Γ), args.head?.map (inferArgument table)⟩ ::
      sitesInExprs Γ table args
  | .binary _ l r => sitesInExpr Γ table l ++ sitesInExpr Γ table r
  | .unary _ e => sitesInExpr Γ table e
  | e => (callsInExpr T Γ e).map .hidden

def sitesInExprs (Γ : TypeEnv) (table : TypeTable) : List Expr → List SeenCall
  | [] => []
  | e :: es => sitesInExpr Γ table e ++ sitesInExprs Γ table es

end

def sitesInItems (Γ : TypeEnv) (table : TypeTable) : List PrintItem → List SeenCall
  | [] => []
  | .expr e :: items => sitesInExpr T Γ table e ++ sitesInItems Γ table items
  | .str _ :: items => sitesInItems Γ table items

mutual

/-- The table after a statement. Blocks do not end for it. -/
def tableAfter : Stmt → TypeTable → TypeTable
  | .let_ name ann _, table => table.annotate name ann
  | .if_ _ th el, table => tableAfterAll el (tableAfterAll th table)
  | .while_ _ _ body, table => tableAfterAll body table
  | _, table => table

def tableAfterAll : List Stmt → TypeTable → TypeTable
  | [], table => table
  | s :: ss, table => tableAfterAll ss (tableAfter s table)

end

mutual

/-- The call sites in a statement. -/
def sitesInStmt (Γ : TypeEnv) (table : TypeTable) : Stmt → List SeenCall
  | .let_ _ _ e | .assign _ e | .return_ e => sitesInExpr T Γ table e
  | .print items => sitesInItems T Γ table items
  | .if_ c th el =>
    sitesInExpr T Γ table c ++
      (sitesInStmts Γ table th ++ sitesInStmts Γ (tableAfterAll th table) el)
  | .while_ c invariants body =>
    sitesInExpr T Γ table c ++
      ((callsInExprs T Γ invariants).map .hidden ++ sitesInStmts Γ table body)
  | s => (callsInStmt T Γ s).map .hidden

def sitesInStmts (Γ : TypeEnv) (table : TypeTable) : List Stmt → List SeenCall
  | [] => []
  | s :: ss => sitesInStmt Γ table s ++ sitesInStmts (Γ.after T s) (tableAfter s table) ss

end

@[simp] theorem call_hidden (call : TypedCall) : (SeenCall.hidden call).call = call := rfl

theorem map_call_hidden (calls : List TypedCall) :
    (calls.map SeenCall.hidden).map SeenCall.call = calls := by
  induction calls with
  | nil => rfl
  | cons call calls ih => simp [ih]

mutual

/-- The call sites are the calls. -/
theorem sitesInExpr_calls (Γ : TypeEnv) (table : TypeTable) :
    ∀ e : Expr, (sitesInExpr T Γ table e).map SeenCall.call = callsInExpr T Γ e
  | .call name args => by
    simp only [sitesInExpr, callsInExpr, List.map_cons, SeenCall.call,
      sitesInExprs_calls Γ table args]
  | .binary _ l r => by
    simp only [sitesInExpr, callsInExpr, List.map_append, sitesInExpr_calls Γ table l,
      sitesInExpr_calls Γ table r]
  | .unary _ e => by
    simp only [sitesInExpr, callsInExpr, sitesInExpr_calls Γ table e]
  | .int _ | .float _ | .bool _ | .str _ | .var _ | .methodCall _ _ _ | .cast _ _ | .arrayLit _
  | .index _ _ | .len _ | .ref _ | .refMut _ | .tuple _ | .tupleAccess _ _ | .structLit _ _
  | .fieldAccess _ _ | .match_ _ _ | .ifExpr _ _ _ | .block _ _ | .try_ _ | .anonFn _ _ _ => by
    simp only [sitesInExpr, map_call_hidden]

theorem sitesInExprs_calls (Γ : TypeEnv) (table : TypeTable) :
    ∀ es : List Expr, (sitesInExprs T Γ table es).map SeenCall.call = callsInExprs T Γ es
  | [] => by simp only [sitesInExprs, callsInExprs, List.map_nil]
  | e :: es => by
    simp only [sitesInExprs, callsInExprs, List.map_append, sitesInExpr_calls Γ table e,
      sitesInExprs_calls Γ table es]

end

theorem sitesInItems_calls (Γ : TypeEnv) (table : TypeTable) :
    ∀ items : List PrintItem, (sitesInItems T Γ table items).map SeenCall.call =
      callsInItems T Γ items
  | [] => by simp only [sitesInItems, callsInItems, List.map_nil]
  | .expr e :: items => by
    simp only [sitesInItems, callsInItems, List.map_append, sitesInExpr_calls T Γ table e,
      sitesInItems_calls Γ table items]
  | .str _ :: items => by
    simp only [sitesInItems, callsInItems, sitesInItems_calls Γ table items]

mutual

theorem sitesInStmt_calls (Γ : TypeEnv) (table : TypeTable) :
    ∀ s : Stmt, (sitesInStmt T Γ table s).map SeenCall.call = callsInStmt T Γ s
  | .let_ _ _ e | .assign _ e | .return_ e => by
    simp only [sitesInStmt, callsInStmt, sitesInExpr_calls T Γ table e]
  | .print items => by
    simp only [sitesInStmt, callsInStmt, sitesInItems_calls T Γ table items]
  | .if_ c th el => by
    simp only [sitesInStmt, callsInStmt, List.map_append, sitesInExpr_calls T Γ table c,
      sitesInStmts_calls Γ table th, sitesInStmts_calls Γ (tableAfterAll th table) el]
  | .while_ c invariants body => by
    simp only [sitesInStmt, callsInStmt, List.map_append, sitesInExpr_calls T Γ table c,
      map_call_hidden, sitesInStmts_calls Γ table body]
  | .letTuple _ _ _ | .assert _ _ | .prove _ | .break_ | .continue_ | .indexAssign _ _ _ _
  | .fieldAssign _ _ _ | .for_ _ _ _ _ _ _ _ | .forIter _ _ _ _ | .taskSpawn _ _
  | .taskJoin _ => by
    simp only [sitesInStmt, map_call_hidden]

theorem sitesInStmts_calls (Γ : TypeEnv) (table : TypeTable) :
    ∀ ss : List Stmt, (sitesInStmts T Γ table ss).map SeenCall.call = callsInStmts T Γ ss
  | [] => by simp only [sitesInStmts, callsInStmts, List.map_nil]
  | s :: ss => by
    simp only [sitesInStmts, callsInStmts, List.map_append, sitesInStmt_calls Γ table s,
      sitesInStmts_calls (Γ.after T s) (tableAfter s table) ss]

end

/-! ## Rewriting -/

variable (generics : String → Bool)

theorem map_renamed_hidden (calls : List TypedCall) :
    (calls.map SeenCall.hidden).map (SeenCall.renamed generics) = calls.map Prod.fst := by
  induction calls with
  | nil => rfl
  | cons call calls ih =>
    simp only [List.map_cons, ih]
    rfl

/-- The name that a call gets is that of its site. -/
theorem rewriteCall_eq (Γ : TypeEnv) (table : TypeTable) (name : String) (args : List Expr) :
    rewriteCall generics table name args =
      SeenCall.renamed generics ⟨name, args.head?.bind (T.argument Γ),
        args.head?.map (inferArgument table)⟩ := by
  cases args with
  | nil => rfl
  | cons first rest =>
    simp only [rewriteCall, SeenCall.renamed, List.head?_cons, Option.map_some]
    cases inferArgument table first <;> rfl

mutual

/-- The calls after the pass, from the call sites before it. -/
theorem calledInExpr_rewrite (Γ : TypeEnv) (table : TypeTable) :
    ∀ e : Expr, calledInExpr (rewriteExpr generics table e) =
      (sitesInExpr T Γ table e).map (SeenCall.renamed generics)
  | .call name args => by
    simp only [rewriteExpr, calledInExpr, sitesInExpr, List.map_cons,
      rewriteCall_eq T generics Γ table, calledInExprs_rewrite Γ table args]
  | .binary _ l r => by
    simp only [rewriteExpr, calledInExpr, sitesInExpr, List.map_append,
      calledInExpr_rewrite Γ table l, calledInExpr_rewrite Γ table r]
  | .unary _ e => by
    simp only [rewriteExpr, calledInExpr, sitesInExpr, calledInExpr_rewrite Γ table e]
  | .int _ | .float _ | .bool _ | .str _ | .var _ | .methodCall _ _ _ | .cast _ _ | .arrayLit _
  | .index _ _ | .len _ | .ref _ | .refMut _ | .tuple _ | .tupleAccess _ _ | .structLit _ _
  | .fieldAccess _ _ | .match_ _ _ | .ifExpr _ _ _ | .block _ _ | .try_ _ | .anonFn _ _ _ => by
    simp only [rewriteExpr, sitesInExpr, map_renamed_hidden, callsInExpr_names]

theorem calledInExprs_rewrite (Γ : TypeEnv) (table : TypeTable) :
    ∀ es : List Expr, calledInExprs (rewriteExprs generics table es) =
      (sitesInExprs T Γ table es).map (SeenCall.renamed generics)
  | [] => by simp only [rewriteExprs, calledInExprs, sitesInExprs, List.map_nil]
  | e :: es => by
    simp only [rewriteExprs, calledInExprs, sitesInExprs, List.map_append,
      calledInExpr_rewrite Γ table e, calledInExprs_rewrite Γ table es]

end

theorem calledInItems_rewrite (Γ : TypeEnv) (table : TypeTable) :
    ∀ items : List PrintItem, calledInItems (rewriteItems generics table items) =
      (sitesInItems T Γ table items).map (SeenCall.renamed generics)
  | [] => by simp only [rewriteItems, calledInItems, sitesInItems, List.map_nil]
  | .expr e :: items => by
    simp only [rewriteItems, calledInItems, sitesInItems, List.map_append,
      calledInExpr_rewrite T generics Γ table e, calledInItems_rewrite Γ table items]
  | .str _ :: items => by
    simp only [rewriteItems, calledInItems, sitesInItems, calledInItems_rewrite Γ table items]

mutual

theorem rewriteStmt_table : ∀ (s : Stmt) (table : TypeTable),
    (rewriteStmt generics s table).2 = tableAfter s table
  | .if_ _ th el, table => by
    simp only [rewriteStmt, tableAfter, rewriteStmts_table th, rewriteStmts_table el]
  | .while_ _ _ body, table => by
    simp only [rewriteStmt, tableAfter, rewriteStmts_table body]
  | .let_ _ _ _, _ | .letTuple _ _ _, _ | .return_ _, _ | .assert _ _, _ | .prove _, _
  | .print _, _ | .assign _ _, _ | .break_, _ | .continue_, _ | .indexAssign _ _ _ _, _
  | .fieldAssign _ _ _, _ | .for_ _ _ _ _ _ _ _, _ | .forIter _ _ _ _, _ | .taskSpawn _ _, _
  | .taskJoin _, _ => by
    simp only [rewriteStmt, tableAfter]

theorem rewriteStmts_table : ∀ (ss : List Stmt) (table : TypeTable),
    (rewriteStmts generics ss table).2 = tableAfterAll ss table
  | [], table => by simp only [rewriteStmts, tableAfterAll]
  | s :: ss, table => by
    simp only [rewriteStmts, tableAfterAll, rewriteStmt_table s, rewriteStmts_table ss]

end

mutual

theorem calledInStmt_rewrite (Γ : TypeEnv) :
    ∀ (s : Stmt) (table : TypeTable), calledInStmt (rewriteStmt generics s table).1 =
      (sitesInStmt T Γ table s).map (SeenCall.renamed generics)
  | .let_ _ _ e, table | .assign _ e, table | .return_ e, table => by
    simp only [rewriteStmt, calledInStmt, sitesInStmt, calledInExpr_rewrite T generics Γ table e]
  | .print items, table => by
    simp only [rewriteStmt, calledInStmt, sitesInStmt,
      calledInItems_rewrite T generics Γ table items]
  | .if_ c th el, table => by
    simp only [rewriteStmt, calledInStmt, sitesInStmt, List.map_append, rewriteStmts_table,
      calledInExpr_rewrite T generics Γ table c, calledInStmts_rewrite Γ th table,
      calledInStmts_rewrite Γ el (tableAfterAll th table)]
  | .while_ c invariants body, table => by
    simp only [rewriteStmt, calledInStmt, sitesInStmt, List.map_append, map_renamed_hidden,
      calledInExpr_rewrite T generics Γ table c, callsInExprs_names,
      calledInStmts_rewrite Γ body table]
  | .letTuple _ _ _, _ | .assert _ _, _ | .prove _, _ | .break_, _ | .continue_, _
  | .indexAssign _ _ _ _, _ | .fieldAssign _ _ _, _ | .for_ _ _ _ _ _ _ _, _
  | .forIter _ _ _ _, _ | .taskSpawn _ _, _ | .taskJoin _, _ => by
    simp only [rewriteStmt, sitesInStmt, map_renamed_hidden, callsInStmt_names]

theorem calledInStmts_rewrite (Γ : TypeEnv) :
    ∀ (ss : List Stmt) (table : TypeTable), calledInStmts (rewriteStmts generics ss table).1 =
      (sitesInStmts T Γ table ss).map (SeenCall.renamed generics)
  | [], table => by simp only [rewriteStmts, calledInStmts, sitesInStmts, List.map_nil]
  | s :: ss, table => by
    simp only [rewriteStmts, calledInStmts, sitesInStmts, List.map_append, rewriteStmt_table,
      calledInStmt_rewrite Γ s table,
      calledInStmts_rewrite (Γ.after T s) ss (tableAfter s table)]

end

/-! ## Collecting -/

/-- What the pass does at a call site. -/
def Collected.visit (c : Collected) (site : SeenCall) : Collected :=
  if generics site.name then
    match site.inferred with
    | some (.ok ty) => c.need site.name ty
    | some (.error error) => c.report error
    | none => c
  else c

theorem visit_hidden (calls : List TypedCall) (c : Collected) :
    (calls.map SeenCall.hidden).foldl (Collected.visit generics) c = c := by
  induction calls generalizing c with
  | nil => rfl
  | cons call calls ih =>
    have hcall : Collected.visit generics c (.hidden call) = c := by
      unfold Collected.visit
      split <;> rfl
    rw [List.map_cons, List.foldl_cons, hcall, ih]

theorem visit_call (Γ : TypeEnv) (table : TypeTable) (name : String) (args : List Expr)
    (c : Collected) :
    (if generics name then c.call table name args else c) =
      Collected.visit generics c ⟨name, args.head?.bind (T.argument Γ),
        args.head?.map (inferArgument table)⟩ := by
  unfold Collected.visit
  split
  · cases args with
    | nil => rfl
    | cons first rest =>
      simp only [Collected.call, List.head?_cons, Option.map_some]
      cases inferArgument table first <;> rfl
  · rfl

mutual

/-- The pass visits the call sites in their order. -/
theorem collectInExpr_eq (Γ : TypeEnv) (table : TypeTable) :
    ∀ (e : Expr) (c : Collected), collectInExpr generics table e c =
      (sitesInExpr T Γ table e).foldl (Collected.visit generics) c
  | .call name args, c => by
    simp only [collectInExpr, sitesInExpr, List.foldl_cons, visit_call T generics Γ table,
      collectInExprs_eq Γ table args]
  | .binary _ l r, c => by
    simp only [collectInExpr, sitesInExpr, List.foldl_append, collectInExpr_eq Γ table l,
      collectInExpr_eq Γ table r]
  | .unary _ e, c => by
    simp only [collectInExpr, sitesInExpr, collectInExpr_eq Γ table e]
  | .int _, _ | .float _, _ | .bool _, _ | .str _, _ | .var _, _ | .methodCall _ _ _, _
  | .cast _ _, _ | .arrayLit _, _ | .index _ _, _ | .len _, _ | .ref _, _ | .refMut _, _
  | .tuple _, _ | .tupleAccess _ _, _ | .structLit _ _, _ | .fieldAccess _ _, _
  | .match_ _ _, _ | .ifExpr _ _ _, _ | .block _ _, _ | .try_ _, _ | .anonFn _ _ _, _ => by
    simp only [collectInExpr, sitesInExpr, visit_hidden]

theorem collectInExprs_eq (Γ : TypeEnv) (table : TypeTable) :
    ∀ (es : List Expr) (c : Collected), collectInExprs generics table es c =
      (sitesInExprs T Γ table es).foldl (Collected.visit generics) c
  | [], c => by simp only [collectInExprs, sitesInExprs, List.foldl_nil]
  | e :: es, c => by
    simp only [collectInExprs, sitesInExprs, List.foldl_append, collectInExpr_eq Γ table e,
      collectInExprs_eq Γ table es]

end

theorem collectInItems_eq (Γ : TypeEnv) (table : TypeTable) :
    ∀ (items : List PrintItem) (c : Collected), collectInItems generics table items c =
      (sitesInItems T Γ table items).foldl (Collected.visit generics) c
  | [], c => by simp only [collectInItems, sitesInItems, List.foldl_nil]
  | .expr e :: items, c => by
    simp only [collectInItems, sitesInItems, List.foldl_append,
      collectInExpr_eq T generics Γ table e, collectInItems_eq Γ table items]
  | .str _ :: items, c => by
    simp only [collectInItems, sitesInItems, collectInItems_eq Γ table items]

mutual

theorem collectInStmt_eq (Γ : TypeEnv) :
    ∀ (s : Stmt) (table : TypeTable) (c : Collected), collectInStmt generics s (table, c) =
      (tableAfter s table, (sitesInStmt T Γ table s).foldl (Collected.visit generics) c)
  | .let_ _ _ e, table, c | .assign _ e, table, c | .return_ e, table, c => by
    simp only [collectInStmt, tableAfter, sitesInStmt, collectInExpr_eq T generics Γ table e]
  | .print items, table, c => by
    simp only [collectInStmt, tableAfter, sitesInStmt, collectInItems_eq T generics Γ table items]
  | .if_ cond th el, table, c => by
    simp only [collectInStmt, tableAfter, sitesInStmt, List.foldl_append,
      collectInExpr_eq T generics Γ table cond, collectInStmts_eq Γ th table,
      collectInStmts_eq Γ el (tableAfterAll th table)]
  | .while_ cond invariants body, table, c => by
    simp only [collectInStmt, tableAfter, sitesInStmt, List.foldl_append, visit_hidden,
      collectInExpr_eq T generics Γ table cond, collectInStmts_eq Γ body table]
  | .letTuple _ _ _, _, _ | .assert _ _, _, _ | .prove _, _, _ | .break_, _, _
  | .continue_, _, _ | .indexAssign _ _ _ _, _, _ | .fieldAssign _ _ _, _, _
  | .for_ _ _ _ _ _ _ _, _, _ | .forIter _ _ _ _, _, _ | .taskSpawn _ _, _, _
  | .taskJoin _, _, _ => by
    simp only [collectInStmt, tableAfter, sitesInStmt, visit_hidden]

theorem collectInStmts_eq (Γ : TypeEnv) :
    ∀ (ss : List Stmt) (table : TypeTable) (c : Collected), collectInStmts generics ss (table, c) =
      (tableAfterAll ss table, (sitesInStmts T Γ table ss).foldl (Collected.visit generics) c)
  | [], table, c => by
    simp only [collectInStmts, tableAfterAll, sitesInStmts, List.foldl_nil]
  | s :: ss, table, c => by
    simp only [collectInStmts, tableAfterAll, sitesInStmts, List.foldl_append,
      collectInStmt_eq Γ s table, collectInStmts_eq (Γ.after T s) ss (tableAfter s table)]

end

end

end Vani.Analysis
