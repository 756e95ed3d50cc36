import Vani.Program.BranchDrops

/-!
# Paths through the branches of an expression

A path takes one branch at every `if` and every match and yields the variable it ends at.
On the way it evaluates conditions, scrutinees and the statements of blocks, which read some
of the variables they mention, and it passes drops. What a block or an arm declares for
itself is not seen outside of it, under whatever name.
-/

set_option autoImplicit false

namespace Vani.Model

open Vani.Program

/-! ## Variables that are mentioned -/

/-- The names that are not among the given ones. -/
def hide (inner names : List String) : List String := names.filter (· ∉ inner)

theorem mem_hide {inner names : List String} {x : String} :
    x ∈ hide inner names ↔ x ∈ names ∧ x ∉ inner := by
  rw [hide, List.mem_filter, decide_eq_true_eq]

/-- `let` is the only statement that declares a name for those after it in a block. -/
def declaredBy (s : TypedStmt) : List String := declaredIn [s]

/-- The name an arm's pattern binds. -/
def boundBy (arm : TypedMatchArm) : List String := (arm.binding.map Prod.fst).toList

mutual

/-- The variables of the scope around it that an expression mentions. -/
def exprReads : TypedExpr → List String
  | ⟨.var x, _⟩ | ⟨.ref x, _⟩ | ⟨.refMut x, _⟩ | ⟨.refField x _, _⟩ | ⟨.refMutField x _, _⟩ => [x]
  | ⟨.unary _ e, _⟩ | ⟨.cast e _, _⟩ | ⟨.len e _, _⟩ | ⟨.tupleAccess e _, _⟩
  | ⟨.fieldAccess e _, _⟩ | ⟨.enumVariantWithPayload _ _ _ e, _⟩ | ⟨.dynCoerce e _ _, _⟩ =>
    exprReads e
  | ⟨.binary _ a b _, _⟩ | ⟨.index a b _, _⟩ => exprReads a ++ exprReads b
  | ⟨.call _ es, _⟩ | ⟨.arrayLit es, _⟩ | ⟨.tuple es, _⟩ => exprsReads es
  | ⟨.callIndirect e es, _⟩ | ⟨.dynDispatch e _ _ _ es, _⟩ => exprReads e ++ exprsReads es
  | ⟨.structLit _ fields, _⟩ => fieldsReads fields
  | ⟨.match_ scrutinee arms, _⟩ => exprReads scrutinee ++ armsReads arms
  | ⟨.ifExpr c t e, _⟩ => exprReads c ++ (exprReads t ++ exprReads e)
  | ⟨.block stmts tail, _⟩ => stmtsReads stmts (exprReads tail)
  | ⟨.int _, _⟩ | ⟨.float _, _⟩ | ⟨.bool _, _⟩ | ⟨.str _, _⟩ | ⟨.fnRef _, _⟩
  | ⟨.enumVariant _ _ _, _⟩ => []

def exprsReads : List TypedExpr → List String
  | [] => []
  | e :: es => exprReads e ++ exprsReads es

def fieldsReads : List (String × TypedExpr) → List String
  | [] => []
  | (_, e) :: fields => exprReads e ++ fieldsReads fields

def armsReads : List TypedMatchArm → List String
  | [] => []
  | ⟨_, _, _, binding, body⟩ :: arms =>
    hide (binding.map Prod.fst).toList (exprReads body) ++ armsReads arms

def itemsReads : List TypedPrintItem → List String
  | [] => []
  | .expr e :: items => exprReads e ++ itemsReads items
  | .str _ :: items => itemsReads items

/-- The variables a statement mentions. A drop is an event of its own. -/
def stmtReads : TypedStmt → List String
  | .let_ _ _ e | .reassign _ _ e _ | .discard e | .return_ e | .assert e _ | .prove e =>
    exprReads e
  | .print items => itemsReads items
  | .if_ c th el => exprReads c ++ (stmtsReads th [] ++ stmtsReads el [])
  | .while_ c body => exprReads c ++ stmtsReads body []
  | .indexAssign name _ index _ value _ => name :: (exprReads index ++ exprReads value)
  | .fieldAssign object _ _ value => exprReads object ++ exprReads value
  | .for_ var _ start end_ body _ _ =>
    exprReads start ++ (exprReads end_ ++ hide [var] (stmtsReads body []))
  | .forIter var _ collection _ _ body => collection :: hide [var] (stmtsReads body [])
  | .taskSpawn _ body _ => stmtsReads body []
  | .drop .. | .break_ | .continue_ | .taskJoin _ => []

/-- The variables mentioned by the statements of a block and by what comes after them. -/
def stmtsReads : List TypedStmt → List String → List String
  | [], rest => rest
  | s :: ss, rest => stmtReads s ++ hide (declaredBy s) (stmtsReads ss rest)

end

/-! ## Paths -/

inductive LeafEvent
  | read (name : String)
  | drop (name : String)
  deriving DecidableEq

namespace LeafEvent

def var : LeafEvent → String
  | read name | drop name => name

end LeafEvent

/-- The events about other variables than those that are declared inside. -/
def outside (inner : List String) (es : List LeafEvent) : List LeafEvent :=
  es.filter (·.var ∉ inner)

/-- The statements of a block on a path. -/
inductive StmtsPath : List TypedStmt → List LeafEvent → Prop
  | nil : StmtsPath [] []
  | drop {x : String} {ty : Ty} {moved : List String} {ss : List TypedStmt}
      {es : List LeafEvent} (h : StmtsPath ss es) :
      StmtsPath (.drop x ty moved :: ss) (.drop x :: es)
  | step {s : TypedStmt} {ss : List TypedStmt} {rs : List String} {es : List LeafEvent}
      (hs : ∀ x ty moved, s ≠ .drop x ty moved) (hr : ∀ x ∈ rs, x ∈ stmtReads s)
      (h : StmtsPath ss es) :
      StmtsPath (s :: ss) (rs.map .read ++ outside (declaredBy s) es)

/-- The paths through the branches of an expression. A path yields a variable of the scope
around the expression, or one that is declared inside. -/
inductive BranchPath : TypedExpr → List LeafEvent → Option String → Prop
  | var {x : String} {ty : Ty} : BranchPath ⟨.var x, ty⟩ [] (some x)
  | then_ {c t e : TypedExpr} {ty : Ty} {rs : List String} {es : List LeafEvent}
      {y : Option String} (hr : ∀ x ∈ rs, x ∈ exprReads c) (h : BranchPath t es y) :
      BranchPath ⟨.ifExpr c t e, ty⟩ (rs.map .read ++ es) y
  | else_ {c t e : TypedExpr} {ty : Ty} {rs : List String} {es : List LeafEvent}
      {y : Option String} (hr : ∀ x ∈ rs, x ∈ exprReads c) (h : BranchPath e es y) :
      BranchPath ⟨.ifExpr c t e, ty⟩ (rs.map .read ++ es) y
  | arm {s : TypedExpr} {arms : List TypedMatchArm} {ty : Ty} {arm : TypedMatchArm}
      {rs : List String} {es : List LeafEvent} {y : Option String}
      (hr : ∀ x ∈ rs, x ∈ exprReads s) (hmem : arm ∈ arms) (h : BranchPath arm.body es y) :
      BranchPath ⟨.match_ s arms, ty⟩ (rs.map .read ++ outside (boundBy arm) es)
        (y.filter (· ∉ boundBy arm))
  | block {stmts : List TypedStmt} {tail : TypedExpr} {ty : Ty} {es es' : List LeafEvent}
      {y : Option String} (hs : StmtsPath stmts es) (h : BranchPath tail es' y) :
      BranchPath ⟨.block stmts tail, ty⟩ (es ++ outside (declaredIn stmts) es')
        (y.filter (· ∉ declaredIn stmts))

/-- The events about one variable. -/
def eventsAbout (x : String) (es : List LeafEvent) : List LeafEvent := es.filter (·.var = x)

/-- A variable is dropped once, and nothing happens to it after that. -/
def DroppedLast (x : String) (es : List LeafEvent) : Prop :=
  ∃ before, eventsAbout x es = before ++ [.drop x] ∧ .drop x ∉ before

/-- What a path has to do with the variables that are moved: it yields one of them, unless
it yields a variable declared inside, and does not drop it; every other one it drops once,
and does not read it afterwards. -/
structure Balanced (leaves : List String) (es : List LeafEvent) (y : Option String) : Prop where
  mem : ∀ x, y = some x → x ∈ leaves
  kept : ∀ x, y = some x → .drop x ∉ es
  dropped : ∀ x ∈ leaves, y ≠ some x → DroppedLast x es

end Vani.Model
