import Vani.Model.BranchPaths

/-!
# Assignments to outer bindings

Which bindings of the scope around it a statement or an expression assigns. A `let` hides its
name up to the end of its block, the variable of a loop and the binding of a match arm hide
theirs in the body. An assignment is one to a binding or to an element of it.
-/

set_option autoImplicit false

namespace Vani.Model

open Vani.Program

/-! ## By scope -/

mutual

/-- The bindings of the scope around it that an expression assigns, which only the statements
of its blocks do. -/
def exprAssigns : TypedExpr → List String
  | ⟨.unary _ e, _⟩ | ⟨.cast e _, _⟩ | ⟨.len e _, _⟩ | ⟨.tupleAccess e _, _⟩
  | ⟨.fieldAccess e _, _⟩ | ⟨.enumVariantWithPayload _ _ _ e, _⟩ | ⟨.dynCoerce e _ _, _⟩ =>
    exprAssigns e
  | ⟨.binary _ a b _, _⟩ | ⟨.index a b _, _⟩ => exprAssigns a ++ exprAssigns b
  | ⟨.call _ es, _⟩ | ⟨.arrayLit es, _⟩ | ⟨.tuple es, _⟩ => exprsAssigns es
  | ⟨.callIndirect e es, _⟩ | ⟨.dynDispatch e _ _ _ es, _⟩ => exprAssigns e ++ exprsAssigns es
  | ⟨.structLit _ fields, _⟩ => fieldsAssigns fields
  | ⟨.match_ scrutinee arms, _⟩ => exprAssigns scrutinee ++ armsAssigns arms
  | ⟨.ifExpr c t e, _⟩ => exprAssigns c ++ (exprAssigns t ++ exprAssigns e)
  | ⟨.block stmts tail, _⟩ => stmtsAssigns stmts (exprAssigns tail)
  | _ => []

def exprsAssigns : List TypedExpr → List String
  | [] => []
  | e :: es => exprAssigns e ++ exprsAssigns es

def fieldsAssigns : List (String × TypedExpr) → List String
  | [] => []
  | (_, e) :: fields => exprAssigns e ++ fieldsAssigns fields

def armsAssigns : List TypedMatchArm → List String
  | [] => []
  | ⟨_, _, _, binding, body⟩ :: arms =>
    hide (binding.map Prod.fst).toList (exprAssigns body) ++ armsAssigns arms

def itemsAssigns : List TypedPrintItem → List String
  | [] => []
  | .expr e :: items => exprAssigns e ++ itemsAssigns items
  | .str _ :: items => itemsAssigns items

/-- The bindings of the scope around it that a statement assigns. -/
def stmtAssigns : TypedStmt → List String
  | .let_ _ _ e | .discard e | .return_ e | .assert e _ | .prove e => exprAssigns e
  | .reassign name _ e _ => exprAssigns e ++ [name]
  | .print items => itemsAssigns items
  | .if_ c th el => exprAssigns c ++ (stmtsAssigns th [] ++ stmtsAssigns el [])
  | .while_ c body => exprAssigns c ++ stmtsAssigns body []
  | .indexAssign name _ index _ value _ => exprAssigns index ++ exprAssigns value ++ [name]
  | .fieldAssign object _ _ value => exprAssigns object ++ exprAssigns value
  | .for_ var _ start end_ body _ _ =>
    exprAssigns start ++ exprAssigns end_ ++ hide [var] (stmtsAssigns body [])
  | .forIter var _ _ _ _ body => hide [var] (stmtsAssigns body [])
  | .taskSpawn _ body _ => stmtsAssigns body []
  | .drop .. | .break_ | .continue_ | .taskJoin _ => []

/-- The bindings of the scope around a block that its statements assign, and what comes after
them. -/
def stmtsAssigns : List TypedStmt → List String → List String
  | [], rest => rest
  | s :: ss, rest => stmtAssigns s ++ hide (declaredBy s) (stmtsAssigns ss rest)

end

/-- The bindings outside of a loop that its body assigns. -/
def assignedOutside (body : List TypedStmt) : List String := stmtsAssigns body []

/-! ## By the order of the text -/

/-- What a statement does to a name. -/
inductive BindingEvent
  | declares (name : String)
  | assigns (name : String)
  deriving DecidableEq

namespace BindingEvent

def name : BindingEvent → String
  | declares n | assigns n => n

end BindingEvent

mutual

/-- The `let`s and assignments among the statements, those inside of expressions left out. -/
def stmtMentions : TypedStmt → List BindingEvent
  | .let_ name _ _ => [.declares name]
  | .reassign name _ _ _ | .indexAssign name _ _ _ _ _ => [.assigns name]
  | .if_ _ th el => stmtsMentions th ++ stmtsMentions el
  | .while_ _ body | .for_ _ _ _ _ body _ _ | .forIter _ _ _ _ _ body | .taskSpawn _ body _ =>
    stmtsMentions body
  | _ => []

def stmtsMentions : List TypedStmt → List BindingEvent
  | [] => []
  | s :: ss => stmtMentions s ++ stmtsMentions ss

end

/-- The first mention of the name is an assignment. -/
def FirstAssigned (x : String) (ms : List BindingEvent) : Prop :=
  (ms.filter (·.name = x)).head? = some (.assigns x)

instance (x : String) (ms : List BindingEvent) : Decidable (FirstAssigned x ms) :=
  inferInstanceAs (Decidable (_ = _))

/-- The body assigns the name before it declares it. -/
def AssignedFirst (x : String) (body : List TypedStmt) : Prop :=
  FirstAssigned x (stmtsMentions body)

/-! ## Late assignments -/

mutual

/-- The outer bindings that a statement assigns inside of an expression, or behind a `let` of
the same name; the names are those that `let`s before the statement have declared. -/
def stmtLate (before : List BindingEvent) : TypedStmt → List String
  | .let_ _ _ e | .discard e | .return_ e | .assert e _ | .prove e => exprAssigns e
  | .reassign name _ e _ => exprAssigns e ++ if .declares name ∈ before then [name] else []
  | .print items => itemsAssigns items
  | .if_ c th el =>
    exprAssigns c ++ (stmtsLate before th ++ stmtsLate (before ++ stmtsMentions th) el)
  | .while_ c body => exprAssigns c ++ stmtsLate before body
  | .indexAssign name _ index _ value _ =>
    exprAssigns index ++ exprAssigns value ++ if .declares name ∈ before then [name] else []
  | .fieldAssign object _ _ value => exprAssigns object ++ exprAssigns value
  | .for_ var _ start end_ body _ _ =>
    exprAssigns start ++ exprAssigns end_ ++ hide [var] (stmtsLate before body)
  | .forIter var _ _ _ _ body => hide [var] (stmtsLate before body)
  | .taskSpawn _ body _ => stmtsLate before body
  | .drop .. | .break_ | .continue_ | .taskJoin _ => []

/-- The statements of a block that come behind some mentions. -/
def stmtsLate (before : List BindingEvent) : List TypedStmt → List String
  | [] => []
  | s :: ss => stmtLate before s ++ hide (declaredBy s) (stmtsLate (before ++ stmtMentions s) ss)

end

/-- The bindings outside of a loop that its body assigns late: in an expression, or behind a
`let` of the same name whose block has ended. -/
def assignedLate (body : List TypedStmt) : List String := stmtsLate [] body

end Vani.Model
