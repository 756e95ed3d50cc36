import Vani.Program.Ir

/-!
# Paths through a body and the tasks on them

A path takes either branch of every `if` and any number of turns of every loop, up to the
end of the body or to the statement that leaves it. Every spawn on it makes a task of its
own, and a name stands for the task it was given last where the path is. A task runs its
body on a thread of its own, as a function of its own, so that a statement which leaves the
body ends the task and nothing else. What the thread does is written down at the spawn: its
events are about other tasks than those of the path that goes on beside it.
-/

set_option autoImplicit false

namespace Vani.Model

open Vani.Program

/-- How a path gets out of a part of a body. -/
inductive Leave
  | falls
  | returns
  | breaks
  | continues
  deriving DecidableEq

inductive TaskEvent
  | spawn (id : Nat)
  | join (id : Nat)
  deriving DecidableEq

namespace TaskEvent

/-- The task an event is about. -/
def task : TaskEvent → Nat
  | spawn id | join id => id

end TaskEvent

/-- The task each name in scope stands for, and the first number not given to a task. -/
structure TaskEnv where
  handles : List (String × Nat)
  next : Nat

namespace TaskEnv

def lookup (t : TaskEnv) (name : String) : Option Nat := t.handles.lookup name

/-- The body of a new task starts. -/
def start (t : TaskEnv) : TaskEnv := { t with next := t.next + 1 }

/-- The new task gets its name, its body having gone as far as `t'`. -/
def bind (t t' : TaskEnv) (name : String) : TaskEnv :=
  { handles := (name, t.next) :: t.handles, next := t'.next }

/-- The end of an inner block: its names are gone. -/
def close (t t' : TaskEnv) : TaskEnv := { t with next := t'.next }

end TaskEnv

/-- What a path goes through: a statement, the rest of a block, the turns of a loop. -/
inductive Part
  | stmt (s : TypedStmt)
  | block (ss : List TypedStmt)
  | turns (body : List TypedStmt)

/-- The statements that a path passes without an event. -/
def isPlain : TypedStmt → Bool
  | .let_ .. | .reassign .. | .drop .. | .discard _ | .assert .. | .prove _ | .print _
  | .indexAssign .. | .fieldAssign .. => true
  | _ => false

/-- The body of a loop. -/
def loopBody : TypedStmt → Option (List TypedStmt)
  | .while_ _ body | .for_ _ _ _ _ body _ _ | .forIter _ _ _ _ _ body => some body
  | _ => none

/-- The paths through a part of a body. -/
inductive Path : Part → TaskEnv → List TaskEvent → TaskEnv → Leave → Prop
  | plain {s : TypedStmt} {t : TaskEnv} (h : isPlain s = true) : Path (.stmt s) t [] t .falls
  | return_ {e : TypedExpr} {t : TaskEnv} : Path (.stmt (.return_ e)) t [] t .returns
  | break_ {t : TaskEnv} : Path (.stmt .break_) t [] t .breaks
  | continue_ {t : TaskEnv} : Path (.stmt .continue_) t [] t .continues
  | spawn {name : String} {body : List TypedStmt} {captures : List (String × Ty)}
      {t t' : TaskEnv} {es : List TaskEvent} {x : Leave}
      (hbody : Path (.block body) t.start es t' x) :
      Path (.stmt (.taskSpawn name body captures)) t (.spawn t.next :: es) (t.bind t' name)
        .falls
  | join {name : String} {id : Nat} {t : TaskEnv} (h : t.lookup name = some id) :
      Path (.stmt (.taskJoin name)) t [.join id] t .falls
  | then_ {c : TypedExpr} {th el : List TypedStmt} {t t' : TaskEnv} {es : List TaskEvent}
      {x : Leave} (hbody : Path (.block th) t es t' x) :
      Path (.stmt (.if_ c th el)) t es (t.close t') x
  | else_ {c : TypedExpr} {th el : List TypedStmt} {t t' : TaskEnv} {es : List TaskEvent}
      {x : Leave} (hbody : Path (.block el) t es t' x) :
      Path (.stmt (.if_ c th el)) t es (t.close t') x
  | loop {s : TypedStmt} {body : List TypedStmt} {t t' : TaskEnv} {es : List TaskEvent}
      {x : Leave} (h : loopBody s = some body) (hturns : Path (.turns body) t es t' x) :
      Path (.stmt s) t es t' x
  | nil {t : TaskEnv} : Path (.block []) t [] t .falls
  | cons {s : TypedStmt} {ss : List TypedStmt} {t t₁ t₂ : TaskEnv} {es es' : List TaskEvent}
      {x : Leave} (hs : Path (.stmt s) t es t₁ .falls) (hss : Path (.block ss) t₁ es' t₂ x) :
      Path (.block (s :: ss)) t (es ++ es') t₂ x
  | leave {s : TypedStmt} {ss : List TypedStmt} {t t' : TaskEnv} {es : List TaskEvent}
      {x : Leave} (hs : Path (.stmt s) t es t' x) (hx : x ≠ .falls) :
      Path (.block (s :: ss)) t es t' x
  | done {body : List TypedStmt} {t : TaskEnv} : Path (.turns body) t [] t .falls
  | turn {body : List TypedStmt} {t t₁ t₂ : TaskEnv} {es es' : List TaskEvent} {x y : Leave}
      (hbody : Path (.block body) t es t₁ x) (hx : x = .falls ∨ x = .continues)
      (hturns : Path (.turns body) (t.close t₁) es' t₂ y) :
      Path (.turns body) t (es ++ es') t₂ y
  | break_turn {body : List TypedStmt} {t t' : TaskEnv} {es : List TaskEvent}
      (hbody : Path (.block body) t es t' .breaks) : Path (.turns body) t es (t.close t') .falls
  | return_turn {body : List TypedStmt} {t t' : TaskEnv} {es : List TaskEvent}
      (hbody : Path (.block body) t es t' .returns) :
      Path (.turns body) t es (t.close t') .returns

/-- The events about one task. -/
def eventsOf (id : Nat) (es : List TaskEvent) : List TaskEvent :=
  es.filter fun e => e.task = id

@[simp] theorem eventsOf_append (id : Nat) (es es' : List TaskEvent) :
    eventsOf id (es ++ es') = eventsOf id es ++ eventsOf id es' :=
  List.filter_append es es'

theorem eventsOf_cons_self {id : Nat} {e : TaskEvent} (h : e.task = id) (es : List TaskEvent) :
    eventsOf id (e :: es) = e :: eventsOf id es :=
  List.filter_cons_of_pos (decide_eq_true h)

theorem eventsOf_cons_ne {id : Nat} {e : TaskEvent} (h : e.task ≠ id) (es : List TaskEvent) :
    eventsOf id (e :: es) = eventsOf id es :=
  List.filter_cons_of_neg (by rw [decide_eq_true_eq]; exact h)

/-- Every task that is spawned is joined exactly once, and after its spawn. -/
def TaskAffine (es : List TaskEvent) : Prop :=
  ∀ id, .spawn id ∈ es → eventsOf id es = [.spawn id, .join id]

end Vani.Model
