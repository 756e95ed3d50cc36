import Vani.Model.Eval
import Vani.Program.Check

/-!
# Running a function body

A function body runs on a machine whose configurations carry, next to the store, the
program point the run is at: the statements still to execute and the knowledge the
checker has there. A nested body is entered by pushing a frame, which remembers the
construct and the knowledge before it; the run leaves the body normally, by `break` or
by `continue`, and unwinds to the frame that answers. Every turn of a loop starts its
body with the same knowledge, as the checker visits the body once.

A step is labelled with the names it assigns and the names it binds anew.
-/

set_option autoImplicit false

namespace Vani.Model

open Vani.Program

/-- A place in the body: what the checker knows there, and the statements that follow. -/
structure Point where
  st : CheckState
  code : List Stmt

/-- How a nested body is left. -/
inductive Signal
  | normal
  | brk
  | cont
  deriving DecidableEq

/-- A construct whose body is being executed, with the knowledge before it and the
statements after it. A range loop remembers its limit and the next value of its
variable, an element loop the next slot and the number of slots. -/
inductive Frame
  | branch (st : CheckState) (cond : Expr) (thenBody elseBody : List Stmt) (taken : Bool)
      (rest : List Stmt)
  | while_ (st : CheckState) (cond : Expr) (invariants : List Expr) (body rest : List Stmt)
  | for_ (st : CheckState) (var : String) (start end_ : Expr) (invariants : List Expr)
      (body : List Stmt) (parallel : Bool) (reductions : List Reduction)
      (next limit : Value) (rest : List Stmt)
  | forIter (st : CheckState) (var collection : String) (consumes : Bool)
      (body : List Stmt) (next total : Nat) (rest : List Stmt)

namespace Frame

/-- The knowledge before the construct. -/
def st : Frame → CheckState
  | branch st _ _ _ _ _ => st
  | while_ st _ _ _ _ => st
  | for_ st _ _ _ _ _ _ _ _ _ _ => st
  | forIter st _ _ _ _ _ _ _ => st

/-- The construct. -/
def stmt : Frame → Stmt
  | branch _ cond t f _ _ => .if_ cond t f
  | while_ _ cond invs body _ => .while_ cond invs body
  | for_ _ var start end_ invs body par reds _ _ _ => .for_ var start end_ invs body par reds
  | forIter _ var coll consumes body _ _ _ => .forIter var coll consumes body

/-- The body being executed. -/
def body : Frame → List Stmt
  | branch _ _ t f taken _ => if taken then t else f
  | while_ _ _ _ body _ => body
  | for_ _ _ _ _ _ body _ _ _ _ _ => body
  | forIter _ _ _ _ body _ _ _ => body

/-- The statements after the construct. -/
def rest : Frame → List Stmt
  | branch _ _ _ _ _ rest => rest
  | while_ _ _ _ _ rest => rest
  | for_ _ _ _ _ _ _ _ _ _ _ rest => rest
  | forIter _ _ _ _ _ _ _ rest => rest

/-- Whether `break` and `continue` act on the construct. -/
def isLoop : Frame → Bool
  | branch _ _ _ _ _ _ => false
  | _ => true

/-- The point after the construct. -/
def exit (ctx : Context) (fr : Frame) : Point :=
  ⟨afterStmt ctx fr.st fr.stmt, fr.rest⟩

/-- Prepare the next turn of a loop when a body ends in the store `σ`. The variable of a
range loop is an ordinary binding, so the count goes on from its current value.
Source: ssa.rs:1547-1726 -/
def advance {W : Type} (P : Prims W) (σ : Store W) : Frame → Option Frame
  | branch _ _ _ _ _ _ => none
  | while_ st cond invs body rest => some (while_ st cond invs body rest)
  | for_ st var start end_ invs body par reds _ limit rest =>
    match lookupScopes σ.scopes var with
    | some (.scalar (.int t flexible k)) =>
      (P.runBinary .add (.scalar (.int t flexible k)) (.scalar (.int t false 1))).map fun v =>
        for_ st var start end_ invs body par reds v limit rest
    | _ => none
  | forIter st var coll consumes body next total rest =>
    some (forIter st var coll consumes body (next + 1) total rest)

end Frame

/-- What the machine does next: execute from a point, decide on a turn of a loop, or
leave the innermost body. -/
inductive Control
  | point (p : Point)
  | head (fr : Frame)
  | leaving (s : Signal)

/-- Where control goes when the branch of an `if` is left, `p` being the point after it. -/
def Signal.outOfBranch (p : Point) : Signal → Control
  | normal => .point p
  | s => .leaving s

/-- A configuration of the machine; the frames are innermost first. -/
structure Config (W : Type) where
  control : Control
  frames : List Frame
  store : Store W

/-- What a step does to the store's names. -/
structure Effect where
  writes : List String
  declares : List String

/-- The step touches no name. -/
def Effect.none : Effect := ⟨[], []⟩

/-- How the end of a statement list, `break` and `continue` leave the body. -/
def signal : List Stmt → Option Signal
  | [] => some .normal
  | .break_ :: _ => some .brk
  | .continue_ :: _ => some .cont
  | _ => none

/-- The variable and the field path of an assignable place. Source: checker.rs:8624-8731 -/
def objectPlace : Expr → Option (String × List String)
  | .var n => some (n, [])
  | .fieldAccess e f => (objectPlace e).map fun p => (p.1, p.2 ++ [f])
  | _ => none

/-- Replace what a field path leads to. -/
def updatePath : List String → Value → Value → Value
  | [], _, v => v
  | f :: path, .struct n fs, v =>
    .struct n (setField fs f (updatePath path ((fs.lookup f).getD v) v))
  | _ :: _, old, _ => old

/-- What a field path leads to. -/
def readPath : List String → Value → Option Value
  | [], v => some v
  | f :: path, .struct _ fs => (fs.lookup f).bind (readPath path)
  | _ :: _, _ => none

variable {W : Type}

/-- One step of the machine. Source: checker.rs:7413-9501, ssa.rs:613-1065 -/
inductive Step (ctx : Context) (P : Prims W) (T : Nominal) :
    Config W → Effect → Config W → Prop
  | let_ {st n ann e rest frs σ v v' σ' w} : n ≠ "_" →
      Eval P T (.expr e) σ (.val v) σ' w → coerce P ann v = some v' →
      Step ctx P T ⟨.point ⟨st, .let_ n ann e :: rest⟩, frs, σ⟩ ⟨w, [n]⟩
        ⟨.point ⟨afterStmt ctx st (.let_ n ann e), rest⟩, frs, σ'.declare n v'⟩
  | discard {st ann e rest frs σ v σ' w} : Eval P T (.expr e) σ (.val v) σ' w →
      Step ctx P T ⟨.point ⟨st, .let_ "_" ann e :: rest⟩, frs, σ⟩ ⟨w, []⟩
        ⟨.point ⟨st, rest⟩, frs, σ'⟩
  | letTuple {st names ann e rest frs σ vs σ' w} :
      Eval P T (.expr e) σ (.val (.tuple vs)) σ' w → names.length = vs.length →
      Step ctx P T ⟨.point ⟨st, .letTuple names ann e :: rest⟩, frs, σ⟩ ⟨w, names⟩
        ⟨.point ⟨afterStmt ctx st (.letTuple names ann e), rest⟩, frs,
          declareAll (names.zip vs) σ'⟩
  | assign {st n e rest frs σ old v v' σ' w} : Eval P T (.expr e) σ (.val v) σ' w →
      lookupScopes σ'.scopes n = some old → coerceLike P old v = some v' →
      Step ctx P T ⟨.point ⟨st, .assign n e :: rest⟩, frs, σ⟩ ⟨w ++ [n], []⟩
        ⟨.point ⟨afterStmt ctx st (.assign n e), rest⟩, frs, σ'.assign n v'⟩
  -- the contents before and after go into the ghosts, the former unless already there
  | indexAssign {st n i path e rest frs σ t b k v v' vs old slot stale σ' σ'' w w'} :
      Eval P T (.expr i) σ (.val (.scalar (.int t b k))) σ' w →
      Eval P T (.expr e) σ' (.val v) σ'' w' →
      lookupScopes σ''.scopes n = some (.seq vs) → 0 ≤ k → vs[k.toNat]? = some old →
      readPath path old = some slot → coerceLike P slot v = some v' →
      (stale = false → σ''.ghosts (versioned n (currentVersion st n)) = some (.seq vs)) →
      Step ctx P T ⟨.point ⟨st, .indexAssign n i path e :: rest⟩, frs, σ⟩
        ⟨w ++ w' ++ (n :: versioned n (currentVersion st n + 1) ::
          if stale then [versioned n (currentVersion st n)] else []), []⟩
        ⟨.point ⟨afterStmt ctx st (.indexAssign n i path e), rest⟩, frs,
          ((σ''.assign n (.seq (vs.set k.toNat (updatePath path old v')))).snapshot
            (versioned n (currentVersion st n)) (.seq vs)).snapshot
            (versioned n (currentVersion st n + 1))
            (.seq (vs.set k.toNat (updatePath path old v')))⟩
  | fieldAssign {st obj f e rest frs σ v v' n path old slot σ' w} :
      Eval P T (.expr e) σ (.val v) σ' w → objectPlace obj = some (n, path) →
      lookupScopes σ'.scopes n = some old → readPath (path ++ [f]) old = some slot →
      coerceLike P slot v = some v' →
      Step ctx P T ⟨.point ⟨st, .fieldAssign obj f e :: rest⟩, frs, σ⟩ ⟨w ++ [n], []⟩
        ⟨.point ⟨st, rest⟩, frs, σ'.assign n (updatePath (path ++ [f]) old v')⟩
  | assert {st e msg rest frs σ σ' w} :
      Eval P T (.expr e) σ (.val (.scalar (.bool true))) σ' w →
      Step ctx P T ⟨.point ⟨st, .assert e msg :: rest⟩, frs, σ⟩ ⟨w, []⟩
        ⟨.point ⟨st, rest⟩, frs, σ'⟩
  -- `prove` is discharged at compile time and generates nothing
  | prove {st e rest frs σ} :
      Step ctx P T ⟨.point ⟨st, .prove e :: rest⟩, frs, σ⟩ .none ⟨.point ⟨st, rest⟩, frs, σ⟩
  | print {st items rest frs σ vs σ' w} :
      Eval P T (.args (printExprs items)) σ (.vals vs) σ' w →
      Step ctx P T ⟨.point ⟨st, .print items :: rest⟩, frs, σ⟩ ⟨w, []⟩
        ⟨.point ⟨st, rest⟩, frs, σ'⟩
  | spawn {st n body rest frs σ h} :
      Step ctx P T ⟨.point ⟨st, .taskSpawn n body :: rest⟩, frs, σ⟩ ⟨[], [n]⟩
        ⟨.point ⟨afterStmt ctx st (.taskSpawn n body), rest⟩, frs, σ.declare n (.handle h)⟩
  -- the task itself: it runs on copies of what it captures, and joins nobody's frames
  | enterTask {st n body rest frs σ} :
      Step ctx P T ⟨.point ⟨st, .taskSpawn n body :: rest⟩, frs, σ⟩ .none
        ⟨.point ⟨taskBody st, body⟩, [], σ.push⟩
  | join {st n rest frs σ} :
      Step ctx P T ⟨.point ⟨st, .taskJoin n :: rest⟩, frs, σ⟩ .none
        ⟨.point ⟨st, rest⟩, frs, σ⟩
  | if_ {st c t f rest frs σ b σ' w} :
      Eval P T (.expr c) σ (.val (.scalar (.bool b))) σ' w →
      Step ctx P T ⟨.point ⟨st, .if_ c t f :: rest⟩, frs, σ⟩ ⟨w, []⟩
        ⟨.point ⟨ifBody st c b, if b then t else f⟩, .branch st c t f b rest :: frs, σ'.push⟩
  | while_ {st c invs body rest frs σ} :
      Step ctx P T ⟨.point ⟨st, .while_ c invs body :: rest⟩, frs, σ⟩ .none
        ⟨.head (.while_ st c invs body rest), frs, σ⟩
  -- both bounds are values of the loop's type, the promoted type of the two
  | for_ {st x s e invs body par reds rest frs σ t ts te bs be k l σ' σ'' w w'} :
      Eval P T (.expr s) σ (.val (.scalar (.int ts bs k))) σ' w →
      Eval P T (.expr e) σ' (.val (.scalar (.int te be l))) σ'' w' →
      valueFitsType k t = true → valueFitsType l t = true →
      Step ctx P T ⟨.point ⟨st, .for_ x s e invs body par reds :: rest⟩, frs, σ⟩
        ⟨w ++ w', []⟩ ⟨.head (.for_ st x s e invs body par reds (.scalar (.int t false k))
          (.scalar (.int t false l)) rest), frs, σ''⟩
  | forIter {st x xs consumes body rest frs σ vs} :
      lookupScopes σ.scopes xs = some (.seq vs) →
      Step ctx P T ⟨.point ⟨st, .forIter x xs consumes body :: rest⟩, frs, σ⟩ .none
        ⟨.head (.forIter st x xs consumes body 0 vs.length rest), frs, σ⟩
  | whileTrue {st c invs body rest frs σ σ' w} :
      Eval P T (.expr c) σ (.val (.scalar (.bool true))) σ' w →
      Step ctx P T ⟨.head (.while_ st c invs body rest), frs, σ⟩ ⟨w, []⟩
        ⟨.point ⟨whileBody st c invs, body⟩, .while_ st c invs body rest :: frs, σ'.push⟩
  | whileFalse {st c invs body rest frs σ σ' w} :
      Eval P T (.expr c) σ (.val (.scalar (.bool false))) σ' w →
      Step ctx P T ⟨.head (.while_ st c invs body rest), frs, σ⟩ ⟨w, []⟩
        ⟨.point ((Frame.while_ st c invs body rest).exit ctx), frs, σ'⟩
  | forTrue {st x s e invs body par reds v limit rest frs σ} :
      P.runBinary .lt v limit = some (.scalar (.bool true)) →
      Step ctx P T ⟨.head (.for_ st x s e invs body par reds v limit rest), frs, σ⟩ ⟨[], [x]⟩
        ⟨.point ⟨forBody ctx st x s e invs, body⟩,
          .for_ st x s e invs body par reds v limit rest :: frs, σ.push.declare x v⟩
  | forFalse {st x s e invs body par reds v limit rest frs σ} :
      P.runBinary .lt v limit = some (.scalar (.bool false)) →
      Step ctx P T ⟨.head (.for_ st x s e invs body par reds v limit rest), frs, σ⟩ .none
        ⟨.point ((Frame.for_ st x s e invs body par reds v limit rest).exit ctx), frs, σ⟩
  | iterTrue {st x xs consumes body k total rest frs σ vs v} : k < total →
      lookupScopes σ.scopes xs = some (.seq vs) → vs[k]? = some v →
      Step ctx P T ⟨.head (.forIter st x xs consumes body k total rest), frs, σ⟩ ⟨[], [x]⟩
        ⟨.point ⟨forIterBody ctx st x xs, body⟩,
          .forIter st x xs consumes body k total rest :: frs, σ.push.declare x v⟩
  | iterFalse {st x xs consumes body k total rest frs σ} : total ≤ k →
      Step ctx P T ⟨.head (.forIter st x xs consumes body k total rest), frs, σ⟩ .none
        ⟨.point ((Frame.forIter st x xs consumes body k total rest).exit ctx), frs, σ⟩
  | leave {st code s frs σ} : signal code = some s →
      Step ctx P T ⟨.point ⟨st, code⟩, frs, σ⟩ .none ⟨.leaving s, frs, σ⟩
  | branchOut {s st c t f b rest frs σ} :
      Step ctx P T ⟨.leaving s, .branch st c t f b rest :: frs, σ⟩ .none
        ⟨s.outOfBranch ((Frame.branch st c t f b rest).exit ctx), frs, σ.pop⟩
  | loopBreak {fr frs σ} : fr.isLoop = true →
      Step ctx P T ⟨.leaving .brk, fr :: frs, σ⟩ .none ⟨.point (fr.exit ctx), frs, σ.pop⟩
  | again {s fr fr' frs σ} : s ≠ .brk → fr.advance P σ = some fr' →
      Step ctx P T ⟨.leaving s, fr :: frs, σ⟩ .none ⟨.head fr', frs, σ.pop⟩

/-- Runs all of whose steps meet the condition `K` on the configuration before the step
and the names it touches. -/
inductive Run (ctx : Context) (P : Prims W) (T : Nominal)
    (K : Config W → Effect → Prop) (c₀ : Config W) : Config W → Prop
  | start : Run ctx P T K c₀ c₀
  | step {c eff c'} : Run ctx P T K c₀ c → K c eff → Step ctx P T c eff c' →
      Run ctx P T K c₀ c'

variable {ctx : Context} {P : Prims W} {T : Nominal} {K : Config W → Effect → Prop}

/-- A property of the start that every allowed step preserves holds all along a run. -/
theorem Run.invariant {I : Config W → Prop} {c₀ c : Config W} (hrun : Run ctx P T K c₀ c)
    (hstart : I c₀)
    (hstep : ∀ c eff c', I c → K c eff → Step ctx P T c eff c' → I c') : I c := by
  induction hrun with
  | start => exact hstart
  | step _ hK hs ih => exact hstep _ _ _ ih hK hs

end Vani.Model
