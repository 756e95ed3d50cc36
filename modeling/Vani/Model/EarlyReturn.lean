import Vani.Model.Machine
import Vani.Program.TryDesugar

/-!
# Bodies that are left early

The meaning of a function body before anything is rewritten: a `try` or a `return` leaves
the whole body from wherever it stands, the inside of an expression included. The variables
are one list, innermost first, to which a `let` adds for the statements after it; so what a
body leaves behind has the names it found. What was printed is in the world.
-/

set_option autoImplicit false

namespace Vani.Model

open Vani.Program

/-- The variables, innermost first, and the world. Globals stand last among the variables. -/
structure Memory (W : Type) where
  vars : List (String × Value)
  world : W

/-- Bind names for what follows. -/
def Memory.bind {W : Type} (σ : Memory W) (bs : List (String × Value)) : Memory W :=
  { σ with vars := bs ++ σ.vars }

/-- What the meaning of a body rests on: the machine, the nominal types, what printing does
to the world, and how a `try` leaves the function. -/
structure Setting (W : Type) where
  prims : Prims W
  nominal : Nominal
  print : List (Value ⊕ String) → W → W
  early : EarlyReturn

/-- How a body is left before its end. -/
inductive Exit
  | returned (v : Value)
  | broke
  | continued

/-- What a fragment ends with. -/
inductive Ending
  | value (v : Value)
  | values (vs : List Value)
  | done
  | exit (x : Exit)

namespace Ending

/-- A value that leaves its construct is no flexible literal. -/
def settle : Ending → Ending
  | value v => value v.settle
  | r => r

/-- The value of a return statement leaves the body. -/
def asReturn : Ending → Ending
  | value v => exit (.returned v)
  | r => r

/-- One more operand in front. -/
def cons (v : Value) : Ending → Ending
  | values vs => values (v :: vs)
  | r => r

/-- Whether a loop goes on after a turn that ends so. -/
def goesOn : Ending → Bool
  | done | exit .continued => true
  | _ => false

/-- How a loop ends with a turn that ends so. -/
def leaves : Ending → Option Ending
  | exit .broke => some done
  | exit (.returned v) => some (exit (.returned v))
  | _ => none

end Ending

/-- A loop at the start of a turn. A range loop has its variable innermost; an element loop
remembers the next slot and the number of slots. -/
inductive Loop
  | while_ (cond : Expr) (body : List Stmt)
  | range (var : String) (limit : Value) (body : List Stmt)
  | each (var collection : String) (next total : Nat) (body : List Stmt)

/-- The fragments of a body. A block expression is its statements with the expression after
them; a turn comes with the names its body finds bound. -/
inductive Fragment
  | expr (e : Expr)
  | args (es : List Expr)
  | stmt (s : Stmt)
  | body (ss : List Stmt) (tail : Option Expr)
  | test (lp : Loop)
  | turn (lp : Loop) (bs : List (String × Value))

variable {W : Type}

/-! ## Expressions -/

/-- What an expression evaluates to at once. -/
def atom (ρ : List (String × Value)) : Expr → Option Value
  | .var n => ρ.lookup n
  | e => literal e

/-- The operands of a construct that computes on all of them. -/
def callOperands (S : Setting W) (e : Expr) : Option (List Expr) :=
  match operands S.nominal e with
  | some (_, es) => some es
  | none => (asCall S.prims S.nominal e).map Prod.snd

/-- Store what a callee left in the places lent to it. -/
def giveBack : List (String × Option String) → List Value → List (String × Value) →
    Option (List (String × Value))
  | [], [], ρ => some ρ
  | (n, f) :: ps, v :: vs, ρ =>
    (ρ.lookup n).bind fun old => giveBack ps vs (setField ρ n (placeUpdate old f v))
  | _, _, _ => none

/-- The function a call reaches: the value of a variable, if it is one. -/
def callee (ρ : List (String × Value)) (n : String) : Expr → String
  | .call _ _ => match ρ.lookup n with
    | some (.fn g) => g
    | _ => n
  | _ => n

/-- Call a function on values. -/
def invoke (S : Setting W) (e : Expr) (n : String) (args : List Expr) (vs : List Value)
    (σ : Memory W) : Option (Value × Memory W) :=
  if S.prims.isPure n then
    (S.prims.pureCall n vs).bind fun (v, outs) =>
      (giveBack (mutTargets args) outs σ.vars).map fun ρ => (v, ⟨ρ, σ.world⟩)
  else
    (S.prims.call (callee σ.vars n e) vs σ.world).bind fun (v, outs, x) =>
      (giveBack (mutTargets args) outs σ.vars).map fun ρ => (v, ⟨ρ, x⟩)

/-- Compute a construct on the values of its operands. -/
def compute (S : Setting W) (e : Expr) (vs : List Value) (σ : Memory W) :
    Option (Value × Memory W) :=
  match operands S.nominal e with
  | some (op, _) => (op.apply S.prims vs).map fun v => (v, σ)
  | none => (asCall S.prims S.nominal e).bind fun (n, args) => invoke S e n args vs σ

/-- What a construct that chooses looks at. -/
def scrutinee : Expr → Option Expr
  | .binary op l _ => if op = .and ∨ op = .or then some l else none
  | .ifExpr c _ _ => some c
  | .match_ s _ => some s
  | _ => none

/-- What it goes on with, and the names that binds. -/
def chosen : Expr → Value → Option (List (String × Value) × Expr)
  | .binary op _ r, .scalar (.bool b) => some ([], if decides op b then .bool b else r)
  | .ifExpr _ t f, .scalar (.bool b) => some ([], if b then t else f)
  | .match_ _ arms, u => selectArm arms u
  | _, _ => none

/-- `try`: the payload, or the early return with the empty variant. Source: ast.rs:1371-1389 -/
def tryResult (r : EarlyReturn) : Value → Option Ending
  | .enum _ variant payload =>
    match payload with
    | [p] => if variant = r.someVariant then some (.value p) else leave variant
    | _ => leave variant
  | _ => none
where
  /-- The early return, on the variant for it. -/
  leave (variant : String) : Option Ending :=
    if variant = r.noneVariant then
      some (.exit (.returned (.enum r.enumName r.noneVariant [])))
    else none

/-! ## Statements -/

/-- The initializer of a statement that binds names. -/
def initializer : Stmt → Option Expr
  | .let_ _ _ e | .letTuple _ _ e => some e
  | _ => none

/-- The names it binds. -/
def bindings (P : Prims W) : Stmt → Value → Option (List (String × Value))
  | .let_ n ann _, v => if n = "_" then some [] else (coerce P ann v).map fun v' => [(n, v')]
  | .letTuple names _ _, .tuple vs =>
    if names.length = vs.length then some (names.zip vs).reverse else none
  | _, _ => none

/-- The operands of a statement that computes on all of them. A `prove` generates nothing. -/
def computedFrom : Stmt → Option (List Expr)
  | .assign _ e | .assert e _ | .fieldAssign _ _ e => some [e]
  | .print items => some (printExprs items)
  | .indexAssign _ i _ e => some [i, e]
  | .prove _ | .taskJoin _ => some []
  | _ => none

/-- What a `print` puts out. -/
def printed : List PrintItem → List Value → List (Value ⊕ String)
  | .str s :: items, vs => .inr s :: printed items vs
  | .expr _ :: items, v :: vs => .inl v :: printed items vs
  | _, _ => []

/-- Assign to a place in a variable. -/
def assignPlace (P : Prims W) (n : String) (path : List String) (v : Value)
    (ρ : List (String × Value)) : Option (List (String × Value)) :=
  (ρ.lookup n).bind fun old => (readPath path old).bind fun slot =>
    (coerceLike P slot v).map fun v' => setField ρ n (updatePath path old v')

/-- Assign to a place in a slot of a variable. -/
def assignSlot (P : Prims W) (n : String) (k : Int) (path : List String) (v : Value)
    (ρ : List (String × Value)) : Option (List (String × Value)) :=
  match ρ.lookup n with
  | some (.seq vs) =>
    if 0 ≤ k then
      vs[k.toNat]?.bind fun old => (readPath path old).bind fun slot =>
        (coerceLike P slot v).map fun v' =>
          setField ρ n (.seq (vs.set k.toNat (updatePath path old v')))
    else none
  | _ => none

/-- The effect of such a statement. -/
def effect (S : Setting W) : Stmt → List Value → Memory W → Option (Memory W)
  | .assign n _, [v], σ => (assignPlace S.prims n [] v σ.vars).map fun ρ => { σ with vars := ρ }
  | .print items, vs, σ => some { σ with world := S.print (printed items vs) σ.world }
  | .assert _ _, [.scalar (.bool true)], σ => some σ
  | .indexAssign n _ path _, [.scalar (.int _ _ k), v], σ =>
    (assignSlot S.prims n k path v σ.vars).map fun ρ => { σ with vars := ρ }
  | .fieldAssign obj f _, [v], σ =>
    (objectPlace obj).bind fun (n, path) =>
      (assignPlace S.prims n (path ++ [f]) v σ.vars).map fun ρ => { σ with vars := ρ }
  | .prove _, _, σ | .taskJoin _, _, σ => some σ
  | _, _, _ => none

/-! ## Loops -/

namespace Loop

def body : Loop → List Stmt
  | while_ _ body | range _ _ body | each _ _ _ _ body => body

/-- Whether a counted loop has a turn to go, and the names its body finds bound. -/
def next (P : Prims W) (ρ : List (String × Value)) :
    Loop → Option (Option (List (String × Value)))
  | while_ _ _ => none
  | range x limit _ => (ρ.lookup x).bind fun v =>
    match P.runBinary .lt v limit with
    | some (.scalar (.bool b)) => some (if b then some [] else none)
    | _ => none
  | each x xs k total _ =>
    if k < total then
      match ρ.lookup xs with
      | some (.seq vs) => vs[k]?.map fun v => some [(x, v)]
      | _ => none
    else some none

/-- The loop after a turn. The variable of a range loop goes on from its current value.
Source: ssa.rs:1547-1726 -/
def advance (P : Prims W) (ρ : List (String × Value)) :
    Loop → Option (Loop × List (String × Value))
  | while_ c body => some (while_ c body, ρ)
  | range x limit body =>
    match ρ.lookup x with
    | some (.scalar (.int t b k)) =>
      (P.runBinary .add (.scalar (.int t b k)) (.scalar (.int t false 1))).map fun v =>
        (range x limit body, setField ρ x v)
    | _ => none
  | each x xs k total body => some (each x xs (k + 1) total body, ρ)

end Loop

/-! ## Bodies -/

/-- What a fragment evaluates first, if anything: leaving this early leaves the fragment. -/
def first (S : Setting W) : Fragment → Option Fragment
  | .expr (.try_ e) => some (.expr e)
  | .expr e => match scrutinee e with
    | some s => some (.expr s)
    | none => (callOperands S e).map .args
  | .args (e :: _) => some (.expr e)
  | .stmt (.if_ c _ _) => some (.expr c)
  | .stmt (.for_ _ s e _ _ _ _) => some (.args [s, e])
  | .stmt s => (computedFrom s).map .args
  | .body (s :: _) _ => some ((initializer s).elim (.stmt s) .expr)
  | .test (.while_ c _) => some (.expr c)
  | _ => none

/-- `Exec S c σ r σ'`: the fragment `c`, started in `σ`, ends with `r` in `σ'`. A task
runs where it is spawned, on its own copy of the variables. Source: ast.rs:1085-1402 -/
inductive Exec (S : Setting W) : Fragment → Memory W → Ending → Memory W → Prop
  | early {c c' x} {σ σ' : Memory W} : first S c = some c' → Exec S c' σ (.exit x) σ' →
      Exec S c σ (.exit x) σ'
  | atom {e v} {σ : Memory W} : atom σ.vars e = some v → Exec S (.expr e) σ (.value v) σ
  | operate {e es vs v} {σ σ' σ'' : Memory W} : callOperands S e = some es →
      Exec S (.args es) σ (.values vs) σ' → compute S e vs σ' = some (v, σ'') →
      Exec S (.expr e) σ (.value v) σ''
  | choose {e s u e' r} {bs bs' : List (String × Value)} {σ σ' σ'' : Memory W} :
      scrutinee e = some s → Exec S (.expr s) σ (.value u) σ' → chosen e u = some (bs, e') →
      Exec S (.body [] (some e')) (σ'.bind bs) r (σ''.bind bs') → bs'.length = bs.length →
      Exec S (.expr e) σ r σ''
  | block {ss tail r} {σ σ' : Memory W} : Exec S (.body ss (some tail)) σ r σ' →
      Exec S (.expr (.block ss tail)) σ r σ'
  | try_ {e u r} {σ σ' : Memory W} : Exec S (.expr e) σ (.value u) σ' →
      tryResult S.early u = some r → Exec S (.expr (.try_ e)) σ r σ'
  | argsNil {σ : Memory W} : Exec S (.args []) σ (.values []) σ
  | argsCons {e es v r} {σ σ' σ'' : Memory W} : Exec S (.expr e) σ (.value v) σ' →
      Exec S (.args es) σ' r σ'' → Exec S (.args (e :: es)) σ (r.cons v) σ''
  | simple {s es vs} {σ σ' σ'' : Memory W} : computedFrom s = some es →
      Exec S (.args es) σ (.values vs) σ' → effect S s vs σ' = some σ'' →
      Exec S (.stmt s) σ .done σ''
  | return_ {e r} {σ σ' : Memory W} : Exec S (.body [] (some e)) σ r σ' →
      Exec S (.stmt (.return_ e)) σ r.asReturn σ'
  | break_ {σ : Memory W} : Exec S (.stmt .break_) σ (.exit .broke) σ
  | continue_ {σ : Memory W} : Exec S (.stmt .continue_) σ (.exit .continued) σ
  | if_ {c t f b r} {σ σ' σ'' : Memory W} :
      Exec S (.expr c) σ (.value (.scalar (.bool b))) σ' →
      Exec S (.body (if b then t else f) none) σ' r σ'' → Exec S (.stmt (.if_ c t f)) σ r σ''
  | while_ {c invs body r} {σ σ' : Memory W} : Exec S (.test (.while_ c body)) σ r σ' →
      Exec S (.stmt (.while_ c invs body)) σ r σ'
  -- both bounds are values of the loop's type, the promoted type of the two
  | for_ {x s e invs body par reds t ts te bs be k l v r} {σ σ' σ'' : Memory W} :
      Exec S (.args [s, e]) σ
        (.values [.scalar (.int ts bs k), .scalar (.int te be l)]) σ' →
      valueFitsType k t = true → valueFitsType l t = true →
      Exec S (.test (.range x (.scalar (.int t false l)) body))
        (σ'.bind [(x, .scalar (.int t false k))]) r (σ''.bind [(x, v)]) →
      Exec S (.stmt (.for_ x s e invs body par reds)) σ r σ''
  | forIter {x xs consumes body vs r} {σ σ' : Memory W} : σ.vars.lookup xs = some (.seq vs) →
      Exec S (.test (.each x xs 0 vs.length body)) σ r σ' →
      Exec S (.stmt (.forIter x xs consumes body)) σ r σ'
  | whileFalse {c body} {σ σ' : Memory W} :
      Exec S (.expr c) σ (.value (.scalar (.bool false))) σ' →
      Exec S (.test (.while_ c body)) σ .done σ'
  | whileTrue {c body r} {σ σ' σ'' : Memory W} :
      Exec S (.expr c) σ (.value (.scalar (.bool true))) σ' →
      Exec S (.turn (.while_ c body) []) σ' r σ'' → Exec S (.test (.while_ c body)) σ r σ''
  | stop {lp} {σ : Memory W} : lp.next S.prims σ.vars = some none → Exec S (.test lp) σ .done σ
  | go {lp r} {bs : List (String × Value)} {σ σ' : Memory W} :
      lp.next S.prims σ.vars = some (some bs) →
      Exec S (.turn lp bs) σ r σ' → Exec S (.test lp) σ r σ'
  | again {lp lp' ρ r r'} {bs bs' : List (String × Value)} {σ σ' σ'' : Memory W} :
      Exec S (.body lp.body none) (σ.bind bs) r (σ'.bind bs') → bs'.length = bs.length →
      r.goesOn = true → lp.advance S.prims σ'.vars = some (lp', ρ) →
      Exec S (.test lp') ⟨ρ, σ'.world⟩ r' σ'' → Exec S (.turn lp bs) σ r' σ''
  | leave {lp r r'} {bs bs' : List (String × Value)} {σ σ' : Memory W} :
      Exec S (.body lp.body none) (σ.bind bs) r (σ'.bind bs') → bs'.length = bs.length →
      r.leaves = some r' → Exec S (.turn lp bs) σ r' σ'
  | nil {σ : Memory W} : Exec S (.body [] none) σ .done σ
  | tail {e r} {σ σ' : Memory W} : Exec S (.expr e) σ r σ' →
      Exec S (.body [] (some e)) σ r.settle σ'
  | bind {s ss tail e v r} {bs bs' : List (String × Value)} {σ σ' σ'' : Memory W} :
      initializer s = some e → Exec S (.expr e) σ (.value v) σ' →
      bindings S.prims s v = some bs →
      Exec S (.body ss tail) (σ'.bind bs) r (σ''.bind bs') → bs'.length = bs.length →
      Exec S (.body (s :: ss) tail) σ r σ''
  | spawn {n b ss tail h u r r'} {σ σ' σ'' : Memory W} : Exec S (.body b none) σ r' σ' →
      Exec S (.body ss tail) ⟨(n, .handle h) :: σ.vars, σ'.world⟩ r (σ''.bind [(n, u)]) →
      Exec S (.body (.taskSpawn n b :: ss) tail) σ r σ''
  | next {s ss tail r} {σ σ' σ'' : Memory W} : Exec S (.stmt s) σ .done σ' →
      Exec S (.body ss tail) σ' r σ'' → Exec S (.body (s :: ss) tail) σ r σ''

end Vani.Model
