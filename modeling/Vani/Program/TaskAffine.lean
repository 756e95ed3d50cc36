import Vani.Program.Ir

/-!
# Task handles of a block

The checker's last look at a body: block by block it compares the names of the tasks that
are spawned with the names that are joined. A block inside another starts with no names of
its own, so a handle has to be joined in the block that spawns it.
-/

set_option autoImplicit false

namespace Vani.Program

/-! ## Diagnostics -/

/-- Source: checker.rs:7328-7331 -/
def spawnedTwice (name : String) : String :=
  "task '" ++ name ++ "' was spawned twice in the same block"

/-- Source: checker.rs:7340-7343 -/
def notSpawnedHere (name : String) : String :=
  "join: task '" ++ name ++
    "' was not spawned in this block (cross-block joins aren't supported in v1)"

/-- Source: checker.rs:7349-7352 -/
def joinedTwice (name : String) : String :=
  "join: task '" ++ name ++ "' was joined twice in the same block"

/-- Source: checker.rs:7369-7373 -/
def neverConsumed (name : String) : String :=
  "task '" ++ name ++ "' was never consumed by `join " ++ name ++
    "`; each `task` handle must be joined exactly once"

/-! ## The walk -/

/-- The names spawned so far in a block, after one more statement of it. -/
def spawnedAfter (spawned : List String) : TypedStmt → List String
  | .taskSpawn name _ _ => spawned.insert name
  | _ => spawned

/-- The names joined so far in a block, after one more statement of it. -/
def joinedAfter (joined : List String) : TypedStmt → List String
  | .taskJoin name => joined.insert name
  | _ => joined

/-- `spawned.difference(&joined)` -/
def unjoined (spawned joined : List String) : List String :=
  spawned.filter (· ∉ joined)

mutual

/-- What the walk has to say about a statement of a block.
Source: checker.rs:7312-7365 -/
def affineStmt (spawned joined : List String) : TypedStmt → List String
  | .taskSpawn name body _ =>
    (if name ∈ spawned then [spawnedTwice name] else []) ++ affineBlock [] [] body
  | .taskJoin name =>
    (if name ∈ spawned then [] else [notSpawnedHere name]) ++
      if name ∈ joined then [joinedTwice name] else []
  | .if_ _ thenBody elseBody => affineBlock [] [] thenBody ++ affineBlock [] [] elseBody
  | .while_ _ body | .for_ _ _ _ _ body _ _ | .forIter _ _ _ _ _ body => affineBlock [] [] body
  | _ => []

/-- The rest of a block, where these names have been spawned and joined.
Source: checker.rs:7307-7376 -/
def affineBlock (spawned joined : List String) : List TypedStmt → List String
  | [] => (unjoined spawned joined).map neverConsumed
  | s :: ss =>
    affineStmt spawned joined s ++ affineBlock (spawnedAfter spawned s) (joinedAfter joined s) ss

end

/-- Source: checker.rs:7306-7378 -/
def verifyTaskAffine (body : List TypedStmt) : List String := affineBlock [] [] body

end Vani.Program
