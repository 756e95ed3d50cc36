import Vani.Program.Ir
import Vani.Program.TypeDecls

/-!
# Drops in branches

Where the value of an if-expression or a match is moved, the checker has marked the
variables of every branch moved, for only running the program tells which of them it is.
This rewrite puts into each branch the drops of the variables that the other branches would
have yielded.
-/

set_option autoImplicit false

namespace Vani.Program

/-- A variable and its type. -/
abbrev VarLeaf := String × Ty

/-- `if !out.iter().any(|(n, _)| n == name) { out.push((name, ty)) }` -/
def pushLeaf (out : List VarLeaf) (leaf : VarLeaf) : List VarLeaf :=
  if out.any (·.1 = leaf.1) then out else out ++ [leaf]

/-- The names that the `let`s of a block introduce. Source: checker.rs:9673-9679 -/
def declaredIn : List TypedStmt → List String
  | [] => []
  | .let_ name _ _ :: ss => name :: declaredIn ss
  | _ :: ss => declaredIn ss

mutual

/-- Source: checker.rs:9645-9692 -/
def collectBranchVarLeaves (r : NonCopy) : TypedExpr → List VarLeaf → List VarLeaf
  | ⟨.var name, ty⟩, out => if ty.isCopy r then out else pushLeaf out (name, ty)
  | ⟨.ifExpr _ thenValue elseValue, _⟩, out =>
    collectBranchVarLeaves r elseValue (collectBranchVarLeaves r thenValue out)
  | ⟨.match_ _ arms, _⟩, out => collectArmLeaves r arms out
  | ⟨.block stmts tail, _⟩, out =>
    ((collectBranchVarLeaves r tail []).filter (·.1 ∉ declaredIn stmts)).foldl pushLeaf out
  | _, out => out

def collectArmLeaves (r : NonCopy) : List TypedMatchArm → List VarLeaf → List VarLeaf
  | [], out => out
  | ⟨_, _, _, _, body⟩ :: arms, out => collectArmLeaves r arms (collectBranchVarLeaves r body out)

end

/-- The leaves of one branch. -/
def varLeaves (r : NonCopy) (e : TypedExpr) : List VarLeaf := collectBranchVarLeaves r e []

/-- Source: checker.rs:9698-9732 -/
def wrapBranchWithDrops (branch : TypedExpr) (drops : List VarLeaf) : TypedExpr :=
  if drops.isEmpty then branch
  else ⟨.block (drops.map fun d => .drop d.1 d.2 []) branch, branch.ty⟩

/-- The leaves of the other branch that this branch has to drop.
Source: checker.rs:9754-9763 -/
def branchDrops (own other : List VarLeaf) : List VarLeaf :=
  other.filter fun d => !own.any (·.1 = d.1)

/-- The leaves of the other arms that arm `i` has to drop. Source: checker.rs:9782-9795 -/
def armDrops (armVars : List (List VarLeaf)) (i : Nat) : List VarLeaf :=
  armVars.zipIdx.foldl (fun drops (otherVars, j) =>
    if i = j then drops
    else (branchDrops (armVars.getD i []) otherVars).foldl pushLeaf drops) []

mutual

/-- Source: checker.rs:9747-9837 -/
def injectBranchDrops (r : NonCopy) : TypedExpr → TypedExpr
  | ⟨.ifExpr cond thenValue elseValue, ty⟩ =>
    let thenVars := varLeaves r thenValue
    let elseVars := varLeaves r elseValue
    ⟨.ifExpr cond
      (wrapBranchWithDrops (injectBranchDrops r thenValue) (branchDrops thenVars elseVars))
      (wrapBranchWithDrops (injectBranchDrops r elseValue) (branchDrops elseVars thenVars)), ty⟩
  | ⟨.match_ scrutinee arms, ty⟩ =>
    ⟨.match_ scrutinee (injectArmDrops r (arms.map fun arm => varLeaves r arm.body) 0 arms), ty⟩
  | ⟨.block stmts tail, ty⟩ => ⟨.block stmts (injectBranchDrops r tail), ty⟩
  | e => e

def injectArmDrops (r : NonCopy) (armVars : List (List VarLeaf)) (i : Nat) :
    List TypedMatchArm → List TypedMatchArm
  | [] => []
  | ⟨tag, isWildcard, intValue, binding, body⟩ :: arms =>
    ⟨tag, isWildcard, intValue, binding,
      wrapBranchWithDrops (injectBranchDrops r body) (armDrops armVars i)⟩ ::
      injectArmDrops r armVars (i + 1) arms

end

end Vani.Program
