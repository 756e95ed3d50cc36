import Vani.Analysis.RecordedFacts
import Vani.Model.Machine

/-!
# Steps that respect the fact list

`Careful` is the condition on a step under which the checker's fact list stays true. Its
core is one rule: no fact that is kept across the step, in the current list or in one
that is restored later, depends on a name the step assigns or binds anew. The rest says
when the facts a statement adds are true, and when an invariant proved on entry is.
-/

set_option autoImplicit false

namespace Vani.Analysis

open Vani.Program Vani.Model

variable {W : Type}

/-- The facts that are in force again after the construct, whichever way its body ends;
the guard of an early return is among them where the current branch can reach the end. -/
def Frame.kept : Frame → List Expr
  | .branch st c t f taken _ =>
    st.facts ++ if listTerminates (if taken then t else f) then [] else guardFacts c t f
  | .while_ st _ invs _ _ => st.facts ++ invs
  | .for_ st _ _ _ invs _ _ _ _ _ _ => st.facts ++ invs
  | .forIter st _ _ _ _ _ _ _ => st.facts

/-- The bounds of a range loop, which its facts compare the variable with. -/
def Frame.bounds : Frame → List Expr
  | .for_ _ _ s e _ _ _ _ _ _ _ => [s, e]
  | _ => []

/-- The variable of a range loop. -/
def Frame.counter : Frame → Option String
  | .for_ _ x _ _ _ _ _ _ _ _ _ => some x
  | _ => none

/-- The expressions depend on no name the step touches. -/
def Spared (P : Prims W) (T : Nominal) (eff : Effect) (fs : List Expr) : Prop :=
  ∀ f, f ∈ fs → Untouched P T (eff.writes ++ eff.declares) f

/-- The tracked constants are the values of their names. -/
def ConstantsRight (st : CheckState) (σ : Store W) : Prop :=
  ∀ p, p ∈ st.env.flatten → ∀ c, p.2.constant = some c → σ.lookup p.1 = some (.scalar c)

/-- The conditions on a `let`: the callee keeps its clauses, and an initialiser that
equations are recorded about assigns nothing, does not depend on the new name, and is
stored as computed. -/
structure LetCareful (ctx : Context) (P : Prims W) (T : Nominal) (st : CheckState)
    (n : String) (ann : Option Ty) (e : Expr) (σ : Store W) : Prop where
  clauses : ∀ g args, e = .call g args → ∀ sig, ctx.signatures g = some sig →
    args.length = sig.paramNames.length → ∀ clause, clause ∈ sig.ensures →
    ∀ v σ' w v', Eval P T (.expr e) σ (.val v) σ' w → coerce P ann v = some v' →
      ClauseKept P T sig.paramNames args n σ' v' clause
  recorded : recordedFacts ctx st n e ≠ [] → n ∉ exprNames P T e ∧
    ∀ v σ' w v', Eval P T (.expr e) σ (.val v) σ' w → coerce P ann v = some v' →
      w = [] ∧ StoredWell P T σ v v' e

/-- The conditions on an element assignment. Facts about the array are carried over by
renaming, so they have to be plain; the two new facts read the index and the value after
the assignment, so these must not depend on the array. -/
structure IndexCareful (P : Prims W) (T : Nominal) (st : CheckState) (n : String)
    (i : Expr) (path : List String) (e : Expr) (eff : Effect) (σ : Store W) : Prop where
  noPath : path = []
  quiet : ∀ a, a = i ∨ a = e → Untouched P T eff.writes a ∧
    ∀ v σ' w, Eval P T (.expr a) σ (.val v) σ' w → w = []
  fresh : ∀ k, lookupScopes σ.scopes (versioned n k) = none ∧ T.isEnum (versioned n k) = false
  others : ∀ f, f ∈ st.facts → exprMentions n f = false → Untouched P T eff.writes f
  pinned : ∀ f, f ∈ st.facts → exprMentions n f = true → plain P T f = true ∧
    ∀ m, m ∈ eff.writes → m ≠ n → exprMentions m f = false
  stored : ∀ v slot v', Gives P T σ e v → coerceLike P slot v = some v' →
    Value.same v' v = true ∧ P.runBinary .eq v' v = some (.scalar (.bool true))

/-- The conditions on executing a statement. -/
def StmtCareful (ctx : Context) (P : Prims W) (T : Nominal) (st : CheckState) (s : Stmt)
    (eff : Effect) (σ : Store W) : Prop :=
  match s with
  | .let_ n ann e =>
    if n = "_" then Spared P T eff st.facts
    else Spared P T eff (letKept st n) ∧ LetCareful ctx P T st n ann e σ
  | .assign n _ => Spared P T eff (assignKept st n)
  | .indexAssign n i path e => IndexCareful P T st n i path e eff σ
  | .if_ c _ _ => Spared P T eff (st.facts ++ [c]) ∧ NegationSafe P T σ c
  | .while_ _ invs _ => invs = [] ∨ ConstantsRight st σ
  | .for_ x s e invs _ _ _ => Spared P T eff (st.facts ++ [s, e]) ∧
    (invs = [] ∨ ConstantsRight st σ ∧ Spared P T ⟨[], [x]⟩ (s :: st.facts ++ invs) ∧
      ∀ p, p ∈ st.env.flatten → p.2.constant.isSome = true → p.1 ∉ x :: eff.writes)
  | _ => Spared P T eff st.facts

/-- The conditions on deciding about a turn of a loop. The bound a finished `for` records
about its variable is harmless only where no outer variable has that name. -/
def HeadCareful (P : Prims W) (T : Nominal) (fr : Frame) (eff : Effect) (σ : Store W) : Prop :=
  match fr with
  | .while_ _ c _ _ _ => Spared P T eff (Frame.kept fr ++ [c]) ∧ NegationSafe P T σ c
  | .for_ _ x s e _ body _ _ _ _ _ => Spared P T eff (Frame.kept fr ++ [s, e]) ∧
    (containsBreak body = true ∨
      σ.lookup x = none ∧ T.isEnum x = false ∧ T.isStruct x = false)
  | fr => Spared P T eff (Frame.kept fr)

/-- A step that respects the fact list, and the fact lists restored later. -/
structure Careful (ctx : Context) (P : Prims W) (T : Nominal) (c : Config W) (eff : Effect) :
    Prop where
  restored : ∀ fr, fr ∈ c.frames → ∀ f, f ∈ Frame.kept fr ++ Frame.bounds fr →
    Untouched P T eff.writes f
  counters : ∀ fr, fr ∈ c.frames → ∀ x, Frame.counter fr = some x → x ∉ eff.writes
  counter : ∀ p fr, c.control = .point p → c.frames.head? = some fr → ∀ x,
    Frame.counter fr = some x → x ∉ eff.declares
  head : ∀ fr, c.control = .head fr → HeadCareful P T fr eff c.store
  stmt : ∀ st s rest, c.control = .point ⟨st, s :: rest⟩ →
    StmtCareful ctx P T st s eff c.store

end Vani.Analysis
