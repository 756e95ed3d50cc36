import Vani.Program.Ir
import Vani.Program.TypeDecls

/-!
# Emitted assignments

The C statements of an assignment to a variable, to a field and to an element of an array or
a vector. Each releases what the place owned and stores the new value; they differ in what
they evaluate when. A statement of the emitted C names the place by its lvalue, so it
evaluates the index expression in it anew.
-/

set_option autoImplicit false

namespace Vani.Backend

open Vani.Program

/-- What the backend knows about the declared types: the field lists of the structs, the
payload type of an enum, the tags that carry one, and which enums are laid out as a union.
A struct is not contained in itself, and one with a field that is not `Copy` is not either.
Source: backend_c.rs:64-102, 168-190, 375-405 -/
structure TypeTables where
  nonCopy : NonCopy
  structFields : String → List (String × Ty)
  enumPayload : String → Option Ty
  enumTags : String → List Nat
  mixedPayloads : String → Bool
  rank : String → Nat
  rank_lt : ∀ {s f inner}, (f, Ty.struct inner) ∈ structFields s → rank inner < rank s
  struct_owns : ∀ {s f}, f ∈ structFields s → f.2.isCopy nonCopy = false →
    (Ty.struct s).isCopy nonCopy = false
  payload_tags : ∀ {e}, (enumPayload e).isSome → enumTags e ≠ []

/-- A statement of the emitted C; a path leads from the place to a field of it. -/
inductive AssignStmt
  | declareTmp
  | freeStr (path : List String)
  | freeVec (element : Ty) (path : List String)
  | switchFree (enumName : String) (tags : List Nat)
  | assignTmp
  | assignValue

/-- The fields of a struct, the last first, with a bound on the nesting.
Source: backend_c.rs:8128-8178 -/
def emitStructFieldDrops (T : TypeTables) : Nat → List String → String → List AssignStmt
  | 0, _, _ => []
  | n + 1, path, structName =>
    (T.structFields structName).reverse.flatMap fun (fieldName, fieldTy) =>
      match fieldTy with
      | .ownedStr => [.freeStr (path ++ [fieldName])]
      | .vec element => [.freeVec element (path ++ [fieldName])]
      | .struct innerName => emitStructFieldDrops T n (path ++ [fieldName]) innerName
      | _ => []

/-- The release of the payload an enum may hold. Source: backend_c.rs:7141-7183, 7847-7884,
8320-8357 -/
def emitPayloadFree (T : TypeTables) (enumName : String) : List AssignStmt :=
  match T.enumPayload enumName with
  | some .ownedStr | some (.vec _) =>
    if T.enumTags enumName = [] then [] else [.switchFree enumName (T.enumTags enumName)]
  | _ => []

/-- Source: backend_c.rs:7044-7205 -/
def emitReassign (T : TypeTables) (ty : Ty) (dropOld : Bool) : List AssignStmt :=
  if dropOld then
    match ty with
    | .vec element => [.declareTmp, .freeVec element [], .assignTmp]
    | .ownedStr => [.declareTmp, .freeStr [], .assignTmp]
    | .struct structName =>
      .declareTmp :: emitStructFieldDrops T (T.rank structName + 1) [] structName ++
        [.assignTmp]
    | .enum enumName => .declareTmp :: emitPayloadFree T enumName ++ [.assignTmp]
    | _ => [.assignValue]
  else [.assignValue]

/-- The release of a whole field or element. Source: backend_c.rs:7814-7887, 8282-8359 -/
def emitRelease (T : TypeTables) (ty : Ty) : List AssignStmt :=
  match ty with
  | .ownedStr => [.freeStr []]
  | .vec element => [.freeVec element []]
  | .struct structName =>
    if (T.structFields structName).any fun f => !f.2.isCopy T.nonCopy then
      emitStructFieldDrops T (T.rank structName + 1) [] structName
    else []
  | .enum enumName => emitPayloadFree T enumName
  | _ => []

/-- Source: backend_c.rs:7792-7890 -/
def emitFieldAssign (T : TypeTables) (ty : Ty) : List AssignStmt :=
  emitRelease T ty ++ [.assignValue]

/-- The type at the end of a field path. Source: backend_c.rs:8214-8226 -/
def leafTy (T : TypeTables) : Ty → List String → Option Ty
  | ty, [] => some ty
  | .struct structName, segment :: path =>
    match (T.structFields structName).find? fun f => f.1 == segment with
    | some f => leafTy T f.2 path
    | none => none
  | _, _ :: _ => none

/-- Source: backend_c.rs:8180-8366 -/
def emitIndexAssign (T : TypeTables) (ty : Ty) (whole : Bool) : List AssignStmt :=
  if whole then emitRelease T ty ++ [.assignValue]
  else
    match ty with
    | .ownedStr => [.freeStr [], .assignValue]
    | .vec element => [.freeVec element [], .assignValue]
    | _ => [.assignValue]

/-- An assignment with the type of its place. -/
inductive Assignment
  | binding (ty : Ty) (dropOld : Bool)
  | field (ty : Ty)
  | element (ty : Ty) (whole : Bool)

namespace Assignment

/-- The assignment a statement is. Source: backend_c.rs:8203-8226 -/
def ofStmt (T : TypeTables) : TypedStmt → Option Assignment
  | .reassign _ ty _ dropOld => some (.binding ty dropOld)
  | .fieldAssign _ _ _ value => some (.field value.ty)
  | .indexAssign _ baseTy _ fieldPath _ _ =>
    match baseTy.deref with
    | .array inner _ | .vec inner =>
      (leafTy T inner fieldPath).map fun ty => .element ty fieldPath.isEmpty
    | _ => none
  | _ => none

/-- The type of the place. -/
def ty : Assignment → Ty
  | binding t _ => t
  | field t => t
  | element t _ => t

/-- The lvalue has an index expression. -/
def indexed : Assignment → Bool
  | element .. => true
  | binding .. | field .. => false

/-- The emitted statements. -/
def emit (T : TypeTables) : Assignment → List AssignStmt
  | binding ty dropOld => emitReassign T ty dropOld
  | field ty => emitFieldAssign T ty
  | element ty whole => emitIndexAssign T ty whole

end Assignment

/-! ## Places and what they own -/

/-- A piece of heap memory in a place, and whether the place still owns it. -/
structure HeapPart where
  id : Nat
  live : Bool

/-- What is at the end of a field path: a tag, if it is an enum, and pieces of heap memory. -/
structure Content where
  tag : Nat
  parts : List HeapPart

/-- The fields of a struct that are not structs, with a bound on the nesting. -/
def leavesBelow (T : TypeTables) : Nat → List String → String → List (List String × Ty)
  | 0, _, _ => []
  | n + 1, path, structName =>
    (T.structFields structName).flatMap fun (fieldName, fieldTy) =>
      match fieldTy with
      | .struct innerName => leavesBelow T n (path ++ [fieldName]) innerName
      | t => [(path ++ [fieldName], t)]

/-- The field paths of a type that end in no struct. -/
def leaves (T : TypeTables) : Ty → List (List String × Ty)
  | .struct structName => leavesBelow T (T.rank structName + 1) [] structName
  | t => [([], t)]

/-- A string or a vector. -/
def heapShaped : Ty → Bool
  | .ownedStr | .vec _ => true
  | _ => false

/-- What a leaf of a type can hold. -/
structure LeafHolds (T : TypeTables) (t : Ty) (c : Content) : Prop where
  heap : heapShaped t = true → c.parts.length = 1
  tagged : ∀ {e}, t = .enum e → c.tag ∉ T.enumTags e → c.parts = []

/-- The pieces of heap memory in a place. -/
def partsOf (T : TypeTables) (ty : Ty) (v : List String → Content) : List HeapPart :=
  (leaves T ty).flatMap fun leaf => (v leaf.1).parts

/-- A value of a type: what is at its leaves, no piece of heap memory twice. -/
structure PlaceValue (T : TypeTables) (ty : Ty) where
  at_ : List String → Content
  holds : ∀ leaf ∈ leaves T ty, LeafHolds T leaf.2 (at_ leaf.1)
  distinct : ((partsOf T ty at_).map HeapPart.id).Nodup

/-- What a value owns. -/
def PlaceValue.owned {T : TypeTables} {ty : Ty} (v : PlaceValue T ty) : List Nat :=
  ((partsOf T ty v.at_).filter HeapPart.live).map HeapPart.id

/-! ## Running the statements -/

section Run

variable {V ι σ : Type}

/-- What the emitted statements do, in order: the right-hand side has been evaluated, the
index expression has been, a piece of heap memory is released, a value is stored. -/
inductive AssignEvent (V ι : Type)
  | rhs (v : V)
  | index
  | release (id : Nat)
  | store (i : ι) (old : V)

/-- The places an index can name, the state of the world, the temporary, and what has been
done so far. -/
structure AssignState (V ι σ : Type) where
  mem : ι → V
  world : σ
  tmp : Option V
  log : List (AssignEvent V ι)

/-- What the expressions of an assignment do, on the places and the world; `home` is the
place of an assignment without an index. C leaves open which side of `=` comes first. -/
structure AssignEnv (V ι σ : Type) where
  rhs : (ι → V) → σ → V × (ι → V) × σ
  index : (ι → V) → σ → ι × (ι → V) × σ
  home : ι
  rhsFirst : Bool

/-- The right-hand side. -/
def evalRhs (env : AssignEnv V ι σ) (s : AssignState V ι σ) : V × AssignState V ι σ :=
  let (v, mem, world) := env.rhs s.mem s.world
  (v, { s with mem, world, log := s.log ++ [.rhs v] })

/-- The lvalue. -/
def locate (env : AssignEnv V ι σ) (indexed : Bool) (s : AssignState V ι σ) :
    ι × AssignState V ι σ :=
  if indexed then
    let (i, mem, world) := env.index s.mem s.world
    (i, { s with mem, world, log := s.log ++ [.index] })
  else (env.home, s)

/-- The pieces of heap memory at a path are released. -/
def release (c : Content) (s : AssignState V ι σ) : AssignState V ι σ :=
  { s with log := s.log ++ c.parts.map fun part => .release part.id }

variable [DecidableEq ι]

/-- A value is stored. -/
def storeAt (i : ι) (v : V) (s : AssignState V ι σ) : AssignState V ι σ :=
  { s with mem := Function.update s.mem i v, log := s.log ++ [.store i (s.mem i)] }

variable {T : TypeTables} {ty : Ty}

/-- A statement of the emitted C. The payload of an enum laid out as a union is not a member
of it, so the statement that frees it is not C. -/
def AssignStmt.run (env : AssignEnv (PlaceValue T ty) ι σ) (indexed : Bool)
    (s : AssignState (PlaceValue T ty) ι σ) :
    AssignStmt → Option (AssignState (PlaceValue T ty) ι σ)
  | .declareTmp =>
    let (v, s) := evalRhs env s
    some { s with tmp := some v }
  | .freeStr path | .freeVec _ path =>
    let (i, s) := locate env indexed s
    some (release ((s.mem i).at_ path) s)
  | .switchFree enumName tags =>
    if T.mixedPayloads enumName then none
    else
      let (i, s) := locate env indexed s
      if ((s.mem i).at_ []).tag ∈ tags then
        let (i, s) := locate env indexed s
        some (release ((s.mem i).at_ []) s)
      else some s
  | .assignTmp =>
    match s.tmp with
    | some v =>
      let (i, s) := locate env indexed s
      some (storeAt i v s)
    | none => none
  | .assignValue =>
    if env.rhsFirst then
      let (v, s) := evalRhs env s
      let (i, s) := locate env indexed s
      some (storeAt i v s)
    else
      let (i, s) := locate env indexed s
      let (v, s) := evalRhs env s
      some (storeAt i v s)

/-- The statements one after the other. -/
def runStmts (env : AssignEnv (PlaceValue T ty) ι σ) (indexed : Bool) :
    List AssignStmt → AssignState (PlaceValue T ty) ι σ →
      Option (AssignState (PlaceValue T ty) ι σ)
  | [], s => some s
  | stmt :: stmts, s => (stmt.run env indexed s).bind (runStmts env indexed stmts)

end Run

end Vani.Backend
