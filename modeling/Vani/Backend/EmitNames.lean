import Vani.Backend.EmitInt
import Vani.Program.TypeDecls

/-!
# Names in the emitted C

Every function of the flat program and every local becomes a C identifier. The passes before
make names for methods, for functions of modules, for closures and for instances of generic
functions by joining other names; the checker refuses a program in which two functions end up
with one name. The backend then puts a prefix before the name and an underscore for every
character that C does not take.
-/

set_option autoImplicit false

namespace Vani.Backend

open Vani.Program

/-! ## Types in names -/

mutual

/-- A type as the compiler prints it for itself. Source: ast.rs:587-798 -/
def debugTy : Ty → String
  | .int .i8 => "I8"
  | .int .i16 => "I16"
  | .int .i32 => "I32"
  | .int .i64 => "I64"
  | .int .u8 => "U8"
  | .int .u16 => "U16"
  | .int .u32 => "U32"
  | .int .u64 => "U64"
  | .float .f32 => "F32"
  | .float .f64 => "F64"
  | .bool => "Bool"
  | .str => "Str"
  | .ownedStr => "OwnedStr"
  | .array element length =>
    "Array \x7b element: " ++ debugTy element ++ ", length: " ++ toString length ++ " \x7d"
  | .vec element => "Vec(" ++ debugTy element ++ ")"
  | .tuple elements => "Tuple([" ++ debugTys elements ++ "])"
  | .struct name => "Struct(\"" ++ name ++ "\")"
  | .enum name => "Enum(\"" ++ name ++ "\")"
  | .apply name args => "Apply \x7b name: \"" ++ name ++ "\", args: [" ++ debugTys args ++ "] \x7d"
  | .param name => "Param(\"" ++ name ++ "\")"
  | .ref inner => "Ref(" ++ debugTy inner ++ ")"
  | .refMut inner => "RefMut(" ++ debugTy inner ++ ")"
  | .task => "Task"
  | .atomic inner => "Atomic(" ++ debugTy inner ++ ")"
  | .channel inner capacity => "Channel(" ++ debugTy inner ++ ", " ++ toString capacity ++ ")"
  | .mutex inner => "Mutex(" ++ debugTy inner ++ ")"
  | .guard inner => "Guard(" ++ debugTy inner ++ ")"
  | .fnPtr params ret => "FnPtr([" ++ debugTys params ++ "], " ++ debugTy ret ++ ")"
  | .object iface => "Object(\"" ++ iface ++ "\")"
  | .condvar => "Condvar"
  | .deque inner => "Deque(" ++ debugTy inner ++ ")"
  | .hashSet inner => "HashSet(" ++ debugTy inner ++ ")"
  | .hashMap key value => "HashMap(" ++ debugTy key ++ ", " ++ debugTy value ++ ")"
  | .bTreeSet inner => "BTreeSet(" ++ debugTy inner ++ ")"
  | .bTreeMap key value => "BTreeMap(" ++ debugTy key ++ ", " ++ debugTy value ++ ")"
  | .unionFind => "UnionFind"
  | .binaryHeap inner => "BinaryHeap(" ++ debugTy inner ++ ")"
  | .bloomFilter => "BloomFilter"
  | .bst inner => "Bst(" ++ debugTy inner ++ ")"
  | .graph => "Graph"
  | .trie => "Trie"
  | .skipList => "SkipList"

/-- The types of a list, with commas between them. -/
def debugTys : List Ty → String
  | [] => ""
  | [t] => debugTy t
  | t :: u :: ts => debugTy t ++ ", " ++ debugTys (u :: ts)

end

/-- Source: checker.rs:6306-6327 -/
def typeMangle : Ty → String
  | .int t => helperType t
  | .float .f64 => "f64"
  | .float .f32 => "f32"
  | .bool => "bool"
  | .str => "Str"
  | .ownedStr => "OwnedStr"
  | .struct name => "Struct_" ++ name
  | .enum name => "Enum_" ++ name
  | other => (debugTy other).map fun ch =>
      if ch ∈ [' ', '<', '>', ',', '(', ')', '"', '\x7b', '\x7d', ':'] then '_' else ch

/-! ## Functions of the flat program -/

/-- Where a function of the flat program comes from. -/
inductive FunctionOrigin
  /-- A function at the top level -/
  | plain (name : String)
  /-- A function of a module, exported or not -/
  | inModule (modName name : String) (isPub : Bool)
  /-- A method, of `methods on` or of an implementation -/
  | method (typeName name : String)
  /-- A closure, by its number -/
  | closure (counter : Nat)
  /-- An instance of a generic function -/
  | inst (template : FunctionOrigin) (ty : Ty)

/-- The name in the flat program. Source: checker.rs:2701, 2979-2986, 4355, 4610, 5369 -/
def FunctionOrigin.flatName : FunctionOrigin → String
  | plain name => name
  | inModule modName name true => modName ++ "__" ++ name
  | inModule modName name false => modName ++ "__priv__" ++ name
  | method typeName name => typeName ++ "_" ++ name
  | closure counter => "__anon_fn_" ++ toString counter
  | inst template ty => template.flatName ++ "__" ++ typeMangle ty

/-- A function as the backend receives it, under the name its origin gives it. -/
structure FlatFunction where
  origin : FunctionOrigin
  fn : TypedFunction
  named : fn.name = origin.flatName

/-- What the checker says of functions whose names have been seen.
Source: checker.rs:1051-1075 -/
def redefinitions (seen : List String) : List TypedFunction → List String
  | [] => []
  | f :: fs =>
    (if f.name ∈ seen then ["function '" ++ f.name ++ "' is already defined"] else []) ++
      redefinitions (f.name :: seen) fs

/-! ## Identifiers -/

/-- Source: backend_c.rs:12726-12728 -/
def functionName (name : String) : String := "fn_" ++ sanitizeIdent name

/-- Source: backend_c.rs:12730-12732 -/
def localName (name : String) : String := "v_" ++ sanitizeIdent name

/-- The C identifier of a function; an external one keeps its name.
Source: backend_c.rs:6819-6835, 6844-6853, 12016-12024 -/
def emittedName (f : TypedFunction) : String :=
  if f.isExtern then f.name else functionName f.name

/-- The C identifiers that stand for a local. A declaration or an assignment in a block
expression, and the binding of a match arm, have the bare name after the prefix.
Source: backend_c.rs:8461, 8802-8808, 8865-8884 -/
def localIdents (name : String) : List String := [localName name, "v_" ++ name]

/-! ## Scopes of the emitted code -/

/-- The locals declared before a point, in the blocks around it, the innermost first. -/
abbrev CScope := List (List String)

namespace CScope

/-- One more declaration in the innermost block. -/
def declare : CScope → List String → CScope
  | [], names => [names]
  | block :: outer, names => (block ++ names) :: outer

/-- The locals of a point that no block further in hides. -/
def visible : CScope → List String
  | [] => []
  | block :: outer => block ++ (visible outer).filter (· ∉ block)

end CScope

mutual

/-- The locals that a statement declares in the block it stands in. Before the value of a `let`
that is made an interface object, the statements that compute it stand in the same block.
Source: backend_c.rs:6946-6964, 7031-7041, 8000-8004 -/
def declares : TypedStmt → List String
  | .let_ name _ ⟨.block stmts ⟨.dynCoerce _ _ _, _⟩, _⟩ => declaresAll stmts ++ [name]
  | .let_ name _ _ => [name]
  | .taskSpawn name _ _ => [name]
  | _ => []

def declaresAll : List TypedStmt → List String
  | [] => []
  | s :: ss => declares s ++ declaresAll ss

end

/-- The local that a statement of a block expression declares. Source: backend_c.rs:8862-8871 -/
def letName : TypedStmt → Option String
  | .let_ name _ _ => some name
  | _ => none

mutual

/-- The scopes of the points in an emitted expression. Source: backend_c.rs:8447-8990 -/
def exprScopes (Γ : CScope) : TypedExpr → List CScope
  | ⟨.unary _ e, _⟩ | ⟨.cast e _, _⟩ | ⟨.len e _, _⟩ | ⟨.tupleAccess e _, _⟩
  | ⟨.fieldAccess e _, _⟩ | ⟨.enumVariantWithPayload _ _ _ e, _⟩ | ⟨.dynCoerce e _ _, _⟩ =>
    exprScopes Γ e
  | ⟨.binary _ a b _, _⟩ | ⟨.index a b _, _⟩ => exprScopes Γ a ++ exprScopes Γ b
  | ⟨.call _ es, _⟩ | ⟨.arrayLit es, _⟩ | ⟨.tuple es, _⟩ => exprsScopes Γ es
  | ⟨.callIndirect e es, _⟩ | ⟨.dynDispatch e _ _ _ es, _⟩ => exprScopes Γ e ++ exprsScopes Γ es
  | ⟨.structLit _ fields, _⟩ => fieldsScopes Γ fields
  | ⟨.match_ scrutinee arms, _⟩ => exprScopes Γ scrutinee ++ armsScopes Γ arms
  | ⟨.ifExpr c t e, _⟩ => exprScopes Γ c ++ exprScopes Γ t ++ exprScopes Γ e
  | ⟨.block stmts tail, _⟩ =>
    blockScopes ([] :: Γ) stmts ++ exprScopes (stmts.filterMap letName :: Γ) tail
  | ⟨.int _, _⟩ | ⟨.float _, _⟩ | ⟨.bool _, _⟩ | ⟨.str _, _⟩ | ⟨.fnRef _, _⟩
  | ⟨.enumVariant _ _ _, _⟩ | ⟨.var _, _⟩ | ⟨.ref _, _⟩ | ⟨.refMut _, _⟩ | ⟨.refField _ _, _⟩
  | ⟨.refMutField _ _, _⟩ => [Γ]

def exprsScopes (Γ : CScope) : List TypedExpr → List CScope
  | [] => []
  | e :: es => exprScopes Γ e ++ exprsScopes Γ es

def fieldsScopes (Γ : CScope) : List (String × TypedExpr) → List CScope
  | [] => []
  | (_, e) :: fields => exprScopes Γ e ++ fieldsScopes Γ fields

/-- An arm with a binding is a block that declares it. Source: backend_c.rs:8766-8818 -/
def armsScopes (Γ : CScope) : List TypedMatchArm → List CScope
  | [] => []
  | ⟨_, _, _, binding, body⟩ :: arms =>
    exprScopes ((binding.map Prod.fst).toList :: Γ) body ++ armsScopes Γ arms

/-- Source: backend_c.rs:8862-8990 -/
def blockScopes (Γ : CScope) : List TypedStmt → List CScope
  | [] => [Γ]
  | .let_ name _ e :: ss =>
    Γ :: exprScopes (Γ.declare [name]) e ++ blockScopes (Γ.declare [name]) ss
  | s :: ss => Γ :: stmtScopes Γ s ++ blockScopes Γ ss

def itemsScopes (Γ : CScope) : List TypedPrintItem → List CScope
  | [] => []
  | .expr e :: items => exprScopes Γ e ++ itemsScopes Γ items
  | .str _ :: items => itemsScopes Γ items

/-- The scopes of the points in an emitted statement. A local is in scope in the expression it is
declared with, and the body of a task is a function that declares what it captures.
Source: backend_c.rs:6936-8041 -/
def stmtScopes (Γ : CScope) : TypedStmt → List CScope
  | .let_ name _ ⟨.block stmts ⟨.dynCoerce e _ _, _⟩, _⟩ =>
    stmtsScopes Γ stmts ++ exprScopes (Γ.declare (declaresAll stmts ++ [name])) e
  | .let_ name _ e => exprScopes (Γ.declare [name]) e
  | .reassign _ _ e _ | .discard e | .return_ e | .assert e _ | .prove e => exprScopes Γ e
  | .print items => itemsScopes Γ items
  | .if_ c th el => exprScopes Γ c ++ stmtsScopes ([] :: Γ) th ++ stmtsScopes ([] :: Γ) el
  | .while_ c body => exprScopes Γ c ++ stmtsScopes ([] :: Γ) body
  | .indexAssign _ _ index _ value _ => exprScopes Γ index ++ exprScopes Γ value
  | .fieldAssign object _ _ value => exprScopes Γ object ++ exprScopes Γ value
  | .for_ var _ start end_ body _ _ =>
    exprScopes ([var] :: Γ) start ++ exprScopes ([var] :: Γ) end_ ++
      stmtsScopes ([] :: [var] :: Γ) body
  | .forIter var _ _ _ _ body => stmtsScopes ([var] :: Γ) body
  | .taskSpawn _ body captures => stmtsScopes [captures.map Prod.fst] body
  | .drop .. | .break_ | .continue_ | .taskJoin _ => [Γ]

def stmtsScopes (Γ : CScope) : List TypedStmt → List CScope
  | [] => [Γ]
  | s :: ss => Γ :: stmtScopes Γ s ++ stmtsScopes (Γ.declare (declares s)) ss

end

/-- The scopes of the points in an emitted function; an external one has none.
Source: backend_c.rs:6838-6916 -/
def functionScopes (f : TypedFunction) : List CScope :=
  if f.isExtern then [] else stmtsScopes [f.params.map Param.name] f.body

end Vani.Backend
