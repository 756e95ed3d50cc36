import Vani.Program.Ast
import Vani.Library.Outcome

/-!
# Type declarations

Structs and enums as the checker sees them once names are resolved and generic declarations
are gone. It first registers which of them are not `Copy`, then goes through the structs,
searches their fields for a struct that contains itself, and goes through the enums. What
it finds wrong is a list of messages; a program with none passes.
-/

set_option autoImplicit false

namespace Vani.Program

open Vani.Library

/-- Source: ast.rs:386-407 -/
structure StructDecl where
  name : String
  fields : List (String × Ty)

/-- Source: ast.rs:424-433 -/
structure EnumVariant where
  name : String
  payload : List Ty

/-- Source: ast.rs:410-421 -/
structure EnumDecl where
  name : String
  variants : List EnumVariant

/-- The declarations of a program, and the names of its functions. -/
structure TypeDecls where
  structs : List StructDecl
  enums : List EnumDecl
  functions : List String

/-! ## Types in messages -/

mutual

/-- Source: ast.rs:947-1027 -/
def Ty.display : Ty → String
  | .int .i8 => "i8"
  | .int .i16 => "i16"
  | .int .i32 => "i32"
  | .int .i64 => "i64"
  | .int .u8 => "u8"
  | .int .u16 => "u16"
  | .int .u32 => "u32"
  | .int .u64 => "u64"
  | .float .f32 => "f32"
  | .float .f64 => "f64"
  | .bool => "bool"
  | .str => "Str"
  | .ownedStr => "OwnedStr"
  | .array element length => "[" ++ element.display ++ "; " ++ toString length ++ "]"
  | .vec element => "Vec<" ++ element.display ++ ">"
  | .ref inner => "ref " ++ inner.display
  | .refMut inner => "mut ref " ++ inner.display
  | .task => "Task"
  | .atomic inner => "Atomic<" ++ inner.display ++ ">"
  | .channel inner capacity =>
    if capacity = 16 then "Channel<" ++ inner.display ++ ">"
    else "Channel<" ++ inner.display ++ ", " ++ toString capacity ++ ">"
  | .mutex inner => "Mutex<" ++ inner.display ++ ">"
  | .guard inner => "Guard<" ++ inner.display ++ ">"
  | .condvar => "Condvar"
  | .deque inner => "Deque<" ++ inner.display ++ ">"
  | .hashSet inner => "HashSet<" ++ inner.display ++ ">"
  | .hashMap k v => "HashMap<" ++ k.display ++ ", " ++ v.display ++ ">"
  | .bTreeSet inner => "BTreeSet<" ++ inner.display ++ ">"
  | .bTreeMap k v => "BTreeMap<" ++ k.display ++ ", " ++ v.display ++ ">"
  | .unionFind => "UnionFind"
  | .binaryHeap inner => "BinaryHeap<" ++ inner.display ++ ">"
  | .bloomFilter => "BloomFilter"
  | .bst inner => "Bst<" ++ inner.display ++ ">"
  | .graph => "Graph"
  | .trie => "Trie"
  | .skipList => "SkipList"
  | .fnPtr params ret => "fn(" ++ displayAll params ++ ") -> " ++ ret.display
  | .tuple elements => "(" ++ displayAll elements ++ ")"
  | .struct name => name
  | .enum name => name
  | .apply name args => name ++ "<" ++ displayAll args ++ ">"
  | .param name => name
  | .object iface => "dyn " ++ iface

/-- Types with commas between them. -/
def displayAll : List Ty → String
  | [] => ""
  | [t] => t.display
  | t :: ts => t.display ++ ", " ++ displayAll ts

end

/-! ## Copy types -/

/-- The registries of structs and enums that are not `Copy`. Source: ast.rs:12-53 -/
structure NonCopy where
  structs : List String
  enums : List String

/-- Source: ast.rs:861-901 -/
def Ty.isCopy (r : NonCopy) : Ty → Bool
  | .array _ _ | .vec _ | .ownedStr | .task | .atomic _ | .channel _ _ | .mutex _ | .guard _
  | .condvar | .deque _ | .hashSet _ | .hashMap _ _ | .bTreeSet _ | .bTreeMap _ _ | .unionFind
  | .binaryHeap _ | .bloomFilter | .bst _ | .graph | .trie | .skipList => false
  | .ref _ | .refMut _ => true
  | .struct name => decide (name ∉ r.structs)
  | .enum name => decide (name ∉ r.enums)
  | _ => true

/-- One turn of the inner loop: a struct with a field that is not `Copy` is taken down.
Source: checker.rs:532-540 -/
def markStruct (r : NonCopy) : List String × Bool → StructDecl → List String × Bool
  | (nonCopy, changed), decl =>
    if decl.name ∈ nonCopy then (nonCopy, changed)
    else if decl.fields.any fun f => !f.2.isCopy r then (nonCopy ++ [decl.name], true)
    else (nonCopy, changed)

/-- One turn of the loop to the fixed point. Source: checker.rs:529-544 -/
def markTurn (structs : List StructDecl) (enums nonCopy : List String) :
    Outcome (List String ⊕ List String) :=
  let (nonCopy', changed) := structs.foldl (markStruct ⟨nonCopy, enums⟩) (nonCopy, false)
  pure (if changed then .inl nonCopy' else .inr nonCopy')

/-- `strip_suffix` -/
def stripSuffix (s suffix : String) : Option String :=
  (s.toList.dropSuffix? suffix.toList).map String.ofList

/-- A function whose name makes it the `Drop` implementation of a struct.
Source: checker.rs:554-561 -/
def markDrop (structs : List StructDecl) (nonCopy : List String) (function : String) :
    List String :=
  match stripSuffix function "_drop" with
  | some typeName =>
    if typeName ∈ structs.map StructDecl.name ∧ typeName ∉ nonCopy then nonCopy ++ [typeName]
    else nonCopy
  | none => nonCopy

/-- The structs that are not `Copy`, given the registry of enums as it was left by whatever
was checked before. Source: checker.rs:520-564 -/
def nonCopyStructs (p : TypeDecls) (enums : List String) : Outcome (List String) := do
  let nonCopy ← Outcome.loop (markTurn p.structs enums) (p.structs.length + 1) []
  pure (p.functions.foldl (markDrop p.structs) nonCopy)

/-- Source: checker.rs:571-576 -/
def heapPayload (v : EnumVariant) : Bool :=
  match v.payload.head? with
  | some .ownedStr | some (.vec _) => true
  | _ => false

/-- The enums that are not `Copy`. Source: checker.rs:568-583 -/
def nonCopyEnums (enums : List EnumDecl) : List String :=
  (enums.filter fun decl => decl.variants.any heapPayload).map EnumDecl.name

/-! ## Structs -/

/-- Source: checker.rs:620-637 -/
def fieldAllowed (r : NonCopy) (ty : Ty) : Bool :=
  ty.isCopy r ||
    match ty with
    | .ownedStr | .task | .atomic _ | .vec _ | .mutex _ | .channel _ _ | .struct _ => true
    | .array element _ => element.isCopy r
    | _ => false

/-- What is wrong with a field. Source: checker.rs:598-648 -/
def fieldMessages (r : NonCopy) (declName : String) (field : String × Ty) : List String :=
  (match field.2 with
    | .ref _ | .refMut _ =>
      ["struct field '" ++ declName ++ "::" ++ field.1 ++ "' cannot be a reference"]
    | _ => []) ++
  if fieldAllowed r field.2 then []
  else
    ["struct field '" ++ declName ++ "::" ++ field.1 ++ "' has non-Copy type " ++
      field.2.display ++ " — v1 supports Copy types, OwnedStr, Vec<T>, [T; N] of Copy " ++
      "elements, Task, Atomic<T>, Mutex<T>, and Channel<T, N> as struct fields; " ++
      "Guard<T> still needs explicit wiring"]

/-- A message for each pair of equal names in a list. Source: checker.rs:650-663, 855-867 -/
def duplicateMessages (message : String → String) : List String → List String
  | [] => []
  | name :: rest =>
    (rest.filter (· = name)).map message ++ duplicateMessages message rest

/-- What is wrong with a struct, after the ones before it. Source: checker.rs:587-670 -/
def structMessages (r : NonCopy) (earlier : List String) (decl : StructDecl) : List String :=
  (if 64 < decl.fields.length then
    ["struct '" ++ decl.name ++ "' has " ++ toString decl.fields.length ++
      " fields; v1 supports 0..=64"]
  else []) ++
  decl.fields.flatMap (fieldMessages r decl.name) ++
  duplicateMessages (fun field => "struct '" ++ decl.name ++ "' has duplicate field '" ++
    field ++ "'") (decl.fields.map Prod.fst) ++
  if decl.name ∈ earlier then ["struct '" ++ decl.name ++ "' already declared"] else []

/-- The struct loop. Source: checker.rs:586-680 -/
def allStructMessages (r : NonCopy) (earlier : List String) : List StructDecl → List String
  | [] => []
  | decl :: rest =>
    structMessages r earlier decl ++ allStructMessages r (earlier ++ [decl.name]) rest

/-! ## Structs that contain themselves -/

mutual

/-- The structs a type holds inline. Source: checker.rs:693-711 -/
def directStructDeps : Ty → List String
  | .struct name => [name]
  | .tuple elements => directStructDepsAll elements
  | .array element _ => directStructDeps element
  | _ => []

def directStructDepsAll : List Ty → List String
  | [] => []
  | t :: ts => directStructDeps t ++ directStructDepsAll ts

end

/-- The order in which the hash set of each struct's dependencies gives them. -/
structure DepOrder where
  order : String → List String → List String
  mem_iff : ∀ name deps d, d ∈ order name deps ↔ d ∈ deps

/-- The order in which the dependencies were found. -/
def DepOrder.found : DepOrder := ⟨fun _ deps => deps, fun _ _ _ => Iff.rfl⟩

/-- The dependencies of a struct, in the order they come. Source: checker.rs:712-719 -/
def structDeps (structs : List StructDecl) (o : DepOrder) (name : String) : List String :=
  match structs.reverse.find? (·.name = name) with
  | some decl => o.order name (decl.fields.flatMap fun f => directStructDeps f.2)
  | none => []

/-- The loop over the dependencies of a struct that is being visited: the answer, the stack
and the visited structs. Source: checker.rs:730-736 -/
def visitDeps (visit : String → List String → List String →
      Outcome (Bool × List String × List String)) :
    List String → List String → List String → Outcome (Bool × List String × List String)
  | [], stack, visited => pure (false, stack, visited)
  | d :: ds, stack, visited =>
    if d ∈ visited then visitDeps visit ds stack visited
    else do
      let (cycle, stack, visited) ← visit d stack visited
      if cycle then pure (true, stack, visited) else visitDeps visit ds stack visited

/-- The depth-first search, with a bound on its depth. Source: checker.rs:721-742 -/
def hasCycle (deps : String → List String) :
    Nat → String → List String → List String → Outcome (Bool × List String × List String)
  | 0, _, _, _ => .stuck
  | fuel + 1, name, stack, visited =>
    if name ∈ stack then pure (true, stack, visited)
    else do
      let (cycle, stack, visited) ←
        visitDeps (hasCycle deps fuel) (deps name) (name :: stack) visited
      pure (if cycle then (true, stack, visited) else (false, stack.erase name, name :: visited))

/-- Source: checker.rs:751-757 -/
def recursiveMessage (name : String) : String :=
  "struct '" ++ name ++ "' is recursive (directly or transitively) — contains itself by " ++
    "value, which has infinite size; use `ref T` / `Vec<T>` to break the cycle via the heap"

/-- The search from every struct that has not been visited. Source: checker.rs:743-760 -/
def recursiveStructs (deps : String → List String) (depth : Nat) :
    List StructDecl → List String → Outcome (List String)
  | [], _ => pure []
  | decl :: rest, visited =>
    if decl.name ∈ visited then recursiveStructs deps depth rest visited
    else do
      let (cycle, _, visited) ← hasCycle deps depth decl.name [] visited
      let messages ← recursiveStructs deps depth rest visited
      pure (if cycle then recursiveMessage decl.name :: messages else messages)

/-! ## Enums -/

/-- Source: checker.rs:810-824 -/
def payloadAllowed (r : NonCopy) (ty : Ty) : Bool :=
  ty.isCopy r ||
    match ty with
    | .ownedStr | .vec _ | .task | .atomic _ | .mutex _ | .channel _ _ => true
    | .array element _ => element.isCopy r
    | _ => false

/-- What is wrong with a variant. Source: checker.rs:784-839 -/
def variantMessages (r : NonCopy) (declName : String) (v : EnumVariant) : List String :=
  (if 1 < v.payload.length then
    ["enum '" ++ declName ++ "' variant '" ++ v.name ++ "' has " ++
      toString v.payload.length ++ " payload fields — only single-field payloads " ++
      "supported in v1 (T1.3 phase 2b)"]
  else []) ++
  match v.payload.head? with
  | some ty =>
    if payloadAllowed r ty then []
    else
      ["enum '" ++ declName ++ "' variant '" ++ v.name ++ "' payload type " ++ ty.display ++
        " is not admitted in v1 — supported payloads are Copy types, OwnedStr, Vec<T>, " ++
        "[T;N] of Copy elements, Task, Atomic<T>, Mutex<T>, and Channel<T, N>; " ++
        "only Guard<T> still needs codegen work"]
  | none => []

/-- What is wrong with an enum, after the ones before it. Source: checker.rs:766-879 -/
def enumMessages (r : NonCopy) (structNames earlier : List String) (decl : EnumDecl) :
    List String :=
  (if decl.variants = [] ∨ 255 < decl.variants.length then
    ["enum '" ++ decl.name ++ "' has " ++ toString decl.variants.length ++
      " variants; v1 supports 1..=255"]
  else []) ++
  decl.variants.flatMap (variantMessages r decl.name) ++
  duplicateMessages (fun variant => "enum '" ++ decl.name ++ "' has duplicate variant '" ++
    variant ++ "'") (decl.variants.map EnumVariant.name) ++
  (if decl.name ∈ earlier then ["enum '" ++ decl.name ++ "' already declared"] else []) ++
  if decl.name ∈ structNames then
    ["enum '" ++ decl.name ++ "' collides with a struct of the same name"]
  else []

/-- The enum loop. Source: checker.rs:765-891 -/
def allEnumMessages (r : NonCopy) (structNames earlier : List String) :
    List EnumDecl → List String
  | [] => []
  | decl :: rest =>
    enumMessages r structNames earlier decl ++
      allEnumMessages r structNames (earlier ++ [decl.name]) rest

/-! ## The whole check -/

/-- The registries after the first passes. Source: checker.rs:520-584 -/
def registries (p : TypeDecls) (enums : List String) : Outcome NonCopy := do
  let structs ← nonCopyStructs p enums
  pure ⟨structs, nonCopyEnums p.enums⟩

/-- A bound on the depth of the search: each struct on the stack is another one of these. -/
def searchDepth (structs : List StructDecl) : Nat :=
  (structs.flatMap fun decl =>
    decl.name :: decl.fields.flatMap fun f => directStructDeps f.2).length + 1

/-- The messages about the declarations, with the registry of enums as it was before and the
order of each set of dependencies. Source: checker.rs:520-891 -/
def checkTypeDecls (p : TypeDecls) (enums : List String) (o : DepOrder) :
    Outcome (List String) := do
  let r ← registries p enums
  let recursive ← recursiveStructs (structDeps p.structs o) (searchDepth p.structs) p.structs []
  pure (allStructMessages r [] p.structs ++ recursive ++
    allEnumMessages r (p.structs.map StructDecl.name) [] p.enums)

/-- The checker has nothing to say about the declarations. -/
def TypeDecls.Accepted (p : TypeDecls) (enums : List String) (o : DepOrder) : Prop :=
  checkTypeDecls p enums o = .done []

end Vani.Program
