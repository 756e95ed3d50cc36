import Vani.Program.TypeDecls

/-!
# Names of types

After parsing, every name of a type stands in a type as that of a struct. One pass turns those of
enums into enums; then the aliases are resolved, each to a type in which no alias is left, and
another pass puts these in the place of the aliases. Both passes walk the program by hand, from
the declarations through statements and expressions to the types, and into the types.
-/

set_option autoImplicit false

namespace Vani.Program

/-! ## Declarations -/

/-- Source: ast.rs:366-372 -/
structure TypeAlias where
  name : String
  target : Ty

/-- Source: ast.rs:375-383 -/
structure ConstDecl where
  name : String
  ty : Ty
  value : Expr

/-- Source: ast.rs:354-361 -/
structure MethodsBlock where
  forType : Ty
  methods : List Function

/-- Source: ast.rs:448-455 -/
structure InterfaceMethod where
  name : String
  params : List Param
  returnType : Ty

/-- Source: ast.rs:437-443 -/
structure InterfaceDecl where
  name : String
  methods : List InterfaceMethod

/-- Source: ast.rs:459-471 -/
structure Implementation where
  interfaceName : String
  forType : Ty
  methods : List Function

/-- The flattened program, as far as types occur in it. Source: ast.rs:227-271 -/
structure SourceProgram where
  functions : List Function
  structs : List StructDecl
  enums : List EnumDecl
  interfaces : List InterfaceDecl
  impls : List Implementation
  consts : List ConstDecl
  typeAliases : List TypeAlias
  methodsBlocks : List MethodsBlock

/-! ## Types -/

namespace Ty

mutual

/-- The names of structs in a type replaced, where the passes find them: they do not go into the
arguments of a generic type or the elements of the collections that came later.
Source: checker.rs:3729-3761, 4059-4100, 4140-4173 -/
def walk (f : String → Ty) : Ty → Ty
  | struct name => f name
  | vec inner => vec (inner.walk f)
  | ref inner => ref (inner.walk f)
  | refMut inner => refMut (inner.walk f)
  | atomic inner => atomic (inner.walk f)
  | mutex inner => mutex (inner.walk f)
  | guard inner => guard (inner.walk f)
  | array element length => array (element.walk f) length
  | channel inner capacity => channel (inner.walk f) capacity
  | tuple elements => tuple (walkAll f elements)
  | fnPtr params ret => fnPtr (walkAll f params) (ret.walk f)
  | t => t

def walkAll (f : String → Ty) : List Ty → List Ty
  | [] => []
  | t :: ts => t.walk f :: walkAll f ts

end

end Ty

/-- Source: checker.rs:3729-3761 -/
def resolveEnumTypesInType (enums : List String) (ty : Ty) : Ty :=
  ty.walk fun name => if enums.contains name then .enum name else .struct name

/-- Aliases and what they stand for. -/
abbrev ResolvedAliases := List (String × Ty)

/-- Source: checker.rs:4140-4173 -/
def subAliasesInType (aliases : ResolvedAliases) (ty : Ty) : Ty :=
  ty.walk fun name => (aliases.lookup name).getD (.struct name)

/-! ## Statements and expressions -/

mutual

/-- Every type in an expression replaced. Source: checker.rs:3837-3933, 4238-4303 -/
def Expr.mapTypes (f : Ty → Ty) : Expr → Expr
  | .unary op e => .unary op (e.mapTypes f)
  | .binary op l r => .binary op (l.mapTypes f) (r.mapTypes f)
  | .call name args => .call name (mapTypesInExprs f args)
  | .methodCall receiver method args =>
    .methodCall (receiver.mapTypes f) method (mapTypesInExprs f args)
  | .cast e ty => .cast (e.mapTypes f) (f ty)
  | .arrayLit elements => .arrayLit (mapTypesInExprs f elements)
  | .index array index => .index (array.mapTypes f) (index.mapTypes f)
  | .len array => .len (array.mapTypes f)
  | .ref inner => .ref (inner.mapTypes f)
  | .refMut inner => .refMut (inner.mapTypes f)
  | .tuple elements => .tuple (mapTypesInExprs f elements)
  | .tupleAccess tuple index => .tupleAccess (tuple.mapTypes f) index
  | .structLit typeName fields => .structLit typeName (mapTypesInFields f fields)
  | .fieldAccess object field => .fieldAccess (object.mapTypes f) field
  | .match_ scrutinee arms => .match_ (scrutinee.mapTypes f) (mapTypesInArms f arms)
  | .ifExpr c t e => .ifExpr (c.mapTypes f) (t.mapTypes f) (e.mapTypes f)
  | .block stmts tail => .block (mapTypesInStmts f stmts) (tail.mapTypes f)
  | .try_ inner => .try_ (inner.mapTypes f)
  | .anonFn params ret body =>
    .anonFn (params.map fun p => { p with ty := f p.ty }) (f ret) (mapTypesInStmts f body)
  | .int v => .int v
  | .float v => .float v
  | .bool v => .bool v
  | .str v => .str v
  | .var name => .var name

def mapTypesInExprs (f : Ty → Ty) : List Expr → List Expr
  | [] => []
  | e :: es => e.mapTypes f :: mapTypesInExprs f es

def mapTypesInFields (f : Ty → Ty) : List (String × Expr) → List (String × Expr)
  | [] => []
  | (name, e) :: fields => (name, e.mapTypes f) :: mapTypesInFields f fields

def mapTypesInArms (f : Ty → Ty) : List (Pattern × Expr) → List (Pattern × Expr)
  | [] => []
  | (pattern, e) :: arms => (pattern, e.mapTypes f) :: mapTypesInArms f arms

def mapTypesInItems (f : Ty → Ty) : List PrintItem → List PrintItem
  | [] => []
  | .expr e :: items => .expr (e.mapTypes f) :: mapTypesInItems f items
  | .str s :: items => .str s :: mapTypesInItems f items

/-- Every type in a statement replaced. Source: checker.rs:3763-3828, 4175-4230 -/
def Stmt.mapTypes (f : Ty → Ty) : Stmt → Stmt
  | .let_ name ann e => .let_ name (ann.map f) (e.mapTypes f)
  | .letTuple names ann e => .letTuple names (ann.map f) (e.mapTypes f)
  | .return_ e => .return_ (e.mapTypes f)
  | .assert e message => .assert (e.mapTypes f) message
  | .prove e => .prove (e.mapTypes f)
  | .print items => .print (mapTypesInItems f items)
  | .if_ c th el => .if_ (c.mapTypes f) (mapTypesInStmts f th) (mapTypesInStmts f el)
  | .while_ c invariants body =>
    .while_ (c.mapTypes f) (mapTypesInExprs f invariants) (mapTypesInStmts f body)
  | .assign name e => .assign name (e.mapTypes f)
  | .indexAssign name index path value =>
    .indexAssign name (index.mapTypes f) path (value.mapTypes f)
  | .fieldAssign object field value => .fieldAssign (object.mapTypes f) field (value.mapTypes f)
  | .for_ var start end_ invariants body parallel reductions =>
    .for_ var (start.mapTypes f) (end_.mapTypes f) (mapTypesInExprs f invariants)
      (mapTypesInStmts f body) parallel reductions
  | .forIter var collection consumes body =>
    .forIter var collection consumes (mapTypesInStmts f body)
  | .taskSpawn name body => .taskSpawn name (mapTypesInStmts f body)
  | .break_ => .break_
  | .continue_ => .continue_
  | .taskJoin name => .taskJoin name

def mapTypesInStmts (f : Ty → Ty) : List Stmt → List Stmt
  | [] => []
  | s :: ss => s.mapTypes f :: mapTypesInStmts f ss

end

/-! ## Programs -/

/-- Source: checker.rs:3672-3680, 4107-4115 -/
def Function.mapTypes (f : Ty → Ty) (fn : Function) : Function :=
  { fn with
    returnType := f fn.returnType
    params := fn.params.map fun p => { p with ty := f p.ty }
    body := mapTypesInStmts f fn.body }

/-- Source: checker.rs:3682-3686, 4116-4120 -/
def StructDecl.mapTypes (f : Ty → Ty) (decl : StructDecl) : StructDecl :=
  { decl with fields := decl.fields.map fun field => (field.1, f field.2) }

/-- Source: checker.rs:3699-3710, 4124-4136 -/
def MethodsBlock.mapTypes (f : Ty → Ty) (block : MethodsBlock) : MethodsBlock where
  forType := f block.forType
  methods := block.methods.map (Function.mapTypes f)

/-- Source: checker.rs:3716-3727 -/
def Implementation.mapTypes (f : Ty → Ty) (imp : Implementation) : Implementation :=
  { imp with
    forType := f imp.forType
    methods := imp.methods.map (Function.mapTypes f) }

namespace SourceProgram

def enumNames (p : SourceProgram) : List String := p.enums.map EnumDecl.name

def structNames (p : SourceProgram) : List String := p.structs.map StructDecl.name

def aliasNames (p : SourceProgram) : List String := p.typeAliases.map TypeAlias.name

/-- Source: checker.rs:3668-3727 -/
def resolveEnumTypesInProgram (p : SourceProgram) : SourceProgram :=
  let f := resolveEnumTypesInType p.enumNames
  { p with
    functions := p.functions.map (Function.mapTypes f)
    structs := p.structs.map (StructDecl.mapTypes f)
    typeAliases := p.typeAliases.map fun a => { a with target := f a.target }
    consts := p.consts.map fun c => { c with ty := f c.ty }
    methodsBlocks := p.methodsBlocks.map (MethodsBlock.mapTypes f)
    impls := p.impls.map (Implementation.mapTypes f) }

/-- Source: checker.rs:4104-4138 -/
def substituteAliasesInProgram (aliases : ResolvedAliases) (p : SourceProgram) : SourceProgram :=
  let f := subAliasesInType aliases
  { p with
    functions := p.functions.map (Function.mapTypes f)
    structs := p.structs.map (StructDecl.mapTypes f)
    consts := p.consts.map fun c => { c with ty := f c.ty }
    methodsBlocks := p.methodsBlocks.map (MethodsBlock.mapTypes f) }

end SourceProgram

/-! ## Resolving aliases -/

/-- Why aliases are not resolved. The last case is none of the source: a search of more steps than
the number of aliases allows. -/
inductive AliasError
  | redeclared (name : String)
  | likeStruct (name : String)
  | likeEnum (name : String)
  | recursive (name : String)
  | outOfFuel
  deriving DecidableEq

/-- Source: checker.rs:3950, 3960-3963, 3970-3973, 4030 -/
def AliasError.message : AliasError → String
  | redeclared name => "type alias '" ++ name ++ "' is already declared"
  | likeStruct name => "type alias '" ++ name ++ "' collides with a struct of the same name"
  | likeEnum name => "type alias '" ++ name ++ "' collides with an enum of the same name"
  | recursive name => "recursive type alias '" ++ name ++ "' is not allowed in v1"
  | outOfFuel => ""

mutual

/-- The aliases in a type resolved by `chain`, one after the other, and put in their places.
Source: checker.rs:4055-4100 -/
def resolveTypeWith (isAlias : String → Bool)
    (chain : String → ResolvedAliases → Except AliasError ResolvedAliases) :
    Ty → ResolvedAliases → Except AliasError (Ty × ResolvedAliases)
  | .struct name, r =>
    if isAlias name then
      (chain name r).map fun r => ((r.lookup name).getD (.struct name), r)
    else .ok (.struct name, r)
  | .vec inner, r => (resolveTypeWith isAlias chain inner r).map (Prod.map .vec id)
  | .ref inner, r => (resolveTypeWith isAlias chain inner r).map (Prod.map .ref id)
  | .refMut inner, r => (resolveTypeWith isAlias chain inner r).map (Prod.map .refMut id)
  | .atomic inner, r => (resolveTypeWith isAlias chain inner r).map (Prod.map .atomic id)
  | .mutex inner, r => (resolveTypeWith isAlias chain inner r).map (Prod.map .mutex id)
  | .guard inner, r => (resolveTypeWith isAlias chain inner r).map (Prod.map .guard id)
  | .array element length, r =>
    (resolveTypeWith isAlias chain element r).map (Prod.map (.array · length) id)
  | .channel inner capacity, r =>
    (resolveTypeWith isAlias chain inner r).map (Prod.map (.channel · capacity) id)
  | .tuple elements, r => (resolveTypesWith isAlias chain elements r).map (Prod.map .tuple id)
  | .fnPtr params ret, r =>
    (resolveTypesWith isAlias chain params r).bind fun (params, r) =>
      (resolveTypeWith isAlias chain ret r).map (Prod.map (.fnPtr params) id)
  | t, r => .ok (t, r)

def resolveTypesWith (isAlias : String → Bool)
    (chain : String → ResolvedAliases → Except AliasError ResolvedAliases) :
    List Ty → ResolvedAliases → Except AliasError (List Ty × ResolvedAliases)
  | [], r => .ok ([], r)
  | t :: ts, r =>
    (resolveTypeWith isAlias chain t r).bind fun (t, r) =>
      (resolveTypesWith isAlias chain ts r).map (Prod.map (t :: ·) id)

end

/-- Source: checker.rs:4016-4053 -/
def resolveAliasChain (byName : String → Option Ty) :
    Nat → List String → String → ResolvedAliases → Except AliasError ResolvedAliases
  | 0, _, _, _ => .error .outOfFuel
  | fuel + 1, stack, name, r =>
    if (r.lookup name).isSome then .ok r
    else if name ∈ stack then .error (.recursive name)
    else match byName name with
      | none => .ok r
      | some target =>
        (resolveTypeWith (fun n => (byName n).isSome)
          (resolveAliasChain byName fuel (name :: stack)) target r).map
            fun (target, r) => (name, target) :: r

/-- The first alias with a name that is taken. Source: checker.rs:3945-3977 -/
def aliasCollision (structs enums : List String) : List String → List String → Option AliasError
  | _, [] => none
  | seen, name :: names =>
    if name ∈ seen then some (.redeclared name)
    else if name ∈ structs then some (.likeStruct name)
    else if name ∈ enums then some (.likeEnum name)
    else aliasCollision structs enums (name :: seen) names

namespace SourceProgram

/-- The target of an alias. -/
def target (p : SourceProgram) (name : String) : Option Ty :=
  (p.typeAliases.find? fun a => a.name == name).map TypeAlias.target

/-- Aliases are resolved in the order of their names. Source: checker.rs:3940-4012 -/
def resolveTypeAliases (p : SourceProgram) : Except AliasError ResolvedAliases :=
  match aliasCollision p.structNames p.enumNames [] p.aliasNames with
  | some error => .error error
  | none =>
    (p.aliasNames.mergeSort fun m n => decide (m ≤ n)).foldlM
      (fun r name => resolveAliasChain p.target (p.typeAliases.length + 1) [] name r) []

/-- The two passes on names of types. Source: checker.rs:362-388 -/
def resolveTypeNames (p : SourceProgram) : Except AliasError SourceProgram :=
  let p := p.resolveEnumTypesInProgram
  p.resolveTypeAliases.map fun aliases =>
    if aliases.isEmpty then p else p.substituteAliasesInProgram aliases

end SourceProgram

end Vani.Program
