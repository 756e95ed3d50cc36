import Vani.Program.TypeDecls
import Vani.Library.Outcome
import Mathlib.Data.Finmap

/-!
# Modules and implementations

A program is flattened before it is checked: an item of a module gets the names of the modules
around it in front of its own, with `__` between them, and the names in the headers of
implementations follow. The orphan rule reads the module of an interface or a type back from
the flattened name.
-/

set_option autoImplicit false

namespace Vani.Program

open Vani.Library

/-!
## Re-exports

A module re-exports an item of another one with `pub use`. Flattening the modules first
resolves chains of re-exports: passes over a snapshot of the map let each name stand for
what its target stands for, until a pass changes nothing. The map is a hash map, whose
entries come in any order, in each pass another one.
-/

/-- From the name an item is re-exported under to the name it is re-exported from.
Source: checker.rs:2824 -/
abbrev ReExports := Finmap fun _ : String => String

/-- A list is the entries of a map, in some order. -/
structure EntriesOf (m : ReExports) (es : List (String × String)) : Prop where
  nodup : es.Nodup
  mem_iff : ∀ k v, (k, v) ∈ es ↔ m.lookup k = some v

/-- The order in which a hash map gives its entries in each pass. -/
structure IterationOrder where
  entries : Nat → ReExports → List (String × String)
  entriesOf : ∀ n m, EntriesOf m (entries n m)

/-- A hash map gives its entries in some order. -/
instance : Nonempty IterationOrder := by
  refine ⟨⟨fun _ m => m.entries.toList.map fun entry => (entry.1, entry.2), fun _ m => ⟨?_, ?_⟩⟩⟩
  · refine List.Nodup.map_on ?_ (Multiset.coe_nodup.mp ?_)
    · rintro ⟨k, v⟩ _ ⟨k', v'⟩ _ heq
      cases heq
      rfl
    · rw [Multiset.coe_toList]
      exact m.nodupKeys.nodup
  · intro k v
    rw [List.mem_map, ← Option.mem_def, Finmap.mem_lookup_iff]
    constructor
    · rintro ⟨⟨k, v⟩, hmem, heq⟩
      cases heq
      exact Multiset.mem_toList.mp hmem
    · intro hmem
      exact ⟨⟨k, v⟩, Multiset.mem_toList.mpr hmem, rfl⟩

/-- One entry of the snapshot. Source: checker.rs:3306-3313 -/
def followEntry : ReExports × Bool → String × String → ReExports × Bool
  | (m, changed), (k, v) =>
    match m.lookup v with
    | some deeper => if deeper ≠ v then (m.insert k deeper, true) else (m, changed)
    | none => (m, changed)

/-- One pass over the snapshot: the map, and whether it has changed.
Source: checker.rs:3301-3314 -/
def followPass (es : List (String × String)) (m : ReExports) : ReExports × Bool :=
  es.foldl followEntry (m, false)

/-- One turn of the loop, with the number of passes so far. Source: checker.rs:3300-3318 -/
def followTurn (order : IterationOrder) : Nat × ReExports →
    Outcome ((Nat × ReExports) ⊕ ReExports)
  | (n, m) =>
    let (m', changed) := followPass (order.entries n m) m
    pure (if changed then .inl (n + 1, m') else .inr m')

/-- The loop, with a bound on its passes. Source: checker.rs:3299-3318 -/
def resolveReExports (order : IterationOrder) (fuel : Nat) (m : ReExports) : Outcome ReExports :=
  Outcome.loop (followTurn order) fuel (0, m)

/-- What a name stands for, itself if it is not re-exported. Source: checker.rs:3323-3325 -/
def qualifyReExport (m : ReExports) (name : String) : String := (m.lookup name).getD name

/-! ## Declarations -/

/-- The name of an item of a module, and whether it is exported. -/
structure Item where
  name : String
  isPub : Bool

/-- `use moduleName::item as localName;`, with `*` for all items. Source: ast.rs:504-522 -/
structure UsePath where
  moduleName : String
  item : String
  localName : Option String

/-- The header of an implementation. Source: ast.rs:459-471 -/
structure ImplDecl where
  interfaceName : String
  forType : Ty
  homeModule : Option String

/-- The items of a module, by kind. -/
structure ModuleItems where
  functions : List Item
  structs : List Item
  enums : List Item
  interfaces : List Item
  consts : List Item
  typeAliases : List Item

/-- The items in the order in which the map of visibilities receives them.
Source: checker.rs:2871-2894 -/
def ModuleItems.all (i : ModuleItems) : List Item :=
  i.functions ++ i.structs ++ i.enums ++ i.interfaces ++ i.consts ++ i.typeAliases

/-- Source: ast.rs:280-314 -/
inductive ModuleDecl
  | mk (name : String) (items : ModuleItems) (impls : List ImplDecl) (usePaths : List UsePath)
      (modules : List ModuleDecl)

namespace ModuleDecl

def name : ModuleDecl → String
  | mk name _ _ _ _ => name

def items : ModuleDecl → ModuleItems
  | mk _ items _ _ _ => items

def impls : ModuleDecl → List ImplDecl
  | mk _ _ impls _ _ => impls

def usePaths : ModuleDecl → List UsePath
  | mk _ _ _ usePaths _ => usePaths

def modules : ModuleDecl → List ModuleDecl
  | mk _ _ _ _ modules => modules

end ModuleDecl

/-- The names of the items at the top level, its implementations, and the modules.
Source: ast.rs:227-271 -/
structure ModuleTree where
  structs : List String
  enums : List String
  interfaces : List String
  typeAliases : List String
  impls : List ImplDecl
  modules : List ModuleDecl

/-! ## Names with separators -/

/-- What stands before the first `__`, and what after it. -/
def splitOnce : List Char → Option (List Char × List Char)
  | '_' :: '_' :: rest => some ([], rest)
  | c :: rest => (splitOnce rest).map fun parts => (c :: parts.1, parts.2)
  | [] => none

/-- The first part of a name with separators. Source: checker.rs:2995 -/
def firstSegment (name : String) : String :=
  match splitOnce name.toList with
  | some (first, _) => String.ofList first
  | none => name

/-- Source: checker.rs:4402-4412 -/
def extractHomeModule (name : String) : Option String :=
  (splitOnce name.toList).map fun parts => String.ofList parts.1

/-! ## Flattening -/

/-- A module on the way through the tree: the names of the modules from the outermost one to
it, its flattened name, and the module. -/
structure Scope where
  path : List String
  modName : String
  decl : ModuleDecl

/-- Source: checker.rs:2837-2841 -/
def pathName (pathPrefix name : String) : String :=
  if pathPrefix.isEmpty then name else pathPrefix ++ "__" ++ name

mutual

/-- A module and those in it, the last one first. Source: checker.rs:2831-2865 -/
def visit (path : List String) (pathPrefix : String) : ModuleDecl → List Scope
  | .mk name items impls usePaths modules =>
    ⟨path ++ [name], pathName pathPrefix name, .mk name items impls usePaths modules⟩ ::
      visitAll (path ++ [name]) (pathName pathPrefix name) modules

/-- Source: checker.rs:2831-2865 -/
def visitAll (path : List String) (pathPrefix : String) : List ModuleDecl → List Scope
  | [] => []
  | m :: ms => visitAll path pathPrefix ms ++ visit path pathPrefix m

end

namespace Scope

/-- Whether a name is an exported item of the module, or one of its other items; of items with
one name the last one counts. Source: checker.rs:2869-2894 -/
def visibility (s : Scope) (name : String) : Option Bool :=
  (s.decl.items.all.reverse.find? fun item => item.name == name).map Item.isPub

/-- What a name stands for that the module imports; the first import of a name counts.
Source: checker.rs:2916-2966 -/
def useAlias (s : Scope) (name : String) : Option String :=
  (s.decl.usePaths.find? fun up => up.item != "*" && up.localName.getD up.item == name).map
    fun up => up.moduleName ++ "__" ++ up.item

/-- Source: checker.rs:2979-3002 -/
def qualify (s : Scope) (name : String) : String :=
  match s.visibility name with
  | some true => s.modName ++ "__" ++ name
  | some false => s.modName ++ "__priv__" ++ name
  | none =>
    match s.useAlias name with
    | some mangled => mangled
    | none =>
      if (s.decl.modules.map ModuleDecl.name).contains (firstSegment name) then
        s.modName ++ "__" ++ name
      else name

end Scope

mutual

/-- The names of structs and enums in a type replaced. Source: checker.rs:3073-3089 -/
def Ty.rewrite (qualify : String → String) : Ty → Ty
  | .struct name => .struct (qualify name)
  | .enum name => .enum (qualify name)
  | .ref inner => .ref (inner.rewrite qualify)
  | .refMut inner => .refMut (inner.rewrite qualify)
  | .vec inner => .vec (inner.rewrite qualify)
  | .atomic inner => .atomic (inner.rewrite qualify)
  | .mutex inner => .mutex (inner.rewrite qualify)
  | .guard inner => .guard (inner.rewrite qualify)
  | .channel inner capacity => .channel (inner.rewrite qualify) capacity
  | .array element length => .array (element.rewrite qualify) length
  | .tuple elements => .tuple (rewriteAllTypes qualify elements)
  | .fnPtr params ret => .fnPtr (rewriteAllTypes qualify params) (ret.rewrite qualify)
  | t => t

/-- Source: checker.rs:3082-3086 -/
def rewriteAllTypes (qualify : String → String) : List Ty → List Ty
  | [] => []
  | t :: ts => t.rewrite qualify :: rewriteAllTypes qualify ts

end

/-- An item of the flattened program: the module it comes from, and its flattened name. -/
structure Declared where
  path : List String
  name : String

/-- An implementation of the flattened program, with the module it comes from and, where the
header names a type of the program, the flattened name of that type. -/
structure PlacedImpl where
  path : List String
  impl : ImplDecl
  typeName : Option String

/-- The name in a type that is one of the program's own. -/
def Ty.nominal : Ty → Option String
  | .struct name | .enum name | .apply name _ => some name
  | _ => none

namespace ModuleTree

variable (t : ModuleTree)

/-- The modules in the order they are flattened in. Source: checker.rs:2831-2865 -/
def scopes : List Scope := visitAll [] "" t.modules

/-- Items of a kind, those at the top level first. -/
def declared (top : List String) (kind : ModuleItems → List Item) : List Declared :=
  top.map (fun name => ⟨[], name⟩) ++
    t.scopes.flatMap fun s => (kind s.decl.items).map fun i => ⟨s.path, s.qualify i.name⟩

/-- The interfaces of the flattened program. Source: checker.rs:3193-3210 -/
def allInterfaces : List Declared := t.declared t.interfaces ModuleItems.interfaces

/-- The types of the flattened program. Source: checker.rs:3165-3192, 3246-3257 -/
def allTypes : List Declared :=
  t.declared t.structs ModuleItems.structs ++ t.declared t.enums ModuleItems.enums ++
    t.declared t.typeAliases ModuleItems.typeAliases

/-- An implementation with its names qualified, re-exported types replaced, and its module
noted; names of types with arguments stay as they are. Source: checker.rs:3211-3230, 3335-3336 -/
def flattenImpl (reExports : ReExports) (path : List String) (home : Option String)
    (qualify : String → String) (imp : ImplDecl) : PlacedImpl where
  path := path
  impl :=
    { interfaceName := qualify imp.interfaceName
      forType := (imp.forType.rewrite qualify).rewrite (qualifyReExport reExports)
      homeModule := home }
  typeName := imp.forType.nominal.map fun name => qualifyReExport reExports (qualify name)

/-- The implementations of the flattened program. Source: checker.rs:3211-3231 -/
def allImpls (reExports : ReExports) : List PlacedImpl :=
  t.impls.map (flattenImpl reExports [] none id) ++
    t.scopes.flatMap fun s => s.decl.impls.map
      (flattenImpl reExports s.path (some s.modName) s.qualify)

end ModuleTree

/-! ## The orphan rule -/

namespace ImplDecl

/-- Source: checker.rs:4415 -/
def ifaceHome (imp : ImplDecl) : Option String := extractHomeModule imp.interfaceName

/-- Source: checker.rs:4416-4419 -/
def typeHome (imp : ImplDecl) : Option String :=
  match imp.forType with
  | .struct name | .enum name => extractHomeModule name
  | _ => none

/-- Source: checker.rs:4420-4424 -/
def isAllowed (imp : ImplDecl) : Bool :=
  imp.homeModule == imp.ifaceHome
    || imp.homeModule == imp.typeHome
    || (imp.homeModule.isNone && imp.ifaceHome.isNone && imp.typeHome.isNone)
    || (imp.homeModule.isNone && (imp.ifaceHome.isNone || imp.typeHome.isNone))

/-- Where something is, in a message. Source: checker.rs:4426-4437 -/
def location : Option String → String
  | some name => "module `" ++ name ++ "`"
  | none => "top-level"

/-- Source: checker.rs:4413-4447 -/
def orphanDiagnostic (imp : ImplDecl) : Option String :=
  if imp.isAllowed then none
  else some ("orphan impl: `implement " ++ imp.interfaceName ++ " for " ++ imp.forType.display ++
    "` declared in " ++ location imp.homeModule ++ " but the interface lives in " ++
    location imp.ifaceHome ++ " and the type lives in " ++ location imp.typeHome ++
    ". Move the impl into one of those modules.")

end ImplDecl

end Vani.Program
