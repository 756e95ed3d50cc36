import Vani.Program.Generics
import Vani.Analysis.TypeNames
import Mathlib.Tactic.Common

/-!
# Type parameters

What the copy of a generic function does to the types that are written in it, beside what it
should do: replace the parameter wherever it occurs. The two agree when the parameter is not where
the pass does not look, and the type put in its place is the right one.
-/

set_option autoImplicit false

namespace Vani.Analysis

open Vani.Program

/-! ## In types -/

mutual

/-- A type parameter replaced, wherever it occurs. -/
def replaceParam (param : String) (ty : Ty) : Ty → Ty
  | .param n => if n = param then ty else .param n
  | .vec inner => .vec (replaceParam param ty inner)
  | .ref inner => .ref (replaceParam param ty inner)
  | .refMut inner => .refMut (replaceParam param ty inner)
  | .atomic inner => .atomic (replaceParam param ty inner)
  | .mutex inner => .mutex (replaceParam param ty inner)
  | .guard inner => .guard (replaceParam param ty inner)
  | .array element length => .array (replaceParam param ty element) length
  | .channel inner capacity => .channel (replaceParam param ty inner) capacity
  | .tuple elements => .tuple (replaceParams param ty elements)
  | .fnPtr params ret => .fnPtr (replaceParams param ty params) (replaceParam param ty ret)
  | .apply name args => .apply name (replaceParams param ty args)
  | .deque inner => .deque (replaceParam param ty inner)
  | .hashSet inner => .hashSet (replaceParam param ty inner)
  | .hashMap key value => .hashMap (replaceParam param ty key) (replaceParam param ty value)
  | .bTreeSet inner => .bTreeSet (replaceParam param ty inner)
  | .bTreeMap key value => .bTreeMap (replaceParam param ty key) (replaceParam param ty value)
  | .binaryHeap inner => .binaryHeap (replaceParam param ty inner)
  | .bst inner => .bst (replaceParam param ty inner)
  | t => t

def replaceParams (param : String) (ty : Ty) : List Ty → List Ty
  | [] => []
  | t :: ts => replaceParam param ty t :: replaceParams param ty ts

end

mutual

/-- The type parameters in a type. -/
def paramsIn : Ty → List String
  | .param n => [n]
  | .vec t | .ref t | .refMut t | .atomic t | .mutex t | .guard t | .array t _ | .channel t _
  | .deque t | .hashSet t | .bTreeSet t | .binaryHeap t | .bst t => paramsIn t
  | .tuple ts | .apply _ ts => paramsInAll ts
  | .fnPtr ts t => paramsInAll ts ++ paramsIn t
  | .hashMap key value | .bTreeMap key value => paramsIn key ++ paramsIn value
  | _ => []

def paramsInAll : List Ty → List String
  | [] => []
  | t :: ts => paramsIn t ++ paramsInAll ts

end

mutual

/-- The type parameters that the pass finds in a type. -/
def foundParams : Ty → List String
  | .param n => [n]
  | .vec t | .ref t | .refMut t | .atomic t | .mutex t | .guard t | .array t _ | .channel t _ =>
    foundParams t
  | .tuple ts | .apply _ ts => foundParamsAll ts
  | .fnPtr ts t => foundParamsAll ts ++ foundParams t
  | _ => []

def foundParamsAll : List Ty → List String
  | [] => []
  | t :: ts => foundParams t ++ foundParamsAll ts

end

mutual

/-- The type parameters that it does not find, in the collections that came later. -/
def missedParams : Ty → List String
  | .vec t | .ref t | .refMut t | .atomic t | .mutex t | .guard t | .array t _ | .channel t _ =>
    missedParams t
  | .tuple ts | .apply _ ts => missedParamsAll ts
  | .fnPtr ts t => missedParamsAll ts ++ missedParams t
  | .deque t | .hashSet t | .bTreeSet t | .binaryHeap t | .bst t => paramsIn t
  | .hashMap key value | .bTreeMap key value => paramsIn key ++ paramsIn value
  | _ => []

def missedParamsAll : List Ty → List String
  | [] => []
  | t :: ts => missedParams t ++ missedParamsAll ts

end

section

variable {param : String} {ty : Ty}

mutual

/-- Replacing a parameter changes a type in which it occurs. -/
theorem replaceParam_eq_self :
    ∀ s : Ty, replaceParam param ty s = s ↔ (param ∈ paramsIn s → ty = .param param)
  | .param n => by
    by_cases hn : n = param
    · simp [replaceParam, paramsIn, hn]
    · simp [replaceParam, paramsIn, hn, Ne.symm hn]
  | .vec s | .ref s | .refMut s | .atomic s | .mutex s | .guard s | .array s _ | .channel s _
  | .deque s | .hashSet s | .bTreeSet s | .binaryHeap s | .bst s => by
    simp [replaceParam, paramsIn, replaceParam_eq_self s]
  | .tuple ss | .apply _ ss => by
    simp [replaceParam, paramsIn, replaceParams_eq_self ss]
  | .fnPtr ss s => by
    simp [replaceParam, paramsIn, replaceParams_eq_self ss, replaceParam_eq_self s, or_imp]
  | .hashMap k s | .bTreeMap k s => by
    simp [replaceParam, paramsIn, replaceParam_eq_self k, replaceParam_eq_self s, or_imp]
  | .int _ | .float _ | .bool | .str | .ownedStr | .struct _ | .enum _ | .task | .object _
  | .condvar | .unionFind | .bloomFilter | .graph | .trie | .skipList => by
    simp [replaceParam, paramsIn]

theorem replaceParams_eq_self :
    ∀ ss : List Ty, replaceParams param ty ss = ss ↔ (param ∈ paramsInAll ss → ty = .param param)
  | [] => by simp [replaceParams, paramsInAll]
  | s :: ss => by
    simp [replaceParams, paramsInAll, replaceParam_eq_self s, replaceParams_eq_self ss, or_imp]

end

variable {concrete : Ty}

mutual

/-- What the pass does to a type is right when it puts in the right type, or finds no parameter,
and misses none. -/
theorem substituteTypeParam_eq_iff :
    ∀ s : Ty, substituteTypeParam param concrete s = replaceParam param ty s ↔
      (param ∈ foundParams s → concrete = ty) ∧ (param ∈ missedParams s → ty = .param param)
  | .param n => by
    by_cases hn : n = param
    · simp [substituteTypeParam, replaceParam, foundParams, missedParams, hn]
    · simp [substituteTypeParam, replaceParam, foundParams, missedParams, hn, Ne.symm hn]
  | .vec s | .ref s | .refMut s | .atomic s | .mutex s | .guard s | .array s _ | .channel s _ => by
    simp [substituteTypeParam, replaceParam, foundParams, missedParams,
      substituteTypeParam_eq_iff s]
  | .tuple ss | .apply _ ss => by
    simp [substituteTypeParam, replaceParam, foundParams, missedParams,
      substituteTypeParams_eq_iff ss]
  | .fnPtr ss s => by
    simp [substituteTypeParam, replaceParam, foundParams, missedParams,
      substituteTypeParams_eq_iff ss, substituteTypeParam_eq_iff s, or_imp, and_and_and_comm]
  | .deque s | .hashSet s | .bTreeSet s | .binaryHeap s | .bst s => by
    rw [eq_comm]
    simp [substituteTypeParam, replaceParam, foundParams, missedParams, replaceParam_eq_self]
  | .hashMap k s | .bTreeMap k s => by
    rw [eq_comm]
    simp [substituteTypeParam, replaceParam, foundParams, missedParams, replaceParam_eq_self,
      or_imp]
  | .int _ | .float _ | .bool | .str | .ownedStr | .struct _ | .enum _ | .task | .object _
  | .condvar | .unionFind | .bloomFilter | .graph | .trie | .skipList => by
    simp [substituteTypeParam, replaceParam, foundParams, missedParams]

theorem substituteTypeParams_eq_iff :
    ∀ ss : List Ty, substituteTypeParams param concrete ss = replaceParams param ty ss ↔
      (param ∈ foundParamsAll ss → concrete = ty) ∧
        (param ∈ missedParamsAll ss → ty = .param param)
  | [] => by
    simp [substituteTypeParams, replaceParams, foundParamsAll, missedParamsAll]
  | s :: ss => by
    simp [substituteTypeParams, replaceParams, foundParamsAll, missedParamsAll,
      substituteTypeParam_eq_iff s, substituteTypeParams_eq_iff ss, or_imp, and_and_and_comm]

end

end

/-! ## In functions -/

/-- A type in a function, and whether the pass comes to it. -/
abbrev WrittenType := Ty × Bool

/-- Types that the pass does not come to. -/
def untouched (ts : List Ty) : List WrittenType := ts.map fun t => (t, false)

mutual

/-- The types written in a statement. -/
def writtenInStmt : Stmt → List WrittenType
  | .let_ _ ann e | .letTuple _ ann e =>
    ann.toList.map (fun t => (t, true)) ++ untouched (typesInExpr e)
  | .if_ c th el => untouched (typesInExpr c) ++ (writtenInStmts th ++ writtenInStmts el)
  | .while_ c invariants body =>
    untouched (typesInExpr c) ++ (untouched (typesInExprs invariants) ++ writtenInStmts body)
  | s => untouched (typesInStmt s)

def writtenInStmts : List Stmt → List WrittenType
  | [] => []
  | s :: ss => writtenInStmt s ++ writtenInStmts ss

end

/-- The types in a function: in its signature, its body and its contract. -/
def typesInFunction (f : Function) : List Ty := codeTypes f ++ contractTypes f

/-- The types written in a function. -/
def writtenIn (f : Function) : List WrittenType :=
  (f.returnType, true) :: (f.params.map (fun p => (p.ty, true)) ++ writtenInStmts f.body) ++
    untouched (contractTypes f)

/-- What becomes of a written type in a copy. -/
def copied (param : String) (concrete : Ty) (t : WrittenType) : Ty :=
  if t.2 then substituteTypeParam param concrete t.1 else t.1

@[simp] theorem map_fst_untouched (ts : List Ty) : (untouched ts).map Prod.fst = ts := by
  simp [untouched, Function.comp_def]

@[simp] theorem map_copied_untouched (param : String) (concrete : Ty) (ts : List Ty) :
    (untouched ts).map (copied param concrete) = ts := by
  simp [untouched, copied, Function.comp_def]

mutual

theorem typesInStmt_written : ∀ s : Stmt, typesInStmt s = (writtenInStmt s).map Prod.fst
  | .let_ _ ann e | .letTuple _ ann e => by
    cases ann <;> simp [typesInStmt, writtenInStmt]
  | .if_ c th el => by
    simp [typesInStmt, writtenInStmt, typesInStmts_written th, typesInStmts_written el]
  | .while_ c invariants body => by
    simp [typesInStmt, writtenInStmt, typesInStmts_written body]
  | .return_ _ | .assert _ _ | .prove _ | .print _ | .assign _ _ | .break_ | .continue_
  | .indexAssign _ _ _ _ | .fieldAssign _ _ _ | .for_ _ _ _ _ _ _ _ | .forIter _ _ _ _
  | .taskSpawn _ _ | .taskJoin _ => by
    simp [writtenInStmt]

theorem typesInStmts_written : ∀ ss : List Stmt, typesInStmts ss = (writtenInStmts ss).map Prod.fst
  | [] => by simp [typesInStmts, writtenInStmts]
  | s :: ss => by
    simp [typesInStmts, writtenInStmts, typesInStmt_written s, typesInStmts_written ss]

end

section

variable (param : String) (concrete : Ty)

mutual

theorem typesInStmt_substitute : ∀ s : Stmt,
    typesInStmt (substituteTypeParamInStmt param concrete s) =
      (writtenInStmt s).map (copied param concrete)
  | .let_ _ ann e | .letTuple _ ann e => by
    cases ann <;> simp [typesInStmt, substituteTypeParamInStmt, writtenInStmt, copied]
  | .if_ c th el => by
    simp [typesInStmt, substituteTypeParamInStmt, writtenInStmt, typesInStmts_substitute th,
      typesInStmts_substitute el]
  | .while_ c invariants body => by
    simp [typesInStmt, substituteTypeParamInStmt, writtenInStmt, typesInStmts_substitute body]
  | .return_ _ | .assert _ _ | .prove _ | .print _ | .assign _ _ | .break_ | .continue_
  | .indexAssign _ _ _ _ | .fieldAssign _ _ _ | .for_ _ _ _ _ _ _ _ | .forIter _ _ _ _
  | .taskSpawn _ _ | .taskJoin _ => by
    simp [substituteTypeParamInStmt, writtenInStmt]

theorem typesInStmts_substitute : ∀ ss : List Stmt,
    typesInStmts (substituteTypeParamInStmts param concrete ss) =
      (writtenInStmts ss).map (copied param concrete)
  | [] => by simp [substituteTypeParamInStmts, typesInStmts, writtenInStmts]
  | s :: ss => by
    simp [substituteTypeParamInStmts, typesInStmts, writtenInStmts, typesInStmt_substitute s,
      typesInStmts_substitute ss]

end

end

theorem typesInFunction_written (f : Function) :
    typesInFunction f = (writtenIn f).map Prod.fst := by
  simp [typesInFunction, codeTypes, writtenIn, typesInStmts_written, Function.comp_def]

/-- The types in the copy of a function. -/
theorem typesInFunction_specialise (f : GenericFunction) (param : String) (concrete : Ty) :
    typesInFunction (specialise f param concrete).toFunction =
      (writtenIn f.toFunction).map (copied param concrete) := by
  simp [typesInFunction, codeTypes, contractTypes, writtenIn, specialise, copied,
    typesInStmts_substitute, Function.comp_def]

/-- A written type becomes what it should. -/
def CopiedRight (param : String) (concrete ty : Ty) (t : WrittenType) : Prop :=
  (t.2 = true → param ∈ foundParams t.1 → concrete = ty) ∧
    (t.2 = true → param ∈ missedParams t.1 → ty = .param param) ∧
      (t.2 = false → param ∈ paramsIn t.1 → ty = .param param)

/-- The types in the copy are those of the function with the parameter replaced everywhere exactly
if every written type becomes what it should. -/
theorem typesInFunction_specialise_iff (f : GenericFunction) (param : String) (concrete ty : Ty) :
    typesInFunction (specialise f param concrete).toFunction =
        (typesInFunction f.toFunction).map (replaceParam param ty) ↔
      ∀ t ∈ writtenIn f.toFunction, CopiedRight param concrete ty t := by
  rw [typesInFunction_specialise, typesInFunction_written, List.map_map, List.map_inj_left]
  apply forall₂_congr
  rintro ⟨t, visited⟩ -
  cases visited with
  | true => simp [copied, CopiedRight, substituteTypeParam_eq_iff]
  | false =>
    rw [eq_comm]
    simp [copied, CopiedRight, replaceParam_eq_self]

end Vani.Analysis
