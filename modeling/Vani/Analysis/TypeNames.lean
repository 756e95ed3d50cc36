import Vani.Analysis.AliasExpansion

/-!
# Types after their names are resolved

Both passes reach every type in the statements of a function, and leave out whole declarations:
the aliases stay in implementations, and nothing is resolved in contracts, enums, interfaces and
the values of constants. So the types of a program all become what they denote exactly when what
is left out, and what is hidden in a type, names no alias and no enum.
-/

set_option autoImplicit false

namespace Vani.Analysis

open Vani.Program Vani.Library Relation

/-! ## The types of a program -/

mutual

/-- The types in an expression. -/
def typesInExpr : Expr → List Ty
  | .unary _ e | .len e | .ref e | .refMut e | .tupleAccess e _ | .fieldAccess e _ | .try_ e =>
    typesInExpr e
  | .binary _ l r | .index l r => typesInExpr l ++ typesInExpr r
  | .call _ args | .arrayLit args | .tuple args => typesInExprs args
  | .methodCall receiver _ args => typesInExpr receiver ++ typesInExprs args
  | .cast e ty => ty :: typesInExpr e
  | .structLit _ fields => typesInFields fields
  | .match_ scrutinee arms => typesInExpr scrutinee ++ typesInArms arms
  | .ifExpr c t e => typesInExpr c ++ (typesInExpr t ++ typesInExpr e)
  | .block stmts tail => typesInStmts stmts ++ typesInExpr tail
  | .anonFn params ret body => params.map Param.ty ++ ret :: typesInStmts body
  | .int _ | .float _ | .bool _ | .str _ | .var _ => []

def typesInExprs : List Expr → List Ty
  | [] => []
  | e :: es => typesInExpr e ++ typesInExprs es

def typesInFields : List (String × Expr) → List Ty
  | [] => []
  | (_, e) :: fields => typesInExpr e ++ typesInFields fields

def typesInArms : List (Pattern × Expr) → List Ty
  | [] => []
  | (_, e) :: arms => typesInExpr e ++ typesInArms arms

def typesInItems : List PrintItem → List Ty
  | [] => []
  | .expr e :: items => typesInExpr e ++ typesInItems items
  | .str _ :: items => typesInItems items

/-- The types in a statement. -/
def typesInStmt : Stmt → List Ty
  | .let_ _ ann e | .letTuple _ ann e => ann.toList ++ typesInExpr e
  | .return_ e | .assert e _ | .prove e | .assign _ e => typesInExpr e
  | .print items => typesInItems items
  | .if_ c th el => typesInExpr c ++ (typesInStmts th ++ typesInStmts el)
  | .while_ c invariants body => typesInExpr c ++ (typesInExprs invariants ++ typesInStmts body)
  | .indexAssign _ index _ value => typesInExpr index ++ typesInExpr value
  | .fieldAssign object _ value => typesInExpr object ++ typesInExpr value
  | .for_ _ start end_ invariants body _ _ =>
    typesInExpr start ++ (typesInExpr end_ ++ (typesInExprs invariants ++ typesInStmts body))
  | .forIter _ _ _ body | .taskSpawn _ body => typesInStmts body
  | .break_ | .continue_ | .taskJoin _ => []

def typesInStmts : List Stmt → List Ty
  | [] => []
  | s :: ss => typesInStmt s ++ typesInStmts ss

end

/-- The types in the signature and the body of a function. -/
def codeTypes (f : Function) : List Ty :=
  f.returnType :: (f.params.map Param.ty ++ typesInStmts f.body)

/-- The types in the contract of a function. -/
def contractTypes (f : Function) : List Ty := typesInExprs f.requires ++ typesInExprs f.ensures

/-- The types of functions, structs, constants and methods. -/
def declaredTypes (p : SourceProgram) : List Ty :=
  p.functions.flatMap codeTypes ++ p.structs.flatMap (fun s => s.fields.map Prod.snd) ++
    p.consts.map ConstDecl.ty ++
      p.methodsBlocks.flatMap fun b => b.forType :: b.methods.flatMap codeTypes

/-- The types of implementations. -/
def implTypes (p : SourceProgram) : List Ty :=
  p.impls.flatMap fun i => i.forType :: i.methods.flatMap codeTypes

/-- The types of contracts, enums, interfaces and values of constants. -/
def otherTypes (p : SourceProgram) : List Ty :=
  p.functions.flatMap contractTypes ++
    p.methodsBlocks.flatMap (fun b => b.methods.flatMap contractTypes) ++
    p.impls.flatMap (fun i => i.methods.flatMap contractTypes) ++
    p.enums.flatMap (fun e => e.variants.flatMap EnumVariant.payload) ++
    p.interfaces.flatMap (fun i => i.methods.flatMap fun m => m.returnType :: m.params.map Param.ty) ++
    p.consts.flatMap fun c => typesInExpr c.value

/-- Every type of a program, but for the targets of its aliases. -/
def allTypesOf (p : SourceProgram) : List Ty := declaredTypes p ++ implTypes p ++ otherTypes p

/-! ## The walk through statements -/

mutual

theorem typesInExpr_mapTypes (f : Ty → Ty) :
    ∀ e : Expr, typesInExpr (e.mapTypes f) = (typesInExpr e).map f
  | .unary _ e | .len e | .ref e | .refMut e | .tupleAccess e _ | .fieldAccess e _ | .try_ e => by
    simp only [Expr.mapTypes, typesInExpr, typesInExpr_mapTypes f e]
  | .binary _ l r | .index l r => by
    simp only [Expr.mapTypes, typesInExpr, typesInExpr_mapTypes f l, typesInExpr_mapTypes f r,
      List.map_append]
  | .call _ args | .arrayLit args | .tuple args => by
    simp only [Expr.mapTypes, typesInExpr, typesInExprs_mapTypes f args]
  | .methodCall receiver _ args => by
    simp only [Expr.mapTypes, typesInExpr, typesInExpr_mapTypes f receiver,
      typesInExprs_mapTypes f args, List.map_append]
  | .cast e _ => by
    simp only [Expr.mapTypes, typesInExpr, typesInExpr_mapTypes f e, List.map_cons]
  | .structLit _ fields => by
    simp only [Expr.mapTypes, typesInExpr, typesInFields_mapTypes f fields]
  | .match_ scrutinee arms => by
    simp only [Expr.mapTypes, typesInExpr, typesInExpr_mapTypes f scrutinee,
      typesInArms_mapTypes f arms, List.map_append]
  | .ifExpr c t e => by
    simp only [Expr.mapTypes, typesInExpr, typesInExpr_mapTypes f c, typesInExpr_mapTypes f t,
      typesInExpr_mapTypes f e, List.map_append]
  | .block stmts tail => by
    simp only [Expr.mapTypes, typesInExpr, typesInStmts_mapTypes f stmts,
      typesInExpr_mapTypes f tail, List.map_append]
  | .anonFn params ret body => by
    simp only [Expr.mapTypes, typesInExpr, typesInStmts_mapTypes f body, List.map_append,
      List.map_cons, List.map_map, Function.comp_def]
  | .int _ | .float _ | .bool _ | .str _ | .var _ => by
    simp only [Expr.mapTypes, typesInExpr, List.map_nil]

theorem typesInExprs_mapTypes (f : Ty → Ty) :
    ∀ es : List Expr, typesInExprs (mapTypesInExprs f es) = (typesInExprs es).map f
  | [] => by simp only [mapTypesInExprs, typesInExprs, List.map_nil]
  | e :: es => by
    simp only [mapTypesInExprs, typesInExprs, typesInExpr_mapTypes f e,
      typesInExprs_mapTypes f es, List.map_append]

theorem typesInFields_mapTypes (f : Ty → Ty) : ∀ fields : List (String × Expr),
    typesInFields (mapTypesInFields f fields) = (typesInFields fields).map f
  | [] => by simp only [mapTypesInFields, typesInFields, List.map_nil]
  | (_, e) :: fields => by
    simp only [mapTypesInFields, typesInFields, typesInExpr_mapTypes f e,
      typesInFields_mapTypes f fields, List.map_append]

theorem typesInArms_mapTypes (f : Ty → Ty) : ∀ arms : List (Pattern × Expr),
    typesInArms (mapTypesInArms f arms) = (typesInArms arms).map f
  | [] => by simp only [mapTypesInArms, typesInArms, List.map_nil]
  | (_, e) :: arms => by
    simp only [mapTypesInArms, typesInArms, typesInExpr_mapTypes f e,
      typesInArms_mapTypes f arms, List.map_append]

theorem typesInItems_mapTypes (f : Ty → Ty) : ∀ items : List PrintItem,
    typesInItems (mapTypesInItems f items) = (typesInItems items).map f
  | [] => by simp only [mapTypesInItems, typesInItems, List.map_nil]
  | .expr e :: items => by
    simp only [mapTypesInItems, typesInItems, typesInExpr_mapTypes f e,
      typesInItems_mapTypes f items, List.map_append]
  | .str _ :: items => by
    simp only [mapTypesInItems, typesInItems, typesInItems_mapTypes f items]

theorem typesInStmt_mapTypes (f : Ty → Ty) :
    ∀ s : Stmt, typesInStmt (s.mapTypes f) = (typesInStmt s).map f
  | .let_ _ ann e | .letTuple _ ann e => by
    cases ann <;> simp [Stmt.mapTypes, typesInStmt, typesInExpr_mapTypes f e]
  | .return_ e | .assert e _ | .prove e | .assign _ e => by
    simp only [Stmt.mapTypes, typesInStmt, typesInExpr_mapTypes f e]
  | .print items => by
    simp only [Stmt.mapTypes, typesInStmt, typesInItems_mapTypes f items]
  | .if_ c th el => by
    simp only [Stmt.mapTypes, typesInStmt, typesInExpr_mapTypes f c, typesInStmts_mapTypes f th,
      typesInStmts_mapTypes f el, List.map_append]
  | .while_ c invariants body => by
    simp only [Stmt.mapTypes, typesInStmt, typesInExpr_mapTypes f c,
      typesInExprs_mapTypes f invariants, typesInStmts_mapTypes f body, List.map_append]
  | .indexAssign _ index _ value => by
    simp only [Stmt.mapTypes, typesInStmt, typesInExpr_mapTypes f index,
      typesInExpr_mapTypes f value, List.map_append]
  | .fieldAssign object _ value => by
    simp only [Stmt.mapTypes, typesInStmt, typesInExpr_mapTypes f object,
      typesInExpr_mapTypes f value, List.map_append]
  | .for_ _ start end_ invariants body _ _ => by
    simp only [Stmt.mapTypes, typesInStmt, typesInExpr_mapTypes f start,
      typesInExpr_mapTypes f end_, typesInExprs_mapTypes f invariants,
      typesInStmts_mapTypes f body, List.map_append]
  | .forIter _ _ _ body | .taskSpawn _ body => by
    simp only [Stmt.mapTypes, typesInStmt, typesInStmts_mapTypes f body]
  | .break_ | .continue_ | .taskJoin _ => by
    simp only [Stmt.mapTypes, typesInStmt, List.map_nil]

theorem typesInStmts_mapTypes (f : Ty → Ty) :
    ∀ ss : List Stmt, typesInStmts (mapTypesInStmts f ss) = (typesInStmts ss).map f
  | [] => by simp only [mapTypesInStmts, typesInStmts, List.map_nil]
  | s :: ss => by
    simp only [mapTypesInStmts, typesInStmts, typesInStmt_mapTypes f s,
      typesInStmts_mapTypes f ss, List.map_append]

end

theorem codeTypes_mapTypes (f : Ty → Ty) (fn : Function) :
    codeTypes (fn.mapTypes f) = (codeTypes fn).map f := by
  simp only [codeTypes, Function.mapTypes, typesInStmts_mapTypes, List.map_cons, List.map_append,
    List.map_map, Function.comp_def]

/-- The passes leave contracts alone. -/
theorem contractTypes_mapTypes (f : Ty → Ty) (fn : Function) :
    contractTypes (fn.mapTypes f) = contractTypes fn := rfl

/-! ## The passes on a program -/

attribute [local simp] declaredTypes otherTypes implTypes allTypesOf MethodsBlock.mapTypes Implementation.mapTypes StructDecl.mapTypes

theorem methodTypes_map (f : Ty → Ty) (methods : List Function) :
    (methods.map (Function.mapTypes f)).flatMap codeTypes = (methods.flatMap codeTypes).map f := by
  simp only [List.flatMap_map, List.map_flatMap, codeTypes_mapTypes]

theorem structTypes_map (f : Ty → Ty) (structs : List StructDecl) :
    (structs.map (StructDecl.mapTypes f)).flatMap (fun s => s.fields.map Prod.snd) =
      (structs.flatMap fun s => s.fields.map Prod.snd).map f := by
  simp only [List.flatMap_map, List.map_flatMap, StructDecl.mapTypes, List.map_map,
    Function.comp_def]

theorem blockTypes_map (f : Ty → Ty) (blocks : List MethodsBlock) :
    (blocks.map (MethodsBlock.mapTypes f)).flatMap (fun b =>
        b.forType :: b.methods.flatMap codeTypes) =
      (blocks.flatMap fun b => b.forType :: b.methods.flatMap codeTypes).map f := by
  simp only [List.flatMap_map, List.map_flatMap, MethodsBlock.mapTypes, List.map_cons,
    codeTypes_mapTypes]

theorem implTypes_map (f : Ty → Ty) (impls : List Implementation) :
    (impls.map (Implementation.mapTypes f)).flatMap (fun i =>
        i.forType :: i.methods.flatMap codeTypes) =
      (impls.flatMap fun i => i.forType :: i.methods.flatMap codeTypes).map f := by
  simp only [List.flatMap_map, List.map_flatMap, Implementation.mapTypes, List.map_cons,
    codeTypes_mapTypes]

theorem declaredTypes_resolveEnum (p : SourceProgram) :
    declaredTypes p.resolveEnumTypesInProgram =
      (declaredTypes p).map (resolveEnumTypesInType p.enumNames) := by
  simp only [declaredTypes, SourceProgram.resolveEnumTypesInProgram, methodTypes_map,
    structTypes_map, blockTypes_map, List.map_append, List.map_map, Function.comp_def]

theorem implTypes_resolveEnum (p : SourceProgram) :
    implTypes p.resolveEnumTypesInProgram =
      (implTypes p).map (resolveEnumTypesInType p.enumNames) :=
  implTypes_map _ _

theorem otherTypes_resolveEnum (p : SourceProgram) :
    otherTypes p.resolveEnumTypesInProgram = otherTypes p := by
  simp only [otherTypes, SourceProgram.resolveEnumTypesInProgram, List.flatMap_map,
    MethodsBlock.mapTypes, Implementation.mapTypes, contractTypes_mapTypes]

theorem declaredTypes_substitute (r : ResolvedAliases) (p : SourceProgram) :
    declaredTypes (p.substituteAliasesInProgram r) =
      (declaredTypes p).map (subAliasesInType r) := by
  simp only [declaredTypes, SourceProgram.substituteAliasesInProgram, methodTypes_map,
    structTypes_map, blockTypes_map, List.map_append, List.map_map, Function.comp_def]

theorem otherTypes_substitute (r : ResolvedAliases) (p : SourceProgram) :
    otherTypes (p.substituteAliasesInProgram r) = otherTypes p := by
  simp only [otherTypes, SourceProgram.substituteAliasesInProgram, List.flatMap_map,
    MethodsBlock.mapTypes, contractTypes_mapTypes]

/-- Without aliases there is nothing to substitute. -/
theorem subAliasesInType_nil (t : Ty) : subAliasesInType [] t = t := by
  unfold subAliasesInType
  have heverywhere : everywhere .struct t = t := (everywhere_eq_self_iff t).2 fun _ _ => rfl
  conv_rhs => rw [← heverywhere]
  apply (walk_eq_everywhere_iff t).2
  exact ⟨fun _ _ => rfl, fun _ _ => rfl⟩

/-- What the passes make of a program, once the aliases are resolved. -/
theorem allTypesOf_resolved {p q : SourceProgram} {r : ResolvedAliases}
    (hr : p.resolveEnumTypesInProgram.resolveTypeAliases = .ok r)
    (h : p.resolveTypeNames = .ok q) :
    allTypesOf q =
      (declaredTypes p).map
          (fun t => subAliasesInType r (resolveEnumTypesInType p.enumNames t)) ++
        (implTypes p).map (resolveEnumTypesInType p.enumNames) ++ otherTypes p := by
  simp only [SourceProgram.resolveTypeNames, hr, Except.map] at h
  split at h
  · rename_i hempty
    cases h
    rw [List.isEmpty_iff.1 hempty]
    simp only [allTypesOf, declaredTypes_resolveEnum, implTypes_resolveEnum, otherTypes_resolveEnum,
      subAliasesInType_nil]
  · cases h
    have himpl : implTypes (p.resolveEnumTypesInProgram.substituteAliasesInProgram r) =
        implTypes p.resolveEnumTypesInProgram := rfl
    simp only [allTypesOf, declaredTypes_substitute, declaredTypes_resolveEnum, himpl,
      implTypes_resolveEnum, otherTypes_substitute, otherTypes_resolveEnum, List.map_map,
      Function.comp_def]

/-! ## Aliases of a program -/

/-- The names of aliases are distinct from each other and from those of structs and enums. -/
structure DistinctNames (p : SourceProgram) : Prop where
  nodup : p.aliasNames.Nodup
  structs : ∀ n ∈ p.aliasNames, n ∉ p.structNames
  enums : ∀ n ∈ p.aliasNames, n ∉ p.enumNames

theorem mem_aliasNames_iff {p : SourceProgram} {n : String} :
    n ∈ p.aliasNames ↔ (p.target n).isSome := by
  simp [SourceProgram.aliasNames, SourceProgram.target, List.find?_isSome]

theorem target_resolveEnum (p : SourceProgram) (n : String) :
    p.resolveEnumTypesInProgram.target n =
      (p.target n).map (resolveEnumTypesInType p.enumNames) := by
  simp only [SourceProgram.target, SourceProgram.resolveEnumTypesInProgram, List.find?_map,
    Option.map_map, Function.comp_def]

theorem aliasNames_resolveEnum (p : SourceProgram) :
    p.resolveEnumTypesInProgram.aliasNames = p.aliasNames := by
  simp [SourceProgram.aliasNames, SourceProgram.resolveEnumTypesInProgram]

theorem structNames_resolveEnum (p : SourceProgram) :
    p.resolveEnumTypesInProgram.structNames = p.structNames := by
  simp [SourceProgram.structNames, SourceProgram.resolveEnumTypesInProgram, StructDecl.mapTypes]

/-- Names that are distinct do not collide. -/
theorem aliasCollision_none {structs enums : List String} : ∀ {names seen : List String},
    names.Nodup → (∀ n ∈ names, n ∉ seen ∧ n ∉ structs ∧ n ∉ enums) →
      aliasCollision structs enums seen names = none
  | [], _, _, _ => rfl
  | n :: names, seen, hnodup, h => by
    obtain ⟨hseen, hstructs, henums⟩ := h n List.mem_cons_self
    rw [aliasCollision, if_neg hseen, if_neg hstructs, if_neg henums]
    apply aliasCollision_none (List.nodup_cons.1 hnodup).2
    intro m hm
    obtain ⟨hseen', hrest⟩ := h m (List.mem_cons_of_mem _ hm)
    refine ⟨?_, hrest⟩
    intro hmem
    rcases List.mem_cons.1 hmem with rfl | hmem
    · exact (List.nodup_cons.1 hnodup).1 hm
    · exact hseen' hmem

variable {p : SourceProgram}

/-- An alias is never an enum, so turning the names of enums into enums hides none. -/
theorem seesAlias_resolveEnum (h : DistinctNames p) {a b : String} :
    SeesAlias p.resolveEnumTypesInProgram.target a b ↔ SeesAlias p.target a b := by
  have hsome : ∀ n, (p.resolveEnumTypesInProgram.target n).isSome = (p.target n).isSome := by
    intro n
    rw [target_resolveEnum, Option.isSome_map]
  have hwalked : ∀ t, (p.target b).isSome →
      (b ∈ walkedIn (resolveEnumTypesInType p.enumNames t) ↔ b ∈ walkedIn t) := by
    intro t hb
    have henum : b ∉ p.enumNames := h.enums b (mem_aliasNames_iff.2 hb)
    rw [resolveEnumTypesInType, mem_walkedIn_walk]
    constructor
    · rintro ⟨m, hm, hbm⟩
      split at hbm
      · simp [walkedIn] at hbm
      · rw [List.mem_singleton.1 hbm]
        exact hm
    · intro hb
      refine ⟨b, hb, ?_⟩
      simp [henum, walkedIn]
  constructor
  · rintro ⟨t, ht, hb, hT⟩
    rw [target_resolveEnum, Option.map_eq_some_iff] at ht
    obtain ⟨u, hu, rfl⟩ := ht
    rw [hsome] at hT
    exact ⟨u, hu, (hwalked u hT).1 hb, hT⟩
  · rintro ⟨t, ht, hb, hT⟩
    refine ⟨resolveEnumTypesInType p.enumNames t, ?_, (hwalked t hT).2 hb, ?_⟩
    · rw [target_resolveEnum, ht]
      rfl
    · rw [hsome]
      exact hT

theorem cyclic_resolveEnum (h : DistinctNames p) :
    Cyclic (SeesAlias p.resolveEnumTypesInProgram.target) ↔ Cyclic (SeesAlias p.target) :=
  ⟨Cyclic.mono fun _ _ hab => (seesAlias_resolveEnum h).1 hab,
    Cyclic.mono fun _ _ hab => (seesAlias_resolveEnum h).2 hab⟩

/-- The search finds a type for every alias, or a cycle. -/
theorem resolveTypeAliases_cases (h : DistinctNames p) :
    (∃ r, p.resolveEnumTypesInProgram.resolveTypeAliases = .ok r ∧
      SoundAliases p.resolveEnumTypesInProgram.target r ∧
        ∀ n, (p.target n).isSome → (r.lookup n).isSome) ∨
    (∃ m, p.resolveEnumTypesInProgram.resolveTypeAliases = .error (.recursive m)) ∧
      Cyclic (SeesAlias p.target) := by
  have hnone : aliasCollision p.resolveEnumTypesInProgram.structNames
      p.resolveEnumTypesInProgram.enumNames [] p.resolveEnumTypesInProgram.aliasNames = none := by
    rw [aliasNames_resolveEnum, structNames_resolveEnum]
    exact aliasCollision_none h.nodup fun n hn => ⟨by simp, h.structs n hn, h.enums n hn⟩
  have hlen : p.resolveEnumTypesInProgram.typeAliases.length =
      p.resolveEnumTypesInProgram.aliasNames.length := (List.length_map _).symm
  simp only [SourceProgram.resolveTypeAliases, hnone, hlen]
  have hall : ∀ n, (p.resolveEnumTypesInProgram.target n).isSome →
      n ∈ p.resolveEnumTypesInProgram.aliasNames := fun n hn => mem_aliasNames_iff.2 hn
  cases hrun : (p.resolveEnumTypesInProgram.aliasNames.mergeSort
      fun m n => decide (m ≤ n)).foldlM (fun r name => resolveAliasChain
        p.resolveEnumTypesInProgram.target
        (p.resolveEnumTypesInProgram.aliasNames.length + 1) [] name r) [] with
  | ok r =>
    left
    obtain ⟨hsound, -, hresolved⟩ := resolveAll_ok _ hrun soundAliases_nil
    refine ⟨r, rfl, hsound, ?_⟩
    intro n hn
    have hn' : (p.resolveEnumTypesInProgram.target n).isSome := by
      rw [target_resolveEnum, Option.isSome_map]
      exact hn
    exact hresolved n (List.mem_mergeSort.2 (hall n hn')) hn'
  | error e =>
    right
    obtain ⟨⟨m, rfl⟩, hcyclic⟩ := resolveAll_error hall _
      (fun n hn => mem_aliasNames_iff.1 (List.mem_mergeSort.1 hn)) hrun
    exact ⟨⟨m, rfl⟩, (cyclic_resolveEnum h).1 hcyclic⟩

/-- What a name is replaced by in the two passes. -/
def replacement (p : SourceProgram) (r : ResolvedAliases) (n : String) : Ty :=
  subAliasesInType r (resolveEnumTypesInType p.enumNames (.struct n))

theorem both_passes_eq (p : SourceProgram) (r : ResolvedAliases) (t : Ty) :
    subAliasesInType r (resolveEnumTypesInType p.enumNames t) = t.walk (replacement p r) := by
  have hreplace : replacement p r = fun n =>
      (if p.enumNames.contains n then Ty.enum n else .struct n).walk fun m =>
        (r.lookup m).getD (.struct m) := by
    funext n
    simp only [replacement, subAliasesInType, resolveEnumTypesInType, Ty.walk]
  rw [hreplace, subAliasesInType, resolveEnumTypesInType, walk_walk]

theorem isReplacement (h : DistinctNames p) {r : ResolvedAliases}
    (hr : SoundAliases p.resolveEnumTypesInProgram.target r)
    (hall : ∀ n, (p.target n).isSome → (r.lookup n).isSome) :
    IsReplacement p.target p.enumNames (replacement p r) := by
  have hstruct : ∀ n, n ∉ p.enumNames → replacement p r n = look r n := by
    intro n hn
    simp [replacement, resolveEnumTypesInType, subAliasesInType, Ty.walk, hn, look]
  refine ⟨?_, ?_, ?_⟩
  · intro n t ht
    have hn : (p.target n).isSome := by simp [ht]
    obtain ⟨u, hu⟩ := Option.isSome_iff_exists.1 (hall n hn)
    obtain ⟨s, hs, hus, -⟩ := hr.entries n u hu
    rw [target_resolveEnum, ht] at hs
    cases hs
    rw [hstruct n (h.enums n (mem_aliasNames_iff.2 hn)), look, hu, ← both_passes_eq, hus]
    rfl
  · intro n _ hn
    simp [replacement, resolveEnumTypesInType, subAliasesInType, Ty.walk, hn]
  · intro n hT hn
    rw [hstruct n hn, look, hr.lookup_none n (by rw [target_resolveEnum, hT]; rfl)]
    rfl

/-! ## Every type becomes what it denotes -/

/-- Three parts of a list are mapped exactly when each is. -/
theorem append_map_eq_iff {α : Type} {f g : α → α} {h : α → α} {as bs cs : List α} :
    as.map f ++ bs.map g ++ cs = (as ++ bs ++ cs).map h ↔
      (∀ a ∈ as, f a = h a) ∧ (∀ b ∈ bs, g b = h b) ∧ ∀ c ∈ cs, h c = c := by
  rw [List.map_append, List.map_append]
  constructor
  · intro heq
    obtain ⟨hab, hc⟩ := List.append_inj heq (by simp)
    obtain ⟨ha, hb⟩ := List.append_inj hab (by simp)
    refine ⟨List.map_inj_left.1 ha, List.map_inj_left.1 hb, ?_⟩
    have hid : cs.map id = cs.map h := by
      rw [List.map_id]
      exact hc
    intro c hmem
    exact (List.map_inj_left.1 hid c hmem).symm
  · rintro ⟨ha, hb, hc⟩
    rw [List.map_congr_left ha, List.map_congr_left hb]
    congr 1
    conv_lhs => rw [← List.map_id cs]
    exact List.map_congr_left fun c hmem => (hc c hmem).symm

/-- A recursive alias is reported. -/
def ReportsRecursive (p : SourceProgram) : Prop := ∃ n, p.resolveTypeNames = .error (.recursive n)

/-- A recursive alias is reported exactly when one mentions itself, over others and through
whatever constructors; otherwise every type becomes what it denotes, which names no alias and no
enum as if it were a struct. -/
structure NamesResolved (p : SourceProgram) : Prop where
  reports : ReportsRecursive p ↔ Cyclic (MentionsAlias p.target)
  resolves : ¬Cyclic (MentionsAlias p.target) → ∃ q ξ, p.resolveTypeNames = .ok q ∧
    IsExpansion p.target p.enumNames ξ ∧ allTypesOf q = (allTypesOf p).map (everywhere ξ) ∧
      ∀ t ∈ allTypesOf q, ∀ n ∈ namesIn t, StructName p.target p.enumNames n

/-- Nothing that needs resolving is where the passes do not look: no cycle of aliases goes only
through types they do not enter, and, without a cycle, nothing is hidden in the types of functions,
structs, constants and methods; implementations name no aliases, and contracts, enums, interfaces
and values of constants neither aliases nor enums. -/
structure NothingHidden (p : SourceProgram) : Prop where
  cycles : Cyclic (MentionsAlias p.target) → Cyclic (SeesAlias p.target)
  declared : ¬Cyclic (MentionsAlias p.target) →
    ∀ t ∈ declaredTypes p, OpenType p.target p.enumNames t
  impls : ¬Cyclic (MentionsAlias p.target) → ∀ t ∈ implTypes p,
    (∀ n ∈ walkedIn t, p.target n = none) ∧ ∀ n ∈ hiddenIn t, StructName p.target p.enumNames n
  others : ¬Cyclic (MentionsAlias p.target) → ∀ t ∈ otherTypes p,
    ∀ n ∈ namesIn t, StructName p.target p.enumNames n

theorem wellFounded_mentions (h : ¬Cyclic (MentionsAlias p.target)) :
    WellFounded fun b a => MentionsAlias p.target a b := by
  apply wellFounded_of_not_cyclic (l := p.aliasNames) _ h
  rintro a b ⟨t, ht, -⟩
  rw [mem_aliasNames_iff, ht]
  rfl

/-- The pass on enums alone resolves a type in which no alias is seen and nothing is hidden. -/
theorem enumPass_eq_iff (h : DistinctNames p) {ξ : String → Ty}
    (hwf : WellFounded fun b a => MentionsAlias p.target a b)
    (hξ : IsExpansion p.target p.enumNames ξ) (t : Ty) :
    resolveEnumTypesInType p.enumNames t = everywhere ξ t ↔
      (∀ n ∈ walkedIn t, p.target n = none) ∧
        ∀ n ∈ hiddenIn t, StructName p.target p.enumNames n := by
  have hname : ∀ n, (if p.enumNames.contains n then Ty.enum n else .struct n) = ξ n ↔
      p.target n = none := by
    intro n
    cases hT : p.target n with
    | none =>
      refine iff_of_true ?_ rfl
      by_cases hE : n ∈ p.enumNames
      · rw [hξ.ofEnum n hT hE]
        simp [hE]
      · rw [hξ.ofStruct n hT hE]
        simp [hE]
    | some u =>
      have hE : n ∉ p.enumNames := h.enums n (mem_aliasNames_iff.2 (by simp [hT]))
      refine iff_of_false ?_ (by simp)
      intro heq
      have hstruct : ξ n = .struct n := by
        rw [← heq]
        simp [hE]
      have hnone := ((hξ.eq_struct_iff hwf n).1 hstruct).1
      rw [hT] at hnone
      cases hnone
  rw [resolveEnumTypesInType, walk_eq_everywhere_iff]
  simp only [hname, hξ.eq_struct_iff hwf]

/-- Without a cycle the types all become what they denote exactly when nothing is hidden. -/
theorem allTypesOf_eq_iff (h : DistinctNames p) (hcyclic : ¬Cyclic (MentionsAlias p.target))
    {ξ : String → Ty} (hξ : IsExpansion p.target p.enumNames ξ) {q : SourceProgram}
    (hq : p.resolveTypeNames = .ok q) :
    allTypesOf q = (allTypesOf p).map (everywhere ξ) ↔
      (∀ t ∈ declaredTypes p, OpenType p.target p.enumNames t) ∧
      (∀ t ∈ implTypes p, (∀ n ∈ walkedIn t, p.target n = none) ∧
        ∀ n ∈ hiddenIn t, StructName p.target p.enumNames n) ∧
      ∀ t ∈ otherTypes p, ∀ n ∈ namesIn t, StructName p.target p.enumNames n := by
  have hwf := wellFounded_mentions hcyclic
  rcases resolveTypeAliases_cases h with ⟨r, hr, hsound, hall⟩ | ⟨⟨m, hm⟩, hsees⟩
  · rw [allTypesOf_resolved hr hq]
    simp only [both_passes_eq]
    unfold allTypesOf
    rw [append_map_eq_iff]
    simp only [walk_replacement_iff hwf hξ (isReplacement h hsound hall), enumPass_eq_iff h hwf hξ,
      everywhere_eq_self_iff, hξ.eq_struct_iff hwf]
  · exact absurd (hsees.mono fun _ _ hab => hab.mentions) hcyclic

/-- The passes report exactly the cycles that they see. -/
theorem reportsRecursive_iff (h : DistinctNames p) :
    ReportsRecursive p ↔ Cyclic (SeesAlias p.target) := by
  rcases resolveTypeAliases_cases h with ⟨r, hr, hsound, hall⟩ | ⟨⟨m, hm⟩, hsees⟩
  · refine iff_of_false ?_ ?_
    · rintro ⟨n, hn⟩
      simp [SourceProgram.resolveTypeNames, hr, Except.map] at hn
    · intro hcyclic
      apply hsound.not_cyclic _ ((cyclic_resolveEnum h).2 hcyclic)
      intro n hn
      rw [target_resolveEnum, Option.isSome_map] at hn
      exact hall n hn
  · refine iff_of_true ⟨m, ?_⟩ hsees
    simp [SourceProgram.resolveTypeNames, hm, Except.map]

/-- Type names are resolved exactly in the programs in which nothing is hidden from the passes. -/
theorem names_resolved_iff (p : SourceProgram) (h : DistinctNames p) :
    NamesResolved p ↔ NothingHidden p := by
  have hsees : Cyclic (SeesAlias p.target) → Cyclic (MentionsAlias p.target) :=
    Cyclic.mono fun _ _ hab => hab.mentions
  constructor
  · intro hresolved
    refine ⟨?_, ?_, ?_, ?_⟩
    · intro hcyclic
      exact (reportsRecursive_iff h).1 (hresolved.reports.2 hcyclic)
    all_goals
      intro hcyclic
      obtain ⟨q, ξ, hq, hξ, htypes, -⟩ := hresolved.resolves hcyclic
      obtain ⟨hdeclared, himpls, hothers⟩ := (allTypesOf_eq_iff h hcyclic hξ hq).1 htypes
      assumption
  · intro hhidden
    refine ⟨(reportsRecursive_iff h).trans ⟨hsees, hhidden.cycles⟩, ?_⟩
    intro hcyclic
    have hwf := wellFounded_mentions hcyclic
    obtain ⟨ξ, hξ⟩ := exists_expansion (E := p.enumNames) hwf
    rcases resolveTypeAliases_cases h with ⟨r, hr, hsound, hall⟩ | ⟨-, hc⟩
    · obtain ⟨q, hq⟩ : ∃ q, p.resolveTypeNames = .ok q := by
        simp [SourceProgram.resolveTypeNames, hr, Except.map]
      have htypes := (allTypesOf_eq_iff h hcyclic hξ hq).2
        ⟨hhidden.declared hcyclic, hhidden.impls hcyclic, hhidden.others hcyclic⟩
      refine ⟨q, ξ, hq, hξ, htypes, ?_⟩
      intro t ht n hn
      rw [htypes] at ht
      obtain ⟨s, -, rfl⟩ := List.mem_map.1 ht
      obtain ⟨m, -, hm⟩ := (mem_namesIn_everywhere s).1 hn
      exact hξ.structName hwf m n hm
    · exact absurd (hsees hc) hcyclic

/-- `type Age = i64;` with a function and a method of an implementation. -/
def ageProgram (functions methods : List Function) : SourceProgram where
  functions := functions
  structs := [⟨"Person", []⟩]
  enums := []
  interfaces := []
  impls := [⟨"Older", .struct "Person", methods⟩]
  consts := []
  typeAliases := [⟨"Age", .int .i64⟩]
  methodsBlocks := []

/-- `fn older(age: Age) -> Age { return age; }` -/
def older : Function :=
  ⟨"older", [⟨"age", .struct "Age"⟩], .struct "Age", [], [], [.return_ (.var "age")], false⟩

theorem ageProgram_distinct (functions methods : List Function) :
    DistinctNames (ageProgram functions methods) := by
  refine ⟨?_, ?_, ?_⟩ <;>
    simp [SourceProgram.aliasNames, SourceProgram.structNames, SourceProgram.enumNames, ageProgram]

theorem ageProgram_not_mentions (functions methods : List Function) {a b : String} :
    ¬MentionsAlias (ageProgram functions methods).target a b := by
  rintro ⟨t, ht, hb, -⟩
  simp only [SourceProgram.target, ageProgram, Option.map_eq_some_iff] at ht
  obtain ⟨decl, hdecl, rfl⟩ := ht
  rw [List.mem_singleton.1 (List.mem_of_find?_eq_some hdecl)] at hb
  simp [namesIn] at hb

theorem ageProgram_not_cyclic (functions methods : List Function) :
    ¬Cyclic (MentionsAlias (ageProgram functions methods).target) := by
  rintro ⟨a, ha⟩
  obtain ⟨b, hab, -⟩ := TransGen.head'_iff.1 ha
  exact ageProgram_not_mentions functions methods hab

/-- With the alias in a function, all types are resolved. -/
theorem ageProgram_resolved : NamesResolved (ageProgram [older] []) := by
  apply (names_resolved_iff _ (ageProgram_distinct [older] [])).2
  have hperson : StructName (ageProgram [older] []).target (ageProgram [older] []).enumNames
      "Person" := by
    simp [StructName, SourceProgram.target, SourceProgram.enumNames, ageProgram]
  refine ⟨fun h => absurd h (ageProgram_not_cyclic [older] []), fun _ t ht => ?_, fun _ t ht => ?_,
    fun _ t ht => ?_⟩
  · have htype : t = .struct "Age" := by
      simpa [declaredTypes, ageProgram, older, codeTypes, typesInStmts, typesInStmt,
        typesInExpr] using ht
    rw [htype]
    refine ⟨by simp [hiddenIn], ?_⟩
    intro a _ b s _ hs
    simp only [SourceProgram.target, ageProgram, Option.map_eq_some_iff] at hs
    obtain ⟨decl, hdecl, rfl⟩ := hs
    rw [List.mem_singleton.1 (List.mem_of_find?_eq_some hdecl)]
    simp [hiddenIn]
  · have htype : t = .struct "Person" := by
      simpa [implTypes, ageProgram] using ht
    rw [htype]
    refine ⟨?_, by simp [hiddenIn]⟩
    intro n hn
    rw [List.mem_singleton.1 hn]
    exact hperson.1
  · simp [otherTypes, ageProgram, older, contractTypes, typesInExprs] at ht

/-- `type Queue = Deque<Queue>;` -/
def queueProgram : SourceProgram where
  functions := []
  structs := []
  enums := []
  interfaces := []
  impls := []
  consts := []
  typeAliases := [⟨"Queue", .deque (.struct "Queue")⟩]
  methodsBlocks := []

/-- An alias in the method of an implementation is not resolved, and an alias that mentions itself
in a deque is not reported. -/
theorem ageProgram_refutes :
    ¬NamesResolved (ageProgram [] [older]) ∧ ¬NamesResolved queueProgram := by
  constructor
  · intro h
    have hcyclic := ageProgram_not_cyclic [] [older]
    obtain ⟨q, ξ, hq, hξ, htypes, -⟩ := h.resolves hcyclic
    have himpls :=
      ((allTypesOf_eq_iff (ageProgram_distinct [] [older]) hcyclic hξ hq).1 htypes).2.1
    have hage : Ty.struct "Age" ∈ implTypes (ageProgram [] [older]) := by
      simp [implTypes, ageProgram, older, codeTypes]
    have hnone := (himpls _ hage).1 "Age" (List.mem_singleton_self _)
    simp [SourceProgram.target, ageProgram] at hnone
  · intro h
    have hdistinct : DistinctNames queueProgram := by
      refine ⟨?_, ?_, ?_⟩ <;>
        simp [SourceProgram.aliasNames, SourceProgram.structNames, SourceProgram.enumNames,
          queueProgram]
    have hmentions : MentionsAlias queueProgram.target "Queue" "Queue" :=
      ⟨.deque (.struct "Queue"), rfl, List.mem_singleton_self _, rfl⟩
    have hreports := h.reports.2 ⟨"Queue", TransGen.single hmentions⟩
    obtain ⟨a, ha⟩ := (reportsRecursive_iff hdistinct).1 hreports
    obtain ⟨b, ⟨t, ht, hb, -⟩, -⟩ := TransGen.head'_iff.1 ha
    simp only [SourceProgram.target, queueProgram, Option.map_eq_some_iff] at ht
    obtain ⟨decl, hdecl, rfl⟩ := ht
    rw [List.mem_singleton.1 (List.mem_of_find?_eq_some hdecl)] at hb
    simp [walkedIn] at hb

end Vani.Analysis
