import Vani.Analysis.CallSites
import Vani.Analysis.TypeParams

/-!
# Every generic call has its instance

A program is monomorphic when every call of a generic function has become a call of the one
function that is its instance for the type of the first argument, and no name of a generic
function is left. The pass achieves that exactly if every call of a generic function stands where
it looks, the annotation that comes last before the call gives the right type, the parameter is
not hidden in the function, no generic function calls another, and names do not clash.
-/

set_option autoImplicit false

namespace Vani.Analysis

open Vani.Program

variable {T : Typing} {p q : GenericProgram}

/-! ## The property -/

/-- The constants, by their types. -/
def constantTypes (p : GenericProgram) (written : Ty → Ty) : TypeEnv :=
  TypeEnv.declareAll ⟨written, fun _ => none⟩ (p.consts.map fun c => (c.name, c.ty))

/-- The calls in the contract of a function. -/
def callsInContract (T : Typing) (Γ : TypeEnv) (f : Function) : List TypedCall :=
  callsInExprs T (Γ.declareParams f.params) f.requires ++
    callsInExprs T ((Γ.declareParams f.params).declare "_return" (some (Γ.written f.returnType)))
      f.ensures

/-- The calls in a function. -/
def callsInFunction (T : Typing) (Γ : TypeEnv) (f : Function) : List TypedCall :=
  callsInContract T Γ f ++ callsInStmts T (Γ.declareParams f.params) f.body

/-- The names of the functions called in a function. -/
def calledInFunction (f : Function) : List String :=
  calledInExprs f.requires ++ calledInExprs f.ensures ++ calledInStmts f.body

/-- The methods of the implementations. -/
def implMethods (p : GenericProgram) : List Function := p.impls.flatMap Implementation.methods

/-- The calls in methods and constants. -/
def otherCalls (T : Typing) (p : GenericProgram) : List TypedCall :=
  (implMethods p).flatMap (callsInFunction T (constantTypes p id)) ++
    p.consts.flatMap fun c => callsInExpr T (constantTypes p id) c.value

/-- The calls in a program, but for its generic functions. -/
def callsOf (T : Typing) (p : GenericProgram) : List TypedCall :=
  p.plain.flatMap (fun f => callsInFunction T (constantTypes p id) f.toFunction) ++ otherCalls T p

/-- The names of the functions called in some functions and in methods and constants. -/
def calledIn (fs : List GenericFunction) (p : GenericProgram) : List String :=
  fs.flatMap (fun f => calledInFunction f.toFunction) ++
    ((implMethods p).flatMap calledInFunction ++ p.consts.flatMap fun c => calledInExpr c.value)

/-- Which function is an instance of a generic function, given by its name, for a type. -/
abbrev Instances := String → Ty → GenericFunction → Prop

/-- A call is to the one function that is the instance for its type, if it is one of a generic
function, and unchanged otherwise. -/
def CallResolved (p q : GenericProgram) (I : Instances) (call : TypedCall) (name : String) : Prop :=
  match p.template call.1 with
  | none => name = call.1
  | some _ => ∃ ty g, call.2 = some ty ∧ q.functions.filter (fun h => h.name == name) = [g] ∧
      I call.1 ty g

/-- A copy of a generic function has the type in the place of the parameter everywhere, and its
calls are resolved. -/
structure InstanceOf (T : Typing) (p q : GenericProgram) (I : Instances) (f : GenericFunction)
    (param : String) (ty : Ty) (g : GenericFunction) : Prop where
  generic : f.typeParams = [param]
  types : typesInFunction g.toFunction = (typesInFunction f.toFunction).map (replaceParam param ty)
  calls : List.Forall₂ (CallResolved p q I)
    (callsInFunction T (constantTypes p (replaceParam param ty)) f.toFunction)
    (calledInFunction g.toFunction)

/-- Every call of a generic function has become one of its instance, and generic functions are
gone. -/
structure Monomorphic (T : Typing) (p q : GenericProgram) : Prop where
  calls : ∃ I : Instances,
    List.Forall₂ (CallResolved p q I) (callsOf T p) (calledIn (q.functions.take p.plain.length) q) ∧
      ∀ name ty g, I name ty g → ∃ f param, p.template name = some f ∧
        InstanceOf T p q I f param ty g
  concrete : ∀ g ∈ q.functions, g.typeParams = []
  gone : ∀ g ∈ q.functions, p.template g.name = none

/-! ## The condition -/

/-- The call sites of a program. -/
def sitesOf (T : Typing) (p : GenericProgram) : List SeenCall :=
  p.plain.flatMap (fun f =>
    (callsInContract T (constantTypes p id) f.toFunction).map .hidden ++
      sitesInStmts T ((constantTypes p id).declareParams f.params) (paramTable f.toFunction)
        f.body) ++
    (otherCalls T p).map .hidden

/-- A call that needs an instance for the type that its annotations give. -/
def Needs (T : Typing) (p : GenericProgram) (name : String) (ty : Ty) : Prop :=
  (p.template name).isSome ∧ ∃ site ∈ sitesOf T p, site.name = name ∧ site.inferred = some (.ok ty)

/-- The pass sees a call of a generic function, the last annotation before it is right about its
first argument as far as the function has use for it, and there is nothing in the function that
the pass leaves as it is: a parameter where it does not look, or a call of a generic function. -/
def CallFound (p : GenericProgram) (site : SeenCall) (f : GenericFunction) : Prop :=
  ∃ ty concrete param, site.type = some ty ∧ site.inferred = some (.ok concrete) ∧
    f.typeParams = [param] ∧ (∀ t ∈ writtenIn f.toFunction, CopiedRight param concrete ty t) ∧
      ∀ name ∈ calledInFunction f.toFunction, p.template name = none

/-- Every call of a generic function is found, and the names of functions, generic functions and
instances are different. -/
structure GenericCallsFound (T : Typing) (p : GenericProgram) : Prop where
  found : ∀ site ∈ sitesOf T p, ∀ f, p.template site.name = some f → CallFound p site f
  plain : ∀ f ∈ p.plain, p.template f.name = none
  instances : ∀ name ty, Needs T p name ty → p.template (instanceName name ty) = none ∧
    (∀ f ∈ p.plain, f.name ≠ instanceName name ty) ∧
      ∀ name' ty', Needs T p name' ty' → instanceName name' ty' = instanceName name ty →
        name' = name ∧ ty' = ty

/-! ## What is collected -/

section

variable (generics : String → Bool)

theorem mem_need {c : Collected} {name n : String} {ty t : Ty} :
    (n, t) ∈ (c.need name ty).needed ↔ (n, t) ∈ c.needed ∨ n = name ∧ t = ty := by
  unfold Collected.need
  split
  · rename_i h
    rw [List.contains_iff_mem] at h
    constructor
    · exact Or.inl
    · rintro (hmem | ⟨rfl, rfl⟩)
      · exact hmem
      · exact h
  · simp

theorem nodup_need {c : Collected} (h : c.needed.Nodup) (name : String) (ty : Ty) :
    (c.need name ty).needed.Nodup := by
  unfold Collected.need
  split
  · exact h
  · rename_i hnew
    rw [List.contains_iff_mem] at hnew
    exact List.nodup_append.2 ⟨h, List.nodup_singleton _, by
      rintro a ha b hb rfl
      exact hnew (List.mem_singleton.1 hb ▸ ha)⟩

/-- What a call site adds to the instances. -/
theorem mem_visit {c : Collected} {site : SeenCall} {n : String} {t : Ty} :
    (n, t) ∈ (Collected.visit generics c site).needed ↔ (n, t) ∈ c.needed ∨
      generics n = true ∧ site.name = n ∧ site.inferred = some (.ok t) := by
  unfold Collected.visit
  split
  · rename_i hgeneric
    split
    · rename_i ty hty
      rw [mem_need, hty]
      apply or_congr_right
      constructor
      · rintro ⟨rfl, rfl⟩
        exact ⟨hgeneric, rfl, rfl⟩
      · rintro ⟨-, hname, hok⟩
        cases hok
        exact ⟨hname.symm, rfl⟩
    · rename_i error herror
      simp [Collected.report, herror]
    · rename_i hnone
      simp [hnone]
  · rename_i hgeneric
    constructor
    · exact Or.inl
    · rintro (hmem | ⟨hn, rfl, -⟩)
      · exact hmem
      · exact absurd hn hgeneric

theorem mem_collected {n : String} {t : Ty} (sites : List SeenCall) (c : Collected) :
    (n, t) ∈ (sites.foldl (Collected.visit generics) c).needed ↔ (n, t) ∈ c.needed ∨
      generics n = true ∧ ∃ site ∈ sites, site.name = n ∧ site.inferred = some (.ok t) := by
  induction sites generalizing c with
  | nil => simp
  | cons site sites ih =>
    rw [List.foldl_cons, ih, mem_visit, or_assoc]
    apply or_congr_right
    rw [← and_or_left]
    simp

theorem nodup_collected (sites : List SeenCall) {c : Collected} (h : c.needed.Nodup) :
    (sites.foldl (Collected.visit generics) c).needed.Nodup := by
  induction sites generalizing c with
  | nil => exact h
  | cons site sites ih =>
    apply ih
    unfold Collected.visit
    split
    · split
      · exact nodup_need h _ _
      · exact h
      · exact h
    · exact h

end

/-- Whether a function of this name is generic. -/
abbrev isGeneric (p : GenericProgram) (name : String) : Bool := (p.template name).isSome

/-- The pass visits the call sites of the program. -/
theorem collect_eq (T : Typing) (p : GenericProgram) :
    p.collect = (sitesOf T p).foldl (Collected.visit (isGeneric p)) ⟨[], []⟩ := by
  have hfunctions : ∀ (fs : List GenericFunction) (c : Collected),
      fs.foldl (fun c f => collectInFunction (isGeneric p) f.toFunction c) c =
        (fs.flatMap fun f =>
          (callsInContract T (constantTypes p id) f.toFunction).map SeenCall.hidden ++
            sitesInStmts T ((constantTypes p id).declareParams f.params) (paramTable f.toFunction)
              f.body).foldl (Collected.visit (isGeneric p)) c := by
    intro fs
    induction fs with
    | nil => exact fun c => rfl
    | cons f fs ih =>
      intro c
      rw [List.foldl_cons, List.flatMap_cons, List.foldl_append, List.foldl_append, visit_hidden,
        ih]
      unfold collectInFunction
      rw [collectInStmts_eq T]
  unfold sitesOf GenericProgram.collect
  rw [List.foldl_append, visit_hidden]
  exact hfunctions p.plain _

/-- The instances that are collected are those that are needed. -/
theorem mem_collect_iff {name : String} {ty : Ty} :
    (name, ty) ∈ p.collect.needed ↔ Needs T p name ty := by
  rw [collect_eq T p, mem_collected]
  simp [Needs]

/-- A checker to whom every expression is an `i64`; what is collected depends on no types. -/
def everyInt : Typing where
  ofExpr _ _ := .int .i64
  range _ _ _ := .int .i64
  element _ _ := .int .i64
  payload _ _ _ := .int .i64
  components _ _ := []

theorem nodup_collect (p : GenericProgram) : p.collect.needed.Nodup := by
  rw [collect_eq everyInt p]
  exact nodup_collected _ _ List.nodup_nil

/-! ## The program after the pass -/

/-- The program after the pass. -/
abbrev mono (p : GenericProgram) : GenericProgram := p.monomorphizeGenerics.1

theorem template_name {name : String} {f : GenericFunction} (h : p.template name = some f) :
    f.name = name := by
  have hname := List.find?_some h
  exact beq_iff_eq.1 hname

theorem template_of_generic {f : GenericFunction} (hmem : f ∈ p.functions)
    (h : f.typeParams ≠ []) : (p.template f.name).isSome := by
  unfold GenericProgram.template
  rw [List.find?_isSome]
  refine ⟨f, ?_, beq_self_eq_true _⟩
  rw [List.mem_reverse]
  exact List.mem_filter.2 ⟨hmem, by simpa using h⟩

/-- The copies of the generic functions. -/
def copiesOf (p : GenericProgram) : List GenericFunction :=
  p.collect.needed.flatMap fun x => (p.instantiate x.1 x.2).1

/-- The functions that are not generic, with their calls rewritten. -/
def rewrittenOf (p : GenericProgram) : List GenericFunction :=
  p.plain.map (rewriteFunction (isGeneric p))

/-- The functions after the pass. Without a generic function nothing changes. -/
theorem functions_monomorphize (h : p.templates ≠ []) :
    mono p = { p with functions := rewrittenOf p ++ copiesOf p } := by
  have hempty : p.templates.isEmpty = false := by simpa using h
  unfold mono GenericProgram.monomorphizeGenerics
  rw [hempty]
  simp only [Bool.false_eq_true, if_false, List.flatMap_map]
  rfl

/-- In an accepted program there is one copy for every needed instance. -/
theorem instantiate_of_accepted (h : p.monomorphizeGenerics.2 = []) {name : String} {ty : Ty}
    (hneed : (name, ty) ∈ p.collect.needed) :
    ∃ f param, p.template name = some f ∧ f.typeParams = [param] ∧
      (p.instantiate name ty).1 = [specialise f param ty] := by
  have hgeneric : (p.template name).isSome := by
    have hneeds := (mem_collect_iff (T := everyInt)).1 hneed
    exact hneeds.1
  obtain ⟨f, hf⟩ := Option.isSome_iff_exists.1 hgeneric
  have hmem : f ∈ p.templates := List.mem_reverse.1 (List.mem_of_find?_eq_some hf)
  have hempty : p.templates.isEmpty = false := by
    simpa using List.ne_nil_of_mem hmem
  have herrors : (p.instantiate name ty).2 = [] := by
    unfold GenericProgram.monomorphizeGenerics at h
    rw [hempty] at h
    simp only [Bool.false_eq_true, if_false, List.append_eq_nil_iff, List.flatMap_eq_nil_iff,
      List.mem_map, forall_exists_index, and_imp, forall_apply_eq_imp_iff₂] at h
    exact h.1.2 (name, ty) hneed
  unfold GenericProgram.instantiate at herrors ⊢
  rw [hf] at herrors ⊢
  simp only at herrors ⊢
  split at herrors
  · rename_i hbound
    exact absurd (List.map_eq_nil_iff.1 herrors) hbound
  · rename_i hbound
    rw [if_neg hbound]
    split at herrors
    · rename_i param hparams
      exact ⟨f, param, rfl, hparams, rfl⟩
    · exact absurd herrors (List.cons_ne_nil _ _)

section

variable (param : String) (ty : Ty)

mutual

/-- Calls do not change in a copy. -/
theorem calledInStmt_substitute : ∀ s : Stmt,
    calledInStmt (substituteTypeParamInStmt param ty s) = calledInStmt s
  | .if_ c th el => by
    simp only [substituteTypeParamInStmt, calledInStmt, calledInStmts_substitute th,
      calledInStmts_substitute el]
  | .while_ c invariants body => by
    simp only [substituteTypeParamInStmt, calledInStmt, calledInStmts_substitute body]
  | .let_ _ _ _ | .letTuple _ _ _ | .return_ _ | .assert _ _ | .prove _ | .print _ | .assign _ _
  | .break_ | .continue_ | .indexAssign _ _ _ _ | .fieldAssign _ _ _ | .for_ _ _ _ _ _ _ _
  | .forIter _ _ _ _ | .taskSpawn _ _ | .taskJoin _ => by
    simp only [substituteTypeParamInStmt, calledInStmt]

theorem calledInStmts_substitute : ∀ ss : List Stmt,
    calledInStmts (substituteTypeParamInStmts param ty ss) = calledInStmts ss
  | [] => by simp only [substituteTypeParamInStmts]
  | s :: ss => by
    simp only [substituteTypeParamInStmts, calledInStmts, calledInStmt_substitute s,
      calledInStmts_substitute ss]

end

theorem calledInFunction_specialise (f : GenericFunction) :
    calledInFunction (specialise f param ty).toFunction = calledInFunction f.toFunction := by
  simp only [calledInFunction, specialise, calledInStmts_substitute]

end

theorem callsInFunction_names (T : Typing) (Γ : TypeEnv) (f : Function) :
    (callsInFunction T Γ f).map Prod.fst = calledInFunction f := by
  simp only [callsInFunction, callsInContract, calledInFunction, List.map_append,
    callsInExprs_names, callsInStmts_names]

/-- The copies of a name are those of the needed instances of that name. -/
theorem filter_copies {n : String} {needed : List (String × Ty)}
    (h : ∀ x ∈ needed, ∃ f param, p.template x.1 = some f ∧ f.typeParams = [param] ∧
      (p.instantiate x.1 x.2).1 = [specialise f param x.2]) :
    (needed.flatMap fun x => (p.instantiate x.1 x.2).1).filter (fun g => g.name == n) =
      (needed.filter fun x => instanceName x.1 x.2 == n).flatMap fun x =>
        (p.instantiate x.1 x.2).1 := by
  induction needed with
  | nil => rfl
  | cons x needed ih =>
    obtain ⟨f, param, hf, -, hinst⟩ := h x List.mem_cons_self
    have hname : (specialise f param x.2).name = instanceName x.1 x.2 := by
      rw [← template_name hf]
      rfl
    rw [List.flatMap_cons, List.filter_append, ih fun y hy => h y (List.mem_cons_of_mem x hy),
      hinst, List.filter_cons, List.filter_cons, hname]
    split
    · rw [List.flatMap_cons, hinst]
      rfl
    · rfl

/-- A list without duplicates has one element of a kind exactly if all of the kind are it. -/
theorem filter_eq_singleton {α : Type} {l : List α} {x : α} {k : α → Bool} (hl : l.Nodup)
    (hx : x ∈ l) (hk : k x = true) : l.filter k = [x] ↔ ∀ y ∈ l, k y = true → y = x := by
  constructor
  · intro h y hy hky
    have hmem : y ∈ l.filter k := List.mem_filter.2 ⟨hy, hky⟩
    rw [h] at hmem
    exact List.mem_singleton.1 hmem
  · intro h
    have hall : ∀ y ∈ l.filter k, y = x := by
      intro y hy
      obtain ⟨hmem, hky⟩ := List.mem_filter.1 hy
      exact h y hmem hky
    have hnodup := hl.filter k
    have hin : x ∈ l.filter k := List.mem_filter.2 ⟨hx, hk⟩
    cases hfilter : l.filter k with
    | nil => simp [hfilter] at hin
    | cons a rest =>
      rw [hfilter] at hall hnodup
      have ha := hall a List.mem_cons_self
      cases rest with
      | nil => rw [ha]
      | cons b rest =>
        have hb := hall b (List.mem_cons_of_mem a List.mem_cons_self)
        simp [ha, hb] at hnodup

/-! ## Resolved calls -/

theorem sitesOf_calls (T : Typing) (p : GenericProgram) :
    (sitesOf T p).map SeenCall.call = callsOf T p := by
  simp only [sitesOf, callsOf, callsInFunction, List.map_append, List.map_flatMap, map_call_hidden,
    sitesInStmts_calls]

theorem calledInFunction_rewrite (T : Typing) (p : GenericProgram) (f : GenericFunction) :
    calledInFunction (rewriteFunction (isGeneric p) f).toFunction =
      ((callsInContract T (constantTypes p id) f.toFunction).map SeenCall.hidden ++
        sitesInStmts T ((constantTypes p id).declareParams f.params) (paramTable f.toFunction)
          f.body).map (SeenCall.renamed (isGeneric p)) := by
  simp only [calledInFunction, rewriteFunction, callsInContract, List.map_append,
    map_renamed_hidden, callsInExprs_names,
    calledInStmts_rewrite T (isGeneric p) ((constantTypes p id).declareParams f.params)]

theorem otherCalls_names (T : Typing) (p : GenericProgram) :
    (otherCalls T p).map Prod.fst = (implMethods p).flatMap calledInFunction ++
      p.consts.flatMap fun c => calledInExpr c.value := by
  simp only [otherCalls, List.map_append, List.map_flatMap, callsInFunction_names,
    callsInExpr_names]

/-- The calls after the pass. -/
theorem sitesOf_renamed (T : Typing) (p : GenericProgram) (fs : List GenericFunction) :
    (sitesOf T p).map (SeenCall.renamed (isGeneric p)) =
      calledIn (rewrittenOf p) { p with functions := fs } := by
  have hother := otherCalls_names T p
  simp only [sitesOf, calledIn, rewrittenOf, List.map_append, List.map_flatMap, List.flatMap_map,
    calledInFunction_rewrite T, map_renamed_hidden, hother]
  rfl

theorem callsOf_names (T : Typing) (p : GenericProgram) :
    (callsOf T p).map Prod.fst = calledIn p.plain p := by
  simp only [callsOf, calledIn, List.map_append, List.map_flatMap, callsInFunction_names,
    otherCalls_names]

theorem calls_resolved_iff (T : Typing) (h : p.templates ≠ []) (I : Instances) :
    List.Forall₂ (CallResolved p (mono p) I) (callsOf T p)
        (calledIn ((mono p).functions.take p.plain.length) (mono p)) ↔
      ∀ site ∈ sitesOf T p,
        CallResolved p (mono p) I site.call (site.renamed (isGeneric p)) := by
  have hlength : (rewrittenOf p).length = p.plain.length := List.length_map _
  rw [functions_monomorphize h]
  simp only
  rw [← hlength, List.take_left, ← sitesOf_renamed T p, ← sitesOf_calls T p,
    List.forall₂_map_left_iff, List.forall₂_map_right_iff, List.forall₂_same]

/-- Without generic functions there is nothing to do. -/
theorem monomorphic_of_plain (T : Typing) (h : p.templates = []) : Monomorphic T p (mono p) := by
  have hmono : mono p = p := by
    unfold mono GenericProgram.monomorphizeGenerics
    rw [h]
    rfl
  have htemplate : ∀ name, p.template name = none := by
    intro name
    unfold GenericProgram.template
    rw [h]
    rfl
  have hconcrete : ∀ g ∈ p.functions, g.typeParams = [] := by
    intro g hg
    by_contra hne
    have hgeneric := template_of_generic hg hne
    rw [htemplate] at hgeneric
    cases hgeneric
  have hplain : p.plain = p.functions := by
    apply List.filter_eq_self.2
    intro g hg
    rw [hconcrete g hg]
    rfl
  rw [hmono]
  refine ⟨⟨fun _ _ _ => False, ?_, fun _ _ _ hI => hI.elim⟩, hconcrete,
    fun g _ => htemplate g.name⟩
  rw [hplain, List.take_length, ← hplain, ← callsOf_names T, List.forall₂_map_right_iff,
    List.forall₂_same]
  intro call _
  unfold CallResolved
  rw [htemplate]

/-! ## One function of a name -/

/-- The functions of a name after the pass. -/
theorem filter_functions (hp : p.templates ≠ []) (h : p.monomorphizeGenerics.2 = [])
    (name : String) :
    (mono p).functions.filter (fun g => g.name == name) =
      (rewrittenOf p).filter (fun g => g.name == name) ++
        (p.collect.needed.filter fun x => instanceName x.1 x.2 == name).flatMap fun x =>
          (p.instantiate x.1 x.2).1 := by
  rw [functions_monomorphize hp]
  simp only
  rw [List.filter_append]
  congr 1
  exact filter_copies fun x hx => instantiate_of_accepted h hx

theorem rewrittenOf_named (name : String) :
    (rewrittenOf p).filter (fun g => g.name == name) = [] ↔ ∀ f ∈ p.plain, f.name ≠ name := by
  simp [rewrittenOf, List.filter_eq_nil_iff, rewriteFunction]

/-- A needed instance is the only function of its name exactly if its name is the name of no
other function and of no other instance. -/
theorem filter_instance (hp : p.templates ≠ []) (h : p.monomorphizeGenerics.2 = [])
    {name : String} {ty : Ty} {f : GenericFunction} {param : String}
    (hneed : (name, ty) ∈ p.collect.needed)
    (hinst : (p.instantiate name ty).1 = [specialise f param ty]) (g : GenericFunction) :
    (mono p).functions.filter (fun k => k.name == instanceName name ty) = [g] ↔
      g = specialise f param ty ∧ (∀ k ∈ p.plain, k.name ≠ instanceName name ty) ∧
        ∀ x ∈ p.collect.needed, instanceName x.1 x.2 = instanceName name ty → x = (name, ty) := by
  have hsingle := filter_eq_singleton
    (k := fun x => instanceName x.1 x.2 == instanceName name ty) (nodup_collect p) hneed
    (beq_self_eq_true _)
  simp only [beq_iff_eq] at hsingle
  rw [filter_functions hp h, ← rewrittenOf_named, ← hsingle]
  constructor
  · intro hone
    have hmem : (name, ty) ∈ p.collect.needed.filter fun x =>
        instanceName x.1 x.2 == instanceName name ty :=
      List.mem_filter.2 ⟨hneed, beq_self_eq_true _⟩
    have hcopies : ∀ x ∈ p.collect.needed.filter fun x =>
        instanceName x.1 x.2 == instanceName name ty,
        ((p.instantiate x.1 x.2).1).length = 1 := by
      intro x hx
      obtain ⟨f', param', -, -, hinst'⟩ := instantiate_of_accepted h (List.mem_filter.1 hx).1
      rw [hinst']
      rfl
    have hlength := congrArg List.length hone
    rw [List.length_append, List.length_flatMap, List.map_congr_left hcopies, List.map_const',
      List.sum_replicate_nat, Nat.mul_one, List.length_singleton] at hlength
    have hpos := List.length_pos_of_mem hmem
    have hrewritten : (rewrittenOf p).filter (fun g => g.name == instanceName name ty) = [] :=
      List.length_eq_zero_iff.1 (by omega)
    obtain ⟨x, hx⟩ := List.length_eq_one_iff.1
      (show (p.collect.needed.filter fun x =>
        instanceName x.1 x.2 == instanceName name ty).length = 1 by omega)
    rw [hx] at hmem
    obtain rfl := (List.mem_singleton.1 hmem).symm
    refine ⟨?_, hrewritten, hx⟩
    rw [hrewritten, hx, List.flatMap_singleton, List.nil_append, hinst] at hone
    exact (List.singleton_inj.1 hone).symm
  · rintro ⟨rfl, hrewritten, hneeded⟩
    rw [hrewritten, hneeded, List.flatMap_singleton, List.nil_append, hinst]

/-! ## The pass -/

theorem call_name (site : SeenCall) : site.call.1 = site.name := rfl

/-- A call of a generic function that has not been given the name of an instance is not resolved:
nothing of that name is left. -/
theorem inferred_of_resolved {I : Instances} {site : SeenCall} {f : GenericFunction}
    (hgone : ∀ g ∈ (mono p).functions, p.template g.name = none)
    (hf : p.template site.name = some f)
    (hres : CallResolved p (mono p) I site.call (site.renamed (isGeneric p))) :
    ∃ ty concrete g, site.type = some ty ∧ site.inferred = some (.ok concrete) ∧
      (mono p).functions.filter (fun h => h.name == instanceName site.name concrete) = [g] ∧
        I site.name ty g := by
  unfold CallResolved at hres
  rw [call_name, hf] at hres
  obtain ⟨ty, g, hty, hfilter, hI⟩ := hres
  have hmem : g ∈ (mono p).functions.filter fun h => h.name == site.renamed (isGeneric p) := by
    rw [hfilter]
    exact List.mem_singleton_self g
  obtain ⟨hg, hname⟩ := List.mem_filter.1 hmem
  have hnone := hgone g hg
  rw [beq_iff_eq.1 hname] at hnone
  unfold SeenCall.renamed at hfilter hnone
  split at hfilter
  · rename_i concrete hok
    rw [if_pos (by rw [isGeneric, hf]; rfl)] at hfilter
    exact ⟨ty, concrete, g, hty, hok, hfilter, hI⟩
  · rename_i hother
    split at hnone
    · rename_i concrete hok
      exact absurd hok (hother concrete)
    · rw [hf] at hnone
      cases hnone

theorem needs_of_site {site : SeenCall} {f : GenericFunction} {concrete : Ty}
    (hsite : site ∈ sitesOf T p) (hf : p.template site.name = some f)
    (hok : site.inferred = some (.ok concrete)) : Needs T p site.name concrete :=
  ⟨by rw [hf]; rfl, site, hsite, rfl, hok⟩

/-- What has to be found is found when the program is monomorphic afterwards. -/
theorem found_of_monomorphic (h : p.monomorphizeGenerics.2 = [])
    (hmono : Monomorphic T p (mono p)) : GenericCallsFound T p := by
  by_cases hp : p.templates = []
  · have htemplate : ∀ name, p.template name = none := by
      intro name
      unfold GenericProgram.template
      rw [hp]
      rfl
    refine ⟨fun site _ f hf => ?_, fun f _ => htemplate f.name, fun name ty hneeds => ?_⟩
    · rw [htemplate] at hf
      cases hf
    · rw [Needs, htemplate] at hneeds
      cases hneeds.1
  obtain ⟨I, hcalls, hinstances⟩ := hmono.calls
  rw [calls_resolved_iff T hp] at hcalls
  have hneeded : ∀ name concrete, Needs T p name concrete → ∃ f param ty,
      p.template name = some f ∧ f.typeParams = [param] ∧
        I name ty (specialise f param concrete) ∧
        (∀ k ∈ p.plain, k.name ≠ instanceName name concrete) ∧
          ∀ x ∈ p.collect.needed, instanceName x.1 x.2 = instanceName name concrete →
            x = (name, concrete) := by
    rintro name concrete hneeds
    obtain ⟨f, param, hf, hparam, hinst⟩ :=
      instantiate_of_accepted h (mem_collect_iff.2 hneeds)
    obtain ⟨hgeneric, site, hsite, rfl, hok⟩ := hneeds
    obtain ⟨ty, concrete', g, -, hok', hfilter, hI⟩ :=
      inferred_of_resolved hmono.gone hf (hcalls site hsite)
    rw [hok] at hok'
    cases hok'
    obtain ⟨rfl, hplain, hunique⟩ :=
      (filter_instance hp h (mem_collect_iff.2 (needs_of_site hsite hf hok)) hinst g).1 hfilter
    exact ⟨f, param, ty, hf, hparam, hI, hplain, hunique⟩
  refine ⟨?_, ?_, ?_⟩
  · intro site hsite f hf
    obtain ⟨ty, concrete, g, hty, hok, hfilter, hI⟩ :=
      inferred_of_resolved hmono.gone hf (hcalls site hsite)
    have hneed := mem_collect_iff.2 (needs_of_site hsite hf hok)
    obtain ⟨f', param, hf', hparam, hinst⟩ := instantiate_of_accepted h hneed
    rw [hf] at hf'
    cases hf'
    obtain ⟨rfl, -, -⟩ := (filter_instance hp h hneed hinst g).1 hfilter
    obtain ⟨f', param', hf', hcopy⟩ := hinstances _ _ _ hI
    rw [hf] at hf'
    cases hf'
    obtain rfl : param = param' := List.singleton_inj.1 (hparam.symm.trans hcopy.generic)
    refine ⟨ty, concrete, param, hty, hok, hparam,
      (typesInFunction_specialise_iff f param concrete ty).1 hcopy.types, ?_⟩
    -- a generic function that is called in the copy would have to be there under its own name
    have hinner := hcopy.calls
    rw [calledInFunction_specialise, ← callsInFunction_names T, List.forall₂_map_right_iff,
      List.forall₂_same] at hinner
    intro name hname
    rw [← callsInFunction_names T (constantTypes p (replaceParam param ty)), List.mem_map] at hname
    obtain ⟨call, hcall, rfl⟩ := hname
    have hres := hinner call hcall
    unfold CallResolved at hres
    cases hcase : p.template call.1 with
    | none => rfl
    | some k =>
      rw [hcase] at hres
      obtain ⟨-, g, -, hg, -⟩ := hres
      have hmem : g ∈ (mono p).functions.filter fun h => h.name == call.1 := by
        rw [hg]
        exact List.mem_singleton_self g
      obtain ⟨hg, hname⟩ := List.mem_filter.1 hmem
      have hnone := hmono.gone g hg
      rw [beq_iff_eq.1 hname, hcase] at hnone
      cases hnone
  · intro f hf
    have hg : rewriteFunction (isGeneric p) f ∈ (mono p).functions := by
      rw [functions_monomorphize hp]
      exact List.mem_append_left _ (List.mem_map_of_mem hf)
    have hnone := hmono.gone _ hg
    exact hnone
  · intro name concrete hneeds
    obtain ⟨f, param, ty, hf, hparam, -, hplain, hunique⟩ := hneeded name concrete hneeds
    refine ⟨?_, hplain, ?_⟩
    · have hg : specialise f param concrete ∈ (mono p).functions := by
        obtain ⟨f', param', hf', hparam', hinst⟩ :=
          instantiate_of_accepted h (mem_collect_iff.2 hneeds)
        rw [hf] at hf'
        cases hf'
        obtain rfl : param = param' := List.singleton_inj.1 (hparam.symm.trans hparam')
        rw [functions_monomorphize hp]
        refine List.mem_append_right _ (List.mem_flatMap.2 ⟨_, mem_collect_iff.2 hneeds, ?_⟩)
        rw [hinst]
        exact List.mem_singleton_self _
      have hnone := hmono.gone _ hg
      rw [← template_name hf]
      exact hnone
    · intro name' concrete' hneeds' heq
      have hpair := hunique (name', concrete') (mem_collect_iff.2 hneeds') heq
      exact Prod.mk.injEq .. ▸ hpair

/-- The instances that the pass makes. -/
def instancesOf (T : Typing) (p : GenericProgram) : Instances := fun name ty g =>
  ∃ site ∈ sitesOf T p, ∃ f param concrete, site.name = name ∧ site.type = some ty ∧
    site.inferred = some (.ok concrete) ∧ p.template name = some f ∧ f.typeParams = [param] ∧
      g = specialise f param concrete ∧
        (∀ t ∈ writtenIn f.toFunction, CopiedRight param concrete ty t) ∧
          ∀ n ∈ calledInFunction f.toFunction, p.template n = none

/-- When everything is found, the program is monomorphic afterwards. -/
theorem monomorphic_of_found (h : p.monomorphizeGenerics.2 = []) (hfound : GenericCallsFound T p) :
    Monomorphic T p (mono p) := by
  by_cases hp : p.templates = []
  · exact monomorphic_of_plain T hp
  have hfunctions : ∀ g ∈ (mono p).functions, g ∈ rewrittenOf p ∨ ∃ name ty f param,
      (name, ty) ∈ p.collect.needed ∧ p.template name = some f ∧ g = specialise f param ty := by
    intro g hg
    rw [functions_monomorphize hp] at hg
    rcases List.mem_append.1 hg with hg | hg
    · exact Or.inl hg
    · obtain ⟨⟨name, ty⟩, hneed, hg⟩ := List.mem_flatMap.1 hg
      obtain ⟨f, param, hf, -, hinst⟩ := instantiate_of_accepted h hneed
      rw [hinst] at hg
      exact Or.inr ⟨name, ty, f, param, hneed, hf, List.mem_singleton.1 hg⟩
  refine ⟨⟨instancesOf T p, ?_, ?_⟩, ?_, ?_⟩
  · rw [calls_resolved_iff T hp]
    intro site hsite
    unfold CallResolved
    rw [call_name]
    cases hf : p.template site.name with
    | none =>
      have hname : site.renamed (isGeneric p) = site.name := by
        unfold SeenCall.renamed isGeneric
        rw [hf]
        split <;> rfl
      exact hname
    | some f =>
      obtain ⟨ty, concrete, param, hty, hok, hparam, hcopied, hcalled⟩ :=
        hfound.found site hsite f hf
      have hneeds := needs_of_site hsite hf hok
      obtain ⟨f', param', hf', hparam', hinst⟩ :=
        instantiate_of_accepted h (mem_collect_iff.2 hneeds)
      rw [hf] at hf'
      cases hf'
      obtain rfl : param = param' := List.singleton_inj.1 (hparam.symm.trans hparam')
      have hname : site.renamed (isGeneric p) = instanceName site.name concrete := by
        unfold SeenCall.renamed isGeneric
        rw [hok, hf]
        rfl
      obtain ⟨-, hplain, hunique⟩ := hfound.instances _ _ hneeds
      refine ⟨ty, specialise f param concrete, hty, ?_, ?_⟩
      · rw [hname]
        apply (filter_instance hp h (mem_collect_iff.2 hneeds) hinst _).2
        refine ⟨rfl, hplain, ?_⟩
        rintro ⟨name', ty'⟩ hneed' heq
        obtain ⟨rfl, rfl⟩ := hunique name' ty' (mem_collect_iff.1 hneed') heq
        rfl
      · exact ⟨site, hsite, f, param, concrete, rfl, hty, hok, hf, hparam, rfl, hcopied, hcalled⟩
  · rintro name ty g ⟨site, -, f, param, concrete, -, -, -, hf, hparam, rfl, hcopied, hcalled⟩
    refine ⟨f, param, hf, hparam,
      (typesInFunction_specialise_iff f param concrete ty).2 hcopied, ?_⟩
    rw [calledInFunction_specialise, ← callsInFunction_names T, List.forall₂_map_right_iff,
      List.forall₂_same]
    intro call hcall
    unfold CallResolved
    rw [hcalled call.1]
    rw [← callsInFunction_names T (constantTypes p (replaceParam param ty))]
    exact List.mem_map_of_mem hcall
  · intro g hg
    rcases hfunctions g hg with hg | ⟨name, ty, f, param, -, -, rfl⟩
    · obtain ⟨f, hf, rfl⟩ := List.mem_map.1 hg
      exact List.isEmpty_iff.1 (List.mem_filter.1 hf).2
    · rfl
  · intro g hg
    rcases hfunctions g hg with hg | ⟨name, ty, f, param, hneed, hf, rfl⟩
    · obtain ⟨f, hf, rfl⟩ := List.mem_map.1 hg
      have hnone := hfound.plain f hf
      exact hnone
    · have hnone := (hfound.instances name ty (mem_collect_iff.1 hneed)).1
      rw [← template_name hf] at hnone
      exact hnone

/-- An accepted program is monomorphic after the pass exactly if all that it has to do with
generic functions is found. -/
theorem monomorphic_iff (T : Typing) (p : GenericProgram) (h : p.monomorphizeGenerics.2 = []) :
    Monomorphic T p (mono p) ↔ GenericCallsFound T p :=
  ⟨found_of_monomorphic h, monomorphic_of_found h⟩

/-- `fn id<T>(x: T) -> T { return x; }` -/
def idFunction : GenericFunction where
  name := "id"
  typeParams := ["T"]
  whereClauses := []
  params := [⟨"x", .param "T"⟩]
  returnType := .param "T"
  requires := []
  ensures := []
  body := [.return_ (.var "x")]
  isPure := false

/-- A program with `id` and a function that has the given body. -/
def identityProgram (body : List Stmt) : GenericProgram where
  functions := [idFunction, ⟨⟨"main", [], .int .i64, [], [], body, false⟩, [], []⟩]
  impls := []
  consts := []

/-- `return id(5);` -/
def returnId : Stmt := .return_ (.call "id" [.int 5])

theorem template_id (body : List Stmt) (name : String) :
    (identityProgram body).template name = if name = "id" then some idFunction else none := by
  have htemplates : (identityProgram body).templates = [idFunction] := rfl
  unfold GenericProgram.template
  rw [htemplates, List.reverse_singleton, List.find?_singleton]
  by_cases hname : name = "id"
  · subst hname
    rfl
  · rw [if_neg hname, if_neg]
    intro heq
    exact hname (beq_iff_eq.1 heq).symm

/-- Where the call is in a `return`, the program is monomorphic afterwards. -/
theorem identityProgram_monomorphic :
    Monomorphic everyInt (identityProgram [returnId]) (mono (identityProgram [returnId])) := by
  apply (monomorphic_iff everyInt (identityProgram [returnId]) rfl).2
  have hsites : sitesOf everyInt (identityProgram [returnId]) =
      [⟨"id", some (.int .i64), some (.ok (.int .i64))⟩] := rfl
  have hneeds : ∀ {name ty}, Needs everyInt (identityProgram [returnId]) name ty →
      name = "id" ∧ ty = .int .i64 := by
    rintro name ty ⟨-, site, hsite, rfl, hok⟩
    rw [hsites] at hsite
    obtain rfl := List.mem_singleton.1 hsite
    cases hok
    exact ⟨rfl, rfl⟩
  refine ⟨?_, ?_, ?_⟩
  · intro site hsite f hf
    rw [hsites] at hsite
    obtain rfl := List.mem_singleton.1 hsite
    rw [template_id, if_pos rfl] at hf
    cases hf
    refine ⟨.int .i64, .int .i64, "T", rfl, rfl, rfl, ?_, ?_⟩
    · intro t ht
      have hmem : t = (.param "T", true) := by
        simpa [writtenIn, idFunction, writtenInStmts, writtenInStmt, typesInStmt, typesInExpr,
          contractTypes, typesInExprs, untouched] using ht
      subst hmem
      refine ⟨fun _ _ => rfl, fun _ hmissed => ?_, fun hfalse => by cases hfalse⟩
      cases hmissed
    · intro name hname
      cases hname
  · intro f hf
    have hmem : f.name = "main" := by
      have hplain : (identityProgram [returnId]).plain.map (fun f => f.name) = ["main"] := rfl
      have hin := List.mem_map_of_mem (f := fun f : GenericFunction => f.name) hf
      rw [hplain] at hin
      exact List.mem_singleton.1 hin
    rw [template_id, hmem]
    rfl
  · intro name ty hneed
    obtain ⟨rfl, rfl⟩ := hneeds hneed
    refine ⟨by rw [template_id]; rfl, ?_, ?_⟩
    · have hplain : ∀ f ∈ (identityProgram [returnId]).plain, f.name = "main" := by
        intro f hf
        have hmem : (identityProgram [returnId]).plain.map (fun f => f.name) = ["main"] := rfl
        have hin := List.mem_map_of_mem (f := fun f : GenericFunction => f.name) hf
        rw [hmem] at hin
        exact List.mem_singleton.1 hin
      intro f hf
      rw [hplain f hf]
      decide
    · intro name' ty' hneed' _
      exact hneeds hneed'

/-- The call in the body of a `for` is left as it is, and in the other program `id` is called with
an `i64` and becomes the instance for the `bool` of the inner block. -/
theorem identityProgram_refutes :
    (¬Monomorphic everyInt
      (identityProgram [.for_ "i" (.int 0) (.int 3) [] [.print [.expr (.call "id" [.var "i"])]]
        false [], returnId])
      (mono (identityProgram [.for_ "i" (.int 0) (.int 3) []
        [.print [.expr (.call "id" [.var "i"])]] false [], returnId]))) ∧
    ¬Monomorphic everyInt
      (identityProgram [.let_ "x" (some (.int .i64)) (.int 5),
        .if_ (.bool true) [.let_ "x" (some .bool) (.bool true)] [],
        .return_ (.call "id" [.var "x"])])
      (mono (identityProgram [.let_ "x" (some (.int .i64)) (.int 5),
        .if_ (.bool true) [.let_ "x" (some .bool) (.bool true)] [],
        .return_ (.call "id" [.var "x"])])) := by
  constructor
  · intro h
    have hfound := (found_of_monomorphic rfl h).found ⟨"id", some (.int .i64), none⟩
      (List.mem_cons_self ..) idFunction (by rw [template_id, if_pos rfl])
    obtain ⟨ty, concrete, param, hty, hok, -⟩ := hfound
    cases hok
  · intro h
    have hfound := (found_of_monomorphic rfl h).found
      ⟨"id", some (.int .i64), some (.ok .bool)⟩ (List.mem_cons_self ..) idFunction
      (by rw [template_id, if_pos rfl])
    obtain ⟨ty, concrete, param, hty, hok, hparam, hcopied, -⟩ := hfound
    cases hty
    cases hok
    cases hparam
    have hright := (hcopied (.param "T", true) (List.mem_cons_self ..)).1 rfl
      (List.mem_singleton_self _)
    cases hright

end Vani.Analysis
