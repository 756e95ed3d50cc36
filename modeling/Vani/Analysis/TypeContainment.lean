import Vani.Program.TypeDecls
import Vani.Library.TopologicalOrder

/-!
# Containment by value

A struct contains by value what its fields hold inline, an enum what its payloads do. The
search for recursive structs goes along the struct fields only, so in a program that passes
containment is well founded unless an enum contains itself.
-/

set_option autoImplicit false

namespace Vani.Analysis

open Vani.Library Vani.Program Relation

/-- The name of a declared type. -/
inductive TypeName
  | struct (name : String)
  | enum (name : String)
  deriving DecidableEq

mutual

/-- The declared types a type holds inline, itself or in its tuples and arrays. -/
def inlineNames : Ty → List TypeName
  | .struct name => [.struct name]
  | .enum name => [.enum name]
  | .tuple elements => inlineNamesAll elements
  | .array element _ => inlineNames element
  | _ => []

def inlineNamesAll : List Ty → List TypeName
  | [] => []
  | t :: ts => inlineNames t ++ inlineNamesAll ts

end

/-- The types of the fields of a struct, or of the payloads of an enum. -/
def componentTypes (p : TypeDecls) : TypeName → List Ty
  | .struct name =>
    (p.structs.filter (·.name = name)).flatMap fun decl => decl.fields.map Prod.snd
  | .enum name =>
    (p.enums.filter (·.name = name)).flatMap fun decl => decl.variants.flatMap (·.payload)

/-- `a` contains `b` by value. -/
def Contains (p : TypeDecls) (a b : TypeName) : Prop :=
  ∃ ty ∈ componentTypes p a, b ∈ inlineNames ty

variable {p : TypeDecls}

/-! ## The search -/

section Search

variable {deps : String → List String} {visited : List String}

/-- A way down along dependencies comes to an end. -/
abbrev Grounded (deps : String → List String) (name : String) : Prop :=
  Acc (fun d n => d ∈ deps n) name

theorem visitDeps_grounded {visit : String → List String → List String →
      Outcome (Bool × List String × List String)}
    (hvisit : ∀ d stack visited s v, visit d stack visited = .done (false, s, v) →
      (∀ x ∈ visited, Grounded deps x) → (∀ x ∈ v, Grounded deps x) ∧ d ∈ v ∧ visited ⊆ v)
    {ds stack s v : List String} (hrun : visitDeps visit ds stack visited = .done (false, s, v))
    (h : ∀ x ∈ visited, Grounded deps x) :
    (∀ x ∈ v, Grounded deps x) ∧ (∀ d ∈ ds, d ∈ v) ∧ visited ⊆ v := by
  induction ds generalizing stack visited with
  | nil =>
    cases hrun
    exact ⟨h, fun d hd => (List.not_mem_nil hd).elim, fun _ => id⟩
  | cons d ds ih =>
    simp only [visitDeps] at hrun
    by_cases hd : d ∈ visited
    · rw [if_pos hd] at hrun
      obtain ⟨hall, hmem, hsub⟩ := ih hrun h
      refine ⟨hall, fun x hx => ?_, hsub⟩
      rcases List.mem_cons.mp hx with rfl | hx
      · exact hsub hd
      · exact hmem x hx
    · rw [if_neg hd] at hrun
      obtain ⟨⟨cycle, stack', visited'⟩, hv, hrun⟩ := Outcome.bind_eq_done hrun
      cases cycle with
      | true => cases hrun
      | false =>
        obtain ⟨hall', hd', hsub'⟩ := hvisit d stack visited stack' visited' hv h
        obtain ⟨hall, hmem, hsub⟩ := ih hrun hall'
        refine ⟨hall, fun x hx => ?_, fun x hx => hsub (hsub' hx)⟩
        rcases List.mem_cons.mp hx with rfl | hx
        · exact hsub hd'
        · exact hmem x hx

/-- What the search has visited without finding a cycle leads to none. -/
theorem hasCycle_grounded {fuel : Nat} {name : String} {stack s v : List String}
    (hrun : hasCycle deps fuel name stack visited = .done (false, s, v))
    (h : ∀ x ∈ visited, Grounded deps x) :
    (∀ x ∈ v, Grounded deps x) ∧ name ∈ v ∧ visited ⊆ v := by
  induction fuel generalizing name stack visited s v with
  | zero => cases hrun
  | succ fuel ih =>
    simp only [hasCycle] at hrun
    by_cases hstack : name ∈ stack
    · rw [if_pos hstack] at hrun
      cases hrun
    · rw [if_neg hstack] at hrun
      obtain ⟨⟨cycle, stack', visited'⟩, hdeps, hrun⟩ := Outcome.bind_eq_done hrun
      cases cycle with
      | true => cases hrun
      | false =>
        cases hrun
        obtain ⟨hall, hmem, hsub⟩ := visitDeps_grounded
          (fun d stack visited s v hv hvis => ih hv hvis) hdeps h
        have hname : Grounded deps name := Acc.intro name fun d hd => hall d (hmem d hd)
        refine ⟨fun x hx => ?_, List.mem_cons_self, fun x hx => List.mem_cons_of_mem _ (hsub hx)⟩
        rcases List.mem_cons.mp hx with rfl | hx
        · exact hname
        · exact hall x hx

theorem recursiveStructs_grounded {depth : Nat} {structs : List StructDecl}
    (hrun : recursiveStructs deps depth structs visited = .done [])
    (h : ∀ x ∈ visited, Grounded deps x) : ∀ decl ∈ structs, Grounded deps decl.name := by
  induction structs generalizing visited with
  | nil => exact fun decl hd => (List.not_mem_nil hd).elim
  | cons decl rest ih =>
    simp only [recursiveStructs] at hrun
    by_cases hvis : decl.name ∈ visited
    · rw [if_pos hvis] at hrun
      intro d hd
      rcases List.mem_cons.mp hd with rfl | hd
      · exact h _ hvis
      · exact ih hrun h d hd
    · rw [if_neg hvis] at hrun
      obtain ⟨⟨cycle, stack', visited'⟩, hcycle, hrun⟩ := Outcome.bind_eq_done hrun
      obtain ⟨messages, hrest, hrun⟩ := Outcome.bind_eq_done hrun
      cases cycle with
      | true => cases hrun
      | false =>
        cases hrun
        obtain ⟨hall, hmem, -⟩ := hasCycle_grounded hcycle h
        intro d hd
        rcases List.mem_cons.mp hd with rfl | hd
        · exact hall _ hmem
        · exact ih hrest hall d hd

/-- The loop over the dependencies ends if every visit does. -/
theorem visitDeps_done {visit : String → List String → List String →
      Outcome (Bool × List String × List String)} {ds stack : List String}
    (hvisit : ∀ d ∈ ds, ∀ visited, ∃ c s v, visit d stack visited = .done (c, s, v) ∧
      (c = false → s = stack)) (visited : List String) :
    ∃ c s v, visitDeps visit ds stack visited = .done (c, s, v) ∧ (c = false → s = stack) := by
  induction ds generalizing visited with
  | nil => exact ⟨false, stack, visited, rfl, fun _ => rfl⟩
  | cons d ds ih =>
    have hrest := ih fun d hd => hvisit d (List.mem_cons_of_mem _ hd)
    by_cases hd : d ∈ visited
    · obtain ⟨c, s, v, hrun, hs⟩ := hrest visited
      exact ⟨c, s, v, by simp only [visitDeps, if_pos hd, hrun], hs⟩
    · obtain ⟨c, s, v, hrun, hs⟩ := hvisit d List.mem_cons_self visited
      cases c with
      | true =>
        refine ⟨true, s, v, ?_, fun hc => by cases hc⟩
        simp only [visitDeps, if_neg hd, hrun, Outcome.done_bind, if_true, Outcome.pure_eq]
      | false =>
        obtain ⟨c', s', v', hrun', hs'⟩ := hrest v
        refine ⟨c', s', v', ?_, hs'⟩
        simp only [visitDeps, if_neg hd, hrun, Outcome.done_bind, Bool.false_eq_true, if_false,
          hs rfl, hrun']

/-- The search ends: the stack holds different structs, so its depth is bounded by their
number. -/
theorem hasCycle_done {names : List String} (hdeps : ∀ n, ∀ d ∈ deps n, d ∈ names)
    {fuel : Nat} {name : String} {stack : List String} (hname : name ∈ names)
    (hstack : stack ⊆ names) (hnodup : stack.Nodup)
    (hfuel : names.length < fuel + stack.length) (visited : List String) :
    ∃ c s v, hasCycle deps fuel name stack visited = .done (c, s, v) ∧
      (c = false → s = stack) := by
  induction fuel generalizing name stack visited with
  | zero =>
    have hle := (List.subperm_of_subset hnodup hstack).length_le
    omega
  | succ fuel ih =>
    by_cases hmem : name ∈ stack
    · refine ⟨true, stack, visited, ?_, fun hc => by cases hc⟩
      simp only [hasCycle, if_pos hmem, Outcome.pure_eq]
    · obtain ⟨c, s, v, hrun, hs⟩ := visitDeps_done 
        (fun d hd visited => ih (hdeps name d hd) (List.cons_subset.mpr ⟨hname, hstack⟩)
          (List.nodup_cons.mpr ⟨hmem, hnodup⟩) (by rw [List.length_cons]; omega) visited) visited
      cases c with
      | true =>
        refine ⟨true, s, v, ?_, fun hc => by cases hc⟩
        simp only [hasCycle, if_neg hmem, hrun, Outcome.done_bind, if_true, Outcome.pure_eq]
      | false =>
        refine ⟨false, s.erase name, name :: v, ?_, fun _ => ?_⟩
        · simp only [hasCycle, if_neg hmem, hrun, Outcome.done_bind, Bool.false_eq_true, if_false,
            Outcome.pure_eq]
        · rw [hs rfl, List.erase_cons_head]

theorem recursiveStructs_done {names : List String}
    (hdeps : ∀ n, ∀ d ∈ deps n, d ∈ names) {structs : List StructDecl}
    (hnames : ∀ decl ∈ structs, decl.name ∈ names) (visited : List String) :
    ∃ messages, recursiveStructs deps (names.length + 1) structs visited = .done messages := by
  induction structs generalizing visited with
  | nil => exact ⟨[], rfl⟩
  | cons decl rest ih =>
    have hrest := ih fun d hd => hnames d (List.mem_cons_of_mem _ hd)
    by_cases hvis : decl.name ∈ visited
    · obtain ⟨messages, hrun⟩ := hrest visited
      exact ⟨messages, by simp only [recursiveStructs, if_pos hvis, hrun]⟩
    · have hdepth : names.length < names.length + 1 + ([] : List String).length :=
        Nat.lt_succ_self _
      obtain ⟨c, s, v, hrun, -⟩ := hasCycle_done hdeps (hnames decl List.mem_cons_self)
        (List.nil_subset _) List.nodup_nil hdepth visited
      obtain ⟨messages, hrun'⟩ := hrest v
      refine ⟨if c then recursiveMessage decl.name :: messages else messages, ?_⟩
      simp only [recursiveStructs, if_neg hvis, hrun, Outcome.done_bind, hrun', Outcome.pure_eq]

end Search

/-! ## The dependencies of a struct -/

mutual

theorem mem_directStructDeps (n : String) :
    ∀ ty : Ty, n ∈ directStructDeps ty ↔ TypeName.struct n ∈ inlineNames ty
  | .struct name => by simp [directStructDeps, inlineNames]
  | .tuple elements => mem_directStructDepsAll n elements
  | .array element _ => mem_directStructDeps n element
  | .enum name => by simp [directStructDeps, inlineNames]
  | .int _ | .float _ | .bool | .str | .ownedStr | .vec _ | .apply _ _ | .param _ | .ref _
  | .refMut _ | .task | .atomic _ | .channel _ _ | .mutex _ | .guard _ | .fnPtr _ _
  | .object _ | .condvar | .deque _ | .hashSet _ | .hashMap _ _ | .bTreeSet _ | .bTreeMap _ _
  | .unionFind | .binaryHeap _ | .bloomFilter | .bst _ | .graph | .trie | .skipList => by
    simp [directStructDeps, inlineNames]

theorem mem_directStructDepsAll (n : String) :
    ∀ ts : List Ty, n ∈ directStructDepsAll ts ↔ TypeName.struct n ∈ inlineNamesAll ts
  | [] => by simp [directStructDepsAll, inlineNamesAll]
  | t :: ts => by
    rw [directStructDepsAll, inlineNamesAll, List.mem_append, List.mem_append,
      mem_directStructDeps n t, mem_directStructDepsAll n ts]

end

/-- Structs about which there is no message have different names. -/
theorem nodup_of_allStructMessages {r : NonCopy} {earlier : List String}
    {structs : List StructDecl} (h : allStructMessages r earlier structs = []) :
    (structs.map StructDecl.name).Nodup ∧ ∀ decl ∈ structs, decl.name ∉ earlier := by
  induction structs generalizing earlier with
  | nil => exact ⟨List.nodup_nil, fun decl hd => (List.not_mem_nil hd).elim⟩
  | cons decl rest ih =>
    rw [allStructMessages, List.append_eq_nil_iff] at h
    obtain ⟨hdecl, hrest⟩ := h
    obtain ⟨hnodup, hnew⟩ := ih hrest
    have hnotin : decl.name ∉ earlier := by
      intro hmem
      rw [structMessages, if_pos hmem] at hdecl
      exact List.cons_ne_nil _ _ (List.append_eq_nil_iff.mp hdecl).2
    refine ⟨?_, fun d hd => ?_⟩
    · rw [List.map_cons, List.nodup_cons, List.mem_map]
      refine ⟨?_, hnodup⟩
      rintro ⟨d, hd, heq⟩
      exact hnew d hd (by rw [heq]; exact List.mem_append_right _ List.mem_cons_self)
    · rcases List.mem_cons.mp hd with rfl | hd
      · exact hnotin
      · exact fun hmem => hnew d hd (List.mem_append_left _ hmem)

/-- A struct that another one contains is among the dependencies of that. -/
theorem mem_structDeps (hnodup : (p.structs.map StructDecl.name).Nodup) (o : DepOrder)
    {n m : String} (h : Contains p (.struct n) (.struct m)) : m ∈ structDeps p.structs o n := by
  obtain ⟨ty, hty, hm⟩ := h
  rw [componentTypes, List.mem_flatMap] at hty
  obtain ⟨decl, hdecl, hty⟩ := hty
  rw [List.mem_filter, decide_eq_true_eq] at hdecl
  obtain ⟨f, hf, rfl⟩ := List.mem_map.mp hty
  have hfind : p.structs.reverse.find? (·.name = n) = some decl := by
    cases hfound : p.structs.reverse.find? (·.name = n) with
    | none =>
      have hnone := List.find?_eq_none.mp hfound decl (List.mem_reverse.mpr hdecl.1)
      exact absurd (decide_eq_true hdecl.2) hnone
    | some decl' =>
      have hmem' := List.mem_reverse.mp (List.mem_of_find?_eq_some hfound)
      have hname' : decl'.name = n := by simpa using List.find?_some hfound
      rw [List.inj_on_of_nodup_map hnodup hmem' hdecl.1 (hname'.trans hdecl.2.symm)]
  rw [structDeps, hfind]
  dsimp only
  rw [o.mem_iff, List.mem_flatMap]
  exact ⟨f, hf, (mem_directStructDeps m f.2).mpr hm⟩

/-! ## Well-foundedness -/

/-- A type that contains another one is declared. -/
theorem Contains.declared {a b : TypeName} (h : Contains p a b) :
    a ∈ p.structs.map (fun decl => TypeName.struct decl.name) ++
      p.enums.map (fun decl => TypeName.enum decl.name) := by
  obtain ⟨ty, hty, -⟩ := h
  rw [List.mem_append]
  cases a with
  | struct n =>
    obtain ⟨decl, hdecl, -⟩ := List.mem_flatMap.mp hty
    rw [List.mem_filter, decide_eq_true_eq] at hdecl
    exact Or.inl (List.mem_map.mpr ⟨decl, hdecl.1, by rw [hdecl.2]⟩)
  | enum n =>
    obtain ⟨decl, hdecl, -⟩ := List.mem_flatMap.mp hty
    rw [List.mem_filter, decide_eq_true_eq] at hdecl
    exact Or.inr (List.mem_map.mpr ⟨decl, hdecl.1, by rw [hdecl.2]⟩)

/-- Declarations are finite in number, so containment without cycles is well founded. -/
theorem wellFounded_contains_iff (p : TypeDecls) :
    WellFounded (fun b a => Contains p a b) ↔ ∀ a, ¬ TransGen (Contains p) a a := by
  have hdeclared : ∀ a b, Contains p a b → a ∈ p.structs.map (fun decl => TypeName.struct decl.name) ++
      p.enums.map (fun decl => TypeName.enum decl.name) := fun _ _ h => h.declared
  rw [wellFounded_iff_not_cyclic hdeclared]
  exact not_exists

/-- A struct that is grounded is on no cycle, if no enum is. -/
theorem not_cycle_of_grounded (hnodup : (p.structs.map StructDecl.name).Nodup) (o : DepOrder)
    (henum : ∀ e, ¬ TransGen (Contains p) (.enum e) (.enum e)) {n : String}
    (h : Grounded (structDeps p.structs o) n) : ¬ TransGen (Contains p) (.struct n) (.struct n) := by
  induction h with
  | intro n _ ih =>
    intro hcycle
    obtain ⟨b, hb, hback⟩ := TransGen.head'_iff.mp hcycle
    -- the cycle goes on from `b` and comes back to it
    have hcycle' : TransGen (Contains p) b b := TransGen.tail' hback hb
    cases b with
    | enum e => exact henum e hcycle'
    | struct m => exact ih m (mem_structDeps hnodup o hb) hcycle'

/-- In a program that passes, containment by value is well founded exactly if no enum
contains itself. -/
theorem containment_wellFounded_iff (p : TypeDecls) (enums : List String) (o : DepOrder)
    (h : p.Accepted enums o) :
    WellFounded (fun b a => Contains p a b) ↔
      ∀ e, ¬ TransGen (Contains p) (.enum e) (.enum e) := by
  rw [wellFounded_contains_iff]
  refine ⟨fun hacyclic e => hacyclic (.enum e), fun henum a hcycle => ?_⟩
  obtain ⟨r, -, hrun⟩ := Outcome.bind_eq_done h
  obtain ⟨recursive, hrec, hrun⟩ := Outcome.bind_eq_done hrun
  rw [Outcome.pure_eq, Outcome.done.injEq, List.append_eq_nil_iff, List.append_eq_nil_iff] at hrun
  obtain ⟨⟨hstructs, rfl⟩, -⟩ := hrun
  have hnodup := (nodup_of_allStructMessages hstructs).1
  cases a with
  | enum e => exact henum e hcycle
  | struct n =>
    obtain ⟨b, hb, -⟩ := TransGen.head'_iff.mp hcycle
    obtain ⟨ty, hty, -⟩ := hb
    obtain ⟨decl, hdecl, -⟩ := List.mem_flatMap.mp hty
    rw [List.mem_filter, decide_eq_true_eq] at hdecl
    have hgrounded := recursiveStructs_grounded hrec
      (fun x hx => (List.not_mem_nil hx).elim) decl hdecl.1
    rw [hdecl.2] at hgrounded
    exact not_cycle_of_grounded hnodup o henum hgrounded hcycle

/-- A program that passes, with a struct in an enum. -/
def wrappedPoint : TypeDecls :=
  ⟨[⟨"Point", [("x", .int .i64)]⟩], [⟨"Shape", [⟨"At", [.struct "Point"]⟩, ⟨"Nowhere", []⟩]⟩],
    ["main"]⟩

/-- Containment in it is well founded. -/
theorem containment_wellFounded_point :
    wrappedPoint.Accepted [] .found ∧
      (WellFounded (fun b a => Contains wrappedPoint a b) ↔
        ∀ e, ¬ TransGen (Contains wrappedPoint) (.enum e) (.enum e)) :=
  ⟨by rfl, containment_wellFounded_iff wrappedPoint [] .found (by rfl)⟩

/-- A program that passes with an enum whose payload is the enum itself. -/
def selfPayload : TypeDecls :=
  ⟨[], [⟨"E", [⟨"Same", [.enum "E"]⟩, ⟨"End", []⟩]⟩], ["main"]⟩

/-- It contains itself by value. -/
theorem containment_cycle :
    selfPayload.Accepted [] .found ∧ ¬ WellFounded (fun b a => Contains selfPayload a b) := by
  refine ⟨by rfl, fun hwf => ?_⟩
  refine (wellFounded_contains_iff selfPayload).mp hwf (.enum "E") (TransGen.single ?_)
  exact ⟨.enum "E", List.mem_cons_self, List.mem_cons_self⟩

end Vani.Analysis
