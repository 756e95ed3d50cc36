import Vani.Program.Modules

/-!
# The orphan rule on flattened names

An implementation belongs into the module that declares its interface or the module that
declares its type. The check has only flattened names: it takes what stands before the first
`__` of a name for the module, and compares it with the flattened name of the module of the
implementation. The two agree for outermost modules with plain names; a module inside another
one is never recognised, and a name with a `__` of its own is taken for one of a module.
-/

set_option autoImplicit false

namespace Vani.Analysis

open Vani.Program

/-! ## The rule -/

/-- An interface that a header names, and the module of the type it names: the one that
declares it, or the top level for a built-in type. -/
structure Header (t : ModuleTree) (x : PlacedImpl) (iface : Vani.Program.Declared)
    (home : List String) : Prop where
  declared : iface ∈ t.allInterfaces
  named : iface.name = x.impl.interfaceName
  type : match x.typeName with
    | none => home = []
    | some name => ∃ d ∈ t.allTypes, d.name = name ∧ d.path = home

/-- An implementation is accepted if and only if it is in the module of its interface or in
that of its type. -/
def OrphanRule (t : ModuleTree) (reExports : ReExports) : Prop :=
  ∀ x ∈ t.allImpls reExports, ∀ iface home, Header t x iface home →
    (x.impl.isAllowed = true ↔ x.path = iface.path ∨ x.path = home)

/-! ## Names with separators -/

/-- A name has no `__` in it. -/
def Plain (name : String) : Prop := ¬ ['_', '_'] <:+: name.toList

/-- The first `__` after a name is one that follows it: there is none in it, and it does not
end in `_`. -/
def Clean (name : String) : Prop := ¬ ['_', '_'] <:+: name.toList ++ ['_']

/-- A flattened name begins with a name and `__`. -/
def Within (m name : String) : Prop := m.toList ++ ['_', '_'] <+: name.toList

/-- A type is not one of the program's with a `__` in its name. -/
def PlainType : Ty → Prop
  | .struct name | .enum name => Plain name
  | _ => True

/-- A type is one of the program's whose flattened name begins with a name and `__`. -/
def WithinType (m : String) : Ty → Prop
  | .struct name | .enum name => Within m name
  | _ => False

/-- A type is written with type arguments. -/
def IsApplied : Ty → Prop
  | .apply _ _ => True
  | _ => False

/-- The condition for an implementation. At the top level, where it belongs there, one of the
two names has no `__`, and where it does not, the type has no type arguments. In an outermost
module, where it belongs there, the name of the module is clean and begins one of the two
flattened names, and where it does not, it begins neither. In other modules it does not
belong. -/
def Recovered (x : PlacedImpl) (iface : Vani.Program.Declared) (home : List String) : Prop :=
  match x.path with
  | [] =>
    if iface.path = [] ∨ home = [] then Plain iface.name ∨ PlainType x.impl.forType
    else ¬ IsApplied x.impl.forType
  | [m] =>
    if iface.path = [m] ∨ home = [m] then
      Clean m ∧ (Within m iface.name ∨ WithinType m x.impl.forType)
    else Clean m → ¬ (Within m iface.name ∨ WithinType m x.impl.forType)
  | path => ¬ (path = iface.path ∨ path = home)

attribute [local simp] splitOnce

theorem splitOnce_eq_none {s : List Char} (h : splitOnce s = none) : ¬ ['_', '_'] <:+: s := by
  induction s using splitOnce.induct with
  | case1 rest => simp [splitOnce] at h
  | case2 c rest hne ih =>
    rw [splitOnce.eq_2 _ _ hne, Option.map_eq_none_iff] at h
    rw [List.infix_cons_iff]
    rintro (⟨tail, htail⟩ | hin)
    · simp only [List.cons_append, List.nil_append, List.cons.injEq] at htail
      exact hne tail htail.1.symm htail.2.symm
    · exact ih h hin
  | case3 => simp

theorem splitOnce_eq_some {s m rest : List Char} (h : splitOnce s = some (m, rest)) :
    s = m ++ '_' :: '_' :: rest ∧ ¬ ['_', '_'] <:+: m ++ ['_'] := by
  induction s using splitOnce.induct generalizing m with
  | case1 tail =>
    simp only [splitOnce, Option.some.injEq, Prod.mk.injEq] at h
    obtain ⟨rfl, rfl⟩ := h
    refine ⟨rfl, fun hin => ?_⟩
    have hle := hin.length_le
    simp at hle
  | case2 c tail hne ih =>
    rw [splitOnce.eq_2 _ _ hne, Option.map_eq_some_iff] at h
    obtain ⟨⟨m', rest'⟩, hsplit, heq⟩ := h
    simp only [Prod.mk.injEq] at heq
    obtain ⟨rfl, rfl⟩ := heq
    obtain ⟨rfl, hclean⟩ := ih hsplit
    refine ⟨rfl, ?_⟩
    rw [List.cons_append, List.infix_cons_iff]
    rintro (⟨tail, htail⟩ | hin)
    · simp only [List.cons_append, List.nil_append, List.cons.injEq] at htail
      obtain ⟨hc, hm⟩ := htail
      cases m' with
      | nil => exact hne ('_' :: rest') hc.symm rfl
      | cons d m' =>
        simp only [List.cons_append, List.cons.injEq] at hm
        exact hne (m' ++ '_' :: '_' :: rest') hc.symm (by rw [← hm.1]; rfl)
    · exact hclean hin
  | case3 => simp [splitOnce] at h

theorem splitOnce_append {m rest : List Char} (h : ¬ ['_', '_'] <:+: m ++ ['_']) :
    splitOnce (m ++ '_' :: '_' :: rest) = some (m, rest) := by
  induction m with
  | nil => rfl
  | cons c m ih =>
    rw [List.cons_append, List.infix_cons_iff, not_or] at h
    rw [List.cons_append, splitOnce.eq_2, ih h.2]
    · rfl
    · rintro tail rfl htail
      apply h.1
      cases m with
      | nil => exact ⟨[], rfl⟩
      | cons d m =>
        simp only [List.cons_append, List.cons.injEq] at htail
        rw [htail.1]
        exact ⟨m ++ ['_'], rfl⟩

theorem extractHomeModule_eq_none {name : String} :
    extractHomeModule name = none ↔ Plain name := by
  unfold extractHomeModule Plain
  rw [Option.map_eq_none_iff]
  refine ⟨splitOnce_eq_none, fun h => ?_⟩
  cases hsplit : splitOnce name.toList with
  | none => rfl
  | some parts =>
    obtain ⟨m, rest⟩ := parts
    obtain ⟨heq, -⟩ := splitOnce_eq_some hsplit
    exact absurd ⟨m, rest, by simp [heq]⟩ h

theorem extractHomeModule_eq_some {name m : String} :
    extractHomeModule name = some m ↔ Clean m ∧ Within m name := by
  unfold extractHomeModule Clean Within
  rw [Option.map_eq_some_iff]
  constructor
  · rintro ⟨⟨first, rest⟩, hsplit, rfl⟩
    obtain ⟨heq, hclean⟩ := splitOnce_eq_some hsplit
    rw [String.toList_ofList]
    refine ⟨hclean, rest, ?_⟩
    rw [heq]
    simp
  · rintro ⟨hclean, rest, heq⟩
    refine ⟨(m.toList, rest), ?_, String.ofList_toList⟩
    rw [← heq, List.append_assoc]
    exact splitOnce_append hclean

/-! ## Flattened names of modules -/

/-- The flattened name of a module from the names on the way to it. -/
def joined (path : List String) : String := path.foldl pathName ""

theorem joined_append (path : List String) (name : String) :
    joined (path ++ [name]) = pathName (joined path) name := by
  simp [joined]

theorem Within.append {m name : String} (h : Within m name) (rest : String) :
    Within m (name ++ rest) := by
  unfold Within at h ⊢
  rw [String.toList_append]
  exact h.trans (List.prefix_append _ _)

theorem Within.not_plain {m name : String} (h : Within m name) : ¬ Plain name := by
  obtain ⟨rest, heq⟩ := h
  intro hplain
  exact hplain ⟨m.toList, rest, heq⟩

theorem Within.not_clean {m name : String} (h : Within m name) : ¬ Clean name := by
  obtain ⟨rest, heq⟩ := h
  intro hclean
  exact hclean ⟨m.toList, rest ++ ['_'], by simp [← heq]⟩

theorem within_self (m rest : String) : Within m (m ++ "__" ++ rest) := by
  apply Within.append
  unfold Within
  rw [String.toList_append]
  exact List.prefix_rfl

theorem pathName_of_ne {p name : String} (h : p ≠ "") : pathName p name = p ++ "__" ++ name := by
  unfold pathName
  rw [if_neg (by simpa using h)]

theorem Within.ne_empty {m name : String} (h : Within m name) : name ≠ "" := by
  rintro rfl
  have hle := h.length_le
  simp at hle

/-- The name of a module inside others begins with that of the outermost one. -/
theorem within_joined {m : String} (hm : m ≠ "") (n : String) (rest : List String) :
    Within m (joined (m :: n :: rest)) := by
  have hfold : ∀ p, Within m p → Within m (rest.foldl pathName p) := by
    induction rest with
    | nil => exact fun p hp => hp
    | cons k rest ih =>
      intro p hp
      apply ih
      rw [pathName_of_ne hp.ne_empty, String.append_assoc]
      exact hp.append _
  apply hfold
  rw [pathName_of_ne]
  · have hone : pathName "" m = m := rfl
    rw [hone]
    exact within_self m n
  · exact hm

theorem joined_singleton (m : String) : joined [m] = m := rfl

mutual

/-- What the walk through the tree says about a module it comes to. -/
theorem visit_spec (path : List String) (m : ModuleDecl) :
    ∀ s ∈ visit path (joined path) m, s.modName = joined s.path ∧ path ++ [m.name] <+: s.path := by
  cases m with
  | mk name items impls usePaths modules =>
    intro s hs
    unfold visit at hs
    rw [← joined_append] at hs
    rcases List.mem_cons.mp hs with rfl | hs
    · exact ⟨rfl, List.prefix_rfl⟩
    · obtain ⟨hname, d, -, hprefix⟩ := visitAll_spec (path ++ [name]) modules s hs
      exact ⟨hname, (List.prefix_append _ _).trans hprefix⟩

theorem visitAll_spec (path : List String) (ms : List ModuleDecl) :
    ∀ s ∈ visitAll path (joined path) ms,
      s.modName = joined s.path ∧ ∃ d ∈ ms, path ++ [d.name] <+: s.path := by
  cases ms with
  | nil =>
    intro s hs
    simp [visitAll] at hs
  | cons m ms =>
    intro s hs
    unfold visitAll at hs
    rcases List.mem_append.mp hs with hs | hs
    · obtain ⟨hname, d, hd, hprefix⟩ := visitAll_spec path ms s hs
      exact ⟨hname, d, List.mem_cons_of_mem m hd, hprefix⟩
    · obtain ⟨hname, hprefix⟩ := visit_spec path m s hs
      exact ⟨hname, m, List.mem_cons_self, hprefix⟩

end

section Tree

variable {t : ModuleTree} {reExports : ReExports}

theorem mem_scopes (hnames : ∀ d ∈ t.modules, d.name ≠ "") {s : Scope} (hs : s ∈ t.scopes) :
    s.modName = joined s.path ∧ ∃ m rest, s.path = m :: rest ∧ m ≠ "" := by
  obtain ⟨hname, d, hd, rest, hprefix⟩ := visitAll_spec [] t.modules s hs
  exact ⟨hname, d.name, rest, hprefix.symm, hnames d hd⟩

/-- An item of a module has the name of the module in front. -/
theorem qualify_item {s : Scope} {i : Item} (hi : i ∈ s.decl.items.all) :
    ∃ rest, s.qualify i.name = s.modName ++ "__" ++ rest := by
  have hfound : ∃ isPub, s.visibility i.name = some isPub := by
    unfold Scope.visibility
    cases hfind : s.decl.items.all.reverse.find? fun item => item.name == i.name with
    | none =>
      rw [List.find?_eq_none] at hfind
      exact absurd (beq_self_eq_true i.name) (hfind i (List.mem_reverse.mpr hi))
    | some item => exact ⟨item.isPub, rfl⟩
  obtain ⟨isPub, hpub⟩ := hfound
  unfold Scope.qualify
  rw [hpub]
  cases isPub with
  | true => exact ⟨i.name, rfl⟩
  | false =>
    refine ⟨"priv__" ++ i.name, ?_⟩
    have hpriv : "__priv__" = "__" ++ "priv__" := rfl
    rw [hpriv]
    simp only [String.append_assoc]

/-- A declared item is at the top level, or its name begins with that of an outermost module. -/
theorem declared_cases (hnames : ∀ d ∈ t.modules, d.name ≠ "") {top : List String}
    {kind : ModuleItems → List Item} (hkind : ∀ items, ∀ i ∈ kind items, i ∈ items.all)
    {d : Vani.Program.Declared} (hd : d ∈ t.declared top kind) :
    d.path = [] ∨ ∃ m rest, d.path = m :: rest ∧ Within m d.name := by
  unfold ModuleTree.declared at hd
  rcases List.mem_append.mp hd with hd | hd
  · obtain ⟨name, -, rfl⟩ := List.mem_map.mp hd
    exact Or.inl rfl
  · obtain ⟨s, hs, hd⟩ := List.mem_flatMap.mp hd
    obtain ⟨i, hi, rfl⟩ := List.mem_map.mp hd
    obtain ⟨hname, m, rest, hpath, hm⟩ := mem_scopes hnames hs
    obtain ⟨tail, htail⟩ := qualify_item (hkind _ i hi)
    refine Or.inr ⟨m, rest, hpath, ?_⟩
    dsimp only
    rw [htail, hname, hpath]
    cases rest with
    | nil => exact within_self m tail
    | cons n rest =>
      rw [String.append_assoc]
      exact (within_joined hm n rest).append _

theorem allInterfaces_cases (hnames : ∀ d ∈ t.modules, d.name ≠ "") {d : Vani.Program.Declared}
    (hd : d ∈ t.allInterfaces) : d.path = [] ∨ ∃ m rest, d.path = m :: rest ∧ Within m d.name := by
  apply declared_cases hnames _ hd
  simp +contextual [ModuleItems.all]

theorem allTypes_cases (hnames : ∀ d ∈ t.modules, d.name ≠ "") {d : Vani.Program.Declared}
    (hd : d ∈ t.allTypes) : d.path = [] ∨ ∃ m rest, d.path = m :: rest ∧ Within m d.name := by
  unfold ModuleTree.allTypes at hd
  rw [List.mem_append, List.mem_append] at hd
  rcases hd with (hd | hd) | hd
  all_goals
    apply declared_cases hnames _ hd
    simp +contextual [ModuleItems.all]

/-! ## The check -/

/-- The module of the type as the check sees it. -/
theorem typeHome_eq_none {imp : ImplDecl} : imp.typeHome = none ↔ PlainType imp.forType := by
  unfold ImplDecl.typeHome PlainType
  cases imp.forType with
  | struct name => exact extractHomeModule_eq_none
  | enum name => exact extractHomeModule_eq_none
  | _ => simp

theorem typeHome_eq_some {imp : ImplDecl} {m : String} :
    imp.typeHome = some m ↔ Clean m ∧ WithinType m imp.forType := by
  unfold ImplDecl.typeHome WithinType
  cases imp.forType with
  | struct name => exact extractHomeModule_eq_some
  | enum name => exact extractHomeModule_eq_some
  | _ => simp

/-- The last two clauses of the check add nothing to the first two. -/
theorem isAllowed_iff (imp : ImplDecl) :
    imp.isAllowed = true ↔ imp.homeModule = imp.ifaceHome ∨ imp.homeModule = imp.typeHome := by
  unfold ImplDecl.isAllowed
  cases imp.homeModule <;> cases imp.ifaceHome <;> cases imp.typeHome <;> simp

theorem isAllowed_top {imp : ImplDecl} (h : imp.homeModule = none) :
    imp.isAllowed = true ↔ Plain imp.interfaceName ∨ PlainType imp.forType := by
  rw [isAllowed_iff, h, eq_comm, extractHomeModule_eq_none.symm, ← typeHome_eq_none]
  exact or_congr Iff.rfl eq_comm

theorem isAllowed_module {imp : ImplDecl} {m : String} (h : imp.homeModule = some m) :
    imp.isAllowed = true ↔
      Clean m ∧ (Within m imp.interfaceName ∨ WithinType m imp.forType) := by
  rw [isAllowed_iff, h, eq_comm, and_or_left, ← typeHome_eq_some, ← extractHomeModule_eq_some]
  exact or_congr Iff.rfl eq_comm

/-- What flattening does to a header. -/
theorem flattenImpl_type (path : List String) (home : Option String) (qualify : String → String)
    (imp : ImplDecl) :
    match (ModuleTree.flattenImpl reExports path home qualify imp).impl.forType with
    | .struct name | .enum name =>
      (ModuleTree.flattenImpl reExports path home qualify imp).typeName = some name
    | .apply _ _ => True
    | _ => (ModuleTree.flattenImpl reExports path home qualify imp).typeName = none := by
  unfold ModuleTree.flattenImpl
  cases imp.forType <;> simp [Ty.rewrite, Ty.nominal]

/-- An implementation of the flattened program has the name of its module. -/
theorem mem_allImpls (hnames : ∀ d ∈ t.modules, d.name ≠ "") {x : PlacedImpl}
    (hx : x ∈ t.allImpls reExports) :
    ((x.path = [] ∧ x.impl.homeModule = none) ∨
      ∃ m rest, x.path = m :: rest ∧ m ≠ "" ∧ x.impl.homeModule = some (joined x.path)) ∧
      match x.impl.forType with
      | .struct name | .enum name => x.typeName = some name
      | .apply _ _ => True
      | _ => x.typeName = none := by
  unfold ModuleTree.allImpls at hx
  rcases List.mem_append.mp hx with hx | hx
  · obtain ⟨imp, -, rfl⟩ := List.mem_map.mp hx
    exact ⟨Or.inl ⟨rfl, rfl⟩, flattenImpl_type _ _ _ imp⟩
  · obtain ⟨s, hs, hx⟩ := List.mem_flatMap.mp hx
    obtain ⟨imp, -, rfl⟩ := List.mem_map.mp hx
    obtain ⟨hname, m, rest, hpath, hm⟩ := mem_scopes hnames hs
    exact ⟨Or.inr ⟨m, rest, hpath, hm, congrArg some hname⟩, flattenImpl_type _ _ _ imp⟩

/-- A type that is not declared at the top level has a `__` in its flattened name. -/
theorem Header.plainType (hnames : ∀ d ∈ t.modules, d.name ≠ "") {x : PlacedImpl}
    (hx : x ∈ t.allImpls reExports) {iface : Vani.Program.Declared} {home : List String}
    (h : Header t x iface home) (hhome : home ≠ []) :
    PlainType x.impl.forType ↔ IsApplied x.impl.forType := by
  have hshape := (mem_allImpls hnames hx).2
  have hnominal : ∀ name, x.typeName = some name → ¬ Plain name := by
    intro name hname
    have htype := h.type
    rw [hname] at htype
    obtain ⟨d, hd, rfl, rfl⟩ := htype
    rcases allTypes_cases hnames hd with hnil | ⟨m, rest, -, hwithin⟩
    · exact absurd hnil hhome
    · exact hwithin.not_plain
  have hbuiltin : x.typeName ≠ none := by
    intro hnone
    have htype := h.type
    rw [hnone] at htype
    exact hhome htype
  unfold PlainType IsApplied
  split at hshape
  · next hty => simp [hty, hnominal _ hshape]
  · next hty => simp [hty, hnominal _ hshape]
  · next hty => simp [hty]
  · exact absurd hshape hbuiltin

/-- One implementation is judged as it should be exactly if its condition holds. -/
theorem isAllowed_iff_recovered (hnames : ∀ d ∈ t.modules, d.name ≠ "") {x : PlacedImpl}
    (hx : x ∈ t.allImpls reExports) {iface : Vani.Program.Declared} {home : List String}
    (h : Header t x iface home) :
    (x.impl.isAllowed = true ↔ x.path = iface.path ∨ x.path = home) ↔ Recovered x iface home := by
  have hiface := allInterfaces_cases hnames h.declared
  rcases (mem_allImpls hnames hx).1 with ⟨hpath, htop⟩ | ⟨m, rest, hpath, hm, hmodule⟩
  · rw [isAllowed_top htop, ← h.named]
    unfold Recovered
    simp only [hpath]
    by_cases howner : iface.path = [] ∨ home = []
    · rw [if_pos howner]
      have htrue : ([] = iface.path ∨ [] = home) ↔ True := by
        simpa [eq_comm] using howner
      rw [htrue, iff_true]
    · rw [if_neg howner]
      have hfalse : ([] = iface.path ∨ [] = home) ↔ False := by
        simpa [eq_comm] using howner
      rw [not_or] at howner
      have hnot : ¬ Plain iface.name := by
        rcases hiface with hnil | ⟨m, rest, -, hwithin⟩
        · exact absurd hnil howner.1
        · exact hwithin.not_plain
      rw [hfalse, iff_false, h.plainType hnames hx howner.2, not_or]
      exact ⟨fun hor => hor.2, fun happ => ⟨hnot, happ⟩⟩
  · rw [isAllowed_module hmodule, ← h.named]
    unfold Recovered
    cases rest with
    | nil =>
      simp only [hpath, joined_singleton]
      by_cases howner : iface.path = [m] ∨ home = [m]
      · rw [if_pos howner]
        have htrue : ([m] = iface.path ∨ [m] = home) ↔ True := by
          simpa [eq_comm] using howner
        rw [htrue, iff_true]
      · rw [if_neg howner]
        have hfalse : ([m] = iface.path ∨ [m] = home) ↔ False := by
          simpa [eq_comm] using howner
        rw [hfalse, iff_false, not_and]
    | cons n rest =>
      have hclean : ¬ Clean (joined (m :: n :: rest)) := (within_joined hm n rest).not_clean
      simp only [hpath]
      constructor
      · intro hiff howner
        exact hclean (hiff.mpr howner).1
      · intro hnot
        exact ⟨fun hleft => absurd hleft.1 hclean, fun howner => absurd howner hnot⟩

/-- Implementations are accepted in the module of their interface and in that of their type,
and nowhere else, if and only if every module that matters can be read back from the flattened
names. -/
theorem orphanRule_iff (t : ModuleTree) (reExports : ReExports)
    (hnames : ∀ d ∈ t.modules, d.name ≠ "") :
    OrphanRule t reExports ↔ ∀ x ∈ t.allImpls reExports, ∀ iface home,
      Header t x iface home → Recovered x iface home := by
  constructor
  · intro h x hx iface home hheader
    exact (isAllowed_iff_recovered hnames hx hheader).mp (h x hx iface home hheader)
  · intro h x hx iface home hheader
    exact (isAllowed_iff_recovered hnames hx hheader).mpr (h x hx iface home hheader)

end Tree

/-! ## A module inside another one -/

/-- `module outer { module inner { pub interface Shape, pub struct Point, and
implement Shape for Point } }` -/
def nestedShapes : ModuleTree where
  structs := []
  enums := []
  interfaces := []
  typeAliases := []
  impls := []
  modules := [.mk "outer" ⟨[], [], [], [], [], []⟩ [] []
    [.mk "inner" ⟨[], [⟨"Point", true⟩], [], [⟨"Shape", true⟩], [], []⟩
      [⟨"Shape", .struct "Point", none⟩] [] []]]

theorem orphanRule_nestedShapes :
    OrphanRule nestedShapes ∅ ↔ ∀ x ∈ nestedShapes.allImpls ∅, ∀ iface home,
      Header nestedShapes x iface home → Recovered x iface home :=
  orphanRule_iff nestedShapes ∅ (by simp [nestedShapes, ModuleDecl.name])

/-- The implementation is in the module of its interface and of its type, and is rejected. -/
theorem nestedShapes_refutes :
    (∀ d ∈ nestedShapes.modules, d.name ≠ "") ∧ ¬ OrphanRule nestedShapes ∅ := by
  refine ⟨by simp [nestedShapes, ModuleDecl.name], fun h => ?_⟩
  let x : PlacedImpl := ⟨["outer", "inner"],
    ⟨"outer__inner__Shape", .struct "outer__inner__Point", some "outer__inner"⟩,
    some "outer__inner__Point"⟩
  have himpls : nestedShapes.allImpls ∅ = [x] := by rfl
  have hifaces : nestedShapes.allInterfaces = [⟨["outer", "inner"], "outer__inner__Shape"⟩] := by
    rfl
  have htypes : nestedShapes.allTypes = [⟨["outer", "inner"], "outer__inner__Point"⟩] := by rfl
  have hheader : Header nestedShapes x ⟨["outer", "inner"], "outer__inner__Shape"⟩
      ["outer", "inner"] := by
    refine ⟨by simp [hifaces], rfl, ⟨["outer", "inner"], "outer__inner__Point"⟩, ?_, rfl, rfl⟩
    simp [htypes]
  have hiff := h x (by simp [himpls]) _ _ hheader
  have hallowed := hiff.mpr (Or.inl rfl)
  revert hallowed
  decide

end Vani.Analysis
