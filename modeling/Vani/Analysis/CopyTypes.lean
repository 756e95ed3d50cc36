import Vani.Analysis.TypeContainment

/-!
# Which types are Copy

The checker takes down the structs that are not `Copy` in passes over the declarations until
a pass finds no more, then the structs with a `Drop` of their own, then the enums. The order
of the declarations plays no part in what the passes come to. An array is never `Copy`, also
one that owns nothing.
-/

set_option autoImplicit false

namespace Vani.Analysis

open Vani.Library Vani.Program Relation

/-! ## Owning types -/

/-- The built-in types whose values own a resource. -/
def ownsResource : Ty → Bool
  | .vec _ | .ownedStr | .task | .atomic _ | .channel _ _ | .mutex _ | .guard _
  | .condvar | .deque _ | .hashSet _ | .hashMap _ _ | .bTreeSet _ | .bTreeMap _ _ | .unionFind
  | .binaryHeap _ | .bloomFilter | .bst _ | .graph | .trie | .skipList => true
  | _ => false

def isArray : Ty → Bool
  | .array _ _ => true
  | _ => false

/-- A struct or enum has a `Drop` of its own. -/
def HasDrop (p : TypeDecls) : Ty → Prop
  | .struct name | .enum name => name ++ "_drop" ∈ p.functions
  | _ => False

/-- What a type is made of by value. -/
inductive Part (p : TypeDecls) : Ty → Ty → Prop
  | element {elements : List Ty} {t : Ty} (h : t ∈ elements) : Part p (.tuple elements) t
  | cell (t : Ty) (n : Nat) : Part p (.array t n) t
  | field {decl : StructDecl} {f : String × Ty} (h : decl ∈ p.structs) (hf : f ∈ decl.fields) :
    Part p (.struct decl.name) f.2
  | payload {decl : EnumDecl} {v : EnumVariant} {t : Ty} (h : decl ∈ p.enums)
    (hv : v ∈ decl.variants) (ht : t ∈ v.payload) : Part p (.enum decl.name) t

/-- A type owns something: it or a part of it, at any depth, owns a resource or has a `Drop`
of its own. -/
def Owns (p : TypeDecls) (ty : Ty) : Prop :=
  ∃ t, ReflTransGen (Part p) ty t ∧ (ownsResource t = true ∨ HasDrop p t)

/-- A type owns something or holds an array. -/
def OwnsOrHoldsArray (p : TypeDecls) (ty : Ty) : Prop :=
  ∃ t, ReflTransGen (Part p) ty t ∧ (ownsResource t = true ∨ isArray t = true ∨ HasDrop p t)

variable {p : TypeDecls} {r : NonCopy} {structs : List StructDecl} {enums : List String}

theorem OwnsOrHoldsArray.of_part {ty t : Ty} (h : OwnsOrHoldsArray p t) (hpart : Part p ty t) :
    OwnsOrHoldsArray p ty := by
  obtain ⟨u, hu, howns⟩ := h
  exact ⟨u, ReflTransGen.head hpart hu, howns⟩

attribute [local simp] Ty.isCopy ownsResource isArray

/-- A type that is neither a struct nor an enum is `Copy` by its kind. -/
theorem isCopy_eq_false_cases {ty : Ty} (h : ty.isCopy r = false) :
    ownsResource ty = true ∨ isArray ty = true ∨ (∃ n, ty = .struct n ∧ n ∈ r.structs) ∨
      ∃ n, ty = .enum n ∧ n ∈ r.enums := by
  cases ty <;> simp_all [Ty.isCopy, ownsResource, isArray]

theorem not_owns_of_isCopy {ty : Ty} (h : ty.isCopy r = true) :
    ownsResource ty = false ∧ isArray ty = false := by
  cases ty <;> simp_all [Ty.isCopy, ownsResource, isArray]

/-! ## The passes over the structs -/

/-- A struct has a field that is not `Copy`. -/
def HasOwningField (r : NonCopy) (decl : StructDecl) : Prop :=
  ∃ f ∈ decl.fields, f.2.isCopy r = false

/-- One pass takes down the structs with such a field, says whether there was a new one, and
takes down no other. -/
theorem markStruct_pass (structs : List StructDecl) (r : NonCopy) (l : List String)
    (changed : Bool) :
    (∀ n, n ∈ (structs.foldl (markStruct r) (l, changed)).1 ↔
      n ∈ l ∨ ∃ decl ∈ structs, decl.name = n ∧ HasOwningField r decl) ∧
    ((structs.foldl (markStruct r) (l, changed)).2 = false →
      changed = false ∧ (structs.foldl (markStruct r) (l, changed)).1 = l) ∧
    ((structs.foldl (markStruct r) (l, changed)).2 = true →
      changed = true ∨ ∃ decl ∈ structs, decl.name ∉ l ∧ HasOwningField r decl) := by
  induction structs generalizing l changed with
  | nil => simp
  | cons decl rest ih =>
    rw [List.foldl_cons]
    have hfields : (decl.fields.any fun f => !f.2.isCopy r) = true ↔ HasOwningField r decl := by
      simp [HasOwningField, List.any_eq_true]
    by_cases hmem : decl.name ∈ l
    · rw [markStruct, if_pos hmem]
      obtain ⟨hin, hno, hyes⟩ := ih l changed
      refine ⟨fun n => ?_, hno, fun h => (hyes h).imp_right ?_⟩
      · rw [hin]
        constructor
        · exact Or.imp_right fun ⟨d, hd, h⟩ => ⟨d, List.mem_cons_of_mem _ hd, h⟩
        · rintro (h | ⟨d, hd, rfl, h⟩)
          · exact Or.inl h
          · rcases List.mem_cons.mp hd with rfl | hd
            · exact Or.inl hmem
            · exact Or.inr ⟨d, hd, rfl, h⟩
      · exact fun ⟨d, hd, h⟩ => ⟨d, List.mem_cons_of_mem _ hd, h⟩
    · by_cases hown : HasOwningField r decl
      · rw [markStruct, if_neg hmem, if_pos (hfields.mpr hown)]
        obtain ⟨hin, hno, -⟩ := ih (l ++ [decl.name]) true
        refine ⟨fun n => ?_, fun h => ?_, fun _ => Or.inr ⟨decl, List.mem_cons_self, hmem, hown⟩⟩
        · rw [hin, List.mem_append, List.mem_singleton]
          constructor
          · rintro ((h | rfl) | ⟨d, hd, h⟩)
            · exact Or.inl h
            · exact Or.inr ⟨decl, List.mem_cons_self, rfl, hown⟩
            · exact Or.inr ⟨d, List.mem_cons_of_mem _ hd, h⟩
          · rintro (h | ⟨d, hd, rfl, h⟩)
            · exact Or.inl (Or.inl h)
            · rcases List.mem_cons.mp hd with rfl | hd
              · exact Or.inl (Or.inr rfl)
              · exact Or.inr ⟨d, hd, rfl, h⟩
        · cases (hno h).1
      · rw [markStruct, if_neg hmem, if_neg (fun h => hown (hfields.mp h))]
        obtain ⟨hin, hno, hyes⟩ := ih l changed
        refine ⟨fun n => ?_, hno, fun h => (hyes h).imp_right ?_⟩
        · rw [hin]
          constructor
          · exact Or.imp_right fun ⟨d, hd, h⟩ => ⟨d, List.mem_cons_of_mem _ hd, h⟩
          · rintro (h | ⟨d, hd, rfl, h⟩)
            · exact Or.inl h
            · rcases List.mem_cons.mp hd with rfl | hd
              · exact absurd h hown
              · exact Or.inr ⟨d, hd, rfl, h⟩
        · exact fun ⟨d, hd, h⟩ => ⟨d, List.mem_cons_of_mem _ hd, h⟩

/-- How many structs have not been taken down. -/
def unmarked (structs : List StructDecl) (l : List String) : Nat :=
  structs.countP fun decl => decide (decl.name ∉ l)

theorem unmarked_lt {l l' : List String} (hsub : ∀ n ∈ l, n ∈ l') {decl : StructDecl}
    (hdecl : decl ∈ structs) (hnew : decl.name ∉ l) (hnow : decl.name ∈ l') :
    unmarked structs l' < unmarked structs l := by
  unfold unmarked
  calc structs.countP (fun d => decide (d.name ∉ l'))
      = (structs.filter fun d => decide (d.name ∉ l)).countP fun d => decide (d.name ∉ l') := by
        rw [List.countP_filter]
        refine List.countP_congr fun d _ => ?_
        simp only [Bool.and_eq_true, decide_eq_true_eq]
        exact ⟨fun h => ⟨h, fun hl => h (hsub _ hl)⟩, And.left⟩
    _ < (structs.filter fun d => decide (d.name ∉ l)).length := by
        refine List.countP_lt_length_iff.mpr ⟨decl, ?_, decide_eq_false (not_not.mpr hnow)⟩
        exact List.mem_filter.mpr ⟨hdecl, decide_eq_true hnew⟩
    _ = structs.countP fun d => decide (d.name ∉ l) := List.countP_eq_length_filter.symm

/-- The passes end with a list that is closed: no other struct has a field that is not
`Copy`. What holds of every struct taken down by a pass holds of all in the list. -/
theorem markLoop_done (structs : List StructDecl) (enums : List String) (Q : String → Prop)
    (hQ : ∀ l, (∀ n ∈ l, Q n) → ∀ decl ∈ structs, HasOwningField ⟨l, enums⟩ decl → Q decl.name) :
    ∃ l, Outcome.loop (markTurn structs enums) (structs.length + 1) [] = .done l ∧
      (∀ n ∈ l, Q n) ∧ ∀ decl ∈ structs, HasOwningField ⟨l, enums⟩ decl → decl.name ∈ l := by
  refine Outcome.loop_of_measure (fun l => ∀ n ∈ l, Q n) (unmarked structs)
    (Nat.lt_succ_of_le List.countP_le_length) (fun n hn => (List.not_mem_nil hn).elim) ?_
  intro l hl
  obtain ⟨hin, hno, hyes⟩ := markStruct_pass structs ⟨l, enums⟩ l false
  cases hc : (structs.foldl (markStruct ⟨l, enums⟩) (l, false)).2 with
  | false =>
    obtain ⟨-, hsame⟩ := hno hc
    refine Or.inr ⟨l, ?_, hl, fun decl hdecl hown => ?_⟩
    · simp only [markTurn, hc, hsame, Bool.false_eq_true, if_false, Outcome.pure_eq]
    · rw [← hsame, hin]
      exact Or.inr ⟨decl, hdecl, rfl, hown⟩
  | true =>
    refine Or.inl ⟨(structs.foldl (markStruct ⟨l, enums⟩) (l, false)).1, ?_, ?_, ?_⟩
    · simp only [markTurn, hc, if_true, Outcome.pure_eq]
    · intro n hn
      rcases (hin n).mp hn with h | ⟨decl, hdecl, rfl, hown⟩
      · exact hl n h
      · exact hQ l hl decl hdecl hown
    · obtain hf | ⟨decl, hdecl, hnew, hown⟩ := hyes hc
      · cases hf
      · have hnow := (hin decl.name).mpr (Or.inr ⟨decl, hdecl, rfl, hown⟩)
        exact unmarked_lt (fun n hn => (hin n).mpr (Or.inl hn)) hdecl hnew hnow

/-! ## Structs with a `Drop` -/

theorem stripSuffix_eq_some_iff {s suffix t : String} :
    stripSuffix s suffix = some t ↔ s = t ++ suffix := by
  unfold stripSuffix
  rw [Option.map_eq_some_iff]
  constructor
  · rintro ⟨l, hl, rfl⟩
    obtain ⟨s', hs, heq⟩ := List.dropSuffix?_eq_some_iff.mp hl
    rw [eq_of_beq heq] at hs
    rw [← String.toList_inj, String.toList_append, String.toList_ofList, hs]
  · rintro rfl
    refine ⟨t.toList, List.dropSuffix?_eq_some_iff.mpr ⟨suffix.toList, ?_, beq_self_eq_true _⟩, ?_⟩
    · rw [String.toList_append]
    · rw [String.ofList_toList]

/-- The structs taken down for a `Drop`. -/
theorem mem_foldl_markDrop (functions l : List String) (n : String) :
    n ∈ functions.foldl (markDrop structs) l ↔
      n ∈ l ∨ n ∈ structs.map StructDecl.name ∧ n ++ "_drop" ∈ functions := by
  induction functions generalizing l with
  | nil => simp
  | cons f rest ih =>
    rw [List.foldl_cons, ih]
    have hstep : n ∈ markDrop structs l f ↔
        n ∈ l ∨ n ∈ structs.map StructDecl.name ∧ n ++ "_drop" = f := by
      unfold markDrop
      cases hs : stripSuffix f "_drop" with
      | none =>
        refine ⟨Or.inl, Or.rec id fun ⟨_, heq⟩ => ?_⟩
        rw [stripSuffix_eq_some_iff.mpr heq.symm] at hs
        cases hs
      | some t =>
        have hf := stripSuffix_eq_some_iff.mp hs
        dsimp only
        by_cases hnew : t ∈ structs.map StructDecl.name ∧ t ∉ l
        · rw [if_pos hnew, List.mem_append, List.mem_singleton]
          refine or_congr_right ⟨?_, fun ⟨_, heq⟩ => ?_⟩
          · rintro rfl
            exact ⟨hnew.1, hf.symm⟩
          · exact Option.some.inj ((stripSuffix_eq_some_iff.mpr heq.symm).symm.trans hs)
        · rw [if_neg hnew]
          refine ⟨Or.inl, Or.rec id fun ⟨hmem, heq⟩ => ?_⟩
          have ht := Option.some.inj ((stripSuffix_eq_some_iff.mpr heq.symm).symm.trans hs)
          by_contra hnot
          exact hnew ⟨ht ▸ hmem, ht ▸ hnot⟩
    rw [hstep, List.mem_cons, or_assoc, ← and_or_left]

/-! ## The registries -/

/-- The structs a run takes down: what holds of every struct taken down for its fields or its
`Drop` holds of all of them, and a struct that is left has neither. -/
theorem nonCopyStructs_done (p : TypeDecls) (enums : List String) (Q : String → Prop)
    (hQ : ∀ l, (∀ n ∈ l, Q n) → ∀ decl ∈ p.structs, HasOwningField ⟨l, enums⟩ decl →
      Q decl.name)
    (hdrop : ∀ n, n ++ "_drop" ∈ p.functions → Q n) :
    ∃ marked l, nonCopyStructs p enums = .done l ∧ (∀ n ∈ l, Q n) ∧
      (∀ n, n ∈ l ↔ n ∈ marked ∨ n ∈ p.structs.map StructDecl.name ∧ n ++ "_drop" ∈ p.functions) ∧
      ∀ decl ∈ p.structs, HasOwningField ⟨marked, enums⟩ decl → decl.name ∈ marked := by
  obtain ⟨marked, hrun, hall, hclosed⟩ := markLoop_done p.structs enums Q hQ
  refine ⟨marked, p.functions.foldl (markDrop p.structs) marked, ?_, fun n hn => ?_,
    mem_foldl_markDrop p.functions marked, hclosed⟩
  · unfold nonCopyStructs
    rw [hrun, Outcome.done_bind, Outcome.pure_eq]
  · rcases (mem_foldl_markDrop p.functions marked n).mp hn with h | ⟨-, h⟩
    · exact hall n h
    · exact hdrop n h

theorem mem_nonCopyEnums {n : String} :
    n ∈ nonCopyEnums p.enums ↔
      ∃ decl ∈ p.enums, decl.name = n ∧ ∃ v ∈ decl.variants, heapPayload v = true := by
  simp only [nonCopyEnums, List.mem_map, List.mem_filter, List.any_eq_true]
  exact ⟨fun ⟨d, ⟨hd, h⟩, hn⟩ => ⟨d, hd, hn, h⟩, fun ⟨d, hd, hn, h⟩ => ⟨d, ⟨hd, h⟩, hn⟩⟩

attribute [local simp] heapPayload registries nonCopyStructs

/-- A heap payload is a string or a vector. -/
theorem heapPayload_iff {v : EnumVariant} :
    heapPayload v = true ↔ ∃ t, v.payload.head? = some t ∧ (t = .ownedStr ∨ ∃ e, t = .vec e) := by
  unfold heapPayload
  cases hv : v.payload.head? with
  | none => simp
  | some t => cases t <;> simp

theorem owns_of_nonCopyEnum {n : String} (h : n ∈ nonCopyEnums p.enums) :
    OwnsOrHoldsArray p (.enum n) := by
  obtain ⟨decl, hdecl, rfl, v, hv, hheap⟩ := mem_nonCopyEnums.mp h
  obtain ⟨t, ht, hkind⟩ := heapPayload_iff.mp hheap
  refine ⟨t, ReflTransGen.single (Part.payload hdecl hv (List.mem_of_mem_head? ht)), Or.inl ?_⟩
  rcases hkind with rfl | ⟨e, rfl⟩ <;> rfl

/-- A struct with an owning field owns something, if the structs taken down before do. -/
theorem owns_of_owningField {l : List String} (hl : ∀ n ∈ l, OwnsOrHoldsArray p (.struct n))
    {decl : StructDecl} (hdecl : decl ∈ p.structs) (h : HasOwningField ⟨l, []⟩ decl) :
    OwnsOrHoldsArray p (.struct decl.name) := by
  obtain ⟨f, hf, hcopy⟩ := h
  refine OwnsOrHoldsArray.of_part ?_ (Part.field hdecl hf)
  rcases isCopy_eq_false_cases hcopy with h | h | ⟨n, hn, hmem⟩ | ⟨n, -, hmem⟩
  · exact ⟨f.2, ReflTransGen.refl, Or.inl h⟩
  · exact ⟨f.2, ReflTransGen.refl, Or.inr (Or.inl h)⟩
  · rw [hn]
    exact hl n hmem
  · exact (List.not_mem_nil hmem).elim

/-- In a fresh process, what is not `Copy` owns something or holds an array. -/
theorem registries_sound (p : TypeDecls) :
    ∃ marked l, registries p [] = .done ⟨l, nonCopyEnums p.enums⟩ ∧
      (∀ ty : Ty, ty.isCopy ⟨l, nonCopyEnums p.enums⟩ = false → OwnsOrHoldsArray p ty) ∧
      (∀ n, n ∈ l ↔ n ∈ marked ∨ n ∈ p.structs.map StructDecl.name ∧ n ++ "_drop" ∈ p.functions) ∧
      ∀ decl ∈ p.structs, HasOwningField ⟨marked, []⟩ decl → decl.name ∈ marked := by
  obtain ⟨marked, l, hrun, hall, hmem, hclosed⟩ := nonCopyStructs_done p []
    (fun n => OwnsOrHoldsArray p (.struct n))
    (fun l hl decl hdecl h => owns_of_owningField hl hdecl h)
    (fun n hn => ⟨.struct n, ReflTransGen.refl, Or.inr (Or.inr hn)⟩)
  refine ⟨marked, l, ?_, fun ty hcopy => ?_, hmem, hclosed⟩
  · unfold registries
    rw [hrun, Outcome.done_bind, Outcome.pure_eq]
  · rcases isCopy_eq_false_cases hcopy with h | h | ⟨n, rfl, hn⟩ | ⟨n, rfl, hn⟩
    · exact ⟨ty, ReflTransGen.refl, Or.inl h⟩
    · exact ⟨ty, ReflTransGen.refl, Or.inr (Or.inl h)⟩
    · exact hall n hn
    · exact owns_of_nonCopyEnum hn

/-- The check of the declarations ends for every program. -/
theorem checkTypeDecls_done (p : TypeDecls) (enums : List String) (o : DepOrder) :
    ∃ messages, checkTypeDecls p enums o = .done messages := by
  obtain ⟨-, l, hrun, -⟩ := nonCopyStructs_done p enums (fun _ => True)
    (fun _ _ _ _ _ => trivial) (fun _ _ => trivial)
  have hdeps : ∀ n, ∀ d ∈ structDeps p.structs o n, d ∈ p.structs.flatMap fun decl =>
      decl.name :: decl.fields.flatMap fun f => directStructDeps f.2 := by
    intro n d hd
    unfold structDeps at hd
    cases hfind : p.structs.reverse.find? (·.name = n) with
    | none =>
      rw [hfind] at hd
      exact (List.not_mem_nil hd).elim
    | some decl =>
      rw [hfind] at hd
      have hmem := List.mem_reverse.mp (List.mem_of_find?_eq_some hfind)
      exact List.mem_flatMap.mpr
        ⟨decl, hmem, List.mem_cons_of_mem _ ((o.mem_iff _ _ _).mp hd)⟩
  have hnames : ∀ decl ∈ p.structs, decl.name ∈ p.structs.flatMap fun decl =>
      decl.name :: decl.fields.flatMap fun f => directStructDeps f.2 :=
    fun decl hdecl => List.mem_flatMap.mpr ⟨decl, hdecl, List.mem_cons_self⟩
  obtain ⟨recursive, hrec⟩ := recursiveStructs_done hdeps hnames []
  refine ⟨allStructMessages ⟨l, nonCopyEnums p.enums⟩ [] p.structs ++ recursive ++
    allEnumMessages ⟨l, nonCopyEnums p.enums⟩ (p.structs.map StructDecl.name) [] p.enums, ?_⟩
  unfold checkTypeDecls registries searchDepth
  rw [hrun, Outcome.done_bind, Outcome.pure_eq, Outcome.done_bind, hrec, Outcome.done_bind,
    Outcome.pure_eq]

/-! ## The classification -/

attribute [local simp] allEnumMessages enumMessages variantMessages payloadAllowed
  ownsResource isArray Ty.isCopy

/-- Enums about which there is no message have at most one payload each, of a type that is
admitted. -/
theorem payloadAllowed_of_allEnumMessages {structNames earlier : List String}
    {decls : List EnumDecl} (h : allEnumMessages r structNames earlier decls = [])
    {decl : EnumDecl} (hdecl : decl ∈ decls) {v : EnumVariant} (hv : v ∈ decl.variants) {t : Ty}
    (ht : t ∈ v.payload) : payloadAllowed r t = true := by
  induction decls generalizing earlier with
  | nil => exact (List.not_mem_nil hdecl).elim
  | cons d rest ih =>
    rw [allEnumMessages, List.append_eq_nil_iff] at h
    rcases List.mem_cons.mp hdecl with rfl | hdecl
    · simp only [enumMessages, List.append_eq_nil_iff] at h
      have hvariant := List.flatMap_eq_nil_iff.mp h.1.1.1.1.2 v hv
      simp only [variantMessages, List.append_eq_nil_iff] at hvariant
      obtain ⟨hlength, hallowed⟩ := hvariant
      have hone : v.payload = [t] := by
        cases hp : v.payload with
        | nil =>
          rw [hp] at ht
          exact (List.not_mem_nil ht).elim
        | cons t' more =>
          have hmore : more = [] := by
            by_contra hne
            have hlt : 1 < v.payload.length := by
              rw [hp, List.length_cons]
              exact Nat.succ_lt_succ (List.length_pos_iff.mpr hne)
            rw [if_pos hlt] at hlength
            cases hlength
          rw [hp, hmore, List.mem_singleton] at ht
          rw [hmore, ht]
      rw [hone, List.head?_cons] at hallowed
      dsimp only at hallowed
      by_contra hnot
      rw [if_neg hnot] at hallowed
      cases hallowed
    · exact ih h.2 hdecl

/-- What is admitted as a payload is `Copy`, owns a resource, or is an array. -/
theorem payloadAllowed_cases {t : Ty} (h : payloadAllowed r t = true) :
    t.isCopy r = true ∨ ownsResource t = true ∨ isArray t = true := by
  cases t <;> simp_all [payloadAllowed, ownsResource, isArray, Ty.isCopy]

/-- A declared struct or enum. -/
def Declared (p : TypeDecls) (ty : Ty) : Prop :=
  (∃ decl ∈ p.structs, ty = .struct decl.name) ∨ ∃ decl ∈ p.enums, ty = .enum decl.name

/-- A type that a declared one is made of, at some depth. -/
def Occurs (p : TypeDecls) (t : Ty) : Prop := ∃ ty, Declared p ty ∧ ReflTransGen (Part p) ty t

/-- Declarations in which what owns something is held where the checker looks for it: in the
fields of structs. An enum that is not `Copy` is not a field, its payload is a string or a
vector; a tuple owns nothing; what has a `Drop` of its own is a struct and no part of another
type. -/
structure PlainDecls (p : TypeDecls) : Prop where
  drops : ∀ t u, Occurs p t → Part p t u → ¬ HasDrop p u
  enumDrops : ∀ decl ∈ p.enums, ¬ HasDrop p (.enum decl.name)
  fields : ∀ decl ∈ p.structs, ∀ f ∈ decl.fields, ∀ e, f.2 = .enum e → e ∉ nonCopyEnums p.enums
  payloads : ∀ decl ∈ p.enums, ∀ v ∈ decl.variants, ∀ t ∈ v.payload,
    ownsResource t = true ∨ isArray t = true → heapPayload v = true
  tuples : ∀ es, Occurs p (.tuple es) → ∀ t ∈ es, ¬ OwnsOrHoldsArray p t

/-- The parts of a `Copy` type are `Copy`. -/
theorem PlainDecls.isCopy_part (h : PlainDecls p) {marked l : List String}
    (hsound : ∀ ty : Ty, ty.isCopy ⟨l, nonCopyEnums p.enums⟩ = false → OwnsOrHoldsArray p ty)
    (hmem : ∀ n, n ∈ l ↔
      n ∈ marked ∨ n ∈ p.structs.map StructDecl.name ∧ n ++ "_drop" ∈ p.functions)
    (hclosed : ∀ decl ∈ p.structs, HasOwningField ⟨marked, []⟩ decl → decl.name ∈ marked)
    (hpayload : ∀ decl ∈ p.enums, ∀ v ∈ decl.variants, ∀ t ∈ v.payload,
      payloadAllowed ⟨l, nonCopyEnums p.enums⟩ t = true)
    {t u : Ty} (ht : t.isCopy ⟨l, nonCopyEnums p.enums⟩ = true) (hocc : Occurs p t)
    (hpart : Part p t u) : u.isCopy ⟨l, nonCopyEnums p.enums⟩ = true := by
  by_contra hu
  rw [Bool.not_eq_true] at hu
  cases hpart with
  | element hin => exact h.tuples _ hocc u hin (hsound u hu)
  | cell u n => cases ht
  | @field decl f hdecl hf =>
    have hname : decl.name ∉ l := of_decide_eq_true ht
    have hcopy : f.2.isCopy ⟨marked, []⟩ = true := by
      by_contra hnot
      rw [Bool.not_eq_true] at hnot
      exact hname ((hmem _).mpr (Or.inl (hclosed decl hdecl ⟨f, hf, hnot⟩)))
    obtain ⟨howns, harray⟩ := not_owns_of_isCopy hcopy
    rcases isCopy_eq_false_cases hu with hk | hk | ⟨n, hn, hin⟩ | ⟨n, hn, hin⟩
    · rw [howns] at hk
      cases hk
    · rw [harray] at hk
      cases hk
    · rcases (hmem n).mp hin with hmarked | ⟨-, hdrop⟩
      · rw [hn] at hcopy
        exact of_decide_eq_true hcopy hmarked
      · refine h.drops _ _ hocc (Part.field hdecl hf) ?_
        rw [hn]
        exact hdrop
    · exact h.fields decl hdecl f hf n hn hin
  | @payload decl v u hdecl hv hu' =>
    have hname : decl.name ∉ nonCopyEnums p.enums := of_decide_eq_true ht
    rcases payloadAllowed_cases (hpayload decl hdecl v hv u hu') with hcopy | hkind
    · rw [hu] at hcopy
      cases hcopy
    · have hheap := h.payloads decl hdecl v hv u hu' hkind
      exact hname (mem_nonCopyEnums.mpr ⟨decl, hdecl, rfl, v, hv, hheap⟩)

/-- A struct that owns a string through another one declared after it, and an enum. -/
def nestedText : TypeDecls :=
  ⟨[⟨"Outer", [("inner", .struct "Inner")]⟩, ⟨"Inner", [("text", .ownedStr)]⟩],
    [⟨"Maybe", [⟨"Some", [.ownedStr]⟩, ⟨"None", []⟩]⟩], ["main"]⟩

theorem no_drop_of_main (hp : p.functions = ["main"]) (t : Ty) : ¬ HasDrop p t := by
  have hname : ∀ n : String, n ++ "_drop" ∈ p.functions → False := by
    intro n hn
    rw [hp, List.mem_singleton] at hn
    have hlength := congrArg String.length hn
    rw [String.length_append] at hlength
    have hdrop : "_drop".length = 5 := rfl
    have hmain : "main".length = 4 := rfl
    omega
  intro h
  cases t with
  | struct n => exact hname n h
  | enum n => exact hname n h
  | _ => exact h

theorem occurs_nestedText {t : Ty} (h : Occurs nestedText t) :
    t = .struct "Outer" ∨ t = .struct "Inner" ∨ t = .enum "Maybe" ∨ t = .ownedStr := by
  obtain ⟨ty, hty, hpath⟩ := h
  induction hpath with
  | refl =>
    rcases hty with ⟨decl, hdecl, rfl⟩ | ⟨decl, hdecl, rfl⟩
    · simp only [nestedText, List.mem_cons, List.not_mem_nil, or_false] at hdecl
      rcases hdecl with rfl | rfl
      · exact Or.inl rfl
      · exact Or.inr (Or.inl rfl)
    · simp only [nestedText, List.mem_singleton] at hdecl
      subst hdecl
      exact Or.inr (Or.inr (Or.inl rfl))
  | tail _ hpart ih =>
    cases hpart with
    | element hin => simp at ih
    | cell u n => simp at ih
    | field hdecl hf =>
      simp only [nestedText, List.mem_cons, List.not_mem_nil, or_false] at hdecl
      rcases hdecl with rfl | rfl
      · rw [List.mem_singleton] at hf
        subst hf
        exact Or.inr (Or.inl rfl)
      · rw [List.mem_singleton] at hf
        subst hf
        exact Or.inr (Or.inr (Or.inr rfl))
    | payload hdecl hv ht =>
      simp only [nestedText, List.mem_singleton] at hdecl
      subst hdecl
      simp only [List.mem_cons, List.not_mem_nil, or_false] at hv
      rcases hv with rfl | rfl
      · rw [List.mem_singleton] at ht
        exact Or.inr (Or.inr (Or.inr ht))
      · exact (List.not_mem_nil ht).elim

theorem plainDecls_nestedText : PlainDecls nestedText where
  drops _ u _ _ := no_drop_of_main rfl u
  enumDrops decl _ := no_drop_of_main rfl _
  fields decl hdecl f hf e he := by
    simp only [nestedText, List.mem_cons, List.not_mem_nil, or_false] at hdecl
    rcases hdecl with rfl | rfl
    · rw [List.mem_singleton] at hf
      subst hf
      cases he
    · rw [List.mem_singleton] at hf
      subst hf
      cases he
  payloads decl hdecl v hv t ht _ := by
    simp only [nestedText, List.mem_singleton] at hdecl
    subst hdecl
    simp only [List.mem_cons, List.not_mem_nil, or_false] at hv
    rcases hv with rfl | rfl
    · rfl
    · exact (List.not_mem_nil ht).elim
  tuples es hocc := by
    have hcases := occurs_nestedText hocc
    simp at hcases

/-- A struct with nothing but an array of integers. -/
def gridDecls : TypeDecls := ⟨[⟨"Grid", [("cells", .array (.int .i64) 4)]⟩], [], ["main"]⟩

end Vani.Analysis
