import Vani.Program.SmtQuery
import Vani.Library.Spelling
import Mathlib.Data.List.Nodup
import Mathlib.Data.List.Pairwise
import Std.Data.String.ToNat

/-!
# Symbols of a query

The symbol of a constant keeps the letters, digits and underscores of a name and writes `_` for
every other character; a length gets the suffix `_len`, a version of a sequence a prefix and a
number. Versions never meet anything else. The symbols of a query are distinct exactly when no
two scalars, no two vectors and no two sequences have names written alike, and no scalar is
named like a vector followed by `_len`.
-/

set_option autoImplicit false

namespace Vani.Analysis

open Vani.Program Vani.Library

/-! ## Names written alike -/

/-- Two names agree but for characters that are no letters or digits. -/
def SameSpelling (m n : String) : Prop :=
  Alike (fun ch => ch.isAlphanum || ch == '_') '_' m.toList n.toList

theorem sanitize_eq_iff {m n : String} : sanitize m = sanitize n ↔ SameSpelling m n := by
  unfold sanitize SameSpelling
  rw [String.append_right_inj, ← String.toList_inj, String.toList_map, String.toList_map,
    ← map_respell_eq_iff]
  rfl

/-- The suffix of a length is made of characters that stay as they are. -/
theorem sanitize_len (n : String) : sanitize (n ++ "_len") = sanitize n ++ "_len" := by
  unfold sanitize
  rw [← String.toList_inj]
  simp

theorem sanitize_eq_len_iff {m n : String} :
    sanitize m = sanitize n ++ "_len" ↔ SameSpelling m (n ++ "_len") := by
  rw [← sanitize_eq_iff, sanitize_len]

theorem SameSpelling.symm {m n : String} (h : SameSpelling m n) : SameSpelling n m := by
  rw [← sanitize_eq_iff] at h ⊢
  exact h.symm

theorem SameSpelling.refl (n : String) : SameSpelling n n := by
  rw [← sanitize_eq_iff]

/-! ## Symbols -/

/-- When two constants have one symbol. -/
def SameSymbol : Constant → Constant → Prop
  | .value m, .value n => SameSpelling m n
  | .length m, .length n => SameSpelling m n
  | .version m k, .version n l => SameSpelling m n ∧ k = l
  | .value m, .length n => SameSpelling m (n ++ "_len")
  | .length m, .value n => SameSpelling (m ++ "_len") n
  | _, _ => False

attribute [local simp] Constant.symbol versionedArrayDeclarations

theorem version_symbol_inj {m n : String} {k l : Nat}
    (h : (Constant.version m k).symbol = (Constant.version n l).symbol) :
    sanitize m = sanitize n ∧ k = l := by
  have hdigits : ∀ j : Nat, '_' ∉ 'v' :: (Nat.repr j).toList := by
    intro j hj
    rw [Nat.toList_repr] at hj
    rcases List.mem_cons.1 hj with hj | hj
    · exact absurd hj (by decide)
    · exact absurd (Nat.isDigit_of_mem_toDigits (by decide) (by decide) hj) (by decide)
  have hlists := congrArg String.toList h
  simp only [Constant.symbol, String.toList_append, Nat.toString_eq_repr, List.append_assoc] at hlists
  rw [List.append_right_inj] at hlists
  have hlast := append_cons_inj_of_last (hdigits k) (hdigits l) hlists
  exact ⟨String.toList_inj.1 hlast.1,
    Nat.repr_injective (String.toList_inj.1 (List.cons.inj hlast.2).2)⟩

/-- The first letter tells a version from a value or a length. -/
theorem version_symbol_ne {m n : String} {k : Nat} :
    (Constant.version m k).symbol ≠ sanitize n ∧
      (Constant.version m k).symbol ≠ sanitize n ++ "_len" := by
  constructor
  all_goals
    intro h
    have hlists := congrArg String.toList h
    simp [Constant.symbol, sanitize] at hlists

theorem symbol_eq_iff {c d : Constant} : c.symbol = d.symbol ↔ SameSymbol c d := by
  cases c with
  | value m =>
    cases d with
    | value n => exact sanitize_eq_iff
    | length n => exact sanitize_eq_len_iff
    | version n l => exact iff_of_false (fun h => version_symbol_ne.1 h.symm) id
  | length m =>
    cases d with
    | value n =>
      have h : sanitize (m ++ "_len") = sanitize n ↔ SameSpelling (m ++ "_len") n := sanitize_eq_iff
      rw [sanitize_len] at h
      exact h
    | length n => exact (String.append_left_inj _).trans sanitize_eq_iff
    | version n l => exact iff_of_false (fun h => version_symbol_ne.2 h.symm) id
  | version m k =>
    cases d with
    | value n => exact iff_of_false version_symbol_ne.1 id
    | length n => exact iff_of_false version_symbol_ne.2 id
    | version n l =>
      constructor
      · intro h
        exact ⟨sanitize_eq_iff.1 (version_symbol_inj h).1, (version_symbol_inj h).2⟩
      · rintro ⟨h, rfl⟩
        simp only [Constant.symbol, sanitize_eq_iff.2 h]

/-! ## Bindings -/

/-- What the constants of two bindings must not share. -/
structure Apart (x y : String × Ty) : Prop where
  values : supportedSort x.2 → supportedSort y.2 → ¬SameSpelling x.1 y.1
  lengths : isVector x.2 → isVector y.2 → ¬SameSpelling x.1 y.1
  versions : (smtArrayElement x.2).isSome → (smtArrayElement y.2).isSome → ¬SameSpelling x.1 y.1
  valueLength : supportedSort x.2 → isVector y.2 → ¬SameSpelling x.1 (y.1 ++ "_len")
  lengthValue : isVector x.2 → supportedSort y.2 → ¬SameSpelling (x.1 ++ "_len") y.1

/-- A constant is one for a binding of the given types. -/
def StandsFor (x : String × Ty) : Constant → Prop
  | .value n => n = x.1 ∧ supportedSort x.2
  | .length n => n = x.1 ∧ isVector x.2
  | .version n _ => n = x.1 ∧ (smtArrayElement x.2).isSome

theorem Apart.symm {x y : String × Ty} (h : Apart x y) : Apart y x where
  values hy hx hsame := h.values hx hy hsame.symm
  lengths hy hx hsame := h.lengths hx hy hsame.symm
  versions hy hx hsame := h.versions hx hy hsame.symm
  valueLength hy hx hsame := h.lengthValue hx hy hsame.symm
  lengthValue hy hx hsame := h.valueLength hx hy hsame.symm

attribute [local simp] declare encodeMention lengthDeclaration valueDeclaration

theorem stands_of_declare {versions : Versions} {x : String × Ty} {c : Constant × String}
    (h : c ∈ declare versions x) : StandsFor x c.1 := by
  simp only [declare, List.mem_append] at h
  rcases h with (h | h) | h
  · unfold lengthDeclaration at h
    split at h
    · rename_i hvec
      rw [List.mem_singleton.1 h]
      exact ⟨rfl, hvec⟩
    · simp at h
  · unfold versionedArrayDeclarations at h
    split at h
    · rename_i elem helem
      obtain ⟨k, -, rfl⟩ := List.mem_map.1 h
      exact ⟨rfl, by simp [helem]⟩
    · simp at h
  · unfold valueDeclaration at h
    split at h
    · rename_i hsort
      rw [List.mem_singleton.1 h]
      exact ⟨rfl, hsort⟩
    · simp at h

/-- A scalar and its type declare the value. -/
theorem value_mem_declare (versions : Versions) {x : String × Ty} (h : supportedSort x.2 = true) :
    (Constant.value x.1) ∈ (declare versions x).map Prod.fst := by
  simp [declare, valueDeclaration, h]

theorem length_mem_declare (versions : Versions) {x : String × Ty} (h : isVector x.2 = true) :
    (Constant.length x.1) ∈ (declare versions x).map Prod.fst := by
  simp [declare, lengthDeclaration, h]

theorem version_mem_declare (versions : Versions) {x : String × Ty}
    (h : (smtArrayElement x.2).isSome = true) :
    (Constant.version x.1 0) ∈ (declare versions x).map Prod.fst := by
  obtain ⟨elem, helem⟩ := Option.isSome_iff_exists.1 h
  simp [declare, versionedArrayDeclarations, helem]

/-- Bindings that are apart have no symbol in common. -/
theorem Apart.symbol_ne {x y : String × Ty} (h : Apart x y) {c d : Constant} (hc : StandsFor x c)
    (hd : StandsFor y d) : c.symbol ≠ d.symbol := by
  intro heq
  have hsame := symbol_eq_iff.1 heq
  cases c with
  | value m =>
    obtain ⟨rfl, hx⟩ := hc
    cases d with
    | value n =>
      obtain ⟨rfl, hy⟩ := hd
      exact h.values hx hy hsame
    | length n =>
      obtain ⟨rfl, hy⟩ := hd
      exact h.valueLength hx hy hsame
    | version n l => exact hsame
  | length m =>
    obtain ⟨rfl, hx⟩ := hc
    cases d with
    | value n =>
      obtain ⟨rfl, hy⟩ := hd
      exact h.lengthValue hx hy hsame
    | length n =>
      obtain ⟨rfl, hy⟩ := hd
      exact h.lengths hx hy hsame
    | version n l => exact hsame
  | version m k =>
    obtain ⟨rfl, hx⟩ := hc
    cases d with
    | value n => exact hsame
    | length n => exact hsame
    | version n l =>
      obtain ⟨rfl, hy⟩ := hd
      exact h.versions hx hy hsame.1

/-- The symbols that a binding declares. -/
def symbols (versions : Versions) (x : String × Ty) : List String :=
  (declare versions x).map fun c => c.1.symbol

theorem symbol_mem_symbols {versions : Versions} {x : String × Ty} {c : Constant}
    (h : c ∈ (declare versions x).map Prod.fst) : c.symbol ∈ symbols versions x := by
  obtain ⟨d, hd, rfl⟩ := List.mem_map.1 h
  exact List.mem_map_of_mem hd

theorem apart_iff_disjoint {versions : Versions} {x y : String × Ty} :
    Apart x y ↔ List.Disjoint (symbols versions x) (symbols versions y) := by
  constructor
  · intro h s hx hy
    obtain ⟨c, hc, rfl⟩ := List.mem_map.1 hx
    obtain ⟨d, hd, hsame⟩ := List.mem_map.1 hy
    exact h.symbol_ne (stands_of_declare hc) (stands_of_declare hd) hsame.symm
  · intro h
    have hne : ∀ c ∈ (declare versions x).map Prod.fst, ∀ d ∈ (declare versions y).map Prod.fst,
        ¬SameSymbol c d := by
      intro c hc d hd hsame
      have hsym := symbol_eq_iff.2 hsame
      apply h (symbol_mem_symbols hc)
      rw [hsym]
      exact symbol_mem_symbols hd
    exact {
      values := fun hx hy => hne _ (value_mem_declare versions hx) _ (value_mem_declare versions hy)
      lengths := fun hx hy =>
        hne _ (length_mem_declare versions hx) _ (length_mem_declare versions hy)
      versions := fun hx hy hsame =>
        hne _ (version_mem_declare versions hx) _ (version_mem_declare versions hy) ⟨hsame, rfl⟩
      valueLength := fun hx hy =>
        hne _ (value_mem_declare versions hx) _ (length_mem_declare versions hy)
      lengthValue := fun hx hy =>
        hne _ (length_mem_declare versions hx) _ (value_mem_declare versions hy) }

/-! ## One binding -/

/-- A scalar is no vector. -/
theorem not_vector_of_supported {ty : Ty} (h : supportedSort ty = true) :
    isVector ty = false ∧ smtArrayElement ty = none := by
  cases ty <;> simp_all [supportedSort, Ty.isInteger, Ty.isFloat, isVector, smtArrayElement, Ty.deref]

/-- A binding declares no symbol twice. -/
theorem symbols_nodup (versions : Versions) (x : String × Ty) : (symbols versions x).Nodup := by
  unfold symbols declare
  cases hsort : supportedSort x.2 with
  | true =>
    obtain ⟨hvec, helem⟩ := not_vector_of_supported hsort
    simp [lengthDeclaration, versionedArrayDeclarations, valueDeclaration, hsort, hvec, helem]
  | false =>
    have harrays : ((versionedArrayDeclarations versions x.1 x.2).map fun c => c.1.symbol).Nodup := by
      unfold versionedArrayDeclarations
      cases smtArrayElement x.2 with
      | none => simp
      | some elem =>
        simp only [List.map_map]
        apply List.Nodup.map _ List.nodup_range
        intro k l hkl
        exact (version_symbol_inj hkl).2
    have hvalue : valueDeclaration x.1 x.2 = [] := by simp [valueDeclaration, hsort]
    rw [hvalue, List.append_nil, List.map_append]
    cases hvec : isVector x.2 with
    | false => simpa [lengthDeclaration, hvec] using harrays
    | true =>
      simp only [lengthDeclaration, hvec, if_true, List.map_cons, List.map_nil, List.singleton_append,
        List.nodup_cons]
      refine ⟨?_, harrays⟩
      intro hmem
      obtain ⟨c, hc, hsame⟩ := List.mem_map.1 hmem
      unfold versionedArrayDeclarations at hc
      split at hc
      · obtain ⟨k, -, rfl⟩ := List.mem_map.1 hc
        exact version_symbol_ne.2 hsame
      · simp at hc

/-- The symbols of a query are distinct exactly when its bindings are apart. -/
theorem declarations_nodup_iff (versions : Versions) (vars : List (String × Ty)) :
    ((declarations versions vars).map fun c => c.1.symbol).Nodup ↔ vars.Pairwise Apart := by
  have hflat : ((declarations versions vars).map fun c => c.1.symbol) =
      vars.flatMap (symbols versions) := by
    rw [declarations, List.map_flatMap]
    rfl
  rw [hflat, List.nodup_flatMap]
  constructor
  · rintro ⟨-, h⟩
    exact h.imp fun hxy => apart_iff_disjoint.2 hxy
  · intro h
    exact ⟨fun x _ => symbols_nodup versions x, h.imp fun hxy => apart_iff_disjoint.1 hxy⟩

/-! ## Names in expressions -/

/-- The second name of a relation between two sequences is that of one with scalar elements, as
the first has to be. -/
def BaseInScope (vars : List (String × Ty)) : Mention → Prop
  | .storeEq _ base | .arrayEq _ base =>
    ((recordedType vars (parseVersionedName base).1).bind smtArrayElement).isSome
  | _ => True

theorem recordedType_mem {vars : List (String × Ty)} {name : String} {ty : Ty}
    (h : recordedType vars name = some ty) : (name, ty) ∈ vars := by
  obtain ⟨before, after, hvars, -⟩ := List.lookup_eq_some_iff.1 h
  rw [← List.mem_reverse, hvars]
  simp

theorem stands_arrayName {versions : Versions} {vars : List (String × Ty)} {name : String}
    (h : ((recordedType vars (parseVersionedName name).1).bind smtArrayElement).isSome) :
    ∃ x ∈ vars, StandsFor x (smtArrayNameFor versions name) := by
  cases hty : recordedType vars (parseVersionedName name).1 with
  | none => simp [hty] at h
  | some ty =>
    refine ⟨_, recordedType_mem hty, rfl, ?_⟩
    simpa [hty] using h

/-- The constants in an expression are those of bindings in scope. -/
theorem encodeMention_stands {versions : Versions} {vars : List (String × Ty)} {m : Mention}
    {cs : List Constant} (h : encodeMention versions vars m = .ok cs) (hm : BaseInScope vars m) :
    ∀ c ∈ cs, ∃ x ∈ vars, StandsFor x c := by
  cases m with
  | var name =>
    simp only [encodeMention] at h
    split at h
    · cases h
    · split at h
      · cases h
      · rename_i ty hty
        split at h
        · rename_i hsort
          cases h
          intro c hc
          rw [List.mem_singleton.1 hc]
          exact ⟨_, recordedType_mem hty, rfl, hsort⟩
        · cases h
  | len name =>
    simp only [encodeMention] at h
    split at h
    · cases h
      simp
    · rename_i elem hvec
      obtain ⟨ty, hty, hderef⟩ := Option.map_eq_some_iff.1 hvec
      cases h
      intro c hc
      rw [List.mem_singleton.1 hc]
      exact ⟨_, recordedType_mem hty, rfl, by simp [isVector, hderef]⟩
    · cases h
  | index name =>
    simp only [encodeMention] at h
    split at h
    · cases h
    · rename_i ty hty
      split at h
      · rename_i helem
        cases h
        intro c hc
        rw [List.mem_singleton.1 hc]
        exact stands_arrayName (by simpa [hty] using helem)
      · cases h
  | storeEq result base =>
    simp only [encodeMention] at h
    split at h
    · cases h
    · rename_i ty hty
      split at h
      · rename_i helem
        cases h
        intro c hc
        rcases List.mem_pair.1 hc with rfl | rfl
        · exact stands_arrayName (by simpa [hty] using helem)
        · exact stands_arrayName hm
      · cases h
  | arrayEq result base =>
    simp only [encodeMention] at h
    split at h
    · rename_i helem
      cases h
      intro c hc
      rcases List.mem_pair.1 hc with rfl | rfl
      · exact stands_arrayName helem
      · exact stands_arrayName hm
    · cases h

/-- A binding has one constant for each symbol. -/
theorem stands_injective {x : String × Ty} {c d : Constant} (hc : StandsFor x c) (hd : StandsFor x d)
    (heq : c.symbol = d.symbol) : c = d := by
  have hsame := symbol_eq_iff.1 heq
  cases c with
  | value m =>
    obtain ⟨rfl, hsort⟩ := hc
    cases d with
    | value n => rw [hd.1]
    | length n =>
      have hvec := hd.2
      rw [(not_vector_of_supported hsort).1] at hvec
      cases hvec
    | version n l => exact hsame.elim
  | length m =>
    obtain ⟨rfl, hvec⟩ := hc
    cases d with
    | value n =>
      have hsort := (not_vector_of_supported hd.2).1
      rw [hvec] at hsort
      cases hsort
    | length n => rw [hd.1]
    | version n l => exact hsame.elim
  | version m k =>
    cases d with
    | value n => exact hsame.elim
    | length n => exact hsame.elim
    | version n l => rw [hc.1, hd.1, hsame.2]

/-- Constants of bindings that are apart have one symbol only where they are one. -/
theorem symbol_injective {vars : List (String × Ty)} (h : vars.Pairwise Apart) {c d : Constant}
    (hc : ∃ x ∈ vars, StandsFor x c) (hd : ∃ y ∈ vars, StandsFor y d) (heq : c.symbol = d.symbol) :
    c = d := by
  obtain ⟨x, hx, hxc⟩ := hc
  obtain ⟨y, hy, hyd⟩ := hd
  by_cases hxy : x = y
  · subst hxy
    exact stands_injective hxc hyd heq
  · have hsymm : Std.Symm Apart := ⟨fun _ _ => Apart.symm⟩
    exact absurd heq ((h.forall hx hy hxy).symbol_ne hxc hyd)

/-! ## Injectivity -/

/-- The symbols a query declares are pairwise distinct, and where two of its expressions use one
symbol, they mean one constant. -/
structure SymbolsInjective (s : QueryScope) : Prop where
  declared : ((declarations s.versions s.vars).map fun c => c.1.symbol).Nodup
  used : ∀ m n cs ds, BaseInScope s.vars m → BaseInScope s.vars n →
    encodeMention s.versions s.vars m = .ok cs → encodeMention s.versions s.vars n = .ok ds →
      ∀ c ∈ cs, ∀ d ∈ ds, c.symbol = d.symbol → c = d

/-- The symbols of a query are injective exactly when no two of its scalars, no two of its vectors
and no two of its sequences have names written alike, and none of its scalars is named like one
of its vectors followed by `_len`. -/
theorem symbols_injective_iff (s : QueryScope) : SymbolsInjective s ↔ s.vars.Pairwise Apart := by
  constructor
  · intro h
    exact (declarations_nodup_iff s.versions s.vars).1 h.declared
  · intro h
    refine ⟨(declarations_nodup_iff s.versions s.vars).2 h, ?_⟩
    intro m n cs ds hm hn hcs hds c hc d hd heq
    exact symbol_injective h (encodeMention_stands hcs hm c hc) (encodeMention_stands hds hn d hd) heq

/-- `é` and `ü`, two integers. -/
def accented : QueryScope where
  bindings := [⟨"é", .int .i64, none⟩, ⟨"ü", .int .i64, none⟩]
  extraVars := []
  structs := []
  calls := []
  versions := []

/-- A vector `xs` and an integer `xs_len`. -/
def vectorAndLength : QueryScope where
  bindings := [⟨"xs", .vec (.int .i64), none⟩, ⟨"xs_len", .int .u64, none⟩]
  extraVars := []
  structs := []
  calls := []
  versions := [("xs", 0)]

/-- `é` and `ü` are one symbol; so are the length of `xs` and `xs_len`. -/
theorem accented_refutes : ¬SymbolsInjective accented ∧ ¬SymbolsInjective vectorAndLength := by
  constructor
  · intro h
    have hpair : accented.vars.Pairwise Apart :=
      (declarations_nodup_iff accented.versions accented.vars).1 h.declared
    have hapart : Apart ("é", .int .i64) ("ü", .int .i64) := by
      apply List.rel_of_pairwise_cons hpair
      apply List.mem_cons_self
    apply hapart.values rfl rfl
    simp [SameSpelling, Alike, Blurred]
  · intro h
    have hpair : vectorAndLength.vars.Pairwise Apart :=
      (declarations_nodup_iff vectorAndLength.versions vectorAndLength.vars).1 h.declared
    have hapart : Apart ("xs", .vec (.int .i64)) ("xs_len", .int .u64) := by
      apply List.rel_of_pairwise_cons hpair
      apply List.mem_cons_self
    exact hapart.lengthValue rfl rfl (SameSpelling.refl "xs_len")

end Vani.Analysis
