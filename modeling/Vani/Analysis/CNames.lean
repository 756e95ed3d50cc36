import Vani.Backend.EmitNames
import Vani.Analysis.SmtSymbols

/-!
# Identifiers of the emitted C

The names of the flat program are distinct once the checker has accepted it, whatever the passes
joined to make them. What the backend does to a name can still merge two: it writes one character
for all those that C does not take, and it leaves the names of external functions alone. Locals
meet in the same way, and where a scope binds one name twice.
-/

set_option autoImplicit false

namespace Vani.Analysis

open Vani.Program Vani.Backend Vani.Library

/-! ## Identifiers -/

theorem sanitizeIdent_eq_iff {m n : String} :
    sanitizeIdent m = sanitizeIdent n ↔ SameSpelling m n := by
  rw [← sanitize_eq_iff]
  exact (String.append_right_inj "v_").symm

/-- Every character of the identifier is one that C takes. -/
theorem sanitizeIdent_chars {n : String} :
    ∀ ch ∈ (sanitizeIdent n).toList, (ch.isAlphanum || ch == '_') = true := by
  intro ch hch
  unfold sanitizeIdent at hch
  rw [String.toList_map] at hch
  obtain ⟨c, -, rfl⟩ := List.mem_map.1 hch
  by_cases hc : (c.isAlphanum || c == '_') = true
  · simp only [hc, if_true]
  · simp [hc]

theorem sanitizeIdent_of_chars {n : String}
    (h : ∀ ch ∈ n.toList, (ch.isAlphanum || ch == '_') = true) : sanitizeIdent n = n := by
  unfold sanitizeIdent
  rw [← String.toList_inj, String.toList_map]
  exact map_respell_of_kept h

theorem sameSpelling_sanitizeIdent (n : String) : SameSpelling (sanitizeIdent n) n := by
  rw [← sanitizeIdent_eq_iff, sanitizeIdent_of_chars sanitizeIdent_chars]

/-- Two locals share an identifier exactly when their names are written alike. -/
theorem localIdents_disjoint_iff {m n : String} :
    List.Disjoint (localIdents m) (localIdents n) ↔ ¬SameSpelling m n := by
  constructor
  · intro h hsame
    have heq : localName m = localName n := by
      unfold localName
      rw [sanitizeIdent_eq_iff.2 hsame]
    apply h (a := localName m)
    · simp [localIdents]
    · simp [localIdents, heq]
  · intro h s hm hn
    apply h
    simp only [localIdents, localName, List.mem_cons, List.not_mem_nil, or_false] at hm hn
    rcases hm with rfl | rfl
    · rcases hn with hn | hn
      · exact sanitizeIdent_eq_iff.1 ((String.append_right_inj _).1 hn)
      · rw [← (String.append_right_inj _).1 hn]
        exact (sameSpelling_sanitizeIdent m).symm
    · rcases hn with hn | hn
      · rw [(String.append_right_inj _).1 hn]
        exact sameSpelling_sanitizeIdent n
      · rw [(String.append_right_inj _).1 hn]
        exact SameSpelling.refl n

/-! ## Functions -/

/-- The name of an external function is `fn_` before a name written like the given one. -/
def LikeEmitted (name n : String) : Prop :=
  ∃ w, name = "fn_" ++ w ∧ (∀ ch ∈ w.toList, (ch.isAlphanum || ch == '_') = true) ∧
    SameSpelling w n

theorem likeEmitted_iff {name n : String} : LikeEmitted name n ↔ name = functionName n := by
  unfold functionName
  constructor
  · rintro ⟨w, rfl, hchars, hsame⟩
    rw [← sanitizeIdent_eq_iff.2 hsame, sanitizeIdent_of_chars hchars]
  · rintro rfl
    exact ⟨sanitizeIdent n, rfl, sanitizeIdent_chars, sameSpelling_sanitizeIdent n⟩

/-- What the names of two functions must not share: two of the program's own are not written
alike, and an external one does not have the name the backend gives to another. -/
structure FunctionsApart (f g : TypedFunction) : Prop where
  own : f.isExtern = false → g.isExtern = false → f.name ≠ g.name → ¬SameSpelling f.name g.name
  external : f.isExtern = true → g.isExtern = false → ¬LikeEmitted f.name g.name
  external' : f.isExtern = false → g.isExtern = true → ¬LikeEmitted g.name f.name

theorem functionName_eq_iff {m n : String} : functionName m = functionName n ↔ SameSpelling m n :=
  (String.append_right_inj _).trans sanitizeIdent_eq_iff

theorem emittedName_ne_iff {f g : TypedFunction} (hne : f.name ≠ g.name) :
    emittedName f ≠ emittedName g ↔ FunctionsApart f g := by
  unfold emittedName
  cases hf : f.isExtern with
  | true =>
    cases hg : g.isExtern with
    | true =>
      simp only [if_true]
      refine iff_of_true hne ⟨?_, ?_, ?_⟩
      · simp [hf]
      · simp [hg]
      · simp [hf]
    | false =>
      simp only [if_true, Bool.false_eq_true, if_false]
      constructor
      · intro h
        refine ⟨?_, ?_, ?_⟩
        · simp [hf]
        · intro _ _ hlike
          exact h (likeEmitted_iff.1 hlike)
        · simp [hf]
      · intro h heq
        exact h.external hf hg (likeEmitted_iff.2 heq)
  | false =>
    cases hg : g.isExtern with
    | true =>
      simp only [if_true, Bool.false_eq_true, if_false]
      constructor
      · intro h
        refine ⟨?_, ?_, ?_⟩
        · simp [hg]
        · simp [hf]
        · intro _ _ hlike
          exact h (likeEmitted_iff.1 hlike).symm
      · intro h heq
        exact h.external' hf hg (likeEmitted_iff.2 heq.symm)
    | false =>
      simp only [Bool.false_eq_true, if_false]
      constructor
      · intro h
        refine ⟨?_, ?_, ?_⟩
        · intro _ _ _ hsame
          exact h (functionName_eq_iff.2 hsame)
        · simp [hf]
        · simp [hg]
      · intro h heq
        exact h.own hf hg hne (functionName_eq_iff.1 heq)

/-! ## Accepted programs -/

/-- The checker is silent exactly about functions with distinct names that it has not seen. -/
theorem redefinitions_eq_nil_iff {fs : List TypedFunction} : ∀ {seen : List String},
    redefinitions seen fs = [] ↔
      (fs.map TypedFunction.name).Nodup ∧ ∀ f ∈ fs, f.name ∉ seen := by
  induction fs with
  | nil => simp [redefinitions]
  | cons f fs ih =>
    intro seen
    simp only [redefinitions, List.append_eq_nil_iff, ih, List.map_cons, List.nodup_cons,
      List.mem_cons, List.mem_map, forall_eq_or_imp, not_or]
    by_cases hf : f.name ∈ seen
    · simp [hf]
    · constructor
      · rintro ⟨-, hnodup, hnew⟩
        refine ⟨⟨?_, hnodup⟩, hf, fun g hg => (hnew g hg).2⟩
        rintro ⟨g, hg, heq⟩
        exact (hnew g hg).1 heq
      · rintro ⟨⟨hfresh, hnodup⟩, -, hnew⟩
        refine ⟨by simp [hf], hnodup, fun g hg => ⟨?_, hnew g hg⟩⟩
        intro heq
        exact hfresh ⟨g, hg, heq⟩

/-! ## Injectivity -/

/-- The functions of a program have distinct C identifiers, and two locals that are visible at one
point of the C code share none. -/
structure CNamesInjective (fs : List FlatFunction) : Prop where
  functions : (fs.map fun f => emittedName f.fn).Nodup
  locals : ∀ f ∈ fs, ∀ Γ ∈ functionScopes f.fn,
    Γ.visible.Pairwise fun m n => List.Disjoint (localIdents m) (localIdents n)

/-- No two functions, and no two locals visible at one point, have names written alike. -/
structure CNamesApart (fs : List FlatFunction) : Prop where
  functions : fs.Pairwise fun f g => FunctionsApart f.fn g.fn
  locals : ∀ f ∈ fs, ∀ Γ ∈ functionScopes f.fn, Γ.visible.Pairwise fun m n => ¬SameSpelling m n

/-- The identifiers of an accepted program are injective exactly when no two of its functions and
no two locals visible at one point have names written alike. -/
theorem c_names_injective_iff (fs : List FlatFunction)
    (accepted : redefinitions [] (fs.map FlatFunction.fn) = []) :
    CNamesInjective fs ↔ CNamesApart fs := by
  have hnames : fs.Pairwise fun f g => f.fn.name ≠ g.fn.name := by
    have hnodup := (redefinitions_eq_nil_iff.1 accepted).1
    rw [List.map_map] at hnodup
    exact List.pairwise_map.1 hnodup
  constructor
  · intro h
    refine ⟨?_, ?_⟩
    · have hemitted := List.pairwise_map.1 h.functions
      exact (hnames.and hemitted).imp fun hfg => (emittedName_ne_iff hfg.1).1 hfg.2
    · intro f hf Γ hΓ
      exact (h.locals f hf Γ hΓ).imp fun hmn => localIdents_disjoint_iff.1 hmn
  · intro h
    refine ⟨?_, ?_⟩
    · apply List.pairwise_map.2
      exact (hnames.and h.functions).imp fun hfg => (emittedName_ne_iff hfg.1).2 hfg.2
    · intro f hf Γ hΓ
      exact (h.locals f hf Γ hΓ).imp fun hmn => localIdents_disjoint_iff.2 hmn

/-- A function at the top level without parameters. -/
def topLevel (name : String) (body : List TypedStmt) : FlatFunction where
  origin := .plain name
  fn := ⟨name, [], .int .i64, body, false, false⟩
  named := rfl

/-- `fn f` and `fn main` with `let x = 0; let y = 0;`. -/
def twoFunctions : List FlatFunction :=
  [topLevel "f" [], topLevel "main"
    [.let_ "x" (.int .i64) ⟨.int 0, .int .i64⟩, .let_ "y" (.int .i64) ⟨.int 0, .int .i64⟩]]

theorem twoFunctions_injective : CNamesInjective twoFunctions := by
  have haccepted : redefinitions [] (twoFunctions.map FlatFunction.fn) = [] := by decide
  apply (c_names_injective_iff twoFunctions haccepted).2
  refine ⟨?_, ?_⟩
  · apply List.pairwise_pair.2
    refine ⟨?_, nofun, nofun⟩
    intro _ _ _
    simp [topLevel, SameSpelling, Alike]
  · intro f hf Γ hΓ
    have hvisible : Γ.visible = [] ∨ Γ.visible = ["x"] ∨ Γ.visible = ["x", "y"] := by
      simp only [twoFunctions, List.mem_cons, List.not_mem_nil, or_false] at hf
      rcases hf with rfl | rfl
      · left
        simp [functionScopes, topLevel, stmtsScopes] at hΓ
        simp [hΓ, CScope.visible]
      · simp [functionScopes, topLevel, stmtsScopes, stmtScopes, exprScopes, CScope.declare,
          declares] at hΓ
        rcases hΓ with rfl | rfl | rfl | rfl | rfl <;> simp [CScope.visible]
    rcases hvisible with h | h | h
    all_goals
      rw [h]
      simp [SameSpelling, Alike, Blurred]

/-- `fn é` and `fn ü`. -/
def accentedFunctions : List FlatFunction := [topLevel "é" [], topLevel "ü" []]

/-- `let x = 0; let (x, y) = (1, 2);` -/
def destructuring : FlatFunction :=
  let pair := Ty.tuple [.int .i64, .int .i64]
  let temp : TypedExpr := ⟨.var "__intent_tup_16", pair⟩
  topLevel "main"
    [.let_ "x" (.int .i64) ⟨.int 0, .int .i64⟩,
      .let_ "__intent_tup_16" pair ⟨.tuple [⟨.int 1, .int .i64⟩, ⟨.int 2, .int .i64⟩], pair⟩,
      .let_ "x" (.int .i64) ⟨.tupleAccess temp 0, .int .i64⟩,
      .let_ "y" (.int .i64) ⟨.tupleAccess temp 1, .int .i64⟩]

/-- Both are accepted. The functions are both `fn__`; the scope declares `v_x` twice. -/
theorem accentedFunctions_refute :
    (redefinitions [] (accentedFunctions.map FlatFunction.fn) = [] ∧
      ¬CNamesInjective accentedFunctions) ∧
    (redefinitions [] ([destructuring].map FlatFunction.fn) = [] ∧
      ¬CNamesInjective [destructuring]) := by
  refine ⟨⟨by decide, ?_⟩, ⟨by decide, ?_⟩⟩
  · intro h
    have hne : functionName "é" ≠ functionName "ü" := List.pairwise_pair.1 h.functions
    apply hne
    apply functionName_eq_iff.2
    simp [SameSpelling, Alike, Blurred]
  · intro h
    have hscope : [["x", "__intent_tup_16", "x"]] ∈ functionScopes destructuring.fn := by
      simp [functionScopes, destructuring, topLevel, stmtsScopes, stmtScopes, exprScopes,
        CScope.declare, declares]
    have hpairs := h.locals destructuring (List.mem_singleton_self _) _ hscope
    have hdisjoint : List.Disjoint (localIdents "x") (localIdents "x") := by
      apply List.rel_of_pairwise_cons hpairs
      simp
    exact localIdents_disjoint_iff.1 hdisjoint (SameSpelling.refl "x")

end Vani.Analysis
