import Vani.Model.Machine

/-!
# What evaluation leaves alone

Evaluating an expression changes no binding outside the names it reports, in no scope,
and neither opens nor closes a binding of the scopes it found. The relation is kept
scope by scope, so it survives the end of a scope.
-/

set_option autoImplicit false

namespace Vani.Analysis

open Vani.Program Vani.Model

variable {W : Type}

/-- A scope after writes to the names of `w`: other names keep their values, and the same
names are bound. -/
structure SameExcept (w : List String) (s s' : Scope) : Prop where
  keep : ∀ n, n ∉ w → s' n = s n
  dom : ∀ n, (s' n).isSome = (s n).isSome

namespace SameExcept

variable {w w' : List String} {s s' s'' : Scope}

theorem refl : SameExcept w s s := ⟨fun _ _ => rfl, fun _ => rfl⟩

theorem mono (h : SameExcept w s s') (hsub : ∀ n, n ∈ w → n ∈ w') : SameExcept w' s s' :=
  ⟨fun n hn => h.keep n fun hw => hn (hsub n hw), h.dom⟩

theorem trans (h : SameExcept w s s') (h' : SameExcept w s' s'') : SameExcept w s s'' :=
  ⟨fun n hn => (h'.keep n hn).trans (h.keep n hn), fun n => (h'.dom n).trans (h.dom n)⟩

/-- Overwriting a bound name is a write to that name. -/
theorem update {n : String} {v : Value} (hbound : (s n).isSome = true) :
    SameExcept [n] s (Function.update s n (some v)) := by
  refine ⟨fun m hm => ?_, fun m => ?_⟩
  · rw [List.mem_singleton] at hm
    exact Function.update_of_ne hm _ _
  · by_cases hmn : m = n
    · subst hmn
      rw [Function.update_self, hbound, Option.isSome_some]
    · rw [Function.update_of_ne hmn]

end SameExcept

/-- The names among `w` that a scope does not bind: writes to them reach the scopes
outside. -/
def passing (w : List String) (s : Scope) : List String := w.filter fun n => (s n).isNone

theorem mem_passing {w : List String} {s : Scope} {n : String} :
    n ∈ passing w s ↔ n ∈ w ∧ s n = none := by
  simp [passing]

theorem passing_mono {w w' : List String} {s : Scope} (hsub : ∀ n, n ∈ w → n ∈ w') (n : String)
    (hn : n ∈ passing w s) : n ∈ passing w' s := by
  rw [mem_passing] at hn ⊢
  exact ⟨hsub n hn.1, hn.2⟩

/-- `SameExcept`, scope by scope: a write reaches the innermost binding of its name. -/
inductive ScopesWrite : List String → List Scope → List Scope → Prop
  | nil {w} : ScopesWrite w [] []
  | cons {w s s' ss ss'} : SameExcept w s s' → ScopesWrite (passing w s) ss ss' →
      ScopesWrite w (s :: ss) (s' :: ss')

theorem ScopesWrite.refl (w : List String) (ss : List Scope) : ScopesWrite w ss ss := by
  induction ss generalizing w with
  | nil => exact .nil
  | cons s ss ih => exact .cons .refl (ih _)

theorem ScopesWrite.mono {w w' : List String} {ss ss' : List Scope}
    (h : ScopesWrite w ss ss') (hsub : ∀ n, n ∈ w → n ∈ w') : ScopesWrite w' ss ss' := by
  induction h generalizing w' with
  | nil => exact .nil
  | cons hs _ ih => exact .cons (hs.mono hsub) (ih (passing_mono hsub))

theorem ScopesWrite.trans {w : List String} {ss ss' ss'' : List Scope}
    (h : ScopesWrite w ss ss') (h' : ScopesWrite w ss' ss'') : ScopesWrite w ss ss'' := by
  induction h generalizing ss'' with
  | nil => exact h'
  | @cons w s s' ss ss' hs _ ih =>
    cases h' with
    | @cons _ _ s'' _ ss'' hs' htail =>
      refine .cons (hs.trans hs') (ih (htail.mono fun n hn => ?_))
      rw [mem_passing] at hn ⊢
      have hdom := hs.dom n
      rw [hn.2] at hdom
      exact ⟨hn.1, by simpa using hdom.symm⟩

theorem ScopesWrite.tail {w : List String} {ss ss' : List Scope}
    (h : ScopesWrite w ss ss') : ScopesWrite w ss.tail ss'.tail := by
  cases h with
  | nil => exact .nil
  | cons _ htail => exact htail.mono fun _ hn => (mem_passing.1 hn).1

theorem ScopesWrite.length_eq {w : List String} {ss ss' : List Scope}
    (h : ScopesWrite w ss ss') : ss.length = ss'.length := by
  induction h with
  | nil => rfl
  | cons _ _ ih => simp [ih]

/-- The innermost binding of a name, before and after writes elsewhere. -/
theorem ScopesWrite.lookup {w : List String} {ss ss' : List Scope}
    (h : ScopesWrite w ss ss') {n : String} (hn : n ∉ w) :
    lookupScopes ss' n = lookupScopes ss n := by
  induction h with
  | nil => rfl
  | cons hs _ ih =>
    rw [lookupScopes, lookupScopes, hs.keep n hn, ih fun hmem => hn (mem_passing.1 hmem).1]

theorem ScopesWrite.assign (ss : List Scope) (n : String) (v : Value) :
    ScopesWrite [n] ss (assignScopes ss n v) := by
  induction ss with
  | nil => exact .nil
  | cons s rest ih =>
    rw [assignScopes]
    cases hs : s n with
    | none =>
      refine .cons .refl (ih.mono fun m hm => ?_)
      rw [List.mem_singleton] at hm
      rw [mem_passing, hm]
      exact ⟨List.mem_singleton_self n, hs⟩
    | some old =>
      exact .cons (SameExcept.update (by rw [hs]; rfl)) (ScopesWrite.refl _ _)

/-- A store after writes to the names of `w`; `"@"` among them stands for the world. -/
structure Writes (w : List String) (σ σ' : Store W) : Prop where
  scopes : ScopesWrite w σ.scopes σ'.scopes
  ghosts : ∀ n, n ∉ w → σ'.ghosts n = σ.ghosts n
  world : worldName ∉ w → σ'.world = σ.world

namespace Writes

variable {w w' : List String} {σ σ' σ'' : Store W}

theorem refl : Writes w σ σ := ⟨ScopesWrite.refl _ _, fun _ _ => rfl, fun _ => rfl⟩

theorem mono (h : Writes w σ σ') (hsub : ∀ n, n ∈ w → n ∈ w') : Writes w' σ σ' :=
  ⟨h.scopes.mono hsub, fun n hn => h.ghosts n fun hw => hn (hsub n hw),
    fun hw => h.world fun hmem => hw (hsub _ hmem)⟩

theorem trans_same (h : Writes w σ σ') (h' : Writes w σ' σ'') : Writes w σ σ'' :=
  ⟨h.scopes.trans h'.scopes, fun n hn => (h'.ghosts n hn).trans (h.ghosts n hn),
    fun hw => (h'.world hw).trans (h.world hw)⟩

theorem trans (h : Writes w σ σ') (h' : Writes w' σ' σ'') : Writes (w ++ w') σ σ'' :=
  (h.mono fun _ hn => List.mem_append_left _ hn).trans_same
    (h'.mono fun _ hn => List.mem_append_right _ hn)

theorem pop (h : Writes w σ σ') : Writes w σ.pop σ'.pop :=
  ⟨h.scopes.tail, h.ghosts, h.world⟩

theorem assign (σ : Store W) (n : String) (v : Value) : Writes [n] σ (σ.assign n v) :=
  ⟨ScopesWrite.assign _ _ _, fun _ _ => rfl, fun _ => rfl⟩

theorem snapshot (σ : Store W) (n : String) (v : Value) : Writes [n] σ (σ.snapshot n v) :=
  ⟨ScopesWrite.refl _ _, fun _ hm => Function.update_of_ne (fun h => hm (by simp [h])) _ _,
    fun _ => rfl⟩

/-- A name not written keeps its value. -/
theorem lookup (h : Writes w σ σ') {n : String} (hn : n ∉ w) : σ'.lookup n = σ.lookup n := by
  rw [Store.lookup, Store.lookup, h.scopes.lookup hn, h.ghosts n hn]

/-- Storing a callee's results writes to the places lent to it. -/
theorem writeBack {ps : List (String × Option String)} {vs : List Value} {σ σ' : Store W}
    (h : writeBack ps vs σ = some σ') : Writes (ps.map Prod.fst) σ σ' := by
  induction ps generalizing vs σ with
  | nil =>
    cases vs with
    | nil =>
      cases h
      exact refl
    | cons v vs => cases h
  | cons p ps ih =>
    obtain ⟨n, f⟩ := p
    cases vs with
    | nil => cases h
    | cons v vs =>
      rw [Vani.Model.writeBack] at h
      cases hn : lookupScopes σ.scopes n with
      | none => rw [hn] at h; cases h
      | some old =>
        rw [hn] at h
        exact (assign σ n _).trans (ih h)

end Writes

/-- Binding a name leaves the outer scopes alone. -/
@[simp] theorem pop_declare (σ : Store W) (n : String) (v : Value) :
    (σ.declare n v).pop = σ.pop := by
  unfold Store.declare
  split
  · rfl
  · next hs => rw [Store.pop, Store.pop, hs]; rfl

@[simp] theorem pop_push (σ : Store W) : σ.push.pop = σ := rfl

/-- So does binding a list of names. -/
@[simp] theorem pop_declareAll (bs : List (String × Value)) (σ : Store W) :
    (declareAll bs σ).pop = σ.pop := by
  induction bs generalizing σ with
  | nil => rfl
  | cons b bs ih => rw [declareAll, ih, pop_declare]

/-- What a name means after a declaration. -/
theorem lookupScopes_declare {n m : String} (σ : Store W) (v : Value) (hmn : m ≠ n) :
    lookupScopes (σ.declare n v).scopes m = lookupScopes σ.scopes m := by
  unfold Store.declare
  cases hs : σ.scopes with
  | nil => simp [hs]
  | cons s rest => simp [lookupScopes, Function.update_of_ne hmn]

/-- A name that has just been bound. -/
theorem lookupScopes_declare_self {σ : Store W} {n : String} {v : Value}
    (hne : σ.scopes ≠ []) : lookupScopes (σ.declare n v).scopes n = some v := by
  cases hs : σ.scopes with
  | nil => exact absurd hs hne
  | cons s rest => simp [Store.declare, hs, lookupScopes]

theorem lookupScopes_declareAll {bs : List (String × Value)} (σ : Store W) {m : String}
    (hm : m ∉ bs.map Prod.fst) :
    lookupScopes (declareAll bs σ).scopes m = lookupScopes σ.scopes m := by
  induction bs generalizing σ with
  | nil => rfl
  | cons b bs ih =>
    rw [List.map_cons, List.mem_cons, not_or] at hm
    rw [declareAll, ih _ hm.2, lookupScopes_declare σ b.2 hm.1]

@[simp] theorem length_declare (σ : Store W) (n : String) (v : Value) :
    (σ.declare n v).scopes.length = σ.scopes.length := by
  unfold Store.declare
  cases hs : σ.scopes with
  | nil => simp [hs]
  | cons s rest => rfl

@[simp] theorem length_declareAll (bs : List (String × Value)) (σ : Store W) :
    (declareAll bs σ).scopes.length = σ.scopes.length := by
  induction bs generalizing σ with
  | nil => rfl
  | cons b bs ih => rw [declareAll, ih, length_declare]

/-- The stores an evaluation relates: block statements may add to the innermost scope,
everything else leaves all scopes in place. -/
def Framed (c : Code) (w : List String) (σ σ' : Store W) : Prop :=
  match c with
  | .stmts _ => Writes w σ.pop σ'.pop
  | _ => Writes w σ σ'

variable {P : Prims W} {T : Nominal}

/-- An evaluation writes to no name but those it reports. -/
theorem Eval.framed {c : Code} {σ σ' : Store W} {r : Result} {w : List String}
    (h : Eval P T c σ r σ' w) : Framed c w σ σ' := by
  induction h with
  | literal _ => exact Writes.refl
  | var _ => exact Writes.refl
  | strict _ _ _ ih => exact ih
  | short _ _ _ ih => exact ih
  | long _ _ _ _ ih ih' => exact Writes.trans ih ih'
  | pureCall _ _ _ _ hback ih => exact Writes.trans ih (Writes.writeBack hback)
  | @call e n args vs v outs x σ σ' σ'' w _ _ _ _ hback ih =>
    -- the world changes first, then the places lent to the callee
    have hworld : Writes [worldName] σ' { σ' with world := x } :=
      ⟨ScopesWrite.refl _ _, fun _ _ => rfl, fun hw => absurd (List.mem_singleton.2 rfl) hw⟩
    exact Writes.trans ih (hworld.trans (Writes.writeBack hback))
  | ifExpr _ _ ih ih' => exact Writes.trans ih ih'
  | match_ _ _ _ ih ih' =>
    have hbody := Writes.pop ih'
    rw [pop_declareAll, pop_push] at hbody
    exact Writes.trans ih hbody
  | block _ _ ih ih' => exact Writes.trans ih (Writes.pop ih')
  | argsNil => exact Writes.refl
  | argsCons _ _ ih ih' => exact Writes.trans ih ih'
  | stmtsNil => exact Writes.refl
  | @let_ n ann e ss v v' σ σ' σ'' w w' _ _ _ _ ih ih' =>
    have hrest : Writes w' σ'.pop σ''.pop := by
      have h := ih'
      simp only [Framed, pop_declare] at h
      exact h
    exact Writes.trans (Writes.pop ih) hrest
  | discard _ _ ih ih' => exact Writes.trans (Writes.pop ih) ih'
  | assign _ _ _ _ ih ih' =>
    have hassign := (Writes.assign _ _ _).pop.trans ih'
    exact Writes.trans (Writes.pop ih) hassign
  | print _ _ ih ih' => exact Writes.trans (Writes.pop ih) ih'
  | whileFalse _ _ ih ih' => exact Writes.trans (Writes.pop ih) ih'
  | whileTrue _ _ _ _ ih ih' ih'' =>
    exact Writes.trans (Writes.pop ih) (Writes.trans ih' ih'')

/-- The same for one expression. -/
theorem Eval.writes {e : Expr} {σ σ' : Store W} {r : Result} {w : List String}
    (h : Eval P T (.expr e) σ r σ' w) : Writes w σ σ' :=
  Eval.framed h

/-- And for an operand list. -/
theorem Eval.writes_args {es : List Expr} {σ σ' : Store W} {r : Result} {w : List String}
    (h : Eval P T (.args es) σ r σ' w) : Writes w σ σ' :=
  Eval.framed h

end Vani.Analysis
