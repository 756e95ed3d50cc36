import Vani.Analysis.Agreement
import Vani.Analysis.Substitution

/-!
# Facts that hold

A fact holds in a store when it evaluates to `true` there. A fact that speaks of a
variable which is not bound any more, such as the bound a finished `for` leaves behind
about its own variable, is passed over by the encoder, and so it is here.
-/

set_option autoImplicit false

namespace Vani.Analysis

open Vani.Program Vani.Model

variable {W : Type}

/-- Every variable of the expression is bound. Source: smt.rs:605-612 -/
def Resolves (P : Prims W) (T : Nominal) (σ : Store W) (f : Expr) : Prop :=
  ∀ n, n ∈ exprNames P T f → exprMentions n f = true → T.isEnum n = false →
    T.isStruct n = false → (σ.lookup n).isSome = true

/-- The expression evaluates to `true`. -/
def EvalsTrue (P : Prims W) (T : Nominal) (σ : Store W) (f : Expr) : Prop :=
  ∃ σ' w, Eval P T (.expr f) σ (.val (.scalar (.bool true))) σ' w

/-- The fact holds in the store. -/
def Holds (P : Prims W) (T : Nominal) (σ : Store W) (f : Expr) : Prop :=
  Resolves P T σ f → EvalsTrue P T σ f

/-- All the facts hold. -/
def FactsHold (P : Prims W) (T : Nominal) (σ : Store W) (fs : List Expr) : Prop :=
  ∀ f, f ∈ fs → Holds P T σ f

/-- An expression depends on none of the names. -/
def Untouched (P : Prims W) (T : Nominal) (ns : List String) (f : Expr) : Prop :=
  ∀ n, n ∈ ns → n ∉ exprNames P T f

variable {P : Prims W} {T : Nominal} {σ σ' σ'' τ : Store W} {f : Expr} {fs gs : List Expr}

theorem EvalsTrue.holds (h : EvalsTrue P T σ f) : Holds P T σ f := fun _ => h

theorem FactsHold.append (h : FactsHold P T σ fs) (h' : FactsHold P T σ gs) :
    FactsHold P T σ (fs ++ gs) :=
  fun f hf => (List.mem_append.1 hf).elim (h f) (h' f)

theorem FactsHold.left (h : FactsHold P T σ (fs ++ gs)) : FactsHold P T σ fs :=
  fun f hf => h f (List.mem_append_left _ hf)

theorem FactsHold.right (h : FactsHold P T σ (fs ++ gs)) : FactsHold P T σ gs :=
  fun f hf => h f (List.mem_append_right _ hf)

/-- The names of an expression resolve alike in the two stores. -/
def SameFor (P : Prims W) (T : Nominal) (f : Expr) (σ τ : Store W) : Prop :=
  Agree (worldName ∈ exprNames P T f) [] (exprNames P T f) σ τ

theorem SameFor.symm (h : SameFor P T f σ τ) : SameFor P T f τ σ :=
  ⟨fun n hn => (h.scopes n hn).symm, fun n hn => (h.ghosts n hn).symm,
    fun hw => (h.world hw).symm⟩

theorem SameFor.trans (h : SameFor P T f σ σ') (h' : SameFor P T f σ' σ'') :
    SameFor P T f σ σ'' :=
  ⟨fun n hn => (h.scopes n hn).trans (h'.scopes n hn),
    fun n hn => (h.ghosts n hn).trans (h'.ghosts n hn),
    fun hw => (h.world hw).trans (h'.world hw)⟩

/-- An expression evaluates alike in stores that agree on its names. -/
theorem SameFor.eval (h : SameFor P T f σ τ) {r : Result} {w : List String}
    (heval : Eval P T (.expr f) σ r σ' w) : ∃ τ', Eval P T (.expr f) τ r τ' w := by
  obtain ⟨τ', hτ, _⟩ := Eval.follows heval _ [] _ τ ⟨List.Subset.refl _, id⟩ h
  exact ⟨τ', hτ⟩

theorem SameFor.evalsTrue (h : SameFor P T f σ τ) (hf : EvalsTrue P T σ f) :
    EvalsTrue P T τ f := by
  obtain ⟨σ', w, heval⟩ := hf
  obtain ⟨τ', hτ⟩ := h.eval heval
  exact ⟨τ', w, hτ⟩

theorem SameFor.resolves (h : SameFor P T f σ τ) (hf : Resolves P T σ f) :
    Resolves P T τ f := by
  intro n hn hm he hs
  have hlook : σ.lookup n = τ.lookup n := Agree.lookup h hn
  rw [← hlook]
  exact hf n hn hm he hs

theorem SameFor.holds (h : SameFor P T f σ τ) (hf : Holds P T σ f) : Holds P T τ f :=
  fun hres => h.evalsTrue (hf (h.symm.resolves hres))

/-! ## Which changes to the store leave an expression alone -/

/-- Writes to other names. -/
theorem Writes.sameFor {w : List String} (h : Writes w σ τ) (hf : Untouched P T w f) :
    SameFor P T f σ τ :=
  ⟨fun n hn => (h.scopes.lookup fun hw => hf n hw hn).symm,
    fun n hn => (h.ghosts n fun hw => hf n hw hn).symm,
    fun hw => (h.world fun hmem => hf _ hmem hw).symm⟩

@[simp] theorem ghosts_declare (σ : Store W) (n : String) (v : Value) :
    (σ.declare n v).ghosts = σ.ghosts := by
  unfold Store.declare; cases σ.scopes <;> rfl

@[simp] theorem world_declare (σ : Store W) (n : String) (v : Value) :
    (σ.declare n v).world = σ.world := by
  unfold Store.declare; cases σ.scopes <;> rfl

/-- A declaration of another name. -/
theorem sameFor_declare {n : String} (σ : Store W) (v : Value) (hn : n ∉ exprNames P T f) :
    SameFor P T f σ (σ.declare n v) := by
  refine ⟨fun m hm => ?_, fun m _ => by rw [ghosts_declare], fun _ => (world_declare ..).symm⟩
  have hmn : m ≠ n := fun h => hn (h ▸ hm)
  rw [lookupScopes_declare σ v hmn]

/-- Opening a scope. -/
theorem sameFor_push (f : Expr) (σ : Store W) : SameFor P T f σ σ.push :=
  ⟨fun _ _ => rfl, fun _ _ => rfl, fun _ => rfl⟩

/-- Facts that are left alone stay true. -/
theorem FactsHold.transfer (h : FactsHold P T σ fs) (hsame : ∀ f, f ∈ fs → SameFor P T f σ τ) :
    FactsHold P T τ fs :=
  fun f hf => (hsame f hf).holds (h f hf)

end Vani.Analysis
