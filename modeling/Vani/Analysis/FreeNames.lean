import Mathlib.Data.List.Basic
import Mathlib.Data.List.Lemmas
import Vani.Analysis.Names
import Vani.Model.EarlyReturn

/-!
# What a body depends on

`freeBody` lists the free occurrences of names in a body, in the order of the text. A body
runs alike whatever stands under a name that does not occur free in it. This is shown on
memories with a hole among the variables: entries of that name, put into the hole, take no
part in a run.
-/

set_option autoImplicit false

namespace Vani.Analysis

open Vani.Program Vani.Model

variable {W : Type}

/-! ## Free occurrences -/

/-- Take bound names out of a list of occurrences. -/
def unbound (bound names : List String) : List String := names.filter fun n => n ∉ bound

@[simp] theorem mem_unbound {bound names : List String} {n : String} :
    n ∈ unbound bound names ↔ n ∈ names ∧ n ∉ bound := by simp [unbound]

@[simp] theorem unbound_nil (names : List String) : unbound [] names = names := by simp [unbound]

/-- The names a statement binds for the statements after it. -/
def declared : Stmt → List String
  | .let_ n _ _ => if n = "_" then [] else [n]
  | .letTuple names _ _ => names
  | .taskSpawn n _ => [n]
  | _ => []

mutual

/-- The free occurrences in an expression. The name of a nominal type is none. -/
def freeExpr (T : Nominal) : Expr → List String
  | .int _ | .float _ | .bool _ | .str _ => []
  | .var n => [n]
  | .unary _ e | .cast e _ | .len e | .ref e | .tupleAccess e _ | .try_ e => freeExpr T e
  | .refMut e => match Model.place e with
    | some p => [p.1]
    | none => freeExpr T e
  | .binary _ l r | .index l r => freeExpr T l ++ freeExpr T r
  | .call f args => f :: freeArgs T args
  | .methodCall receiver _ args =>
    (match receiver with
      | .var n => if T.isEnum n ∨ T.isStruct n then [] else [n]
      | e => match Model.place e with
        | some p => [p.1]
        | none => freeExpr T e) ++ freeArgs T args
  | .arrayLit es | .tuple es => freeArgs T es
  | .structLit _ fs => freeFields T fs
  | .fieldAccess e _ => match e with
    | .var n => if T.isEnum n then [] else [n]
    | e => freeExpr T e
  | .match_ s arms => freeExpr T s ++ freeArms T arms
  | .ifExpr c t f => freeExpr T c ++ (freeExpr T t ++ freeExpr T f)
  | .block ss tail => freeBody T ss (freeExpr T tail)
  | .anonFn params _ body => unbound (params.map Param.name) (freeBody T body [])

def freeArgs (T : Nominal) : List Expr → List String
  | [] => []
  | e :: es => freeExpr T e ++ freeArgs T es

def freeFields (T : Nominal) : List (String × Expr) → List String
  | [] => []
  | (_, e) :: fs => freeExpr T e ++ freeFields T fs

def freeArms (T : Nominal) : List (Pattern × Expr) → List String
  | [] => []
  | (p, e) :: arms => unbound (patternNames p) (freeExpr T e) ++ freeArms T arms

def freeItems (T : Nominal) : List PrintItem → List String
  | [] => []
  | .expr e :: items => freeExpr T e ++ freeItems T items
  | .str _ :: items => freeItems T items

/-- The free occurrences in a statement. -/
def freeStmt (T : Nominal) : Stmt → List String
  | .let_ _ _ e | .letTuple _ _ e | .return_ e | .assert e _ | .prove e => freeExpr T e
  | .print items => freeItems T items
  | .if_ c t f => freeExpr T c ++ (freeBody T t [] ++ freeBody T f [])
  | .while_ c invs body => freeExpr T c ++ (freeArgs T invs ++ freeBody T body [])
  | .assign n e => n :: freeExpr T e
  | .break_ | .continue_ => []
  | .indexAssign n i _ e => n :: (freeExpr T i ++ freeExpr T e)
  | .fieldAssign obj _ e =>
    (match objectPlace obj with
      | some p => [p.1]
      | none => freeExpr T obj) ++ freeExpr T e
  | .for_ x s e invs body _ reds =>
    freeExpr T s ++ (freeExpr T e ++ (unbound [x] (freeArgs T invs ++ freeBody T body []) ++
      reds.map Reduction.var))
  | .forIter x xs _ body => xs :: unbound [x] (freeBody T body [])
  | .taskSpawn _ body => freeBody T body []
  | .taskJoin n => [n]

/-- The free occurrences in statements and in what follows them. -/
def freeBody (T : Nominal) : List Stmt → List String → List String
  | [], tail => tail
  | s :: ss, tail => freeStmt T s ++ unbound (declared s) (freeBody T ss tail)

end

/-- The free occurrences in a loop. -/
def freeLoop (T : Nominal) : Loop → List String
  | .while_ c body => freeExpr T c ++ freeBody T body []
  | .range x _ body => x :: unbound [x] (freeBody T body [])
  | .each x xs _ _ body => xs :: unbound [x] (freeBody T body [])

/-- The free occurrences in a fragment. -/
def freeFragment (T : Nominal) : Fragment → List String
  | .expr e => freeExpr T e
  | .args es => freeArgs T es
  | .stmt s => freeStmt T s
  | .body ss tail => freeBody T ss (tail.elim [] (freeExpr T))
  | .test lp => freeLoop T lp
  | .turn lp bs => freeLoop T lp ++ unbound (bs.map Prod.fst) (freeBody T lp.body [])

variable {S : Setting W} {T : Nominal} {n : String}

/-! ## Fragments inside a fragment -/

attribute [local simp] freeExpr freeArgs freeFields freeArms freeItems freeStmt freeBody

theorem freeArgs_map_snd (fs : List (String × Expr)) :
    freeArgs T (fs.map Prod.snd) = freeFields T fs := by
  induction fs with
  | nil => rfl
  | cons f fs ih => obtain ⟨m, e⟩ := f; rw [List.map_cons, freeArgs, freeFields, ih]

theorem freeArgs_printExprs (items : List PrintItem) :
    freeArgs T (printExprs items) = freeItems T items := by
  induction items with
  | nil => rfl
  | cons item items ih =>
    cases item with
    | expr e => rw [printExprs, freeArgs, freeItems, ih]
    | str s => rw [printExprs, freeItems, ih]

/-- The occurrences in a place are those of its variable. -/
theorem freeExpr_place {e : Expr} {p : String × Option String} (h : Model.place e = some p) :
    freeExpr T e ⊆ [p.1] := by
  cases e with
  | var m => cases h; exact fun _ hm => by simpa [freeExpr] using hm
  | fieldAccess o f =>
    cases o with
    | var m =>
      cases h
      intro x hx
      rw [freeExpr] at hx
      split at hx
      · cases hx
      · exact hx
    | _ => cases h
  | _ => cases h

/-- Lending a place does not lose its occurrences. -/
theorem freeExpr_refMut (e : Expr) : freeExpr T e ⊆ freeExpr T (.refMut e) := by
  rw [freeExpr.eq_def T (.refMut e)]
  cases hp : Model.place e with
  | some p => simpa [hp] using freeExpr_place hp
  | none => simp [hp]

/-- The operands of a strict construct occur in it. -/
theorem operands_free {e : Expr} {op : StrictOp} {es : List Expr}
    (h : operands T e = some (op, es)) : freeArgs T es ⊆ freeExpr T e := by
  intro m hm
  cases e with
  | unary _ e => cases h; simpa [freeArgs, freeExpr] using hm
  | binary op l r =>
    rw [operands] at h
    split at h
    · cases h
    · cases h; simpa [freeArgs, freeExpr] using hm
  | cast e ty => cases h; simpa [freeArgs, freeExpr] using hm
  | arrayLit es => cases h; simpa [freeExpr] using hm
  | index a i => cases h; simpa [freeArgs, freeExpr] using hm
  | len a => cases h; simpa [freeArgs, freeExpr] using hm
  | ref e => cases h; simpa [freeArgs, freeExpr] using hm
  | refMut e =>
    cases h
    exact freeExpr_refMut e (by simpa [freeArgs] using hm)
  | tuple es => cases h; simpa [freeExpr] using hm
  | tupleAccess e i => cases h; simpa [freeArgs, freeExpr] using hm
  | structLit k fs => cases h; rw [freeArgs_map_snd] at hm; simpa [freeExpr] using hm
  | fieldAccess e f =>
    cases e <;> simp only [operands] at h
    case var k =>
      split at h
      · cases h; cases hm
      · next henum => cases h; simpa [freeArgs, freeExpr, henum] using hm
    all_goals
      cases h
      rw [freeArgs, freeArgs, List.append_nil] at hm
      rwa [freeExpr.eq_def]
  | methodCall receiver k args =>
    cases receiver <;> simp only [operands] at h
    case var x =>
      split at h <;> cases h
      rw [freeExpr]
      exact List.mem_append_right _ hm
    all_goals cases h
  | call k args =>
    rw [operands, Option.map_eq_some_iff] at h
    obtain ⟨op', _, hop⟩ := h
    cases hop
    rw [freeExpr]
    exact List.mem_cons_of_mem _ hm
  | _ => cases h

/-- The arguments of a call occur in it, the receiver of a method among them. -/
theorem asCall_free {P : Prims W} {e : Expr} {f : String} {args : List Expr}
    (h : asCall P T e = some (f, args)) : freeArgs T args ⊆ freeExpr T e := by
  cases e with
  | call k as =>
    rw [asCall] at h
    cases hb : builtinOp k as with
    | some op => rw [hb] at h; cases h
    | none =>
      rw [hb] at h
      cases h
      rw [freeExpr]
      exact fun _ hm => List.mem_cons_of_mem _ hm
  | methodCall receiver k as =>
    intro m hm
    cases receiver <;> simp only [asCall] at h
    case var x =>
      split at h
      · cases h
      · next henum =>
        rw [freeExpr]
        split at h
        · cases h
          exact List.mem_append_right _ hm
        · next hstruct =>
          cases h
          rw [if_neg (by tauto)]
          split at hm <;> simpa [freeArgs, freeExpr, Model.place] using hm
    all_goals
      cases h
      rw [freeExpr.eq_def]
      split at hm <;> rw [freeArgs] at hm
      · exact hm
      · exact List.mem_append.2 ((List.mem_append.1 hm).imp
          (fun hm => by simpa [freeExpr] using freeExpr_refMut _ hm) id)
  | _ => cases h

/-- The places a call lends out occur in its arguments. -/
theorem mutTargets_free (args : List Expr) :
    (mutTargets args).map Prod.fst ⊆ freeArgs T args := by
  induction args with
  | nil => exact fun _ hm => hm
  | cons e args ih =>
    have hskip : ∀ x, x ∈ (mutTargets args).map Prod.fst → x ∈ freeArgs T (e :: args) :=
      fun x hx => List.mem_append_right _ (ih hx)
    intro x hx
    cases e with
    | refMut inner =>
      rw [mutTargets] at hx
      cases hp : Model.place inner with
      | none => rw [hp] at hx; exact hskip x hx
      | some p =>
        rw [hp] at hx
        rcases List.mem_cons.1 hx with hx | hx
        · exact List.mem_append_left _ (by simp [freeExpr, hp, hx])
        · exact hskip x hx
    | _ => exact hskip x hx

theorem callOperands_free {e : Expr} {es : List Expr} (h : callOperands S e = some es) :
    freeArgs S.nominal es ⊆ freeExpr S.nominal e := by
  rw [callOperands] at h
  cases ho : operands S.nominal e with
  | some p => rw [ho] at h; cases h; exact operands_free ho
  | none =>
    rw [ho] at h
    obtain ⟨⟨f, args⟩, hcall, rfl⟩ := Option.map_eq_some_iff.1 h
    exact asCall_free hcall

theorem scrutinee_free {e s : Expr} (h : scrutinee e = some s) : freeExpr T s ⊆ freeExpr T e := by
  intro m hm
  cases e with
  | binary op l r =>
    rw [scrutinee] at h
    split at h
    · cases h; exact List.mem_append_left _ hm
    · cases h
  | ifExpr c t f => cases h; exact List.mem_append_left _ hm
  | match_ u arms => cases h; exact List.mem_append_left _ hm
  | _ => cases h

/-- What occurs in the selected arm occurs in the match, or its pattern binds it. -/
theorem selectArm_free {arms : List (Pattern × Expr)} {v : Value} {bs : List (String × Value)}
    {body : Expr} (h : selectArm arms v = some (bs, body)) (m : String)
    (hm : m ∈ freeExpr T body) : m ∈ bs.map Prod.fst ∨ m ∈ freeArms T arms := by
  induction arms with
  | nil => cases h
  | cons arm arms ih =>
    obtain ⟨p, e⟩ := arm
    rw [selectArm] at h
    cases hp : matchPattern p v with
    | none => rw [hp] at h; exact (ih h).imp id fun hmem => List.mem_append_right _ hmem
    | some bs' =>
      rw [hp] at h
      cases h
      rw [matchPattern_names hp]
      by_cases hb : m ∈ patternNames p
      · exact .inl hb
      · exact .inr (List.mem_append_left _ (mem_unbound.2 ⟨hm, hb⟩))

theorem chosen_free {e e' : Expr} {u : Value} {bs : List (String × Value)}
    (h : chosen e u = some (bs, e')) (m : String) (hm : m ∈ freeExpr T e') :
    m ∈ bs.map Prod.fst ∨ m ∈ freeExpr T e := by
  unfold chosen at h
  split at h
  · cases h
    refine .inr (List.mem_append_right _ ?_)
    split at hm
    · cases hm
    · exact hm
  · cases h
    refine .inr (List.mem_append_right _ ?_)
    split at hm
    · exact List.mem_append_left _ hm
    · exact List.mem_append_right _ hm
  · exact (selectArm_free h m hm).imp id fun hm => List.mem_append_right _ hm
  · cases h

theorem initializer_free {s : Stmt} {e : Expr} (h : initializer s = some e) :
    freeStmt T s = freeExpr T e := by
  cases s <;> cases h <;> rfl

/-- The statement binds what it declares. -/
theorem bindings_declared {P : Prims W} {s : Stmt} {v : Value} {bs : List (String × Value)}
    (h : bindings P s v = some bs) : ∀ m ∈ declared s, m ∈ bs.map Prod.fst := by
  intro m hm
  unfold bindings at h
  split at h
  · split at h
    · next hn => rw [declared, if_pos hn] at hm; cases hm
    · next hn =>
      obtain ⟨v', _, rfl⟩ := Option.map_eq_some_iff.1 h
      rwa [declared, if_neg hn] at hm
  · split at h
    · next hlen =>
      cases h
      simpa [declared, List.map_fst_zip hlen.le] using hm
    · cases h
  · cases h

theorem computedFrom_free {s : Stmt} {es : List Expr} (h : computedFrom s = some es) :
    freeArgs T es ⊆ freeStmt T s := by
  intro m hm
  cases s with
  | print items => cases h; rwa [freeArgs_printExprs] at hm
  | assign k e => cases h; exact List.mem_cons_of_mem _ (by simpa [freeArgs] using hm)
  | assert e msg => cases h; simpa [freeArgs, freeStmt] using hm
  | fieldAssign obj f e =>
    cases h
    exact List.mem_append_right _ (by simpa [freeArgs] using hm)
  | indexAssign k i path e =>
    cases h
    exact List.mem_cons_of_mem _ (by simpa [freeArgs] using hm)
  | _ => cases h <;> cases hm

/-- What is evaluated first in a fragment occurs in it. -/
theorem first_free {c c' : Fragment} (h : first S c = some c') :
    freeFragment S.nominal c' ⊆ freeFragment S.nominal c := by
  intro m hm
  unfold first at h
  split at h
  · cases h; exact hm
  · split at h
    · next hs => cases h; exact scrutinee_free hs hm
    · obtain ⟨es, hes, rfl⟩ := Option.map_eq_some_iff.1 h
      exact callOperands_free hes hm
  · cases h; exact List.mem_append_left _ hm
  · cases h; exact List.mem_append_left _ hm
  · cases h
    rw [freeFragment, freeStmt]
    simp only [freeFragment, freeArgs, List.mem_append, List.not_mem_nil, or_false] at hm ⊢
    tauto
  · obtain ⟨es, hes, rfl⟩ := Option.map_eq_some_iff.1 h
    exact computedFrom_free hes hm
  · cases h
    refine List.mem_append_left _ ?_
    next s ss tail =>
      cases hs : initializer s with
      | none => simpa [hs, freeFragment] using hm
      | some e =>
        rw [initializer_free hs]
        simpa [hs, freeFragment] using hm
  · cases h; exact List.mem_append_left _ hm
  · cases h

/-- What occurs in the body of the next turn occurs in the loop, or is bound in it. -/
theorem next_free {P : Prims W} {ρ bs : List (String × Value)} {lp : Loop}
    (h : lp.next P ρ = some (some bs)) :
    unbound (bs.map Prod.fst) (freeBody T lp.body []) ⊆ freeLoop T lp := by
  intro m hm
  cases lp with
  | while_ c body => cases h
  | range x limit body =>
    by_cases hmx : m = x
    · exact hmx ▸ List.mem_cons_self
    · exact List.mem_cons_of_mem _ (mem_unbound.2 ⟨(mem_unbound.1 hm).1, by simpa using hmx⟩)
  | each x xs k total body =>
    rw [Loop.next] at h
    split at h
    case isFalse => cases h
    split at h
    case h_2 => cases h
    obtain ⟨v, _, hbs⟩ := Option.map_eq_some_iff.1 h
    cases hbs
    exact List.mem_cons_of_mem _ hm

/-- A statement that runs on its own binds nothing for the statements after it. -/
theorem declared_of_stmt {s : Stmt} {σ σ' : Memory W} (h : Exec S (.stmt s) σ .done σ') :
    declared s = [] := by
  cases s with
  | let_ m ann e => cases h; next hops _ _ => cases hops
  | letTuple names ann e => cases h; next hops _ _ => cases hops
  | taskSpawn m body => cases h; next hops _ _ => cases hops
  | _ => rfl

/-! ## Variables with a hole -/

/-- Entries of one name. -/
def Named (n : String) (x : List (String × Value)) : Prop := ∀ b ∈ x, b.1 = n

theorem lookup_named {x : List (String × Value)} (hx : Named n x) {m : String} (hm : m ≠ n)
    (rest : List (String × Value)) : (x ++ rest).lookup m = rest.lookup m := by
  induction x with
  | nil => rfl
  | cons b x ih =>
    have hb : m ≠ b.1 := fun h => hm (h.trans (hx b (.head _)))
    rw [List.cons_append, List.lookup_cons, beq_false_of_ne hb]
    exact ih fun c hc => hx c (.tail _ hc)

theorem setField_named {x : List (String × Value)} (hx : Named n x) {m : String} (hm : m ≠ n)
    (v : Value) (rest : List (String × Value)) :
    setField (x ++ rest) m v = x ++ setField rest m v := by
  induction x with
  | nil => rfl
  | cons b x ih =>
    obtain ⟨k, u⟩ := b
    have hb : k ≠ m := fun h => hm (h.symm.trans (hx _ (.head _)))
    rw [List.cons_append, setField, if_neg hb, ih fun c hc => hx c (.tail _ hc), List.cons_append]

/-- A memory with a hole among its variables. -/
structure Hole (W : Type) where
  inner : List (String × Value)
  outer : List (String × Value)
  world : W

namespace Hole

/-- Put entries into the hole. -/
def fill (h : Hole W) (x : List (String × Value)) : Memory W :=
  ⟨h.inner ++ (x ++ h.outer), h.world⟩

/-- The names that hide the hole. -/
def names (h : Hole W) : List String := h.inner.map Prod.fst

/-- Bind names innermost. -/
def under (h : Hole W) (bs : List (String × Value)) : Hole W := { h with inner := bs ++ h.inner }

theorem fill_bind (h : Hole W) (bs x : List (String × Value)) :
    (h.fill x).bind bs = (h.under bs).fill x := by
  simp [fill, Memory.bind, under]

theorem names_under (h : Hole W) (bs : List (String × Value)) :
    (h.under bs).names = bs.map Prod.fst ++ h.names := by simp [names, under]

/-- Take the innermost names away again. -/
theorem unbind {h h' : Hole W} {bs bs' x : List (String × Value)} {σ : Memory W}
    (hσ : σ.bind bs' = h'.fill x) (hnames : h'.names = (h.under bs).names)
    (hlen : bs'.length = bs.length) :
    ∃ h'' : Hole W, σ = h''.fill x ∧ h''.names = h.names ∧ h' = h''.under bs' := by
  obtain ⟨inner, outer, w⟩ := h'
  obtain ⟨ρ, w'⟩ := σ
  simp only [Memory.bind, fill, Memory.mk.injEq] at hσ
  obtain ⟨hρ, rfl⟩ := hσ
  rw [names_under] at hnames
  have hpre : bs' <+: inner := by
    refine List.prefix_of_prefix_length_le ⟨_, hρ⟩ ⟨_, rfl⟩ ?_
    have := congrArg List.length hnames
    simp only [names, List.length_map, List.length_append] at this
    omega
  obtain ⟨inner', rfl⟩ := hpre
  refine ⟨⟨inner', outer, w'⟩, ?_, ?_, rfl⟩
  · simpa [fill] using hρ
  · have := congrArg (List.drop bs.length) hnames
    simpa [names, ← hlen] using this

variable {h : Hole W} {m : String} {x y : List (String × Value)}

theorem lookup_fill (hm : m = n → n ∈ h.names) (hx : Named n x) (hy : Named n y) :
    (h.fill x).vars.lookup m = (h.fill y).vars.lookup m := by
  obtain ⟨inner, outer, w⟩ := h
  simp only [fill, names] at hm ⊢
  induction inner with
  | nil =>
    have hmn : m ≠ n := fun he => by simpa using hm he
    simp only [List.nil_append]
    rw [lookup_named hx hmn, lookup_named hy hmn]
  | cons b inner ih =>
    obtain ⟨k, u⟩ := b
    simp only [List.cons_append, List.lookup_cons]
    by_cases hk : m = k
    · simp [hk]
    · rw [beq_false_of_ne hk]
      refine ih fun he => ?_
      rcases List.mem_cons.1 (hm he) with hn | hn
      · exact absurd (he.trans hn) hk
      · exact hn

theorem setField_fill (hm : m = n → n ∈ h.names) (v : Value) :
    ∃ h' : Hole W, h'.names = h.names ∧ h'.world = h.world ∧
      ∀ y, Named n y → setField (h.fill y).vars m v = (h'.fill y).vars := by
  obtain ⟨inner, outer, w⟩ := h
  simp only [names] at hm
  induction inner with
  | nil =>
    have hmn : m ≠ n := fun he => by simpa using hm he
    exact ⟨⟨[], setField outer m v, w⟩, rfl, rfl, fun y hy => setField_named hy hmn v outer⟩
  | cons b inner ih =>
    obtain ⟨k, u⟩ := b
    by_cases hk : k = m
    · refine ⟨⟨(k, v) :: inner, outer, w⟩, rfl, rfl, fun y _ => ?_⟩
      simp [fill, setField, hk]
    · have hm' : m = n → n ∈ inner.map Prod.fst := fun he => by
        rcases List.mem_cons.1 (hm he) with hn | hn
        · exact absurd (he.trans hn).symm hk
        · exact hn
      obtain ⟨⟨inner', outer', w'⟩, hnames, hw, hset⟩ := ih hm'
      refine ⟨⟨(k, u) :: inner', outer', w'⟩, ?_, hw, fun y hy => ?_⟩
      · simpa [names] using hnames
      · simpa [fill, setField, hk] using hset y hy

/-- What a function on the variables does to a memory with a hole, whatever is in it. -/
def Spared (n : String) (h : Hole W) (x : List (String × Value))
    (f : List (String × Value) → Option (List (String × Value))) : Prop :=
  ∀ ρ, f (h.fill x).vars = some ρ → ∃ h' : Hole W, h'.names = h.names ∧ h'.world = h.world ∧
    ρ = (h'.fill x).vars ∧ ∀ y, Named n y → f (h.fill y).vars = some (h'.fill y).vars

theorem spared_giveBack (hx : Named n x) :
    ∀ (ps : List (String × Option String)) (vs : List Value) (h : Hole W),
      (n ∈ ps.map Prod.fst → n ∈ h.names) → Spared n h x (giveBack ps vs)
  | [], [], h, _, ρ, hρ => by
    cases hρ
    exact ⟨h, rfl, rfl, rfl, fun _ _ => rfl⟩
  | (m, f) :: ps, v :: vs, h, hps, ρ, hρ => by
    have hm : m = n → n ∈ h.names := fun he => hps (he ▸ List.mem_cons_self)
    obtain ⟨old, hold, hρ⟩ := Option.bind_eq_some_iff.1 hρ
    obtain ⟨h₁, hnames₁, hw₁, hset⟩ := setField_fill hm (placeUpdate old f v)
    rw [hset x hx] at hρ
    obtain ⟨h₂, hnames₂, hw₂, rfl, hall⟩ := spared_giveBack hx ps vs h₁
      (fun hn => hnames₁ ▸ hps (List.mem_cons_of_mem _ hn)) ρ hρ
    refine ⟨h₂, hnames₂.trans hnames₁, hw₂.trans hw₁, rfl, fun y hy => ?_⟩
    rw [giveBack, ← lookup_fill hm hx hy, hold, Option.bind_some, hset y hy]
    exact hall y hy
  | [], _ :: _, _, _, _, hρ => by cases hρ
  | _ :: _, [], _, _, _, hρ => by cases hρ

theorem spared_assignPlace {P : Prims W} {path : List String} {v : Value}
    (hm : m = n → n ∈ h.names) (hx : Named n x) :
    Spared n h x (assignPlace P m path v) := by
  intro ρ hρ
  obtain ⟨old, hold, hρ⟩ := Option.bind_eq_some_iff.1 hρ
  obtain ⟨slot, hslot, hρ⟩ := Option.bind_eq_some_iff.1 hρ
  obtain ⟨v', hv', rfl⟩ := Option.map_eq_some_iff.1 hρ
  obtain ⟨h', hnames, hw, hset⟩ := setField_fill hm (updatePath path old v')
  refine ⟨h', hnames, hw, hset x hx, fun y hy => ?_⟩
  rw [assignPlace, ← lookup_fill hm hx hy, hold, Option.bind_some, hslot, Option.bind_some, hv',
    Option.map_some, hset y hy]

theorem spared_assignSlot {P : Prims W} {k : Int} {path : List String} {v : Value}
    (hm : m = n → n ∈ h.names) (hx : Named n x) :
    Spared n h x (assignSlot P m k path v) := by
  intro ρ hρ
  rw [assignSlot] at hρ
  split at hρ
  case h_2 => cases hρ
  next vs hlook =>
    split at hρ
    case isFalse => cases hρ
    next hk =>
      obtain ⟨old, hold, hρ⟩ := Option.bind_eq_some_iff.1 hρ
      obtain ⟨slot, hslot, hρ⟩ := Option.bind_eq_some_iff.1 hρ
      obtain ⟨v', hv', rfl⟩ := Option.map_eq_some_iff.1 hρ
      obtain ⟨h', hnames, hw, hset⟩ :=
        setField_fill hm (.seq (vs.set k.toNat (updatePath path old v')))
      refine ⟨h', hnames, hw, hset x hx, fun y hy => ?_⟩
      simp only [assignSlot, ← lookup_fill hm hx hy, hlook, if_pos hk, hold, Option.bind_some,
        hslot, hv', Option.map_some, hset y hy]

/-- Put the variables a spared function leaves into the memory. -/
theorem Spared.memory {f : List (String × Value) → Option (List (String × Value))} {w : W}
    {ρ : List (String × Value)} (hf : Spared n h x f) (hρ : f (h.fill x).vars = some ρ) :
    ∃ h' : Hole W, h'.names = h.names ∧ (⟨ρ, w⟩ : Memory W) = h'.fill x ∧
      ∀ y, Named n y → (f (h.fill y).vars).map (fun ρ => (⟨ρ, w⟩ : Memory W)) =
        some (h'.fill y) := by
  obtain ⟨⟨inner, outer, w'⟩, hnames, hw, rfl, hall⟩ := hf ρ hρ
  refine ⟨⟨inner, outer, w⟩, hnames, rfl, fun y hy => ?_⟩
  rw [hall y hy]
  rfl

/-! ## One step across the hole -/

theorem atom_fill {e : Expr} {v : Value} (hfree : n ∈ freeExpr T e → n ∈ h.names)
    (hx : Named n x) (hy : Named n y) (ha : atom (h.fill x).vars e = some v) :
    atom (h.fill y).vars e = some v := by
  cases e with
  | var m =>
    rw [atom] at ha ⊢
    rw [← ha]
    exact (lookup_fill (fun he => hfree (he ▸ List.mem_singleton.2 rfl)) hx hy).symm
  | _ => exact ha

theorem callee_fill {P : Prims W} {e : Expr} {f : String} {args : List Expr}
    (hcall : asCall P T e = some (f, args)) (hfree : n ∈ freeExpr T e → n ∈ h.names)
    (hx : Named n x) (hy : Named n y) :
    callee (h.fill x).vars f e = callee (h.fill y).vars f e := by
  cases e with
  | call k as =>
    have hk : k = f := by
      rw [asCall] at hcall
      cases hb : builtinOp k as with
      | some op => rw [hb] at hcall; cases hcall
      | none => rw [hb] at hcall; cases hcall; rfl
    subst hk
    rw [callee, callee, lookup_fill (fun he => hfree (he ▸ List.mem_cons_self)) hx hy]
  | _ => rfl

theorem invoke_fill {e : Expr} {f : String} {args : List Expr} {vs : List Value} {v : Value}
    {σ : Memory W} (hcall : asCall S.prims S.nominal e = some (f, args))
    (hfree : n ∈ freeExpr S.nominal e → n ∈ h.names) (hx : Named n x)
    (hv : invoke S e f args vs (h.fill x) = some (v, σ)) :
    ∃ h' : Hole W, σ = h'.fill x ∧ h'.names = h.names ∧
      ∀ y, Named n y → invoke S e f args vs (h.fill y) = some (v, h'.fill y) := by
  have hspared : ∀ outs, Spared n h x (giveBack (mutTargets args) outs) := fun outs =>
    spared_giveBack hx _ outs h fun hn => hfree (asCall_free hcall (mutTargets_free args hn))
  rw [invoke] at hv
  split at hv
  · next hpure =>
    obtain ⟨⟨u, outs⟩, hprim, hv⟩ := Option.bind_eq_some_iff.1 hv
    obtain ⟨ρ, hρ, heq⟩ := Option.map_eq_some_iff.1 hv
    cases heq
    obtain ⟨h', hnames, hσ, hall⟩ := (hspared outs).memory (w := h.world) hρ
    refine ⟨h', hσ, hnames, fun y hy => ?_⟩
    obtain ⟨ρ', hρ', hfill⟩ := Option.map_eq_some_iff.1 (hall y hy)
    have hw : (h.fill y).world = h.world := rfl
    simp only [invoke, if_pos hpure, hprim, Option.bind_some, hρ', Option.map_some, hw, hfill]
  · next hpure =>
    obtain ⟨⟨u, outs, w⟩, hprim, hv⟩ := Option.bind_eq_some_iff.1 hv
    obtain ⟨ρ, hρ, heq⟩ := Option.map_eq_some_iff.1 hv
    cases heq
    obtain ⟨h', hnames, hσ, hall⟩ := (hspared outs).memory (w := w) hρ
    refine ⟨h', hσ, hnames, fun y hy => ?_⟩
    obtain ⟨ρ', hρ', hfill⟩ := Option.map_eq_some_iff.1 (hall y hy)
    have hw : (h.fill y).world = (h.fill x).world := rfl
    simp only [invoke, if_neg hpure, ← callee_fill hcall hfree hx hy, hw, hprim,
      Option.bind_some, hρ', Option.map_some, hfill]

theorem compute_fill {e : Expr} {vs : List Value} {v : Value} {σ : Memory W}
    (hfree : n ∈ freeExpr S.nominal e → n ∈ h.names) (hx : Named n x)
    (hv : compute S e vs (h.fill x) = some (v, σ)) :
    ∃ h' : Hole W, σ = h'.fill x ∧ h'.names = h.names ∧
      ∀ y, Named n y → compute S e vs (h.fill y) = some (v, h'.fill y) := by
  rw [compute] at hv
  cases ho : operands S.nominal e with
  | some p =>
    rw [ho] at hv
    obtain ⟨u, hu, heq⟩ := Option.map_eq_some_iff.1 hv
    cases heq
    exact ⟨h, rfl, rfl, fun y _ => by simp only [compute, ho, hu, Option.map_some]⟩
  | none =>
    rw [ho] at hv
    obtain ⟨⟨f, args⟩, hcall, hv⟩ := Option.bind_eq_some_iff.1 hv
    obtain ⟨h', hσ, hnames, hall⟩ := invoke_fill hcall hfree hx hv
    refine ⟨h', hσ, hnames, fun y hy => ?_⟩
    simp only [compute, ho, hcall, Option.bind_some]
    exact hall y hy

theorem effect_fill {s : Stmt} {vs : List Value} {σ : Memory W}
    (hfree : n ∈ freeStmt S.nominal s → n ∈ h.names) (hx : Named n x)
    (hv : effect S s vs (h.fill x) = some σ) :
    ∃ h' : Hole W, σ = h'.fill x ∧ h'.names = h.names ∧
      ∀ y, Named n y → effect S s vs (h.fill y) = some (h'.fill y) := by
  match s, vs, hv with
  | .assign m e, [v], hv =>
    have hm : m = n → n ∈ h.names := fun he => hfree (he ▸ List.mem_cons_self)
    obtain ⟨ρ, hρ, rfl⟩ := Option.map_eq_some_iff.1 hv
    obtain ⟨h', hnames, hσ, hall⟩ := (spared_assignPlace hm hx).memory (w := h.world) hρ
    exact ⟨h', hσ, hnames, hall⟩
  | .print items, vs, hv =>
    cases hv
    exact ⟨{ h with world := S.print (printed items vs) h.world }, rfl, rfl, fun _ _ => rfl⟩
  | .assert e msg, [.scalar (.bool true)], hv =>
    cases hv
    exact ⟨h, rfl, rfl, fun _ _ => rfl⟩
  | .indexAssign m i path e, [.scalar (.int t b k), v], hv =>
    have hm : m = n → n ∈ h.names := fun he => hfree (he ▸ List.mem_cons_self)
    obtain ⟨ρ, hρ, rfl⟩ := Option.map_eq_some_iff.1 hv
    obtain ⟨h', hnames, hσ, hall⟩ := (spared_assignSlot hm hx).memory (w := h.world) hρ
    exact ⟨h', hσ, hnames, hall⟩
  | .fieldAssign obj f e, [v], hv =>
    obtain ⟨⟨m, path⟩, hobj, hv⟩ := Option.bind_eq_some_iff.1 hv
    have hm : m = n → n ∈ h.names := fun he =>
      hfree (by rw [freeStmt, hobj]; exact List.mem_append_left _ (List.mem_singleton.2 he.symm))
    obtain ⟨ρ, hρ, rfl⟩ := Option.map_eq_some_iff.1 hv
    obtain ⟨h', hnames, hσ, hall⟩ := (spared_assignPlace hm hx).memory (w := h.world) hρ
    refine ⟨h', hσ, hnames, fun y hy => ?_⟩
    simp only [effect, hobj, Option.bind_some]
    exact hall y hy
  | .prove e, vs, hv =>
    cases hv
    exact ⟨h, rfl, rfl, fun _ _ => rfl⟩
  | .taskJoin m, vs, hv =>
    cases hv
    exact ⟨h, rfl, rfl, fun _ _ => rfl⟩

theorem next_fill {P : Prims W} {lp : Loop} (hfree : n ∈ freeLoop T lp → n ∈ h.names)
    (hx : Named n x) (hy : Named n y) :
    lp.next P (h.fill x).vars = lp.next P (h.fill y).vars := by
  cases lp with
  | while_ c body => rfl
  | range k limit body =>
    simp only [Loop.next, lookup_fill (fun he => hfree (he ▸ List.mem_cons_self)) hx hy]
  | each k xs i total body =>
    simp only [Loop.next, lookup_fill (fun he => hfree (he ▸ List.mem_cons_self)) hx hy]

theorem advance_fill {P : Prims W} {lp lp' : Loop} {ρ : List (String × Value)}
    (hfree : n ∈ freeLoop T lp → n ∈ h.names) (hx : Named n x)
    (ha : lp.advance P (h.fill x).vars = some (lp', ρ)) :
    ∃ h' : Hole W, (⟨ρ, h.world⟩ : Memory W) = h'.fill x ∧ h'.names = h.names ∧
      freeLoop T lp' = freeLoop T lp ∧
      ∀ y, Named n y → ∃ ρ', lp.advance P (h.fill y).vars = some (lp', ρ') ∧
        (⟨ρ', h.world⟩ : Memory W) = h'.fill y := by
  cases lp with
  | while_ c body =>
    cases ha
    exact ⟨h, rfl, rfl, rfl, fun y _ => ⟨_, rfl, rfl⟩⟩
  | range k limit body =>
    have hk : k = n → n ∈ h.names := fun he => hfree (he ▸ List.mem_cons_self)
    rw [Loop.advance] at ha
    split at ha
    case h_2 => cases ha
    next t b i hlook =>
      obtain ⟨v, hv, heq⟩ := Option.map_eq_some_iff.1 ha
      cases heq
      obtain ⟨⟨inner, outer, w⟩, hnames, hw, hset⟩ := setField_fill hk v
      cases hw
      refine ⟨⟨inner, outer, h.world⟩, ?_, hnames, rfl,
        fun y hy => ⟨setField (h.fill y).vars k v, ?_, ?_⟩⟩
      · rw [hset x hx]
        rfl
      · rw [Loop.advance, ← lookup_fill hk hx hy, hlook]
        simp only [hv, Option.map_some]
      · rw [hset y hy]
        rfl
  | each k xs i total body =>
    cases ha
    exact ⟨h, rfl, rfl, rfl, fun y _ => ⟨_, rfl, rfl⟩⟩

/-- The names under which the body of a turn finds the hole. -/
theorem turn_names {lp : Loop} {bs : List (String × Value)}
    (hfree : n ∈ freeFragment T (.turn lp bs) → n ∈ h.names)
    (hn : n ∈ freeFragment T (.body lp.body none)) : n ∈ (h.under bs).names := by
  rw [names_under, List.mem_append]
  by_cases hb : n ∈ bs.map Prod.fst
  · exact .inl hb
  · exact .inr (hfree (List.mem_append_right _ (mem_unbound.2 ⟨hn, hb⟩)))

end Hole

/-! ## Runs across the hole -/

/-- A run that fills a hole with entries that do not occur free is a run with any other such
entries, and leaves them alone. -/
theorem exec_fill {c : Fragment} {r : Ending} {σ σ' : Memory W} (hrun : Exec S c σ r σ') :
    ∀ (h : Hole W) (x : List (String × Value)), σ = h.fill x → Named n x →
      (n ∈ freeFragment S.nominal c → n ∈ h.names) →
      ∃ h' : Hole W, σ' = h'.fill x ∧ h'.names = h.names ∧
        ∀ y, Named n y → Exec S c (h.fill y) r (h'.fill y) := by
  induction hrun with
  | early hfirst hrun ih =>
    rintro h x rfl hx hfree
    obtain ⟨h', rfl, hnames, hall⟩ := ih h x rfl hx fun hn => hfree (first_free hfirst hn)
    exact ⟨h', rfl, hnames, fun y hy => .early hfirst (hall y hy)⟩
  | atom ha =>
    rintro h x rfl hx hfree
    exact ⟨h, rfl, rfl, fun y hy => .atom (Hole.atom_fill hfree hx hy ha)⟩
  | operate hops hrun hv ih =>
    rintro h x rfl hx hfree
    obtain ⟨h₁, rfl, hnames₁, hall₁⟩ :=
      ih h x rfl hx fun hn => hfree (callOperands_free hops hn)
    obtain ⟨h₂, rfl, hnames₂, hall₂⟩ :=
      Hole.compute_fill (fun hn => hnames₁ ▸ hfree hn) hx hv
    exact ⟨h₂, rfl, hnames₂.trans hnames₁, fun y hy => .operate hops (hall₁ y hy) (hall₂ y hy)⟩
  | choose hs hrun hchosen harm hlen ih iharm =>
    rintro h x rfl hx hfree
    obtain ⟨h₁, rfl, hnames₁, hall₁⟩ := ih h x rfl hx fun hn => hfree (scrutinee_free hs hn)
    obtain ⟨h₂, hσ, hnames₂, hall₂⟩ := iharm (h₁.under _) x (h₁.fill_bind _ x) hx fun hn => by
      rw [Hole.names_under, List.mem_append, hnames₁]
      exact (chosen_free hchosen _ hn).imp id hfree
    obtain ⟨h₃, rfl, hnames₃, rfl⟩ := Hole.unbind hσ hnames₂ hlen
    refine ⟨h₃, rfl, hnames₃.trans hnames₁, fun y hy => ?_⟩
    have hinner := hall₂ y hy
    rw [← Hole.fill_bind, ← Hole.fill_bind] at hinner
    exact .choose hs (hall₁ y hy) hchosen hinner hlen
  | block hrun ih =>
    rintro h x rfl hx hfree
    obtain ⟨h', rfl, hnames, hall⟩ := ih h x rfl hx hfree
    exact ⟨h', rfl, hnames, fun y hy => .block (hall y hy)⟩
  | try_ hrun hres ih =>
    rintro h x rfl hx hfree
    obtain ⟨h', rfl, hnames, hall⟩ := ih h x rfl hx hfree
    exact ⟨h', rfl, hnames, fun y hy => .try_ (hall y hy) hres⟩
  | argsNil =>
    rintro h x rfl hx hfree
    exact ⟨h, rfl, rfl, fun _ _ => .argsNil⟩
  | argsCons hrun hruns ih ihs =>
    rintro h x rfl hx hfree
    obtain ⟨h₁, rfl, hnames₁, hall₁⟩ :=
      ih h x rfl hx fun hn => hfree (List.mem_append_left _ hn)
    obtain ⟨h₂, rfl, hnames₂, hall₂⟩ :=
      ihs h₁ x rfl hx fun hn => hnames₁ ▸ hfree (List.mem_append_right _ hn)
    exact ⟨h₂, rfl, hnames₂.trans hnames₁, fun y hy => .argsCons (hall₁ y hy) (hall₂ y hy)⟩
  | simple hops hrun hv ih =>
    rintro h x rfl hx hfree
    obtain ⟨h₁, rfl, hnames₁, hall₁⟩ :=
      ih h x rfl hx fun hn => hfree (computedFrom_free hops hn)
    obtain ⟨h₂, rfl, hnames₂, hall₂⟩ :=
      Hole.effect_fill (fun hn => hnames₁ ▸ hfree hn) hx hv
    exact ⟨h₂, rfl, hnames₂.trans hnames₁, fun y hy => .simple hops (hall₁ y hy) (hall₂ y hy)⟩
  | return_ hrun ih =>
    rintro h x rfl hx hfree
    obtain ⟨h', rfl, hnames, hall⟩ := ih h x rfl hx hfree
    exact ⟨h', rfl, hnames, fun y hy => .return_ (hall y hy)⟩
  | break_ =>
    rintro h x rfl hx hfree
    exact ⟨h, rfl, rfl, fun _ _ => .break_⟩
  | continue_ =>
    rintro h x rfl hx hfree
    exact ⟨h, rfl, rfl, fun _ _ => .continue_⟩
  | @if_ c t f b _ _ _ _ hrun hbranch ih ihbranch =>
    rintro h x rfl hx hfree
    obtain ⟨h₁, rfl, hnames₁, hall₁⟩ :=
      ih h x rfl hx fun hn => hfree (List.mem_append_left _ hn)
    obtain ⟨h₂, rfl, hnames₂, hall₂⟩ := ihbranch h₁ x rfl hx fun hn => by
      refine hnames₁ ▸ hfree (List.mem_append_right _ ?_)
      cases b with
      | true => exact List.mem_append_left _ hn
      | false => exact List.mem_append_right _ hn
    exact ⟨h₂, rfl, hnames₂.trans hnames₁, fun y hy => .if_ (hall₁ y hy) (hall₂ y hy)⟩
  | while_ hrun ih =>
    rintro h x rfl hx hfree
    obtain ⟨h', rfl, hnames, hall⟩ := ih h x rfl hx fun hn => by
      refine hfree ?_
      simp only [freeFragment, freeLoop, freeStmt, List.mem_append] at hn ⊢
      tauto
    exact ⟨h', rfl, hnames, fun y hy => .while_ (hall y hy)⟩
  | for_ hrun hk hl hloop ih ihloop =>
    rintro h x rfl hx hfree
    obtain ⟨h₁, rfl, hnames₁, hall₁⟩ := ih h x rfl hx fun hn => by
      refine hfree ?_
      simp only [freeFragment, freeArgs, freeStmt, List.mem_append, List.not_mem_nil,
        or_false] at hn ⊢
      tauto
    obtain ⟨h₂, hσ, hnames₂, hall₂⟩ := ihloop (h₁.under _) x (h₁.fill_bind _ x) hx fun hn => by
      rw [Hole.names_under, List.mem_append, hnames₁]
      by_contra hno
      refine hno (.inr (hfree ?_))
      simp only [freeFragment, freeLoop, freeStmt, List.mem_append, List.mem_cons, mem_unbound,
        List.map_cons, List.map_nil, List.not_mem_nil, or_false] at hn hno ⊢
      tauto
    obtain ⟨h₃, rfl, hnames₃, rfl⟩ := Hole.unbind hσ hnames₂ rfl
    refine ⟨h₃, rfl, hnames₃.trans hnames₁, fun y hy => ?_⟩
    have hinner := hall₂ y hy
    rw [← Hole.fill_bind, ← Hole.fill_bind] at hinner
    exact .for_ (hall₁ y hy) hk hl hinner
  | forIter hlook hloop ih =>
    rintro h x rfl hx hfree
    obtain ⟨h', rfl, hnames, hall⟩ := ih h x rfl hx hfree
    refine ⟨h', rfl, hnames, fun y hy => .forIter ?_ (hall y hy)⟩
    rw [← hlook]
    exact (Hole.lookup_fill (fun he => hfree (he ▸ List.mem_cons_self)) hx hy).symm
  | whileFalse hrun ih =>
    rintro h x rfl hx hfree
    obtain ⟨h', rfl, hnames, hall⟩ := ih h x rfl hx fun hn => hfree (List.mem_append_left _ hn)
    exact ⟨h', rfl, hnames, fun y hy => .whileFalse (hall y hy)⟩
  | whileTrue hrun hturn ih ihturn =>
    rintro h x rfl hx hfree
    obtain ⟨h₁, rfl, hnames₁, hall₁⟩ :=
      ih h x rfl hx fun hn => hfree (List.mem_append_left _ hn)
    obtain ⟨h₂, rfl, hnames₂, hall₂⟩ := ihturn h₁ x rfl hx fun hn => by
      refine hnames₁ ▸ hfree ?_
      simpa [freeFragment, freeLoop, Loop.body] using hn
    exact ⟨h₂, rfl, hnames₂.trans hnames₁, fun y hy => .whileTrue (hall₁ y hy) (hall₂ y hy)⟩
  | stop hnext =>
    rintro h x rfl hx hfree
    refine ⟨h, rfl, rfl, fun y hy => .stop ?_⟩
    rw [← hnext]
    exact (Hole.next_fill hfree hx hy).symm
  | go hnext hturn ih =>
    rintro h x rfl hx hfree
    obtain ⟨h', rfl, hnames, hall⟩ := ih h x rfl hx fun hn => by
      rcases List.mem_append.1 hn with hn | hn
      · exact hfree hn
      · exact hfree (next_free hnext hn)
    refine ⟨h', rfl, hnames, fun y hy => .go ?_ (hall y hy)⟩
    rw [← hnext]
    exact (Hole.next_fill hfree hx hy).symm
  | again hbody hlen hgoes hadv hloop ihbody ihloop =>
    rintro h x rfl hx hfree
    obtain ⟨h₁, hσ, hnames₁, hall₁⟩ := ihbody (h.under _) x (h.fill_bind _ x) hx fun hn =>
      Hole.turn_names hfree hn
    obtain ⟨h₂, rfl, hnames₂, rfl⟩ := Hole.unbind hσ hnames₁ hlen
    obtain ⟨h₃, hσ₃, hnames₃, hloops, hall₃⟩ := Hole.advance_fill
      (fun hn => hnames₂ ▸ hfree (List.mem_append_left _ hn)) hx hadv
    obtain ⟨h₄, rfl, hnames₄, hall₄⟩ := ihloop h₃ x hσ₃ hx fun hn => by
      rw [hnames₃, hnames₂]
      exact hfree (List.mem_append_left _ (hloops ▸ hn))
    refine ⟨h₄, rfl, hnames₄.trans (hnames₃.trans hnames₂), fun y hy => ?_⟩
    have hinner := hall₁ y hy
    rw [← Hole.fill_bind, ← Hole.fill_bind] at hinner
    obtain ⟨ρ, hadv', hfill⟩ := hall₃ y hy
    exact .again hinner hlen hgoes hadv' (hfill ▸ hall₄ y hy)
  | leave hbody hlen hleaves ih =>
    rintro h x rfl hx hfree
    obtain ⟨h₁, hσ, hnames₁, hall₁⟩ := ih (h.under _) x (h.fill_bind _ x) hx fun hn =>
      Hole.turn_names hfree hn
    obtain ⟨h₂, rfl, hnames₂, rfl⟩ := Hole.unbind hσ hnames₁ hlen
    refine ⟨h₂, rfl, hnames₂, fun y hy => ?_⟩
    have hinner := hall₁ y hy
    rw [← Hole.fill_bind, ← Hole.fill_bind] at hinner
    exact .leave hinner hlen hleaves
  | nil =>
    rintro h x rfl hx hfree
    exact ⟨h, rfl, rfl, fun _ _ => .nil⟩
  | tail hrun ih =>
    rintro h x rfl hx hfree
    obtain ⟨h', rfl, hnames, hall⟩ := ih h x rfl hx hfree
    exact ⟨h', rfl, hnames, fun y hy => .tail (hall y hy)⟩
  | @bind s ss tail e v r bs bs' σ σ₁ σ₂ hinit hrun hbs hbody hlen ih ihbody =>
    rintro h x rfl hx hfree
    obtain ⟨h₁, rfl, hnames₁, hall₁⟩ := ih h x rfl hx fun hn =>
      hfree (List.mem_append_left _ (initializer_free hinit ▸ hn))
    obtain ⟨h₂, hσ, hnames₂, hall₂⟩ := ihbody (h₁.under _) x (h₁.fill_bind _ x) hx fun hn => by
      rw [Hole.names_under, List.mem_append, hnames₁]
      by_cases hd : n ∈ declared s
      · exact .inl (bindings_declared hbs n hd)
      · exact .inr (hfree (List.mem_append_right _ (mem_unbound.2 ⟨hn, hd⟩)))
    obtain ⟨h₃, rfl, hnames₃, rfl⟩ := Hole.unbind hσ hnames₂ hlen
    refine ⟨h₃, rfl, hnames₃.trans hnames₁, fun y hy => ?_⟩
    have hinner := hall₂ y hy
    rw [← Hole.fill_bind, ← Hole.fill_bind] at hinner
    exact .bind hinit (hall₁ y hy) hbs hinner hlen
  | @spawn k b ss tail i u r r' σ σ₁ σ₂ htask hbody ih ihbody =>
    rintro h x rfl hx hfree
    obtain ⟨h₁, rfl, hnames₁, hall₁⟩ := ih h x rfl hx fun hn => hfree (List.mem_append_left _ hn)
    obtain ⟨h₂, hσ, hnames₂, hall₂⟩ := ihbody
      (Hole.under { h with world := h₁.world } [(k, .handle i)]) x rfl hx fun hn => by
        rw [Hole.names_under, List.mem_append]
        by_cases hd : n ∈ [k]
        · exact .inl hd
        · exact .inr (hfree (List.mem_append_right _ (mem_unbound.2 ⟨hn, hd⟩)))
    obtain ⟨h₃, rfl, hnames₃, rfl⟩ := Hole.unbind hσ hnames₂ rfl
    refine ⟨h₃, rfl, hnames₃, fun y hy => ?_⟩
    have hinner := hall₂ y hy
    rw [← Hole.fill_bind _ [(k, u)]] at hinner
    exact .spawn (hall₁ y hy) hinner
  | next hrun hbody ih ihbody =>
    rintro h x rfl hx hfree
    obtain ⟨h₁, rfl, hnames₁, hall₁⟩ :=
      ih h x rfl hx fun hn => hfree (List.mem_append_left _ hn)
    obtain ⟨h₂, rfl, hnames₂, hall₂⟩ := ihbody h₁ x rfl hx fun hn => by
      refine hnames₁ ▸ hfree (List.mem_append_right _ (mem_unbound.2 ⟨hn, ?_⟩))
      rw [declared_of_stmt hrun]
      exact List.not_mem_nil
    exact ⟨h₂, rfl, hnames₂.trans hnames₁, fun y hy => .next (hall₁ y hy) (hall₂ y hy)⟩

end Vani.Analysis
