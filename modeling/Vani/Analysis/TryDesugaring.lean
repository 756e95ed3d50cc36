import Vani.Analysis.GuardRewriting

/-!
# Try-lets as matches

The desugaring moves what follows a try-let under a binder of its own making, `__try_v_<n>`.
The rewritten body has the runs of the original one, and every name is bound as before, when
no such name occurs free in what moves under its binder. Nothing reserves these names: a
parameter of that name is captured.
-/

set_option autoImplicit false

namespace Vani.Analysis

open Vani.Program Vani.Model

variable {W : Type} {S : Setting W} {T : Nominal}

/-! ## One try-let -/

theorem exec_try_iff {e : Expr} {r : Ending} {σ σ' : Memory W} :
    Exec S (.expr (.try_ e)) σ r σ' ↔
      (∃ y, r = .exit y ∧ Exec S (.expr e) σ (.exit y) σ') ∨
      ∃ u, Exec S (.expr e) σ (.value u) σ' ∧ tryResult S.early u = some r := by
  constructor
  · intro h
    cases h with
    | early hfirst h => cases hfirst; exact .inl ⟨_, rfl, h⟩
    | atom ha => cases ha
    | operate hops _ _ => cases hops
    | choose hs _ _ _ _ => cases hs
    | try_ h hres => exact .inr ⟨_, h, hres⟩
  · rintro (⟨y, rfl, h⟩ | ⟨u, h, hres⟩)
    · exact .early rfl h
    · exact .try_ h hres

/-- A statement that binds names, before a body. -/
theorem exec_bind_iff {s : Stmt} {e : Expr} {ss : List Stmt} {tail : Option Expr} {r : Ending}
    {σ σ' : Memory W} (hinit : initializer s = some e) :
    Exec S (.body (s :: ss) tail) σ r σ' ↔
      (∃ y, r = .exit y ∧ Exec S (.expr e) σ (.exit y) σ') ∨
      ∃ v σ₁ bs bs', Exec S (.expr e) σ (.value v) σ₁ ∧ bindings S.prims s v = some bs ∧
        Exec S (.body ss tail) (σ₁.bind bs) r (σ'.bind bs') ∧ bs'.length = bs.length := by
  constructor
  · intro h
    cases h with
    | early hfirst h =>
      rw [first, hinit] at hfirst
      cases hfirst
      exact .inl ⟨_, rfl, h⟩
    | bind hinit' hrun hbs h hlen =>
      cases hinit.symm.trans hinit'
      exact .inr ⟨_, _, _, _, hrun, hbs, h, hlen⟩
    | spawn _ _ => cases hinit
    | next hrun _ =>
      cases s <;> cases hinit <;> cases hrun <;> next hops _ _ => cases hops
  · rintro (⟨y, rfl, h⟩ | ⟨v, σ₁, bs, bs', hrun, hbs, h, hlen⟩)
    · exact .early (by rw [first, hinit]; rfl) h
    · exact .bind hinit hrun hbs h hlen

/-- The early return with the empty variant. -/
def EarlyReturn.ending (r : EarlyReturn) : Ending :=
  .exit (.returned (.enum r.enumName r.noneVariant []))

theorem tryResult_cases {r : EarlyReturn} {u : Value} {x : Ending}
    (h : tryResult r u = some x) : (∃ p, x = .value p) ∨ x = EarlyReturn.ending r := by
  have hleave : ∀ v, tryResult.leave r v = some x → x = EarlyReturn.ending r := by
    intro v hv
    rw [tryResult.leave] at hv
    split at hv <;> cases hv
    rfl
  unfold tryResult at h
  split at h
  · split at h
    · split at h
      · cases h; exact .inl ⟨_, rfl⟩
      · exact .inr (hleave _ h)
    · exact .inr (hleave _ h)
  · cases h

/-- The match a try-let becomes. -/
def tryMatch (r : EarlyReturn) (e : Expr) (n : String) (rest : Expr) : Expr :=
  .match_ e [(.variantWithBinding r.enumName r.someVariant n, rest),
    (.variant r.enumName r.noneVariant, .fieldAccess (.var r.enumName) r.noneVariant)]

/-- The arm of that match goes with what the `try` does. -/
theorem selectArm_try (r : EarlyReturn) (n : String) (rest : Expr) (u : Value) :
    selectArm [(.variantWithBinding r.enumName r.someVariant n, rest),
        (.variant r.enumName r.noneVariant, .fieldAccess (.var r.enumName) r.noneVariant)] u =
      (tryResult r u).map fun
        | .value p => ([(n, p)], rest)
        | _ => ([], .fieldAccess (.var r.enumName) r.noneVariant) := by
  have hleave : ∀ E v payload, matchPattern (.variantWithBinding r.enumName r.someVariant n)
      (.enum E v payload) = none →
      selectArm [(.variantWithBinding r.enumName r.someVariant n, rest),
        (.variant r.enumName r.noneVariant, .fieldAccess (.var r.enumName) r.noneVariant)]
        (.enum E v payload) = (tryResult.leave r v).map fun
        | .value p => ([(n, p)], rest)
        | _ => ([], .fieldAccess (.var r.enumName) r.noneVariant) := by
    intro E v payload hno
    rw [selectArm, hno]
    by_cases hv : r.noneVariant = v
    · simp [selectArm, matchPattern, tryResult.leave, hv]
    · have hv' : ¬ v = r.noneVariant := fun h => hv h.symm
      simp [selectArm, matchPattern, tryResult.leave, hv, hv']
  cases u with
  | enum E v payload =>
    obtain _ | ⟨p, _ | ⟨q, rest'⟩⟩ := payload
    · exact hleave E v [] rfl
    · by_cases hv : r.someVariant = v
      · simp [selectArm, matchPattern, tryResult, hv]
      · rw [hleave E v [p] (by simp [matchPattern, hv]), tryResult, if_neg fun h => hv h.symm]
    · exact hleave E v _ rfl
  | scalar s => cases s <;> rfl
  | _ => rfl

/-- The empty variant. -/
theorem exec_emptyVariant_iff {E N : String} (hE : S.nominal.isEnum E = true) {r : Ending}
    {σ σ' : Memory W} :
    Exec S (.expr (.fieldAccess (.var E) N)) σ r σ' ↔ r = .value (.enum E N []) ∧ σ' = σ := by
  have hops : operands S.nominal (.fieldAccess (.var E) N) = some (.construct E N, []) :=
    if_pos hE
  have hcall : callOperands S (.fieldAccess (.var E) N) = some [] := by
    rw [callOperands, hops]
  constructor
  · intro h
    cases h with
    | early hfirst h =>
      have hargs : first S (.expr (.fieldAccess (.var E) N)) = some (.args []) := by
        simp [first, scrutinee, hcall]
      cases hargs.symm.trans hfirst
      cases h with
      | early hfirst _ => cases hfirst
    | atom ha => cases ha
    | operate hops' hargs hv =>
      cases hcall.symm.trans hops'
      cases hargs with
      | argsNil =>
        rw [compute, hops] at hv
        cases hv
        exact ⟨rfl, rfl⟩
    | choose hs _ _ _ _ => cases hs
  · rintro ⟨rfl, rfl⟩
    refine .operate hcall .argsNil ?_
    rw [compute, hops]
    rfl

/-- A variable. -/
theorem exec_var_iff {n : String} {r : Ending} {σ σ' : Memory W} :
    Exec S (.expr (.var n)) σ r σ' ↔ ∃ v, σ.vars.lookup n = some v ∧ r = .value v ∧ σ' = σ := by
  constructor
  · intro h
    cases h with
    | early hfirst _ => cases hfirst
    | atom ha => exact ⟨_, ha, rfl, rfl⟩
    | operate hops _ _ => cases hops
    | choose hs _ _ _ _ => cases hs
  · rintro ⟨v, hv, rfl, rfl⟩
    exact .atom hv

/-- The match for a try-let: it is left early, or goes on with the payload, or has the empty
variant as its value. -/
theorem exec_tryMatch_iff {r : EarlyReturn}
    (hE : S.nominal.isEnum r.enumName = true) {e : Expr} {n : String} {rest : Expr}
    {x : Ending} {σ σ' : Memory W} :
    Exec S (.expr (tryMatch r e n rest)) σ x σ' ↔
      (∃ y, x = .exit y ∧ Exec S (.expr e) σ (.exit y) σ') ∨
      (∃ u, Exec S (.expr e) σ (.value u) σ' ∧ tryResult r u = some (EarlyReturn.ending r) ∧
        x = .value (.enum r.enumName r.noneVariant [])) ∨
      ∃ u p q σ₁, Exec S (.expr e) σ (.value u) σ₁ ∧ tryResult r u = some (.value p) ∧
        Exec S (.body [] (some rest)) (σ₁.bind [(n, p)]) x (σ'.bind [q]) := by
  constructor
  · intro h
    cases h with
    | early hfirst h => cases hfirst; exact .inl ⟨_, rfl, h⟩
    | atom ha => cases ha
    | operate hops _ _ => cases hops
    | @choose _ _ u e' _ bs bs' _ σ₁ _ hs hrun hchosen h hlen =>
      cases hs
      obtain ⟨res, hres, harm⟩ := Option.map_eq_some_iff.1 ((selectArm_try r n rest u).symm.trans
        hchosen)
      rcases tryResult_cases hres with ⟨p, rfl⟩ | rfl
      · cases harm
        obtain ⟨q, rfl⟩ := List.length_eq_one_iff.1 hlen
        exact .inr (.inr ⟨u, p, q, σ₁, hrun, hres, h⟩)
      · cases harm
        cases List.length_eq_zero_iff.1 hlen
        obtain ⟨x', hempty, rfl⟩ := exec_tail_iff.1 h
        obtain ⟨rfl, hσ⟩ := (exec_emptyVariant_iff hE).1 hempty
        have hσ : σ' = σ₁ := hσ
        subst hσ
        exact .inr (.inl ⟨u, hrun, hres, rfl⟩)
  · rintro (⟨y, rfl, h⟩ | ⟨u, hrun, hres, rfl⟩ | ⟨u, p, q, σ₁, hrun, hres, h⟩)
    · exact .early rfl h
    · have harm : chosen (tryMatch r e n rest) u =
          some ([], .fieldAccess (.var r.enumName) r.noneVariant) := by
        rw [tryMatch, chosen, selectArm_try, hres]
        rfl
      have hempty : Exec S (.body [] (some (.fieldAccess (.var r.enumName) r.noneVariant)))
          (σ'.bind []) (.value (.enum r.enumName r.noneVariant [])) (σ'.bind []) :=
        .tail ((exec_emptyVariant_iff hE).2 ⟨rfl, rfl⟩)
      exact .choose rfl hrun harm hempty rfl
    · have harm : chosen (tryMatch r e n rest) u = some ([(n, p)], rest) := by
        rw [tryMatch, chosen, selectArm_try, hres]
        rfl
      exact .choose rfl hrun harm h rfl

/-- Entries under a binder that does not occur free can be exchanged. -/
theorem exec_exchange {n : String} {ss : List Stmt} {r : Ending} {σ σ' : Memory W}
    {x x' y bs bs' : List (String × Value)} (hx : Named n x) (hy : Named n y)
    (hxlen : x'.length = x.length) (hlen : bs'.length = bs.length)
    (hfree : n ∈ freeBody S.nominal ss [] → n ∈ bs.map Prod.fst)
    (h : Exec S (.body ss none) ((σ.bind x).bind bs) r ((σ'.bind x').bind bs')) :
    Exec S (.body ss none) ((σ.bind y).bind bs) r ((σ'.bind y).bind bs') := by
  obtain ⟨⟨inner, outer, w⟩, hσ, hnames, hall⟩ := exec_fill h ⟨bs, σ.vars, σ.world⟩ x rfl hx hfree
  obtain ⟨ρ, w'⟩ := σ'
  simp only [Memory.bind, Hole.fill, Memory.mk.injEq] at hσ
  obtain ⟨hρ, rfl⟩ := hσ
  have hinner : inner.length = bs.length := by
    simpa [Hole.names] using congrArg List.length hnames
  obtain ⟨rfl, houter⟩ := List.append_inj hρ (hlen.trans hinner.symm)
  obtain ⟨rfl, rfl⟩ := List.append_inj houter hxlen
  exact hall y hy

theorem named_single (n : String) (v : Value) : Named n [(n, v)] := by simp [Named]

theorem named_nil (n : String) : Named n [] := nofun

/-- A try-let and what follows it have the runs of the match, when the binder does not occur
free in what follows, or the let itself has its name. -/
theorem same_try {r : EarlyReturn} (hr : S.early = r)
    (hE : S.nominal.isEnum r.enumName = true) {name binder : String} {ann : Option Ty}
    {e tail tail' : Expr} {after after' : List Stmt}
    (hfree : binder ∉ unbound (declared (.let_ name ann e))
      (freeBody S.nominal (after ++ [.return_ tail]) []))
    (hrest : Same S (.body (after ++ [.return_ tail]) none)
      (.body (after' ++ [.return_ tail']) none)) :
    Same S (.body (.let_ name ann (.try_ e) :: (after ++ [.return_ tail])) none)
      (.body [.return_ (tryMatch r e binder
        (.block (.let_ name ann (.var binder) :: after') tail'))] none) := by
  have hbound : ∀ {v bs}, bindings S.prims (.let_ name ann e) v = some bs →
      binder ∈ freeBody S.nominal (after ++ [.return_ tail]) [] → binder ∈ bs.map Prod.fst :=
    fun hbs hmem => bindings_declared hbs binder
      (by_contra fun hno => hfree (mem_unbound.2 ⟨hmem, hno⟩))
  intro σ x σ'
  rw [exec_onlyReturn_iff, exec_bind_iff rfl]
  constructor
  · rintro (⟨y, rfl, h⟩ | ⟨p, σ₁, bs, bs', h, hbs, hafter, hlen⟩)
    · rcases exec_try_iff.1 h with ⟨y', heq, h⟩ | ⟨u, h, hres⟩
      · cases heq
        exact ⟨_, .tail ((exec_tryMatch_iff hE).2 (.inl ⟨y, rfl, h⟩)), rfl⟩
      · rw [hr] at hres
        rcases tryResult_cases hres with ⟨p, hp⟩ | hy
        · cases hp
        · rw [hy] at hres ⊢
          exact ⟨_, .tail ((exec_tryMatch_iff hE).2 (.inr (.inl ⟨u, h, hres, rfl⟩))), rfl⟩
    · rcases exec_try_iff.1 h with ⟨y', heq, h⟩ | ⟨u, h, hres⟩
      · cases heq
      · rw [hr] at hres
        have hafter' := (hrest _ _ _).1 (exec_exchange (named_nil binder)
          (named_single binder p) (rfl : ([] : List (String × Value)).length = 0) hlen
          (hbound hbs) hafter)
        obtain ⟨x', hblock, rfl⟩ := exec_returning_iff.1 hafter'
        have hlet : Exec S (.body (.let_ name ann (.var binder) :: after') (some tail'))
            (σ₁.bind [(binder, p)]) x' (σ'.bind [(binder, p)]) :=
          (exec_bind_iff rfl).2 (.inr ⟨p, _, bs, bs', exec_var_iff.2
            ⟨p, List.lookup_cons_self, rfl, rfl⟩, hbs, hblock, hlen⟩)
        have harm := exec_tail_iff.2 ⟨x', exec_block_iff.2 hlet, (settle_of_body hlet).symm⟩
        have hmatch := (exec_tryMatch_iff hE).2 (.inr (.inr ⟨u, p, _, σ₁, h, hres, harm⟩))
        exact ⟨x', exec_tail_iff.2 ⟨x', hmatch, (settle_of_body hlet).symm⟩, rfl⟩
  · rintro ⟨x', h, rfl⟩
    obtain ⟨x'', hmatch, rfl⟩ := exec_tail_iff.1 h
    rcases (exec_tryMatch_iff hE).1 hmatch with
      ⟨y, rfl, he⟩ | ⟨u, he, hres, rfl⟩ | ⟨u, p, q, σ₁, he, hres, harm⟩
    · exact .inl ⟨y, rfl, exec_try_iff.2 (.inl ⟨y, rfl, he⟩)⟩
    · exact .inl ⟨_, rfl, exec_try_iff.2 (.inr ⟨u, he, hr ▸ hres⟩)⟩
    · obtain ⟨x', hblock, rfl⟩ := exec_tail_iff.1 harm
      have hlet := exec_block_iff.1 hblock
      rcases (exec_bind_iff rfl).1 hlet with ⟨y, rfl, hvar⟩ | ⟨v, σ₂, bs, bs', hvar, hbs, hin, hlen⟩
      · obtain ⟨_, _, hval, _⟩ := exec_var_iff.1 hvar
        cases hval
      · obtain ⟨v', hlook, hval, rfl⟩ := exec_var_iff.1 hvar
        cases hval
        cases hlook.symm.trans List.lookup_cons_self
        have hafter := (hrest _ _ _).2 (exec_returning_iff.2 ⟨x', hin, rfl⟩)
        refine .inr ⟨p, σ₁, bs, bs', exec_try_iff.2 (.inr ⟨u, he, hr ▸ hres⟩), hbs, ?_, hlen⟩
        rw [settle_of_body hlet, settle_of_body hlet]
        exact exec_exchange (named_single binder p) (named_nil binder) (rfl : [q].length = 1) hlen
          (hbound hbs) hafter

/-! ## The names that move under a binder -/

/-- For each try-let of a list, in order, the free occurrences in what follows it. They are
what moves under its binder. -/
def movedBlock (T : Nominal) : List Stmt → List String → List (List String)
  | [], _ => []
  | s :: ss, tail =>
    if isTryLet s then unbound (declared s) (freeBody T ss tail) :: movedBlock T ss tail
    else movedBlock T ss tail

/-- None of the names bound from number `k` on is among those that move under it. -/
def Clear (k : Nat) (moved : List (List String)) : Prop :=
  ∀ i names, moved[i]? = some names → tryName (k + i) ∉ names

theorem clear_nil (k : Nat) : Clear k [] := by
  intro i names h
  cases h

theorem clear_cons {k : Nat} {names : List String} {moved : List (List String)} :
    Clear k (names :: moved) ↔ tryName k ∉ names ∧ Clear (k + 1) moved := by
  constructor
  · refine fun h => ⟨h 0 names rfl, fun i names' hi => ?_⟩
    rw [Nat.add_right_comm]
    exact h (i + 1) names' hi
  · rintro ⟨h, hrest⟩ i names' hi
    cases i with
    | zero => cases hi; exact h
    | succ i =>
      rw [← Nat.add_assoc, Nat.add_right_comm]
      exact hrest i names' hi

theorem clear_append {k : Nat} {a b : List (List String)} :
    Clear k (a ++ b) ↔ Clear k a ∧ Clear (k + a.length) b := by
  induction a generalizing k with
  | nil => simp [clear_nil]
  | cons names a ih =>
    rw [List.cons_append, clear_cons, clear_cons, ih, List.length_cons, and_assoc,
      Nat.add_right_comm k 1, Nat.add_assoc]

/-! ## A list of statements -/

/-- The free occurrences of a list once its try-lets are rewritten. -/
def rewrittenFree (T : Nominal) (r : EarlyReturn) (ss : List Stmt) (tail : Expr) (k : Nat) :
    List String :=
  freeBody T (tryRewriteBlockStmts r ss tail k).1
    (freeExpr T (tryRewriteBlockStmts r ss tail k).2.1)

/-- The rewriting keeps the free occurrences of a list, and of each list that ends it. -/
def KeepsBlock (T : Nominal) (r : EarlyReturn) : List Stmt → Expr → Nat → Prop
  | [], _, _ => True
  | s :: ss, tail, k =>
    rewrittenFree T r (s :: ss) tail k = freeBody T (s :: ss) (freeExpr T tail) ∧
      KeepsBlock T r ss tail (if isTryLet s then k + 1 else k)

section Block

variable {r : EarlyReturn}

theorem tryRewriteBlockStmts_try (name : String) (ann : Option Ty) (e : Expr)
    (after : List Stmt) (tail : Expr) (k : Nat) :
    tryRewriteBlockStmts r (.let_ name ann (.try_ e) :: after) tail k =
      ([], tryMatch r e (tryName k) (.block (.let_ name ann (.var (tryName k)) ::
        (tryRewriteBlockStmts r after tail (k + 1)).1)
          (tryRewriteBlockStmts r after tail (k + 1)).2.1),
        (tryRewriteBlockStmts r after tail (k + 1)).2.2) := rfl

theorem tryRewriteBlockStmts_other {s : Stmt} (hs : isTryLet s = false) (ss : List Stmt)
    (tail : Expr) (k : Nat) :
    tryRewriteBlockStmts r (s :: ss) tail k =
      (s :: (tryRewriteBlockStmts r ss tail k).1, (tryRewriteBlockStmts r ss tail k).2) := by
  cases s with
  | let_ name ann e => cases e <;> first | rfl | cases hs
  | _ => rfl

theorem isTryLet_eq {s : Stmt} (hs : isTryLet s = true) :
    ∃ name ann e, s = .let_ name ann (.try_ e) := by
  unfold isTryLet at hs
  split at hs
  · exact ⟨_, _, _, rfl⟩
  · cases hs

/-- Each try-let takes one number. -/
theorem tryRewriteBlockStmts_counter (names : List String) (ss : List Stmt) (tail : Expr)
    (k : Nat) :
    (tryRewriteBlockStmts r ss tail k).2.2 = k + (movedBlock T ss names).length := by
  induction ss generalizing k with
  | nil => rfl
  | cons s ss ih =>
    cases hs : isTryLet s with
    | true =>
      obtain ⟨name, ann, e, rfl⟩ := isTryLet_eq hs
      rw [tryRewriteBlockStmts_try, movedBlock, if_pos hs, List.length_cons, ih, Nat.add_assoc,
        Nat.add_comm 1]
    | false => rw [tryRewriteBlockStmts_other hs, movedBlock, hs, ih, if_neg Bool.false_ne_true]

/-- A name of its own takes nothing out of a list but itself. -/
theorem unbound_cons_eq_iff {n : String} {names : List String} :
    unbound [n] (n :: names) = names ↔ n ∉ names := by
  rw [unbound, List.filter_cons_of_neg (by simp), List.filter_eq_self]
  simp only [List.mem_singleton, decide_not, Bool.not_eq_true', decide_eq_false_iff_not]
  exact ⟨fun h hn => h n hn rfl, fun h m hm he => h (he ▸ hm)⟩

/-- The free occurrences of the match for a try-let. -/
theorem rewrittenFree_try (hE : T.isEnum r.enumName = true) (name : String) (ann : Option Ty)
    (e : Expr) (after : List Stmt) (tail : Expr) (k : Nat) :
    rewrittenFree T r (.let_ name ann (.try_ e) :: after) tail k =
      freeExpr T e ++ unbound [tryName k] (tryName k ::
        unbound (declared (.let_ name ann (.try_ e))) (rewrittenFree T r after tail (k + 1))) := by
  rw [rewrittenFree, tryRewriteBlockStmts_try]
  simp [freeBody, tryMatch, freeExpr, freeArms, patternNames, hE, freeStmt, declared,
    rewrittenFree]

theorem rewrittenFree_other {s : Stmt} (hs : isTryLet s = false) (ss : List Stmt)
    (tail : Expr) (k : Nat) :
    rewrittenFree T r (s :: ss) tail k =
      freeStmt T s ++ unbound (declared s) (rewrittenFree T r ss tail k) := by
  rw [rewrittenFree, tryRewriteBlockStmts_other hs, freeBody]
  rfl

/-- Where no binder captures, the free occurrences stay. -/
theorem rewrittenFree_of_clear (hE : T.isEnum r.enumName = true) (ss : List Stmt)
    (tail : Expr) (k : Nat) (hclear : Clear k (movedBlock T ss (freeExpr T tail))) :
    rewrittenFree T r ss tail k = freeBody T ss (freeExpr T tail) := by
  induction ss generalizing k with
  | nil => rfl
  | cons s ss ih =>
    rw [movedBlock] at hclear
    cases hs : isTryLet s with
    | true =>
      rw [if_pos hs, clear_cons] at hclear
      obtain ⟨name, ann, e, rfl⟩ := isTryLet_eq hs
      rw [rewrittenFree_try hE, ih _ hclear.2, unbound_cons_eq_iff.2 hclear.1]
      rfl
    | false =>
      rw [hs, if_neg Bool.false_ne_true] at hclear
      rw [rewrittenFree_other hs, ih _ hclear, freeBody]

/-- The names of a list are kept exactly where no binder captures. -/
theorem keepsBlock_iff (hE : T.isEnum r.enumName = true) (ss : List Stmt) (tail : Expr)
    (k : Nat) :
    KeepsBlock T r ss tail k ↔ Clear k (movedBlock T ss (freeExpr T tail)) := by
  induction ss generalizing k with
  | nil => exact ⟨fun _ => clear_nil k, fun _ => trivial⟩
  | cons s ss ih =>
    rw [KeepsBlock, movedBlock]
    cases hs : isTryLet s with
    | true =>
      rw [if_pos rfl, if_pos rfl, ih, clear_cons]
      obtain ⟨name, ann, e, rfl⟩ := isTryLet_eq hs
      refine and_congr_left fun hclear => ?_
      rw [rewrittenFree_try hE, rewrittenFree_of_clear hE _ _ _ hclear, freeBody]
      rw [show freeStmt T (.let_ name ann (.try_ e)) = freeExpr T e from rfl]
      rw [List.append_cancel_left_eq, unbound_cons_eq_iff]
    | false =>
      rw [if_neg Bool.false_ne_true, if_neg Bool.false_ne_true, ih]
      refine and_iff_right_of_imp fun hclear => ?_
      rw [rewrittenFree_other hs, rewrittenFree_of_clear hE _ _ _ hclear, freeBody]

/-- Where no binder captures, the rewritten list has the same runs. -/
theorem same_tryRewriteBlockStmts (hr : S.early = r) (hE : S.nominal.isEnum r.enumName = true)
    (ss : List Stmt) (tail : Expr) (k : Nat)
    (hclear : Clear k (movedBlock S.nominal ss (freeExpr S.nominal tail))) :
    Same S (.body (ss ++ [.return_ tail]) none)
      (.body ((tryRewriteBlockStmts r ss tail k).1 ++
        [.return_ (tryRewriteBlockStmts r ss tail k).2.1]) none) := by
  induction ss generalizing k with
  | nil => exact .refl _
  | cons s ss ih =>
    rw [movedBlock] at hclear
    cases hs : isTryLet s with
    | true =>
      rw [if_pos hs, clear_cons, ← freeBody_returning] at hclear
      obtain ⟨name, ann, e, rfl⟩ := isTryLet_eq hs
      rw [tryRewriteBlockStmts_try]
      exact same_try hr hE hclear.1 (ih _ hclear.2)
    | false =>
      rw [hs, if_neg Bool.false_ne_true] at hclear
      rw [tryRewriteBlockStmts_other hs]
      exact .cons .refl (ih _ hclear)

end Block

/-! ## A body -/

/-- The rewriting at the end of a body, if its try-lets are rewritten: the variants, the
statements before the return, and what it returns. Source: checker.rs:5016-5150 -/
def tryTop (enums : List EnumDecl) (returnType : Ty) (body : List Stmt) :
    Option (EarlyReturn × List Stmt × Expr) :=
  match body.getLast? with
  | some (.return_ e) =>
    if body.dropLast.any isTryLet && body.dropLast.all blockVocabulary then
      match returnVariants enums returnType with
      | .ok (some r) => some (r, body.dropLast, e)
      | _ => none
    else none
  | _ => none

/-- What moves under the binders of a body's own try-lets. -/
def movedTop (T : Nominal) (enums : List EnumDecl) (returnType : Ty) (body : List Stmt) :
    List (List String) :=
  match tryTop enums returnType body with
  | some (_, ss, e) => movedBlock T ss (freeExpr T e)
  | none => []

mutual

/-- What moves under the binders in a statement, in the order of their numbers. -/
def movedStmt (T : Nominal) (enums : List EnumDecl) (returnType : Ty) :
    Stmt → List (List String)
  | .if_ _ t f =>
    (movedStmts T enums returnType t ++ movedTop T enums returnType t) ++
      (movedStmts T enums returnType f ++ movedTop T enums returnType f)
  | .while_ _ _ b | .for_ _ _ _ _ b _ _ | .forIter _ _ _ b | .taskSpawn _ b =>
    movedStmts T enums returnType b ++ movedTop T enums returnType b
  | _ => []

def movedStmts (T : Nominal) (enums : List EnumDecl) (returnType : Ty) :
    List Stmt → List (List String)
  | [] => []
  | s :: ss => movedStmt T enums returnType s ++ movedStmts T enums returnType ss

end

/-- What moves under the binders in a body. -/
def movedBody (T : Nominal) (enums : List EnumDecl) (returnType : Ty) (body : List Stmt) :
    List (List String) :=
  movedStmts T enums returnType body ++ movedTop T enums returnType body

/-- The rewriting of a body's own try-lets keeps its free occurrences. -/
def KeepsTop (T : Nominal) (enums : List EnumDecl) (returnType : Ty) (body : List Stmt)
    (k : Nat) : Prop :=
  match tryTop enums returnType body with
  | some (r, ss, e) => KeepsBlock T r ss e k
  | none => True

mutual

/-- Every rewriting in a statement keeps the free occurrences of the lists it is done on. -/
def KeepsStmt (T : Nominal) (enums : List EnumDecl) (returnType : Ty) :
    Stmt → TryState → Prop
  | .if_ _ t f, st =>
    let (t', st₁) := tryRewriteStmts enums returnType t st
    let (_, st₂) := tryRewriteAtTop enums returnType t' st₁
    let (f', st₃) := tryRewriteStmts enums returnType f st₂
    (KeepsStmts T enums returnType t st ∧ KeepsTop T enums returnType t' st₁.counter) ∧
      (KeepsStmts T enums returnType f st₂ ∧ KeepsTop T enums returnType f' st₃.counter)
  | .while_ _ _ b, st | .for_ _ _ _ _ b _ _, st | .forIter _ _ _ b, st | .taskSpawn _ b, st =>
    let (b', st₁) := tryRewriteStmts enums returnType b st
    KeepsStmts T enums returnType b st ∧ KeepsTop T enums returnType b' st₁.counter
  | _, _ => True

def KeepsStmts (T : Nominal) (enums : List EnumDecl) (returnType : Ty) :
    List Stmt → TryState → Prop
  | [], _ => True
  | s :: ss, st =>
    KeepsStmt T enums returnType s st ∧
      KeepsStmts T enums returnType ss (tryRewriteStmt enums returnType s st).2

end

/-- Every rewriting in a body keeps the free occurrences of the lists it is done on: no name
changes its binder. -/
def KeepsBody (T : Nominal) (enums : List EnumDecl) (returnType : Ty) (body : List Stmt)
    (st : TryState) : Prop :=
  let (body', st') := tryRewriteStmts enums returnType body st
  KeepsStmts T enums returnType body st ∧ KeepsTop T enums returnType body' st'.counter

/-- The early return of a setting is the one the return type calls for. -/
def ReturnsAs (S : Setting W) (enums : List EnumDecl) (returnType : Ty) : Prop :=
  ∀ r, returnVariants enums returnType = .ok (some r) → S.early = r

/-- Two bodies have the same free occurrences and, whatever they run on, the same runs. -/
structure Interchangeable (T : Nominal) (enums : List EnumDecl) (returnType : Ty)
    (body body' : List Stmt) : Prop where
  free : freeBody T body' [] = freeBody T body []
  same : ∀ (W : Type) (S : Setting W), S.nominal = T → ReturnsAs S enums returnType →
    Same S (.body body none) (.body body' none)

section Bodies

variable {enums : List EnumDecl} {returnType : Ty} {body body' : List Stmt} {st : TryState}

theorem tryTop_some {r : EarlyReturn} {ss : List Stmt} {e : Expr}
    (h : tryTop enums returnType body = some (r, ss, e)) :
    body = ss ++ [.return_ e] ∧ returnVariants enums returnType = .ok (some r) ∧
      ∀ st, tryRewriteAtTop enums returnType body st =
        ((tryRewriteBlockStmts r ss e st.counter).1 ++
          [.return_ (tryRewriteBlockStmts r ss e st.counter).2.1],
        { st with counter := (tryRewriteBlockStmts r ss e st.counter).2.2 }) := by
  unfold tryTop at h
  split at h
  case h_2 => cases h
  next e' hlast =>
    split at h
    case isFalse => cases h
    next hcond =>
      rw [Bool.and_eq_true] at hcond
      split at h
      case h_2 => cases h
      next r' hvariants =>
        cases h
        refine ⟨(List.dropLast_append_getLast? _ hlast).symm, hvariants, fun st => ?_⟩
        rw [tryRewriteAtTop, hlast]
        simp only [if_pos hcond.1, if_pos hcond.2, hvariants]

theorem tryTop_none (h : tryTop enums returnType body = none) (st : TryState) :
    (tryRewriteAtTop enums returnType body st).1 = body ∧
      (tryRewriteAtTop enums returnType body st).2.counter = st.counter := by
  rw [tryTop] at h
  rw [tryRewriteAtTop]
  cases hlast : body.getLast? with
  | none => exact ⟨rfl, rfl⟩
  | some s =>
    rw [hlast] at h
    cases s with
    | return_ e =>
      simp only at h ⊢
      by_cases htry : body.dropLast.any isTryLet = true
      · by_cases hall : body.dropLast.all blockVocabulary = true
        · rw [if_pos htry, if_pos hall]
          rw [if_pos (by simp [htry, hall])] at h
          cases hvariants : returnVariants enums returnType with
          | error message => exact ⟨rfl, rfl⟩
          | ok variants =>
            cases variants with
            | none => exact ⟨rfl, rfl⟩
            | some r => rw [hvariants] at h; cases h
        · rw [if_pos htry, if_neg hall]
          exact ⟨rfl, rfl⟩
      · rw [if_neg htry]
        exact ⟨rfl, rfl⟩
    | _ => exact ⟨rfl, rfl⟩

theorem tryTop_append (ss : List Stmt) (e : Expr) :
    tryTop enums returnType (ss ++ [.return_ e]) =
      if ss.any isTryLet && ss.all blockVocabulary then
        match returnVariants enums returnType with
        | .ok (some r) => some (r, ss, e)
        | _ => none
      else none := by
  simp [tryTop]

/-- The counter counts the try-lets that are rewritten. -/
theorem tryRewriteAtTop_counter (T : Nominal) :
    (tryRewriteAtTop enums returnType body st).2.counter =
      st.counter + (movedTop T enums returnType body).length := by
  rw [movedTop]
  cases htop : tryTop enums returnType body with
  | none => exact (tryTop_none htop st).2
  | some p =>
    obtain ⟨r, ss, e⟩ := p
    rw [(tryTop_some htop).2.2 st]
    exact tryRewriteBlockStmts_counter (freeExpr T e) ss e st.counter

theorem keepsTop_iff
    (hE : ∀ r, returnVariants enums returnType = .ok (some r) → T.isEnum r.enumName = true)
    (k : Nat) :
    KeepsTop T enums returnType body k ↔ Clear k (movedTop T enums returnType body) := by
  rw [KeepsTop, movedTop]
  cases htop : tryTop enums returnType body with
  | none => exact ⟨fun _ => clear_nil k, fun _ => trivial⟩
  | some p =>
    obtain ⟨r, ss, e⟩ := p
    exact keepsBlock_iff (hE r (tryTop_some htop).2.1) ss e k

/-- Where no binder captures, the body with its own try-lets rewritten stands for it. -/
theorem interchangeable_top
    (hE : ∀ r, returnVariants enums returnType = .ok (some r) → T.isEnum r.enumName = true)
    (hclear : Clear st.counter (movedTop T enums returnType body)) :
    Interchangeable T enums returnType body (tryRewriteAtTop enums returnType body st).1 := by
  rw [movedTop] at hclear
  cases htop : tryTop enums returnType body with
  | none =>
    rw [(tryTop_none htop st).1]
    exact ⟨rfl, fun _ _ _ _ => .refl _⟩
  | some p =>
    obtain ⟨r, ss, e⟩ := p
    rw [htop] at hclear
    obtain ⟨rfl, hvariants, hrewrite⟩ := tryTop_some htop
    rw [hrewrite st]
    refine ⟨?_, fun W S hT hS => ?_⟩
    · rw [freeBody_returning, freeBody_returning]
      exact rewrittenFree_of_clear (hE r hvariants) ss e _ hclear
    · subst hT
      exact same_tryRewriteBlockStmts (hS r hvariants) (hE r hvariants) ss e _ hclear

/-! ## Other bodies inside -/

variable {R : List Stmt → List Stmt → Prop}

theorem Rebodied.isTryLet_eq {s s' : Stmt} (h : Rebodied R s s') : isTryLet s' = isTryLet s := by
  cases h <;> rfl

theorem Rebodied.blockVocabulary_eq {s s' : Stmt} (h : Rebodied R s s') :
    blockVocabulary s' = blockVocabulary s := by
  cases h <;> rfl

theorem any_isTryLet_rebodied {ss ss' : List Stmt} (h : List.Forall₂ (Rebodied R) ss ss') :
    ss'.any isTryLet = ss.any isTryLet := by
  induction h with
  | nil => rfl
  | cons hs _ ih => rw [List.any_cons, List.any_cons, hs.isTryLet_eq, ih]

theorem all_blockVocabulary_rebodied {ss ss' : List Stmt}
    (h : List.Forall₂ (Rebodied R) ss ss') :
    ss'.all blockVocabulary = ss.all blockVocabulary := by
  induction h with
  | nil => rfl
  | cons hs _ ih => rw [List.all_cons, List.all_cons, hs.blockVocabulary_eq, ih]

theorem forall₂_append_return {ss : List Stmt} {e : Expr} {l : List Stmt}
    (h : List.Forall₂ (Rebodied R) (ss ++ [.return_ e]) l) :
    ∃ ss', l = ss' ++ [.return_ e] ∧ List.Forall₂ (Rebodied R) ss ss' := by
  induction ss generalizing l with
  | nil =>
    obtain ⟨s', l', hs, hl, rfl⟩ := List.forall₂_cons_left_iff.1 h
    cases hs
    cases List.forall₂_nil_left_iff.1 hl
    exact ⟨[], rfl, .nil⟩
  | cons s ss ih =>
    obtain ⟨s', l', hs, hl, rfl⟩ := List.forall₂_cons_left_iff.1 h
    obtain ⟨ss', rfl, hss⟩ := ih hl
    exact ⟨s' :: ss', rfl, .cons hs hss⟩

/-- Other bodies inside do not change what is rewritten at the end of a body. -/
theorem tryTop_rebodied (h : List.Forall₂ (Rebodied R) body body') {r : EarlyReturn}
    {ss : List Stmt} {e : Expr} (htop : tryTop enums returnType body = some (r, ss, e)) :
    ∃ ss', tryTop enums returnType body' = some (r, ss', e) ∧
      List.Forall₂ (Rebodied R) ss ss' := by
  obtain ⟨rfl, -, -⟩ := tryTop_some htop
  obtain ⟨ss', rfl, hss⟩ := forall₂_append_return h
  refine ⟨ss', ?_, hss⟩
  rw [tryTop_append] at htop ⊢
  rw [any_isTryLet_rebodied hss, all_blockVocabulary_rebodied hss]
  split at htop
  · next hcond =>
    rw [if_pos hcond]
    split at htop
    · cases htop; rfl
    · cases htop
  · cases htop

theorem tryTop_rebodied_none (h : List.Forall₂ (Rebodied R) body body')
    (htop : tryTop enums returnType body = none) : tryTop enums returnType body' = none := by
  have hback : List.Forall₂ (Rebodied fun _ _ => True) body' body :=
    (h.imp fun _ _ hs => (hs.mono fun _ _ _ => trivial).symm fun _ _ _ => trivial).flip
  cases htop' : tryTop enums returnType body' with
  | none => rfl
  | some p =>
    obtain ⟨r, ss, e⟩ := p
    obtain ⟨ss', hsome, -⟩ := tryTop_rebodied hback htop'
    cases htop.symm.trans hsome

theorem movedBlock_length (T : Nominal) (ss : List Stmt) (names : List String) :
    (movedBlock T ss names).length = ss.countP isTryLet := by
  induction ss with
  | nil => rfl
  | cons s ss ih =>
    rw [movedBlock, List.countP_cons]
    cases isTryLet s with
    | true => simp [ih]
    | false => simp [ih]

theorem countP_rebodied {ss ss' : List Stmt} (h : List.Forall₂ (Rebodied R) ss ss') :
    ss'.countP isTryLet = ss.countP isTryLet := by
  induction h with
  | nil => rfl
  | cons hs _ ih => rw [List.countP_cons, List.countP_cons, hs.isTryLet_eq, ih]

theorem movedTop_length_rebodied (h : List.Forall₂ (Rebodied R) body body') :
    (movedTop T enums returnType body').length = (movedTop T enums returnType body).length := by
  rw [movedTop, movedTop]
  cases htop : tryTop enums returnType body with
  | none => rw [tryTop_rebodied_none h htop]
  | some p =>
    obtain ⟨r, ss, e⟩ := p
    obtain ⟨ss', hsome, hss⟩ := tryTop_rebodied h htop
    rw [hsome]
    simp only [movedBlock_length, countP_rebodied hss]

theorem movedBlock_rebodied {ss ss' : List Stmt} (names : List String)
    (h : List.Forall₂ (Rebodied fun b b' => freeBody T b' [] = freeBody T b []) ss ss') :
    movedBlock T ss' names = movedBlock T ss names := by
  induction h with
  | nil => rfl
  | cons hs hss ih =>
    rw [movedBlock, movedBlock, hs.isTryLet_eq, hs.declared_eq, freeBody_rebodied names hss, ih]

theorem movedTop_rebodied
    (h : List.Forall₂ (Rebodied fun b b' => freeBody T b' [] = freeBody T b []) body body') :
    movedTop T enums returnType body' = movedTop T enums returnType body := by
  rw [movedTop, movedTop]
  cases htop : tryTop enums returnType body with
  | none => rw [tryTop_rebodied_none h htop]
  | some p =>
    obtain ⟨r, ss, e⟩ := p
    obtain ⟨ss', hsome, hss⟩ := tryTop_rebodied h htop
    rw [hsome]
    exact movedBlock_rebodied _ hss

/-! ## The whole traversal -/

/-- What the rewriting of a statement does. -/
structure StmtSpec (T : Nominal) (enums : List EnumDecl) (returnType : Ty) (s : Stmt)
    (st : TryState) : Prop where
  counter : (tryRewriteStmt enums returnType s st).2.counter =
    st.counter + (movedStmt T enums returnType s).length
  shape : Rebodied (fun _ _ => True) s (tryRewriteStmt enums returnType s st).1
  kept : Clear st.counter (movedStmt T enums returnType s) →
    Rebodied (Interchangeable T enums returnType) s (tryRewriteStmt enums returnType s st).1
  keeps : KeepsStmt T enums returnType s st ↔
    Clear st.counter (movedStmt T enums returnType s)

/-- What the rewriting of the statements of a list does. -/
structure StmtsSpec (T : Nominal) (enums : List EnumDecl) (returnType : Ty) (ss : List Stmt)
    (st : TryState) : Prop where
  counter : (tryRewriteStmts enums returnType ss st).2.counter =
    st.counter + (movedStmts T enums returnType ss).length
  shape : List.Forall₂ (Rebodied fun _ _ => True) ss (tryRewriteStmts enums returnType ss st).1
  kept : Clear st.counter (movedStmts T enums returnType ss) →
    List.Forall₂ (Rebodied (Interchangeable T enums returnType)) ss
      (tryRewriteStmts enums returnType ss st).1
  keeps : KeepsStmts T enums returnType ss st ↔
    Clear st.counter (movedStmts T enums returnType ss)

/-- What the rewriting of a body does. -/
structure BodySpec (T : Nominal) (enums : List EnumDecl) (returnType : Ty) (body : List Stmt)
    (st : TryState) : Prop where
  counter : (tryRewriteStmtList enums returnType body st).2.counter =
    st.counter + (movedBody T enums returnType body).length
  kept : Clear st.counter (movedBody T enums returnType body) →
    Interchangeable T enums returnType body (tryRewriteStmtList enums returnType body st).1
  keeps : KeepsBody T enums returnType body st ↔
    Clear st.counter (movedBody T enums returnType body)

theorem Interchangeable.trans {body'' : List Stmt}
    (h : Interchangeable T enums returnType body body')
    (h' : Interchangeable T enums returnType body' body'') :
    Interchangeable T enums returnType body body'' :=
  ⟨h'.free.trans h.free, fun W S hT hS => (h.same W S hT hS).trans (h'.same W S hT hS)⟩

theorem freeBodies_of_interchangeable {ss ss' : List Stmt}
    (h : List.Forall₂ (Rebodied (Interchangeable T enums returnType)) ss ss') :
    List.Forall₂ (Rebodied fun b b' => freeBody T b' [] = freeBody T b []) ss ss' :=
  h.imp fun _ _ hs => hs.mono fun _ _ hb => hb.free

theorem interchangeable_stmts
    (h : List.Forall₂ (Rebodied (Interchangeable T enums returnType)) body body') :
    Interchangeable T enums returnType body body' :=
  ⟨freeBody_rebodied [] (freeBodies_of_interchangeable h), fun W S hT hS =>
    .stmts none (h.imp fun _ _ hs => hs.mono fun _ _ hb => hb.same W S hT hS)⟩

/-- A construct with one body. -/
theorem stmtSpec_body {s : Stmt} {b : List Stmt} (h : BodySpec T enums returnType b st)
    (hmoved : movedStmt T enums returnType s = movedBody T enums returnType b)
    (hkeeps : KeepsStmt T enums returnType s st ↔ KeepsBody T enums returnType b st)
    (hcounter : (tryRewriteStmt enums returnType s st).2 =
      (tryRewriteStmtList enums returnType b st).2)
    (hshape : ∀ R : List Stmt → List Stmt → Prop,
      R b (tryRewriteStmtList enums returnType b st).1 →
        Rebodied R s (tryRewriteStmt enums returnType s st).1) :
    StmtSpec T enums returnType s st where
  counter := by rw [hcounter, hmoved, h.counter]
  shape := hshape _ trivial
  kept hclear := hshape _ (h.kept (hmoved ▸ hclear))
  keeps := by rw [hkeeps, hmoved, h.keeps]

theorem bodySpec_of_stmts
    (hE : ∀ r, returnVariants enums returnType = .ok (some r) → T.isEnum r.enumName = true)
    (h : StmtsSpec T enums returnType body st) :
    BodySpec T enums returnType body st where
  counter := by
    rw [tryRewriteStmtList, movedBody, List.length_append, ← Nat.add_assoc, ← h.counter,
      ← movedTop_length_rebodied h.shape]
    exact tryRewriteAtTop_counter T
  kept hclear := by
    rw [movedBody, clear_append, ← h.counter] at hclear
    have hinner := h.kept hclear.1
    rw [← movedTop_rebodied (freeBodies_of_interchangeable hinner)] at hclear
    exact (interchangeable_stmts hinner).trans (interchangeable_top hE hclear.2)
  keeps := by
    rw [movedBody, clear_append, ← h.counter, KeepsBody, h.keeps]
    refine and_congr_right fun hclear => ?_
    rw [← movedTop_rebodied (freeBodies_of_interchangeable (h.kept hclear))]
    exact keepsTop_iff hE _

mutual

theorem stmtSpec
    (hE : ∀ r, returnVariants enums returnType = .ok (some r) → T.isEnum r.enumName = true) :
    ∀ (s : Stmt) (st : TryState), StmtSpec T enums returnType s st
  | .if_ c t f, st => by
    have ht := bodySpec_of_stmts hE (stmtsSpec hE t st)
    have hf := bodySpec_of_stmts hE (stmtsSpec hE f (tryRewriteStmtList enums returnType t st).2)
    have hmoved : movedStmt T enums returnType (.if_ c t f) =
        movedBody T enums returnType t ++ movedBody T enums returnType f := rfl
    refine ⟨?_, .if_ trivial trivial, fun hclear => ?_, ?_⟩
    · rw [hmoved, List.length_append, ← Nat.add_assoc, ← ht.counter]
      exact hf.counter
    · rw [hmoved, clear_append, ← ht.counter] at hclear
      exact .if_ (ht.kept hclear.1) (hf.kept hclear.2)
    · rw [hmoved, clear_append, ← ht.counter, ← ht.keeps, ← hf.keeps]
      exact Iff.rfl
  | .while_ c invs b, st =>
    stmtSpec_body (bodySpec_of_stmts hE (stmtsSpec hE b st)) rfl Iff.rfl rfl fun _ => .while_
  | .for_ x s e invs b par reds, st =>
    stmtSpec_body (bodySpec_of_stmts hE (stmtsSpec hE b st)) rfl Iff.rfl rfl fun _ => .for_
  | .forIter x xs consumes b, st =>
    stmtSpec_body (bodySpec_of_stmts hE (stmtsSpec hE b st)) rfl Iff.rfl rfl fun _ => .forIter
  | .taskSpawn n b, st =>
    stmtSpec_body (bodySpec_of_stmts hE (stmtsSpec hE b st)) rfl Iff.rfl rfl fun _ => .taskSpawn
  | .let_ .., st | .letTuple .., st | .return_ _, st | .assert .., st | .prove _, st
  | .print _, st | .assign .., st | .break_, st | .continue_, st | .indexAssign .., st
  | .fieldAssign .., st | .taskJoin _, st =>
    ⟨rfl, .refl, fun _ => .refl, ⟨fun _ => clear_nil _, fun _ => trivial⟩⟩

theorem stmtsSpec
    (hE : ∀ r, returnVariants enums returnType = .ok (some r) → T.isEnum r.enumName = true) :
    ∀ (ss : List Stmt) (st : TryState), StmtsSpec T enums returnType ss st
  | [], st => ⟨rfl, .nil, fun _ => .nil, ⟨fun _ => clear_nil _, fun _ => trivial⟩⟩
  | s :: ss, st => by
    have hs := stmtSpec hE s st
    have hss := stmtsSpec hE ss (tryRewriteStmt enums returnType s st).2
    refine ⟨?_, .cons hs.shape hss.shape, fun hclear => ?_, ?_⟩
    · rw [movedStmts, List.length_append, ← Nat.add_assoc, ← hs.counter]
      exact hss.counter
    · rw [movedStmts, clear_append, ← hs.counter] at hclear
      exact .cons (hs.kept hclear.1) (hss.kept hclear.2)
    · rw [movedStmts, clear_append, ← hs.counter, KeepsStmts, hs.keeps, hss.keeps]

end

end Bodies

/-! ## The desugaring -/

/-- The nominal types of a program with these enums. -/
def nominals (enums : List EnumDecl) (isStruct : String → Bool) : Nominal :=
  ⟨fun n => enums.any (·.name = n), isStruct⟩

theorem returnVariants_declared {enums : List EnumDecl} {returnType : Ty} {r : EarlyReturn}
    (h : returnVariants enums returnType = .ok (some r)) :
    enums.any (·.name = r.enumName) = true := by
  unfold returnVariants at h
  split at h
  case h_2 => cases h
  next name =>
    split at h
    · cases h
    · next decl hdecl =>
      simp only at h
      split at h
      · cases h
        have hmem := List.mem_of_getLast? hdecl
        rw [List.mem_filter] at hmem
        exact List.any_eq_true.2 ⟨decl, hmem⟩
      · cases h

/-- The desugared body of a function has the runs of its own body: from any variables and
any world, it leaves with the same values, in the same world, with the same printed. -/
def KeepsBehaviour (enums : List EnumDecl) (isStruct : String → Bool) (f f' : Function) : Prop :=
  ∀ (W : Type) (S : Setting W), S.nominal = nominals enums isStruct →
    ReturnsAs S enums f.returnType → Same S (.body f.body none) (.body f'.body none)

/-- Every name of a function is bound as before: neither rewriting changes the free
occurrences of the lists it is done on. -/
def KeepsNames (enums : List EnumDecl) (isStruct : String → Bool) (f : Function)
    (st : TryState) : Prop :=
  freeBody (nominals enums isStruct) (rewriteGuards f.body) [] =
      freeBody (nominals enums isStruct) f.body [] ∧
    KeepsBody (nominals enums isStruct) enums f.returnType (rewriteGuards f.body) st

/-- No name the desugaring binds occurs free in what moves under it. -/
def NoCapture (enums : List EnumDecl) (isStruct : String → Bool) (f : Function)
    (st : TryState) : Prop :=
  Clear st.counter
    (movedBody (nominals enums isStruct) enums f.returnType (rewriteGuards f.body))

/-- Desugaring keeps the behaviour of a function and the binding of its names if and only if
no name it binds occurs free in what moves under it. -/
theorem try_desugar_iff (enums : List EnumDecl) (isStruct : String → Bool) (f : Function)
    (st : TryState) :
    (KeepsBehaviour enums isStruct f (desugarTryLet enums f st).1 ∧
      KeepsNames enums isStruct f st) ↔ NoCapture enums isStruct f st := by
  have hspec : BodySpec (nominals enums isStruct) enums f.returnType (rewriteGuards f.body) st :=
    bodySpec_of_stmts (fun _ hr => returnVariants_declared hr)
      (stmtsSpec (fun _ hr => returnVariants_declared hr) _ st)
  refine ⟨fun h => hspec.keeps.1 h.2.2, fun hclear => ⟨fun W S hT hS => ?_, ?_, ?_⟩⟩
  · exact (same_rewriteGuards f.body).trans ((hspec.kept hclear).same W S hT hS)
  · exact freeBody_rewriteGuards f.body
  · exact hspec.keeps.2 hclear

/-! ## A captured parameter -/

theorem exec_oneVar_iff {n : String} {r : Ending} {σ σ' : Memory W} :
    Exec S (.args [.var n]) σ r σ' ↔
      ∃ v, σ.vars.lookup n = some v ∧ r = .values [v] ∧ σ' = σ := by
  constructor
  · intro h
    cases h with
    | early hfirst h =>
      cases hfirst
      obtain ⟨_, _, hval, _⟩ := exec_var_iff.1 h
      cases hval
    | argsCons hvar hnil =>
      obtain ⟨v, hv, hval, rfl⟩ := exec_var_iff.1 hvar
      cases hval
      cases hnil with
      | early hfirst _ => cases hfirst
      | argsNil => exact ⟨_, hv, rfl, rfl⟩
  · rintro ⟨v, hv, rfl, rfl⟩
    exact .argsCons (exec_var_iff.2 ⟨v, hv, rfl, rfl⟩) .argsNil

/-- A variant with the value of a variable. -/
theorem exec_variantOf_iff {E m n : String} (hE : S.nominal.isEnum E = true) {r : Ending}
    {σ σ' : Memory W} :
    Exec S (.expr (.methodCall (.var E) m [.var n])) σ r σ' ↔
      ∃ v, σ.vars.lookup n = some v ∧ r = .value (.enum E m [v.settle]) ∧ σ' = σ := by
  have hops : operands S.nominal (.methodCall (.var E) m [.var n]) =
      some (.construct E m, [.var n]) := if_pos hE
  have hcall : callOperands S (.methodCall (.var E) m [.var n]) = some [.var n] := by
    rw [callOperands, hops]
  constructor
  · intro h
    cases h with
    | early hfirst h =>
      have hargs : first S (.expr (.methodCall (.var E) m [.var n])) = some (.args [.var n]) := by
        simp [first, scrutinee, hcall]
      cases hargs.symm.trans hfirst
      obtain ⟨_, _, hval, _⟩ := exec_oneVar_iff.1 h
      cases hval
    | atom ha => cases ha
    | operate hops' hargs hv =>
      cases hcall.symm.trans hops'
      obtain ⟨v, hlook, hval, rfl⟩ := exec_oneVar_iff.1 hargs
      cases hval
      rw [compute, hops] at hv
      cases hv
      exact ⟨v, hlook, rfl, rfl⟩
    | choose hs _ _ _ _ => cases hs
  · rintro ⟨v, hlook, rfl, rfl⟩
    refine .operate hcall (exec_oneVar_iff.2 ⟨v, hlook, rfl, rfl⟩) ?_
    rw [compute, hops]
    rfl

/-- `enum Opt { Some(i64), None }` -/
def optEnum : EnumDecl := ⟨"Opt", [⟨"Some", [.int .i64]⟩, ⟨"None", []⟩]⟩

/-- `fn f(o: Opt, __try_v_0: i64) -> Opt { let v = try o; return Opt.Some(__try_v_0); }` -/
def capturedParam : Function where
  name := "f"
  params := [⟨"o", .enum "Opt"⟩, ⟨"__try_v_0", .int .i64⟩]
  returnType := .enum "Opt"
  requires := []
  ensures := []
  body := [.let_ "v" none (.try_ (.var "o")),
    .return_ (.methodCall (.var "Opt") "Some" [.var "__try_v_0"])]
  isPure := false

theorem capturedParam_desugared :
    (desugarTryLet [optEnum] capturedParam ⟨0, []⟩).1.body =
      [.return_ (tryMatch ⟨"Opt", "Some", "None"⟩ (.var "o") "__try_v_0"
        (.block [.let_ "v" none (.var "__try_v_0")]
          (.methodCall (.var "Opt") "Some" [.var "__try_v_0"])))] ∧
      (desugarTryLet [optEnum] capturedParam ⟨0, []⟩).2.diagnostics = [] := ⟨rfl, rfl⟩

example : ¬ NoCapture [optEnum] (fun _ => false) capturedParam ⟨0, []⟩ := fun h =>
  h 0 ["__try_v_0"] rfl (by decide)

/-- A machine with nothing to call, on which printing leaves no trace. -/
def optSetting : Setting Unit where
  prims := Prims.bare
  nominal := nominals [optEnum] fun _ => false
  print _ w := w
  early := ⟨"Opt", "Some", "None"⟩

/-- An `i64`. -/
def payloadValue (k : Int) : Value := .scalar (.int .i64 false k)

/-- `f(Opt.Some(1), 10)` -/
def optMemory : Memory Unit :=
  ⟨[("__try_v_0", payloadValue 10), ("o", .enum "Opt" "Some" [payloadValue 1])], ()⟩

/-- The function returns its parameter. -/
theorem capturedParam_returns :
    Exec optSetting (.body capturedParam.body none) optMemory
      (.exit (.returned (.enum "Opt" "Some" [payloadValue 10]))) optMemory := by
  have hreturn : Exec optSetting (.body [.return_ (.methodCall (.var "Opt") "Some"
      [.var "__try_v_0"])] none) (optMemory.bind [("v", payloadValue 1)])
      (.exit (.returned (.enum "Opt" "Some" [payloadValue 10])))
      (optMemory.bind [("v", payloadValue 1)]) :=
    exec_onlyReturn_iff.2 ⟨_, exec_tail_iff.2 ⟨_, (exec_variantOf_iff (by decide)).2
      ⟨payloadValue 10, rfl, rfl, rfl⟩, rfl⟩, rfl⟩
  refine (exec_bind_iff rfl).2 (.inr ⟨payloadValue 1, _, _, _, ?_, rfl, hreturn, rfl⟩)
  exact exec_try_iff.2 (.inr ⟨_, exec_var_iff.2 ⟨_, rfl, rfl, rfl⟩, rfl⟩)

/-- Once desugared it returns the payload. -/
theorem capturedParam_payload {v : Value} {σ : Memory Unit}
    (h : Exec optSetting (.body (desugarTryLet [optEnum] capturedParam ⟨0, []⟩).1.body none)
      optMemory (.exit (.returned v)) σ) : v = .enum "Opt" "Some" [payloadValue 1] := by
  rw [capturedParam_desugared.1] at h
  obtain ⟨r, h, hr⟩ := exec_onlyReturn_iff.1 h
  obtain ⟨r, hmatch, rfl⟩ := exec_tail_iff.1 h
  have hE : optSetting.nominal.isEnum "Opt" = true := by decide
  rcases (exec_tryMatch_iff hE).1 hmatch with
    ⟨y, rfl, ho⟩ | ⟨u, ho, hres, rfl⟩ | ⟨u, p, q, σ₁, ho, hres, harm⟩
  · obtain ⟨_, _, hval, _⟩ := exec_var_iff.1 ho
    cases hval
  · obtain ⟨_, hlook, hval, _⟩ := exec_var_iff.1 ho
    cases hval
    cases hlook
    cases hres
  · obtain ⟨_, hlook, hval, rfl⟩ := exec_var_iff.1 ho
    cases hval
    cases hlook
    cases hres
    obtain ⟨r', hblock, rfl⟩ := exec_tail_iff.1 harm
    rcases (exec_bind_iff rfl).1 (exec_block_iff.1 hblock) with
      ⟨y, rfl, hvar⟩ | ⟨w, σ₂, bs, bs', hvar, hbs, hin, -⟩
    · obtain ⟨_, _, hval, _⟩ := exec_var_iff.1 hvar
      cases hval
    · obtain ⟨_, hlook, hval, rfl⟩ := exec_var_iff.1 hvar
      cases hval
      cases hlook
      cases hbs
      obtain ⟨r, hcon, rfl⟩ := exec_tail_iff.1 hin
      obtain ⟨w, hlook, rfl, -⟩ := (exec_variantOf_iff hE).1 hcon
      cases hlook
      cases hr
      rfl

/-- The desugaring accepts the function and changes what it returns. -/
theorem try_captures_parameter :
    (desugarTryLet [optEnum] capturedParam ⟨0, []⟩).2.diagnostics = [] ∧
      ¬ KeepsBehaviour [optEnum] (fun _ => false) capturedParam
        (desugarTryLet [optEnum] capturedParam ⟨0, []⟩).1 := by
  refine ⟨rfl, fun h => ?_⟩
  have hearly : ReturnsAs optSetting [optEnum] capturedParam.returnType := by
    intro r hr
    cases hr
    rfl
  have hpayload := capturedParam_payload
    ((h Unit optSetting rfl hearly _ _ _).1 capturedParam_returns)
  cases hpayload

end Vani.Analysis
