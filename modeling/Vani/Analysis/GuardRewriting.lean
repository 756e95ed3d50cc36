import Mathlib.Data.List.Forall2
import Vani.Analysis.SameRuns

/-!
# Guards as matches

Folding a guard `if cond { return x; }` and what follows it into the return of a match keeps
the runs of a body and its free occurrences, at every depth of the rewriting.
-/

set_option autoImplicit false

namespace Vani.Analysis

open Vani.Program Vani.Model

variable {W : Type} {S : Setting W} {T : Nominal}

/-! ## A guard and the match for it -/

/-- The arm of a match on the two truth values. -/
theorem selectArm_bool {x z e : Expr} {u : Value} {bs : List (String × Value)} :
    selectArm [(.bool true, x), (.bool false, z)] u = some (bs, e) ↔
      ∃ b, u = .scalar (.bool b) ∧ bs = [] ∧ e = if b then x else z := by
  constructor
  · intro h
    match u, h with
    | .scalar (.bool true), h => cases h; exact ⟨true, rfl, rfl, rfl⟩
    | .scalar (.bool false), h => cases h; exact ⟨false, rfl, rfl, rfl⟩
  · rintro ⟨b, rfl, rfl, rfl⟩
    cases b <;> rfl

theorem exec_matchBool_iff {cond x z : Expr} {r : Ending} {σ σ' : Memory W} :
    Exec S (.expr (.match_ cond [(.bool true, x), (.bool false, z)])) σ r σ' ↔
      (∃ y, r = .exit y ∧ Exec S (.expr cond) σ (.exit y) σ') ∨
      ∃ b σ₁, Exec S (.expr cond) σ (.value (.scalar (.bool b))) σ₁ ∧
        Exec S (.body [] (some (if b then x else z))) σ₁ r σ' := by
  constructor
  · intro h
    cases h with
    | early hfirst h => cases hfirst; exact .inl ⟨_, rfl, h⟩
    | atom ha => cases ha
    | operate hops _ _ => cases hops
    | @choose _ _ u e' _ bs bs' _ σ₁ _ hs hrun hchosen h hlen =>
      cases hs
      obtain ⟨b, rfl, rfl, rfl⟩ := selectArm_bool.1 hchosen
      cases List.length_eq_zero_iff.1 hlen
      exact .inr ⟨b, σ₁, hrun, h⟩
  · rintro (⟨y, rfl, h⟩ | ⟨b, σ₁, hrun, h⟩)
    · exact .early rfl h
    · have harm : chosen (.match_ cond [(.bool true, x), (.bool false, z)])
          (.scalar (.bool b)) = some ([], if b then x else z) :=
        selectArm_bool.2 ⟨b, rfl, rfl, rfl⟩
      rw [← bind_nil σ₁, ← bind_nil σ'] at h
      exact .choose rfl hrun harm h rfl

/-- A guard before a body. -/
theorem exec_guard_iff {cond x : Expr} {rest : List Stmt} {r : Ending} {σ σ' : Memory W} :
    Exec S (.body (.if_ cond [.return_ x] [] :: rest) none) σ r σ' ↔
      (∃ y, r = .exit y ∧ Exec S (.expr cond) σ (.exit y) σ') ∨
      ∃ b σ₁, Exec S (.expr cond) σ (.value (.scalar (.bool b))) σ₁ ∧
        Exec S (.body (if b then [.return_ x] else rest) none) σ₁ r σ' := by
  constructor
  · intro h
    cases h with
    | early hfirst h =>
      cases hfirst
      cases h with
      | early hfirst h => cases hfirst; exact .inl ⟨_, rfl, h⟩
      | @if_ _ _ _ b _ _ σ₁ _ hrun h =>
        cases b with
        | true => exact .inr ⟨true, σ₁, hrun, h⟩
        | false => cases (exec_nil_iff.1 h).1
    | bind hinit _ _ _ _ => cases hinit
    | next hif h =>
      cases hif with
      | simple hops _ _ => cases hops
      | @if_ _ _ _ b _ _ σ₁ _ hrun hbranch =>
        cases b with
        | true =>
          obtain ⟨r', hret, hdone⟩ := exec_onlyReturn_iff.1 hbranch
          obtain ⟨y, hy⟩ := asReturn_exit hret
          cases hdone.trans hy
        | false =>
          obtain ⟨-, rfl⟩ := exec_nil_iff.1 hbranch
          exact .inr ⟨false, _, hrun, h⟩
  · rintro (⟨y, rfl, h⟩ | ⟨b, σ₁, hrun, h⟩)
    · exact .early rfl (.early rfl h)
    · cases b with
      | true =>
        obtain ⟨r', hret, rfl⟩ := exec_onlyReturn_iff.1 h
        obtain ⟨y, hy⟩ := asReturn_exit hret
        rw [hy] at h ⊢
        exact .early rfl (.if_ hrun h)
      | false => exact .next (.if_ hrun .nil) h

/-- The block for the statements between a guard and the return. -/
theorem exec_between_iff {between : List Stmt} {y : Expr} {r : Ending} {σ σ' : Memory W} :
    Exec S (.body [] (some (if between.isEmpty then y else .block between y))) σ r σ' ↔
      Exec S (.body between (some y)) σ r σ' := by
  cases between with
  | nil => rfl
  | cons s between =>
    rw [List.isEmpty_cons, if_neg Bool.false_ne_true, exec_tail_iff]
    constructor
    · rintro ⟨r', h, rfl⟩
      have h := exec_block_iff.1 h
      rwa [settle_of_body h]
    · exact fun h => ⟨r, exec_block_iff.2 h, (settle_of_body h).symm⟩

/-- A guard and the return after it have the runs of the match. -/
theorem same_guard (cond x : Expr) (between : List Stmt) (y : Expr) :
    Same S (.body (.if_ cond [.return_ x] [] :: (between ++ [.return_ y])) none)
      (.body [.return_ (.match_ cond [(.bool true, x),
        (.bool false, if between.isEmpty then y else .block between y)])] none) := by
  intro σ r σ'
  rw [exec_guard_iff, exec_onlyReturn_iff]
  constructor
  · rintro (⟨z, rfl, h⟩ | ⟨b, σ₁, hrun, h⟩)
    · exact ⟨_, .tail (exec_matchBool_iff.2 (.inl ⟨z, rfl, h⟩)), rfl⟩
    · have harm : ∃ r', Exec S (.body [] (some (if b then x else
          if between.isEmpty then y else .block between y))) σ₁ r' σ' ∧ r = r'.asReturn := by
        cases b with
        | true => exact exec_onlyReturn_iff.1 h
        | false =>
          obtain ⟨r', h, hr⟩ := exec_returning_iff.1 h
          exact ⟨r', exec_between_iff.2 h, hr⟩
      obtain ⟨r', harm, rfl⟩ := harm
      refine ⟨r', ?_, rfl⟩
      rw [← settle_of_body harm]
      exact .tail (exec_matchBool_iff.2 (.inr ⟨b, σ₁, hrun, harm⟩))
  · rintro ⟨r', h, rfl⟩
    obtain ⟨r'', hmatch, rfl⟩ := exec_tail_iff.1 h
    rcases exec_matchBool_iff.1 hmatch with ⟨z, rfl, hexit⟩ | ⟨b, σ₁, hrun, h⟩
    · exact .inl ⟨z, rfl, hexit⟩
    · refine .inr ⟨b, σ₁, hrun, ?_⟩
      rw [settle_of_body h]
      cases b with
      | true => exact exec_onlyReturn_iff.2 ⟨r'', h, rfl⟩
      | false => exact exec_returning_iff.2 ⟨r'', exec_between_iff.1 h, rfl⟩

/-! ## The rewriting -/

attribute [local simp] splitGuard foldGuard countStmts countStmt inBodies rewriteGuardIfs

theorem splitGuard_eq {ss front between : List Stmt} {cond x : Expr}
    (h : splitGuard ss = some (front, cond, x, between)) :
    ss = front ++ .if_ cond [.return_ x] [] :: between := by
  induction ss generalizing front with
  | nil => cases h
  | cons s ss ih =>
    unfold splitGuard at h
    split at h
    · next heq => cases heq
    · next heq => cases heq; cases h; rfl
    · next heq =>
      cases heq
      obtain ⟨⟨front', cond', x', between'⟩, hsplit, heq⟩ := Option.map_eq_some_iff.1 h
      cases heq
      rw [ih hsplit, List.cons_append]

/-- The parts of a body whose first guard is folded. -/
theorem foldGuard_eq {body shorter : List Stmt} (h : foldGuard body = some shorter) :
    ∃ front cond x between y,
      body = front ++ .if_ cond [.return_ x] [] :: (between ++ [.return_ y]) ∧
      shorter = front ++ [.return_ (.match_ cond [(.bool true, x),
        (.bool false, if between.isEmpty then y else .block between y)])] := by
  unfold foldGuard at h
  split at h
  case h_2 => cases h
  next y hlast =>
    obtain ⟨⟨front, cond, x, between⟩, hsplit, rfl⟩ := Option.map_eq_some_iff.1 h
    refine ⟨front, cond, x, between, y, ?_, rfl⟩
    rw [← List.dropLast_append_getLast? _ hlast, splitGuard_eq hsplit]
    simp

/-! ## The bound on the calls -/

theorem countStmts_append (a b : List Stmt) :
    countStmts (a ++ b) = countStmts a + countStmts b := by
  induction a with
  | nil => simp [countStmts]
  | cons s a ih => rw [List.cons_append, countStmts, countStmts, ih, Nat.add_assoc]

/-- Folding a guard makes a body smaller. -/
theorem countStmts_foldGuard {body shorter : List Stmt} (h : foldGuard body = some shorter) :
    countStmts shorter < countStmts body := by
  obtain ⟨front, cond, x, between, y, rfl, rfl⟩ := foldGuard_eq h
  simp only [countStmts_append, countStmts, countStmt]
  omega

/-- Bodies that do not grow make a statement that does not grow. -/
theorem countStmt_inBodies {rewrite : List Stmt → List Stmt} {s : Stmt}
    (h : ∀ b, countStmts (rewrite b) ≤ countStmts b) :
    countStmt (inBodies rewrite s) ≤ countStmt s := by
  cases s with
  | if_ c t f => simp only [inBodies, countStmt]; have := h t; have := h f; omega
  | while_ c invs b => simpa only [inBodies, countStmt, Nat.add_le_add_iff_right] using h b
  | for_ x a e invs b par reds =>
    simpa only [inBodies, countStmt, Nat.add_le_add_iff_right] using h b
  | forIter x xs consumes b =>
    simpa only [inBodies, countStmt, Nat.add_le_add_iff_right] using h b
  | taskSpawn n b => simpa only [inBodies, countStmt, Nat.add_le_add_iff_right] using h b
  | _ => exact le_rfl

theorem countStmts_map_inBodies {rewrite : List Stmt → List Stmt} (body : List Stmt)
    (h : ∀ b, countStmts (rewrite b) ≤ countStmts b) :
    countStmts (body.map (inBodies rewrite)) ≤ countStmts body := by
  induction body with
  | nil => exact le_rfl
  | cons s body ih =>
    rw [List.map_cons, countStmts, countStmts]
    exact Nat.add_le_add (countStmt_inBodies h) ih

theorem countStmts_rewriteGuardIfs (fuel : Nat) (body : List Stmt) :
    countStmts (rewriteGuardIfs fuel body) ≤ countStmts body := by
  induction fuel generalizing body with
  | zero => exact le_rfl
  | succ fuel ih =>
    have hinner := countStmts_map_inBodies body ih
    rw [rewriteGuardIfs]
    cases hfold : foldGuard (body.map (inBodies (rewriteGuardIfs fuel))) with
    | none => exact hinner
    | some shorter => exact (ih shorter).trans ((countStmts_foldGuard hfold).le.trans hinner)

/-- Bodies that are rewritten alike make statements that are rewritten alike. -/
theorem inBodies_congr {f g : List Stmt → List Stmt} {s : Stmt}
    (h : ∀ b, countStmts b < countStmt s → f b = g b) : inBodies f s = inBodies g s := by
  cases s with
  | if_ c t e =>
    rw [inBodies, inBodies, h t (by simp only [countStmt]; omega),
      h e (by simp only [countStmt]; omega)]
  | while_ c invs b => rw [inBodies, inBodies, h b (Nat.lt_succ_self _)]
  | for_ x a e invs b par reds => rw [inBodies, inBodies, h b (Nat.lt_succ_self _)]
  | forIter x xs consumes b => rw [inBodies, inBodies, h b (Nat.lt_succ_self _)]
  | taskSpawn n b => rw [inBodies, inBodies, h b (Nat.lt_succ_self _)]
  | _ => rfl

theorem countStmt_le_of_mem {s : Stmt} {body : List Stmt} (h : s ∈ body) :
    countStmt s ≤ countStmts body := by
  induction body with
  | nil => cases h
  | cons s' body ih =>
    rw [countStmts]
    rcases List.mem_cons.1 h with rfl | h
    · exact Nat.le_add_right _ _
    · exact (ih h).trans (Nat.le_add_left _ _)

/-- More calls than the body has statements are never needed. -/
theorem rewriteGuardIfs_enough (fuel : Nat) (body : List Stmt) (h : countStmts body < fuel) :
    rewriteGuardIfs (fuel + 1) body = rewriteGuardIfs fuel body := by
  induction fuel generalizing body with
  | zero => exact absurd h (Nat.not_lt_zero _)
  | succ fuel ih =>
    have hinner : body.map (inBodies (rewriteGuardIfs (fuel + 1))) =
        body.map (inBodies (rewriteGuardIfs fuel)) := by
      refine List.map_congr_left fun s hs => inBodies_congr fun b hb => ih b ?_
      have := countStmt_le_of_mem hs
      omega
    rw [rewriteGuardIfs, hinner, rewriteGuardIfs]
    cases hfold : foldGuard (body.map (inBodies (rewriteGuardIfs fuel))) with
    | none => rfl
    | some shorter =>
      refine ih shorter ?_
      have := countStmts_foldGuard hfold
      have := countStmts_map_inBodies body (countStmts_rewriteGuardIfs fuel)
      omega

/-! ## What the rewriting keeps -/

/-- Rewriting guards keeps the runs of a body. -/
theorem same_rewriteGuardIfs (fuel : Nat) (body : List Stmt) :
    Same S (.body body none) (.body (rewriteGuardIfs fuel body) none) := by
  induction fuel generalizing body with
  | zero => exact .refl _
  | succ fuel ih =>
    have hinner : Same S (.body body none)
        (.body (body.map (inBodies (rewriteGuardIfs fuel))) none) := by
      refine .stmts none (List.forall₂_map_right_iff.2 (List.forall₂_same.2 fun s _ => ?_))
      exact .inBodies ih s
    rw [rewriteGuardIfs]
    cases hfold : foldGuard (body.map (inBodies (rewriteGuardIfs fuel))) with
    | none => exact hinner
    | some shorter =>
      obtain ⟨front, cond, x, between, y, hbody, rfl⟩ := foldGuard_eq hfold
      rw [hbody] at hinner
      exact (hinner.trans (.append front (same_guard cond x between y))).trans (ih _)

/-! ## Free occurrences -/

attribute [local simp] freeBody freeStmt freeExpr freeArms

theorem freeBody_append (front ss : List Stmt) (tail : List String) :
    freeBody T (front ++ ss) tail = freeBody T front (freeBody T ss tail) := by
  induction front with
  | nil => rfl
  | cons s front ih => rw [List.cons_append, freeBody, freeBody, ih]

/-- A return at the end stands for the block's value. -/
theorem freeBody_returning (ss : List Stmt) (e : Expr) :
    freeBody T (ss ++ [.return_ e]) [] = freeBody T ss (freeExpr T e) := by
  rw [freeBody_append]
  simp [freeBody, freeStmt, declared, unbound]

theorem freeBody_rebodied {ss ss' : List Stmt} (tail : List String)
    (h : List.Forall₂ (Rebodied fun b b' => freeBody T b' [] = freeBody T b []) ss ss') :
    freeBody T ss' tail = freeBody T ss tail := by
  induction h with
  | nil => rfl
  | cons hs _ ih => rw [freeBody, freeBody, hs.free_eq, hs.declared_eq, ih]

theorem freeBody_guard (cond x : Expr) (between : List Stmt) (y : Expr) :
    freeBody T [.return_ (.match_ cond [(.bool true, x),
        (.bool false, if between.isEmpty then y else .block between y)])] [] =
      freeBody T (.if_ cond [.return_ x] [] :: (between ++ [.return_ y])) [] := by
  have hblock : freeExpr T (if between.isEmpty then y else .block between y) =
      freeBody T between (freeExpr T y) := by
    cases between <;> rfl
  simp only [freeBody, freeBody_returning, freeStmt, freeExpr, freeArms, patternNames, declared,
    unbound_nil, List.append_nil, List.append_assoc, hblock]

/-- Rewriting guards keeps the free occurrences of a body. -/
theorem freeBody_rewriteGuardIfs (fuel : Nat) (body : List Stmt) :
    freeBody T (rewriteGuardIfs fuel body) [] = freeBody T body [] := by
  induction fuel generalizing body with
  | zero => rfl
  | succ fuel ih =>
    have hinner : freeBody T (body.map (inBodies (rewriteGuardIfs fuel))) [] =
        freeBody T body [] := by
      refine freeBody_rebodied [] (List.forall₂_map_right_iff.2 (List.forall₂_same.2 fun s _ => ?_))
      exact .inBodies ih s
    rw [rewriteGuardIfs]
    cases hfold : foldGuard (body.map (inBodies (rewriteGuardIfs fuel))) with
    | none => exact hinner
    | some shorter =>
      obtain ⟨front, cond, x, between, y, hbody, rfl⟩ := foldGuard_eq hfold
      rw [hbody, freeBody_append, ← freeBody_guard, ← freeBody_append] at hinner
      exact (ih _).trans hinner

theorem same_rewriteGuards (body : List Stmt) :
    Same S (.body body none) (.body (rewriteGuards body) none) := by
  rw [rewriteGuards]
  split
  · exact same_rewriteGuardIfs _ _
  · exact .refl _

theorem freeBody_rewriteGuards (body : List Stmt) :
    freeBody T (rewriteGuards body) [] = freeBody T body [] := by
  rw [rewriteGuards]
  split
  · exact freeBody_rewriteGuardIfs _ _
  · rfl

end Vani.Analysis
