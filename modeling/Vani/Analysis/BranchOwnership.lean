import Vani.Model.BranchPaths
import Mathlib.Data.List.Nodup

/-!
# What the branches drop

The drops of a branch stand before it: on the way through the branch the variables of the
other branches are gone. So the rewrite balances the moved variables on every path exactly
if no branch mentions, in a condition, a scrutinee or a statement of a block, a variable
that only other branches yield, and no pattern binds the name of such a variable. A block
may declare variables of its own and yield one of them; the tails of the blocks are
therefore looked at as expressions of their own.
-/

set_option autoImplicit false

namespace Vani.Analysis

open Vani.Program Vani.Model

/-! ## Trees of branches -/

/-- What the checker puts before the tail of a block expression. The only drops are those of
the block's own variables at its end. Source: checker.rs:12215-12459 -/
def blockStmts (declared : List String) : List TypedStmt → Bool
  | [] => true
  | .let_ x _ _ :: ss => blockStmts (x :: declared) ss
  | .drop x _ _ :: ss => decide (x ∈ declared) && blockStmts declared ss
  | .discard _ :: ss | .print _ :: ss | .reassign .. :: ss | .while_ .. :: ss =>
    blockStmts declared ss
  | _ => false

/-- The names of the leaves. -/
def leafNames (r : NonCopy) (e : TypedExpr) : List String := (varLeaves r e).map Prod.fst

/-- Branches within branches, down to variables that are not `Copy`. A pattern binds a
`Copy` view, so it binds no leaf. -/
inductive BranchTree (r : NonCopy) : TypedExpr → Prop
  | var {x : String} {ty : Ty} (hty : ty.isCopy r = false) : BranchTree r ⟨.var x, ty⟩
  | ifExpr {c t e : TypedExpr} {ty : Ty} (ht : BranchTree r t) (he : BranchTree r e) :
      BranchTree r ⟨.ifExpr c t e, ty⟩
  | match_ {s : TypedExpr} {arms : List TypedMatchArm} {ty : Ty} (hne : arms ≠ [])
      (harms : ∀ arm ∈ arms, BranchTree r arm.body)
      (hbound : ∀ arm ∈ arms, ∀ x ∈ boundBy arm, x ∉ leafNames r arm.body) :
      BranchTree r ⟨.match_ s arms, ty⟩
  | block {stmts : List TypedStmt} {tail : TypedExpr} {ty : Ty}
      (hstmts : blockStmts [] stmts = true) (htail : BranchTree r tail) :
      BranchTree r ⟨.block stmts tail, ty⟩

/-- None of the variables to be dropped is among the names. -/
def spares (drops : List VarLeaf) (names : List String) : Bool := drops.all (·.1 ∉ names)

mutual

/-- No branch binds or mentions a variable it has to drop. -/
def dropsUnread (r : NonCopy) : TypedExpr → Bool
  | ⟨.ifExpr _ t e, _⟩ =>
    spares (branchDrops (varLeaves r t) (varLeaves r e)) (exprReads t) &&
      spares (branchDrops (varLeaves r e) (varLeaves r t)) (exprReads e) &&
      (dropsUnread r t && dropsUnread r e)
  | ⟨.match_ _ arms, _⟩ => armDropsUnread r (arms.map fun arm => varLeaves r arm.body) 0 arms
  | ⟨.block _ tail, _⟩ => dropsUnread r tail
  | _ => true

def armDropsUnread (r : NonCopy) (armVars : List (List VarLeaf)) (i : Nat) :
    List TypedMatchArm → Bool
  | [] => true
  | ⟨_, _, _, binding, body⟩ :: arms =>
    spares (armDrops armVars i) ((binding.map Prod.fst).toList ++ exprReads body) &&
      dropsUnread r body && armDropsUnread r armVars (i + 1) arms

end

mutual

/-- The tails of the blocks inside, each with the variables of its block in scope. -/
def innerScopes : TypedExpr → List TypedExpr
  | ⟨.ifExpr _ t e, _⟩ => innerScopes t ++ innerScopes e
  | ⟨.match_ _ arms, _⟩ => armScopes arms
  | ⟨.block _ tail, _⟩ => tail :: innerScopes tail
  | _ => []

def armScopes : List TypedMatchArm → List TypedExpr
  | [] => []
  | ⟨_, _, _, _, body⟩ :: arms => innerScopes body ++ armScopes arms

end

/-- The expression and the tails of the blocks inside it. The rewrite of the expression
rewrites each of them. -/
def scopes (e : TypedExpr) : List TypedExpr := e :: innerScopes e

/-! ## Leaves -/

/-- The names of leaves. -/
def names (leaves : List VarLeaf) : List String := leaves.map Prod.fst

attribute [local simp] exprReads stmtsReads injectBranchDrops dropsUnread

theorem any_name {leaves : List VarLeaf} {x : String} :
    leaves.any (·.1 = x) = true ↔ x ∈ names leaves := by
  simp only [List.any_eq_true, decide_eq_true_eq, names, List.mem_map]

theorem mem_pushLeaf {out : List VarLeaf} {leaf : VarLeaf} {x : String} :
    x ∈ names (pushLeaf out leaf) ↔ x ∈ names out ∨ x = leaf.1 := by
  unfold pushLeaf
  by_cases h : out.any (·.1 = leaf.1) = true
  · rw [if_pos h]
    exact ⟨.inl, fun hx => hx.elim id fun hx => hx ▸ any_name.mp h⟩
  · rw [if_neg h, names, List.map_append, List.mem_append, List.map_singleton,
      List.mem_singleton]
    exact Iff.rfl

theorem nodup_pushLeaf {out : List VarLeaf} (leaf : VarLeaf) (h : (names out).Nodup) :
    (names (pushLeaf out leaf)).Nodup := by
  unfold pushLeaf
  by_cases hany : out.any (·.1 = leaf.1) = true
  · rw [if_pos hany]
    exact h
  · rw [if_neg hany, names, List.map_append, List.map_singleton, List.nodup_append]
    refine ⟨h, List.nodup_singleton _, fun a ha b hb hab => hany (any_name.mpr ?_)⟩
    rw [← List.mem_singleton.mp hb, ← hab]
    exact ha

theorem mem_foldl_pushLeaf {x : String} (leaves : List VarLeaf) : ∀ out : List VarLeaf,
    x ∈ names (leaves.foldl pushLeaf out) ↔ x ∈ names out ∨ x ∈ names leaves := by
  induction leaves with
  | nil =>
    intro out
    exact ⟨.inl, fun h => h.resolve_right List.not_mem_nil⟩
  | cons leaf leaves ih =>
    intro out
    rw [List.foldl_cons, ih, mem_pushLeaf, or_assoc]
    exact or_congr_right List.mem_cons.symm

theorem nodup_foldl_pushLeaf (leaves : List VarLeaf) : ∀ out : List VarLeaf,
    (names out).Nodup → (names (leaves.foldl pushLeaf out)).Nodup := by
  induction leaves with
  | nil => exact fun out h => h
  | cons leaf leaves ih => exact fun out h => ih _ (nodup_pushLeaf leaf h)

/-- The leaves of an expression go to those already found. -/
def Collects (r : NonCopy) (e : TypedExpr) : Prop :=
  (∀ out, (names out).Nodup → (names (collectBranchVarLeaves r e out)).Nodup) ∧
    ∀ out x, x ∈ names (collectBranchVarLeaves r e out) ↔ x ∈ names out ∨ x ∈ leafNames r e

variable {r : NonCopy}

attribute [local simp] collectBranchVarLeaves collectArmLeaves

theorem collects_arms {arms : List TypedMatchArm} (h : ∀ arm ∈ arms, Collects r arm.body) :
    (∀ out, (names out).Nodup → (names (collectArmLeaves r arms out)).Nodup) ∧
      ∀ out x, x ∈ names (collectArmLeaves r arms out) ↔
        x ∈ names out ∨ ∃ arm ∈ arms, x ∈ leafNames r arm.body := by
  induction arms with
  | nil =>
    refine ⟨fun out hout => hout, fun out x => ⟨.inl, fun hx => hx.resolve_right ?_⟩⟩
    rintro ⟨arm, harm, -⟩
    exact List.not_mem_nil harm
  | cons arm arms ih =>
    obtain ⟨tag, isWildcard, intValue, binding, body⟩ := arm
    obtain ⟨hnodup, hmem⟩ := List.forall_mem_cons.mp h |>.1
    obtain ⟨ihnodup, ihmem⟩ := ih (List.forall_mem_cons.mp h).2
    constructor
    · intro out hout
      exact ihnodup _ (hnodup out hout)
    · intro out x
      rw [collectArmLeaves, ihmem]
      refine (or_congr_left (hmem out x)).trans (or_assoc.trans (or_congr_right ?_))
      rw [List.exists_mem_cons_iff]

theorem mem_leafNames_if {c t e : TypedExpr} {ty : Ty} (he : Collects r e) (x : String) :
    x ∈ leafNames r ⟨.ifExpr c t e, ty⟩ ↔ x ∈ leafNames r t ∨ x ∈ leafNames r e := by
  unfold leafNames varLeaves
  rw [collectBranchVarLeaves]
  exact he.2 _ x

theorem mem_leafNames_match {s : TypedExpr} {arms : List TypedMatchArm} {ty : Ty}
    (h : ∀ arm ∈ arms, Collects r arm.body) (x : String) :
    x ∈ leafNames r ⟨.match_ s arms, ty⟩ ↔ ∃ arm ∈ arms, x ∈ leafNames r arm.body := by
  unfold leafNames varLeaves
  rw [collectBranchVarLeaves]
  exact ((collects_arms h).2 [] x).trans ⟨fun hx => hx.resolve_left List.not_mem_nil, .inr⟩

theorem mem_leafNames_block {stmts : List TypedStmt} {tail : TypedExpr} {ty : Ty} (x : String) :
    x ∈ leafNames r ⟨.block stmts tail, ty⟩ ↔
      x ∈ leafNames r tail ∧ x ∉ declaredIn stmts := by
  unfold leafNames varLeaves
  rw [collectBranchVarLeaves]
  refine (mem_foldl_pushLeaf _ []).trans ?_
  simp only [names, List.map_nil, List.not_mem_nil, false_or, List.mem_map, List.mem_filter,
    decide_eq_true_eq]
  constructor
  · rintro ⟨leaf, ⟨hleaf, hx⟩, rfl⟩
    exact ⟨⟨leaf, hleaf, rfl⟩, hx⟩
  · rintro ⟨⟨leaf, hleaf, rfl⟩, hx⟩
    exact ⟨leaf, ⟨hleaf, hx⟩, rfl⟩

theorem mem_leafNames_var {x y : String} {ty : Ty} (hty : ty.isCopy r = false) :
    y ∈ leafNames r ⟨.var x, ty⟩ ↔ y = x := by
  unfold leafNames varLeaves
  rw [collectBranchVarLeaves, hty]
  exact List.mem_singleton

theorem BranchTree.collects {e : TypedExpr} (h : BranchTree r e) : Collects r e := by
  induction h with
  | var hty =>
    constructor
    · intro out hout
      rw [collectBranchVarLeaves, hty]
      exact nodup_pushLeaf _ hout
    · intro out x
      rw [mem_leafNames_var hty, collectBranchVarLeaves, hty]
      exact mem_pushLeaf
  | ifExpr ht he iht ihe =>
    constructor
    · intro out hout
      rw [collectBranchVarLeaves]
      exact ihe.1 _ (iht.1 out hout)
    · intro out x
      rw [mem_leafNames_if ihe, collectBranchVarLeaves, ihe.2, iht.2, or_assoc]
  | match_ hne harms hbound ih =>
    constructor
    · intro out hout
      rw [collectBranchVarLeaves]
      exact (collects_arms ih).1 out hout
    · intro out x
      rw [mem_leafNames_match ih, collectBranchVarLeaves]
      exact (collects_arms ih).2 out x
  | @block stmts tail _ hstmts htail ih =>
    constructor
    · intro out hout
      rw [collectBranchVarLeaves]
      exact nodup_foldl_pushLeaf _ out hout
    · intro out x
      have hnil := mem_foldl_pushLeaf (x := x)
        ((varLeaves r tail).filter (·.1 ∉ declaredIn stmts)) []
      rw [collectBranchVarLeaves, mem_foldl_pushLeaf]
      refine or_congr_right ?_
      unfold leafNames varLeaves
      rw [collectBranchVarLeaves]
      exact (hnil.trans ⟨fun h => h.resolve_left List.not_mem_nil, .inr⟩).symm

theorem BranchTree.mem_if {c t e : TypedExpr} {ty : Ty} (he : BranchTree r e) (x : String) :
    x ∈ leafNames r ⟨.ifExpr c t e, ty⟩ ↔ x ∈ leafNames r t ∨ x ∈ leafNames r e :=
  mem_leafNames_if he.collects x

theorem BranchTree.mem_match {s : TypedExpr} {arms : List TypedMatchArm} {ty : Ty}
    (h : ∀ arm ∈ arms, BranchTree r arm.body) (x : String) :
    x ∈ leafNames r ⟨.match_ s arms, ty⟩ ↔ ∃ arm ∈ arms, x ∈ leafNames r arm.body :=
  mem_leafNames_match (fun arm harm => (h arm harm).collects) x

theorem BranchTree.nodup {e : TypedExpr} (h : BranchTree r e) : (leafNames r e).Nodup :=
  h.collects.1 [] List.nodup_nil

/-! ## The drops of a branch -/

/-- What a branch with the leaves `own` has to drop where the leaves of all branches are
`leaves`. -/
structure OthersLeaves (own leaves : List String) (drops : List VarLeaf) : Prop where
  nodup : (names drops).Nodup
  mem : ∀ x, x ∈ names drops ↔ x ∈ leaves ∧ x ∉ own

theorem mem_branchDrops {own other : List VarLeaf} {x : String} :
    x ∈ names (branchDrops own other) ↔ x ∈ names other ∧ x ∉ names own := by
  simp only [branchDrops, names, List.mem_map, List.mem_filter, Bool.not_eq_true',
    ← Bool.not_eq_true, any_name]
  constructor
  · rintro ⟨leaf, ⟨hleaf, hx⟩, rfl⟩
    exact ⟨⟨leaf, hleaf, rfl⟩, hx⟩
  · rintro ⟨⟨leaf, hleaf, rfl⟩, hx⟩
    exact ⟨leaf, ⟨hleaf, hx⟩, rfl⟩

theorem othersLeaves_if {t e : TypedExpr} (c : TypedExpr) (ty : Ty) (ht : BranchTree r t)
    (he : BranchTree r e) :
    OthersLeaves (leafNames r t) (leafNames r ⟨.ifExpr c t e, ty⟩)
        (branchDrops (varLeaves r t) (varLeaves r e)) ∧
      OthersLeaves (leafNames r e) (leafNames r ⟨.ifExpr c t e, ty⟩)
        (branchDrops (varLeaves r e) (varLeaves r t)) := by
  have hsub : ∀ own other : List VarLeaf, (names other).Nodup →
      (names (branchDrops own other)).Nodup := fun own other h =>
    h.sublist (List.filter_sublist.map _)
  refine ⟨⟨hsub _ _ he.nodup, fun x => ?_⟩, ⟨hsub _ _ ht.nodup, fun x => ?_⟩⟩
  · rw [mem_branchDrops, he.mem_if]
    exact ⟨fun h => ⟨.inr h.1, h.2⟩, fun h => ⟨h.1.resolve_left h.2, h.2⟩⟩
  · rw [mem_branchDrops, he.mem_if]
    exact ⟨fun h => ⟨.inl h.1, h.2⟩, fun h => ⟨h.1.resolve_right h.2, h.2⟩⟩

/-- One list of leaves after another, without those of the arm itself. -/
theorem foldl_armDrops (own : List VarLeaf) (i : Nat) (l : List (List VarLeaf × Nat)) :
    ∀ drops : List VarLeaf, (names drops).Nodup →
      let result := l.foldl (fun drops (otherVars, j) =>
        if i = j then drops else (branchDrops own otherVars).foldl pushLeaf drops) drops
      (names result).Nodup ∧ ∀ x, x ∈ names result ↔
        x ∈ names drops ∨ ((∃ p ∈ l, p.2 ≠ i ∧ x ∈ names p.1) ∧ x ∉ names own) := by
  induction l with
  | nil =>
    refine fun drops h => ⟨h, fun x => ⟨.inl, fun hx => hx.resolve_right ?_⟩⟩
    rintro ⟨⟨p, hp, -⟩, -⟩
    exact List.not_mem_nil hp
  | cons p l ih =>
    intro drops h
    rw [List.foldl_cons]
    by_cases hi : i = p.2
    · obtain ⟨hnodup, hmem⟩ := ih drops h
      simp only [if_pos hi]
      refine ⟨hnodup, fun x => (hmem x).trans (or_congr_right (and_congr_left' ?_))⟩
      rw [List.exists_mem_cons_iff]
      exact ⟨.inr, fun h => h.resolve_left fun h => h.1 hi.symm⟩
    · obtain ⟨hnodup, hmem⟩ := ih _ (nodup_foldl_pushLeaf (branchDrops own p.1) drops h)
      simp only [if_neg hi]
      refine ⟨hnodup, fun x => (hmem x).trans ?_⟩
      rw [mem_foldl_pushLeaf, mem_branchDrops, List.exists_mem_cons_iff]
      constructor
      · rintro ((hx | ⟨hx, hown⟩) | ⟨hx, hown⟩)
        · exact .inl hx
        · exact .inr ⟨.inl ⟨Ne.symm hi, hx⟩, hown⟩
        · exact .inr ⟨.inr hx, hown⟩
      · rintro (hx | ⟨⟨-, hx⟩ | hx, hown⟩)
        · exact .inl (.inl hx)
        · exact .inl (.inr ⟨hx, hown⟩)
        · exact .inr ⟨hx, hown⟩

theorem othersLeaves_arm (s : TypedExpr) {arms : List TypedMatchArm} (ty : Ty)
    (h : ∀ arm ∈ arms, BranchTree r arm.body) {i : Nat} {arm : TypedMatchArm}
    (hi : arms[i]? = some arm) :
    OthersLeaves (leafNames r arm.body) (leafNames r ⟨.match_ s arms, ty⟩)
      (armDrops (arms.map fun arm => varLeaves r arm.body) i) := by
  have hown : (arms.map fun arm => varLeaves r arm.body).getD i [] = varLeaves r arm.body := by
    rw [List.getD_eq_getElem?_getD, List.getElem?_map, hi]
    rfl
  obtain ⟨hnodup, hmem⟩ := foldl_armDrops (varLeaves r arm.body) i
    (arms.map fun arm => varLeaves r arm.body).zipIdx [] List.nodup_nil
  unfold armDrops
  rw [hown]
  refine ⟨hnodup, fun x => (hmem x).trans ?_⟩
  rw [BranchTree.mem_match h]
  constructor
  · rintro (hx | ⟨⟨p, hp, -, hx⟩, hnot⟩)
    · exact absurd hx List.not_mem_nil
    · obtain ⟨other, hother, heq⟩ := List.mem_map.mp (List.fst_mem_of_mem_zipIdx hp)
      refine ⟨⟨other, hother, ?_⟩, hnot⟩
      rw [leafNames, heq]
      exact hx
  · rintro ⟨⟨other, hother, hx⟩, hnot⟩
    obtain ⟨j, hj⟩ := List.mem_iff_getElem?.mp hother
    refine .inr ⟨⟨(varLeaves r other.body, j), ?_, ?_, hx⟩, hnot⟩
    · rw [List.mem_zipIdx_iff_getElem?, List.getElem?_map, hj]
      rfl
    · rintro rfl
      rw [hj] at hi
      exact hnot (Option.some.inj hi ▸ hx)

/-! ## Paths through the rewritten expression -/

/-- The drops of a branch as events. -/
def dropEvents (drops : List VarLeaf) : List LeafEvent := drops.map fun d => .drop d.1

@[simp] theorem outside_nil (es : List LeafEvent) : outside [] es = es :=
  List.filter_eq_self.mpr fun _ _ => decide_eq_true List.not_mem_nil

@[simp] theorem filter_not_mem_nil (y : Option String) :
    (y.filter fun x => decide (x ∉ ([] : List String))) = y := by
  cases y <;> rfl

theorem stmtsPath_drops (drops : List VarLeaf) {es : List LeafEvent} :
    StmtsPath (drops.map fun d => .drop d.1 d.2 []) es ↔ es = dropEvents drops := by
  induction drops generalizing es with
  | nil =>
    constructor
    · intro h
      cases h
      rfl
    · rintro rfl
      exact .nil
  | cons d drops ih =>
    constructor
    · intro h
      cases h with
      | drop h => exact congrArg _ (ih.mp h)
      | step hs _ _ => exact absurd rfl (hs _ _ _)
    · rintro rfl
      exact .drop (ih.mpr rfl)

theorem declaredIn_drops (drops : List VarLeaf) :
    declaredIn (drops.map fun d => .drop d.1 d.2 []) = [] := by
  induction drops with
  | nil => rfl
  | cons d drops ih => exact ih

/-- A wrapped branch runs its drops and goes on as before. -/
theorem branchPath_wrap {e : TypedExpr} {drops : List VarLeaf} {es : List LeafEvent}
    {y : Option String} :
    BranchPath (wrapBranchWithDrops e drops) es y ↔
      ∃ es', es = dropEvents drops ++ es' ∧ BranchPath e es' y := by
  unfold wrapBranchWithDrops
  cases drops with
  | nil => exact ⟨fun h => ⟨es, rfl, h⟩, fun ⟨_, h, hpath⟩ => h ▸ hpath⟩
  | cons d drops =>
    rw [if_neg (by rw [List.isEmpty_cons]; decide)]
    constructor
    · intro h
      cases h with
      | block hs h =>
        rw [declaredIn_drops, outside_nil, filter_not_mem_nil]
        exact ⟨_, congrArg (· ++ _) ((stmtsPath_drops _).mp hs), h⟩
    · rintro ⟨es', rfl, h⟩
      have hpath : BranchPath ⟨.block ((d :: drops).map fun d => .drop d.1 d.2 []) e, e.ty⟩ _ _ :=
        .block ((stmtsPath_drops (d :: drops)).mpr rfl) h
      rwa [declaredIn_drops, outside_nil, filter_not_mem_nil] at hpath

/-- The arms after the rewrite are those before it, each with its drops. -/
theorem injectArmDrops_mem {armVars : List (List VarLeaf)} {arm' : TypedMatchArm} :
    ∀ {arms : List TypedMatchArm} {i : Nat}, arm' ∈ injectArmDrops r armVars i arms →
      ∃ k arm, arms[k]? = some arm ∧ boundBy arm' = boundBy arm ∧
        arm'.body = wrapBranchWithDrops (injectBranchDrops r arm.body) (armDrops armVars (i + k))
  | [], _, h => (List.not_mem_nil h).elim
  | ⟨_, _, _, binding, body⟩ :: arms, i, h => by
    rw [injectArmDrops] at h
    rcases List.mem_cons.mp h with rfl | h
    · exact ⟨0, _, rfl, rfl, rfl⟩
    · obtain ⟨k, arm, hk, hb, hbody⟩ := injectArmDrops_mem h
      refine ⟨k + 1, arm, hk, hb, ?_⟩
      rw [hbody, Nat.add_assoc, Nat.add_comm 1]

theorem mem_injectArmDrops {armVars : List (List VarLeaf)} {arm : TypedMatchArm} :
    ∀ {arms : List TypedMatchArm} (i : Nat) {k : Nat}, arms[k]? = some arm →
      ∃ arm' ∈ injectArmDrops r armVars i arms, boundBy arm' = boundBy arm ∧
        arm'.body = wrapBranchWithDrops (injectBranchDrops r arm.body) (armDrops armVars (i + k))
  | ⟨_, _, _, binding, body⟩ :: arms, i, 0, h => by
    cases h
    exact ⟨_, List.mem_cons_self, rfl, rfl⟩
  | ⟨_, _, _, binding, body⟩ :: arms, i, k + 1, h => by
    have hk : arms[k]? = some arm := h
    obtain ⟨arm', hmem, hb, hbody⟩ := mem_injectArmDrops (i + 1) hk
    refine ⟨arm', List.mem_cons_of_mem _ hmem, hb, ?_⟩
    rw [hbody, Nat.add_assoc, Nat.add_comm 1]

/-- A path through a rewritten if-expression. -/
theorem path_if {c t e : TypedExpr} {ty : Ty} {es : List LeafEvent} {y : Option String}
    (h : BranchPath (injectBranchDrops r ⟨.ifExpr c t e, ty⟩) es y) :
    ∃ (rs : List String) (es' : List LeafEvent), (∀ x ∈ rs, x ∈ exprReads c) ∧
      ((es = rs.map .read ++ (dropEvents (branchDrops (varLeaves r t) (varLeaves r e)) ++ es') ∧
          BranchPath (injectBranchDrops r t) es' y) ∨
        (es = rs.map .read ++ (dropEvents (branchDrops (varLeaves r e) (varLeaves r t)) ++ es') ∧
          BranchPath (injectBranchDrops r e) es' y)) := by
  rw [injectBranchDrops] at h
  cases h with
  | then_ hr h =>
    obtain ⟨es', rfl, hpath⟩ := branchPath_wrap.mp h
    exact ⟨_, es', hr, .inl ⟨rfl, hpath⟩⟩
  | else_ hr h =>
    obtain ⟨es', rfl, hpath⟩ := branchPath_wrap.mp h
    exact ⟨_, es', hr, .inr ⟨rfl, hpath⟩⟩

/-- A path through a rewritten match. -/
theorem path_match {s : TypedExpr} {arms : List TypedMatchArm} {ty : Ty} {es : List LeafEvent}
    {y : Option String} (h : BranchPath (injectBranchDrops r ⟨.match_ s arms, ty⟩) es y) :
    ∃ (rs : List String) (i : Nat) (arm : TypedMatchArm) (es' : List LeafEvent)
      (y' : Option String), (∀ x ∈ rs, x ∈ exprReads s) ∧ arms[i]? = some arm ∧
      es = rs.map .read ++ outside (boundBy arm)
        (dropEvents (armDrops (arms.map fun arm => varLeaves r arm.body) i) ++ es') ∧
      y = y'.filter (· ∉ boundBy arm) ∧ BranchPath (injectBranchDrops r arm.body) es' y' := by
  rw [injectBranchDrops] at h
  cases h with
  | arm hr hmem h =>
    obtain ⟨i, arm, hi, hb, hbody⟩ := injectArmDrops_mem hmem
    rw [hbody, Nat.zero_add] at h
    obtain ⟨es', rfl, hpath⟩ := branchPath_wrap.mp h
    rw [hb]
    exact ⟨_, i, arm, es', _, hr, hi, rfl, rfl, hpath⟩

/-- A path through a rewritten block. -/
theorem path_blockExpr {stmts : List TypedStmt} {tail : TypedExpr} {ty : Ty}
    {es : List LeafEvent} {y : Option String}
    (h : BranchPath (injectBranchDrops r ⟨.block stmts tail, ty⟩) es y) :
    ∃ es₀ es' y', StmtsPath stmts es₀ ∧ BranchPath (injectBranchDrops r tail) es' y' ∧
      es = es₀ ++ outside (declaredIn stmts) es' ∧ y = y'.filter (· ∉ declaredIn stmts) := by
  rw [injectBranchDrops] at h
  cases h with
  | block hs h => exact ⟨_, _, _, hs, h, rfl, rfl⟩

/-! ## What a path can do -/

/-- The events of a path are reads of what the expression mentions and drops of its leaves,
and it yields a leaf. -/
structure InTree (r : NonCopy) (e : TypedExpr) (es : List LeafEvent) (y : Option String) :
    Prop where
  reads : ∀ x, .read x ∈ es → x ∈ exprReads e
  drops : ∀ x, .drop x ∈ es → x ∈ leafNames r e
  yields : ∀ x, y = some x → x ∈ leafNames r e

theorem mem_outside {inner : List String} {es : List LeafEvent} {e : LeafEvent} :
    e ∈ outside inner es ↔ e ∈ es ∧ e.var ∉ inner := by
  rw [outside, List.mem_filter, decide_eq_true_eq]

theorem filter_eq_some {inner : List String} {y : Option String} {x : String} :
    (y.filter (· ∉ inner)) = some x ↔ y = some x ∧ x ∉ inner := by
  rw [Option.filter_eq_some_iff, decide_eq_true_eq]

theorem mem_armsReads {arms : List TypedMatchArm} {x : String} :
    x ∈ armsReads arms ↔ ∃ arm ∈ arms, x ∈ exprReads arm.body ∧ x ∉ boundBy arm := by
  induction arms with
  | nil => exact ⟨fun h => (List.not_mem_nil h).elim, fun ⟨_, h, _⟩ => (List.not_mem_nil h).elim⟩
  | cons arm arms ih =>
    obtain ⟨tag, isWildcard, intValue, binding, body⟩ := arm
    rw [armsReads, List.mem_append, mem_hide, ih, List.exists_mem_cons_iff]
    exact Iff.rfl

theorem read_mem_reads {rs : List String} {x : String} :
    LeafEvent.read x ∈ rs.map LeafEvent.read ↔ x ∈ rs := by
  rw [List.mem_map]
  exact ⟨fun ⟨_, h, heq⟩ => LeafEvent.read.inj heq ▸ h, fun h => ⟨x, h, rfl⟩⟩

theorem drop_not_mem_reads {rs : List String} {x : String} :
    LeafEvent.drop x ∉ rs.map LeafEvent.read := by
  rw [List.mem_map]
  rintro ⟨_, _, heq⟩
  cases heq

theorem mem_dropEvents {drops : List VarLeaf} {e : LeafEvent} :
    e ∈ dropEvents drops ↔ ∃ x ∈ names drops, e = .drop x := by
  simp only [dropEvents, names, List.mem_map]
  constructor
  · rintro ⟨d, hd, rfl⟩
    exact ⟨d.1, ⟨d, hd, rfl⟩, rfl⟩
  · rintro ⟨x, ⟨d, hd, rfl⟩, rfl⟩
    exact ⟨d, hd, rfl⟩

/-- The statements of a block read what they mention and drop what the block declares. -/
theorem stmtsPath_events {ss : List TypedStmt} {es : List LeafEvent} (h : StmtsPath ss es) :
    ∀ ds, blockStmts ds ss = true →
      (∀ x, .drop x ∈ es → x ∈ ds) ∧ ∀ x rest, .read x ∈ es → x ∈ stmtsReads ss rest := by
  induction h with
  | nil => exact fun ds _ => ⟨fun _ h => (List.not_mem_nil h).elim, fun _ _ h =>
      (List.not_mem_nil h).elim⟩
  | drop h ih =>
    intro ds hb
    rw [blockStmts, Bool.and_eq_true, decide_eq_true_eq] at hb
    obtain ⟨hdrop, hread⟩ := ih ds hb.2
    refine ⟨fun x hx => ?_, fun x rest hx => ?_⟩
    · rcases List.mem_cons.mp hx with heq | hx
      · exact LeafEvent.drop.inj heq ▸ hb.1
      · exact hdrop x hx
    · have hx := (List.mem_cons.mp hx).resolve_left nofun
      rw [stmtsReads]
      exact List.mem_append_right _ (mem_hide.mpr ⟨hread x rest hx, List.not_mem_nil⟩)
  | @step s ss rs es hs hr h ih =>
    intro ds hb
    obtain ⟨ds', hsub, hb'⟩ : ∃ ds', (∀ x ∈ ds', x ∈ ds ∨ x ∈ declaredBy s) ∧
        blockStmts ds' ss = true := by
      cases s with
      | drop x ty moved => exact absurd rfl (hs x ty moved)
      | let_ x ty e =>
        refine ⟨x :: ds, fun y hy => ?_, hb⟩
        exact (List.mem_cons.mp hy).symm.imp id List.mem_singleton.mpr
      | discard | print | reassign | while_ => exact ⟨ds, fun _ hy => .inl hy, hb⟩
      | _ => cases hb
    obtain ⟨hdrop, hread⟩ := ih ds' hb'
    refine ⟨fun x hx => ?_, fun x rest hx => ?_⟩
    · rcases List.mem_append.mp hx with hx | hx
      · exact absurd hx drop_not_mem_reads
      · obtain ⟨hx, hout⟩ := mem_outside.mp hx
        exact (hsub x (hdrop x hx)).resolve_right hout
    · rw [stmtsReads, List.mem_append]
      rcases List.mem_append.mp hx with hx | hx
      · exact .inl (hr x (read_mem_reads.mp hx))
      · obtain ⟨hx, hout⟩ := mem_outside.mp hx
        exact .inr (mem_hide.mpr ⟨hread x rest hx, hout⟩)

theorem declaredIn_cons (s : TypedStmt) (ss : List TypedStmt) :
    declaredIn (s :: ss) = declaredBy s ++ declaredIn ss := by
  cases s <;> rfl

theorem mem_stmtsReads_rest {x : String} {rest : List String} (hx : x ∈ rest) :
    ∀ {ss : List TypedStmt}, x ∉ declaredIn ss → x ∈ stmtsReads ss rest
  | [], _ => hx
  | s :: ss, h => by
    rw [declaredIn_cons, List.mem_append, not_or] at h
    rw [stmtsReads, List.mem_append]
    exact .inr (mem_hide.mpr ⟨mem_stmtsReads_rest hx h.2, h.1⟩)

/-- The events of a branch, with its drops and what comes before it, stay in the tree. -/
theorem InTree.branch {e : TypedExpr} {own : List String} {drops : List VarLeaf}
    {rs inner : List String} {es : List LeafEvent} {y : Option String}
    (hd : OthersLeaves own (leafNames r e) drops) (hrs : ∀ x ∈ rs, x ∈ exprReads e)
    (hreads : ∀ x, .read x ∈ es → x ∉ inner → x ∈ exprReads e)
    (hdrops : ∀ x, .drop x ∈ es → x ∈ leafNames r e)
    (hy : ∀ x, y = some x → x ∈ leafNames r e) :
    InTree r e (rs.map .read ++ outside inner (dropEvents drops ++ es))
      (y.filter (· ∉ inner)) := by
  refine ⟨fun x hx => ?_, fun x hx => ?_, fun x hx => hy x (filter_eq_some.mp hx).1⟩
  · rcases List.mem_append.mp hx with hx | hx
    · exact hrs x (read_mem_reads.mp hx)
    · obtain ⟨hx, hout⟩ := mem_outside.mp hx
      rcases List.mem_append.mp hx with hx | hx
      · obtain ⟨_, _, heq⟩ := mem_dropEvents.mp hx
        cases heq
      · exact hreads x hx hout
  · rcases List.mem_append.mp hx with hx | hx
    · exact absurd hx drop_not_mem_reads
    · obtain ⟨hx, -⟩ := mem_outside.mp hx
      rcases List.mem_append.mp hx with hx | hx
      · obtain ⟨z, hz, heq⟩ := mem_dropEvents.mp hx
        cases heq
        exact ((hd.mem x).mp hz).1
      · exact hdrops x hx

/-- A branch that binds nothing. -/
theorem InTree.plainBranch {e : TypedExpr} {own : List String} {drops : List VarLeaf}
    {rs : List String} {es : List LeafEvent} {y : Option String}
    (hd : OthersLeaves own (leafNames r e) drops) (hrs : ∀ x ∈ rs, x ∈ exprReads e)
    (hreads : ∀ x, .read x ∈ es → x ∈ exprReads e)
    (hdrops : ∀ x, .drop x ∈ es → x ∈ leafNames r e)
    (hy : ∀ x, y = some x → x ∈ leafNames r e) :
    InTree r e (rs.map .read ++ (dropEvents drops ++ es)) y := by
  have h : InTree r e (rs.map .read ++ outside [] (dropEvents drops ++ es))
      (y.filter fun x => decide (x ∉ ([] : List String))) :=
    .branch hd hrs (fun x hx _ => hreads x hx) hdrops hy
  rwa [outside_nil, filter_not_mem_nil] at h

theorem path_inTree {e : TypedExpr} (h : BranchTree r e) :
    ∀ {es y}, BranchPath (injectBranchDrops r e) es y → InTree r e es y := by
  induction h with
  | var hty =>
    intro es y hpath
    rw [injectBranchDrops] at hpath
    · cases hpath
      refine ⟨fun _ h => (List.not_mem_nil h).elim, fun _ h => (List.not_mem_nil h).elim, ?_⟩
      rintro x ⟨⟩
      exact (mem_leafNames_var hty).mpr rfl
    all_goals nofun
  | @ifExpr c t e ty ht he iht ihe =>
    intro es y hpath
    obtain ⟨hdt, hde⟩ := othersLeaves_if c ty ht he
    have hmem : ∀ x, x ∈ leafNames r t ∨ x ∈ leafNames r e →
        x ∈ leafNames r ⟨.ifExpr c t e, ty⟩ := fun x => (he.mem_if x).mpr
    have hcond : ∀ x, x ∈ exprReads c → x ∈ exprReads ⟨.ifExpr c t e, ty⟩ := by
      intro x hx
      rw [exprReads, List.mem_append]
      exact .inl hx
    obtain ⟨rs, es', hr, ⟨rfl, hin⟩ | ⟨rfl, hin⟩⟩ := path_if hpath
    · have hin := iht hin
      refine .plainBranch hdt (fun x hx => hcond x (hr x hx)) (fun x hx => ?_)
        (fun x hx => hmem x (.inl (hin.drops x hx))) fun x hx => hmem x (.inl (hin.yields x hx))
      rw [exprReads, List.mem_append, List.mem_append]
      exact .inr (.inl (hin.reads x hx))
    · have hin := ihe hin
      refine .plainBranch hde (fun x hx => hcond x (hr x hx)) (fun x hx => ?_)
        (fun x hx => hmem x (.inr (hin.drops x hx))) fun x hx => hmem x (.inr (hin.yields x hx))
      rw [exprReads, List.mem_append, List.mem_append]
      exact .inr (.inr (hin.reads x hx))
  | @match_ s arms ty hne harms hbound ih =>
    intro es y hpath
    obtain ⟨rs, i, arm, es', y', hr, hi, rfl, rfl, hin⟩ := path_match hpath
    have hmem := List.mem_of_getElem? hi
    have hin := ih arm hmem hin
    have hleaf : ∀ x, x ∈ leafNames r arm.body → x ∈ leafNames r ⟨.match_ s arms, ty⟩ :=
      fun x hx => (BranchTree.mem_match harms x).mpr ⟨arm, hmem, hx⟩
    refine InTree.branch (othersLeaves_arm s ty harms hi) ?_ ?_ ?_ ?_
    · intro x hx
      rw [exprReads, List.mem_append]
      exact .inl (hr x hx)
    · intro x hx hb
      rw [exprReads, List.mem_append]
      exact .inr (mem_armsReads.mpr ⟨arm, hmem, hin.reads x hx, hb⟩)
    · exact fun x hx => hleaf x (hin.drops x hx)
    · exact fun x hx => hleaf x (hin.yields x hx)
  | block hstmts htail ih =>
    intro es y hpath
    obtain ⟨es₀, es', y', hs, hin, rfl, rfl⟩ := path_blockExpr hpath
    have hin := ih hin
    obtain ⟨hdrop, hread⟩ := stmtsPath_events hs [] hstmts
    refine ⟨fun x hx => ?_, fun x hx => ?_, fun x hx => ?_⟩
    · rw [exprReads]
      rcases List.mem_append.mp hx with hx | hx
      · exact hread x _ hx
      · obtain ⟨hx, hout⟩ := mem_outside.mp hx
        exact mem_stmtsReads_rest (hin.reads x hx) hout
    · rw [mem_leafNames_block]
      rcases List.mem_append.mp hx with hx | hx
      · exact absurd (hdrop x hx) List.not_mem_nil
      · obtain ⟨hx, hout⟩ := mem_outside.mp hx
        exact ⟨hin.drops x hx, hout⟩
    · obtain ⟨hx, hout⟩ := filter_eq_some.mp hx
      exact (mem_leafNames_block x).mpr ⟨hin.yields x hx, hout⟩

/-! ## Paths that exist -/

theorem if_then_path {c t e : TypedExpr} {ty : Ty} {rs : List String} {es : List LeafEvent}
    {y : Option String} (hr : ∀ x ∈ rs, x ∈ exprReads c)
    (h : BranchPath (injectBranchDrops r t) es y) :
    BranchPath (injectBranchDrops r ⟨.ifExpr c t e, ty⟩)
      (rs.map .read ++ (dropEvents (branchDrops (varLeaves r t) (varLeaves r e)) ++ es)) y := by
  rw [injectBranchDrops]
  exact .then_ hr (branchPath_wrap.mpr ⟨es, rfl, h⟩)

theorem if_else_path {c t e : TypedExpr} {ty : Ty} {rs : List String} {es : List LeafEvent}
    {y : Option String} (hr : ∀ x ∈ rs, x ∈ exprReads c)
    (h : BranchPath (injectBranchDrops r e) es y) :
    BranchPath (injectBranchDrops r ⟨.ifExpr c t e, ty⟩)
      (rs.map .read ++ (dropEvents (branchDrops (varLeaves r e) (varLeaves r t)) ++ es)) y := by
  rw [injectBranchDrops]
  exact .else_ hr (branchPath_wrap.mpr ⟨es, rfl, h⟩)

theorem match_arm_path {s : TypedExpr} {arms : List TypedMatchArm} {ty : Ty} {i : Nat}
    {arm : TypedMatchArm} {rs : List String} {es : List LeafEvent} {y : Option String}
    (hr : ∀ x ∈ rs, x ∈ exprReads s) (hi : arms[i]? = some arm)
    (h : BranchPath (injectBranchDrops r arm.body) es y) :
    BranchPath (injectBranchDrops r ⟨.match_ s arms, ty⟩)
      (rs.map .read ++ outside (boundBy arm)
        (dropEvents (armDrops (arms.map fun arm => varLeaves r arm.body) i) ++ es))
      (y.filter (· ∉ boundBy arm)) := by
  rw [injectBranchDrops]
  obtain ⟨arm', hmem, hb, hbody⟩ := mem_injectArmDrops (r := r) 0 hi
  rw [← hb]
  refine .arm hr hmem ?_
  rw [hbody, Nat.zero_add]
  exact branchPath_wrap.mpr ⟨es, rfl, h⟩

theorem block_path {stmts : List TypedStmt} {tail : TypedExpr} {ty : Ty}
    {es es' : List LeafEvent} {y : Option String} (hs : StmtsPath stmts es)
    (h : BranchPath (injectBranchDrops r tail) es' y) :
    BranchPath (injectBranchDrops r ⟨.block stmts tail, ty⟩)
      (es ++ outside (declaredIn stmts) es') (y.filter (· ∉ declaredIn stmts)) := by
  rw [injectBranchDrops]
  exact .block hs h

/-- Reading nothing. -/
theorem not_mem_reads (names : List String) : ∀ x ∈ ([] : List String), x ∈ names :=
  fun _ h => (List.not_mem_nil h).elim

theorem exists_stmtsPath (ss : List TypedStmt) : ∃ es, StmtsPath ss es := by
  induction ss with
  | nil => exact ⟨[], .nil⟩
  | cons s ss ih =>
    obtain ⟨es, h⟩ := ih
    by_cases hs : ∀ x ty moved, s ≠ .drop x ty moved
    · exact ⟨_, .step hs (not_mem_reads _) h⟩
    · simp only [not_forall, not_not] at hs
      obtain ⟨x, ty, moved, rfl⟩ := hs
      exact ⟨_, .drop h⟩

/-- What the statements of a block and the rest mention, a path through the statements reads,
or it is mentioned by the rest and declared outside. -/
theorem stmts_read {x : String} {rest : List String} {ss : List TypedStmt}
    (hx : x ∈ stmtsReads ss rest) :
    (∃ es, StmtsPath ss es ∧ .read x ∈ es) ∨ (x ∈ rest ∧ x ∉ declaredIn ss) := by
  induction ss with
  | nil => exact .inr ⟨hx, List.not_mem_nil⟩
  | cons s ss ih =>
    rw [stmtsReads, List.mem_append, mem_hide] at hx
    by_cases hs : ∀ x ty moved, s ≠ .drop x ty moved
    · rcases hx with hx | ⟨hx, hdecl⟩
      · obtain ⟨es, h⟩ := exists_stmtsPath ss
        have hone : ∀ y ∈ [x], y ∈ stmtReads s := fun y hy => List.mem_singleton.mp hy ▸ hx
        exact .inl ⟨_, .step hs hone h, List.mem_append_left _ List.mem_cons_self⟩
      · rcases ih hx with ⟨es, h, hread⟩ | ⟨hrest, hnot⟩
        · refine .inl ⟨_, .step hs (not_mem_reads _) h, ?_⟩
          exact List.mem_append_right _ (mem_outside.mpr ⟨hread, hdecl⟩)
        · refine .inr ⟨hrest, fun h => ?_⟩
          rw [declaredIn_cons, List.mem_append] at h
          exact h.elim hdecl hnot
    · simp only [not_forall, not_not] at hs
      obtain ⟨z, ty, moved, rfl⟩ := hs
      have hx := (hx.resolve_left List.not_mem_nil).1
      rcases ih hx with ⟨es, h, hread⟩ | ⟨hrest, hnot⟩
      · exact .inl ⟨_, .drop h, List.mem_cons_of_mem _ hread⟩
      · exact .inr ⟨hrest, hnot⟩

theorem exists_path {e : TypedExpr} (h : BranchTree r e) :
    ∃ es y, BranchPath (injectBranchDrops r e) es y := by
  induction h with
  | @var x ty hty => exact ⟨[], some x, .var⟩
  | ifExpr ht he iht ihe =>
    obtain ⟨es, y, h⟩ := iht
    exact ⟨_, y, if_then_path (not_mem_reads _) h⟩
  | @match_ s arms ty hne harms hbound ih =>
    obtain ⟨arm, hmem⟩ := List.exists_mem_of_ne_nil arms hne
    obtain ⟨i, hi⟩ := List.mem_iff_getElem?.mp hmem
    obtain ⟨es, y, h⟩ := ih arm hmem
    exact ⟨_, _, match_arm_path (not_mem_reads _) hi h⟩
  | @block stmts tail ty hstmts htail ih =>
    obtain ⟨es, h⟩ := exists_stmtsPath stmts
    obtain ⟨es', y, h'⟩ := ih
    exact ⟨_, _, block_path h h'⟩

/-- Every variable an expression mentions is one of its leaves or read on a path. -/
theorem exists_read {e : TypedExpr} (h : BranchTree r e) {x : String} (hx : x ∈ exprReads e) :
    x ∈ leafNames r e ∨ ∃ es y, BranchPath (injectBranchDrops r e) es y ∧ .read x ∈ es := by
  have hone : ∀ {names : List String}, x ∈ names → ∀ z ∈ [x], z ∈ names :=
    fun h z hz => List.mem_singleton.mp hz ▸ h
  induction h with
  | var hty =>
    rw [exprReads, List.mem_singleton] at hx
    exact .inl ((mem_leafNames_var hty).mpr hx)
  | @ifExpr c t e ty ht he iht ihe =>
    rw [exprReads, List.mem_append, List.mem_append] at hx
    rw [he.mem_if]
    rcases hx with hx | hx | hx
    · obtain ⟨es, y, h⟩ := exists_path ht
      exact .inr ⟨_, y, if_then_path (hone hx) h, List.mem_append_left _ List.mem_cons_self⟩
    · rcases iht hx with hleaf | ⟨es, y, h, hread⟩
      · exact .inl (.inl hleaf)
      · exact .inr ⟨_, y, if_then_path (not_mem_reads _) h,
          List.mem_append_right _ (List.mem_append_right _ hread)⟩
    · rcases ihe hx with hleaf | ⟨es, y, h, hread⟩
      · exact .inl (.inr hleaf)
      · exact .inr ⟨_, y, if_else_path (not_mem_reads _) h,
          List.mem_append_right _ (List.mem_append_right _ hread)⟩
  | @match_ s arms ty hne harms hbound ih =>
    rw [exprReads, List.mem_append] at hx
    rw [BranchTree.mem_match harms]
    rcases hx with hx | hx
    · obtain ⟨arm, hmem⟩ := List.exists_mem_of_ne_nil arms hne
      obtain ⟨i, hi⟩ := List.mem_iff_getElem?.mp hmem
      obtain ⟨es, y, h⟩ := exists_path (harms arm hmem)
      exact .inr ⟨_, _, match_arm_path (hone hx) hi h, List.mem_append_left _ List.mem_cons_self⟩
    · obtain ⟨arm, hmem, hx, hbind⟩ := mem_armsReads.mp hx
      rcases ih arm hmem hx with hleaf | ⟨es, y, h, hread⟩
      · exact .inl ⟨arm, hmem, hleaf⟩
      · obtain ⟨i, hi⟩ := List.mem_iff_getElem?.mp hmem
        refine .inr ⟨_, _, match_arm_path (not_mem_reads _) hi h, List.mem_append_right _ ?_⟩
        exact mem_outside.mpr ⟨List.mem_append_right _ hread, hbind⟩
  | @block stmts tail ty hstmts htail ih =>
    rw [exprReads] at hx
    rw [mem_leafNames_block]
    rcases stmts_read hx with ⟨es, h, hread⟩ | ⟨hx, hdecl⟩
    · obtain ⟨es', y, h'⟩ := exists_path htail
      exact .inr ⟨_, _, block_path h h', List.mem_append_left _ hread⟩
    · rcases ih hx with hleaf | ⟨es', y, h', hread⟩
      · exact .inl ⟨hleaf, hdecl⟩
      · obtain ⟨es, h⟩ := exists_stmtsPath stmts
        refine .inr ⟨_, _, block_path h h', List.mem_append_right _ ?_⟩
        exact mem_outside.mpr ⟨hread, hdecl⟩

/-! ## One branch -/

theorem eventsAbout_append (x : String) (es es' : List LeafEvent) :
    eventsAbout x (es ++ es') = eventsAbout x es ++ eventsAbout x es' :=
  List.filter_append es es'

theorem mem_eventsAbout {x : String} {es : List LeafEvent} {e : LeafEvent} :
    e ∈ eventsAbout x es ↔ e ∈ es ∧ e.var = x := by
  rw [eventsAbout, List.mem_filter, decide_eq_true_eq]

theorem eventsAbout_eq_nil {x : String} {es : List LeafEvent} :
    eventsAbout x es = [] ↔ ∀ e ∈ es, e.var ≠ x := by
  rw [eventsAbout, List.filter_eq_nil_iff]
  exact forall₂_congr fun _ _ => not_congr decide_eq_true_iff

theorem eventsAbout_outside {inner : List String} {x : String} (hx : x ∉ inner)
    (es : List LeafEvent) : eventsAbout x (outside inner es) = eventsAbout x es := by
  unfold eventsAbout outside
  rw [List.filter_filter]
  refine List.filter_congr fun e _ => ?_
  rw [Bool.and_eq_left_iff_imp, decide_eq_true_eq, decide_eq_true_eq]
  exact fun h => h ▸ hx

theorem eventsAbout_dropEvents {drops : List VarLeaf} (h : (names drops).Nodup) (x : String) :
    eventsAbout x (dropEvents drops) = if x ∈ names drops then [.drop x] else [] := by
  induction drops with
  | nil => rfl
  | cons d drops ih =>
    obtain ⟨hd, hnodup⟩ := List.nodup_cons.mp h
    have hcons : eventsAbout x (dropEvents (d :: drops)) =
        eventsAbout x [.drop d.1] ++ eventsAbout x (dropEvents drops) :=
      eventsAbout_append x [.drop d.1] _
    have hmem : x ∈ names (d :: drops) ↔ x = d.1 ∨ x ∈ names drops := List.mem_cons
    rw [hcons, ih hnodup]
    by_cases hx : x = d.1
    · subst hx
      have hd : d.1 ∉ names drops := hd
      rw [if_pos (hmem.mpr (.inl rfl)), if_neg hd]
      simp [eventsAbout, LeafEvent.var]
    · have hnil : eventsAbout x [LeafEvent.drop d.1] = [] :=
        List.filter_cons_of_neg (by rw [decide_eq_true_eq]; exact fun h => hx h.symm)
      rw [hnil, List.nil_append]
      exact if_congr (by rw [hmem, or_iff_right hx]) rfl rfl

/-- The events about a variable of the scope around the branch. -/
theorem eventsAbout_branch {drops : List VarLeaf} {inner : List String} {x : String}
    (h : (names drops).Nodup) (hx : x ∉ inner) (rs : List String) (es : List LeafEvent) :
    eventsAbout x (rs.map .read ++ outside inner (dropEvents drops ++ es)) =
      eventsAbout x (rs.map .read) ++
        ((if x ∈ names drops then [.drop x] else []) ++ eventsAbout x es) := by
  rw [eventsAbout_append, eventsAbout_outside hx, eventsAbout_append,
    eventsAbout_dropEvents h]

theorem drop_not_mem_about {rs : List String} {x : String} :
    LeafEvent.drop x ∉ eventsAbout x (rs.map .read) :=
  fun h => drop_not_mem_reads (mem_eventsAbout.mp h).1

/-- Reading a variable before it is dropped does no harm. -/
theorem droppedLast_after_reads {x : String} {rs : List String} {es es' : List LeafEvent}
    (h : DroppedLast x es') (heq : eventsAbout x es = eventsAbout x (rs.map .read) ++
      eventsAbout x es') : DroppedLast x es := by
  obtain ⟨before, hb, hnot⟩ := h
  refine ⟨eventsAbout x (rs.map .read) ++ before, ?_, ?_⟩
  · rw [heq, hb, List.append_assoc]
  · rw [List.mem_append, not_or]
    exact ⟨drop_not_mem_about, hnot⟩

/-- A branch that does not mention what it drops balances the leaves of all branches if it
balances its own. -/
theorem balanced_branch {own leaves inner rs : List String} {drops : List VarLeaf}
    {es : List LeafEvent} {y : Option String} (h : Balanced own es y)
    (hd : OthersLeaves own leaves drops) (hown : ∀ x ∈ own, x ∈ leaves)
    (hinner : ∀ x ∈ leaves, x ∉ inner) (hquiet : ∀ x ∈ names drops, eventsAbout x es = []) :
    Balanced leaves (rs.map .read ++ outside inner (dropEvents drops ++ es))
      (y.filter (· ∉ inner)) := by
  refine ⟨fun x hx => hown x (h.mem x (filter_eq_some.mp hx).1), ?_, ?_⟩
  · intro x hx
    obtain ⟨hx, hout⟩ := filter_eq_some.mp hx
    have hnd : x ∉ names drops := fun hmem => ((hd.mem x).mp hmem).2 (h.mem x hx)
    intro hdrop
    have habout := mem_eventsAbout.mpr (And.intro hdrop rfl)
    change LeafEvent.drop x ∈ eventsAbout x _ at habout
    rw [eventsAbout_branch hd.nodup hout, if_neg hnd, List.nil_append, List.mem_append] at habout
    exact habout.elim drop_not_mem_about fun hin => h.kept x hx (mem_eventsAbout.mp hin).1
  · intro x hx hy
    have hout := hinner x hx
    have heq := eventsAbout_branch hd.nodup hout rs es
    by_cases hmem : x ∈ names drops
    · rw [if_pos hmem, hquiet x hmem] at heq
      exact ⟨_, heq, drop_not_mem_about⟩
    · have hxo : x ∈ own := by
        by_contra hno
        exact hmem ((hd.mem x).mpr ⟨hx, hno⟩)
      rw [if_neg hmem] at heq
      refine droppedLast_after_reads (h.dropped x hxo fun hyx => ?_) heq
      exact hy (filter_eq_some.mpr ⟨hyx, hout⟩)

theorem balanced_plain {own leaves rs : List String} {drops : List VarLeaf}
    {es : List LeafEvent} {y : Option String} (h : Balanced own es y)
    (hd : OthersLeaves own leaves drops) (hown : ∀ x ∈ own, x ∈ leaves)
    (hquiet : ∀ x ∈ names drops, eventsAbout x es = []) :
    Balanced leaves (rs.map .read ++ (dropEvents drops ++ es)) y := by
  have hb : Balanced leaves (rs.map .read ++ outside [] (dropEvents drops ++ es))
      (y.filter fun x => decide (x ∉ ([] : List String))) :=
    balanced_branch h hd hown (fun _ _ => List.not_mem_nil) hquiet
  rwa [outside_nil, filter_not_mem_nil] at hb

/-- A block balances what its tail balances, but for the variables it declares. -/
theorem balanced_block {stmts : List TypedStmt} {tail : TypedExpr} {ty : Ty}
    {es es' : List LeafEvent} {y : Option String} (hes : ∀ x, .drop x ∈ es → x ∈ ([] : List String))
    (h : Balanced (leafNames r tail) es' y) :
    Balanced (leafNames r ⟨.block stmts tail, ty⟩) (es ++ outside (declaredIn stmts) es')
      (y.filter (· ∉ declaredIn stmts)) := by
  have hnd : ∀ x, .drop x ∉ es := fun x hx => List.not_mem_nil (hes x hx)
  refine ⟨fun x hx => ?_, fun x hx hdrop => ?_, fun x hx hy => ?_⟩
  · obtain ⟨hx, hout⟩ := filter_eq_some.mp hx
    exact (mem_leafNames_block x).mpr ⟨h.mem x hx, hout⟩
  · rcases List.mem_append.mp hdrop with hdrop | hdrop
    · exact hnd x hdrop
    · exact h.kept x (filter_eq_some.mp hx).1 (mem_outside.mp hdrop).1
  · obtain ⟨hx, hout⟩ := (mem_leafNames_block x).mp hx
    obtain ⟨before, hb, hnot⟩ := h.dropped x hx fun hyx => hy (filter_eq_some.mpr ⟨hyx, hout⟩)
    refine ⟨eventsAbout x es ++ before, ?_, ?_⟩
    · rw [eventsAbout_append, eventsAbout_outside hout, hb, List.append_assoc]
    · rw [List.mem_append, not_or]
      exact ⟨fun hmem => hnd x (mem_eventsAbout.mp hmem).1, hnot⟩

/-- The other way round: what is balanced for all branches is so for this one. -/
theorem balanced_own {own leaves inner : List String} {drops : List VarLeaf}
    {es : List LeafEvent} {y : Option String}
    (h : Balanced leaves (([] : List String).map .read ++ outside inner (dropEvents drops ++ es))
      (y.filter (· ∉ inner))) (hd : OthersLeaves own leaves drops)
    (hown : ∀ x ∈ own, x ∈ leaves) (hinner : ∀ x ∈ own, x ∉ inner)
    (hy : ∀ x, y = some x → x ∈ own) : Balanced own es y := by
  have hnd : ∀ x ∈ own, x ∉ names drops := fun x hx hmem => ((hd.mem x).mp hmem).2 hx
  have habout : ∀ x ∈ own, eventsAbout x (([] : List String).map .read ++
      outside inner (dropEvents drops ++ es)) = eventsAbout x es := by
    intro x hx
    rw [eventsAbout_branch hd.nodup (hinner x hx), if_neg (hnd x hx)]
    rfl
  refine ⟨hy, fun x hx hdrop => ?_, fun x hx hyx => ?_⟩
  · have hmem := mem_eventsAbout.mpr (And.intro hdrop rfl)
    change LeafEvent.drop x ∈ eventsAbout x es at hmem
    rw [← habout x (hy x hx)] at hmem
    exact h.kept x (filter_eq_some.mpr ⟨hx, hinner x (hy x hx)⟩) (mem_eventsAbout.mp hmem).1
  · obtain ⟨before, hb, hnot⟩ := h.dropped x (hown x hx) fun hf => hyx (filter_eq_some.mp hf).1
    exact ⟨before, (habout x hx).symm.trans hb, hnot⟩

/-- And then the branch neither binds nor reads what it drops. -/
theorem spared_of_balanced {own leaves inner : List String} {drops : List VarLeaf}
    {es : List LeafEvent} {y : Option String}
    (h : Balanced leaves (([] : List String).map .read ++ outside inner (dropEvents drops ++ es))
      (y.filter (· ∉ inner))) (hd : OthersLeaves own leaves drops)
    (hy : ∀ x, y = some x → x ∈ own) {x : String} (hx : x ∈ names drops) :
    x ∉ inner ∧ .read x ∉ es := by
  obtain ⟨hleaf, hown⟩ := (hd.mem x).mp hx
  obtain ⟨before, hb, hnot⟩ := h.dropped x hleaf fun hf =>
    hown (hy x (filter_eq_some.mp hf).1)
  have hout : x ∉ inner := by
    intro hin
    have hnil : eventsAbout x (outside inner (dropEvents drops ++ es)) = [] :=
      eventsAbout_eq_nil.mpr fun e he heq => (mem_outside.mp he).2 (heq ▸ hin)
    rw [List.map_nil, List.nil_append, hnil] at hb
    exact absurd hb.symm (by simp)
  refine ⟨hout, fun hread => ?_⟩
  rw [eventsAbout_branch hd.nodup hout, if_pos hx] at hb
  -- the first event about the variable is its drop already
  have hmem : LeafEvent.read x ∈ eventsAbout x es := mem_eventsAbout.mpr ⟨hread, rfl⟩
  cases before with
  | nil =>
    have hnil : eventsAbout x es = [] := (List.cons.inj hb).2
    exact List.not_mem_nil (hnil ▸ hmem)
  | cons e before =>
    have hhead : LeafEvent.drop x = e := (List.cons.inj hb).1
    exact hnot (hhead ▸ List.mem_cons_self)

/-! ## All branches -/

theorem spares_iff {drops : List VarLeaf} {ns : List String} :
    spares drops ns = true ↔ ∀ x ∈ names drops, x ∉ ns := by
  simp only [spares, names, List.all_eq_true, decide_eq_true_eq, List.mem_map]
  exact ⟨fun h x ⟨d, hd, heq⟩ => heq ▸ h d hd, fun h d hd => h d.1 ⟨d, hd, rfl⟩⟩

theorem armDropsUnread_iff {armVars : List (List VarLeaf)} {arms : List TypedMatchArm} :
    ∀ {i : Nat}, armDropsUnread r armVars i arms = true ↔
      ∀ k arm, arms[k]? = some arm →
        spares (armDrops armVars (i + k)) (boundBy arm ++ exprReads arm.body) = true ∧
          dropsUnread r arm.body = true := by
  induction arms with
  | nil =>
    intro i
    exact ⟨fun _ _ _ h => (nomatch h), fun _ => rfl⟩
  | cons arm arms ih =>
    obtain ⟨tag, isWildcard, intValue, binding, body⟩ := arm
    intro i
    rw [armDropsUnread, Bool.and_eq_true, ih]
    constructor
    · rintro ⟨h0, hrest⟩ k arm hk
      cases k with
      | zero =>
        cases hk
        exact Bool.and_eq_true_iff.mp h0
      | succ k =>
        have hk : arms[k]? = some arm := hk
        have h := hrest k arm hk
        rwa [Nat.add_assoc, Nat.add_comm 1] at h
    · intro h
      refine ⟨Bool.and_eq_true_iff.mpr (h 0 _ rfl), fun k arm hk => ?_⟩
      rw [Nat.add_assoc, Nat.add_comm 1]
      exact h (k + 1) arm hk

theorem mem_armScopes {arms : List TypedMatchArm} {t : TypedExpr} :
    t ∈ armScopes arms ↔ ∃ arm ∈ arms, t ∈ innerScopes arm.body := by
  induction arms with
  | nil => exact ⟨fun h => (List.not_mem_nil h).elim, fun ⟨_, h, _⟩ => (List.not_mem_nil h).elim⟩
  | cons arm arms ih =>
    obtain ⟨tag, isWildcard, intValue, binding, body⟩ := arm
    rw [armScopes, List.mem_append, ih, List.exists_mem_cons_iff]
    exact Iff.rfl

/-- A path through a branch leaves alone what the branch neither yields nor mentions. -/
theorem quiet_of_unread {e : TypedExpr} (h : BranchTree r e) {es : List LeafEvent}
    {y : Option String} (hpath : BranchPath (injectBranchDrops r e) es y) {x : String}
    (hleaf : x ∉ leafNames r e) (hread : x ∉ exprReads e) : eventsAbout x es = [] := by
  have hin := path_inTree h hpath
  refine eventsAbout_eq_nil.mpr fun ev hev hx => ?_
  cases ev with
  | read z =>
    cases hx
    exact hread (hin.reads _ hev)
  | drop z =>
    cases hx
    exact hleaf (hin.drops _ hev)

theorem balanced_of_unread {e : TypedExpr} (h : BranchTree r e) :
    dropsUnread r e = true → ∀ {es y}, BranchPath (injectBranchDrops r e) es y →
      Balanced (leafNames r e) es y := by
  induction h with
  | @var x ty hty =>
    intro _ es y hpath
    rw [injectBranchDrops] at hpath
    · cases hpath
      refine ⟨?_, fun _ _ h => (List.not_mem_nil h).elim, ?_⟩
      · rintro z ⟨⟩
        exact (mem_leafNames_var hty).mpr rfl
      · intro z hz hy
        exact absurd (congrArg some ((mem_leafNames_var hty).mp hz).symm) hy
    all_goals nofun
  | @ifExpr c t e ty ht he iht ihe =>
    intro hun es y hpath
    rw [dropsUnread, Bool.and_eq_true, Bool.and_eq_true, Bool.and_eq_true, spares_iff,
      spares_iff] at hun
    obtain ⟨⟨hst, hse⟩, hunt, hune⟩ := hun
    obtain ⟨hdt, hde⟩ := othersLeaves_if c ty ht he
    obtain ⟨rs, es', hr, ⟨rfl, hin⟩ | ⟨rfl, hin⟩⟩ := path_if hpath
    · refine balanced_plain (iht hunt hin) hdt (fun x hx => (he.mem_if x).mpr (.inl hx)) ?_
      exact fun x hx => quiet_of_unread ht hin ((hdt.mem x).mp hx).2 (hst x hx)
    · refine balanced_plain (ihe hune hin) hde (fun x hx => (he.mem_if x).mpr (.inr hx)) ?_
      exact fun x hx => quiet_of_unread he hin ((hde.mem x).mp hx).2 (hse x hx)
  | @match_ s arms ty hne harms hbound ih =>
    intro hun es y hpath
    rw [dropsUnread, armDropsUnread_iff] at hun
    obtain ⟨rs, i, arm, es', y', hr, hi, rfl, rfl, hin⟩ := path_match hpath
    have hmem := List.mem_of_getElem? hi
    obtain ⟨hsp, hunarm⟩ := hun i arm hi
    rw [Nat.zero_add, spares_iff] at hsp
    have hd := othersLeaves_arm s ty harms hi
    have hown : ∀ x ∈ leafNames r arm.body, x ∈ leafNames r ⟨.match_ s arms, ty⟩ :=
      fun x hx => (BranchTree.mem_match harms x).mpr ⟨arm, hmem, hx⟩
    refine balanced_branch (ih arm hmem hunarm hin) hd hown ?_ ?_
    · intro x hx hb
      by_cases hxo : x ∈ leafNames r arm.body
      · exact hbound arm hmem x hb hxo
      · exact hsp x ((hd.mem x).mpr ⟨hx, hxo⟩) (List.mem_append_left _ hb)
    · intro x hx
      refine quiet_of_unread (harms arm hmem) hin ((hd.mem x).mp hx).2 fun hread => ?_
      exact hsp x hx (List.mem_append_right _ hread)
  | @block stmts tail ty hstmts htail ih =>
    intro hun es y hpath
    rw [dropsUnread] at hun
    obtain ⟨es₀, es', y', hs, hin, rfl, rfl⟩ := path_blockExpr hpath
    exact balanced_block (stmtsPath_events hs [] hstmts).1 (ih hun hin)

/-! ## Balanced branches -/

/-- All paths through the rewritten expression balance its leaves. -/
def AllBalanced (r : NonCopy) (e : TypedExpr) : Prop :=
  ∀ es y, BranchPath (injectBranchDrops r e) es y → Balanced (leafNames r e) es y

theorem innerScopes_tree {e : TypedExpr} (h : BranchTree r e) :
    ∀ t ∈ innerScopes e, BranchTree r t ∧ (dropsUnread r e = true → dropsUnread r t = true) := by
  induction h with
  | var hty => exact fun t ht => (List.not_mem_nil ht).elim
  | ifExpr ht he iht ihe =>
    intro t hmem
    rw [innerScopes, List.mem_append] at hmem
    rw [dropsUnread, Bool.and_eq_true, Bool.and_eq_true, Bool.and_eq_true]
    rcases hmem with hmem | hmem
    · exact ⟨(iht t hmem).1, fun hun => (iht t hmem).2 hun.2.1⟩
    · exact ⟨(ihe t hmem).1, fun hun => (ihe t hmem).2 hun.2.2⟩
  | match_ hne harms hbound ih =>
    intro t hmem
    rw [innerScopes, mem_armScopes] at hmem
    obtain ⟨arm, harm, hmem⟩ := hmem
    obtain ⟨i, hi⟩ := List.mem_iff_getElem?.mp harm
    rw [dropsUnread, armDropsUnread_iff]
    exact ⟨(ih arm harm t hmem).1, fun hun => (ih arm harm t hmem).2 (hun i arm hi).2⟩
  | block hstmts htail ih =>
    intro t hmem
    rw [innerScopes, List.mem_cons] at hmem
    rw [dropsUnread]
    rcases hmem with rfl | hmem
    · exact ⟨htail, id⟩
    · exact ih t hmem

/-- What a branch has to drop, it neither binds nor mentions, if all its paths balance the
leaves of all branches. -/
theorem unread_of_balanced {e : TypedExpr} (he : BranchTree r e) {leaves inner : List String}
    {drops : List VarLeaf} (hd : OthersLeaves (leafNames r e) leaves drops)
    (h : ∀ es y, BranchPath (injectBranchDrops r e) es y → Balanced leaves
      (([] : List String).map .read ++ outside inner (dropEvents drops ++ es))
      (y.filter (· ∉ inner))) {x : String} (hx : x ∈ names drops) :
    x ∉ inner ∧ x ∉ exprReads e := by
  have hyields : ∀ {es y}, BranchPath (injectBranchDrops r e) es y →
      ∀ x, y = some x → x ∈ leafNames r e := fun hpath => (path_inTree he hpath).yields
  constructor
  · obtain ⟨es, y, hpath⟩ := exists_path he
    exact (spared_of_balanced (h es y hpath) hd (hyields hpath) hx).1
  · intro hmention
    rcases exists_read he hmention with hleaf | ⟨es, y, hpath, hread⟩
    · exact ((hd.mem x).mp hx).2 hleaf
    · exact (spared_of_balanced (h es y hpath) hd (hyields hpath) hx).2 hread

/-- A branch that binds nothing. -/
theorem unread_of_balanced_plain {e : TypedExpr} (he : BranchTree r e) {leaves : List String}
    {drops : List VarLeaf} (hd : OthersLeaves (leafNames r e) leaves drops)
    (hown : ∀ x ∈ leafNames r e, x ∈ leaves)
    (h : ∀ es y, BranchPath (injectBranchDrops r e) es y → Balanced leaves
      (([] : List String).map .read ++ (dropEvents drops ++ es)) y) :
    spares drops (exprReads e) = true ∧ AllBalanced r e := by
  have h' : ∀ es y, BranchPath (injectBranchDrops r e) es y → Balanced leaves
      (([] : List String).map .read ++ outside [] (dropEvents drops ++ es))
      (y.filter fun x => decide (x ∉ ([] : List String))) := by
    intro es y hpath
    rw [outside_nil, filter_not_mem_nil]
    exact h es y hpath
  refine ⟨spares_iff.mpr fun x hx => (unread_of_balanced he hd h' hx).2, fun es y hpath => ?_⟩
  exact balanced_own (h' es y hpath) hd hown (fun _ _ => List.not_mem_nil)
    (path_inTree he hpath).yields

theorem unread_of_scopes {e : TypedExpr} (h : BranchTree r e) :
    (∀ t ∈ scopes e, AllBalanced r t) → dropsUnread r e = true := by
  induction h with
  | var hty => exact fun _ => rfl
  | @ifExpr c t e ty ht he iht ihe =>
    intro hall
    obtain ⟨hself, hinner⟩ := List.forall_mem_cons.mp hall
    rw [innerScopes, List.forall_mem_append] at hinner
    obtain ⟨hdt, hde⟩ := othersLeaves_if c ty ht he
    obtain ⟨hst, hbt⟩ := unread_of_balanced_plain ht hdt
      (fun x hx => (he.mem_if x).mpr (.inl hx))
      fun es y hpath => hself _ _ (if_then_path (not_mem_reads _) hpath)
    obtain ⟨hse, hbe⟩ := unread_of_balanced_plain he hde
      (fun x hx => (he.mem_if x).mpr (.inr hx))
      fun es y hpath => hself _ _ (if_else_path (not_mem_reads _) hpath)
    rw [dropsUnread, Bool.and_eq_true, Bool.and_eq_true, Bool.and_eq_true]
    exact ⟨⟨hst, hse⟩, iht (List.forall_mem_cons.mpr ⟨hbt, hinner.1⟩),
      ihe (List.forall_mem_cons.mpr ⟨hbe, hinner.2⟩)⟩
  | @match_ s arms ty hne harms hbound ih =>
    intro hall
    obtain ⟨hself, hinner⟩ := List.forall_mem_cons.mp hall
    rw [dropsUnread, armDropsUnread_iff]
    intro i arm hi
    have hmem := List.mem_of_getElem? hi
    have hd := othersLeaves_arm s ty harms hi
    have hpaths := fun es y (hpath : BranchPath (injectBranchDrops r arm.body) es y) =>
      hself _ _ (match_arm_path (not_mem_reads _) hi hpath)
    rw [Nat.zero_add, spares_iff]
    constructor
    · intro x hx
      rw [List.mem_append, not_or]
      exact unread_of_balanced (harms arm hmem) hd hpaths hx
    · refine ih arm hmem (List.forall_mem_cons.mpr ⟨fun es y hpath => ?_, fun t ht => ?_⟩)
      · refine balanced_own (hpaths es y hpath) hd ?_ ?_ (path_inTree (harms arm hmem) hpath).yields
        · exact fun x hx => (BranchTree.mem_match harms x).mpr ⟨arm, hmem, hx⟩
        · exact fun x hx hb => hbound arm hmem x hb hx
      · rw [innerScopes] at hinner
        exact hinner t (mem_armScopes.mpr ⟨arm, hmem, ht⟩)
  | block hstmts htail ih =>
    intro hall
    rw [dropsUnread]
    refine ih fun t ht => hall t ?_
    rw [scopes, innerScopes]
    exact List.mem_cons_of_mem _ ht

/-- After the rewrite every path yields one of the leaf variables and drops every other one
exactly once, without reading it afterwards, if and only if no branch binds or mentions a
variable that it drops for the others. The tails of blocks count as expressions of their
own, with the variables of the block among their leaves. -/
theorem branch_drops_balanced_iff (r : NonCopy) {e : TypedExpr} (h : BranchTree r e) :
    (∀ t ∈ scopes e, AllBalanced r t) ↔ dropsUnread r e = true := by
  refine ⟨unread_of_scopes h, fun hun t ht es y hpath => ?_⟩
  rcases List.mem_cons.mp ht with rfl | ht
  · exact balanced_of_unread h hun hpath
  · obtain ⟨htree, hunt⟩ := innerScopes_tree h t ht
    exact balanced_of_unread htree (hunt hun) hpath

/-- A variable that is not `Copy`. -/
def ownedVar (x : String) : TypedExpr := ⟨.var x, .vec (.int .i64)⟩

/-- `if c { a } else { if d { a } else { b } }` -/
def sharedLeaf : TypedExpr :=
  ⟨.ifExpr ⟨.var "c", .bool⟩ (ownedVar "a")
    ⟨.ifExpr ⟨.var "d", .bool⟩ (ownedVar "a") (ownedVar "b"), .vec (.int .i64)⟩,
    .vec (.int .i64)⟩

/-- Two branches may yield one variable. -/
theorem branch_drops_balanced_nested :
    dropsUnread ⟨[], []⟩ sharedLeaf = true ∧ ∀ t ∈ scopes sharedLeaf, AllBalanced ⟨[], []⟩ t :=
  ⟨by decide, (branch_drops_balanced_iff ⟨[], []⟩
    (.ifExpr (.var rfl) (.ifExpr (.var rfl) (.var rfl)))).mpr (by decide)⟩

/-- `if c { a } else { if len(a) > 0 { b } else { d } }` -/
def readsSibling : TypedExpr :=
  ⟨.ifExpr ⟨.var "c", .bool⟩ (ownedVar "a")
    ⟨.ifExpr ⟨.binary .gt ⟨.len (ownedVar "a") 0, .int .u64⟩ ⟨.int 0, .int .u64⟩ false, .bool⟩
      (ownedVar "b") (ownedVar "d"), .vec (.int .i64)⟩, .vec (.int .i64)⟩

/-- The second branch drops `a` and then reads it. -/
theorem read_after_branch_drop :
    BranchTree ⟨[], []⟩ readsSibling ∧
      BranchPath (injectBranchDrops ⟨[], []⟩ readsSibling)
        [.drop "a", .read "a", .drop "d"] (some "b") ∧
      ¬ AllBalanced ⟨[], []⟩ readsSibling := by
  have hlen : ∀ x ∈ ["a"], x ∈ exprReads ⟨.binary .gt ⟨.len (ownedVar "a") 0, .int .u64⟩
      ⟨.int 0, .int .u64⟩ false, .bool⟩ := fun x hx => hx
  have hpath : BranchPath (injectBranchDrops ⟨[], []⟩ readsSibling)
      [.drop "a", .read "a", .drop "d"] (some "b") :=
    if_else_path (not_mem_reads _) (if_then_path hlen .var)
  refine ⟨.ifExpr (.var rfl) (.ifExpr (.var rfl) (.var rfl)), hpath, fun h => ?_⟩
  obtain ⟨before, hb, hnot⟩ := (h _ _ hpath).dropped "a" (by decide) (by decide)
  have hlast := congrArg List.getLast? hb
  rw [List.getLast?_concat] at hlast
  exact absurd hlast (by decide)

end Vani.Analysis
