import Vani.Analysis.Names

/-!
# Evaluation in stores that agree

Two stores agree on a list of names when they resolve these names alike. To carry the
relation through an evaluation it is kept by levels: the scopes opened since the two
stores were compared bind a list of names alike, each level its own list, and the scopes
below resolve the names of the base list alike. The two bases need not have equally many
scopes, so a store can be compared with one that has been left by an inner scope.
-/

set_option autoImplicit false

namespace Vani.Analysis

open Vani.Program Vani.Model

variable {W : Type}

/-- The names a store is compared on: those of the innermost level. -/
def topNames (levels : List (List String)) (N : List String) : List String :=
  levels.headD N

/-- Agreement by levels. A name of a level that is not bound there belongs to the next
level's names as well. -/
def AgreeScopes : List (List String) → List String → List Scope → List Scope → Prop
  | [], N, a, b => ∀ n, n ∈ N → lookupScopes a n = lookupScopes b n
  | L :: levels, N, s :: a, t :: b =>
    (∀ n, n ∈ L → s n = t n ∧ (s n = none → n ∈ topNames levels N)) ∧ AgreeScopes levels N a b
  | _ :: _, _, _, _ => False

namespace AgreeScopes

variable {levels : List (List String)} {L M N : List String} {a b : List Scope}

/-- The comparison of at least one common scope, taken apart. -/
theorem cons_iff : AgreeScopes (L :: levels) N a b ↔
    ∃ s a' t b', a = s :: a' ∧ b = t :: b' ∧
      (∀ n, n ∈ L → s n = t n ∧ (s n = none → n ∈ topNames levels N)) ∧
      AgreeScopes levels N a' b' := by
  constructor
  · intro h
    cases a with
    | nil => cases b <;> exact h.elim
    | cons s a' =>
      cases b with
      | nil => exact h.elim
      | cons t b' => exact ⟨s, a', t, b', rfl, rfl, h.1, h.2⟩
  · rintro ⟨s, a', t, b', rfl, rfl, h⟩
    exact h

/-- Fewer names are compared at the innermost level. -/
theorem mono (h : AgreeScopes (L :: levels) N a b) (hsub : M ⊆ L) :
    AgreeScopes (M :: levels) N a b := by
  obtain ⟨s, a', t, b', rfl, rfl, htop, hrest⟩ := cons_iff.1 h
  exact ⟨fun n hn => htop n (hsub hn), hrest⟩

/-- The compared names resolve alike, and if not at all then they are base names. -/
theorem lookup (h : AgreeScopes levels N a b) {n : String} (hn : n ∈ topNames levels N) :
    lookupScopes a n = lookupScopes b n ∧ (lookupScopes a n = none → n ∈ N) := by
  induction levels generalizing a b with
  | nil => exact ⟨h n hn, fun _ => hn⟩
  | cons L levels ih =>
    obtain ⟨s, a', t, b', rfl, rfl, htop, hrest⟩ := cons_iff.1 h
    obtain ⟨heq, hnext⟩ := htop n hn
    simp only [lookupScopes, ← heq]
    cases hs : s n with
    | some v => exact ⟨rfl, fun h => by cases h⟩
    | none => exact ih hrest (hnext hs)

end AgreeScopes

/-- What a name means after an assignment. -/
theorem lookupScopes_assign (a : List Scope) (n m : String) (v : Value) :
    lookupScopes (assignScopes a n v) m =
      if m = n ∧ (lookupScopes a n).isSome = true then some v else lookupScopes a m := by
  induction a with
  | nil => simp [assignScopes, lookupScopes]
  | cons s rest ih =>
    rw [assignScopes]
    cases hs : s n with
    | none =>
      simp only [lookupScopes, hs, ih]
      by_cases hm : m = n
      · subst hm; simp [hs]
      · simp [hm]
    | some old =>
      simp only [lookupScopes, hs]
      by_cases hm : m = n
      · subst hm; simp
      · simp [hm]

/-- Both sides assign the same value to a compared name. -/
theorem AgreeScopes.assign {levels : List (List String)} {N : List String} {a b : List Scope}
    (h : AgreeScopes levels N a b) {n : String} (hn : n ∈ topNames levels N) (v : Value) :
    AgreeScopes levels N (assignScopes a n v) (assignScopes b n v) := by
  induction levels generalizing a b with
  | nil =>
    intro m hm
    rw [lookupScopes_assign, lookupScopes_assign, h n hn, h m hm]
  | cons L levels ih =>
    obtain ⟨s, a', t, b', rfl, rfl, htop, hrest⟩ := AgreeScopes.cons_iff.1 h
    obtain ⟨heq, hnext⟩ := htop n hn
    rw [assignScopes, assignScopes, ← heq]
    cases hs : s n with
    | none => exact ⟨htop, ih hrest (hnext hs)⟩
    | some old =>
      refine ⟨fun m hm => ?_, hrest⟩
      by_cases hmn : m = n
      · rw [hmn, Function.update_self, Function.update_self]
        exact ⟨rfl, fun h => by cases h⟩
      · rw [Function.update_of_ne hmn, Function.update_of_ne hmn]
        exact htop m hm

/-- Two stores compared on names; their worlds are compared only when `reads` asks. -/
structure Agree (reads : Prop) (levels : List (List String)) (N : List String)
    (σ τ : Store W) : Prop where
  scopes : AgreeScopes levels N σ.scopes τ.scopes
  ghosts : ∀ n, n ∈ N → σ.ghosts n = τ.ghosts n
  world : reads → σ.world = τ.world

namespace Agree

variable {reads : Prop} {levels : List (List String)} {L M N : List String} {σ τ : Store W}

theorem mono (h : Agree reads (L :: levels) N σ τ) (hsub : M ⊆ L) :
    Agree reads (M :: levels) N σ τ :=
  ⟨h.scopes.mono hsub, h.ghosts, h.world⟩

theorem lookup (h : Agree reads levels N σ τ) {n : String} (hn : n ∈ topNames levels N) :
    σ.lookup n = τ.lookup n := by
  obtain ⟨heq, hbase⟩ := h.scopes.lookup hn
  rw [Store.lookup, Store.lookup, ← heq]
  cases hs : lookupScopes σ.scopes n with
  | some v => rfl
  | none => exact h.ghosts n (hbase hs)

theorem push (h : Agree reads levels N σ τ) :
    Agree reads (topNames levels N :: levels) N σ.push τ.push :=
  ⟨⟨fun _ hn => ⟨rfl, fun _ => hn⟩, h.scopes⟩, h.ghosts, h.world⟩

theorem pop (h : Agree reads (L :: levels) N σ τ) : Agree reads levels N σ.pop τ.pop := by
  obtain ⟨s, a, t, b, hσ, hτ, _, hrest⟩ := AgreeScopes.cons_iff.1 h.scopes
  refine ⟨?_, h.ghosts, h.world⟩
  rw [Store.pop, Store.pop, hσ, hτ]
  exact hrest

/-- After binding a name on both sides, the stores agree on it too. -/
theorem declare (h : Agree reads (L :: levels) N σ τ) (n : String) (v : Value) :
    Agree reads ((n :: L) :: levels) N (σ.declare n v) (τ.declare n v) := by
  obtain ⟨s, a, t, b, hσ, hτ, htop, hrest⟩ := AgreeScopes.cons_iff.1 h.scopes
  have hscopes : AgreeScopes ((n :: L) :: levels) N
      (Function.update s n (some v) :: a) (Function.update t n (some v) :: b) := by
    refine ⟨fun m hm => ?_, hrest⟩
    by_cases hmn : m = n
    · rw [hmn, Function.update_self, Function.update_self]
      exact ⟨rfl, fun h => by cases h⟩
    · rw [Function.update_of_ne hmn, Function.update_of_ne hmn]
      exact htop m ((List.mem_cons.1 hm).resolve_left hmn)
  simp only [Store.declare, hσ, hτ]
  exact ⟨hscopes, h.ghosts, h.world⟩

theorem declareAll (h : Agree reads (L :: levels) N σ τ) (bs : List (String × Value)) :
    Agree reads ((bs.map Prod.fst ++ L) :: levels) N (declareAll bs σ) (declareAll bs τ) := by
  induction bs generalizing L σ τ with
  | nil => exact h
  | cons b bs ih =>
    refine (ih (h.declare b.1 b.2)).mono fun n hn => ?_
    simp only [List.map_cons, List.cons_append, List.mem_cons, List.mem_append] at hn ⊢
    tauto

theorem assign (h : Agree reads levels N σ τ) {n : String} (hn : n ∈ topNames levels N)
    (v : Value) : Agree reads levels N (σ.assign n v) (τ.assign n v) :=
  ⟨h.scopes.assign hn v, h.ghosts, h.world⟩

theorem withWorld (h : Agree reads levels N σ τ) (x : W) :
    Agree reads levels N { σ with world := x } { τ with world := x } :=
  ⟨h.scopes, h.ghosts, fun _ => rfl⟩

/-- Storing a callee's results into compared places. -/
theorem writeBack (h : Agree reads levels N σ τ) {ps : List (String × Option String)}
    {vs : List Value} {σ' : Store W} (hps : ps.map Prod.fst ⊆ topNames levels N)
    (hback : writeBack ps vs σ = some σ') :
    ∃ τ', Vani.Model.writeBack ps vs τ = some τ' ∧ Agree reads levels N σ' τ' := by
  induction ps generalizing vs σ τ with
  | nil =>
    cases vs with
    | nil => cases hback; exact ⟨τ, rfl, h⟩
    | cons v vs => cases hback
  | cons p ps ih =>
    obtain ⟨n, f⟩ := p
    cases vs with
    | nil => cases hback
    | cons v vs =>
      have hn : n ∈ topNames levels N := hps (List.mem_cons_self ..)
      have hlook := (h.scopes.lookup hn).1
      rw [Vani.Model.writeBack] at hback
      cases hs : lookupScopes σ.scopes n with
      | none => rw [hs] at hback; cases hback
      | some old =>
        rw [hs] at hback
        obtain ⟨τ', hτ', hag⟩ :=
          ih (h.assign hn _) (fun m hm => hps (List.mem_cons_of_mem _ hm)) hback
        refine ⟨τ', ?_, hag⟩
        rw [Vani.Model.writeBack, ← hlook, hs]
        exact hτ'

end Agree

/-! ## Evaluation -/

variable {P : Prims W} {T : Nominal}

/-- The names `names` are compared, and the worlds too if they are among them. -/
def Covered (reads : Prop) (names N : List String) : Prop :=
  names ⊆ N ∧ (worldName ∈ names → reads)

theorem Covered.sub {reads : Prop} {names names' N : List String}
    (h : Covered reads names N) (hsub : names' ⊆ names) : Covered reads names' N :=
  ⟨fun _ hn => h.1 (hsub hn), fun hw => h.2 (hsub hw)⟩

/-- What agreement gives for an evaluation: the same evaluation from the other store.
Block statements leave the names of what follows them, `tl`, in agreement. -/
def Follows (P : Prims W) (T : Nominal) (c : Code) (r : Result) (w : List String)
    (σ σ' : Store W) : Prop :=
  match c with
  | .expr e => ∀ reads levels N τ, Covered reads (exprNames P T e) (topNames levels N) →
      Agree reads levels N σ τ →
      ∃ τ', Eval P T c τ r τ' w ∧ Agree reads levels N σ' τ'
  | .args es => ∀ reads levels N τ, Covered reads (argsNames P T es) (topNames levels N) →
      Agree reads levels N σ τ →
      ∃ τ', Eval P T c τ r τ' w ∧ Agree reads levels N σ' τ'
  | .stmts ss => ∀ reads tl L levels N τ, Covered reads (blockNames P T ss tl) L →
      Agree reads (L :: levels) N σ τ →
      ∃ τ', Eval P T c τ r τ' w ∧ Agree reads ((tl ++ L) :: levels) N σ' τ'

theorem Eval.follows {c : Code} {σ σ' : Store W} {r : Result} {w : List String}
    (h : Eval P T c σ r σ' w) : Follows P T c r w σ σ' := by
  induction h with
  | literal hlit => exact fun _ _ _ τ _ hag => ⟨τ, .literal hlit, hag⟩
  | var hv =>
    intro _ _ _ τ hcov hag
    refine ⟨τ, .var ?_, hag⟩
    rw [← hag.lookup (hcov.1 (List.mem_singleton.2 rfl)), hv]
  | strict hop _ happ ih =>
    intro _ _ _ τ hcov hag
    obtain ⟨τ', hτ, hag'⟩ := ih _ _ _ τ (hcov.sub (operands_names hop)) hag
    exact ⟨τ', .strict hop hτ happ, hag'⟩
  | short _ hop hdec ih =>
    intro _ _ _ τ hcov hag
    obtain ⟨τ', hτ, hag'⟩ := ih _ _ _ τ (hcov.sub (List.subset_append_left ..)) hag
    exact ⟨τ', .short hτ hop hdec, hag'⟩
  | long _ hop hdec _ ih ih' =>
    intro _ _ _ τ hcov hag
    obtain ⟨τ', hτ, hag'⟩ := ih _ _ _ τ (hcov.sub (List.subset_append_left ..)) hag
    obtain ⟨τ'', hτ', hag''⟩ := ih' _ _ _ τ' (hcov.sub (List.subset_append_right ..)) hag'
    exact ⟨τ'', .long hτ hop hdec hτ', hag''⟩
  | pureCall hcall hpure _ hv hback ih =>
    intro _ _ _ τ hcov hag
    have hcov' := hcov.sub (asCall_names hcall)
    have hargs := hcov'.sub (List.subset_append_right ..)
    obtain ⟨τ', hτ, hag'⟩ := ih _ _ _ τ hargs hag
    obtain ⟨τ'', hback', hag''⟩ :=
      hag'.writeBack (fun _ hn => hargs.1 (mutTargets_names _ hn)) hback
    exact ⟨τ'', .pureCall hcall hpure hτ hv hback', hag''⟩
  | @call e n args vs v outs x σ σ' σ'' w hcall hpure _ hv hback ih =>
    intro reads _ _ τ hcov hag
    have hcov' := hcov.sub (asCall_names hcall)
    have hargs := hcov'.sub (List.subset_append_right ..)
    have hcallee : calleeNames P (some n) = [n, worldName] := by
      rw [calleeNames, hpure]
      rfl
    have hreads : reads := hcov'.2 (List.mem_append_left _ (by rw [hcallee]; simp))
    obtain ⟨τ', hτ, hag'⟩ := ih _ _ _ τ hargs hag
    have hn : σ'.lookup n = τ'.lookup n :=
      hag'.lookup (hcov'.1 (List.mem_append_left _ (by rw [hcallee]; simp)))
    obtain ⟨τ'', hback', hag''⟩ := (hag'.withWorld x).writeBack
      (fun _ hm => hargs.1 (mutTargets_names _ hm)) hback
    refine ⟨τ'', .call hcall hpure hτ ?_ hback', hag''⟩
    rw [← hn, ← hag'.world hreads]
    exact hv
  | @ifExpr c t f b v σ σ' σ'' w w' _ _ ih ih' =>
    intro _ _ _ τ hcov hag
    obtain ⟨τ', hτ, hag'⟩ := ih _ _ _ τ (hcov.sub (List.subset_append_left ..)) hag
    have hbranch : exprNames P T (if b then t else f) ⊆ exprNames P T (.ifExpr c t f) := by
      intro n hn
      cases b <;> simp only [exprNames, List.mem_append] <;> tauto
    obtain ⟨τ'', hτ', hag''⟩ := ih' _ _ _ τ' (hcov.sub hbranch) hag'
    exact ⟨τ'', .ifExpr hτ hτ', hag''⟩
  | @match_ s arms bs body u v σ σ' σ'' w w' _ hsel _ ih ih' =>
    intro reads levels N τ hcov hag
    obtain ⟨τ', hτ, hag'⟩ := ih _ _ _ τ (hcov.sub (List.subset_append_left ..)) hag
    have harms := hcov.sub (List.subset_append_right ..)
    have hbody : Covered reads (exprNames P T body)
        (bs.map Prod.fst ++ topNames levels N) := by
      refine ⟨fun n hn => ?_, fun hw => ?_⟩
      · rcases selectArm_names hsel n hn with hb | ha
        · exact List.mem_append_left _ hb.1
        · exact List.mem_append_right _ (harms.1 ha)
      · rcases selectArm_names hsel _ hw with hb | ha
        · exact absurd rfl hb.2
        · exact harms.2 ha
    obtain ⟨τ'', hτ', hag''⟩ := ih' _ _ _ _ hbody (hag'.push.declareAll bs)
    exact ⟨τ''.pop, .match_ hτ hsel hτ', hag''.pop⟩
  | @block ss tail v σ σ' σ'' w w' _ _ ih ih' =>
    intro reads levels N τ hcov hag
    obtain ⟨τ', hτ, hag'⟩ := ih _ (exprNames P T tail) _ _ _ _ hcov hag.push
    have htail : Covered reads (exprNames P T tail)
        (exprNames P T tail ++ topNames levels N) :=
      ⟨List.subset_append_left .., fun hw => hcov.2 (world_mem_blockNames hw ss)⟩
    obtain ⟨τ'', hτ', hag''⟩ := ih' _ _ _ _ htail hag'
    exact ⟨τ''.pop, .block hτ hτ', hag''.pop⟩
  | argsNil => exact fun _ _ _ τ _ hag => ⟨τ, .argsNil, hag⟩
  | argsCons _ _ ih ih' =>
    intro _ _ _ τ hcov hag
    obtain ⟨τ', hτ, hag'⟩ := ih _ _ _ τ (hcov.sub (List.subset_append_left ..)) hag
    obtain ⟨τ'', hτ', hag''⟩ := ih' _ _ _ τ' (hcov.sub (List.subset_append_right ..)) hag'
    exact ⟨τ'', .argsCons hτ hτ', hag''⟩
  | stmtsNil =>
    intro _ tl L _ _ τ hcov hag
    refine ⟨τ, .stmtsNil, hag.mono fun n hn => ?_⟩
    exact (List.mem_append.1 hn).elim (fun h => hcov.1 h) id
  | @let_ n ann e ss v v' σ σ' σ'' w w' hn _ hco _ ih ih' =>
    intro reads tl L levels N τ hcov hag
    obtain ⟨τ', hτ, hag'⟩ := ih _ (L :: levels) _ _ (hcov.sub (List.subset_append_left ..)) hag
    have hrest := hcov.sub (List.subset_append_right ..)
    have hcov' : Covered reads (blockNames P T ss tl) (n :: L) := by
      refine ⟨fun m hm => ?_, fun hw => hrest.2 (mem_without.2 ⟨hw, .inl rfl⟩)⟩
      by_cases hmn : m = n
      · exact hmn ▸ List.mem_cons_self ..
      · refine List.mem_cons_of_mem _ (hrest.1 (mem_without.2 ⟨hm, .inr ?_⟩))
        rwa [if_neg hn, List.mem_singleton]
    obtain ⟨τ'', hτ', hag''⟩ := ih' _ _ _ _ _ _ hcov' (hag'.declare n v')
    refine ⟨τ'', .let_ hn hτ hco hτ', hag''.mono fun m hm => ?_⟩
    simp only [List.mem_append, List.mem_cons] at hm ⊢
    tauto
  | @discard ann e ss v σ σ' σ'' w w' _ _ ih ih' =>
    intro reads tl L levels N τ hcov hag
    obtain ⟨τ', hτ, hag'⟩ := ih _ (L :: levels) _ _ (hcov.sub (List.subset_append_left ..)) hag
    have hrest : blockNames P T ss tl ⊆ blockNames P T (.let_ "_" ann e :: ss) tl :=
      fun m hm => List.mem_append_right _ (mem_without.2 ⟨hm, .inr (by simp)⟩)
    obtain ⟨τ'', hτ', hag''⟩ := ih' _ _ _ _ _ _ (hcov.sub hrest) hag'
    exact ⟨τ'', .discard hτ hτ', hag''⟩
  | @assign n e ss old v v' σ σ' σ'' w w' _ hold hco _ ih ih' =>
    intro reads tl L levels N τ hcov hag
    obtain ⟨τ', hτ, hag'⟩ := ih _ (L :: levels) _ _ (hcov.sub (List.subset_append_left ..)) hag
    have hrest := hcov.sub (List.subset_append_right ..)
    have hn : n ∈ L := hrest.1 (List.mem_cons_self ..)
    have hold' : lookupScopes τ'.scopes n = some old := by
      rw [← (hag'.scopes.lookup hn).1, hold]
    obtain ⟨τ'', hτ', hag''⟩ :=
      ih' _ _ _ _ _ _ (hrest.sub (List.subset_cons_self ..)) (hag'.assign hn v')
    exact ⟨τ'', .assign hτ hold' hco hτ', hag''⟩
  | print _ _ ih ih' =>
    intro reads tl L levels N τ hcov hag
    have hitems := hcov.sub (List.subset_append_left ..)
    rw [← argsNames_printExprs] at hitems
    obtain ⟨τ', hτ, hag'⟩ := ih _ (L :: levels) _ _ hitems hag
    obtain ⟨τ'', hτ', hag''⟩ := ih' _ _ _ _ _ _ (hcov.sub (List.subset_append_right ..)) hag'
    exact ⟨τ'', .print hτ hτ', hag''⟩
  | whileFalse _ _ ih ih' =>
    intro reads tl L levels N τ hcov hag
    obtain ⟨τ', hτ, hag'⟩ := ih _ (L :: levels) _ _ (hcov.sub (List.subset_append_left ..)) hag
    have hrest := (hcov.sub (List.subset_append_right ..)).sub (List.subset_append_right ..)
    obtain ⟨τ'', hτ', hag''⟩ := ih' _ _ _ _ _ _ hrest hag'
    exact ⟨τ'', .whileFalse hτ hτ', hag''⟩
  | whileTrue honly _ _ _ ih ih' ih'' =>
    intro reads tl L levels N τ hcov hag
    obtain ⟨τ', hτ, hag'⟩ := ih _ (L :: levels) _ _ (hcov.sub (List.subset_append_left ..)) hag
    have hbody := (hcov.sub (List.subset_append_right ..)).sub (List.subset_append_left ..)
    obtain ⟨τ'', hτ', hag''⟩ := ih' _ _ _ _ _ _ hbody hag'
    obtain ⟨τ₃, hτ'', hag₃⟩ := ih'' _ _ _ _ _ _ hcov hag''
    exact ⟨τ₃, .whileTrue honly hτ hτ' hτ'', hag₃⟩

end Vani.Analysis
