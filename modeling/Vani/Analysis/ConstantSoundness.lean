import Vani.Analysis.Constants

/-!
# Soundness of constant tracking

The checker's environment agrees with the store along every run whose steps assign no name
that has a tracked constant, in the environment in force or in one that an enclosing
construct goes back to. The second half is where the checker falls short: a loop body is
checked once, with the constants from before the loop, and the environment restored after
a construct forgets the assignments it finds, not those inside block expressions or behind
`mut ref` arguments.
-/

set_option autoImplicit false

namespace Vani.Analysis

open Vani.Program Vani.Model

variable {W : Type} {ctx : Context} {P : Prims W} {T : Nominal}

/-! ## The condition -/

/-- The environment in force again when the body of the construct is left; in a loop also
the one its next turn starts from. -/
def Frame.resumed : Frame → Env
  | .branch st _ t f _ _ => clearConstantsFor st.env (branchMutations t ++ branchMutations f)
  | fr => fr.st.env

/-- The name a statement list begins by assigning. -/
def assigned : List Stmt → Option String
  | .assign n _ :: _ => some n
  | _ => none

/-- No assigned name has a constant where an enclosing construct goes back to. Each
construct has opened one scope, so a name bound in that scope is not its business. -/
def FramesUntracked : List Frame → List Scope → List String → Prop
  | fr :: frs, s :: scopes, w =>
    Untracked (Frame.resumed fr) (passing w s) ∧ FramesUntracked frs scopes (passing w s)
  | _, _, _ => True

/-- A step that assigns no name with a tracked constant, other than by an assignment
statement, which makes the checker forget the constant. -/
structure Forgotten (ctx : Context) (P : Prims W) (T : Nominal) (c : Config W) (eff : Effect) :
    Prop where
  current : ∀ p, c.control = .point p → ∀ n, n ∈ eff.writes → assigned p.code ≠ some n →
    tracked p.st.env n = none
  head : ∀ fr, c.control = .head fr → Untracked fr.st.env eff.writes
  frames : FramesUntracked c.frames c.store.scopes eff.writes
  folds : ∀ st n ann e rest, c.control = .point ⟨st, .let_ n ann e :: rest⟩ →
    FoldsRight ctx P T st.env c.store e

/-- The same inside an evaluation. An assignment in a block expression makes the checker
forget nothing. -/
structure VisitForgotten (ctx : Context) (P : Prims W) (T : Nominal) (v : Visit W)
    (w : List String) : Prop where
  writes : Untracked v.env w
  folds : ∀ n ann e ss tail, v.spot = .block (.let_ n ann e :: ss) tail →
    FoldsRight ctx P T v.env v.store e

/-- Evaluating the expression assigns no name with a tracked constant, and folding is right
along the way. -/
structure EvalForgotten (ctx : Context) (P : Prims W) (T : Nominal) (env : Env) (σ : Store W)
    (e : Expr) : Prop where
  writes : ∀ r σ' w, Eval P T (.expr e) σ r σ' w → Untracked env w
  folds : FoldsRight ctx P T env σ e

/-! ## Agreement under the statement forms -/

variable {env : Env} {σ σ' τ : Store W} {scopes scopes' : List Scope}

/-- Forgetting constants keeps the agreement. -/
theorem Agrees.clear (h : Agrees env scopes) (names : List String) :
    Agrees (clearConstantsFor env names) scopes :=
  fun n c hn => h n c (tracked_clear hn)

/-- Binding a name to the value of its constant, if it has one. -/
theorem Agrees.declare (h : Agrees env σ.scopes) (hne : σ.scopes ≠ []) {n : String}
    {info : VarInfo} {v : Value} (hinfo : ∀ c, info.constant = some c → v = .scalar c) :
    Agrees (env.insertCurrent n info) (σ.declare n v).scopes := by
  intro m c hm
  have hcases := tracked_insertCurrent hm
  by_cases hmn : m = n
  · rw [if_pos hmn] at hcases
    rw [hmn, lookupScopes_declare_self hne, hinfo c hcases]
  · rw [if_neg hmn] at hcases
    rw [lookupScopes_declare σ v hmn]
    exact h m c hcases

/-- Binding names without constants. -/
theorem Agrees.declareAll (h : Agrees env σ.scopes) {bs : List (String × Value)}
    {names : List String} (types : List Ty) (hbs : bs.map Prod.fst = names) :
    Agrees (insertPlain env names types) (declareAll bs σ).scopes := by
  intro m c hm
  obtain ⟨hnot, henv⟩ := tracked_insertPlain hm
  rw [lookupScopes_declareAll σ (by rwa [hbs])]
  exact h m c henv

/-- An assignment after which the constant is forgotten. -/
theorem Agrees.assign (h : Agrees env σ.scopes) {w : List String} {n : String}
    (hw : Writes (w ++ [n]) σ τ) (hun : ∀ m, m ∈ w ++ [n] → n ≠ m → tracked env m = none) :
    Agrees (env.modify (fun info => { info with constant := none }) n) τ.scopes := by
  intro m c hm
  obtain ⟨hmn, henv⟩ := tracked_modify hm
  have hnot : m ∉ w ++ [n] := by
    intro hmem
    rw [hun m hmem (Ne.symm hmn)] at henv
    cases henv
  rw [hw.scopes.lookup hnot]
  exact h m c henv

/-- The value a `let` stores is the constant the checker records. -/
theorem letInfo_right (hfloat : ctx.floatFold = P.floatFold) {st : CheckState} {ann : Option Ty}
    {e : Expr} {v v' : Value} {w : List String} (hagree : Agrees st.env σ.scopes)
    (heval : Eval P T (.expr e) σ (.val v) σ' w) (hco : coerce P ann v = some v')
    (hun : Untracked st.env w) (hright : FoldsRight ctx P T st.env σ e) (c : Scalar)
    (hc : (letInfo ctx st ann e).constant = some c) : v' = .scalar c := by
  unfold letInfo at hc
  cases he : constOf ctx st.env e with
  | none =>
    rw [he] at hc
    cases hc
  | some a =>
    rw [he] at hc
    obtain rfl := constOf_sound hfloat e he heval hagree hun hright
    exact coerce_of_constant hfloat hc hco

/-! ## The invariant -/

/-- Every environment an enclosing construct goes back to agrees with the scopes that will
be open then. -/
def FramesAgree : List Frame → List Scope → Prop
  | [], _ => True
  | fr :: frs, scopes => Agrees (Frame.resumed fr) scopes.tail ∧ FramesAgree frs scopes.tail

theorem FramesAgree.of_tail {frs : List Frame} (h : FramesAgree frs scopes)
    (htail : scopes'.tail = scopes.tail) : FramesAgree frs scopes' := by
  cases frs with
  | nil => trivial
  | cons fr frs =>
    rw [FramesAgree, htail]
    exact h

theorem FramesAgree.writes {frs : List Frame} {w : List String} (h : FramesAgree frs scopes)
    (hw : ScopesWrite w scopes scopes') (hun : FramesUntracked frs scopes w) :
    FramesAgree frs scopes' := by
  induction frs generalizing scopes scopes' w with
  | nil => trivial
  | cons fr frs ih =>
    cases hw with
    | nil => exact h
    | cons _ htail => exact ⟨h.1.writes htail hun.1, ih h.2 htail hun.2⟩

/-- What the environment says where control is. -/
def ControlAgrees (scopes : List Scope) : Control → Prop
  | .point p => Agrees p.st.env scopes
  | .head fr => Agrees fr.st.env scopes
  | .leaving _ => True

/-- The environments in force, now and later, agree with the store. -/
structure Right (c : Config W) : Prop where
  depth : c.frames.length < c.store.scopes.length
  control : ControlAgrees c.store.scopes c.control
  frames : FramesAgree c.frames c.store.scopes

variable {frs : List Frame} {w : List String} {st : CheckState} {s : Stmt} {rest : List Stmt}
  {eff : Effect}

/-- A step that writes and then binds in the innermost scope. -/
theorem Right.pass {control control' : Control} (h : Right ⟨control, frs, σ⟩)
    (hun : FramesUntracked frs σ.scopes w) (hw : Writes w σ τ) (hpop : σ'.pop = τ.pop)
    (hlen : σ'.scopes.length = τ.scopes.length) (hcontrol : ControlAgrees σ'.scopes control') :
    Right ⟨control', frs, σ'⟩ := by
  refine ⟨?_, hcontrol, ?_⟩
  · have hdepth := h.depth
    have hsame := hw.scopes.length_eq
    simp only at hdepth ⊢
    omega
  · exact (h.frames.writes hw.scopes hun).of_tail (congrArg Store.scopes hpop)

/-- Entering the body of a construct. -/
theorem Right.enter {control : Control} {fr : Frame} {p : Point} (h : Right ⟨control, frs, σ⟩)
    (hun : FramesUntracked frs σ.scopes w) (hw : Writes w σ τ) (hpop : σ'.pop = τ)
    (hlen : σ'.scopes.length = τ.scopes.length + 1) (hpoint : Agrees p.st.env σ'.scopes)
    (hfr : Agrees (Frame.resumed fr) τ.scopes) : Right ⟨.point p, fr :: frs, σ'⟩ := by
  have htail : σ'.scopes.tail = τ.scopes := congrArg Store.scopes hpop
  refine ⟨?_, hpoint, ?_⟩
  · have hdepth := h.depth
    have hsame := hw.scopes.length_eq
    simp only [List.length_cons] at hdepth ⊢
    omega
  · rw [FramesAgree, htail]
    exact ⟨hfr, h.frames.writes hw.scopes hun⟩

/-- Leaving the body of a construct. -/
theorem Right.leave {control control' : Control} {fr : Frame}
    (h : Right ⟨control, fr :: frs, σ⟩)
    (hcontrol : Agrees (Frame.resumed fr) σ.pop.scopes → ControlAgrees σ.pop.scopes control') :
    Right ⟨control', frs, σ.pop⟩ := by
  refine ⟨?_, hcontrol h.frames.1, h.frames.2⟩
  have hdepth := h.depth
  simp only [List.length_cons, Store.pop, List.length_tail] at hdepth ⊢
  omega

/-- Nothing but an assignment statement may assign a tracked name. -/
theorem Forgotten.untracked {p : Point} (hK : Forgotten ctx P T ⟨.point p, frs, σ⟩ eff)
    (hcode : assigned p.code = none) : Untracked p.st.env eff.writes :=
  fun n hn => hK.current p rfl n hn (by rw [hcode]; simp)

/-- A `let`. -/
theorem Right.let_ (hfloat : ctx.floatFold = P.floatFold) {n : String} {ann : Option Ty}
    {e : Expr} {v v' : Value} (h : Right ⟨.point ⟨st, .let_ n ann e :: rest⟩, frs, σ⟩)
    (hK : Forgotten ctx P T ⟨.point ⟨st, .let_ n ann e :: rest⟩, frs, σ⟩ ⟨w, [n]⟩)
    (hn : n ≠ "_") (heval : Eval P T (.expr e) σ (.val v) σ' w)
    (hco : coerce P ann v = some v') :
    Right ⟨.point ⟨afterStmt ctx st (.let_ n ann e), rest⟩, frs, σ'.declare n v'⟩ := by
  have hun : Untracked st.env w := hK.untracked rfl
  have hw := Eval.writes heval
  have hne : σ'.scopes ≠ [] := by
    have hdepth := h.depth
    have hlen := hw.scopes.length_eq
    intro hnil
    rw [hnil] at hlen
    simp only [hlen, List.length_nil] at hdepth
    omega
  have hagree : Agrees st.env σ'.scopes := Agrees.writes h.control hw.scopes hun
  refine h.pass hK.frames hw (by simp) (by simp) ?_
  rw [afterStmt, if_neg hn]
  exact hagree.declare hne
    (letInfo_right hfloat h.control heval hco hun (hK.folds st n ann e rest rfl))

/-- Every step that assigns no tracked name keeps the environments right. -/
theorem Right.step (hfloat : ctx.floatFold = P.floatFold) {c c' : Config W} (h : Right c)
    (hK : Forgotten ctx P T c eff) (hstep : Step ctx P T c eff c') : Right c' := by
  cases hstep with
  | let_ hn heval hco => exact h.let_ hfloat hK hn heval hco
  | discard heval =>
    have hw := Eval.writes heval
    exact h.pass hK.frames hw rfl rfl (Agrees.writes h.control hw.scopes (hK.untracked rfl))
  | @letTuple st names ann e rest frs σ vs σ' w heval hlen =>
    have hw := Eval.writes heval
    have hagree : Agrees st.env σ'.scopes :=
      Agrees.writes h.control hw.scopes (hK.untracked rfl)
    refine h.pass hK.frames hw (by simp) (by simp) ?_
    exact hagree.declareAll _ (by simp [List.map_fst_zip (Nat.le_of_eq hlen)])
  | @assign st n e rest frs σ old v v' σ' w heval hold hco =>
    have hw := (Eval.writes heval).trans (Writes.assign σ' n v')
    refine h.pass hK.frames hw rfl rfl (Agrees.assign h.control hw fun m hm hne => ?_)
    exact hK.current _ rfl m hm (by simpa [assigned] using hne)
  | @indexAssign st n i path e rest frs σ t b k v v' vs old slot stale σ' σ'' w w' hi he hn hk hold
      hslot hco hstale =>
    have hw := ((Eval.writes hi).trans (Eval.writes he)).trans (Writes.assign σ'' n
      (.seq (vs.set k.toNat (updatePath path old v'))))
    have hsub : ∀ m, m ∈ (w ++ w') ++ [n] → m ∈ w ++ w' ++ (n :: versioned n
        (currentVersion st n + 1) :: if stale then [versioned n (currentVersion st n)] else []) := by
      intro m hm
      simp only [List.mem_append, List.mem_cons] at hm ⊢
      tauto
    have hscopes := hw.scopes.mono hsub
    have hagree := Agrees.writes h.control hscopes (hK.untracked rfl)
    refine ⟨?_, ?_, h.frames.writes hscopes hK.frames⟩
    · have hdepth := h.depth
      have hlen := hscopes.length_eq
      simp only [Store.snapshot] at hdepth ⊢
      omega
    · intro m c hm
      exact hagree m c (by rwa [afterStmt, tracked_version (· + 1)] at hm)
  | @fieldAssign st obj f e rest frs σ v v' n path old slot σ' w heval hplace hold hslot hco =>
    have hw := (Eval.writes heval).trans
      (Writes.assign σ' n (updatePath (path ++ [f]) old v'))
    exact h.pass hK.frames hw rfl rfl (Agrees.writes h.control hw.scopes (hK.untracked rfl))
  | assert heval =>
    have hw := Eval.writes heval
    exact h.pass hK.frames hw rfl rfl (Agrees.writes h.control hw.scopes (hK.untracked rfl))
  | prove => exact h.pass hK.frames Writes.refl rfl rfl h.control
  | print heval =>
    have hw := Eval.writes_args heval
    exact h.pass hK.frames hw rfl rfl (Agrees.writes h.control hw.scopes (hK.untracked rfl))
  | @spawn st n body rest frs σ i =>
    have hne : σ.scopes ≠ [] := List.ne_nil_of_length_pos (Nat.zero_lt_of_lt h.depth)
    have hagree : Agrees st.env σ.scopes := h.control
    exact h.pass hK.frames Writes.refl (by simp) (by simp)
      (hagree.declare hne fun c hc => by cases hc)
  | enterTask => exact ⟨by simp [Store.push], Agrees.pushScope h.control, trivial⟩
  | join => exact h.pass hK.frames Writes.refl rfl rfl h.control
  | if_ heval =>
    have hw := Eval.writes heval
    have hagree := Agrees.writes h.control hw.scopes (hK.untracked rfl)
    exact h.enter hK.frames hw rfl rfl hagree.pushScope (hagree.clear _)
  | while_ => exact h.pass hK.frames Writes.refl rfl rfl h.control
  | for_ hs he hk hl =>
    have hw := (Eval.writes hs).trans (Eval.writes he)
    exact h.pass hK.frames hw rfl rfl (Agrees.writes h.control hw.scopes (hK.untracked rfl))
  | forIter _ => exact h.pass hK.frames Writes.refl rfl rfl h.control
  | whileTrue heval =>
    have hw := Eval.writes heval
    have hagree := Agrees.writes h.control hw.scopes (hK.head _ rfl)
    exact h.enter hK.frames hw rfl rfl hagree.pushScope hagree
  | whileFalse heval =>
    have hw := Eval.writes heval
    have hagree := Agrees.writes h.control hw.scopes (hK.head _ rfl)
    exact h.pass hK.frames hw rfl rfl (hagree.clear _)
  | @forTrue st x s e invs body par reds v limit rest frs σ hlt =>
    have hagree : Agrees st.env σ.scopes := h.control
    refine h.enter hK.frames Writes.refl (by simp) (by simp [Store.push]) ?_ hagree
    exact Agrees.declare (σ := σ.push) hagree.pushScope (by simp [Store.push])
      fun c hc => by cases hc
  | forFalse _ => exact h.pass hK.frames Writes.refl rfl rfl (Agrees.clear h.control _)
  | @iterTrue st x xs consumes body k total rest frs σ vs v _ _ _ =>
    have hagree : Agrees st.env σ.scopes := h.control
    refine h.enter hK.frames Writes.refl (by simp) (by simp [Store.push]) ?_ hagree
    exact Agrees.declare (σ := σ.push) hagree.pushScope (by simp [Store.push])
      fun c hc => by cases hc
  | iterFalse _ => exact h.pass hK.frames Writes.refl rfl rfl (Agrees.clear h.control _)
  | leave _ => exact ⟨h.depth, trivial, h.frames⟩
  | @branchOut s st c t f b rest frs σ =>
    refine h.leave fun hresumed => ?_
    cases s with
    | normal => exact hresumed
    | brk => trivial
    | cont => trivial
  | @loopBreak fr frs σ hloop =>
    refine h.leave fun hresumed => ?_
    cases fr with
    | branch _ _ _ _ _ _ => cases hloop
    | while_ _ _ _ _ _ => exact hresumed.clear _
    | for_ _ _ _ _ _ _ _ _ _ _ _ => exact hresumed.clear _
    | forIter _ _ _ _ _ _ _ _ => exact hresumed.clear _
  | @again s fr fr' frs σ _ hnext =>
    refine h.leave fun hresumed => ?_
    have hst : fr'.st.env = Frame.resumed fr := by
      cases fr with
      | branch _ _ _ _ _ _ => cases hnext
      | while_ _ _ _ _ _ => cases hnext; rfl
      | forIter _ _ _ _ _ _ _ _ => cases hnext; rfl
      | for_ _ _ _ _ _ _ _ _ _ _ _ =>
        rw [Frame.advance] at hnext
        split at hnext
        · obtain ⟨v, -, rfl⟩ := Option.map_eq_some_iff.1 hnext
          rfl
        · cases hnext
    rw [ControlAgrees, hst]
    exact hresumed

/-! ## Inside expressions -/

/-- The environment is right at a moment of an evaluation. -/
structure VisitRight (v : Visit W) : Prop where
  agrees : Agrees v.env v.store.scopes
  nonempty : v.store.scopes ≠ []

/-- Opening a scope and binding names without constants. -/
theorem VisitRight.bind {spot spot' : Spot} (h : VisitRight ⟨env, spot, σ⟩)
    (hw : Writes w σ τ) (hun : Untracked env w) (bs : List (String × Value)) (types : List Ty) :
    VisitRight ⟨insertPlain env.pushScope (bs.map Prod.fst) types, spot',
      declareAll bs τ.push⟩ := by
  have hagree := (h.agrees.writes hw.scopes hun).pushScope
  refine ⟨Agrees.declareAll (σ := τ.push) hagree types rfl, ?_⟩
  refine List.ne_nil_of_length_pos ?_
  simp [Store.push]

/-- Evaluating a part that assigns no tracked name. -/
theorem VisitRight.after {spot spot' : Spot} (h : VisitRight ⟨env, spot, σ⟩)
    (hw : Writes w σ τ) (hun : Untracked env w) : VisitRight ⟨env, spot', τ⟩ := by
  refine ⟨h.agrees.writes hw.scopes hun, fun hnil => h.nonempty ?_⟩
  have hlen := hw.scopes.length_eq
  simp only at hnil
  rw [hnil] at hlen
  exact List.length_eq_zero_iff.1 hlen

/-- The body of a `while` in a block expression binds nothing. -/
theorem Eval.writes_stmts {ss : List Stmt} {r : Result} (hss : onlyWrites ss = true)
    (h : Eval P T (.stmts ss) σ r σ' w) : Writes w σ σ' := by
  induction ss generalizing σ w with
  | nil =>
    cases h
    exact Writes.refl
  | cons s ss ih =>
    cases h with
    | let_ _ _ _ _ => cases hss
    | discard _ _ => cases hss
    | assign heval _ _ hrest =>
      have hw := (Eval.writes heval).trans ((Writes.assign _ _ _).trans (ih hss hrest))
      exact hw
    | print heval hrest => exact (Eval.writes_args heval).trans (ih hss hrest)
    | whileFalse _ _ => cases hss
    | whileTrue _ _ _ _ => cases hss

/-- Descending keeps the environment right. -/
theorem VisitRight.step (hfloat : ctx.floatFold = P.floatFold) {v v' : Visit W}
    (h : VisitRight v) (hK : VisitForgotten ctx P T v w) (hstep : Descends ctx P T v w v') :
    VisitRight v' := by
  cases hstep with
  | operands _ => exact ⟨h.agrees, h.nonempty⟩
  | callArgs _ => exact ⟨h.agrees, h.nonempty⟩
  | left _ => exact ⟨h.agrees, h.nonempty⟩
  | right _ hl _ => exact h.after (Eval.writes hl) hK.writes
  | cond => exact ⟨h.agrees, h.nonempty⟩
  | branch hc => exact h.after (Eval.writes hc) hK.writes
  | scrutinee => exact ⟨h.agrees, h.nonempty⟩
  | arm hs hsel => exact h.bind (Eval.writes hs) hK.writes _ _
  | block => exact ⟨h.agrees.pushScope, by simp [Store.push]⟩
  | head => exact ⟨h.agrees, h.nonempty⟩
  | tail he => exact h.after (Eval.writes he) hK.writes
  | blockTail => exact ⟨h.agrees, h.nonempty⟩
  | letInit => exact ⟨h.agrees, h.nonempty⟩
  | @letRest env n ann e ss tail v v' σ σ' w hn heval hco =>
    have hafter : VisitRight ⟨env, .block ss tail, σ'⟩ := h.after (Eval.writes heval) hK.writes
    refine ⟨hafter.agrees.declare hafter.nonempty ?_, ?_⟩
    · exact letInfo_right hfloat h.agrees heval hco hK.writes
        (hK.folds n ann e ss tail rfl)
    · have hlen := List.length_pos_iff.2 hafter.nonempty
      exact List.length_pos_iff.1 (by simpa using hlen)
  | discardRest heval => exact h.after (Eval.writes heval) hK.writes
  | assignValue => exact ⟨h.agrees, h.nonempty⟩
  | assignRest heval _ _ =>
    exact h.after ((Eval.writes heval).trans (Writes.assign _ _ _)) hK.writes
  | printItems => exact ⟨h.agrees, h.nonempty⟩
  | printRest heval => exact h.after (Eval.writes_args heval) hK.writes
  | whileCond => exact ⟨h.agrees, h.nonempty⟩
  | whileBody _ hc => exact h.after (Eval.writes hc) hK.writes
  | whileAgain honly hc hbody =>
    exact h.after ((Eval.writes hc).trans (Eval.writes_stmts honly hbody)) hK.writes
  | whileRest hc => exact h.after (Eval.writes hc) hK.writes

/-- What constant tracking promises about a configuration: the environment is right at the
point, and at every moment of the evaluations performed from it; and an element access
whose bounds check was removed for a constant index is in bounds. -/
structure ConstantsHold (ctx : Context) (P : Prims W) (T : Nominal) (c : Config W) : Prop where
  point : ∀ p, c.control = .point p → Agrees p.st.env c.store.scopes
  inside : ∀ v₀ v, Enters c v₀ → Visits ctx P T (VisitForgotten ctx P T) v₀ v →
    Agrees v.env v.store.scopes
  read : ∀ v₀ v a i length, Enters c v₀ → Visits ctx P T (VisitForgotten ctx P T) v₀ v →
    v.spot = .expr (.index a i) → uncheckedRead ctx v.env a i = some length →
    EvalForgotten ctx P T v.env v.store a → ∀ u σ' w t b k σ'' w',
      Eval P T (.expr a) v.store (.val u) σ' w → EvalForgotten ctx P T v.env σ' i →
      Eval P T (.expr i) σ' (.val (.scalar (.int t b k))) σ'' w' → 0 ≤ k ∧ k < length
  write : ∀ st n i path e rest length, c.control = .point ⟨st, .indexAssign n i path e :: rest⟩ →
    uncheckedWrite ctx st.env n i = some length → EvalForgotten ctx P T st.env c.store i →
    ∀ t b k σ' w, Eval P T (.expr i) c.store (.val (.scalar (.int t b k))) σ' w →
      0 ≤ k ∧ k < length

/-- An index with a constant is within the bounds that were checked at compile time. -/
theorem index_in_bounds (hfloat : ctx.floatFold = P.floatFold) {i : Expr} {length : Nat}
    {t t' : IntTy} {b b' : Bool} {k k' : Int} (hc : constOf ctx env i = some (.int t' b' k'))
    (hrange : 0 ≤ k' ∧ k' < length) (hagree : Agrees env σ.scopes)
    (hi : EvalForgotten ctx P T env σ i)
    (heval : Eval P T (.expr i) σ (.val (.scalar (.int t b k))) σ' w) :
    0 ≤ k ∧ k < length := by
  cases constOf_sound hfloat i hc heval hagree (hi.writes _ _ _ heval) hi.folds
  exact hrange

/-- A checker with a solver that proves nothing. -/
def plainChecker : Context where
  typeOf _ _ := .int .i64
  signatures _ := none
  floatFold _ _ := none
  proves _ _ := False

/-- A program without nominal types. -/
def bareNominal : Nominal := ⟨fun _ => false, fun _ => false⟩

/-- `xs[i] = 1` -/
def writeSlot : Stmt := .indexAssign "xs" (.var "i") [] (.int 1)

/-- `i < 2` -/
def iBelowTwo : Expr := .binary .lt (.var "i") (.int 2)

/-- `i = i + 1` -/
def countUp : Stmt := .assign "i" (.binary .add (.var "i") (.int 1))

/-- The first program of the section header. -/
def put : Function where
  name := "put"
  params := [⟨"xs", .array (.int .i64) 1⟩]
  returnType := .int .i64
  requires := []
  ensures := []
  body := [.let_ "i" none (.int 0), writeSlot, .return_ (.var "i")]
  isPure := false

/-- The second program of the section header. -/
def walk : Function where
  name := "walk"
  params := [⟨"xs", .array (.int .i64) 1⟩]
  returnType := .int .i64
  requires := []
  ensures := []
  body := [.let_ "i" none (.int 0), .while_ iBelowTwo [] [writeSlot, countUp],
    .return_ (.var "i")]
  isPure := false

/-- The environment of a function of one array. -/
def arrayEnv : Env := [[("xs", plainInfo (.array (.int .i64) 1))]]

/-- An `i64`. -/
def i64Value (k : Int) : Value := .scalar (.int .i64 false k)

/-- A store that binds `xs` alone. -/
def arrayStore : Store Unit :=
  ⟨[Function.update (fun _ => none) "xs" (some (.seq [i64Value 7]))], fun _ => none, ()⟩

theorem arrayEnv_agrees : Agrees arrayEnv arrayStore.scopes := by
  intro n c hn
  have hnone : tracked arrayEnv n = none := by
    by_cases hx : n = "xs"
    · simp [tracked, arrayEnv, Env.lookup, hx, plainInfo]
    · simp [tracked, arrayEnv, Env.lookup, lookup_cons_if, hx]
  rw [hnone] at hn
  cases hn

/-- `i < 2` where `i` is 0 or 1. -/
theorem iBelowTwo_true {σ : Store Unit} {k : Int} (hi : σ.lookup "i" = some (i64Value k))
    (hk : k < 2) : Eval Prims.bare bareNominal (.expr iBelowTwo) σ
      (.val (.scalar (.bool true))) σ ([] ++ ([] ++ [])) := by
  refine .strict rfl (.argsCons (.var hi) (.argsCons (.literal rfl) .argsNil)) ?_
  rw [StrictOp.apply_binary]
  refine Prims.runBinary_of_fold _ ?_
  simp [foldBinary, compareIntegers, hk]

/-- The first step of `put` assigns nothing. -/
theorem put_forgotten : Forgotten plainChecker Prims.bare bareNominal
    ⟨.point ⟨entryState arrayEnv put, put.body⟩, [], arrayStore⟩ ⟨[], ["i"]⟩ where
  current p _ n hn := absurd hn List.not_mem_nil
  head fr hfr := by cases hfr
  frames := trivial
  folds st n ann e rest hst := by
    cases hst
    trivial

/-- `i + 1` where `i` is 0. -/
theorem countUp_value {σ : Store Unit} (hi : σ.lookup "i" = some (i64Value 0)) :
    Eval Prims.bare bareNominal (.expr (.binary .add (.var "i") (.int 1))) σ (.val (i64Value 1))
      σ ([] ++ ([] ++ [])) := by
  refine .strict rfl (.argsCons (.var hi) (.argsCons (.literal rfl) .argsNil)) ?_
  rw [StrictOp.apply_binary]
  refine Prims.runBinary_of_fold _ ?_
  simp [foldBinary, promotedIntegerType, adaptedIntegerLiteralType, commonIntegerType, signedType,
    valueFitsType, evalIntegerBinary, exactInteger, IntTy.isSigned, IntTy.bits, IntTy.minValue,
    IntTy.maxValue]

end Vani.Analysis
