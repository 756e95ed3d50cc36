import Vani.Analysis.Careful

/-!
# Soundness of the fact list

Along every run whose steps respect the fact list (`Careful`), every fact the checker
holds at the point reached is true of the store, so a goal the solver proves from these
facts holds there. The invariant speaks of the facts at the current point and, frame by
frame, of the facts each open construct restores when it ends, read in the store without
the scopes opened inside.
-/

set_option autoImplicit false

namespace Vani.Analysis

open Vani.Program Vani.Model

variable {W : Type} {ctx : Context} {P : Prims W} {T : Nominal} {σ σ' τ : Store W}

/-! ## What a step does to the store -/

/-- The binding of a name in the innermost scope alone. -/
def topScope (σ : Store W) (n : String) : Option Value :=
  match σ.scopes with
  | [] => none
  | s :: _ => s n

/-- A step touches the listed names only: it writes in any scope, binds in the innermost. -/
structure Touches (eff : Effect) (σ σ' : Store W) : Prop where
  tail : Writes eff.writes σ.pop σ'.pop
  top : ∀ n, n ∉ eff.writes → n ∉ eff.declares → topScope σ' n = topScope σ n
  depth : σ'.scopes.length = σ.scopes.length

theorem lookupScopes_eq_top (σ : Store W) (n : String) :
    lookupScopes σ.scopes n =
      match topScope σ n with
      | some v => some v
      | none => lookupScopes σ.pop.scopes n := by
  unfold topScope Store.pop
  cases σ.scopes <;> rfl

theorem Writes.touches {w : List String} (h : Writes w σ σ') : Touches ⟨w, []⟩ σ σ' := by
  refine ⟨h.pop, fun n hn _ => ?_, h.scopes.length_eq.symm⟩
  have hs := h.scopes
  unfold topScope
  generalize σ.scopes = a at hs
  generalize σ'.scopes = b at hs
  cases hs with
  | nil => rfl
  | cons hs _ => exact hs.keep n hn

theorem Touches.declare {eff : Effect} (h : Touches eff σ σ') (n : String) (v : Value) :
    Touches ⟨eff.writes, n :: eff.declares⟩ σ (σ'.declare n v) := by
  refine ⟨by rw [pop_declare]; exact h.tail, fun m hw hd => ?_, ?_⟩
  · rw [List.mem_cons, not_or] at hd
    rw [← h.top m hw hd.2]
    unfold topScope Store.declare
    cases hs : σ'.scopes with
    | nil => simp [hs]
    | cons s rest => simp [Function.update_of_ne hd.1]
  · rw [← h.depth]
    unfold Store.declare
    cases hs : σ'.scopes with
    | nil => simp [hs]
    | cons s rest => rfl

theorem Touches.declareAll {eff : Effect} (h : Touches eff σ σ') (bs : List (String × Value)) :
    Touches ⟨eff.writes, (bs.map Prod.fst).reverse ++ eff.declares⟩ σ (declareAll bs σ') := by
  induction bs generalizing eff σ' with
  | nil => exact h
  | cons b bs ih =>
    obtain ⟨n, v⟩ := b
    have hrest := ih (h.declare n v)
    rw [Vani.Model.declareAll]
    simpa using hrest

theorem Touches.mono {eff eff' : Effect} (h : Touches eff σ σ')
    (hw : eff.writes ⊆ eff'.writes) (hd : eff.declares ⊆ eff'.declares) :
    Touches eff' σ σ' :=
  ⟨h.tail.mono hw, fun n hn hn' => h.top n (fun h => hn (hw h)) fun h => hn' (hd h), h.depth⟩

/-- Facts that depend on no touched name are read alike before and after. -/
theorem Touches.sameFor {eff : Effect} (h : Touches eff σ σ') {f : Expr}
    (hf : Untouched P T (eff.writes ++ eff.declares) f) : SameFor P T f σ σ' := by
  have hnot : ∀ n, n ∈ exprNames P T f → n ∉ eff.writes ∧ n ∉ eff.declares := fun n hn =>
    ⟨fun hw => hf n (List.mem_append_left _ hw) hn,
      fun hd => hf n (List.mem_append_right _ hd) hn⟩
  refine ⟨fun n hn => ?_, fun n hn => ?_, fun hw => ?_⟩
  · obtain ⟨hnw, hnd⟩ := hnot n hn
    rw [lookupScopes_eq_top σ, lookupScopes_eq_top σ', h.top n hnw hnd, h.tail.scopes.lookup hnw]
  · exact (h.tail.ghosts n (hnot n hn).1).symm
  · exact (h.tail.world (hnot _ hw).1).symm

/-! ## The invariant -/

/-- The counter of a range loop lies between the bounds, which evaluate as on entry. -/
def RangeOk (P : Prims W) (T : Nominal) (σ : Store W) : Frame → Prop
  | .for_ _ _ s e _ _ _ _ next limit _ => ∃ t ts te bs be k₀ k l,
      next = .scalar (.int t false k) ∧ limit = .scalar (.int t false l) ∧
      k₀ ≤ k ∧ t.minValue ≤ k ∧ l ≤ t.maxValue ∧
      (∃ σ' w, Eval P T (.expr s) σ (.val (.scalar (.int ts bs k₀))) σ' w) ∧
      ∃ σ' w, Eval P T (.expr e) σ (.val (.scalar (.int te be l))) σ' w
  | _ => True

/-- In the body of a range loop the variable is the counter, and below the limit. -/
def CounterOk (P : Prims W) (σ : Store W) : Frame → Prop
  | .for_ _ x _ _ _ _ _ _ next limit _ => topScope σ x = some next ∧
      P.runBinary .lt next limit = some (.scalar (.bool true))
  | _ => True

/-- The loops of the statements around and after a point are accepted. -/
def FrameProved (ctx : Context) (fr : Frame) : Prop :=
  loopsProved ctx fr.st fr.stmt ∧ loopsProvedAll ctx (fr.exit ctx).st fr.rest

/-- Every open construct can restore its facts when the scopes inside it are gone. -/
def FramesOk (ctx : Context) (P : Prims W) (T : Nominal) : List Frame → Store W → Prop
  | [], _ => True
  | fr :: frs, σ => FactsHold P T σ.pop (Frame.kept fr) ∧ RangeOk P T σ.pop fr ∧
      CounterOk P σ fr ∧ FrameProved ctx fr ∧ FramesOk ctx P T frs σ.pop

/-- The code still to run in the innermost body belongs to that body: a `break` in it is
one of the body's, and where the body never reaches its end, neither does the rest. -/
def Nested : List Stmt → List Frame → Prop
  | _, [] => True
  | code, fr :: frs => (containsBreak code = true → containsBreak fr.body = true) ∧
      (listTerminates fr.body = true → listTerminates code = true) ∧
      Nested (fr.stmt :: fr.rest) frs

/-- A statement list that leaves a body in the given way. -/
def signalCode : Signal → List Stmt
  | .normal => []
  | .brk => [.break_]
  | .cont => [.continue_]

/-- The code a control state stands for. -/
def controlCode : Control → List Stmt
  | .point p => p.code
  | .head fr => fr.stmt :: fr.rest
  | .leaving s => signalCode s

/-- What holds of the control state itself. -/
def ControlOk (ctx : Context) (P : Prims W) (T : Nominal) (σ : Store W) : Control → Prop
  | .point p => FactsHold P T σ p.st.facts ∧ loopsProvedAll ctx p.st p.code
  | .head fr => fr.isLoop = true ∧ FactsHold P T σ (Frame.kept fr) ∧ RangeOk P T σ fr ∧
      FrameProved ctx fr
  | .leaving _ => True

/-- The invariant of the run. -/
structure Sound (ctx : Context) (P : Prims W) (T : Nominal) (c : Config W) : Prop where
  depth : c.frames.length < c.store.scopes.length
  control : ControlOk ctx P T c.store c.control
  frames : FramesOk ctx P T c.frames c.store
  nested : Nested (controlCode c.control) c.frames

/-! ## Frames across a step -/

theorem FramesOk.step {eff : Effect} {frs : List Frame} (h : FramesOk ctx P T frs σ)
    (ht : Touches eff σ σ')
    (hrestored : ∀ fr, fr ∈ frs → ∀ f, f ∈ Frame.kept fr ++ Frame.bounds fr →
      Untouched P T eff.writes f)
    (hcounters : ∀ fr, fr ∈ frs → ∀ x, Frame.counter fr = some x → x ∉ eff.writes)
    (hcounter : ∀ fr, frs.head? = some fr → ∀ x, Frame.counter fr = some x → x ∉ eff.declares) :
    FramesOk ctx P T frs σ' := by
  induction frs generalizing eff σ σ' with
  | nil => trivial
  | cons fr frs ih =>
    obtain ⟨hfacts, hrange, hcount, hproved, hrest⟩ := h
    have hwrites := ht.tail
    have hspared := hrestored fr (List.mem_cons_self ..)
    refine ⟨?_, ?_, ?_, hproved, ?_⟩
    · exact hfacts.transfer fun f hf =>
        hwrites.sameFor (hspared f (List.mem_append_left _ hf))
    · cases fr with
      | for_ st x s e invs body par reds next limit rest =>
        obtain ⟨t, ts, te, bs, be, k₀, k, l, hn, hl, hk, hmin, hmax, ⟨σ₁, w₁, hs⟩, σ₂, w₂, he⟩ :=
          hrange
        have hs' := (hwrites.sameFor (hspared s (by simp [Frame.bounds]))).eval hs
        have he' := (hwrites.sameFor (hspared e (by simp [Frame.bounds]))).eval he
        obtain ⟨τ₁, hs'⟩ := hs'
        obtain ⟨τ₂, he'⟩ := he'
        exact ⟨t, ts, te, bs, be, k₀, k, l, hn, hl, hk, hmin, hmax, ⟨τ₁, w₁, hs'⟩, τ₂, w₂, he'⟩
      | _ => trivial
    · cases fr with
      | for_ st x s e invs body par reds next limit rest =>
        refine ⟨?_, hcount.2⟩
        rw [ht.top x (hcounters _ (List.mem_cons_self ..) x rfl) (hcounter _ rfl x rfl)]
        exact hcount.1
      | _ => trivial
    · refine ih hrest hwrites.touches (fun fr' hfr => hrestored fr' (List.mem_cons_of_mem _ hfr))
        (fun fr' hfr => hcounters fr' (List.mem_cons_of_mem _ hfr)) fun _ _ _ _ => ?_
      exact List.not_mem_nil

/-! ## Code inside bodies -/

theorem containsBreak_tail {s : Stmt} {ss : List Stmt} (h : containsBreak ss = true) :
    containsBreak (s :: ss) = true := by
  cases s <;> simp [containsBreak, h]

theorem Nested.tail {s : Stmt} {ss : List Stmt} {frs : List Frame}
    (h : Nested (s :: ss) frs) (hs : stmtTerminates s = false) : Nested ss frs := by
  cases frs with
  | nil => trivial
  | cons fr frs =>
    refine ⟨fun hb => h.1 (containsBreak_tail hb), fun ht => ?_, h.2.2⟩
    have hlist := h.2.1 ht
    rwa [listTerminates, hs, Bool.false_or] at hlist

theorem Nested.signal {code : List Stmt} {s : Signal} {frs : List Frame}
    (h : Nested code frs) (hs : signal code = some s) : Nested (signalCode s) frs := by
  cases frs with
  | nil => trivial
  | cons fr frs =>
    unfold Vani.Model.signal at hs
    split at hs <;> cases hs
    · exact h
    · exact ⟨fun _ => h.1 (by simp [containsBreak]), fun _ => rfl, h.2.2⟩
    · exact ⟨fun hb => by simp [signalCode, containsBreak] at hb, fun _ => rfl, h.2.2⟩

/-- Entering a body. -/
theorem Nested.enter {fr : Frame} {frs : List Frame} (h : Nested (fr.stmt :: fr.rest) frs) :
    Nested fr.body (fr :: frs) :=
  ⟨id, id, h⟩

/-- The end of the body of an `if` is the end of the statement. -/
theorem Nested.branchDone {st : CheckState} {c : Expr} {t f rest : List Stmt} {b : Bool}
    {frs : List Frame} (h : Nested [] (.branch st c t f b rest :: frs)) :
    listTerminates (if b then t else f) = false ∧ Nested rest frs := by
  have hbody : listTerminates (if b then t else f) = false := by
    cases hl : listTerminates (if b then t else f) with
    | false => rfl
    | true => exact absurd (h.2.1 hl) (by simp [listTerminates])
  refine ⟨hbody, h.2.2.tail ?_⟩
  rw [Frame.stmt, stmtTerminates]
  cases b <;> simp_all

/-- A `break` or `continue` that unwinds an `if` is one of the enclosing body's. -/
theorem Nested.branchOut {s : Signal} {st : CheckState} {c : Expr} {t f rest : List Stmt}
    {b : Bool} {frs : List Frame} (h : Nested (signalCode s) (.branch st c t f b rest :: frs))
    (hs : s ≠ .normal) : Nested (signalCode s) frs := by
  cases frs with
  | nil => trivial
  | cons fr frs =>
    obtain ⟨hbreak, _, hrest⟩ := h
    refine ⟨fun hb => hrest.1 ?_, fun _ => ?_, hrest.2.2⟩
    · have hbody : containsBreak (if b then t else f) = true := hbreak hb
      rw [Frame.stmt, containsBreak]
      cases b <;> simp_all
    · cases s <;> first | exact absurd rfl hs | rfl

/-- Leaving a loop. -/
theorem Nested.loopDone {fr : Frame} {frs : List Frame} (h : Nested (fr.stmt :: fr.rest) frs)
    (hloop : fr.isLoop = true) : Nested fr.rest frs :=
  h.tail (by cases fr <;> first | rfl | cases hloop)

/-! ## Statements -/

/-- A statement that control passes, and that leaves the open constructs alone. -/
theorem Sound.pass {st : CheckState} {s : Stmt} {rest : List Stmt} {frs : List Frame}
    {eff : Effect} (h : Sound ctx P T ⟨.point ⟨st, s :: rest⟩, frs, σ⟩)
    (hK : Careful ctx P T ⟨.point ⟨st, s :: rest⟩, frs, σ⟩ eff) (ht : Touches eff σ σ')
    (hterm : stmtTerminates s = false)
    (hfacts : FactsHold P T σ' (afterStmt ctx st s).facts) :
    Sound ctx P T ⟨.point ⟨afterStmt ctx st s, rest⟩, frs, σ'⟩ where
  depth := by
    have hd := h.depth
    simp only at hd ⊢
    rwa [ht.depth]
  control := ⟨hfacts, h.control.2.2⟩
  frames := h.frames.step ht hK.restored hK.counters fun fr hfr x hx =>
    hK.counter _ fr rfl hfr x hx
  nested := h.nested.tail hterm

/-- Facts of the current list that the step spares. -/
theorem FactsHold.spared {eff : Effect} {fs : List Expr} (h : FactsHold P T σ fs)
    (ht : Touches eff σ σ') (hspared : Spared P T eff fs) : FactsHold P T σ' fs :=
  h.transfer fun f hf => ht.sameFor (hspared f hf)

theorem FactsHold.sub {fs gs : List Expr} (h : FactsHold P T σ fs) (hsub : gs ⊆ fs) :
    FactsHold P T σ gs :=
  fun f hf => h f (hsub hf)

theorem letKept_sub (st : CheckState) (n : String) : letKept st n ⊆ st.facts := by
  unfold letKept dropFactsMentioning
  split
  · exact fun f hf => List.mem_of_mem_filter hf
  · exact List.Subset.refl _

theorem assignKept_sub (st : CheckState) (n : String) : assignKept st n ⊆ st.facts := by
  unfold assignKept dropFactsMentioning
  split
  · exact List.Subset.refl _
  · exact fun f hf => List.mem_of_mem_filter hf

/-- The facts a `let` adds. -/
theorem letFacts_true {st : CheckState} {n : String} {ann : Option Ty} {e : Expr}
    {v v' : Value} {w : List String} (hcare : LetCareful ctx P T st n ann e σ)
    (hne : σ.scopes ≠ []) (heval : Eval P T (.expr e) σ (.val v) σ' w)
    (hco : coerce P ann v = some v') :
    FactsHold P T (σ'.declare n v') (letFacts ctx st n e) := by
  have hne' : σ'.scopes ≠ [] := by
    intro hnil
    have hlen := (Eval.writes heval).scopes.length_eq
    rw [hnil] at hlen
    exact hne (List.length_eq_zero_iff.1 hlen)
  intro f hf
  rw [letFacts, List.mem_append] at hf
  rcases hf with hf | hf
  · unfold callFacts at hf
    split at hf
    · next g args =>
      refine (ensuresFacts_true hne' ?_ f hf).holds
      exact fun sig hsig hlen clause hmem =>
        hcare.clauses g args rfl sig hsig hlen clause hmem v σ' w v' heval hco
    · cases hf
  · obtain ⟨hn, hstore⟩ := hcare.recorded fun hnil => by rw [hnil] at hf; cases hf
    obtain ⟨rfl, hwell⟩ := hstore v σ' w v' heval hco
    obtain ⟨rfl, hgive⟩ := Eval.gives heval
    exact (recordedFacts_true hne hn hgive hwell f hf).holds

/-- The store after an element assignment. -/
def indexStore (σ : Store W) (n : String) (k : Nat) (before after : List Value) : Store W :=
  ((σ.assign n (.seq after)).snapshot (versioned n k) (.seq before)).snapshot
    (versioned n (k + 1)) (.seq after)

/-- An element assignment writes the array and its versions, the earlier one only where
it was not there yet. -/
theorem indexStore_writes {n : String} {k : Nat} {before after : List Value} {stale : Bool}
    (hstale : stale = false → σ.ghosts (versioned n k) = some (.seq before)) :
    Writes (n :: versioned n (k + 1) :: if stale then [versioned n k] else []) σ
      (indexStore σ n k before after) := by
  have hold : Writes (if stale then [versioned n k] else []) (σ.assign n (.seq after))
      ((σ.assign n (.seq after)).snapshot (versioned n k) (.seq before)) := by
    cases stale with
    | true => exact Writes.snapshot ..
    | false =>
      refine ⟨ScopesWrite.refl _ _, fun m _ => ?_, fun _ => rfl⟩
      rw [Store.snapshot, ← hstale rfl]
      exact congrFun (Function.update_eq_self ..) m
  refine ((Writes.assign σ n (.seq after)).trans (hold.trans (Writes.snapshot ..))).mono ?_
  intro m hm
  simp only [List.mem_append, List.mem_cons, List.not_mem_nil, or_false] at hm ⊢
  tauto

/-- What the array and its two versions are afterwards. -/
theorem indexStore_lookup {n : String} {k : Nat} {before after : List Value}
    (hn : lookupScopes σ.scopes n = some (.seq before))
    (hfresh : ∀ j, lookupScopes σ.scopes (versioned n j) = none) :
    (indexStore σ n k before after).lookup n = some (.seq after) ∧
    (indexStore σ n k before after).lookup (versioned n k) = some (.seq before) ∧
    (indexStore σ n k before after).lookup (versioned n (k + 1)) = some (.seq after) := by
  have hscope : ∀ m, lookupScopes (indexStore σ n k before after).scopes m =
      if m = n then some (.seq after) else lookupScopes σ.scopes m := by
    intro m
    show lookupScopes (assignScopes σ.scopes n (.seq after)) m = _
    rw [lookupScopes_assign, hn]
    simp
  have hne : ∀ j, versioned n j ≠ n := by
    intro j hj
    have := hfresh j
    rw [hj, hn] at this
    cases this
  have hversions : versioned n k ≠ versioned n (k + 1) := fun h =>
    absurd (versioned_inj h) (by omega)
  refine ⟨?_, ?_, ?_⟩
  · rw [Store.lookup, hscope, if_pos rfl]
  · rw [Store.lookup, hscope, if_neg (hne k), hfresh k]
    show Function.update (Function.update σ.ghosts _ _) _ _ _ = _
    rw [Function.update_of_ne hversions, Function.update_self]
  · rw [Store.lookup, hscope, if_neg (hne _), hfresh _]
    exact Function.update_self ..

/-- The facts after an element assignment. -/
theorem indexFacts_hold {st : CheckState} {n : String} {i e : Expr} {path : List String}
    {eff : Effect} {t : IntTy} {b : Bool} {k : Nat} {v v' slot : Value} {vs : List Value}
    {stale : Bool} (hfacts : FactsHold P T σ st.facts)
    (hcare : IndexCareful P T st n i path e eff σ)
    (heff : eff = ⟨n :: versioned n (currentVersion st n + 1) ::
      if stale then [versioned n (currentVersion st n)] else [], []⟩)
    (hi : Gives P T σ i (.scalar (.int t b k))) (he : Gives P T σ e v)
    (hn : lookupScopes σ.scopes n = some (.seq vs)) (hk : k < vs.length)
    (hco : coerceLike P slot v = some v')
    (hstale : stale = false →
      σ.ghosts (versioned n (currentVersion st n)) = some (.seq vs)) :
    FactsHold P T (indexStore σ n (currentVersion st n) vs (vs.set k v'))
      (pinnedFacts st n ++ indexFacts st n i e) := by
  have hwrites : Writes eff.writes σ
      (indexStore σ n (currentVersion st n) vs (vs.set k v')) := by
    rw [heff]
    exact indexStore_writes hstale
  obtain ⟨hnew, hold, hver⟩ :
      (indexStore σ n (currentVersion st n) vs (vs.set k v')).lookup n = _ ∧ _ ∧ _ :=
    indexStore_lookup hn fun j => (hcare.fresh j).1
  obtain ⟨hsame, heq⟩ := hcare.stored v slot v' he hco
  have hi' := hi.transfer (hwrites.sameFor (hcare.quiet i (.inl rfl)).1)
  have he' := he.transfer (hwrites.sameFor (hcare.quiet e (.inr rfl)).1)
  intro f hf
  rcases List.mem_append.1 hf with hf | hf
  · obtain ⟨g, hg, rfl⟩ := List.mem_map.1 hf
    cases hmention : exprMentions n g with
    | false =>
      rw [pin_of_not_mentions g hmention]
      exact (hwrites.sameFor (hcare.others g hg hmention)).holds (hfacts g hg)
    | true =>
      obtain ⟨hplain, hpin⟩ := hcare.pinned g hg hmention
      have hσn : σ.lookup n = some (.seq vs) := by rw [Store.lookup, hn]
      refine pinned_holds hplain (hcare.fresh _).2 hσn hold (fun m hm hmn => ?_) (hfacts g hg)
      refine hwrites.lookup fun hw => ?_
      rw [hpin m hw hmn] at hm
      cases hm
  · rcases List.mem_cons.1 hf with rfl | hf
    · exact (Gives.storeEq hver hold hi' he' (isStore_set hsame)).evalsTrue.holds
    · rw [List.mem_singleton.1 hf]
      have hslot : (vs.set k v')[k]? = some v' := by simp [hk]
      exact (((Gives.var hnew).index hi' hslot).eqFact he' heq).evalsTrue.holds

/-! ## Entering and leaving bodies -/

/-- Opening a scope for the body of a construct whose facts can be restored. -/
theorem Sound.enter {fr : Frame} {p : Point} {frs : List Frame}
    (hdepth : frs.length < σ.scopes.length) (hbody : p.code = fr.body)
    (hpop : τ.pop = σ) (hlen : τ.scopes.length = σ.scopes.length + 1)
    (hfacts : FactsHold P T τ p.st.facts) (hkept : FactsHold P T σ (Frame.kept fr))
    (hrange : RangeOk P T σ fr) (hcount : CounterOk P τ fr) (hproved : FrameProved ctx fr)
    (hcode : loopsProvedAll ctx p.st p.code) (hframes : FramesOk ctx P T frs σ)
    (hnested : Nested (fr.stmt :: fr.rest) frs) :
    Sound ctx P T ⟨.point p, fr :: frs, τ⟩ where
  depth := by
    show frs.length + 1 < τ.scopes.length
    omega
  control := ⟨hfacts, hcode⟩
  frames := ⟨hpop ▸ hkept, hpop ▸ hrange, hcount, hproved, hpop ▸ hframes⟩
  nested := by
    show Nested p.code (fr :: frs)
    rw [hbody]
    exact hnested.enter

/-- Going on after a construct. -/
theorem Sound.exit {fr : Frame} {frs : List Frame}
    (hdepth : frs.length < σ.scopes.length) (hfacts : FactsHold P T σ (fr.exit ctx).st.facts)
    (hproved : FrameProved ctx fr) (hframes : FramesOk ctx P T frs σ)
    (hnested : Nested fr.rest frs) : Sound ctx P T ⟨.point (fr.exit ctx), frs, σ⟩ where
  depth := hdepth
  control := ⟨hfacts, hproved.2⟩
  frames := hframes
  nested := hnested

theorem length_pop (σ : Store W) : σ.pop.scopes.length = σ.scopes.length - 1 := by
  rw [Store.pop, List.length_tail]

/-- Names of a negation. -/
theorem exprNames_negate (c : Expr) : exprNames P T (negate c) ⊆ exprNames P T c := by
  intro n hn
  unfold negate at hn
  split at hn
  · exact hn
  · cases hn
  · split at hn <;> exact hn
  · exact hn

/-- The two readings of a condition, as a fact after its evaluation. -/
theorem condition_true {c : Expr} {b : Bool} {w : List String}
    (heval : Eval P T (.expr c) σ (.val (.scalar (.bool b))) σ' w)
    (hspared : Untouched P T w c) (hsafe : NegationSafe P T σ c) :
    EvalsTrue P T σ' (if b then c else negate c) := by
  have hwrites := Eval.writes heval
  cases b with
  | true => exact (hwrites.sameFor hspared).evalsTrue ⟨_, _, heval⟩
  | false =>
    have hneg : Untouched P T w (negate c) := fun n hn hmem =>
      hspared n hn (exprNames_negate c hmem)
    exact (hwrites.sameFor hneg).evalsTrue (negate_true heval hsafe)

/-- The branch of an `if` that can reach its end was taken under the guard known after
the `if`. -/
theorem guardFacts_true {c : Expr} {t f : List Stmt} {b : Bool}
    (hcond : EvalsTrue P T σ (if b then c else negate c))
    (hend : listTerminates (if b then t else f) = false) :
    FactsHold P T σ (guardFacts c t f) := by
  intro g hg
  unfold guardFacts at hg
  cases b with
  | true =>
    rw [if_pos rfl] at hend hcond
    rw [hend] at hg
    cases hf : listTerminates f with
    | true => rw [hf] at hg; rw [List.mem_singleton.1 hg]; exact hcond.holds
    | false => rw [hf] at hg; cases hg
  | false =>
    rw [if_neg Bool.false_ne_true] at hend hcond
    rw [hend] at hg
    cases ht : listTerminates t with
    | true => rw [ht] at hg; rw [List.mem_singleton.1 hg]; exact hcond.holds
    | false => rw [ht] at hg; cases hg

/-- The solver proves only what follows from the facts it is given. -/
def SolverSound (ctx : Context) (P : Prims W) (T : Nominal) : Prop :=
  ∀ facts goal, ctx.proves facts goal → ∀ σ : Store W, FactsHold P T σ facts → Holds P T σ goal

/-- The facts together with the tracked constants hold where both do. -/
theorem currentSmtFacts_hold {st : CheckState} (hfacts : FactsHold P T σ st.facts)
    (hconst : ConstantsRight st σ) : FactsHold P T σ (currentSmtFacts st) := by
  refine hfacts.append fun f hf => ?_
  obtain ⟨p, hp, hpf⟩ := List.mem_filterMap.1 hf
  cases hc : p.2.constant with
  | none => rw [hc] at hpf; cases hpf
  | some c =>
    have hlook := hconst p hp c hc
    simp only [hc] at hpf
    cases c with
    | int t b v =>
      cases hpf
      exact ((Gives.var hlook).eqFact (Gives.int v) runBinary_eq_int).evalsTrue.holds
    | bool b =>
      cases hpf
      have hb : Gives P T σ (.bool b) (.scalar (.bool b)) := .literal rfl
      refine ((Gives.var hlook).eqFact hb ?_).evalsTrue.holds
      simp [Prims.runBinary, foldBinary]
    | float t b v => cases hpf

/-- A variable compared with an expression. -/
theorem compare_true {op : BinaryOp} {x : String} {a : Expr} {t t' : IntTy} {b b' : Bool}
    {k l : Int} {w : List String} (hx : σ.lookup x = some (.scalar (.int t b k)))
    (ha : Eval P T (.expr a) σ (.val (.scalar (.int t' b' l))) σ' w)
    (hcmp : compareIntegers op k l = some true) : EvalsTrue P T σ (.binary op (.var x) a) := by
  have hop : operands T (.binary op (.var x) a) = some (.binary op, [.var x, a]) := by
    cases op <;> first | rfl | cases hcmp
  exact ⟨σ', _, .strict hop (.argsCons (.var hx) (.argsCons ha .argsNil))
    (runBinary_compare hcmp)⟩

/-- A counter below a limit of its type can be increased. -/
theorem runBinary_succ {t : IntTy} {k : Int} (hmin : t.minValue ≤ k) (hmax : k + 1 ≤ t.maxValue) :
    P.runBinary .add (.scalar (.int t false k)) (.scalar (.int t false 1)) =
      some (.scalar (.int t false (k + 1))) := by
  refine P.runBinary_of_fold ?_
  have hty : promotedIntegerType t false k t false 1 = some t := by
    simp only [promotedIntegerType, adaptedIntegerLiteralType, Bool.false_and,
      Bool.false_eq_true, if_false, Option.getD_none]
    cases t <;> rfl
  have hfit : valueFitsType (k + 1) t = true := by
    simp only [valueFitsType, Bool.and_eq_true, decide_eq_true_eq]
    omega
  simp only [foldBinary, hty, evalIntegerBinary, exactInteger, hfit, if_true, Option.map_some]

variable {st : CheckState} {rest : List Stmt} {frs : List Frame} {eff : Effect}

/-- A `let` keeps the invariant. -/
theorem Sound.let_ {n : String} {ann : Option Ty} {e : Expr} {v v' : Value} {w : List String}
    (h : Sound ctx P T ⟨.point ⟨st, .let_ n ann e :: rest⟩, frs, σ⟩)
    (hK : Careful ctx P T ⟨.point ⟨st, .let_ n ann e :: rest⟩, frs, σ⟩ ⟨w, [n]⟩)
    (hn : n ≠ "_") (heval : Eval P T (.expr e) σ (.val v) σ' w)
    (hco : coerce P ann v = some v') :
    Sound ctx P T ⟨.point ⟨afterStmt ctx st (.let_ n ann e), rest⟩, frs, σ'.declare n v'⟩ := by
  have hcare := hK.stmt _ _ _ rfl
  simp only [StmtCareful, if_neg hn] at hcare
  have ht : Touches ⟨w, [n]⟩ σ (σ'.declare n v') := (Eval.writes heval).touches.declare n v'
  have hne : σ.scopes ≠ [] := List.ne_nil_of_length_pos (Nat.zero_lt_of_lt h.depth)
  refine h.pass hK ht rfl ?_
  simp only [afterStmt, if_neg hn]
  exact ((h.control.1.sub (letKept_sub st n)).spared ht hcare.1).append
    (letFacts_true hcare.2 hne heval hco)

/-- So does an element assignment. -/
theorem Sound.indexAssign {n : String} {i e : Expr} {path : List String} {t : IntTy}
    {b stale : Bool} {k : Int} {v v' old slot : Value} {vs : List Value} {σ'' : Store W}
    {w w' : List String}
    (h : Sound ctx P T ⟨.point ⟨st, .indexAssign n i path e :: rest⟩, frs, σ⟩)
    (hK : Careful ctx P T ⟨.point ⟨st, .indexAssign n i path e :: rest⟩, frs, σ⟩
      ⟨w ++ w' ++ (n :: versioned n (currentVersion st n + 1) ::
        if stale then [versioned n (currentVersion st n)] else []), []⟩)
    (hi : Eval P T (.expr i) σ (.val (.scalar (.int t b k))) σ' w)
    (he : Eval P T (.expr e) σ' (.val v) σ'' w')
    (hn : lookupScopes σ''.scopes n = some (.seq vs)) (hk : 0 ≤ k)
    (hold : vs[k.toNat]? = some old) (hco : coerceLike P slot v = some v')
    (hstale : stale = false →
      σ''.ghosts (versioned n (currentVersion st n)) = some (.seq vs)) :
    Sound ctx P T ⟨.point ⟨afterStmt ctx st (.indexAssign n i path e), rest⟩, frs,
      indexStore σ'' n (currentVersion st n) vs (vs.set k.toNat (updatePath path old v'))⟩ := by
  have hcare : IndexCareful P T st n i path e _ σ := hK.stmt _ _ _ rfl
  -- index and value are evaluated without writing
  obtain rfl := (hcare.quiet i (.inl rfl)).2 _ _ _ hi
  obtain ⟨rfl, hi⟩ := Eval.gives hi
  obtain rfl := (hcare.quiet e (.inr rfl)).2 _ _ _ he
  obtain ⟨rfl, he⟩ := Eval.gives he
  obtain ⟨m, rfl⟩ : ∃ m : Nat, k = m := ⟨k.toNat, (Int.toNat_of_nonneg hk).symm⟩
  rw [Int.toNat_natCast] at hold ⊢
  have hlt : m < vs.length := (List.getElem?_eq_some_iff.1 hold).1
  refine h.pass hK (indexStore_writes hstale).touches rfl ?_
  rw [hcare.noPath]
  exact indexFacts_hold h.control.1 hcare rfl hi he hn hlt hco hstale

/-- Entering a branch of an `if`. -/
theorem Sound.if_ {c : Expr} {t f : List Stmt} {b : Bool} {w : List String}
    (h : Sound ctx P T ⟨.point ⟨st, .if_ c t f :: rest⟩, frs, σ⟩)
    (hK : Careful ctx P T ⟨.point ⟨st, .if_ c t f :: rest⟩, frs, σ⟩ ⟨w, []⟩)
    (heval : Eval P T (.expr c) σ (.val (.scalar (.bool b))) σ' w) :
    Sound ctx P T ⟨.point ⟨ifBody st c b, if b then t else f⟩,
      .branch st c t f b rest :: frs, σ'.push⟩ := by
  obtain ⟨hspared, hsafe⟩ := hK.stmt _ _ _ rfl
  have ht := (Eval.writes heval).touches
  have hcond : EvalsTrue P T σ' (if b then c else negate c) := by
    refine condition_true heval (fun n hn => ?_) hsafe
    exact hspared c (by simp) n (by simpa using hn)
  have hfacts : FactsHold P T σ' st.facts :=
    h.control.1.spared ht fun g hg => hspared g (List.mem_append_left _ hg)
  have hpush : FactsHold P T σ'.push (ifBody st c b).facts := by
    have hboth : FactsHold P T σ' (ifBody st c b).facts :=
      hfacts.append fun g hg => by rw [List.mem_singleton.1 hg]; exact hcond.holds
    exact hboth.transfer fun g _ => sameFor_push g σ'
  have hkept : FactsHold P T σ' (Frame.kept (.branch st c t f b rest)) := by
    refine hfacts.append ?_
    cases hend : listTerminates (if b then t else f) with
    | true => exact fun g hg => absurd hg List.not_mem_nil
    | false => exact guardFacts_true hcond hend
  have hdepth : frs.length < σ'.scopes.length := by rw [ht.depth]; exact h.depth
  have hbody : loopsProvedAll ctx (ifBody st c b) (if b then t else f) := by
    cases b
    · exact h.control.2.1.2
    · exact h.control.2.1.1
  have hframes : FramesOk ctx P T frs σ' :=
    h.frames.step ht hK.restored hK.counters fun fr hfr x hx => hK.counter _ fr rfl hfr x hx
  exact Sound.enter hdepth rfl rfl rfl hpush hkept trivial trivial ⟨h.control.2.1, h.control.2.2⟩
    hbody hframes h.nested

/-! ## Loops -/

/-- At the head of a `while` its invariants hold: they were proved from the facts. -/
theorem Sound.while_ {c : Expr} {invs : List Expr} {body : List Stmt}
    (hsolver : SolverSound ctx P T)
    (h : Sound ctx P T ⟨.point ⟨st, .while_ c invs body :: rest⟩, frs, σ⟩)
    (hK : Careful ctx P T ⟨.point ⟨st, .while_ c invs body :: rest⟩, frs, σ⟩ eff) :
    Sound ctx P T ⟨.head (.while_ st c invs body rest), frs, σ⟩ := by
  have hcare : invs = [] ∨ ConstantsRight st σ := hK.stmt _ _ _ rfl
  have hinvs : FactsHold P T σ invs := by
    rcases hcare with rfl | hconst
    · exact fun f hf => absurd hf List.not_mem_nil
    · exact fun inv hinv => hsolver _ _ (h.control.2.1.1 inv hinv) σ
        (currentSmtFacts_hold h.control.1 hconst)
  exact ⟨h.depth, ⟨rfl, h.control.1.append hinvs, trivial, h.control.2.1, h.control.2.2⟩,
    h.frames, h.nested⟩

/-- Deciding about a turn of a `while`. -/
theorem Sound.whileTurn {c : Expr} {invs : List Expr} {body : List Stmt} {b : Bool}
    {w : List String} (h : Sound ctx P T ⟨.head (.while_ st c invs body rest), frs, σ⟩)
    (hK : Careful ctx P T ⟨.head (.while_ st c invs body rest), frs, σ⟩ ⟨w, []⟩)
    (heval : Eval P T (.expr c) σ (.val (.scalar (.bool b))) σ' w) :
    FactsHold P T σ' (Frame.kept (.while_ st c invs body rest)) ∧
      EvalsTrue P T σ' (if b then c else negate c) ∧ FramesOk ctx P T frs σ' ∧
      frs.length < σ'.scopes.length := by
  obtain ⟨hspared, hsafe⟩ := hK.head _ rfl
  have ht := (Eval.writes heval).touches
  refine ⟨?_, ?_, ?_, ?_⟩
  · exact h.control.2.1.spared ht fun f hf => hspared f (List.mem_append_left _ hf)
  · exact condition_true heval (fun n hn => hspared c (by simp) n (by simpa using hn)) hsafe
  · exact h.frames.step ht hK.restored hK.counters fun _ _ _ _ => List.not_mem_nil
  · rw [ht.depth]; exact h.depth

theorem Sound.whileTrue {c : Expr} {invs : List Expr} {body : List Stmt} {w : List String}
    (h : Sound ctx P T ⟨.head (.while_ st c invs body rest), frs, σ⟩)
    (hK : Careful ctx P T ⟨.head (.while_ st c invs body rest), frs, σ⟩ ⟨w, []⟩)
    (heval : Eval P T (.expr c) σ (.val (.scalar (.bool true))) σ' w) :
    Sound ctx P T ⟨.point ⟨whileBody st c invs, body⟩, .while_ st c invs body rest :: frs,
      σ'.push⟩ := by
  obtain ⟨hkept, hcond, hframes, hdepth⟩ := h.whileTurn hK heval
  have hfacts : FactsHold P T σ' (whileBody st c invs).facts :=
    hkept.append fun f hf => by rw [List.mem_singleton.1 hf]; exact hcond.holds
  exact Sound.enter hdepth rfl rfl rfl (hfacts.transfer fun f _ => sameFor_push f σ') hkept
    trivial trivial h.control.2.2.2 h.control.2.2.2.1.2 hframes h.nested

theorem Sound.whileFalse {c : Expr} {invs : List Expr} {body : List Stmt} {w : List String}
    (h : Sound ctx P T ⟨.head (.while_ st c invs body rest), frs, σ⟩)
    (hK : Careful ctx P T ⟨.head (.while_ st c invs body rest), frs, σ⟩ ⟨w, []⟩)
    (heval : Eval P T (.expr c) σ (.val (.scalar (.bool false))) σ' w) :
    Sound ctx P T ⟨.point ((Frame.while_ st c invs body rest).exit ctx), frs, σ'⟩ := by
  obtain ⟨hkept, hcond, hframes, hdepth⟩ := h.whileTurn hK heval
  refine Sound.exit hdepth ?_ h.control.2.2.2 hframes (h.nested.loopDone rfl)
  show FactsHold P T σ' (st.facts ++ whileExit c invs body)
  refine hkept.left.append (hkept.right.append ?_)
  split
  · exact fun f hf => absurd hf List.not_mem_nil
  · exact fun f hf => by rw [List.mem_singleton.1 hf]; exact hcond.holds

/-- A binding under another name does not disturb the constants. -/
theorem ConstantsRight.declare {x : String} {v : Value} (h : ConstantsRight st σ)
    (hx : ∀ p, p ∈ st.env.flatten → p.2.constant.isSome = true → p.1 ≠ x) :
    ∀ p, p ∈ st.env.flatten → ∀ c, p.2.constant = some c →
      (σ.push.declare x v).lookup p.1 = some (.scalar c) := by
  intro p hp c hc
  rw [Store.lookup, lookupScopes_declare _ _ (hx p hp (by rw [hc]; rfl)), ghosts_declare]
  exact h p hp c hc

/-- At the head of a `for` its invariants hold, if they do not speak of its variable. -/
theorem Sound.for_ {x : String} {s e : Expr} {invs : List Expr} {body : List Stmt}
    {par : Bool} {reds : List Reduction} {t ts te : IntTy} {bs be : Bool} {k l : Int}
    {σ'' : Store W} {w w' : List String} (hsolver : SolverSound ctx P T)
    (h : Sound ctx P T ⟨.point ⟨st, .for_ x s e invs body par reds :: rest⟩, frs, σ⟩)
    (hK : Careful ctx P T ⟨.point ⟨st, .for_ x s e invs body par reds :: rest⟩, frs, σ⟩
      ⟨w ++ w', []⟩)
    (hs : Eval P T (.expr s) σ (.val (.scalar (.int ts bs k))) σ' w)
    (he : Eval P T (.expr e) σ' (.val (.scalar (.int te be l))) σ'' w')
    (hk : valueFitsType k t = true) (hl : valueFitsType l t = true) :
    Sound ctx P T ⟨.head (.for_ st x s e invs body par reds (.scalar (.int t false k))
      (.scalar (.int t false l)) rest), frs, σ''⟩ := by
  obtain ⟨hspared, hinvs⟩ := hK.stmt _ _ _ rfl
  have hwrites := (Eval.writes hs).trans (Eval.writes he)
  have ht := hwrites.touches
  have hfacts : FactsHold P T σ'' st.facts :=
    h.control.1.spared ht fun f hf => hspared f (List.mem_append_left _ hf)
  have huntouched : ∀ a, a = s ∨ a = e → Untouched P T (w ++ w') a := by
    intro a ha n hn
    exact hspared a (by rcases ha with rfl | rfl <;> simp) n (by simpa using hn)
  -- the bounds still give the same values after both have been evaluated
  obtain ⟨τ₁, hs'⟩ := (hwrites.sameFor (huntouched s (.inl rfl))).eval hs
  obtain ⟨τ₂, he'⟩ := ((Eval.writes he).sameFor fun n hn =>
    huntouched e (.inr rfl) n (List.mem_append_right _ hn)).eval he
  have hrange : RangeOk P T σ'' (.for_ st x s e invs body par reds (.scalar (.int t false k))
      (.scalar (.int t false l)) rest) := by
    simp only [valueFitsType, Bool.and_eq_true, decide_eq_true_eq] at hk hl
    exact ⟨t, ts, te, bs, be, k, k, l, rfl, rfl, Int.le_refl k, hk.1, hl.2, ⟨τ₁, w, hs'⟩, τ₂, w', he'⟩
  have hkept : FactsHold P T σ'' invs := by
    rcases hinvs with rfl | ⟨hconst, hx, henv⟩
    · exact fun f hf => absurd hf List.not_mem_nil
    · -- the proof on entry reads the facts with the variable bound to the start value
      intro inv hinv
      have hfree : ∀ f, f ∈ s :: st.facts ++ invs → x ∉ exprNames P T f := fun f hf =>
        hx f hf x (by simp)
      have hsame : ∀ f, f ∈ s :: st.facts ++ invs →
          SameFor P T f σ'' (σ''.push.declare x (.scalar (.int t false k))) := fun f hf =>
        (sameFor_push f σ'').trans (sameFor_declare _ _ (hfree f hf))
      have hconst'' : ConstantsRight st σ'' := by
        intro p hp c hc
        have hp1 := henv p hp (by rw [hc]; rfl)
        rw [hwrites.lookup fun hw => hp1 (List.mem_cons_of_mem _ hw)]
        exact hconst p hp c hc
      have hentry : FactsHold P T (σ''.push.declare x (.scalar (.int t false k)))
          (currentSmtFacts (forEntry ctx st x s)) := by
        refine currentSmtFacts_hold ?_ ?_
        · refine FactsHold.append (hfacts.transfer fun f hf => hsame f (by simp [hf])) ?_
          intro f hf
          rw [List.mem_singleton.1 hf]
          obtain ⟨τ₃, hs''⟩ := (hsame s (by simp)).eval hs'
          have hx := lookup_declare_self (n := x) (v := .scalar (.int t false k))
            (show σ''.push.scopes ≠ [] by simp [Store.push])
          exact (compare_true hx hs'' (by simp [compareIntegers])).holds
        · intro p hp c hc
          have henv' : p ∈ ((x, plainInfo (ctx.typeOf st.env s)) :: st.env.flatten) := by
            simpa [forEntry, Env.pushScope, Env.insertCurrent, insertKey] using hp
          rcases List.mem_cons.1 henv' with rfl | hp
          · cases hc
          · refine hconst''.declare (fun q hq hqc hqx => ?_) p hp c hc
            exact henv q hq hqc (hqx ▸ List.mem_cons_self ..)
      have hproved := hsolver _ _ (h.control.2.1.1 inv hinv) _ hentry
      exact (hsame inv (by simp [hinv])).symm.holds hproved
  have hdepth : frs.length < σ''.scopes.length := by rw [ht.depth]; exact h.depth
  have hframes : FramesOk ctx P T frs σ'' :=
    h.frames.step ht hK.restored hK.counters fun _ _ _ _ => List.not_mem_nil
  exact ⟨hdepth, ⟨rfl, hfacts.append hkept, hrange, h.control.2.1, h.control.2.2⟩, hframes,
    h.nested⟩

/-- Starting a turn of a `for`. -/
theorem Sound.forTrue {x : String} {s e : Expr} {invs : List Expr} {body : List Stmt}
    {par : Bool} {reds : List Reduction} {v limit : Value}
    (h : Sound ctx P T ⟨.head (.for_ st x s e invs body par reds v limit rest), frs, σ⟩)
    (hK : Careful ctx P T ⟨.head (.for_ st x s e invs body par reds v limit rest), frs, σ⟩
      ⟨[], [x]⟩)
    (hlt : P.runBinary .lt v limit = some (.scalar (.bool true))) :
    Sound ctx P T ⟨.point ⟨forBody ctx st x s e invs, body⟩,
      .for_ st x s e invs body par reds v limit rest :: frs, σ.push.declare x v⟩ := by
  obtain ⟨hspared, _⟩ := hK.head _ rfl
  obtain ⟨-, hkept, hrange, hproved⟩ := h.control
  have hfree : ∀ f, f ∈ Frame.kept (.for_ st x s e invs body par reds v limit rest) ++ [s, e] →
      SameFor P T f σ (σ.push.declare x v) := fun f hf =>
    (sameFor_push f σ).trans (sameFor_declare _ _ (hspared f hf x (by simp)))
  have hrange' := hrange
  obtain ⟨t, ts, te, bs, be, k₀, k, l, rfl, rfl, hk, hmin, hmax, ⟨σ₁, w₁, hs⟩, σ₂, w₂, he⟩ :=
    hrange'
  have hkl : k < l := by
    rw [runBinary_compare rfl] at hlt
    simpa using hlt
  have hx := lookup_declare_self (n := x) (v := .scalar (.int t false k))
    (show σ.push.scopes ≠ [] by simp [Store.push])
  obtain ⟨τ₁, hs'⟩ := (hfree s (by simp)).eval hs
  obtain ⟨τ₂, he'⟩ := (hfree e (by simp)).eval he
  have hge : EvalsTrue P T (σ.push.declare x (.scalar (.int t false k)))
      (.binary .ge (.var x) s) := compare_true hx hs' (by simp [compareIntegers, hk])
  have hlt' : EvalsTrue P T (σ.push.declare x (.scalar (.int t false k)))
      (.binary .lt (.var x) e) := compare_true hx he' (by simp [compareIntegers, hkl])
  have hfacts : FactsHold P T (σ.push.declare x (.scalar (.int t false k)))
      (forBody ctx st x s e invs).facts := by
    refine (hkept.transfer fun f hf => hfree f (List.mem_append_left _ hf)).append ?_
    intro f hf
    rcases List.mem_cons.1 hf with rfl | hf
    · exact hge.holds
    · rw [List.mem_singleton.1 hf]; exact hlt'.holds
  have hpop : (σ.push.declare x (.scalar (.int t false k))).pop = σ := by simp
  have hlen : (σ.push.declare x (.scalar (.int t false k))).scopes.length =
      σ.scopes.length + 1 := by simp [Store.push, Store.declare]
  have hcount : CounterOk P (σ.push.declare x (.scalar (.int t false k)))
      (.for_ st x s e invs body par reds (.scalar (.int t false k))
        (.scalar (.int t false l)) rest) := by
    refine ⟨?_, hlt⟩
    simp [topScope, Store.push, Store.declare]
  exact Sound.enter h.depth rfl hpop hlen hfacts hkept hrange hcount hproved hproved.1.2
    h.frames h.nested

/-- The end of a `for`: what is recorded about its variable is not about a live one. -/
theorem Sound.forFalse {x : String} {s e : Expr} {invs : List Expr} {body : List Stmt}
    {par : Bool} {reds : List Reduction} {v limit : Value}
    (h : Sound ctx P T ⟨.head (.for_ st x s e invs body par reds v limit rest), frs, σ⟩)
    (hK : Careful ctx P T ⟨.head (.for_ st x s e invs body par reds v limit rest), frs, σ⟩
      eff) :
    Sound ctx P T
      ⟨.point ((Frame.for_ st x s e invs body par reds v limit rest).exit ctx), frs, σ⟩ := by
  obtain ⟨_, hvar⟩ := hK.head _ rfl
  obtain ⟨-, hkept, -, hproved⟩ := h.control
  refine Sound.exit h.depth ?_ hproved h.frames (h.nested.loopDone rfl)
  show FactsHold P T σ (st.facts ++ forExit x e invs body)
  refine hkept.left.append (hkept.right.append ?_)
  split
  · exact fun f hf => absurd hf List.not_mem_nil
  · next hbreak =>
    intro f hf hres
    obtain ⟨hlook, henum, hstruct⟩ := hvar.resolve_left hbreak
    rw [List.mem_singleton.1 hf] at hres
    have hbound := hres x (by simp [exprNames]) (by simp [exprMentions]) henum hstruct
    rw [hlook] at hbound
    cases hbound

/-- Starting a turn of an element loop. -/
theorem Sound.iterTrue {x xs : String} {consumes : Bool} {body : List Stmt} {k total : Nat}
    {v : Value}
    (h : Sound ctx P T ⟨.head (.forIter st x xs consumes body k total rest), frs, σ⟩)
    (hK : Careful ctx P T ⟨.head (.forIter st x xs consumes body k total rest), frs, σ⟩
      ⟨[], [x]⟩) :
    Sound ctx P T ⟨.point ⟨forIterBody ctx st x xs, body⟩,
      .forIter st x xs consumes body k total rest :: frs, σ.push.declare x v⟩ := by
  have hspared : Spared P T ⟨[], [x]⟩ st.facts := hK.head _ rfl
  obtain ⟨-, hkept, hrange, hproved⟩ := h.control
  have hfacts : FactsHold P T (σ.push.declare x v) (forIterBody ctx st x xs).facts :=
    hkept.transfer fun f hf =>
      (sameFor_push f σ).trans (sameFor_declare _ _ (hspared f hf x (by simp)))
  have hlen : (σ.push.declare x v).scopes.length = σ.scopes.length + 1 := by
    simp [Store.push, Store.declare]
  exact Sound.enter h.depth rfl (by simp) hlen hfacts hkept trivial trivial hproved hproved.1
    h.frames h.nested

/-- The next turn of a loop: its facts are as before, and a counter goes up by one. -/
theorem Sound.again {s : Signal} {fr fr' : Frame}
    (h : Sound ctx P T ⟨.leaving s, fr :: frs, σ⟩) (hnext : fr.advance P σ = some fr') :
    Sound ctx P T ⟨.head fr', frs, σ.pop⟩ := by
  obtain ⟨hkept, hrange, hcount, hproved, hframes⟩ := h.frames
  have hdepth : frs.length < σ.pop.scopes.length := by
    have hd := h.depth
    simp only [List.length_cons] at hd
    rw [length_pop]
    omega
  have hnested := h.nested.2.2
  cases fr with
  | branch st c t f b rest => cases hnext
  | while_ st c invs body rest =>
    cases hnext
    exact ⟨hdepth, ⟨rfl, hkept, trivial, hproved⟩, hframes, hnested⟩
  | forIter st x xs consumes body k total rest =>
    cases hnext
    exact ⟨hdepth, ⟨rfl, hkept, trivial, hproved⟩, hframes, hnested⟩
  | for_ st x s e invs body par reds next limit rest =>
    obtain ⟨t, ts, te, bs, be, k₀, k, l, rfl, rfl, hk, hmin, hmax, hs, he⟩ := hrange
    have hkl : k < l := by
      have hlt := hcount.2
      rw [runBinary_compare rfl] at hlt
      simpa using hlt
    have hlook : lookupScopes σ.scopes x = some (.scalar (.int t false k)) := by
      rw [lookupScopes_eq_top, hcount.1]
    have hadd := runBinary_succ (P := P) hmin (show k + 1 ≤ t.maxValue by omega)
    rw [Frame.advance, hlook] at hnext
    simp only [hadd, Option.map_some] at hnext
    cases hnext
    refine ⟨hdepth, ⟨rfl, hkept, ?_, hproved⟩, hframes, hnested⟩
    exact ⟨t, ts, te, bs, be, k₀, k + 1, l, rfl, rfl, by omega, by omega, hmax, hs, he⟩

/-- Leaving a branch of an `if`. -/
theorem Sound.branchOut {s : Signal} {c : Expr} {t f : List Stmt} {b : Bool}
    (h : Sound ctx P T ⟨.leaving s, .branch st c t f b rest :: frs, σ⟩) :
    Sound ctx P T ⟨s.outOfBranch ((Frame.branch st c t f b rest).exit ctx), frs, σ.pop⟩ := by
  obtain ⟨hkept, -, -, hproved, hframes⟩ := h.frames
  have hdepth : frs.length < σ.pop.scopes.length := by
    have hd := h.depth
    simp only [List.length_cons] at hd
    rw [length_pop]
    omega
  cases s with
  | normal =>
    obtain ⟨hend, hnested⟩ := h.nested.branchDone
    rw [Frame.kept, hend] at hkept
    exact Sound.exit hdepth hkept hproved hframes hnested
  | brk => exact ⟨hdepth, trivial, hframes, Nested.branchOut (s := .brk) h.nested (by simp)⟩
  | cont => exact ⟨hdepth, trivial, hframes, Nested.branchOut (s := .cont) h.nested (by simp)⟩

/-- Leaving a loop by `break`: then the body has one, and nothing is recorded about the
condition. -/
theorem Sound.loopBreak {fr : Frame} (hloop : fr.isLoop = true)
    (h : Sound ctx P T ⟨.leaving .brk, fr :: frs, σ⟩) :
    Sound ctx P T ⟨.point (fr.exit ctx), frs, σ.pop⟩ := by
  obtain ⟨hkept, -, -, hproved, hframes⟩ := h.frames
  have hdepth : frs.length < σ.pop.scopes.length := by
    have hd := h.depth
    simp only [List.length_cons] at hd
    rw [length_pop]
    omega
  have hbreak : containsBreak fr.body = true := h.nested.1 (by simp [controlCode, signalCode,
    containsBreak])
  refine Sound.exit hdepth ?_ hproved hframes (h.nested.2.2.loopDone hloop)
  cases fr with
  | branch st c t f b rest => cases hloop
  | while_ st c invs body rest =>
    simp only [Frame.body] at hbreak
    simpa [Frame.exit, Frame.st, Frame.stmt, afterStmt, whileExit, hbreak, Frame.kept] using hkept
  | for_ st x s e invs body par reds next limit rest =>
    simp only [Frame.body] at hbreak
    simpa [Frame.exit, Frame.st, Frame.stmt, afterStmt, forExit, hbreak, Frame.kept] using hkept
  | forIter st x xs consumes body k total rest => exact hkept

/-- A step that respects the fact list keeps the invariant. -/
theorem Sound.step {c c' : Config W} (hsolver : SolverSound ctx P T) (h : Sound ctx P T c)
    (hK : Careful ctx P T c eff) (hstep : Step ctx P T c eff c') : Sound ctx P T c' := by
  cases hstep with
  | let_ hn heval hco => exact h.let_ hK hn heval hco
  | @discard st ann e rest frs σ v σ' w heval =>
    have hspared : Spared P T ⟨w, []⟩ st.facts := hK.stmt _ _ _ rfl
    have ht := (Eval.writes heval).touches
    have hst : afterStmt ctx st (.let_ "_" ann e) = st := by simp [afterStmt]
    have hpass := h.pass hK ht rfl (by rw [hst]; exact h.control.1.spared ht hspared)
    rwa [hst] at hpass
  | @letTuple st names ann e rest frs σ vs σ' w heval hlen =>
    have hspared : Spared P T ⟨w, names⟩ st.facts := hK.stmt _ _ _ rfl
    have ht : Touches ⟨w, names⟩ σ (declareAll (names.zip vs) σ') := by
      refine ((Eval.writes heval).touches.declareAll (names.zip vs)).mono
        (List.Subset.refl _) fun n hn => ?_
      simpa [List.map_fst_zip (Nat.le_of_eq hlen)] using hn
    exact h.pass hK ht rfl (h.control.1.spared ht hspared)
  | @assign st n e rest frs σ old v v' σ' w heval hold hco =>
    have hspared : Spared P T ⟨w ++ [n], []⟩ (assignKept st n) := hK.stmt _ _ _ rfl
    have ht := ((Eval.writes heval).trans (Writes.assign σ' n v')).touches
    exact h.pass hK ht rfl ((h.control.1.sub (assignKept_sub st n)).spared ht hspared)
  | indexAssign hi he hn hk hold hslot hco hstale =>
    exact h.indexAssign hK hi he hn hk hold hco hstale
  | @fieldAssign st obj f e rest frs σ v v' n path old slot σ' w heval hplace hold hslot hco =>
    have hspared : Spared P T ⟨w ++ [n], []⟩ st.facts := hK.stmt _ _ _ rfl
    have ht := ((Eval.writes heval).trans
      (Writes.assign σ' n (updatePath (path ++ [f]) old v'))).touches
    exact h.pass hK ht rfl (h.control.1.spared ht hspared)
  | assert heval =>
    have ht := (Eval.writes heval).touches
    exact h.pass hK ht rfl (h.control.1.spared ht (hK.stmt _ _ _ rfl))
  | prove => exact h.pass hK Writes.refl.touches rfl h.control.1
  | print heval =>
    have ht := (Eval.writes_args heval).touches
    exact h.pass hK ht rfl (h.control.1.spared ht (hK.stmt _ _ _ rfl))
  | @spawn st n body rest frs σ i =>
    have ht : Touches ⟨[], [n]⟩ σ (σ.declare n (.handle i)) := Writes.refl.touches.declare n _
    exact h.pass hK ht rfl (h.control.1.spared ht (hK.stmt _ _ _ rfl))
  | @enterTask st n body rest frs σ =>
    refine ⟨?_, ⟨h.control.1.transfer fun f _ => sameFor_push f σ, h.control.2.1⟩, trivial,
      trivial⟩
    simp [Store.push]
  | join => exact h.pass hK Writes.refl.touches rfl h.control.1
  | if_ heval => exact h.if_ hK heval
  | while_ => exact Sound.while_ hsolver h hK
  | for_ hs he hk hl => exact Sound.for_ hsolver h hK hs he hk hl
  | forIter _ => exact ⟨h.depth, ⟨rfl, h.control.1, trivial, h.control.2.1, h.control.2.2⟩,
      h.frames, h.nested⟩
  | whileTrue heval => exact h.whileTrue hK heval
  | whileFalse heval => exact h.whileFalse hK heval
  | forTrue hlt => exact h.forTrue hK hlt
  | forFalse _ => exact h.forFalse hK
  | iterTrue _ _ _ => exact h.iterTrue hK
  | iterFalse _ =>
    exact Sound.exit h.depth h.control.2.1 h.control.2.2.2 h.frames (h.nested.loopDone rfl)
  | leave hs => exact ⟨h.depth, trivial, h.frames, h.nested.signal hs⟩
  | branchOut => exact h.branchOut
  | loopBreak hloop => exact h.loopBreak hloop
  | again _ hnext => exact h.again hnext

/-- A configuration at the start of a function body: the body is to be executed in a
store that satisfies the `requires` clauses. -/
structure Starts (ctx : Context) (P : Prims W) (T : Nominal) (env : Env) (f : Function)
    (c : Config W) : Prop where
  control : c.control = .point ⟨entryState env f, f.body⟩
  frames : c.frames = []
  scopes : c.store.scopes ≠ []
  requires : FactsHold P T c.store f.requires
  accepted : loopsProvedAll ctx (entryState env f) f.body

theorem Starts.sound {env : Env} {f : Function} {c : Config W}
    (h : Starts ctx P T env f c) : Sound ctx P T c := by
  obtain ⟨control, frames, store⟩ := c
  obtain ⟨rfl, rfl, hscopes, hrequires, haccepted⟩ := h
  exact ⟨List.length_pos_iff.2 hscopes, ⟨hrequires, haccepted⟩, trivial, trivial⟩

/-- **Soundness of the fact list.** In a run from the start of an accepted body all of
whose steps respect the fact list, every fact known at the point reached evaluates to
true there; so does every goal the solver proves from the facts known at the point, where
the tracked constants are right. Source: checker.rs:7423-8934 -/
theorem smtFacts_hold (hsolver : SolverSound ctx P T) (env : Env) (f : Function)
    (c₀ c : Config W) (hstart : Starts ctx P T env f c₀)
    (hrun : Run ctx P T (Careful ctx P T) c₀ c) (p : Point) (hp : c.control = .point p) :
    FactsHold P T c.store p.st.facts ∧
      ∀ goal, ctx.proves (currentSmtFacts p.st) goal → ConstantsRight p.st c.store →
        Holds P T c.store goal := by
  have hsound : Sound ctx P T c :=
    hrun.invariant hstart.sound fun _ _ _ h hK hstep => h.step hsolver hK hstep
  have hcontrol := hsound.control
  rw [hp] at hcontrol
  exact ⟨hcontrol.1, fun goal hgoal hconst =>
    hsolver _ _ hgoal _ (currentSmtFacts_hold hcontrol.1 hconst)⟩

/-! ## Two runs

`fn keep(x: i64) -> i64 requires x == 0 { let y = x; prove x == 0; return y; }` respects
its fact list. `fn lose(x: i64) -> i64 requires x == 0 { if x == 0 { x = 5; } prove x == 0;
return x; }` does not: the facts known before the `if` are restored after it, although a
branch assigned to `x`. -/

/-- A solver that proves what is among the facts. -/
def listSolver : Context where
  typeOf _ _ := .int .i64
  signatures _ := none
  floatFold _ _ := none
  proves facts goal := goal ∈ facts

/-- A program without nominal types. -/
def noNominal : Nominal := ⟨fun _ => false, fun _ => false⟩

theorem listSolver_sound : SolverSound listSolver Prims.bare noNominal :=
  fun _ goal hgoal _ hfacts => hfacts goal hgoal

/-- `x == 0` -/
def xIsZero : Expr := .binary .eq (.var "x") (.int 0)

/-- The `keep` of the section header. -/
def keep : Function where
  name := "keep"
  params := [⟨"x", .int .i64⟩]
  returnType := .int .i64
  requires := [xIsZero]
  ensures := []
  body := [.let_ "y" none (.var "x"), .prove xIsZero, .return_ (.var "y")]
  isPure := true

/-- The `lose` of the section header. -/
def lose : Function where
  name := "lose"
  params := [⟨"x", .int .i64⟩]
  returnType := .int .i64
  requires := [xIsZero]
  ensures := []
  body := [.if_ xIsZero [.assign "x" (.int 5)] [], .prove xIsZero, .return_ (.var "x")]
  isPure := true

/-- The environment of a function of one `i64`. -/
def xEnv : Env := [[("x", plainInfo (.int .i64))]]

/-- A store that binds `x` alone. -/
def xStore (k : Int) : Store Unit :=
  ⟨[Function.update (fun _ => none) "x" (some (.scalar (.int .i64 false k)))], fun _ => none, ()⟩

theorem xStore_lookup (k : Int) : (xStore k).lookup "x" = some (.scalar (.int .i64 false k)) := by
  simp [xStore, Store.lookup, lookupScopes]

theorem xIsZero_true : EvalsTrue Prims.bare noNominal (xStore 0) xIsZero :=
  compare_true (xStore_lookup 0) (.literal rfl) (by simp [compareIntegers])

theorem starts_keep : Starts listSolver Prims.bare noNominal xEnv keep
    ⟨.point ⟨entryState xEnv keep, keep.body⟩, [], xStore 0⟩ where
  control := rfl
  frames := rfl
  scopes := by simp [xStore]
  requires f hf := by
    rw [List.mem_singleton.1 hf]
    exact xIsZero_true.holds
  accepted := by simp [keep, loopsProvedAll, loopsProved]

theorem starts_lose : Starts listSolver Prims.bare noNominal xEnv lose
    ⟨.point ⟨entryState xEnv lose, lose.body⟩, [], xStore 0⟩ where
  control := rfl
  frames := rfl
  scopes := by simp [xStore]
  requires f hf := by
    rw [List.mem_singleton.1 hf]
    exact xIsZero_true.holds
  accepted := by simp [lose, loopsProvedAll, loopsProved]

/-- The first step of `keep`. -/
theorem keep_careful : Careful listSolver Prims.bare noNominal
    ⟨.point ⟨entryState xEnv keep, keep.body⟩, [], xStore 0⟩ ⟨[], ["y"]⟩ where
  restored fr hfr := by cases hfr
  counters fr hfr := by cases hfr
  counter p fr _ hfr := by cases hfr
  head fr hfr := by cases hfr
  stmt st s rest hst := by
    cases hst
    refine ⟨?_, ?_, ?_⟩
    · intro f hf
      rw [List.mem_singleton.1 (letKept_sub _ _ hf)]
      simp [Untouched, xIsZero, exprNames]
    · intro g args hcall
      cases hcall
    · exact fun hrec => absurd (by decide) hrec

/-- The fact of `keep` at its `prove`. -/
theorem smtFacts_hold_keep :
    FactsHold Prims.bare noNominal ((xStore 0).declare "y" (.scalar (.int .i64 false 0)))
      [xIsZero] := by
  have hstep : Step listSolver Prims.bare noNominal
      ⟨.point ⟨entryState xEnv keep, keep.body⟩, [], xStore 0⟩ ⟨[], ["y"]⟩
      ⟨.point ⟨afterStmt listSolver (entryState xEnv keep) (.let_ "y" none (.var "x")),
        [.prove xIsZero, .return_ (.var "y")]⟩, [],
        (xStore 0).declare "y" (.scalar (.int .i64 false 0))⟩ :=
    .let_ (by decide) (.var (xStore_lookup 0)) rfl
  have hrun := Run.step Run.start keep_careful hstep
  exact (smtFacts_hold listSolver_sound xEnv keep _ _ starts_keep hrun _ rfl).1

/-- `x == 0` where `x` is 5. -/
theorem xIsZero_false : ¬ Holds Prims.bare noNominal (xStore 5) xIsZero := by
  intro hholds
  obtain ⟨σ', w, heval⟩ := hholds fun n _ hn _ _ => by
    have hx : "x" = n := by simpa [xIsZero, exprMentions] using hn
    rw [← hx, xStore_lookup]
    rfl
  obtain ⟨vs, v, hr, hargs, happ⟩ := Eval.strict_inv heval rfl
  cases hr
  cases hargs with
  | argsCons hx hrest =>
    cases hrest with
    | argsCons hzero hnil =>
      cases hnil
      have hlook := Eval.var_inv hx
      rw [xStore_lookup] at hlook
      cases hlook
      obtain rfl := Eval.literal_inv rfl hzero
      rw [StrictOp.apply_binary, runBinary_compare (r := false) (by simp [compareIntegers])] at happ
      cases happ

/-- The branch of `lose` makes `x` 5. -/
theorem lose_store : ((xStore 0).push.assign "x" (.scalar (.int .i64 false 5))).pop =
    xStore 5 := by
  simp [xStore, Store.push, Store.pop, Store.assign, assignScopes]

/-- After the `if` of `lose`, the fact list has `x == 0` again and the goal is discharged,
but `x` is 5. -/
theorem lose_refutes : ∃ c₀ c : Config Unit, ∃ p : Point,
    SolverSound listSolver Prims.bare noNominal ∧
    Starts listSolver Prims.bare noNominal xEnv lose c₀ ∧
    Run listSolver Prims.bare noNominal (fun _ _ => True) c₀ c ∧ c.control = .point p ∧
    p.code = [.prove xIsZero, .return_ (.var "x")] ∧ xIsZero ∈ p.st.facts ∧
    listSolver.proves (currentSmtFacts p.st) xIsZero ∧ ConstantsRight p.st c.store ∧
    ¬ Holds Prims.bare noNominal c.store xIsZero := by
  have htrue : Eval Prims.bare noNominal (.expr xIsZero) (xStore 0)
      (.val (.scalar (.bool true))) (xStore 0) ([] ++ ([] ++ [])) := by
    refine .strict rfl (.argsCons (.var (xStore_lookup 0)) (.argsCons (.literal rfl) .argsNil)) ?_
    rw [StrictOp.apply_binary]
    exact runBinary_compare (by simp [compareIntegers])
  let c₀ : Config Unit := ⟨.point ⟨entryState xEnv lose, lose.body⟩, [], xStore 0⟩
  have hrun : Run listSolver Prims.bare noNominal (fun _ _ => True) c₀ c₀ := .start
  have hrun := hrun.step trivial (.if_ htrue)
  have hassign := @Step.assign Unit listSolver Prims.bare noNominal
    (ifBody (entryState xEnv lose) xIsZero true) "x" (.int 5) []
    [.branch (entryState xEnv lose) xIsZero [.assign "x" (.int 5)] [] true
      [.prove xIsZero, .return_ (.var "x")]]
    (xStore 0).push _ _ (.scalar (.int .i64 false 5)) _ _ (.literal rfl) rfl rfl
  have hrun := hrun.step trivial hassign
  have hrun := hrun.step trivial (.leave rfl)
  have hrun := hrun.step trivial .branchOut
  rw [lose_store] at hrun
  refine ⟨_, _, _, listSolver_sound, starts_lose, hrun, rfl, rfl, ?_, ?_, ?_, xIsZero_false⟩
  · exact List.mem_append_left _ (List.mem_singleton_self _)
  · exact List.mem_append_left _ (List.mem_append_left _ (List.mem_singleton_self _))
  · intro p hp c hc
    have hx : p = ("x", plainInfo (.int .i64)) := by
      simpa [Frame.exit, Frame.st, Frame.stmt, afterStmt, entryState, xEnv, clearConstantsFor,
        plainInfo] using hp
    rw [hx] at hc
    cases hc

end Vani.Analysis
