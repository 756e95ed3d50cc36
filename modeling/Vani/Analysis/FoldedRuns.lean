import Vani.Analysis.FoldConstants

/-!
# Runs of a folded module

No way leads to a use of a value around its definition, so a constant that the pass has
found for a value is what the value holds wherever it replaces it. A folded module runs in
step with the module it came from, provided that each fold is exact at the type of its
instruction, and that nothing is written through a reference into a value taken for a
constant.
-/

set_option autoImplicit false

namespace Vani.Analysis

open Vani.Library Vani.Program.Ssa Vani.Model.Ssa
open Vani.Program (Ty)

section Machine

variable {ν ω : Type}

/-! ## The invariant of a run -/

/-- A value known to be a constant holds it, or nothing yet. -/
def HoldsConstants (f : Function) (regs : ValueId → Option (Val ν)) : Prop :=
  ∀ v c, constants f v = some c → regs v = none ∨ regs v = some (.ofConst c)

/-- What a frame in a block holds: everything defined on the way to its place, and the
constants. -/
structure FrameOk (f : Function) (b : BasicBlock) (fr : Frame ν) : Prop where
  here : ∀ v, Defines (fun _ => True) b.params (b.instructions.take fr.done) v →
    (fr.regs v).isSome
  before : ∀ a ∈ f.blocks, a.id ≠ b.id →
    (∀ v, Defines (fun _ => True) a.params a.instructions v → (fr.regs v).isSome) ∨
      Avoids (next f.blocks) f.entry a.id b.id
  constants : HoldsConstants f fr.regs

/-- A frame is in a block of a function of the module. -/
def FrameAt (m : Module) (fr : Frame ν) (f : Function) (b : BasicBlock) : Prop :=
  m.functions[fr.fn]? = some f ∧ f.blocks[fr.block]? = some b ∧ FrameOk f b fr

/-- A frame waits for the result of a call, which is no known constant. -/
def Waiting (m : Module) (fr : Frame ν) : Prop :=
  ∃ f b i, FrameAt m fr f b ∧ b.instructions[fr.done]? = some i ∧ constants f i.result = none

/-- The frames of a run, the running one first. -/
def CallsOk : Module → List (Frame ν) → Prop
  | _, [] => False
  | m, fr :: callers => (∃ f b, FrameAt m fr f b) ∧ ∀ x ∈ callers, Waiting m x

/-- The invariant of a run. -/
def Invariant (m : Module) : State ν ω → Prop
  | .running fr callers _ => CallsOk m (fr :: callers)
  | _ => True

/-- Nothing but its constant is written into a value known to be one. -/
def KeepsConstants (m : Module) (frames : List (Frame ν))
    (writes : List (Nat × ValueId × Val ν)) : Prop :=
  ∀ w ∈ writes, ∀ k f c, (frames.map Frame.fn)[w.1]? = some k → m.functions[k]? = some f →
    constants f w.2.1 = some c → w.2.2 = .ofConst c

/-- The condition on a step: if the pass folds the instruction, it computes what the machine
does at the type of the instruction, and if the host does the instruction, it leaves the
known constants alone. -/
def StepExact (m : Module) (H : Host ν ω) : State ν ω → Prop
  | .running fr callers world =>
    ∀ f b i, m.functions[fr.fn]? = some f → f.blocks[fr.block]? = some b →
      b.instructions[fr.done]? = some i →
        ((tryFold (substituted (knownAt f fr.block fr.done) i)).isSome →
          FoldExact i.ty (substituted (knownAt f fr.block fr.done) i)) ∧
        ∀ xs x writes world', i.kind.operands.mapM fr.eval = some xs →
          operate i.ty i.kind xs = .host → callee m i.kind = none →
          H.act (shape i.kind) xs i.ty (fr :: callers) world = some (x, writes, world') →
            KeepsConstants m (fr :: callers) writes
  | _ => True

section Frames

variable {m : Module} {f : Function} {b : BasicBlock} {fr : Frame ν}

theorem HoldsConstants.update {regs : ValueId → Option (Val ν)} (h : HoldsConstants f regs)
    {v : ValueId} {x : Val ν} (hx : ∀ c, constants f v = some c → x = .ofConst c) :
    HoldsConstants f (Function.update regs v (some x)) := by
  intro u c hc
  by_cases huv : u = v
  · subst huv
    rw [Function.update_self, hx c hc]
    exact Or.inr rfl
  · rw [Function.update_of_ne huv]
    exact h u c hc

theorem isSome_update {regs : ValueId → Option (Val ν)} {u v : ValueId} {x : Val ν}
    (h : (regs u).isSome) : (Function.update regs v (some x) u).isSome := by
  by_cases huv : u = v
  · subst huv
    rw [Function.update_self]
    rfl
  · rwa [Function.update_of_ne huv]

/-- A value may be written, a known constant only with what it is. -/
theorem FrameOk.set (h : FrameOk f b fr) {v : ValueId} {x : Val ν}
    (hx : ∀ c, Analysis.constants f v = some c → x = .ofConst c) : FrameOk f b (fr.set v x) where
  here u hu := isSome_update (h.here u hu)
  before a ha hne := (h.before a ha hne).imp_left fun hall u hu => isSome_update (hall u hu)
  constants := h.constants.update hx

/-- The frame after an instruction. -/
theorem FrameOk.advance (h : FrameOk f b fr) {i : Instruction}
    (hi : b.instructions[fr.done]? = some i) {x : Val ν}
    (hx : ∀ c, Analysis.constants f i.result = some c → x = .ofConst c) :
    FrameOk f b (fr.advance i.result x) where
  here v hv := by
    have hdone : (fr.advance i.result x).done = fr.done + 1 := rfl
    have hregs : (fr.advance i.result x).regs = Function.update fr.regs i.result (some x) := rfl
    rw [hregs]
    rw [hdone, List.take_add_one, hi] at hv
    rcases hv with hv | ⟨j, hj, -, rfl⟩
    · exact isSome_update (h.here v (Or.inl hv))
    · rcases List.mem_append.mp hj with hj | hj
      · exact isSome_update (h.here _ (Or.inr ⟨j, hj, trivial, rfl⟩))
      · rw [Option.mem_toList] at hj
        cases hj
        rw [Function.update_self]
        rfl
  before := (h.set hx).before
  constants := (h.set hx).constants

/-- What is available at the place of a frame holds something. -/
theorem FrameOk.available (h : FrameOk f b fr) {v : ValueId}
    (hv : Available (next f.blocks) (fun _ => True) f b (b.instructions.take fr.done) v) :
    (fr.regs v).isSome := by
  rcases hv with hv | ⟨a, ha, hne, hdom, hv⟩
  · exact h.here v hv
  · exact (h.before a ha hne).elim (fun hall => hall v hv) fun hav => absurd hav hdom

/-- A constant in place of an operand is what the operand holds. -/
theorem FrameOk.eval_substOp (h : FrameOk f b fr) {env : ConstEnv}
    (henv : ∀ v c, env v = some c → Analysis.constants f v = some c) {o : Operand}
    (ho : ∀ v, o = .value v → (fr.regs v).isSome) : fr.eval (substOp env o) = fr.eval o := by
  cases o with
  | const c => rfl
  | value v =>
    unfold substOp
    dsimp only
    cases hc : env v with
    | none => rfl
    | some c =>
      have hsome := ho v rfl
      rcases h.constants v c (henv v c hc) with hv | hv
      · rw [hv] at hsome
        cases hsome
      · exact hv.symm

theorem mapM_map_eq {α β : Type} {e : α → Option β} {g : α → α} {os : List α}
    (h : ∀ o ∈ os, e (g o) = e o) : (os.map g).mapM e = os.mapM e := by
  induction os with
  | nil => rfl
  | cons o os ih =>
    rw [List.map_cons, List.mapM_cons, List.mapM_cons, h o List.mem_cons_self,
      ih fun o' ho' => h o' (List.mem_cons_of_mem o ho')]

/-! ## The parameters of a block -/

theorem bind_spec {params : List (ValueId × Ty)} {regs regs' : ValueId → Option (Val ν)}
    {xs : List (Val ν)} (h : bind regs params xs = some regs') :
    (∀ v, v ∈ params.map Prod.fst → (regs' v).isSome) ∧
      (∀ v, (regs v).isSome → (regs' v).isSome) ∧
      ∀ v, v ∉ params.map Prod.fst → regs' v = regs v := by
  induction params generalizing regs xs with
  | nil =>
    cases xs with
    | nil =>
      cases h
      exact ⟨fun v hv => absurd hv List.not_mem_nil, fun v hv => hv, fun v _ => rfl⟩
    | cons x xs => cases h
  | cons param params ih =>
    cases xs with
    | nil => cases h
    | cons x xs =>
      obtain ⟨v, ty⟩ := param
      obtain ⟨hparams, hkeep, hother⟩ := ih h
      refine ⟨fun u hu => ?_, fun u hu => hkeep u (isSome_update hu), fun u hu => ?_⟩
      · rcases List.mem_cons.mp hu with rfl | hu
        · refine hkeep _ ?_
          rw [Function.update_self]
          rfl
        · exact hparams u hu
      · rw [List.map_cons, List.mem_cons, not_or] at hu
        rw [hother u hu.2, Function.update_of_ne hu.1]

/-- Parameters are not known constants, so a block can be entered with anything. -/
theorem HoldsConstants.bind (hf : InSsaForm f) (hb : b ∈ f.blocks)
    {regs regs' : ValueId → Option (Val ν)} {xs : List (Val ν)}
    (hbind : Model.Ssa.bind regs b.params xs = some regs') (h : HoldsConstants f regs) :
    HoldsConstants f regs' := by
  intro v c hc
  by_cases hv : v ∈ b.params.map Prod.fst
  · rw [hf.constants_param hb hv] at hc
    cases hc
  · rw [(bind_spec hbind).2.2 v hv]
    exact h v c hc

theorem block_mem {n : Nat} (hb : f.blocks[n]? = some b) : b ∈ f.blocks := List.mem_of_getElem? hb

theorem next_of_getElem? (hf : InSsaForm f) {n : Nat} (hb : f.blocks[n]? = some b) :
    next f.blocks b.id = b.terminator.targets := by
  unfold next
  rw [hf.ids n b hb, hb]

/-- A call starts at the entry block, with its parameters. -/
theorem frameOk_entry (hf : InSsaForm f) (hb : f.blocks[f.entry]? = some b) {k : Nat}
    {regs : ValueId → Option (Val ν)} {xs : List (Val ν)}
    (hbind : bind (fun _ => none) b.params xs = some regs) :
    FrameOk f b ⟨k, f.entry, 0, regs⟩ where
  here v hv := by
    rcases hv with hv | ⟨i, hi, -⟩
    · exact (bind_spec hbind).1 v hv
    · exact absurd hi List.not_mem_nil
  before a ha hne := by
    rw [hf.ids _ b hb] at hne ⊢
    exact Or.inr (.start hne.symm)
  constants := HoldsConstants.bind hf (block_mem hb) hbind fun _ _ _ => Or.inl rfl

/-- A jump leads from the end of a block to the start of a target. -/
theorem FrameOk.goto (hf : InSsaForm f) (hb : f.blocks[fr.block]? = some b)
    (h : FrameOk f b fr) (hend : b.instructions[fr.done]? = none) {t : BlockId}
    (ht : t ∈ b.terminator.targets) {b' : BasicBlock} (hb' : f.blocks[t]? = some b')
    {regs : ValueId → Option (Val ν)} {xs : List (Val ν)}
    (hbind : bind fr.regs b'.params xs = some regs) : FrameOk f b' ⟨fr.fn, t, 0, regs⟩ where
  here v hv := by
    rcases hv with hv | ⟨i, hi, -⟩
    · exact (bind_spec hbind).1 v hv
    · exact absurd hi List.not_mem_nil
  before a ha hne := by
    have hkeep := (bind_spec hbind).2.1
    by_cases hsame : a.id = b.id
    · -- the block that ends defines all that it can
      obtain ⟨n, hn⟩ := List.mem_iff_getElem?.mp ha
      rw [hf.ids n a hn, hf.ids fr.block b hb] at hsame
      rw [hsame, hb] at hn
      cases hn
      refine Or.inl fun v hv => hkeep v (h.here v ?_)
      rwa [List.take_of_length_le (List.getElem?_eq_none_iff.mp hend)]
    · rcases h.before a ha hsame with hall | hav
      · exact Or.inl fun v hv => hkeep v (hall v hv)
      · refine Or.inr (hav.step ?_ fun heq => hne heq.symm)
        rwa [next_of_getElem? hf hb, hf.ids t b' hb']
  constants := HoldsConstants.bind hf (block_mem hb') hbind h.constants

/-! ## Writes through references -/

theorem FrameAt.set (h : FrameAt m fr f b) {v : ValueId} {x : Val ν}
    (hx : ∀ c, constants f v = some c → x = .ofConst c) : FrameAt m (fr.set v x) f b :=
  ⟨h.1, h.2.1, h.2.2.set hx⟩

theorem Waiting.set (h : Waiting m fr) {v : ValueId} {x : Val ν}
    (hx : ∀ f c, m.functions[fr.fn]? = some f → constants f v = some c → x = .ofConst c) :
    Waiting m (fr.set v x) := by
  obtain ⟨f, b, i, hat, hi, hnone⟩ := h
  exact ⟨f, b, i, hat.set fun c hc => hx f c hat.1 hc, hi, hnone⟩

theorem getElem?_write (frames : List (Frame ν)) (w : Nat × ValueId × Val ν) (n : Nat) :
    (write frames w)[n]? =
      (frames[n]?).map fun fr => if w.1 = n then fr.set w.2.1 w.2.2 else fr :=
  List.getElem?_modify ..

/-- A write changes what a value holds and nothing else. -/
theorem map_write {β : Type} {p : Frame ν → β} (hp : ∀ fr v x, p (fr.set v x) = p fr)
    (frames : List (Frame ν)) (w : Nat × ValueId × Val ν) :
    (write frames w).map p = frames.map p := by
  refine List.ext_getElem? fun n => ?_
  rw [List.getElem?_map, List.getElem?_map, getElem?_write, Option.map_map]
  refine congrArg (Option.map · frames[n]?) (funext fun fr => ?_)
  rw [Function.comp_apply]
  split
  · exact hp fr _ _
  · rfl

theorem map_writes {β : Type} {p : Frame ν → β} (hp : ∀ fr v x, p (fr.set v x) = p fr)
    (frames : List (Frame ν)) (ws : List (Nat × ValueId × Val ν)) :
    (ws.foldl write frames).map p = frames.map p := by
  induction ws generalizing frames with
  | nil => rfl
  | cons w ws ih => exact (ih (write frames w)).trans (map_write hp frames w)

theorem CallsOk.write {frames : List (Frame ν)} (h : CallsOk m frames)
    {w : Nat × ValueId × Val ν} (hw : KeepsConstants m frames [w]) :
    CallsOk m (write frames w) := by
  obtain ⟨d, v, x⟩ := w
  have hx : ∀ fr : Frame ν, frames[d]? = some fr → ∀ f c, m.functions[fr.fn]? = some f →
      constants f v = some c → x = .ofConst c := by
    intro fr hfr f c hf hc
    refine hw (d, v, x) List.mem_cons_self fr.fn f c ?_ hf hc
    rw [List.getElem?_map, hfr]
    rfl
  cases frames with
  | nil => cases h
  | cons fr callers =>
    obtain ⟨⟨f, b, hat⟩, hcallers⟩ := h
    cases d with
    | zero => exact ⟨⟨f, b, hat.set (hx fr rfl f · hat.1)⟩, hcallers⟩
    | succ d =>
      have hwrite : Model.Ssa.write (fr :: callers) (d + 1, v, x) =
          fr :: Model.Ssa.write callers (d, v, x) := rfl
      rw [hwrite]
      refine ⟨⟨f, b, hat⟩, fun y hy => ?_⟩
      obtain ⟨n, hn⟩ := List.mem_iff_getElem?.mp hy
      rw [getElem?_write, Option.map_eq_some_iff] at hn
      obtain ⟨z, hz, rfl⟩ := hn
      have hwait := hcallers z (List.mem_of_getElem? hz)
      split
      · next hd =>
        subst hd
        exact hwait.set (hx z hz)
      · exact hwait

theorem CallsOk.writes {writes : List (Nat × ValueId × Val ν)} {frames : List (Frame ν)}
    (h : CallsOk m frames) (hw : KeepsConstants m frames writes) :
    CallsOk m (writes.foldl Model.Ssa.write frames) := by
  induction writes generalizing frames with
  | nil => exact h
  | cons w ws ih =>
    refine ih (h.write fun w' hw' => ?_) fun w' hw' => ?_
    · rw [List.mem_singleton.mp hw']
      exact hw w List.mem_cons_self
    · rw [map_write fun _ _ _ => rfl]
      exact hw w' (List.mem_cons_of_mem w hw')

/-! ## The folded module in step -/

theorem getElem?_functions (m : Module) (k : Nat) :
    (foldConstants m).1.functions[k]? =
      (m.functions[k]?).map fun f => (foldConstantsInFunction f).1 := List.getElem?_map

theorem blockOf_eq (hfn : m.functions[fr.fn]? = some f) : blockOf m fr = f.blocks[fr.block]? := by
  unfold blockOf
  rw [hfn]
  rfl

/-- The folded module has the same blocks with the instructions rewritten. -/
theorem blockOf_fold (m : Module) (fr : Frame ν) :
    ∃ g : BasicBlock → BasicBlock, blockOf (foldConstants m).1 fr = (blockOf m fr).map g ∧
      (∀ b, (g b).params = b.params) ∧
      ∀ (b : BasicBlock) (k : Nat), ((g b).instructions[k]?).map Instruction.result =
        (b.instructions[k]?).map Instruction.result := by
  unfold blockOf
  rw [getElem?_functions]
  cases m.functions[fr.fn]? with
  | none => exact ⟨id, rfl, fun _ => rfl, fun _ _ => rfl⟩
  | some f =>
    refine ⟨rewrittenBlock (learnAll (fun _ => none) (code (f.blocks.take fr.block))),
      getElem?_folded f fr.block, fun _ => rfl, fun b k => ?_⟩
    rw [rewrittenBlock, List.getElem?_mapIdx, Option.map_map]
    refine congrArg (Option.map · b.instructions[k]?) (funext fun i => ?_)
    rw [Function.comp_apply, rewritten]
    cases tryFold (substituted (learnAll (learnAll (fun _ => none)
      (code (f.blocks.take fr.block))) (b.instructions.take k)) i) <;> rfl

theorem enter_fold (k : Nat) (xs : List (Val ν)) (callers : List (Frame ν)) (world : ω) :
    enter (foldConstants m).1 k xs callers world = enter m k xs callers world := by
  unfold enter
  rw [getElem?_functions]
  cases m.functions[k]? with
  | none => rfl
  | some f =>
    have hentry : (foldConstantsInFunction f).1.entry = f.entry := rfl
    rw [Option.map_some]
    dsimp only
    rw [hentry, getElem?_folded]
    cases f.blocks[f.entry]? <;> rfl

theorem goto_fold (t : BlockId) (args : List Operand) (callers : List (Frame ν)) (world : ω) :
    goto (foldConstants m).1 t args fr callers world = goto m t args fr callers world := by
  obtain ⟨g, hg, hparams, -⟩ := blockOf_fold m { fr with block := t }
  unfold goto
  rw [hg]
  cases args.mapM fr.eval with
  | none => rfl
  | some xs =>
    cases blockOf m { fr with block := t } with
    | none => rfl
    | some b =>
      rw [Option.map_some]
      dsimp only
      rw [hparams]

theorem leave_fold (x : Val ν) (callers : List (Frame ν)) (world : ω) :
    leave (foldConstants m).1 x callers world = leave m x callers world := by
  cases callers with
  | nil => rfl
  | cons fr callers =>
    obtain ⟨g, hg, -, hresults⟩ := blockOf_fold m fr
    unfold leave
    dsimp only
    rw [hg]
    cases blockOf m fr with
    | none => rfl
    | some b =>
      have hresult := hresults b fr.done
      rw [Option.map_some, Option.bind_some, Option.bind_some]
      cases hi : b.instructions[fr.done]? with
      | none =>
        rw [hi, Option.map_none, Option.map_eq_none_iff] at hresult
        rw [hresult]
      | some i =>
        rw [hi, Option.map_some, Option.map_eq_some_iff] at hresult
        obtain ⟨j, hj, hres⟩ := hresult
        rw [hj]
        dsimp only
        rw [hres]

theorem callee_fold (k : InstrKind) : callee (foldConstants m).1 k = callee m k := by
  cases k with
  | call name args =>
    have hfns : (foldConstants m).1.functions =
        m.functions.map fun f => (foldConstantsInFunction f).1 := rfl
    unfold callee
    dsimp only
    rw [hfns, List.findIdx?_map]
    rfl
  | _ => rfl

/-! ## One step -/

section Step

variable {H : Host ν ω} {i : Instruction} {callers : List (Frame ν)} {world : ω}

/-- The pass's knowledge before the instruction of a frame. -/
theorem knownAt_le (hf : InSsaForm f) (hat : FrameAt m fr f b) :
    ∀ v c, knownAt f fr.block fr.done v = some c → constants f v = some c :=
  fun _ _ h => hf.knownAt_le hat.2.1 h

theorem constants_result (hf : InSsaForm f) (hat : FrameAt m fr f b)
    (hi : b.instructions[fr.done]? = some i) :
    constants f i.result = tryFold (substituted (knownAt f fr.block fr.done) i) := by
  obtain ⟨rest, hcode⟩ := code_split hat.2.1 hi
  rw [hf.constants_result hcode, knownAt_eq hat.2.1]

/-- The operands of an instruction hold what the constants in their place are. -/
theorem operands_eval (hf : InSsaForm f) (hat : FrameAt m fr f b)
    (hi : b.instructions[fr.done]? = some i) :
    (substituted (knownAt f fr.block fr.done) i).operands.mapM fr.eval =
      i.kind.operands.mapM fr.eval := by
  rw [substituted, operands_mapOperands]
  refine mapM_map_eq fun o ho => ?_
  refine hat.2.2.eval_substOp (knownAt_le hf hat) fun v hv => ?_
  obtain ⟨hk, hget⟩ := List.getElem?_eq_some_iff.mp hi
  have hsplit : b.instructions =
      b.instructions.take fr.done ++ i :: b.instructions.drop (fr.done + 1) := by
    rw [← hget, List.getElem_cons_drop, List.take_append_drop]
  exact hat.2.2.available (hf.operands b (block_mem hat.2.1) _ i _ hsplit v (hv ▸ ho))

/-- An instruction that folds computes its constant. -/
theorem operate_folded (hf : InSsaForm f) (hat : FrameAt m fr f b)
    (hi : b.instructions[fr.done]? = some i) {c : Const}
    (hfold : tryFold (substituted (knownAt f fr.block fr.done) i) = some c)
    (hexact : FoldExact i.ty (substituted (knownAt f fr.block fr.done) i)) :
    (Val.ofConst c : Val ν).at i.ty = .ofConst c ∧
      ∃ xs, i.kind.operands.mapM fr.eval = some xs ∧
        operate i.ty i.kind xs = .value (.ofConst c) := by
  obtain ⟨hconst, xs, hxs, hop⟩ := operate_of_fold fr hfold hexact
  rw [operands_eval hf hat hi] at hxs
  rw [substituted, operate_mapOperands] at hop
  exact ⟨hconst, xs, hxs, hop⟩

/-- A folded instruction does what it did. -/
theorem execInstr_fold (hf : InSsaForm f) (hat : FrameAt m fr f b)
    (hi : b.instructions[fr.done]? = some i)
    (hexact : (tryFold (substituted (knownAt f fr.block fr.done) i)).isSome →
      FoldExact i.ty (substituted (knownAt f fr.block fr.done) i)) :
    execInstr (foldConstants m).1 H (rewritten (knownAt f fr.block fr.done) i) fr callers world =
      execInstr m H i fr callers world := by
  cases hfold : tryFold (substituted (knownAt f fr.block fr.done) i) with
  | some c =>
    obtain ⟨hconst, xs, hxs, hop⟩ :=
      operate_folded hf hat hi hfold (hexact (by rw [hfold]; rfl))
    have hleft : execInstr (foldConstants m).1 H (rewritten (knownAt f fr.block fr.done) i) fr
        callers world = .running (fr.advance i.result ((Val.ofConst c).at i.ty)) callers world := by
      unfold rewritten
      rw [hfold]
      rfl
    rw [hleft, hconst]
    unfold execInstr
    rw [hxs]
    dsimp only
    rw [hop]
  | none =>
    unfold rewritten
    rw [hfold]
    unfold execInstr
    dsimp only
    rw [operands_eval hf hat hi]
    cases i.kind.operands.mapM fr.eval with
    | none => rfl
    | some xs =>
      dsimp only
      rw [substituted, operate_mapOperands]
      cases operate i.ty i.kind xs with
      | value x => rfl
      | trap => rfl
      | host =>
        dsimp only
        rw [callee_fold, callee_mapOperands]
        cases callee m i.kind with
        | some k => exact enter_fold k xs (fr :: callers) world
        | none =>
          unfold actHost
          dsimp only
          rw [shape_mapOperands]

/-- A call enters a function. -/
theorem Invariant.enter (hm : ∀ f ∈ m.functions, InSsaForm f) (k : Nat) (xs : List (Val ν))
    (hcallers : ∀ x ∈ callers, Waiting m x) :
    Invariant m (Model.Ssa.enter m k xs callers world) := by
  unfold Model.Ssa.enter
  cases hf : m.functions[k]? with
  | none => trivial
  | some f =>
    dsimp only
    have hform := hm f (List.mem_of_getElem? hf)
    cases hb : f.blocks[f.entry]? with
    | none => trivial
    | some b =>
      dsimp only
      cases hbind : bind (fun _ => none) b.params xs with
      | none => trivial
      | some regs => exact ⟨⟨f, b, hf, hb, frameOk_entry hform hb hbind⟩, hcallers⟩

/-- The invariant holds after an instruction. -/
theorem Invariant.execInstr (hm : ∀ f ∈ m.functions, InSsaForm f) (hat : FrameAt m fr f b)
    (hcallers : ∀ x ∈ callers, Waiting m x) (hi : b.instructions[fr.done]? = some i)
    (hok : StepExact m H (.running fr callers world)) :
    Invariant m (Model.Ssa.execInstr m H i fr callers world) := by
  have hf := hm f (List.mem_of_getElem? hat.1)
  obtain ⟨hexact, hkeeps⟩ := hok f b i hat.1 hat.2.1 hi
  -- what the instruction gives if it folds
  have hfolded : ∀ c, constants f i.result = some c →
      ∃ xs, i.kind.operands.mapM fr.eval = some xs ∧
        operate i.ty i.kind xs = .value (.ofConst c) := by
    intro c hc
    rw [constants_result hf hat hi] at hc
    exact (operate_folded hf hat hi hc (hexact (by rw [hc]; rfl))).2
  unfold Model.Ssa.execInstr
  cases hxs : i.kind.operands.mapM fr.eval with
  | none => trivial
  | some xs =>
    dsimp only
    cases hop : operate i.ty i.kind xs with
    | trap => trivial
    | value x =>
      refine ⟨⟨f, b, hat.1, hat.2.1, hat.2.2.advance hi fun c hc => ?_⟩, hcallers⟩
      obtain ⟨ys, hys, hval⟩ := hfolded c hc
      rw [hxs] at hys
      cases hys
      rw [hop] at hval
      cases hval
      rfl
    | host =>
      have hnone : constants f i.result = none := by
        cases hc : constants f i.result with
        | none => rfl
        | some c =>
          obtain ⟨ys, hys, hval⟩ := hfolded c hc
          rw [hxs] at hys
          cases hys
          rw [hop] at hval
          cases hval
      dsimp only
      cases hcallee : callee m i.kind with
      | some k =>
        refine Invariant.enter hm k xs fun y hy => ?_
        rcases List.mem_cons.mp hy with rfl | hy
        · exact ⟨f, b, i, hat, hi, hnone⟩
        · exact hcallers y hy
      | none =>
        dsimp only
        unfold actHost
        cases hact : H.act (shape i.kind) xs i.ty (fr :: callers) world with
        | none => trivial
        | some out =>
          obtain ⟨x, writes, world'⟩ := out
          have hframes : CallsOk m (writes.foldl write (fr :: callers)) :=
            CallsOk.writes ⟨⟨f, b, hat⟩, hcallers⟩ (hkeeps xs x writes world' hxs hop hcallee hact)
          have hplace := map_writes (p := fun fr : Frame ν => (fr.fn, fr.block, fr.done))
            (fun _ _ _ => rfl) (fr :: callers) writes
          dsimp only
          cases hlist : writes.foldl write (fr :: callers) with
          | nil => trivial
          | cons fr' callers' =>
            rw [hlist] at hframes hplace
            obtain ⟨⟨f', b', hat'⟩, hcallers'⟩ := hframes
            simp only [List.map_cons, List.cons.injEq, Prod.mk.injEq] at hplace
            obtain ⟨⟨hfn, hblock, hdone⟩, -⟩ := hplace
            obtain ⟨hf', hb', hframe⟩ := hat'
            rw [hfn, hat.1] at hf'
            cases hf'
            rw [hblock, hat.2.1] at hb'
            cases hb'
            have hi' : b.instructions[fr'.done]? = some i := by rw [hdone, hi]
            refine ⟨⟨f, b, hfn ▸ hat.1, hblock ▸ hat.2.1, hframe.advance hi' fun c hc => ?_⟩,
              hcallers'⟩
            rw [hnone] at hc
            cases hc

/-- What the operands of the terminator hold at the end of a block. -/
theorem terminator_eval (hf : InSsaForm f) (hat : FrameAt m fr f b)
    (hend : b.instructions[fr.done]? = none) {o : Operand} (ho : o ∈ b.terminator.operands) :
    fr.eval (substOp (knownAt f fr.block b.instructions.length) o) = fr.eval o := by
  refine hat.2.2.eval_substOp (fun v c hc => hf.knownAt_le hat.2.1 hc) fun v hv => ?_
  refine hat.2.2.available ?_
  rw [List.take_of_length_le (List.getElem?_eq_none_iff.mp hend)]
  exact hf.terminators b (block_mem hat.2.1) v (hv ▸ ho)

/-- The end of a folded block does what it did. -/
theorem execTerminator_fold (hf : InSsaForm f) (hat : FrameAt m fr f b)
    (hend : b.instructions[fr.done]? = none) :
    execTerminator (foldConstants m).1
        (b.terminator.mapOperands (substOp (knownAt f fr.block b.instructions.length))) fr callers
        world = execTerminator m b.terminator fr callers world := by
  have heval := fun o ho => terminator_eval hf hat hend (o := o) ho
  have hgoto : ∀ t (args : List Operand), (∀ o ∈ args, o ∈ b.terminator.operands) →
      goto (foldConstants m).1 t
          (args.map (substOp (knownAt f fr.block b.instructions.length))) fr callers world =
        goto m t args fr callers world := by
    intro t args hargs
    rw [goto_fold]
    unfold goto
    rw [mapM_map_eq fun o ho => heval o (hargs o ho)]
  cases hterm : b.terminator with
  | ret x =>
    cases x with
    | none => exact leave_fold .unit callers world
    | some x =>
      have hx := heval x (by rw [hterm]; exact List.mem_cons_self)
      simp only [Terminator.mapOperands, Option.map_some, execTerminator, hx, leave_fold]
  | jump t args =>
    exact hgoto t args fun o ho => by
      rw [hterm]
      exact ho
  | branch cond thenBlock thenArgs elseBlock elseArgs =>
    have hcond := heval cond (by rw [hterm]; exact List.mem_cons_self)
    have hthen := hgoto thenBlock thenArgs fun o ho => by
      rw [hterm]
      exact List.mem_cons_of_mem _ (List.mem_append_left _ ho)
    have helse := hgoto elseBlock elseArgs fun o ho => by
      rw [hterm]
      exact List.mem_cons_of_mem _ (List.mem_append_right _ ho)
    simp only [Terminator.mapOperands, execTerminator, hcond, hthen, helse]
  | unreachable => rfl

/-- A jump enters a block of the function. -/
theorem Invariant.goto (hf : InSsaForm f) (hat : FrameAt m fr f b)
    (hcallers : ∀ x ∈ callers, Waiting m x) (hend : b.instructions[fr.done]? = none)
    {t : BlockId} (ht : t ∈ b.terminator.targets) (args : List Operand) :
    Invariant m (Model.Ssa.goto m t args fr callers world) := by
  unfold Model.Ssa.goto
  have hblock : blockOf m { fr with block := t } = f.blocks[t]? := blockOf_eq hat.1
  rw [hblock]
  cases args.mapM fr.eval with
  | none => trivial
  | some xs =>
    cases hb' : f.blocks[t]? with
    | none => trivial
    | some b' =>
      dsimp only
      cases hbind : bind fr.regs b'.params xs with
      | none => trivial
      | some regs =>
        exact ⟨⟨f, b', hat.1, hb', hat.2.2.goto hf hat.2.1 hend ht hb' hbind⟩, hcallers⟩

/-- A return goes on in the caller. -/
theorem Invariant.leave (x : Val ν) (hcallers : ∀ x ∈ callers, Waiting m x) :
    Invariant m (Model.Ssa.leave m x callers world) := by
  cases callers with
  | nil => trivial
  | cons fr callers =>
    obtain ⟨f, b, i, hat, hi, hnone⟩ := hcallers fr List.mem_cons_self
    unfold Model.Ssa.leave
    dsimp only
    rw [blockOf_eq hat.1, hat.2.1, Option.bind_some, hi]
    refine ⟨⟨f, b, hat.1, hat.2.1, hat.2.2.advance hi fun c hc => ?_⟩,
      fun y hy => hcallers y (List.mem_cons_of_mem fr hy)⟩
    rw [hnone] at hc
    cases hc

/-- The invariant holds after the end of a block. -/
theorem Invariant.execTerminator (hf : InSsaForm f) (hat : FrameAt m fr f b)
    (hcallers : ∀ x ∈ callers, Waiting m x) (hend : b.instructions[fr.done]? = none) :
    Invariant m (Model.Ssa.execTerminator m b.terminator fr callers world) := by
  have hgoto : ∀ t, t ∈ b.terminator.targets → ∀ args,
      Invariant m (Model.Ssa.goto m t args fr callers world) := fun t ht args =>
    Invariant.goto hf hat hcallers hend ht args
  cases hterm : b.terminator with
  | ret x =>
    cases x with
    | none => exact Invariant.leave .unit hcallers
    | some x =>
      unfold Model.Ssa.execTerminator
      dsimp only
      cases fr.eval x with
      | none => trivial
      | some y => exact Invariant.leave y hcallers
  | jump t args => exact hgoto t (by rw [hterm]; exact List.mem_cons_self) args
  | branch cond t₁ a₁ t₂ a₂ =>
    have h₁ := hgoto t₁ (by rw [hterm]; exact List.mem_cons_self) a₁
    have h₂ := hgoto t₂ (by rw [hterm]; exact List.mem_cons_of_mem _ List.mem_cons_self) a₂
    unfold Model.Ssa.execTerminator
    dsimp only
    split
    · exact h₁
    · exact h₂
    · trivial
  | unreachable => trivial

/-- One step of the folded module is the step of the module. -/
theorem step_fold (hm : ∀ f ∈ m.functions, InSsaForm f) {s : State ν ω} (hs : Invariant m s)
    (hok : StepExact m H s) :
    step (foldConstants m).1 H s = step m H s ∧ Invariant m (step m H s) := by
  cases s with
  | running fr callers world =>
    obtain ⟨⟨f, b, hat⟩, hcallers⟩ := hs
    have hf := hm f (List.mem_of_getElem? hat.1)
    have hblock : blockOf m fr = some b := (blockOf_eq hat.1).trans hat.2.1
    have hfolded : blockOf (foldConstants m).1 fr =
        some (rewrittenBlock (learnAll (fun _ => none) (code (f.blocks.take fr.block))) b) := by
      have hfn := getElem?_functions m fr.fn
      rw [hat.1] at hfn
      rw [blockOf_eq hfn, getElem?_folded, hat.2.1]
      rfl
    have hknown : ∀ k, learnAll (learnAll (fun _ => none) (code (f.blocks.take fr.block)))
        (b.instructions.take k) = knownAt f fr.block k := by
      intro k
      unfold knownAt
      rw [hat.2.1]
      rfl
    unfold step
    dsimp only
    rw [hfolded, hblock]
    dsimp only
    have hinstr : (rewrittenBlock (learnAll (fun _ => none) (code (f.blocks.take fr.block)))
        b).instructions[fr.done]? =
        (b.instructions[fr.done]?).map (rewritten (knownAt f fr.block fr.done)) := by
      rw [rewrittenBlock, List.getElem?_mapIdx]
      simp only [hknown]
    rw [hinstr]
    cases hi : b.instructions[fr.done]? with
    | some i =>
      exact ⟨execInstr_fold hf hat hi (hok f b i hat.1 hat.2.1 hi).1,
        Invariant.execInstr hm hat hcallers hi hok⟩
    | none =>
      have hend := hknown b.instructions.length
      rw [List.take_length] at hend
      refine ⟨?_, Invariant.execTerminator hf hat hcallers hi⟩
      rw [Option.map_none]
      dsimp only
      rw [← execTerminator_fold hf hat hi, ← hend]
      rfl
  | returned x world => exact ⟨rfl, trivial⟩
  | trapped world => exact ⟨rfl, trivial⟩
  | stuck => exact ⟨rfl, trivial⟩

end Step

end Frames

end Machine

/-! ## Runs -/

/-- In every run of a call of a function of a module in SSA form whose steps are exact, the
folded module is in the same state after every number of steps. -/
theorem foldConstants_run {ν ω : Type} (m : Module) (hm : ∀ f ∈ m.functions, InSsaForm f)
    (H : Host ν ω) (k : Nat) (xs : List (Val ν)) (world : ω) (n : Nat)
    (hok : ∀ j < n, StepExact m H (run m H j (enter m k xs [] world))) :
    run (foldConstants m).1 H n (enter (foldConstants m).1 k xs [] world) =
      run m H n (enter m k xs [] world) := by
  have key : run (foldConstants m).1 H n (enter m k xs [] world) =
      run m H n (enter m k xs [] world) ∧ Invariant m (run m H n (enter m k xs [] world)) := by
    induction n with
    | zero => exact ⟨rfl, Invariant.enter hm k xs fun y hy => absurd hy List.not_mem_nil⟩
    | succ n ih =>
      obtain ⟨hsame, hinv⟩ := ih fun j hj => hok j (Nat.lt_succ_of_lt hj)
      have hstep := step_fold hm hinv (hok n (Nat.lt_succ_self n))
      refine ⟨?_, hstep.2⟩
      rw [run, hsame, hstep.1]
      rfl
  rw [enter_fold]
  exact key.1

/-- A host with nothing to do. -/
def idle : Host Unit Unit := ⟨fun _ _ _ _ _ => none⟩

/-- `return 1 + 2;` -/
def onePlusTwo : Function where
  name := "main"
  isExtern := false
  entry := 0
  blocks := [⟨0, [], [⟨0, .binary .add (.const (.int 1)) (.const (.int 2)), .int .i64⟩],
    .ret (some (.value 0))⟩]

theorem onePlusTwo_inSsaForm : InSsaForm onePlusTwo := by
  have hblock : ∀ b ∈ onePlusTwo.blocks, b = onePlusTwo.blocks.head (by decide) :=
    fun b hb => List.mem_singleton.mp hb
  refine ⟨fun n b hb => ?_, by decide, fun b hb pre i post hsplit v hv => ?_, fun b hb v hv => ?_⟩
  · cases n with
    | zero =>
      cases hb
      rfl
    | succ n => cases hb
  · rw [hblock b hb] at hsplit
    cases pre with
    | nil =>
      cases hsplit
      simp [InstrKind.operands] at hv
    | cons j pre =>
      have hlength := congrArg List.length hsplit
      simp [onePlusTwo] at hlength
  · rw [hblock b hb] at hv ⊢
    cases List.mem_singleton.mp hv
    exact Or.inl (Or.inr ⟨_, List.mem_cons_self, trivial, rfl⟩)

/-- The run of it to its end. -/
theorem foldConstants_run_onePlusTwo :
    run (foldConstants ⟨[onePlusTwo]⟩).1 idle 2 (enter (foldConstants ⟨[onePlusTwo]⟩).1 0 [] [] ()) =
      run ⟨[onePlusTwo]⟩ idle 2 (enter ⟨[onePlusTwo]⟩ 0 [] [] ()) := by
  refine foldConstants_run ⟨[onePlusTwo]⟩ (fun f hf => ?_) idle 0 [] () 2 fun j hj => ?_
  · rw [List.mem_singleton.mp hf]
    exact onePlusTwo_inSsaForm
  · rcases j with _ | _ | j
    · intro f b i hf hb hi
      cases hf
      cases hb
      cases hi
      refine ⟨fun _ => Or.inr ⟨.i64, rfl, by decide, by decide, ?_, ?_, ?_⟩, ?_⟩
      · rintro r ⟨⟩
        decide
      · rintro ⟨⟩
      · rintro (h | h) <;> cases h
      · rintro xs x writes world' - - - hact
        cases hact
    · intro f b i hf hb hi
      cases hf
      cases hb
      cases hi
    · omega

/-- `let x: u8 = 200 + 100; if x > 100 { return 1; } else { return 0; }` -/
def overflowing : Function where
  name := "main"
  isExtern := false
  entry := 0
  blocks := [
    ⟨0, [], [⟨0, .binary .add (.const (.int 200)) (.const (.int 100)), .int .u8⟩,
        ⟨1, .binary .gt (.value 0) (.const (.int 100)), .bool⟩],
      .branch (.value 1) 1 [] 2 []⟩,
    ⟨1, [], [], .ret (some (.const (.int 1)))⟩,
    ⟨2, [], [], .ret (some (.const (.int 0)))⟩]

theorem overflowing_inSsaForm : InSsaForm overflowing := by
  refine ⟨fun n b hb => ?_, by decide, fun b hb pre i post hsplit v hv => ?_, fun b hb v hv => ?_⟩
  · rcases n with _ | _ | _ | n <;> cases hb <;> rfl
  · simp only [overflowing, List.mem_cons, List.not_mem_nil, or_false] at hb
    rcases hb with rfl | rfl | rfl
    · rcases pre with _ | ⟨j, _ | ⟨j', pre⟩⟩
      · cases hsplit
        simp [InstrKind.operands] at hv
      · cases hsplit
        have hv0 : v = 0 := by simpa [InstrKind.operands] using hv
        subst hv0
        exact Or.inl (Or.inr ⟨_, List.mem_cons_self, trivial, rfl⟩)
      · have hlength := congrArg List.length hsplit
        simp at hlength
    · simp at hsplit
    · simp at hsplit
  · simp only [overflowing, List.mem_cons, List.not_mem_nil, or_false] at hb
    rcases hb with rfl | rfl | rfl
    · have hv1 : v = 1 := by simpa [Terminator.operands] using hv
      subst hv1
      exact Or.inl (Or.inr ⟨_, List.mem_cons_of_mem _ List.mem_cons_self, trivial, rfl⟩)
    · simp [Terminator.operands] at hv
    · simp [Terminator.operands] at hv

/-- The sum is 44 at its type, and 300 to the pass: the folded function takes the other
branch. -/
theorem overflowing_refutes :
    (∀ f ∈ [overflowing], InSsaForm f) ∧
      run ⟨[overflowing]⟩ idle 4 (enter ⟨[overflowing]⟩ 0 [] [] ()) = .returned (.int 0) () ∧
      run (foldConstants ⟨[overflowing]⟩).1 idle 4
        (enter (foldConstants ⟨[overflowing]⟩).1 0 [] [] ()) = .returned (.int 1) () := by
  refine ⟨fun f hf => ?_, by rfl, by rfl⟩
  rw [List.mem_singleton.mp hf]
  exact overflowing_inSsaForm

end Vani.Analysis
