import Vani.Analysis.FoldedRuns
import Vani.Program.ElideBounds

/-!
# Accesses without a check are in bounds

An array type gives the length of every array of the type. Where the types of a module agree, along
its jumps, its calls and its returns, and the host keeps to them, an array that a value holds has
the length that the pass takes it to have, in every state of every run. So an access that loses its
check is at an index below the length, if the constant has not been narrowed.
-/

set_option autoImplicit false

namespace Vani.Analysis

open Vani.Library Vani.Program.Ssa Vani.Model.Ssa
open Vani.Program (Ty)

/-! ## Modules whose array types agree -/

/-- The lengths that the types of the values of each function give. -/
abbrev Extents := Nat → ValueId → Option Nat

/-- Where an array of a type is wanted, the operand is a value of the length. -/
def HasExtent (T : Extents) (k : Nat) (o : Operand) (ty : Ty) : Prop :=
  ∀ n, arrayExtent ty = some n → ∃ v, o = .value v ∧ T k v = some n

/-- Operands passed for parameters. -/
def PassesTyped (T : Extents) (k : Nat) (args : List Operand) (params : List (ValueId × Ty)) : Prop :=
  ∀ (j : Nat) (o : Operand) (p : ValueId × Ty), args[j]? = some o → params[j]? = some p →
    HasExtent T k o p.2

/-- What a terminator returns where something of the type is wanted. -/
def Yields (T : Extents) (k : Nat) (ty : Ty) : Terminator → Prop
  | .ret (some o) => HasExtent T k o ty
  | .ret none => arrayExtent ty = none
  | _ => True

/-- Instructions whose result is no array. -/
def isScalar : InstrKind → Bool
  | .const _ | .unary _ _ | .binary _ _ _ | .cast _ _ => true
  | _ => false

/-- An instruction of a function agrees with the types. -/
structure InstrTyped (m : Module) (T : Extents) (k : Nat) (i : Instruction) : Prop where
  result : T k i.result = arrayExtent i.ty
  scalar : isScalar i.kind → arrayExtent i.ty = none
  literal : ∀ elements, i.kind = .arrayLit elements → arrayExtent i.ty = some elements.length
  base : ∀ array baseTy index value isChecked,
    i.kind = .indexAssign array baseTy index value isChecked → HasExtent T k array baseTy
  call : ∀ name args k' f b, i.kind = .call name args → callee m i.kind = some k' →
    m.functions[k']? = some f →
      (f.blocks[f.entry]? = some b → PassesTyped T k args b.params) ∧
        ∀ b ∈ f.blocks, Yields T k' i.ty b.terminator

/-- The array types of a module agree. -/
structure ArraysTyped (m : Module) (T : Extents) : Prop where
  params : ∀ k f, m.functions[k]? = some f → ∀ b ∈ f.blocks, ∀ p ∈ b.params,
    T k p.1 = arrayExtent p.2
  instructions : ∀ k f, m.functions[k]? = some f → ∀ b ∈ f.blocks, ∀ i ∈ b.instructions,
    InstrTyped m T k i
  jumps : ∀ k f, m.functions[k]? = some f → ∀ b ∈ f.blocks, ∀ e ∈ edges b.terminator, ∀ b',
    f.blocks[e.1]? = some b' → PassesTyped T k e.2 b'.params
  small : ∀ k v n, T k v = some n → n < 2 ^ 64

/-! ## What the pass takes the lengths to be -/

section Pass

variable {T : Extents} {k : Nat} {m : Module} {f : Function} {v : ValueId} {n : Nat}

theorem insertExtent_le {map : Lengths} {u : ValueId} {ty : Ty}
    (hmap : ∀ v n, map v = some n → T k v = some n) (hu : T k u = arrayExtent ty)
    (h : insertExtent map u ty v = some n) : T k v = some n := by
  unfold insertExtent at h
  cases hlen : arrayExtent ty with
  | none =>
    rw [hlen] at h
    exact hmap v n h
  | some len =>
    rw [hlen] at h
    dsimp only at h
    by_cases hvu : v = u
    · subst hvu
      rw [Function.update_self] at h
      rw [hu, hlen, h]
    · rw [Function.update_of_ne hvu] at h
      exact hmap v n h

theorem insertResult_le {map : Lengths} {i : Instruction}
    (hmap : ∀ v n, map v = some n → T k v = some n) (hi : InstrTyped m T k i)
    (h : insertResult map i v = some n) : T k v = some n := by
  cases hkind : i.kind with
  | arrayLit elements =>
    simp only [insertResult, hkind] at h
    by_cases hvi : v = i.result
    · subst hvi
      rw [Function.update_self] at h
      rw [hi.result, hi.literal elements hkind, h]
    · rw [Function.update_of_ne hvi] at h
      exact hmap v n h
  | _ =>
    simp only [insertResult, hkind] at h
    exact insertExtent_le hmap hi.result h

/-- What a fold over a list keeps. -/
theorem foldl_le {α : Type} {step : Lengths → α → Lengths} {l : List α} {map : Lengths}
    (hmap : ∀ v n, map v = some n → T k v = some n)
    (hstep : ∀ map, ∀ a ∈ l, (∀ v n, map v = some n → T k v = some n) →
      ∀ v n, step map a v = some n → T k v = some n) :
    ∀ v n, l.foldl step map v = some n → T k v = some n := by
  induction l generalizing map with
  | nil => exact hmap
  | cons a l ih =>
    exact ih (hstep map a List.mem_cons_self hmap) fun map b hb =>
      hstep map b (List.mem_cons_of_mem a hb)

/-- A length that the pass has found is the one the types give. -/
theorem collectArrayLengths_le (hm : ArraysTyped m T) (hf : m.functions[k]? = some f) :
    ∀ v n, collectArrayLengths f v = some n → T k v = some n := by
  refine foldl_le (foldl_le (fun v n h => by cases h) fun map p hp hmap v n => ?_)
    fun map b hb hmap => foldl_le hmap fun map i hi hmap v n => ?_
  · refine insertExtent_le hmap ?_
    cases hb : f.blocks[f.entry]? with
    | none =>
      rw [hb] at hp
      cases hp
    | some b =>
      rw [hb] at hp
      exact hm.params k f hf b (List.mem_of_getElem? hb) p hp
  · exact insertResult_le hmap (hm.instructions k f hf b hb i hi)

theorem isBelow_spec {index : Operand} (h : isBelow index n = true) :
    ∃ c, index = .const (.int c) ∧ 0 ≤ c ∧ asU64 c < n := by
  unfold isBelow at h
  split at h
  · next c =>
    rw [Bool.and_eq_true, decide_eq_true_iff, decide_eq_true_iff] at h
    exact ⟨c, rfl, h⟩
  · cases h

/-- A constant that the narrowing leaves below the length is below it exactly if it is not
narrowed. -/
theorem lt_iff_of_asU64_lt {c : Int} (h0 : 0 ≤ c) (hlt : asU64 c < n) (hn : n < 2 ^ 64) :
    c < n ↔ c < 2 ^ 64 := by
  unfold asU64 at hlt
  omega

/-! ## The pass, instruction by instruction -/

theorem rewriteAll_fst {α σ : Type} {step : σ → α → α × σ} {g : α → α}
    (hstep : ∀ s a, (step s a).1 = g a) (s : σ) (l : List α) :
    (rewriteAll step s l).1 = l.map g := by
  induction l generalizing s with
  | nil => rfl
  | cons a l ih => rw [List.map_cons, rewriteAll, hstep, ih]

/-- An instruction after the pass. -/
def elided (lengths : Lengths) (i : Instruction) : Instruction := (elideInstr lengths ⟨0, 0⟩ i).1

theorem elideInstr_fst (lengths : Lengths) (s : ElideStats) (i : Instruction) :
    (elideInstr lengths s i).1 = elided lengths i := by
  unfold elided elideInstr
  cases i.kind with
  | index _ _ _ | indexAssign _ _ _ _ _ =>
    dsimp only
    split <;> rfl
  | _ => rfl

theorem elideBlock_fst (lengths : Lengths) (s : ElideStats) (b : BasicBlock) :
    (elideBlock lengths s b).1 =
      { b with instructions := b.instructions.map (elided lengths) } := by
  have hinstrs := rewriteAll_fst (elideInstr_fst lengths) s b.instructions
  unfold elideBlock
  rw [← hinstrs]

theorem elideBoundsInFunction_blocks (s : ElideStats) (f : Function) :
    (elideBoundsInFunction s f).1.blocks = f.blocks.map fun b =>
      { b with instructions := b.instructions.map (elided (collectArrayLengths f)) } :=
  rewriteAll_fst (elideBlock_fst _) s f.blocks

end Pass

/-! ## The lengths that values hold -/

section Runs

variable {ν ω : Type} {m : Module} {T : Extents} {lengthOf : Val ν → Option Nat}
  {H : Host ν ω} {k : Nat} {f : Function} {b : BasicBlock} {i : Instruction} {fr : Frame ν}
  {callers : List (Frame ν)} {world : ω} {xs : List (Val ν)}

/-- A value where something of a type is wanted: an array of the type has the type's length. -/
def HasLength (lengthOf : Val ν → Option Nat) (x : Val ν) (ty : Ty) : Prop :=
  ∀ n, arrayExtent ty = some n → lengthOf x = some n

/-- The host keeps to the types: what it makes has the length its type gives, and what it writes
through a reference replaces a value, an array by one of the same length. -/
structure HostTyped (H : Host ν ω) (lengthOf : Val ν → Option Nat) : Prop where
  result : ∀ kind xs ty frames world x writes world',
    H.act kind xs ty frames world = some (x, writes, world') → HasLength lengthOf x ty
  writes : ∀ kind xs ty frames world x writes world',
    H.act kind xs ty frames world = some (x, writes, world') → ∀ w ∈ writes, ∀ fr : Frame ν,
      frames[w.1]? = some fr → ∃ y, fr.regs w.2.1 = some y ∧
        ∀ n, lengthOf y = some n → lengthOf w.2.2 = some n

/-- The values of a frame have the lengths their types give. -/
def FrameTyped (T : Extents) (lengthOf : Val ν → Option Nat) (fr : Frame ν) : Prop :=
  ∀ v x n, fr.regs v = some x → T fr.fn v = some n → lengthOf x = some n

/-- The instruction at which a frame is. -/
def instrAt (m : Module) (fr : Frame ν) : Option Instruction :=
  (blockOf m fr).bind fun b => b.instructions[fr.done]?

/-- Each frame waits for the call of the one above it. -/
def Linked (m : Module) : List (Frame ν) → Prop
  | fr :: caller :: callers =>
    (∃ i, instrAt m caller = some i ∧ callee m i.kind = some fr.fn) ∧
      Linked m (caller :: callers)
  | _ => True

/-- The invariant of a run. -/
def TypedState (m : Module) (T : Extents) (lengthOf : Val ν → Option Nat) : State ν ω → Prop
  | .running fr callers _ =>
    (∀ fr' ∈ fr :: callers, FrameTyped T lengthOf fr') ∧ Linked m (fr :: callers)
  | _ => True

theorem FrameTyped.fits (h : FrameTyped T lengthOf fr) {o : Operand} {ty : Ty}
    (ho : HasExtent T fr.fn o ty) {x : Val ν} (hx : fr.eval o = some x) :
    HasLength lengthOf x ty := by
  intro n hn
  obtain ⟨v, rfl, hv⟩ := ho n hn
  exact h v x n hx hv

theorem HasLength.at {x : Val ν} {ty : Ty} (h : HasLength lengthOf x ty) :
    HasLength lengthOf (x.at ty) ty := by
  intro n hn
  have hsame : x.at ty = x := by
    cases x <;> cases ty <;> first | rfl | cases hn
  rw [hsame]
  exact h n hn

theorem FrameTyped.set (h : FrameTyped T lengthOf fr) {v : ValueId} {x : Val ν}
    (hx : ∀ n, T fr.fn v = some n → lengthOf x = some n) : FrameTyped T lengthOf (fr.set v x) := by
  intro u y n hy hn
  have hregs : (fr.set v x).regs = Function.update fr.regs v (some x) := rfl
  rw [hregs] at hy
  by_cases huv : u = v
  · subst huv
    rw [Function.update_self] at hy
    cases hy
    exact hx n hn
  · rw [Function.update_of_ne huv] at hy
    exact h u y n hy hn

/-- The frames' places and functions decide how they are linked. -/
theorem Linked.congr {frames frames' : List (Frame ν)} (h : Linked m frames)
    (hsame : frames'.map (fun fr => (fr.fn, fr.block, fr.done)) =
      frames.map fun fr => (fr.fn, fr.block, fr.done)) : Linked m frames' := by
  induction frames generalizing frames' with
  | nil =>
    rw [List.map_nil, List.map_eq_nil_iff] at hsame
    subst hsame
    trivial
  | cons fr frames ih =>
    match frames', hsame with
    | fr' :: frames', hsame =>
      rw [List.map_cons, List.map_cons, List.cons.injEq] at hsame
      match frames, frames', hsame with
      | [], [], _ => trivial
      | caller :: callers, caller' :: callers', ⟨hhead, htail⟩ =>
        obtain ⟨⟨i, hi, hcallee⟩, hrest⟩ := h
        have hcaller := htail
        rw [List.map_cons, List.map_cons, List.cons.injEq, Prod.mk.injEq, Prod.mk.injEq] at hcaller
        rw [Prod.mk.injEq] at hhead
        refine ⟨⟨i, ?_, by rw [hhead.1]; exact hcallee⟩, ih hrest htail⟩
        have hplace : instrAt m caller' = instrAt m caller := by
          unfold instrAt blockOf
          rw [hcaller.1.1, hcaller.1.2.1, hcaller.1.2.2]
        rw [hplace]
        exact hi

/-- What is bound to parameters has their lengths. -/
theorem FrameTyped.bind {params : List (ValueId × Ty)} {regs regs' : ValueId → Option (Val ν)}
    {fn block done : Nat} (hbind : Model.Ssa.bind regs params xs = some regs')
    (h : FrameTyped T lengthOf ⟨fn, block, done, regs⟩)
    (hparams : ∀ p ∈ params, T fn p.1 = arrayExtent p.2)
    (hxs : ∀ (j : Nat) (x : Val ν) (p : ValueId × Ty), xs[j]? = some x → params[j]? = some p →
      HasLength lengthOf x p.2) : FrameTyped T lengthOf ⟨fn, block, done, regs'⟩ := by
  induction params generalizing regs xs with
  | nil =>
    cases xs with
    | nil =>
      cases hbind
      exact h
    | cons x xs => cases hbind
  | cons p params ih =>
    cases xs with
    | nil => cases hbind
    | cons x xs =>
      obtain ⟨v, ty⟩ := p
      have hx : HasLength lengthOf (x.at ty) ty := (hxs 0 x (v, ty) rfl rfl).at
      refine ih hbind ?_ (fun p hp => hparams p (List.mem_cons_of_mem _ hp))
        fun j y p hy hp => hxs (j + 1) y p hy hp
      exact h.set (v := v) (x := x.at ty) fun n hn =>
        hx n (by rw [← hparams (v, ty) List.mem_cons_self]; exact hn)

theorem Linked.head {fr' : Frame ν} (h : Linked m (fr :: callers)) (hfn : fr'.fn = fr.fn) :
    Linked m (fr' :: callers) := by
  cases callers with
  | nil => trivial
  | cons caller callers => exact ⟨hfn ▸ h.1, h.2⟩

/-- What is written has the lengths of what it replaces. -/
theorem writes_typed {writes : List (Nat × ValueId × Val ν)} {frames : List (Frame ν)}
    (h : ∀ fr ∈ frames, FrameTyped T lengthOf fr)
    (hw : ∀ w ∈ writes, ∀ k, (frames.map Frame.fn)[w.1]? = some k → ∀ n, T k w.2.1 = some n →
      lengthOf w.2.2 = some n) :
    ∀ fr ∈ writes.foldl write frames, FrameTyped T lengthOf fr := by
  induction writes generalizing frames with
  | nil => exact h
  | cons w ws ih =>
    refine ih (fun fr hfr => ?_) fun w' hw' k hk => ?_
    · obtain ⟨d, hd⟩ := List.mem_iff_getElem?.mp hfr
      rw [getElem?_write, Option.map_eq_some_iff] at hd
      obtain ⟨fr₀, hfr₀, rfl⟩ := hd
      have htyped := h fr₀ (List.mem_of_getElem? hfr₀)
      split
      · next hwd =>
        refine htyped.set fun n hn => hw w List.mem_cons_self fr₀.fn ?_ n hn
        rw [hwd, List.getElem?_map, hfr₀]
        rfl
      · exact htyped
    · rw [map_write fun _ _ _ => rfl] at hk
      exact hw w' (List.mem_cons_of_mem w hw') k hk

/-- The machine computes nothing but scalars itself. -/
theorem isScalar_of_operate {ty : Ty} {kind : InstrKind} {x : Val ν}
    (h : operate ty kind xs = .value x) : isScalar kind = true := by
  cases kind with
  | const _ | unary _ _ | binary _ _ _ | cast _ _ => rfl
  | _ =>
    unfold operate at h
    cases h

/-! ## The steps -/

/-- A call of a function of the module, with arrays of the lengths of its parameters. -/
theorem TypedState.enter (hm : ArraysTyped m T) {frames : List (Frame ν)}
    (hframes : ∀ fr ∈ frames, FrameTyped T lengthOf fr)
    (hlinked : ∀ fr : Frame ν, fr.fn = k → Linked m (fr :: frames))
    (hxs : ∀ f b, m.functions[k]? = some f → f.blocks[f.entry]? = some b →
      ∀ (j : Nat) (x : Val ν) (p : ValueId × Ty), xs[j]? = some x → b.params[j]? = some p →
        HasLength lengthOf x p.2) :
    TypedState m T lengthOf (Model.Ssa.enter m k xs frames world) := by
  unfold Model.Ssa.enter
  cases hf : m.functions[k]? with
  | none => trivial
  | some f =>
    dsimp only
    cases hb : f.blocks[f.entry]? with
    | none => trivial
    | some b =>
      dsimp only
      cases hbind : Model.Ssa.bind (fun _ => none) b.params xs with
      | none => trivial
      | some regs =>
        refine ⟨fun fr' hfr' => ?_, hlinked _ rfl⟩
        rcases List.mem_cons.mp hfr' with rfl | hfr'
        · exact FrameTyped.bind hbind (fun v x n hx => by cases hx)
            (hm.params k f hf b (List.mem_of_getElem? hb)) (hxs f b hf hb)
        · exact hframes fr' hfr'

/-- What operands that are passed hold. -/
theorem PassesTyped.fits {args : List Operand} {params : List (ValueId × Ty)}
    (h : PassesTyped T fr.fn args params) (htyped : FrameTyped T lengthOf fr)
    (hxs : args.mapM fr.eval = some xs) (j : Nat) (x : Val ν) (p : ValueId × Ty)
    (hx : xs[j]? = some x) (hp : params[j]? = some p) : HasLength lengthOf x p.2 := by
  induction args generalizing xs params j with
  | nil =>
    rw [List.mapM_nil] at hxs
    cases hxs
    cases hx
  | cons o args ih =>
    rw [List.mapM_cons] at hxs
    cases heval : fr.eval o with
    | none =>
      rw [heval] at hxs
      cases hxs
    | some y =>
      cases hrest : args.mapM fr.eval with
      | none =>
        rw [heval, hrest] at hxs
        cases hxs
      | some ys =>
        rw [heval, hrest] at hxs
        cases hxs
        cases params with
        | nil => cases hp
        | cons q params =>
          cases j with
          | zero =>
            cases hx
            cases hp
            exact htyped.fits (h 0 o _ rfl rfl) heval
          | succ j =>
            exact ih (fun j o p ho hp => h (j + 1) o p ho hp) hrest j hx hp

/-- An instruction. -/
theorem TypedState.execInstr (hm : ArraysTyped m T) (hH : HostTyped H lengthOf)
    (h : TypedState m T lengthOf (State.running fr callers world))
    (hi : instrAt m fr = some i) (htyped : InstrTyped m T fr.fn i) :
    TypedState m T lengthOf (Model.Ssa.execInstr m H i fr callers world) := by
  obtain ⟨hframes, hlinked⟩ := h
  have hfr := hframes fr List.mem_cons_self
  have hadvance : ∀ {fr' : Frame ν} {callers' : List (Frame ν)} {x : Val ν} {world' : ω},
      (∀ y ∈ fr' :: callers', FrameTyped T lengthOf y) → Linked m (fr' :: callers') →
      fr'.fn = fr.fn → HasLength lengthOf x i.ty →
      TypedState m T lengthOf (.running (fr'.advance i.result x) callers' world') := by
    intro fr' callers' x world' hall hlink hfn hx
    refine ⟨fun y hy => ?_, hlink.head rfl⟩
    rcases List.mem_cons.mp hy with rfl | hy
    · refine (hall fr' List.mem_cons_self).set fun n hn => hx n ?_
      rw [← htyped.result, ← hfn]
      exact hn
    · exact hall y (List.mem_cons_of_mem fr' hy)
  unfold Model.Ssa.execInstr
  cases hxs : i.kind.operands.mapM fr.eval with
  | none => trivial
  | some xs =>
    dsimp only
    cases hop : operate i.ty i.kind xs with
    | trap => trivial
    | value x =>
      refine hadvance hframes hlinked rfl fun n hn => ?_
      rw [htyped.scalar (isScalar_of_operate hop)] at hn
      cases hn
    | host =>
      dsimp only
      cases hcallee : callee m i.kind with
      | some k =>
        cases hkind : i.kind with
        | call name args =>
          rw [hkind] at hxs
          refine TypedState.enter hm hframes (fun fr' hfn => ⟨⟨i, hi, by rw [hcallee, hfn]⟩,
            hlinked⟩) fun f b hf hb => ?_
          exact ((htyped.call name args k f b hkind hcallee hf).1 hb).fits hfr hxs
        | _ =>
          rw [hkind] at hcallee
          cases hcallee
      | none =>
        dsimp only
        unfold actHost
        cases hact : H.act (shape i.kind) xs i.ty (fr :: callers) world with
        | none => trivial
        | some out =>
          obtain ⟨x, writes, world'⟩ := out
          have hwrites := writes_typed hframes fun w hw k hk n hn => by
            rw [List.getElem?_map, Option.map_eq_some_iff] at hk
            obtain ⟨fr₀, hfr₀, rfl⟩ := hk
            obtain ⟨y, hy, hlength⟩ := hH.writes _ _ _ _ _ _ _ _ hact w hw fr₀ hfr₀
            exact hlength n (hframes fr₀ (List.mem_of_getElem? hfr₀) _ y n hy hn)
          have hplace := map_writes (p := fun fr : Frame ν => (fr.fn, fr.block, fr.done))
            (fun _ _ _ => rfl) (fr :: callers) writes
          have hlink := hlinked.congr hplace
          dsimp only
          cases hlist : writes.foldl write (fr :: callers) with
          | nil => trivial
          | cons fr' callers' =>
            rw [hlist] at hwrites hlink hplace
            rw [List.map_cons, List.map_cons, List.cons.injEq, Prod.mk.injEq] at hplace
            exact hadvance hwrites hlink hplace.1.1 (hH.result _ _ _ _ _ _ _ _ hact)

/-- A jump to a block of the function. -/
theorem TypedState.goto (hm : ArraysTyped m T) (hf : m.functions[fr.fn]? = some f)
    (hb : b ∈ f.blocks) (h : TypedState m T lengthOf (State.running fr callers world))
    {t : BlockId} {args : List Operand} (he : (t, args) ∈ edges b.terminator) :
    TypedState m T lengthOf (Model.Ssa.goto m t args fr callers world) := by
  obtain ⟨hframes, hlinked⟩ := h
  have hfr := hframes fr List.mem_cons_self
  unfold Model.Ssa.goto
  have hblock : blockOf m { fr with block := t } = f.blocks[t]? := blockOf_eq hf
  rw [hblock]
  cases hxs : args.mapM fr.eval with
  | none => trivial
  | some xs =>
    cases hb' : f.blocks[t]? with
    | none => trivial
    | some b' =>
      dsimp only
      cases hbind : Model.Ssa.bind fr.regs b'.params xs with
      | none => trivial
      | some regs =>
        refine ⟨fun y hy => ?_, hlinked.head rfl⟩
        rcases List.mem_cons.mp hy with rfl | hy
        · exact FrameTyped.bind hbind hfr (hm.params _ f hf b' (List.mem_of_getElem? hb'))
            ((hm.jumps _ f hf b hb (t, args) he b' hb').fits hfr hxs)
        · exact hframes y (List.mem_cons_of_mem fr hy)

/-- A return to the call that waits. -/
theorem TypedState.leave (hm : ArraysTyped m T)
    (h : TypedState m T lengthOf (State.running fr callers world)) {x : Val ν}
    (hx : ∀ i k', callee m i.kind = some fr.fn → InstrTyped m T k' i →
      HasLength lengthOf x i.ty) :
    TypedState m T lengthOf (Model.Ssa.leave m x callers world) := by
  obtain ⟨hframes, hlinked⟩ := h
  cases callers with
  | nil => trivial
  | cons caller callers =>
    obtain ⟨⟨i, hi, hcallee⟩, hrest⟩ := hlinked
    unfold Model.Ssa.leave
    dsimp only
    unfold instrAt at hi
    rw [hi]
    have htyped : InstrTyped m T caller.fn i := by
      obtain ⟨b, hb, hmem⟩ := Option.bind_eq_some_iff.mp hi
      obtain ⟨f, hf, hb⟩ := Option.bind_eq_some_iff.mp hb
      exact hm.instructions _ f hf b (List.mem_of_getElem? hb) i (List.mem_of_getElem? hmem)
    refine ⟨fun y hy => ?_, hrest.head rfl⟩
    rcases List.mem_cons.mp hy with rfl | hy
    · refine (hframes caller (List.mem_cons_of_mem _ List.mem_cons_self)).set fun n hn => ?_
      exact hx i caller.fn hcallee htyped n (by rw [← htyped.result]; exact hn)
    · exact hframes y (List.mem_cons_of_mem _ (List.mem_cons_of_mem _ hy))

/-- The end of a block. -/
theorem TypedState.execTerminator (hm : ArraysTyped m T) (hf : m.functions[fr.fn]? = some f)
    (hb : b ∈ f.blocks) (h : TypedState m T lengthOf (State.running fr callers world)) :
    TypedState m T lengthOf (Model.Ssa.execTerminator m b.terminator fr callers world) := by
  have hgoto : ∀ t args, (t, args) ∈ edges b.terminator →
      TypedState m T lengthOf (Model.Ssa.goto m t args fr callers world) := fun t args he =>
    TypedState.goto hm hf hb h he
  have hreturn : ∀ i k', callee m i.kind = some fr.fn → InstrTyped m T k' i →
      Yields T fr.fn i.ty b.terminator := by
    intro i k' hcallee htyped
    cases hkind : i.kind with
    | call name args =>
      exact (htyped.call name args fr.fn f b hkind hcallee hf).2 b hb
    | _ =>
      rw [hkind] at hcallee
      cases hcallee
  cases hterm : b.terminator with
  | ret o =>
    rw [hterm] at hreturn
    cases o with
    | none =>
      refine TypedState.leave hm h fun i k' hcallee htyped n hn => ?_
      have hnone : arrayExtent i.ty = none := hreturn i k' hcallee htyped
      rw [hnone] at hn
      cases hn
    | some o =>
      unfold Model.Ssa.execTerminator
      dsimp only
      cases hx : fr.eval o with
      | none => trivial
      | some x =>
        refine TypedState.leave hm h fun i k' hcallee htyped => ?_
        exact (h.1 fr List.mem_cons_self).fits (hreturn i k' hcallee htyped) hx
  | jump t args => exact hgoto t args (by rw [hterm]; exact List.mem_cons_self)
  | branch cond t₁ a₁ t₂ a₂ =>
    have h₁ := hgoto t₁ a₁ (by rw [hterm]; exact List.mem_cons_self)
    have h₂ := hgoto t₂ a₂ (by rw [hterm]; exact List.mem_cons_of_mem _ List.mem_cons_self)
    unfold Model.Ssa.execTerminator
    dsimp only
    split
    · exact h₁
    · exact h₂
    · trivial
  | unreachable => trivial

/-- Where a frame is, its instruction is one of a block of its function. -/
theorem instrAt_spec (hi : instrAt m fr = some i) :
    ∃ f b, m.functions[fr.fn]? = some f ∧ f.blocks[fr.block]? = some b ∧
      b.instructions[fr.done]? = some i := by
  obtain ⟨b, hb, hi⟩ := Option.bind_eq_some_iff.mp hi
  obtain ⟨f, hf, hb⟩ := Option.bind_eq_some_iff.mp hb
  exact ⟨f, b, hf, hb, hi⟩

theorem ArraysTyped.instrAt (hm : ArraysTyped m T) (hi : Analysis.instrAt m fr = some i) :
    InstrTyped m T fr.fn i := by
  obtain ⟨f, b, hf, hb, hi⟩ := instrAt_spec hi
  exact hm.instructions _ f hf b (List.mem_of_getElem? hb) i (List.mem_of_getElem? hi)

/-- One step. -/
theorem TypedState.step (hm : ArraysTyped m T) (hH : HostTyped H lengthOf) {s : State ν ω}
    (h : TypedState m T lengthOf s) : TypedState m T lengthOf (Model.Ssa.step m H s) := by
  cases s with
  | running fr callers world =>
    unfold Model.Ssa.step
    dsimp only
    cases hb : blockOf m fr with
    | none => trivial
    | some b =>
      dsimp only
      have hat : Analysis.instrAt m fr = b.instructions[fr.done]? := by
        unfold Analysis.instrAt
        rw [hb, Option.bind_some]
      cases hi : b.instructions[fr.done]? with
      | none =>
        obtain ⟨f, hf, hb'⟩ := Option.bind_eq_some_iff.mp hb
        exact TypedState.execTerminator hm hf (List.mem_of_getElem? hb') h
      | some i =>
        rw [hi] at hat
        exact TypedState.execInstr hm hH h hat (hm.instrAt hat)
  | returned _ _ | trapped _ | stuck => trivial

/-- A run of a call with arrays of the lengths of its parameters. -/
theorem TypedState.run (hm : ArraysTyped m T) (hH : HostTyped H lengthOf)
    (hxs : ∀ f b, m.functions[k]? = some f → f.blocks[f.entry]? = some b →
      ∀ (j : Nat) (x : Val ν) (p : ValueId × Ty), xs[j]? = some x → b.params[j]? = some p →
        HasLength lengthOf x p.2) (steps : Nat) :
    TypedState m T lengthOf (Model.Ssa.run m H steps (Model.Ssa.enter m k xs [] world)) := by
  induction steps with
  | zero => exact TypedState.enter hm (fun fr hfr => by cases hfr) (fun _ _ => trivial) hxs
  | succ steps ih => exact ih.step hm hH

/-! ## The accesses -/

/-- The array, the index and the flag of an access. -/
def access : InstrKind → Option (Operand × Operand × Bool)
  | .index array index isChecked => some (array, index, isChecked)
  | .indexAssign array _ index _ isChecked => some (array, index, isChecked)
  | _ => none

theorem instrAt_elideBounds (hf : m.functions[fr.fn]? = some f) :
    instrAt (elideBounds m).1 fr =
      (instrAt m fr).map (elided (collectArrayLengths f)) := by
  have hfunctions : (elideBounds m).1.functions =
      m.functions.map fun f => (elideBoundsInFunction ⟨0, 0⟩ f).1 := by
    refine rewriteAll_fst (fun s f => ?_) _ _
    unfold elideBoundsInFunction
    dsimp only
    rw [rewriteAll_fst (elideBlock_fst _), rewriteAll_fst (elideBlock_fst _)]
  unfold instrAt blockOf
  rw [hfunctions, List.getElem?_map, hf, Option.map_some, Option.bind_some, Option.bind_some,
    elideBoundsInFunction_blocks, List.getElem?_map]
  cases f.blocks[fr.block]? with
  | none => rfl
  | some b => exact List.getElem?_map ..

/-- An access loses its check where the index is a constant that is below the length after the
narrowing. -/
theorem elided_spec {lengths : Lengths} {array array' index index' : Operand}
    (hi : access i.kind = some (array, index, true))
    (hj : access (elided lengths i).kind = some (array', index', false)) :
    ∃ n c, index = .const (.int c) ∧ 0 ≤ c ∧ asU64 c < n ∧
      ((∃ v, array = .value v ∧ lengths v = some n) ∨
        ∃ baseTy value, i.kind = .indexAssign array baseTy index value true ∧
          arrayExtent baseTy = some n) := by
  unfold elided elideInstr at hj
  cases hkind : i.kind with
  | index a x isChecked =>
    rw [hkind] at hi
    cases hi
    rw [hkind] at hj
    dsimp only at hj
    by_cases hin : indexIsInBounds array index lengths = true
    · unfold indexIsInBounds at hin
      cases array with
      | const c => cases hin
      | value v =>
        dsimp only at hin
        cases hn : lengths v with
        | none =>
          rw [hn] at hin
          cases hin
        | some n =>
          rw [hn] at hin
          obtain ⟨c, hc, h0, hlt⟩ := isBelow_spec hin
          exact ⟨n, c, hc, h0, hlt, Or.inl ⟨v, rfl, hn⟩⟩
    · rw [Bool.not_eq_true] at hin
      rw [hin, Bool.and_false, if_neg Bool.false_ne_true, hkind] at hj
      cases hj
  | indexAssign a baseTy x value isChecked =>
    rw [hkind] at hi
    cases hi
    rw [hkind] at hj
    dsimp only at hj
    by_cases hin : indexIsInBoundsForBase baseTy index = true
    · unfold indexIsInBoundsForBase at hin
      cases hn : arrayExtent baseTy with
      | none =>
        rw [hn] at hin
        cases hin
      | some n =>
        rw [hn] at hin
        obtain ⟨c, hc, h0, hlt⟩ := isBelow_spec hin
        exact ⟨n, c, hc, h0, hlt, Or.inr ⟨baseTy, value, rfl, hn⟩⟩
    · rw [Bool.not_eq_true] at hin
      rw [hin, Bool.and_false, if_neg Bool.false_ne_true, hkind] at hj
      cases hj
  | _ =>
    rw [hkind] at hi
    cases hi

end Runs

/-- In every state of every run of a call in a module whose array types agree, on a host that keeps
to them: where an access has lost its check, its index is a constant that is not negative, and is
below the length of the array exactly if the constant is one that `u64` has.
Source: ssa_pass.rs:662-787 -/
theorem elided_in_bounds_iff {ν ω : Type} {m : Module} {T : Extents} (hm : ArraysTyped m T)
    {H : Host ν ω} {lengthOf : Val ν → Option Nat} (hH : HostTyped H lengthOf) {k : Nat}
    {xs : List (Val ν)}
    (hxs : ∀ f b, m.functions[k]? = some f → f.blocks[f.entry]? = some b →
      ∀ (j : Nat) (x : Val ν) (p : ValueId × Ty), xs[j]? = some x → b.params[j]? = some p →
        HasLength lengthOf x p.2)
    {world world' : ω} {steps : Nat} {fr : Frame ν} {callers : List (Frame ν)}
    (hrun : run m H steps (enter m k xs [] world) = .running fr callers world')
    {i j : Instruction} (hi : instrAt m fr = some i) (hj : instrAt (elideBounds m).1 fr = some j)
    {array array' index index' : Operand} (hchecked : access i.kind = some (array, index, true))
    (helided : access j.kind = some (array', index', false)) {y : Val ν}
    (hy : fr.eval array = some y) :
    ∃ c n, fr.eval index = some (.int c) ∧ lengthOf y = some n ∧
      (0 ≤ c ∧ c < n ↔ c < 2 ^ 64) := by
  have hstate : TypedState m T lengthOf (run m H steps (enter m k xs [] world)) :=
    TypedState.run hm hH hxs steps
  rw [hrun] at hstate
  have hframe := hstate.1 fr List.mem_cons_self
  obtain ⟨f, b, hf, -, -⟩ := instrAt_spec hi
  rw [instrAt_elideBounds hf, hi, Option.map_some, Option.some.injEq] at hj
  subst hj
  obtain ⟨n, c, rfl, h0, hlt, hlength⟩ := elided_spec hchecked helided
  have harray : ∃ v, array = .value v ∧ T fr.fn v = some n := by
    rcases hlength with ⟨v, rfl, hv⟩ | ⟨baseTy, value, hkind, hn⟩
    · exact ⟨v, rfl, collectArrayLengths_le hm hf v n hv⟩
    · exact (hm.instrAt hi).base array baseTy _ value true hkind n hn
  obtain ⟨v, rfl, hv⟩ := harray
  have hiff := lt_iff_of_asU64_lt h0 hlt (hm.small _ v n hv)
  exact ⟨c, n, rfl, hframe v y n hy hv, ⟨fun h => hiff.mp h.2, fun h => ⟨h0, hiff.mpr h⟩⟩⟩

/-! ## An array of one element -/

/-- `let a = [7]; return a[c];` -/
def oneAccess (c : Int) : Module :=
  ⟨[⟨"main", 0, [⟨0, [],
    [⟨0, .arrayLit [.const (.int 7)], .array (.int .i64) 1⟩,
      ⟨1, .index (.value 0) (.const (.int c)) true, .int .i64⟩], .ret (some (.value 1))⟩], false⟩]⟩

/-- A host for which an array is its length. -/
def lengthHost : Host Nat Unit :=
  ⟨fun _ _ ty _ world =>
    match arrayExtent ty with
    | some n => some (.other n, [], world)
    | none => some (.int 7, [], world)⟩

/-- The length that is the array. -/
def hostLength : Val Nat → Option Nat
  | .other n => some n
  | _ => none

theorem lengthHost_typed : HostTyped lengthHost hostLength := by
  refine ⟨fun kind xs ty frames world x writes world' hact n hn => ?_,
    fun kind xs ty frames world x writes world' hact w hw => ?_⟩
  · simp only [lengthHost, hn] at hact
    cases hact
    rfl
  · cases hty : arrayExtent ty <;> simp only [lengthHost, hty] at hact <;> cases hact <;> cases hw

/-- The length of the array. -/
def oneExtent : Extents := fun _ v => if v = 0 then some 1 else none

theorem oneAccess_typed (c : Int) : ArraysTyped (oneAccess c) oneExtent := by
  have hone : ∀ (k : Nat) (f : Function), (oneAccess c).functions[k]? = some f → ∀ b ∈ f.blocks,
      b.params = [] ∧ edges b.terminator = [] ∧ ∀ i ∈ b.instructions,
        i = ⟨0, .arrayLit [.const (.int 7)], .array (.int .i64) 1⟩ ∨
          i = ⟨1, .index (.value 0) (.const (.int c)) true, .int .i64⟩ := by
    intro k f hf b hb
    cases k with
    | zero =>
      cases hf
      obtain rfl := List.mem_singleton.mp hb
      refine ⟨rfl, rfl, fun i hi => ?_⟩
      simpa using hi
    | succ k => cases hf
  refine ⟨fun k f hf b hb p hp => ?_, fun k f hf b hb i hi => ?_, fun k f hf b hb e he => ?_,
    fun k v n hn => ?_⟩
  · rw [(hone k f hf b hb).1] at hp
    cases hp
  · rcases (hone k f hf b hb).2.2 i hi with rfl | rfl
    · refine ⟨rfl, nofun, fun elements helements => ?_, nofun, nofun⟩
      cases helements
      rfl
    · exact ⟨rfl, nofun, nofun, nofun, nofun⟩
  · rw [(hone k f hf b hb).2.1] at he
    cases he
  · unfold oneExtent at hn
    split at hn
    · cases hn
      decide
    · cases hn

/-- The frame at the access. -/
def atAccess : Frame Nat := ⟨0, 0, 1, Function.update (fun _ => none) 0 (some (.other 1))⟩

/-- At index 0. -/
theorem elided_in_bounds_zero :
    ∃ c n, atAccess.eval (.const (.int 0)) = some (.int c) ∧
      hostLength (.other 1) = some n ∧ (0 ≤ c ∧ c < n ↔ c < 2 ^ 64) := by
  have hxs : ∀ f b, (oneAccess 0).functions[0]? = some f → f.blocks[f.entry]? = some b →
      ∀ (j : Nat) (x : Val Nat) (p : ValueId × Ty), ([] : List (Val Nat))[j]? = some x →
        b.params[j]? = some p → HasLength hostLength x p.2 := fun f b _ _ j x p hx => by cases hx
  have hrun : run (oneAccess 0) lengthHost 1 (enter (oneAccess 0) 0 [] [] ()) =
      .running atAccess [] () := rfl
  have hafter : instrAt (elideBounds (oneAccess 0)).1 atAccess =
      some ⟨1, .index (.value 0) (.const (.int 0)) false, .int .i64⟩ := rfl
  exact elided_in_bounds_iff (oneAccess_typed 0) lengthHost_typed hxs hrun rfl hafter rfl rfl rfl

/-- At index 2 ^ 64, which `u64` takes for 0. -/
theorem elided_out_of_bounds :
    ArraysTyped (oneAccess (2 ^ 64)) oneExtent ∧ HostTyped lengthHost hostLength ∧
      run (oneAccess (2 ^ 64)) lengthHost 1 (enter (oneAccess (2 ^ 64)) 0 [] [] ()) =
        .running atAccess [] () ∧
      (instrAt (oneAccess (2 ^ 64)) atAccess).bind (fun i => access i.kind) =
        some (.value 0, .const (.int (2 ^ 64)), true) ∧
      (instrAt (elideBounds (oneAccess (2 ^ 64))).1 atAccess).bind (fun j => access j.kind) =
        some (.value 0, .const (.int (2 ^ 64)), false) ∧
      (atAccess.eval (.value 0)).bind hostLength = some 1 ∧ ¬ (2 ^ 64 : Int) < 1 :=
  ⟨oneAccess_typed _, lengthHost_typed, rfl, rfl, rfl, rfl, by decide⟩

end Vani.Analysis
