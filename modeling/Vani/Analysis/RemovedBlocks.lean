import Vani.Analysis.FoldedRuns

/-!
# Removing unreachable blocks

Following constant branches and dropping the blocks that no edge leads to leaves every run as
it was: the blocks that can run get new numbers, in order, and every jump and every open call
follows them. The shape of a parallel loop, which names four blocks by their numbers, is not
rewritten. It still leads to the same blocks exactly if none of these, and no block before
them, has been dropped.
-/

set_option autoImplicit false

namespace Vani.Analysis

open Vani.Library Vani.Program.Ssa Vani.Model.Ssa
open Vani.Program (Ty)

/-! ## References to blocks -/

/-- The number that a block gets. Source: ssa_pass.rs:375-388 -/
def newNumber (f : Function) (id : BlockId) : Option BlockId :=
  (reachable (threadBranches f).1).bind fun reached =>
    (renumber reached (threadBranches f).1.blocks).1.lookup id

/-- The blocks an instruction names. -/
def blockRefs : InstrKind → List BlockId
  | .hint (.parallelForBegin _ shape) =>
    [shape.headerBlock, shape.bodyBlock, shape.stepBlock, shape.exitBlock]
  | _ => []

/-- An instruction without the blocks it names. -/
def withoutBlocks : InstrKind → InstrKind
  | .hint (.parallelForBegin reductions shape) =>
    .hint (.parallelForBegin reductions
      { shape with headerBlock := 0, bodyBlock := 0, stepBlock := 0, exitBlock := 0 })
  | k => k

/-- What an instruction becomes: the same one, and the blocks it names are the same blocks
under their new numbers. -/
structure MovedInstr (f : Function) (i j : Instruction) : Prop where
  result : j.result = i.result
  ty : j.ty = i.ty
  kind : withoutBlocks j.kind = withoutBlocks i.kind
  refs : (blockRefs i.kind).map (newNumber f) = (blockRefs j.kind).map some

/-- What a block becomes: its terminator leads to the same blocks, one on a constant only to
where it goes, and its instructions name the same blocks. -/
structure MovedBlock (f : Function) (b c : BasicBlock) : Prop where
  params : c.params = b.params
  targets : (followed b.terminator).map (newNumber f) = c.terminator.targets.map some
  instructions : List.Forall₂ (MovedInstr f) b.instructions c.instructions

/-- Every block that can run is there under its new number, no other block is, and every
reference to a block leads to the block it led to. -/
structure KeepsBlocks (f g : Function) : Prop where
  entry : newNumber f f.entry = some g.entry
  moved : ∀ b, Runs f b → ∃ n c, newNumber f b.id = some n ∧ g.blocks[n]? = some c ∧
    MovedBlock f b c
  onto : ∀ n, n < g.blocks.length → ∃ b, Runs f b ∧ newNumber f b.id = some n

/-! ## Runs -/

section Runs

variable {ν ω : Type}

/-- A frame without the number of its block. -/
def unplaced (fr : Frame ν) : Frame ν := { fr with block := 0 }

/-- A host to which numbers of blocks mean nothing. -/
def unplacedHost (H : Host ν ω) : Host ν ω where
  act k xs ty frames world := H.act (withoutBlocks k) xs ty (frames.map unplaced) world

/-- A state with other frames. -/
def mapFrames (φ : Frame ν → Frame ν) : State ν ω → State ν ω
  | .running fr callers world => .running (φ fr) (callers.map φ) world
  | s => s

/-- The instruction that runs next. -/
def upcoming (m : Module) : State ν ω → Option Instruction
  | .running fr _ _ => (blockOf m fr).bind fun b => b.instructions[fr.done]?
  | _ => none

end Runs

/-- In any module, with one of the functions in place of the other, every call of a function
takes the same steps: the same instruction is executed, up to the numbers of blocks, the
values are the same in all open calls, and so is the outcome. -/
def SameRuns (f g : Function) : Prop :=
  ∀ (ν ω : Type) (H : Host ν ω) (m : Module) (j : Nat), m.functions[j]? = some f →
    ∀ (k : Nat) (xs : List (Val ν)) (world : ω) (n : Nat),
      let m' : Module := ⟨m.functions.set j g⟩
      let s := run m (unplacedHost H) n (enter m k xs [] world)
      let s' := run m' (unplacedHost H) n (enter m' k xs [] world)
      mapFrames unplaced s' = mapFrames unplaced s ∧
        (upcoming m' s').map (fun i => (i.result, withoutBlocks i.kind, i.ty)) =
          (upcoming m s).map fun i => (i.result, withoutBlocks i.kind, i.ty)

/-- Removal of unreachable blocks as it should be: it succeeds, runs stay the same, references
lead to the same blocks, and the loop around it ends. -/
structure RemovalCorrect (f : Function) : Prop where
  removed : ∃ g n, removeUnreachableBlocks (threadBranches f).1 = some (g, n) ∧ SameRuns f g ∧
    KeepsBlocks f g
  ends : ∀ stats, ∃ out, dceLoop f.turns f stats = some out

/-- No block that a parallel loop names has been dropped, and none before it. -/
def NamedBlocksStay (f : Function) : Prop :=
  ∀ b, Runs f b → ∀ i ∈ b.instructions, ∀ id ∈ blockRefs i.kind,
    ∀ x, x ≤ id → Reaches (followedNext f) f.entry x

/-! ## New numbers -/

/-- The place of a number in a list of those numbers that satisfy something. -/
theorem getElem?_filter_range {p : Nat → Bool} {count n : Nat} :
    ((List.range count).filter p)[n]? = some n ↔ n < count ∧ ∀ x, x ≤ n → p x = true := by
  have hsplit : ∀ d, (List.range (n + 1 + d)).filter p = (List.range (n + 1)).filter p ++
      ((List.range d).map (n + 1 + ·)).filter p := by
    intro d
    rw [List.range_add, List.filter_append]
  constructor
  · intro h
    have hlt : n < count := List.mem_range.mp (List.mem_filter.mp (List.mem_of_getElem? h)).1
    obtain ⟨d, rfl⟩ := Nat.exists_eq_add_of_le (Nat.succ_le_of_lt hlt)
    refine ⟨hlt, fun x hx => ?_⟩
    rw [hsplit, List.getElem?_append] at h
    split at h
    · next hlength =>
      have hle := List.length_filter_le p (List.range (n + 1))
      rw [List.length_range] at hle
      have hall : ((List.range (n + 1)).filter p).length = (List.range (n + 1)).length := by
        rw [List.length_range]
        omega
      rw [List.length_filter_eq_length_iff] at hall
      apply hall
      rw [List.mem_range]
      omega
    · -- past the first `n + 1` numbers there are greater ones only
      have hmem := (List.mem_filter.mp (List.mem_of_getElem? h)).1
      simp only [List.mem_map, List.mem_range] at hmem
      omega
  · rintro ⟨hlt, hall⟩
    obtain ⟨d, rfl⟩ := Nat.exists_eq_add_of_le (Nat.succ_le_of_lt hlt)
    have hself : (List.range (n + 1)).filter p = List.range (n + 1) := by
      apply List.filter_eq_self.mpr
      intro x hx
      rw [List.mem_range] at hx
      exact hall x (by omega)
    rw [hsplit, hself, List.getElem?_append_left (by simp)]
    simp

section Numbers

variable {f : Function} {reached : List BlockId}

theorem renumber_lookup {blocks : List BasicBlock} (hids : (blocks.map BasicBlock.id).Nodup)
    {id : BlockId} {n : Nat} (h : (renumber reached blocks).1.lookup id = some n) :
    ∃ b, (among reached blocks)[n]? = some b ∧ b.id = id := by
  induction blocks using List.reverseRecOn with
  | nil => simp [renumber] at h
  | append_singleton blocks b ih =>
    rw [List.map_append, List.nodup_append] at hids
    have hlength : (renumber reached blocks).2.length = (among reached blocks).length := by
      rw [(renumber_spec reached hids.1).1, List.length_mapIdx]
    rw [renumber_append] at h
    rw [among_append]
    by_cases hb : b.id ∈ reached
    · rw [if_pos hb] at h ⊢
      rw [List.lookup_cons] at h
      by_cases hid : id = b.id
      · subst hid
        simp only [beq_self_eq_true, Option.some.injEq] at h
        subst h
        refine ⟨b, ?_, rfl⟩
        rw [hlength, List.getElem?_append_right le_rfl]
        simp
      · rw [beq_false_of_ne hid] at h
        obtain ⟨c, hc, hcid⟩ := ih hids.1 h
        refine ⟨c, ?_, hcid⟩
        rwa [List.getElem?_append_left (List.getElem?_eq_some_iff.mp hc).1]
    · rw [if_neg hb] at h ⊢
      exact ih hids.1 h

/-- A block's new number is its place among those that can run. -/
theorem newNumber_iff (hf : Indexed f) {id : BlockId} {n : Nat} :
    newNumber f id = some n ↔ ∃ b, (running f)[n]? = some b ∧ b.id = id := by
  obtain ⟨reached, hreach, -, -, hmem⟩ := reachable_ok hf
  have hids : ((threadBranches f).1.blocks.map BasicBlock.id).Nodup := by
    rw [blocks_thread, List.map_map]
    exact hf.nodup_ids
  have hamong : among reached (threadBranches f).1.blocks = (running f).map threadBlock := by
    rw [running_eq hmem, blocks_thread]
    unfold among
    rw [List.filter_map]
    rfl
  unfold newNumber
  rw [hreach, Option.bind_some]
  constructor
  · intro h
    obtain ⟨c, hc, hcid⟩ := renumber_lookup hids h
    rw [hamong, List.getElem?_map, Option.map_eq_some_iff] at hc
    obtain ⟨b, hb, rfl⟩ := hc
    exact ⟨b, hb, hcid⟩
  · rintro ⟨b, hb, rfl⟩
    apply (renumber_spec reached hids).2 n (threadBlock b)
    rw [hamong, List.getElem?_map, hb]
    rfl

theorem newNumber_of_runs (hf : Indexed f) {b : BasicBlock} {n : Nat}
    (hb : (running f)[n]? = some b) : newNumber f b.id = some n :=
  (newNumber_iff hf).mpr ⟨b, hb, rfl⟩

theorem running_ids (hf : Indexed f) [DecidablePred (Reaches (followedNext f) f.entry)] :
    (running f).map BasicBlock.id =
      (List.range f.blocks.length).filter fun x => Reaches (followedNext f) f.entry x := by
  have hrange : List.range f.blocks.length = f.blocks.map BasicBlock.id := by
    apply List.ext_getElem?
    intro n
    rw [List.getElem?_map]
    by_cases hn : n < f.blocks.length
    · rw [List.getElem?_range hn, List.getElem?_eq_getElem hn, Option.map_some,
        hf.ids n _ (List.getElem?_eq_getElem hn)]
    · rw [List.getElem?_eq_none (by simpa using hn), List.getElem?_eq_none (by simpa using hn)]
      rfl
  rw [hrange, List.filter_map]
  apply congrArg
  unfold running
  apply List.filter_congr
  intro b hb
  simp only [Function.comp_apply, decide_eq_decide]
  exact ⟨fun h => h.2, fun h => ⟨hb, h⟩⟩

/-- A number stays if that block and every one before it can run. -/
theorem newNumber_self_iff (hf : Indexed f) {id : BlockId} :
    newNumber f id = some id ↔ ∀ x, x ≤ id → Reaches (followedNext f) f.entry x := by
  classical
  have hplace : newNumber f id = some id ↔ ((running f).map BasicBlock.id)[id]? = some id := by
    rw [newNumber_iff hf, List.getElem?_map, Option.map_eq_some_iff]
  rw [hplace, running_ids hf, getElem?_filter_range]
  simp only [decide_eq_true_eq]
  refine ⟨fun h => h.2, fun h => ⟨?_, h⟩⟩
  obtain ⟨b, hb, -⟩ := runs_of_reaches hf (h id le_rfl)
  exact (List.getElem?_eq_some_iff.mp hb).1

end Numbers

/-! ## Steps under the new numbers -/

section Steps

variable {ν ω : Type} {m : Module} {j : Nat} {f g : Function} {ψ : BlockId → BlockId}
  {fr : Frame ν} {callers : List (Frame ν)} {world : ω}

/-- A call of the function is in the same block under its new number. -/
def moved (j : Nat) (ψ : BlockId → BlockId) (fr : Frame ν) : Frame ν :=
  if fr.fn = j then { fr with block := ψ fr.block } else fr

/-- A call of the function is in a block that can run. -/
def InReach (f : Function) (j : Nat) (fr : Frame ν) : Prop :=
  fr.fn = j → Reaches (followedNext f) f.entry fr.block

/-- All open calls of the function are in blocks that can run. -/
def AllInReach (f : Function) (j : Nat) : State ν ω → Prop
  | .running fr callers _ => ∀ x ∈ fr :: callers, InReach f j x
  | _ => True

@[simp] theorem moved_fn : (moved j ψ fr).fn = fr.fn := by
  unfold moved
  split <;> rfl

@[simp] theorem moved_done : (moved j ψ fr).done = fr.done := by
  unfold moved
  split <;> rfl

@[simp] theorem moved_regs : (moved j ψ fr).regs = fr.regs := by
  unfold moved
  split <;> rfl

@[simp] theorem eval_moved : (moved j ψ fr).eval = fr.eval := by
  funext o
  cases o with
  | value v => simp [Frame.eval]
  | const c => rfl

@[simp] theorem unplaced_moved : unplaced (moved j ψ fr) = unplaced fr := by
  unfold unplaced moved
  split <;> rfl

theorem moved_set (v : ValueId) (x : Val ν) : (moved j ψ fr).set v x = moved j ψ (fr.set v x) := by
  unfold moved Frame.set
  split <;> rfl

theorem moved_advance (v : ValueId) (x : Val ν) :
    (moved j ψ fr).advance v x = moved j ψ (fr.advance v x) := by
  unfold moved Frame.advance Frame.set
  split <;> rfl

/-- A block of a function after the pass over one of the functions. -/
def relocated (j : Nat) (ψ : BlockId → BlockId) (k : Nat) (b : BasicBlock) : BasicBlock :=
  if k = j then place ψ (ψ b.id) b else b

@[simp] theorem relocated_params {k : Nat} {b : BasicBlock} :
    (relocated j ψ k b).params = b.params := by
  unfold relocated
  split <;> rfl

@[simp] theorem relocated_instructions {k : Nat} {b : BasicBlock} :
    (relocated j ψ k b).instructions = b.instructions := by
  unfold relocated
  split <;> rfl

theorem getElem?_set_self (hfn : m.functions[j]? = some f) :
    (m.functions.set j g)[j]? = some g := by
  rw [List.getElem?_set_self (List.getElem?_eq_some_iff.mp hfn).1]

/-- The blocks of the calls. -/
theorem blockOf_moved (hfn : m.functions[j]? = some f) (hf : Indexed f) (hc : Compacted f g ψ)
    (hfr : InReach f j fr) :
    blockOf ⟨m.functions.set j g⟩ (moved j ψ fr) = (blockOf m fr).map (relocated j ψ fr.fn) := by
  unfold blockOf
  rw [moved_fn]
  by_cases hj : fr.fn = j
  · obtain ⟨b, hb, hbid, hrun⟩ := runs_of_reaches hf (hfr hj)
    obtain ⟨n, hn, hψ, -⟩ := hc.number_lt hrun
    have hblock : (moved j ψ fr).block = n := by
      unfold moved
      rw [if_pos hj, ← hψ, hbid]
    dsimp only
    rw [hj, getElem?_set_self hfn, hfn, Option.bind_some, Option.bind_some, hblock, hc.getElem?, hn,
      hb]
    simp [relocated, hψ]
  · have hblock : (moved j ψ fr).block = fr.block := by
      unfold moved
      rw [if_neg hj]
    dsimp only
    have hsame : relocated j ψ fr.fn = id := by
      funext b
      simp [relocated, hj]
    rw [List.getElem?_set_ne (Ne.symm hj), hblock, hsame, Option.map_id]
    rfl

theorem enter_moved (hfn : m.functions[j]? = some f) (hf : Indexed f) (hc : Compacted f g ψ)
    (k : Nat) (xs : List (Val ν)) :
    enter ⟨m.functions.set j g⟩ k xs (callers.map (moved j ψ)) world =
      mapFrames (moved j ψ) (enter m k xs callers world) := by
  unfold enter
  by_cases hj : k = j
  · subst hj
    obtain ⟨b, hb, hbid, hrun⟩ := runs_of_reaches hf .start
    obtain ⟨n, hn, hψ, -⟩ := hc.number_lt hrun
    have hentry : g.entry = n := by rw [hc.entry, ← hbid, hψ]
    dsimp only
    rw [getElem?_set_self hfn, hfn]
    dsimp only
    rw [hentry, hc.getElem?, hn, hb]
    simp only [Option.map_some, place]
    cases bind (fun _ => none) b.params xs with
    | none => rfl
    | some regs => simp [mapFrames, moved, ← hentry, hc.entry]
  · dsimp only
    rw [List.getElem?_set_ne (Ne.symm hj)]
    cases m.functions[k]? with
    | none => rfl
    | some h =>
      dsimp only
      cases h.blocks[h.entry]? with
      | none => rfl
      | some b =>
        dsimp only
        cases bind (fun _ => none) b.params xs with
        | none => rfl
        | some regs => simp [mapFrames, moved, hj]

theorem goto_moved (hfn : m.functions[j]? = some f) (hf : Indexed f) (hc : Compacted f g ψ)
    {t : BlockId} (ht : InReach f j { fr with block := t }) (args : List Operand) :
    goto ⟨m.functions.set j g⟩ (if fr.fn = j then ψ t else t) args (moved j ψ fr)
        (callers.map (moved j ψ)) world =
      mapFrames (moved j ψ) (goto m t args fr callers world) := by
  have hframe : ({ moved j ψ fr with block := if fr.fn = j then ψ t else t } : Frame ν) =
      moved j ψ { fr with block := t } := by
    unfold moved
    by_cases hj : fr.fn = j <;> simp [hj]
  unfold goto
  rw [hframe, blockOf_moved hfn hf hc ht, eval_moved]
  cases args.mapM fr.eval with
  | none => rfl
  | some xs =>
    cases blockOf m { fr with block := t } with
    | none => rfl
    | some b =>
      simp only [Option.map_some, relocated_params, moved_regs, moved_fn]
      cases bind fr.regs b.params xs with
      | none => rfl
      | some regs =>
        simp only [mapFrames, moved]
        by_cases hj : fr.fn = j <;> simp [hj]

theorem leave_moved (hfn : m.functions[j]? = some f) (hf : Indexed f) (hc : Compacted f g ψ)
    (hcallers : ∀ x ∈ callers, InReach f j x) (x : Val ν) :
    leave ⟨m.functions.set j g⟩ x (callers.map (moved j ψ)) world =
      mapFrames (moved j ψ) (leave m x callers world) := by
  cases callers with
  | nil => rfl
  | cons fr callers =>
    unfold leave
    simp only [List.map_cons]
    rw [blockOf_moved hfn hf hc (hcallers fr List.mem_cons_self), Option.bind_map, moved_done]
    simp only [Function.comp_def, relocated_instructions]
    cases (blockOf m fr).bind fun b => b.instructions[fr.done]? with
    | none => rfl
    | some i =>
      simp only [mapFrames]
      rw [moved_advance]

theorem writes_moved (frames : List (Frame ν)) (ws : List (Nat × ValueId × Val ν)) :
    ws.foldl write (frames.map (moved j ψ)) = (ws.foldl write frames).map (moved j ψ) := by
  induction ws generalizing frames with
  | nil => rfl
  | cons w ws ih =>
    rw [List.foldl_cons, List.foldl_cons, ← ih]
    apply congrArg (List.foldl write · ws)
    apply List.ext_getElem?
    intro n
    rw [getElem?_write, List.getElem?_map, List.getElem?_map, getElem?_write, Option.map_map,
      Option.map_map]
    apply congrArg (Option.map · frames[n]?)
    funext fr
    simp only [Function.comp_apply]
    split
    · exact moved_set _ _
    · rfl

theorem callee_set (hfn : m.functions[j]? = some f) (hname : g.name = f.name)
    (hlinked : g.isExtern = f.isExtern) (k : InstrKind) :
    callee ⟨m.functions.set j g⟩ k = callee m k := by
  cases k with
  | call name args =>
    have hmap : (m.functions.set j g).map (fun f => f.name == name && !f.isExtern) =
        m.functions.map fun f => f.name == name && !f.isExtern := by
      rw [List.map_set, hname, hlinked]
      apply List.ext_getElem?
      intro n
      rw [List.getElem?_set]
      split
      · next hn =>
        subst hn
        rw [List.getElem?_map, hfn, List.length_map,
          if_pos (List.getElem?_eq_some_iff.mp hfn).1]
        rfl
      · rfl
    have hfind : ∀ fs : List Function, fs.findIdx? (fun f => f.name == name && !f.isExtern) =
        (fs.map fun f => f.name == name && !f.isExtern).findIdx? id := by
      intro fs
      rw [List.findIdx?_map]
      rfl
    simp only [callee]
    rw [hfind, hfind, hmap]
  | _ => rfl

variable {H : Host ν ω}

theorem actHost_moved (i : Instruction) (xs : List (Val ν)) :
    actHost (unplacedHost H) i xs (moved j ψ fr) (callers.map (moved j ψ)) world =
      mapFrames (moved j ψ) (actHost (unplacedHost H) i xs fr callers world) := by
  have hframes : moved j ψ fr :: callers.map (moved j ψ) = (fr :: callers).map (moved j ψ) := rfl
  have hact : (unplacedHost H).act (shape i.kind) xs i.ty ((fr :: callers).map (moved j ψ)) world =
      (unplacedHost H).act (shape i.kind) xs i.ty (fr :: callers) world := by
    simp [unplacedHost, Function.comp_def]
  unfold actHost
  rw [hframes, hact]
  cases (unplacedHost H).act (shape i.kind) xs i.ty (fr :: callers) world with
  | none => rfl
  | some out =>
    obtain ⟨x, ws, world'⟩ := out
    dsimp only
    rw [writes_moved]
    cases ws.foldl write (fr :: callers) with
    | nil => rfl
    | cons fr' callers' =>
      simp only [List.map_cons, mapFrames]
      rw [moved_advance]

theorem execInstr_moved (hfn : m.functions[j]? = some f) (hf : Indexed f) (hc : Compacted f g ψ)
    (hname : g.name = f.name) (hlinked : g.isExtern = f.isExtern) (i : Instruction) :
    execInstr ⟨m.functions.set j g⟩ (unplacedHost H) i (moved j ψ fr) (callers.map (moved j ψ))
        world = mapFrames (moved j ψ) (execInstr m (unplacedHost H) i fr callers world) := by
  unfold execInstr
  rw [eval_moved]
  cases i.kind.operands.mapM fr.eval with
  | none => rfl
  | some xs =>
    dsimp only
    cases operate i.ty i.kind xs with
    | value x =>
      simp only [mapFrames]
      rw [moved_advance]
    | trap => rfl
    | host =>
      dsimp only
      rw [callee_set hfn hname hlinked]
      cases callee m i.kind with
      | some k =>
        dsimp only
        rw [← List.map_cons]
        exact enter_moved hfn hf hc k xs
      | none => exact actHost_moved i xs

/-- The end of a block; a branch on a constant goes on as the jump it has become. -/
theorem execTerminator_moved (hfn : m.functions[j]? = some f) (hf : Indexed f)
    (hc : Compacted f g ψ) (hcallers : ∀ x ∈ callers, InReach f j x) {b : BasicBlock}
    (hb : ∀ id ∈ followed b.terminator, InReach f j { fr with block := id }) :
    execTerminator ⟨m.functions.set j g⟩ (relocated j ψ fr.fn b).terminator (moved j ψ fr)
        (callers.map (moved j ψ)) world =
      mapFrames (moved j ψ) (execTerminator m b.terminator fr callers world) := by
  have hgoto : ∀ id, id ∈ followed b.terminator → ∀ args,
      goto ⟨m.functions.set j g⟩ (if fr.fn = j then ψ id else id) args (moved j ψ fr)
          (callers.map (moved j ψ)) world =
        mapFrames (moved j ψ) (goto m id args fr callers world) := fun id hid args =>
    goto_moved hfn hf hc (hb id hid) args
  have hterminator : (relocated j ψ fr.fn b).terminator =
      if fr.fn = j then mapTargets ψ (threadTerminator b.terminator) else b.terminator := by
    unfold relocated
    split <;> rfl
  rw [hterminator]
  cases hterm : b.terminator with
  | ret x =>
    have hkeep : (if fr.fn = j then mapTargets ψ (threadTerminator (.ret x)) else .ret x) =
        Terminator.ret x := ite_self _
    rw [hkeep]
    cases x with
    | none => exact leave_moved hfn hf hc hcallers .unit
    | some x =>
      unfold execTerminator
      dsimp only
      rw [eval_moved]
      cases fr.eval x with
      | none => rfl
      | some y => exact leave_moved hfn hf hc hcallers y
  | unreachable =>
    have hkeep : (if fr.fn = j then mapTargets ψ (threadTerminator .unreachable)
        else .unreachable) = Terminator.unreachable := ite_self _
    rw [hkeep]
    rfl
  | jump t args =>
    have key := hgoto t (by rw [hterm]; exact List.mem_cons_self) args
    by_cases hj : fr.fn = j
    · rw [if_pos hj] at key ⊢
      exact key
    · rw [if_neg hj] at key ⊢
      exact key
  | branch cond t₁ a₁ t₂ a₂ =>
    rw [hterm] at hgoto
    rcases thread_cases (.branch cond t₁ a₁ t₂ a₂) with ⟨c, _, _, _, _, heq⟩ | ⟨hsame, htargets, -⟩
    · -- a branch on a constant
      simp only [Terminator.branch.injEq] at heq
      obtain ⟨rfl, -⟩ := heq
      cases c with
      | true =>
        have key := hgoto t₁ (by simp [followed]) a₁
        by_cases hj : fr.fn = j
        · rw [if_pos hj] at key ⊢
          exact key
        · rw [if_neg hj] at key ⊢
          exact key
      | false =>
        have key := hgoto t₂ (by simp [followed]) a₂
        by_cases hj : fr.fn = j
        · rw [if_pos hj] at key ⊢
          exact key
        · rw [if_neg hj] at key ⊢
          exact key
    · have key₁ := hgoto t₁ (by rw [htargets]; simp [Terminator.targets]) a₁
      have key₂ := hgoto t₂ (by rw [htargets]; simp [Terminator.targets]) a₂
      have hbranch : (if fr.fn = j then mapTargets ψ (threadTerminator (.branch cond t₁ a₁ t₂ a₂))
          else .branch cond t₁ a₁ t₂ a₂) =
          .branch cond (if fr.fn = j then ψ t₁ else t₁) a₁ (if fr.fn = j then ψ t₂ else t₂) a₂ := by
        rw [hsame]
        split <;> rfl
      rw [hbranch]
      unfold execTerminator
      dsimp only
      rw [eval_moved, key₁, key₂]
      cases fr.eval cond with
      | none => rfl
      | some x =>
        cases x with
        | bool c => cases c <;> rfl
        | _ => rfl

/-! ### Blocks that can run -/

theorem forall_advance (h : ∀ y ∈ fr :: callers, InReach f j y) (v : ValueId) (x : Val ν) :
    ∀ y ∈ fr.advance v x :: callers, InReach f j y := by
  obtain ⟨hfr, hcallers⟩ := List.forall_mem_cons.mp h
  exact List.forall_mem_cons.mpr ⟨hfr, hcallers⟩

theorem inReach_writes {frames : List (Frame ν)} (h : ∀ x ∈ frames, InReach f j x)
    (ws : List (Nat × ValueId × Val ν)) : ∀ x ∈ ws.foldl write frames, InReach f j x := by
  intro x hx
  have hplace := map_writes (p := fun fr : Frame ν => (fr.fn, fr.block)) (fun _ _ _ => rfl)
    frames ws
  have hmem : (x.fn, x.block) ∈ (ws.foldl write frames).map fun fr => (fr.fn, fr.block) :=
    List.mem_map_of_mem hx
  rw [hplace, List.mem_map] at hmem
  obtain ⟨y, hy, heq⟩ := hmem
  simp only [Prod.mk.injEq] at heq
  have key := h y hy
  unfold InReach at key ⊢
  rwa [heq.1, heq.2] at key

theorem AllInReach.enter (hfn : m.functions[j]? = some f) (k : Nat) (xs : List (Val ν))
    (hcallers : ∀ x ∈ callers, InReach f j x) :
    AllInReach f j (Model.Ssa.enter m k xs callers world) := by
  unfold Model.Ssa.enter
  cases hk : m.functions[k]? with
  | none => trivial
  | some h =>
    dsimp only
    cases h.blocks[h.entry]? with
    | none => trivial
    | some b =>
      dsimp only
      cases bind (fun _ => none) b.params xs with
      | none => trivial
      | some regs =>
        refine List.forall_mem_cons.mpr ⟨fun hj => ?_, hcallers⟩
        dsimp only at hj
        rw [hj, hfn] at hk
        cases hk
        exact .start

theorem AllInReach.goto {t : BlockId} (ht : InReach f j { fr with block := t })
    (args : List Operand) (hcallers : ∀ x ∈ callers, InReach f j x) :
    AllInReach f j (Model.Ssa.goto m t args fr callers world) := by
  unfold Model.Ssa.goto
  split
  · split
    · exact List.forall_mem_cons.mpr ⟨ht, hcallers⟩
    · trivial
  · trivial

theorem AllInReach.leave (x : Val ν) (hcallers : ∀ x ∈ callers, InReach f j x) :
    AllInReach f j (Model.Ssa.leave m x callers world) := by
  unfold Model.Ssa.leave
  cases callers with
  | nil => trivial
  | cons fr callers =>
    dsimp only
    split
    · exact forall_advance hcallers _ _
    · trivial

theorem AllInReach.execInstr (hfn : m.functions[j]? = some f) (i : Instruction)
    (hall : ∀ x ∈ fr :: callers, InReach f j x) :
    AllInReach f j (Model.Ssa.execInstr m H i fr callers world) := by
  unfold Model.Ssa.execInstr
  cases i.kind.operands.mapM fr.eval with
  | none => trivial
  | some xs =>
    dsimp only
    cases operate i.ty i.kind xs with
    | value x => exact forall_advance hall _ _
    | trap => trivial
    | host =>
      dsimp only
      cases callee m i.kind with
      | some k => exact AllInReach.enter hfn k xs hall
      | none =>
        dsimp only
        unfold actHost
        cases H.act (shape i.kind) xs i.ty (fr :: callers) world with
        | none => trivial
        | some out =>
          obtain ⟨x, ws, world'⟩ := out
          have hframes := inReach_writes hall ws
          dsimp only
          cases hlist : ws.foldl write (fr :: callers) with
          | nil => trivial
          | cons fr' callers' =>
            rw [hlist] at hframes
            exact forall_advance hframes _ _

theorem AllInReach.execTerminator {t : Terminator}
    (hb : ∀ id ∈ followed t, InReach f j { fr with block := id })
    (hcallers : ∀ x ∈ callers, InReach f j x) :
    AllInReach f j (Model.Ssa.execTerminator m t fr callers world) := by
  cases t with
  | ret x =>
    cases x with
    | none => exact AllInReach.leave .unit hcallers
    | some x =>
      unfold Model.Ssa.execTerminator
      dsimp only
      cases fr.eval x with
      | none => trivial
      | some y => exact AllInReach.leave y hcallers
  | unreachable => trivial
  | jump t args => exact AllInReach.goto (hb t List.mem_cons_self) args hcallers
  | branch cond t₁ a₁ t₂ a₂ =>
    rcases thread_cases (.branch cond t₁ a₁ t₂ a₂) with ⟨c, _, _, _, _, heq⟩ | ⟨-, htargets, -⟩
    · simp only [Terminator.branch.injEq] at heq
      obtain ⟨rfl, -⟩ := heq
      cases c with
      | true => exact AllInReach.goto (hb t₁ (by simp [followed])) a₁ hcallers
      | false => exact AllInReach.goto (hb t₂ (by simp [followed])) a₂ hcallers
    · rw [htargets] at hb
      have h₁ := hb t₁ (by simp [Terminator.targets])
      have h₂ := hb t₂ (by simp [Terminator.targets])
      unfold Model.Ssa.execTerminator
      dsimp only
      split
      · exact AllInReach.goto h₁ a₁ hcallers
      · exact AllInReach.goto h₂ a₂ hcallers
      · trivial

/-! ### Runs in step -/

/-- The blocks that the end of a block leads to can run. -/
theorem inReach_followed (hfn : m.functions[j]? = some f) (hfr : InReach f j fr) {b : BasicBlock}
    (hb : blockOf m fr = some b) :
    ∀ id ∈ followed b.terminator, InReach f j { fr with block := id } := by
  intro id hid hj
  dsimp only at hj
  rw [blockOf_eq (hj ▸ hfn)] at hb
  apply (hfr hj).step
  unfold followedNext
  rwa [hb]

theorem step_moved (hfn : m.functions[j]? = some f) (hf : Indexed f) (hc : Compacted f g ψ)
    (hname : g.name = f.name) (hlinked : g.isExtern = f.isExtern) {s : State ν ω}
    (hs : AllInReach f j s) :
    step ⟨m.functions.set j g⟩ (unplacedHost H) (mapFrames (moved j ψ) s) =
        mapFrames (moved j ψ) (step m (unplacedHost H) s) ∧
      AllInReach f j (step m (unplacedHost H) s) := by
  cases s with
  | running fr callers world =>
    obtain ⟨hfr, hcallers⟩ := List.forall_mem_cons.mp hs
    unfold step
    simp only [mapFrames]
    rw [blockOf_moved hfn hf hc hfr, moved_done]
    cases hb : blockOf m fr with
    | none => exact ⟨rfl, trivial⟩
    | some b =>
      simp only [Option.map_some, relocated_instructions]
      cases b.instructions[fr.done]? with
      | some i => exact ⟨execInstr_moved hfn hf hc hname hlinked i, AllInReach.execInstr hfn i hs⟩
      | none =>
        have hnext := inReach_followed hfn hfr hb
        exact ⟨execTerminator_moved hfn hf hc hcallers hnext,
          AllInReach.execTerminator hnext hcallers⟩
  | returned x world => exact ⟨rfl, trivial⟩
  | trapped world => exact ⟨rfl, trivial⟩
  | stuck => exact ⟨rfl, trivial⟩

theorem run_moved (hfn : m.functions[j]? = some f) (hf : Indexed f) (hc : Compacted f g ψ)
    (hname : g.name = f.name) (hlinked : g.isExtern = f.isExtern) {s : State ν ω}
    (hs : AllInReach f j s) (n : Nat) :
    run ⟨m.functions.set j g⟩ (unplacedHost H) n (mapFrames (moved j ψ) s) =
        mapFrames (moved j ψ) (run m (unplacedHost H) n s) ∧
      AllInReach f j (run m (unplacedHost H) n s) := by
  induction n with
  | zero => exact ⟨rfl, hs⟩
  | succ n ih =>
    unfold run
    rw [ih.1]
    exact step_moved hfn hf hc hname hlinked ih.2

theorem upcoming_moved (hfn : m.functions[j]? = some f) (hf : Indexed f) (hc : Compacted f g ψ)
    {s : State ν ω} (hs : AllInReach f j s) :
    upcoming ⟨m.functions.set j g⟩ (mapFrames (moved j ψ) s) = upcoming m s := by
  cases s with
  | running fr callers world =>
    simp only [mapFrames, upcoming]
    rw [blockOf_moved hfn hf hc (hs fr List.mem_cons_self), Option.bind_map]
    simp only [Function.comp_def, relocated_instructions, moved_done]
  | _ => rfl

theorem mapFrames_unplaced_moved (s : State ν ω) :
    mapFrames unplaced (mapFrames (moved j ψ) s) = mapFrames unplaced s := by
  cases s with
  | running fr callers world => simp [mapFrames]
  | _ => rfl

end Steps

section Removal

variable {f g : Function} {ψ : BlockId → BlockId}

theorem Compacted.sameRuns (hc : Compacted f g ψ) (hf : Indexed f) (hname : g.name = f.name)
    (hlinked : g.isExtern = f.isExtern) : SameRuns f g := by
  intro ν ω H m j hfn k xs world n
  have hstart : enter (ν := ν) ⟨m.functions.set j g⟩ k xs [] world =
      mapFrames (moved j ψ) (enter m k xs [] world) := by
    rw [← enter_moved hfn hf hc]
    rfl
  have hreach : AllInReach f j (enter m k xs [] world) :=
    AllInReach.enter hfn k xs fun x hx => absurd hx List.not_mem_nil
  obtain ⟨hrun, hall⟩ := run_moved (H := H) hfn hf hc hname hlinked hreach n
  dsimp only
  rw [hstart, hrun]
  constructor
  · exact mapFrames_unplaced_moved _
  · rw [upcoming_moved hfn hf hc hall]

/-- References lead to the same blocks exactly if every block a parallel loop names keeps its
number. -/
theorem Compacted.keepsBlocks_iff (hc : Compacted f g ψ) (hf : Indexed f) :
    KeepsBlocks f g ↔ NamedBlocksStay f := by
  have hpsi : ∀ id, Reaches (followedNext f) f.entry id → newNumber f id = some (ψ id) := by
    intro id hid
    obtain ⟨b, -, hbid, hrun⟩ := runs_of_reaches hf hid
    obtain ⟨n, hn, hψ, -⟩ := hc.number_lt hrun
    rw [← hbid, hψ]
    exact newNumber_of_runs hf hn
  constructor
  · intro h b hb i hi id hid
    obtain ⟨n, c, hn, hcb, hmoved⟩ := h.moved b hb
    obtain ⟨k, hk, -, -⟩ := hc.number_lt hb
    rw [newNumber_of_runs hf hk] at hn
    cases hn
    rw [hc.getElem?, hk, Option.map_some] at hcb
    cases hcb
    have hrefs := (List.forall₂_same.mp hmoved.instructions i hi).refs
    rw [← newNumber_self_iff hf]
    exact List.map_inj_left.mp hrefs id hid
  · intro h
    refine ⟨?_, fun b hb => ?_, fun n hn => ?_⟩
    · rw [hpsi f.entry .start, hc.entry]
    · obtain ⟨n, hn, -, -⟩ := hc.number_lt hb
      refine ⟨n, place ψ n b, newNumber_of_runs hf hn, ?_, rfl, ?_, ?_⟩
      · rw [hc.getElem?, hn, Option.map_some]
      · have htargets : (place ψ n b).terminator.targets = (followed b.terminator).map ψ := by
          rw [followed_eq, ← targets_mapTargets]
          rfl
        rw [htargets, List.map_map]
        apply List.map_congr_left
        intro id hid
        apply hpsi
        apply hb.2.step
        rwa [followedNext_of_mem hf hb.1]
      · apply List.forall₂_same.mpr
        intro i hi
        refine ⟨rfl, rfl, rfl, ?_⟩
        apply List.map_congr_left
        intro id hid
        exact (newNumber_self_iff hf).mpr (h b hb i hi id hid)
    · rw [hc.length] at hn
      have hb := List.getElem?_eq_getElem hn
      exact ⟨_, mem_running.mp (List.mem_of_getElem? hb), newNumber_of_runs hf hb⟩

/-- The pass rewrites the blocks and the entry of a function and nothing else. -/
theorem removed_name {n : Nat} (h : removeUnreachableBlocks f = some (g, n)) :
    g.name = f.name ∧ g.isExtern = f.isExtern := by
  unfold removeUnreachableBlocks at h
  simp only [Option.bind_eq_bind, Option.bind_eq_some_iff] at h
  obtain ⟨reached, -, h⟩ := h
  split at h
  · cases h
    exact ⟨rfl, rfl⟩
  · simp only [Option.bind_eq_some_iff] at h
    obtain ⟨blocks, -, entry, -, h⟩ := h
    cases h
    exact ⟨rfl, rfl⟩

/-- What the pass gives keeps every reference exactly if no block that a parallel loop names,
and none before it, has been dropped. -/
theorem removed_spec (hf : Indexed f) :
    ∃ g n, removeUnreachableBlocks (threadBranches f).1 = some (g, n) ∧ SameRuns f g ∧
      (KeepsBlocks f g ↔ NamedBlocksStay f) := by
  obtain ⟨g, n, ψ, hrun, hc⟩ := compact_ok hf
  obtain ⟨hname, hlinked⟩ := removed_name hrun
  exact ⟨g, n, hrun, hc.sameRuns hf hname hlinked, hc.keepsBlocks_iff hf⟩

/-- Following constant branches and removing unreachable blocks keeps every run, keeps what
every reference to a block leads to, and ends, if and only if no block that a parallel loop
names, and none before it, is dropped. -/
theorem removalCorrect_iff (f : Function) (hf : Indexed f) :
    RemovalCorrect f ↔ NamedBlocksStay f := by
  obtain ⟨g, n, hrun, hsame, hkeeps⟩ := removed_spec hf
  constructor
  · rintro ⟨⟨g', n', hrun', -, h⟩, -⟩
    rw [hrun, Option.some.injEq, Prod.mk.injEq] at hrun'
    rw [← hrun'.1] at h
    exact hkeeps.mp h
  · intro h
    refine ⟨⟨g, n, hrun, hsame, hkeeps.mpr h⟩, fun stats => ?_⟩
    obtain ⟨h, ψ, p, stats', hloop, -⟩ := dceLoop_ok hf stats
    exact ⟨_, hloop⟩

end Removal

/-! ## A loop behind a constant branch -/

/-- `if true { } else { } parallel for i in 0..10 { }`: the loop is in blocks 4 to 7. -/
def behindBranch : Function where
  name := "main"
  isExtern := false
  entry := 0
  blocks :=
    [⟨0, [], [], .branch (.const (.bool true)) 1 [] 2 []⟩,
      ⟨1, [], [], .jump 3 []⟩,
      ⟨2, [], [], .jump 3 []⟩,
      ⟨3, [],
        [⟨0, .hint (.parallelForBegin []
            ⟨"i", 2, .int .i64, .value 1, .const (.int 10), 4, 5, 6, 7⟩), .int .i64⟩,
          ⟨1, .const (.int 0), .int .i64⟩],
        .jump 4 [.value 1]⟩,
      ⟨4, [(2, .int .i64)], [⟨5, .binary .lt (.value 2) (.const (.int 10)), .bool⟩],
        .branch (.value 5) 5 [] 7 [.value 2]⟩,
      ⟨5, [], [], .jump 6 [.value 2]⟩,
      ⟨6, [(4, .int .i64)], [⟨6, .binary .add (.value 4) (.const (.int 1)), .int .i64⟩],
        .jump 4 [.value 6]⟩,
      ⟨7, [(3, .int .i64)], [⟨7, .hint .parallelForEnd, .int .i64⟩],
        .ret (some (.const (.int 0)))⟩]

theorem behindBranch_indexed : Indexed behindBranch where
  ids n b hb := by
    have hall : behindBranch.blocks.mapIdx (fun n b => b.id == n) = List.replicate 8 true := rfl
    have hn := congrArg (fun l : List Bool => l[n]?) hall
    simp only [List.getElem?_mapIdx, hb, Option.map_some] at hn
    have hlt := (List.getElem?_eq_some_iff.mp hn.symm).1
    rw [List.getElem?_eq_getElem hlt, List.getElem_replicate] at hn
    simpa using hn
  entry := by decide
  targets b hb id hid := by
    have hall : (behindBranch.blocks.all fun b =>
        b.terminator.targets.all fun id => id < 8) = true := by decide
    simp only [List.all_eq_true, decide_eq_true_eq] at hall
    exact hall b hb id hid

theorem behindBranch_correct_iff : RemovalCorrect behindBranch ↔ NamedBlocksStay behindBranch :=
  removalCorrect_iff behindBranch behindBranch_indexed

/-- Block 2 is dropped, so block 4 gets the number 3, and the shape of the loop still says 4. -/
theorem behindBranch_refutes : Indexed behindBranch ∧ ¬ RemovalCorrect behindBranch := by
  refine ⟨behindBranch_indexed, fun h => ?_⟩
  obtain ⟨g, n, hrun, -, hkeeps⟩ := removed_spec behindBranch_indexed
  obtain ⟨g', n', hrun', -, hkept⟩ := h.removed
  rw [hrun, Option.some.injEq, Prod.mk.injEq] at hrun'
  rw [← hrun'.1, hkeeps] at hkept
  have hone : Reaches (followedNext behindBranch) 0 1 := Reaches.start.step (by decide)
  have hthree : Reaches (followedNext behindBranch) 0 3 := hone.step (by decide)
  have hloop := hkept _ ⟨List.mem_of_getElem? (i := 3) rfl, hthree⟩ _ List.mem_cons_self 4
    (by simp [blockRefs]) 2 (by decide)
  have hnot : ∀ x, Reaches (followedNext behindBranch) 0 x → x ≠ 2 := by
    intro x hx
    cases hx with
    | start => decide
    | @step y _ _ hy =>
      rintro rfl
      have hnone : ∀ y, y < 8 → 2 ∉ followedNext behindBranch y := by decide
      apply hnone y _ hy
      by_contra hge
      have hout : behindBranch.blocks[y]? = none := List.getElem?_eq_none (Nat.le_of_not_lt hge)
      simp [followedNext, hout] at hy
  exact hnot 2 hloop rfl

end Vani.Analysis
