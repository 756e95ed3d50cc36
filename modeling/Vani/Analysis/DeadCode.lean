import Vani.Program.SsaPass
import Mathlib.Algebra.Order.BigOperators.Group.List
import Mathlib.Algebra.Order.Ring.Nat

/-!
# Dead-code elimination and well-formed functions

A function is well formed if every value an instruction or a terminator names is defined on
every way to it, jumps pass as many arguments as their targets take, and the loop shapes of
parallel loops name blocks that exist. Dead-code elimination follows constant branches,
drops and renumbers blocks, and takes instructions out until each one left is used. It
does not count the values named by a reference, a drop, the array of an assignment or the
shape of a parallel loop, and it does not renumber the blocks a shape names: the result is
well formed exactly where this takes nothing away that is still named.
-/

set_option autoImplicit false

namespace Vani.Analysis

open Vani.Library Vani.Program.Ssa
open Vani.Program (Ty)

/-! ## Well-formed functions -/

/-- Every value an instruction names. The counter of a parallel loop is a parameter of the
loop's header and is not used at the hint. -/
def references : InstrKind → List ValueId
  | .const _ | .strLit _ | .fnRef _ => []
  | .unary _ x => x.values
  | .binary _ l r => l.values ++ r.values
  | .call _ args => args.flatMap Operand.values
  | .callIndirect callee args => callee.values ++ args.flatMap Operand.values
  | .cast x _ => x.values
  | .arrayLit elements => elements.flatMap Operand.values
  | .index array index _ => array.values ++ index.values
  | .len array _ => array.values
  | .refOf source _ => source.values
  | .indexAssign array _ index value _ => array.values ++ index.values ++ value.values
  | .drop source _ _ => source.values
  | .hint (.parallelForBegin _ shape) => shape.start.values ++ shape.stop.values
  | .hint _ => []

/-- The blocks a terminator leads to, with the arguments it passes. -/
def edges : Terminator → List (BlockId × List Operand)
  | .ret _ | .unreachable => []
  | .jump target args => [(target, args)]
  | .branch _ thenBlock thenArgs elseBlock elseArgs =>
    [(thenBlock, thenArgs), (elseBlock, elseArgs)]

/-- The edges of the graph of blocks. -/
def next (blocks : List BasicBlock) (id : BlockId) : List BlockId :=
  match blocks[id]? with
  | some b => b.terminator.targets
  | none => []

/-- A parameter of a block, or the result of one of some instructions. -/
def Defines (p : Instruction → Prop) (params : List (ValueId × Ty)) (is : List Instruction)
    (v : ValueId) : Prop :=
  v ∈ params.map Prod.fst ∨ ∃ i ∈ is, p i ∧ i.result = v

/-- A value is defined, by a parameter or one of some instructions, on every way to a place in
a block: earlier in the block, or in a block that dominates it. -/
def Available (next : BlockId → List BlockId) (p : Instruction → Prop) (f : Function)
    (b : BasicBlock) (before : List Instruction) (v : ValueId) : Prop :=
  Defines p b.params before v ∨
    ∃ a ∈ f.blocks, a.id ≠ b.id ∧ Dominates next f.entry a.id b.id ∧
      Defines p a.params a.instructions v

/-- The blocks a shape names exist, and the counter is a parameter of the header. -/
structure ShapeOk (f : Function) (shape : ParallelForShape) : Prop where
  header : ∃ b : BasicBlock, f.blocks[shape.headerBlock]? = some b ∧
    shape.counterHeaderValue ∈ b.params.map Prod.fst
  body : shape.bodyBlock < f.blocks.length
  step : shape.stepBlock < f.blocks.length
  exit : shape.exitBlock < f.blocks.length

/-- A well-formed function. -/
structure WellFormed (f : Function) : Prop where
  ids : ∀ (n : Nat) (b : BasicBlock), f.blocks[n]? = some b → b.id = n
  entry : f.entry < f.blocks.length
  arity : ∀ b ∈ f.blocks, ∀ e ∈ edges b.terminator,
    ∃ t : BasicBlock, f.blocks[e.1]? = some t ∧ e.2.length = t.params.length
  operands : ∀ b ∈ f.blocks, ∀ pre i post, b.instructions = pre ++ i :: post →
    ∀ v ∈ references i.kind, Available (next f.blocks) (fun _ => True) f b pre v
  terminators : ∀ b ∈ f.blocks, ∀ v ∈ b.terminator.used,
    Available (next f.blocks) (fun _ => True) f b b.instructions v
  shapes : ∀ b ∈ f.blocks, ∀ i ∈ b.instructions, ∀ reductions shape,
    i.kind = .hint (.parallelForBegin reductions shape) → ShapeOk f shape

/-- The numbers of the blocks are their places, and those of the entry and of every target are
among them. -/
structure Indexed (f : Function) : Prop where
  ids : ∀ (n : Nat) (b : BasicBlock), f.blocks[n]? = some b → b.id = n
  entry : f.entry < f.blocks.length
  targets : ∀ b ∈ f.blocks, ∀ id ∈ b.terminator.targets, id < f.blocks.length

theorem Defines.mono {p q : Instruction → Prop} {params : List (ValueId × Ty)}
    {is : List Instruction} {v : ValueId} (hpq : ∀ i, i.result = v → p i → q i)
    (h : Defines p params is v) : Defines q params is v :=
  h.imp_right fun ⟨i, hi, hp, hv⟩ => ⟨i, hi, hpq i hv hp, hv⟩

theorem Available.mono {next next' : BlockId → List BlockId} {p q : Instruction → Prop}
    {f : Function} {b : BasicBlock} {before : List Instruction} {v : ValueId}
    (hnext : ∀ x y, y ∈ next' x → y ∈ next x) (hpq : ∀ i, i.result = v → p i → q i)
    (h : Available next p f b before v) : Available next' q f b before v := by
  rcases h with h | ⟨a, ha, hne, hdom, hdef⟩
  · exact Or.inl (h.mono hpq)
  · exact Or.inr ⟨a, ha, hne, hdom.mono hnext, hdef.mono hpq⟩

/-! ## What the passes keep -/

/-- The values named where the liveness of the pass does not look. -/
def forgotten : InstrKind → List ValueId
  | .refOf source _ => source.values
  | .indexAssign array _ _ _ _ => array.values
  | .drop source _ _ => source.values
  | .hint (.parallelForBegin _ shape) => shape.start.values ++ shape.stop.values
  | _ => []

theorem mem_references {k : InstrKind} {v : ValueId} :
    v ∈ references k ↔ v ∈ collectUsed k ∨ v ∈ forgotten k := by
  unfold references collectUsed forgotten
  cases k with
  | indexAssign array baseTy index value checked =>
    simp only [List.mem_append]
    tauto
  | hint kind => cases kind <;> simp
  | _ => simp

/-- The blocks a terminator leads to, a branch on a constant only where it goes. -/
def followed : Terminator → List BlockId
  | .branch (.const (.bool b)) thenBlock _ elseBlock _ => [if b then thenBlock else elseBlock]
  | t => t.targets

/-- The values a terminator uses, a branch on a constant only those it passes. -/
def passed : Terminator → List ValueId
  | .branch (.const (.bool b)) _ thenArgs _ elseArgs =>
    (if b then thenArgs else elseArgs).flatMap Operand.values
  | t => t.used

/-- The edges of the graph of blocks when branches on constants are followed. -/
def followedNext (f : Function) (id : BlockId) : List BlockId :=
  match f.blocks[id]? with
  | some b => followed b.terminator
  | none => []

/-- A block that can run. -/
def Runs (f : Function) (b : BasicBlock) : Prop :=
  b ∈ f.blocks ∧ Reaches (followedNext f) f.entry b.id

/-- A value is dead if no terminator of a block that can run uses it, and whatever else counts
as using it may be dropped and has a dead result. -/
inductive Dead (f : Function) : ValueId → Prop
  | intro {v : ValueId} (ends : ∀ b, Runs f b → v ∉ passed b.terminator)
      (safe : ∀ b, Runs f b → ∀ i ∈ b.instructions, v ∈ collectUsed i.kind →
        isSafeToDrop i.kind = true)
      (results : ∀ b, Runs f b → ∀ i ∈ b.instructions, v ∈ collectUsed i.kind →
        Dead f i.result) : Dead f v

/-- An instruction that stays. -/
def Live (f : Function) (i : Instruction) : Prop :=
  ¬(isSafeToDrop i.kind = true ∧ Dead f i.result)

open Classical in
/-- The blocks that can run, in order. -/
noncomputable def running (f : Function) : List BasicBlock := f.blocks.filter fun b => Runs f b

/-- The condition for a well-formed result: a value that an instruction that stays names where
the liveness does not look is not dead, or is a parameter or the result of an instruction that
may not be dropped; and the numbers a shape gives are those of blocks that can run, once
these are numbered in order, with the counter among the parameters of the header. -/
structure NothingForgotten (f : Function) : Prop where
  values : ∀ b, Runs f b → ∀ pre i post, b.instructions = pre ++ i :: post → Live f i →
    ∀ v ∈ forgotten i.kind, ¬Dead f v ∨
      Available (followedNext f) (fun d => isSafeToDrop d.kind = false) f b pre v
  header : ∀ b, Runs f b → ∀ i ∈ b.instructions, ∀ reductions shape,
    i.kind = .hint (.parallelForBegin reductions shape) →
      ∃ a : BasicBlock, (running f)[shape.headerBlock]? = some a ∧
        shape.counterHeaderValue ∈ a.params.map Prod.fst
  blocks : ∀ b, Runs f b → ∀ i ∈ b.instructions, ∀ reductions shape,
    i.kind = .hint (.parallelForBegin reductions shape) →
      shape.bodyBlock < (running f).length ∧ shape.stepBlock < (running f).length ∧
        shape.exitBlock < (running f).length

/-! ## Following constant branches -/

attribute [local simp] threadTerminator Terminator.targets edges followed isConstBranch

/-- A terminator is a branch on a constant, or it is none and stays as it is. -/
theorem thread_cases (t : Terminator) :
    (∃ b thenBlock thenArgs elseBlock elseArgs,
        t = .branch (.const (.bool b)) thenBlock thenArgs elseBlock elseArgs) ∨
      threadTerminator t = t ∧ followed t = t.targets ∧ passed t = t.used := by
  cases t with
  | branch cond thenBlock thenArgs elseBlock elseArgs =>
    cases cond with
    | value v => exact Or.inr ⟨rfl, rfl, rfl⟩
    | const c =>
      cases c with
      | bool b => exact Or.inl ⟨b, thenBlock, thenArgs, elseBlock, elseArgs, rfl⟩
      | _ => exact Or.inr ⟨rfl, rfl, rfl⟩
  | _ => exact Or.inr ⟨rfl, rfl, rfl⟩

theorem followed_eq (t : Terminator) : followed t = (threadTerminator t).targets := by
  rcases thread_cases t with ⟨b, t₁, a₁, t₂, a₂, rfl⟩ | ⟨ht, hf, -⟩
  · cases b <;> rfl
  · rw [ht, hf]

theorem passed_eq (t : Terminator) : passed t = (threadTerminator t).used := by
  rcases thread_cases t with ⟨b, t₁, a₁, t₂, a₂, rfl⟩ | ⟨ht, -, hp⟩
  · cases b <;> rfl
  · rw [ht, hp]

theorem targets_eq (t : Terminator) : t.targets = (edges t).map Prod.fst := by
  cases t <;> rfl

theorem length_targets_le (t : Terminator) : t.targets.length ≤ 2 := by
  cases t <;> simp [Terminator.targets]

theorem edges_thread {t : Terminator} {e : BlockId × List Operand}
    (h : e ∈ edges (threadTerminator t)) : e ∈ edges t := by
  unfold threadTerminator at h
  split at h
  · next b _ _ _ _ => cases b <;> simp_all [edges]
  · exact h

theorem used_thread {t : Terminator} {v : ValueId} (h : v ∈ (threadTerminator t).used) :
    v ∈ t.used := by
  unfold threadTerminator at h
  split at h
  · next b _ _ _ _ => cases b <;> simp_all [Terminator.used]
  · exact h

theorem not_constBranch_thread (t : Terminator) : isConstBranch (threadTerminator t) = false := by
  unfold threadTerminator
  split
  · next b _ _ _ _ => cases b <;> rfl
  · next h =>
    unfold isConstBranch
    split
    · next b t₁ a₁ t₂ a₂ => exact absurd rfl (h b t₁ a₁ t₂ a₂)
    · rfl

theorem thread_of_not_constBranch {t : Terminator} (h : isConstBranch t = false) :
    threadTerminator t = t := by
  unfold threadTerminator
  split
  · cases h
  · rfl

/-- A block with its constant branch followed. -/
def threadBlock (b : BasicBlock) : BasicBlock :=
  { b with terminator := threadTerminator b.terminator }

theorem blocks_thread (f : Function) : (threadBranches f).1.blocks = f.blocks.map threadBlock := rfl

theorem targets_followed {t : Terminator} {id : BlockId} (h : id ∈ followed t) :
    id ∈ t.targets := by
  rw [followed_eq, targets_eq, List.mem_map] at h
  obtain ⟨e, he, rfl⟩ := h
  rw [targets_eq]
  exact List.mem_map_of_mem (edges_thread he)

theorem followedNext_sub {f : Function} {x y : BlockId} (h : y ∈ followedNext f x) :
    y ∈ next f.blocks x := by
  unfold followedNext at h
  unfold next
  cases hb : f.blocks[x]? with
  | none =>
    rw [hb] at h
    cases h
  | some b =>
    rw [hb] at h
    exact targets_followed h

/-! ## Dropping and renumbering blocks -/

/-- A terminator with other numbers for its targets. -/
def mapTargets (ψ : BlockId → BlockId) : Terminator → Terminator
  | .jump target args => .jump (ψ target) args
  | .branch cond thenBlock thenArgs elseBlock elseArgs =>
    .branch cond (ψ thenBlock) thenArgs (ψ elseBlock) elseArgs
  | t => t

theorem mapTargets_id (t : Terminator) : mapTargets id t = t := by
  cases t <;> rfl

theorem targets_mapTargets (ψ : BlockId → BlockId) (t : Terminator) :
    (mapTargets ψ t).targets = t.targets.map ψ := by
  cases t <;> rfl

theorem edges_mapTargets (ψ : BlockId → BlockId) (t : Terminator) :
    edges (mapTargets ψ t) = (edges t).map fun e => (ψ e.1, e.2) := by
  cases t <;> rfl

theorem used_mapTargets (ψ : BlockId → BlockId) (t : Terminator) :
    (mapTargets ψ t).used = t.used := by
  cases t <;> rfl

theorem constBranch_mapTargets (ψ : BlockId → BlockId) (t : Terminator) :
    isConstBranch (mapTargets ψ t) = isConstBranch t := by
  cases t with
  | branch cond t₁ a₁ t₂ a₂ =>
    cases cond with
    | value v => rfl
    | const c => cases c <;> rfl
  | _ => rfl

/-- A block with other numbers for its targets. -/
def withTargets (ψ : BlockId → BlockId) (b : BasicBlock) : BasicBlock :=
  { b with terminator := mapTargets ψ b.terminator }

/-- A surviving block under its new number. -/
def place (ψ : BlockId → BlockId) (n : Nat) (b : BasicBlock) : BasicBlock :=
  ⟨n, b.params, b.instructions, mapTargets ψ (threadTerminator b.terminator)⟩

/-- The blocks that can run, in order, with their new numbers throughout. -/
structure Compacted (f h : Function) (ψ : BlockId → BlockId) : Prop where
  blocks : h.blocks = (running f).mapIdx (place ψ)
  number : ∀ (n : Nat) (b : BasicBlock), (running f)[n]? = some b → ψ b.id = n
  entry : h.entry = ψ f.entry

section Renumber

variable {reached : List BlockId}

/-- The blocks among the reached ones. -/
def among (reached : List BlockId) (blocks : List BasicBlock) : List BasicBlock :=
  blocks.filter fun b => b.id ∈ reached

theorem renumber_append (reached : List BlockId) (blocks : List BasicBlock) (b : BasicBlock) :
    renumber reached (blocks ++ [b]) =
      if b.id ∈ reached then
        ((b.id, (renumber reached blocks).2.length) :: (renumber reached blocks).1,
          (renumber reached blocks).2 ++
            [{ b with id := (renumber reached blocks).2.length }])
      else renumber reached blocks := by
  unfold renumber
  rw [List.foldl_append]
  rfl

theorem among_append (reached : List BlockId) (blocks : List BasicBlock) (b : BasicBlock) :
    among reached (blocks ++ [b]) =
      if b.id ∈ reached then among reached blocks ++ [b] else among reached blocks := by
  unfold among
  rw [List.filter_append]
  split
  · next h => simp [h]
  · next h => simp [h]

/-- The survivors come in order under consecutive numbers, and the map knows these. -/
theorem renumber_spec (reached : List BlockId) {blocks : List BasicBlock}
    (hids : (blocks.map BasicBlock.id).Nodup) :
    (renumber reached blocks).2 =
        (among reached blocks).mapIdx (fun n b => { b with id := n }) ∧
      ∀ (n : Nat) (b : BasicBlock), (among reached blocks)[n]? = some b →
        (renumber reached blocks).1.lookup b.id = some n := by
  induction blocks using List.reverseRecOn with
  | nil => exact ⟨rfl, fun n b h => by cases h⟩
  | append_singleton blocks b ih =>
    rw [List.map_append, List.nodup_append] at hids
    obtain ⟨hnodup, -, hne⟩ := hids
    obtain ⟨hblocks, hlookup⟩ := ih hnodup
    have hlength : (renumber reached blocks).2.length = (among reached blocks).length := by
      rw [hblocks, List.length_mapIdx]
    rw [renumber_append, among_append]
    by_cases hb : b.id ∈ reached
    · rw [if_pos hb, if_pos hb]
      refine ⟨?_, fun n c hc => ?_⟩
      · rw [List.mapIdx_concat, hblocks, List.length_mapIdx]
      · rw [List.getElem?_append] at hc
        split at hc
        · next hn =>
          have hmem : c ∈ blocks := (List.mem_filter.mp (List.mem_of_getElem? hc)).1
          have hcb : c.id ≠ b.id :=
            hne c.id (List.mem_map_of_mem hmem) b.id List.mem_cons_self
          rw [List.lookup_cons, beq_false_of_ne hcb]
          exact hlookup n c hc
        · next hn =>
          have hzero : n = (among reached blocks).length ∧ b = c := by
            rw [List.getElem?_singleton] at hc
            split at hc
            · next hz => exact ⟨by omega, Option.some.inj hc⟩
            · cases hc
          obtain ⟨rfl, rfl⟩ := hzero
          rw [List.lookup_cons, beq_self_eq_true, hlength]
    · rw [if_neg hb, if_neg hb]
      exact ⟨hblocks, hlookup⟩

theorem mapM_eq {α β : Type} {f : α → Option β} {g : α → β} {l : List α}
    (h : ∀ a ∈ l, f a = some (g a)) : l.mapM f = some (l.map g) := by
  induction l with
  | nil => rfl
  | cons a l ih =>
    rw [List.mapM_cons, h a List.mem_cons_self, ih fun b hb => h b (List.mem_cons_of_mem a hb)]
    rfl

/-- Targets that the map knows get their new numbers. -/
theorem retarget_eq {newIdOf : List (BlockId × BlockId)} {t : Terminator}
    (h : ∀ id ∈ t.targets, ∃ n, newIdOf.lookup id = some n) :
    retarget newIdOf t = some (mapTargets (fun id => (newIdOf.lookup id).getD 0) t) := by
  cases t with
  | ret x => rfl
  | unreachable => rfl
  | jump target args =>
    obtain ⟨n, hn⟩ := h target (by simp [Terminator.targets])
    simp [retarget, mapTargets, hn]
  | branch cond t₁ a₁ t₂ a₂ =>
    obtain ⟨n, hn⟩ := h t₁ (by simp [Terminator.targets])
    obtain ⟨m, hm⟩ := h t₂ (by simp [Terminator.targets])
    simp [retarget, mapTargets, hn, hm]

end Renumber

section Compaction

variable {f : Function}

theorem WellFormed.indexed (h : WellFormed f) : Indexed f where
  ids := h.ids
  entry := h.entry
  targets b hb id hid := by
    rw [targets_eq, List.mem_map] at hid
    obtain ⟨e, he, rfl⟩ := hid
    obtain ⟨t, ht, -⟩ := h.arity b hb e he
    exact (List.getElem?_eq_some_iff.mp ht).1

theorem Indexed.id_eq (h : Indexed f) {b : BasicBlock} (hb : b ∈ f.blocks) :
    f.blocks[b.id]? = some b := by
  obtain ⟨n, hn⟩ := List.mem_iff_getElem?.mp hb
  rwa [h.ids n b hn]

theorem Indexed.nodup_ids (h : Indexed f) : (f.blocks.map BasicBlock.id).Nodup := by
  have hrange : f.blocks.map BasicBlock.id = List.range f.blocks.length := by
    refine List.ext_getElem? fun n => ?_
    rw [List.getElem?_map]
    by_cases hn : n < f.blocks.length
    · rw [List.getElem?_range hn, List.getElem?_eq_getElem hn, Option.map_some,
        h.ids n _ (List.getElem?_eq_getElem hn)]
    · rw [List.getElem?_eq_none (by omega), List.getElem?_eq_none (by simpa using hn)]
      rfl
  rw [hrange]
  exact List.nodup_range

theorem followedNext_of_mem (h : Indexed f) {b : BasicBlock} (hb : b ∈ f.blocks) :
    followedNext f b.id = followed b.terminator := by
  unfold followedNext
  rw [h.id_eq hb]

/-- The search finds the blocks that can run. -/
theorem reachable_ok (h : Indexed f) :
    ∃ reached, reachable (threadBranches f).1 = some reached ∧ reached.Nodup ∧
      (∀ id ∈ reached, id < f.blocks.length) ∧
      ∀ id, id ∈ reached ↔ Reaches (followedNext f) f.entry id := by
  have hlength : (threadBranches f).1.blocks.length = f.blocks.length := by
    rw [blocks_thread, List.length_map]
  obtain ⟨out, hrun, hnodup, hin, hmem⟩ := search_eq
    (fun id => ((threadBranches f).1.blocks[id]?).map fun b => b.terminator.targets)
    (followedNext f) f.entry (2 * f.blocks.length + 1)
    (V := Finset.range f.blocks.length) (d := 2)
    (fun x hx => by
      obtain ⟨b, hb⟩ : ∃ b, f.blocks[x]? = some b :=
        ⟨_, List.getElem?_eq_getElem (Finset.mem_range.mp hx)⟩
      have hmem : b ∈ f.blocks := List.mem_of_getElem? hb
      unfold followedNext
      rw [blocks_thread, List.getElem?_map, hb]
      refine ⟨congrArg some (followed_eq b.terminator).symm, ?_, fun y hy => ?_⟩
      · dsimp only
        rw [followed_eq]
        exact length_targets_le _
      · dsimp only at hy
        exact Finset.mem_range.mpr (h.targets b hmem y (targets_followed hy)))
    (Finset.mem_range.mpr h.entry) (by rw [Finset.card_range])
  refine ⟨out, ?_, hnodup, fun id hid => Finset.mem_range.mp (hin id hid), hmem⟩
  unfold reachable
  rw [hlength]
  exact hrun

theorem running_eq {reached : List BlockId}
    (hmem : ∀ id, id ∈ reached ↔ Reaches (followedNext f) f.entry id) :
    running f = among reached f.blocks := by
  unfold running among
  refine List.filter_congr fun b hb => ?_
  simp only [decide_eq_decide]
  exact ⟨fun hr => (hmem b.id).mpr hr.2, fun hr => ⟨hb, (hmem b.id).mp hr⟩⟩

theorem mem_running {b : BasicBlock} : b ∈ running f ↔ Runs f b := by
  classical
  unfold running
  rw [List.mem_filter, decide_eq_true_iff]
  exact ⟨fun h => h.2, fun h => ⟨h.1, h⟩⟩

/-- The survivors get the new numbers of their targets. -/
theorem retargeted_eq (h : Indexed f) {r : List (BlockId × BlockId) × List BasicBlock}
    (hblocks : r.2 = ((running f).map threadBlock).mapIdx fun n b => { b with id := n })
    (hknown : ∀ id, Reaches (followedNext f) f.entry id → ∃ n, r.1.lookup id = some n) :
    (r.2.mapM fun b => (retarget r.1 b.terminator).map fun t => { b with terminator := t }) =
      some ((running f).mapIdx (place fun id => (r.1.lookup id).getD 0)) := by
  rw [mapM_eq (g := withTargets fun id => (r.1.lookup id).getD 0), hblocks]
  · refine congrArg some (List.ext_getElem? fun n => ?_)
    rw [List.getElem?_map, List.getElem?_mapIdx, List.getElem?_map, List.getElem?_mapIdx]
    cases (running f)[n]? <;> rfl
  · intro c hc
    rw [hblocks] at hc
    obtain ⟨n, hn⟩ := List.mem_iff_getElem?.mp hc
    rw [List.getElem?_mapIdx, List.getElem?_map] at hn
    cases hb : (running f)[n]? with
    | none =>
      rw [hb] at hn
      cases hn
    | some b =>
      rw [hb] at hn
      cases hn
      have hrun : Runs f b := mem_running.mp (List.mem_of_getElem? hb)
      rw [retarget_eq fun id hid => hknown id (hrun.2.step ?_)]
      · rfl
      · rw [followedNext_of_mem h hrun.1, followed_eq]
        exact hid

/-- Unreachable blocks are dropped and the others renumbered. -/
theorem compact_ok (h : Indexed f) :
    ∃ g n ψ, removeUnreachableBlocks (threadBranches f).1 = some (g, n) ∧ Compacted f g ψ := by
  obtain ⟨reached, hreach, hnodup, hlt, hmem⟩ := reachable_ok h
  have hrunning := running_eq hmem
  unfold removeUnreachableBlocks
  rw [hreach]
  have hlength : (threadBranches f).1.blocks.length = f.blocks.length := by
    rw [blocks_thread, List.length_map]
  by_cases hall : reached.length = f.blocks.length
  · -- every block can run, and keeps its number
    have hsame : running f = f.blocks := by
      rw [hrunning]
      refine List.filter_eq_self.mpr fun b hb => decide_eq_true ?_
      have hsub : reached.toFinset = Finset.range f.blocks.length := by
        refine Finset.eq_of_subset_of_card_le (fun id hid => ?_) ?_
        · exact Finset.mem_range.mpr (hlt id (List.mem_toFinset.mp hid))
        · rw [Finset.card_range, List.toFinset_card_of_nodup hnodup, hall]
      rw [← List.mem_toFinset, hsub, Finset.mem_range]
      exact (List.getElem?_eq_some_iff.mp (h.id_eq hb)).1
    refine ⟨(threadBranches f).1, 0, id, ?_, ?_, fun n b hb => ?_, rfl⟩
    · simp [hlength, hall]
    · rw [hsame, blocks_thread]
      refine List.ext_getElem? fun n => ?_
      rw [List.getElem?_map, List.getElem?_mapIdx]
      cases hb : f.blocks[n]? with
      | none => rfl
      | some b =>
        simp only [Option.map_some, threadBlock, place, mapTargets_id, h.ids n b hb]
    · rw [hsame] at hb
      exact h.ids n b hb
  · -- the survivors get new numbers, and every target is a survivor
    have hids : ((threadBranches f).1.blocks.map BasicBlock.id).Nodup := by
      have hsame : (threadBranches f).1.blocks.map BasicBlock.id = f.blocks.map BasicBlock.id := by
        rw [blocks_thread, List.map_map]
        rfl
      rw [hsame]
      exact h.nodup_ids
    obtain ⟨hblocks, hlookup⟩ := renumber_spec reached hids
    generalize hr : renumber reached (threadBranches f).1.blocks = r at hblocks hlookup
    have hamong : among reached (threadBranches f).1.blocks = (running f).map threadBlock := by
      rw [hrunning, blocks_thread]
      unfold among
      rw [List.filter_map]
      rfl
    rw [hamong] at hblocks hlookup
    have hnumber : ∀ (n : Nat) (b : BasicBlock), (running f)[n]? = some b →
        r.1.lookup b.id = some n := fun n b hb =>
      hlookup n (threadBlock b) (by rw [List.getElem?_map, hb]; rfl)
    have hknown : ∀ id, Reaches (followedNext f) f.entry id → ∃ n, r.1.lookup id = some n := by
      intro id hid
      have hrange := hlt id ((hmem id).mpr hid)
      have hb := List.getElem?_eq_getElem hrange
      have hrun : f.blocks[id] ∈ running f := by
        rw [mem_running]
        exact ⟨List.getElem_mem hrange, by rwa [h.ids id _ hb]⟩
      obtain ⟨n, hn⟩ := List.mem_iff_getElem?.mp hrun
      refine ⟨n, ?_⟩
      have key := hnumber n _ hn
      rwa [h.ids id _ hb] at key
    obtain ⟨m, hm⟩ := hknown f.entry .start
    have hmap := retargeted_eq h hblocks hknown
    let ψ : BlockId → BlockId := fun id => (r.1.lookup id).getD 0
    refine ⟨{ f with entry := m, blocks := (running f).mapIdx (place ψ) },
      f.blocks.length - reached.length, ψ, ?_, rfl, fun n b hb => ?_, ?_⟩
    · have hentry : r.1.lookup (threadBranches f).1.entry = some m := hm
      simp only [Option.bind_eq_bind, Option.bind_some, hlength, if_neg hall, hr, hmap, hentry,
        Option.pure_def]
      rfl
    · simp only [ψ, hnumber n b hb, Option.getD_some]
    · simp only [ψ, hm, Option.getD_some]

end Compaction

/-! ## Taking instructions out -/

/-- A function with some of its instructions. -/
def thin (f : Function) (p : Instruction → Bool) : Function :=
  { f with blocks := f.blocks.map fun b => { b with instructions := b.instructions.filter p } }

/-- The number of instructions. -/
def size (f : Function) : Nat := (f.blocks.map fun b => b.instructions.length).sum

section Thinning

variable {f h : Function} {ψ : BlockId → BlockId} {p : Instruction → Bool}

theorem getElem?_thin (h : Function) (p : Instruction → Bool) (n : Nat) :
    (thin h p).blocks[n]? =
      (h.blocks[n]?).map fun b => { b with instructions := b.instructions.filter p } :=
  List.getElem?_map

theorem next_thin (h : Function) (p : Instruction → Bool) :
    next (thin h p).blocks = next h.blocks := by
  funext id
  unfold next
  rw [getElem?_thin]
  cases h.blocks[id]? <;> rfl

theorem Compacted.getElem? (hc : Compacted f h ψ) (n : Nat) :
    h.blocks[n]? = ((running f)[n]?).map (place ψ n) := by
  rw [hc.blocks, List.getElem?_mapIdx]

theorem Compacted.length (hc : Compacted f h ψ) : h.blocks.length = (running f).length := by
  rw [hc.blocks, List.length_mapIdx]

/-- The numbers of the survivors are below their count. -/
theorem Compacted.number_lt (hc : Compacted f h ψ) {b : BasicBlock} (hb : Runs f b) :
    ∃ n, (running f)[n]? = some b ∧ ψ b.id = n ∧ n < (running f).length := by
  obtain ⟨n, hn⟩ := List.mem_iff_getElem?.mp (mem_running.mpr hb)
  exact ⟨n, hn, hc.number n b hn, (List.getElem?_eq_some_iff.mp hn).1⟩

theorem Compacted.place_mem (hc : Compacted f h ψ) {b : BasicBlock} (hb : Runs f b) :
    ∃ n, place ψ n b ∈ h.blocks := by
  obtain ⟨n, hn⟩ := List.mem_iff_getElem?.mp (mem_running.mpr hb)
  refine ⟨n, List.mem_of_getElem? (i := n) ?_⟩
  rw [hc.getElem?, hn]
  rfl

theorem Compacted.next_eq (hc : Compacted f h ψ) {n : Nat} {b : BasicBlock}
    (hb : (running f)[n]? = some b) :
    next h.blocks n = (followed b.terminator).map ψ := by
  unfold next
  rw [hc.getElem?, hb, followed_eq, ← targets_mapTargets]
  rfl

/-- A block that can be reached is there. -/
theorem runs_of_reaches (hf : Indexed f) {id : BlockId}
    (hid : Reaches (followedNext f) f.entry id) :
    ∃ b, f.blocks[id]? = some b ∧ b.id = id ∧ Runs f b := by
  have hlt : id < f.blocks.length := by
    induction hid with
    | start => exact hf.entry
    | @step x y _ hy ih =>
      have hb := List.getElem?_eq_getElem ih
      unfold followedNext at hy
      rw [hb] at hy
      dsimp only at hy
      exact hf.targets _ (List.mem_of_getElem? hb) y (targets_followed hy)
  have hb := List.getElem?_eq_getElem hlt
  have hbid := hf.ids id _ hb
  exact ⟨_, hb, hbid, List.mem_of_getElem? hb, by rwa [hbid]⟩

/-- Every survivor can be reached under its new number. -/
theorem Compacted.reaches (hc : Compacted f h ψ) (hf : Indexed f) {n : Nat}
    (hn : n < (running f).length) : Reaches (next h.blocks) h.entry n := by
  have hb := List.getElem?_eq_getElem hn
  have hrun : Runs f (running f)[n] := mem_running.mp (List.mem_of_getElem? hb)
  have hedge : ∀ x y, Reaches (followedNext f) f.entry x → y ∈ followedNext f x →
      ψ y ∈ next h.blocks (ψ x) := by
    intro x y hx hy
    obtain ⟨b, hbx, hbid, hbrun⟩ := runs_of_reaches hf hx
    obtain ⟨m, hm, hψ, -⟩ := hc.number_lt hbrun
    rw [← hbid, hψ, hc.next_eq hm]
    rw [← hbid, followedNext_of_mem hf hbrun.1] at hy
    exact List.mem_map_of_mem hy
  have key := hrun.2.map hc.entry.symm hedge
  rwa [hc.number n _ hb] at key

theorem Compacted.target_lt (hc : Compacted f h ψ) (hf : Indexed f) {n m : Nat}
    (hm : m ∈ next h.blocks n) : m < (running f).length := by
  unfold next at hm
  rw [hc.getElem?] at hm
  cases hb : (running f)[n]? with
  | none =>
    rw [hb] at hm
    cases hm
  | some b =>
    rw [hb] at hm
    have hrun : Runs f b := mem_running.mp (List.mem_of_getElem? hb)
    have hmem : m ∈ (followed b.terminator).map ψ := by
      rw [followed_eq, ← targets_mapTargets]
      exact hm
    obtain ⟨id, hid, rfl⟩ := List.mem_map.mp hmem
    obtain ⟨c, -, hcid, hcrun⟩ := runs_of_reaches hf (hrun.2.step (by
      rw [followedNext_of_mem hf hrun.1]
      exact hid))
    obtain ⟨k, -, hk, hlt⟩ := hc.number_lt hcrun
    rw [← hcid, hk]
    exact hlt

/-- No branch is left to follow. -/
theorem Compacted.thread_thin (hc : Compacted f h ψ) (p : Instruction → Bool) :
    threadBranches (thin h p) = (thin h p, 0) := by
  have hnone : ∀ b ∈ (thin h p).blocks, isConstBranch b.terminator = false := by
    intro b hb
    obtain ⟨n, hn⟩ := List.mem_iff_getElem?.mp hb
    rw [getElem?_thin, hc.getElem?] at hn
    cases hr : (running f)[n]? with
    | none =>
      rw [hr] at hn
      cases hn
    | some c =>
      rw [hr] at hn
      cases hn
      exact (constBranch_mapTargets ψ _).trans (not_constBranch_thread _)
  unfold threadBranches
  congr 1
  · have hmap : (thin h p).blocks.map threadBlock = (thin h p).blocks := by
      refine List.map_congr_left (g := id) (fun b hb => ?_) |>.trans (List.map_id _)
      unfold threadBlock
      rw [thread_of_not_constBranch (hnone b hb)]
      rfl
    exact congrArg (fun bs => { thin h p with blocks := bs }) hmap
  · exact List.countP_eq_zero.mpr fun b hb => by rw [hnone b hb]; exact Bool.false_ne_true

/-- No block is left to drop. -/
theorem Compacted.remove_thin (hc : Compacted f h ψ) (hf : Indexed f)
    (p : Instruction → Bool) : removeUnreachableBlocks (thin h p) = some (thin h p, 0) := by
  have hlength : (thin h p).blocks.length = (running f).length := by
    rw [thin, List.length_map, hc.length]
  obtain ⟨out, hrun, hnodup, hin, hmem⟩ := search_eq
    (fun id => ((thin h p).blocks[id]?).map fun b => b.terminator.targets)
    (next h.blocks) h.entry (2 * (running f).length + 1)
    (V := Finset.range (running f).length) (d := 2)
    (fun n hn => by
      have hb := List.getElem?_eq_getElem (Finset.mem_range.mp hn)
      refine ⟨?_, ?_, fun m hm => Finset.mem_range.mpr (hc.target_lt hf hm)⟩
      · unfold next
        rw [getElem?_thin, hc.getElem?, hb]
        rfl
      · rw [hc.next_eq hb, List.length_map, followed_eq]
        exact length_targets_le _)
    (by
      obtain ⟨b, -, hbid, hbrun⟩ := runs_of_reaches hf .start
      obtain ⟨k, -, hk, hlt⟩ := hc.number_lt hbrun
      rw [hc.entry, ← hbid, hk]
      exact Finset.mem_range.mpr hlt)
    (by rw [Finset.card_range])
  have hall : out.length = (running f).length := by
    have hset : out.toFinset = Finset.range (running f).length := by
      ext n
      rw [List.mem_toFinset]
      exact ⟨hin n, fun hn => (hmem n).mpr (hc.reaches hf (Finset.mem_range.mp hn))⟩
    rw [← List.toFinset_card_of_nodup hnodup, hset, Finset.card_range]
  have hreach : reachable (thin h p) = some out := by
    unfold reachable
    rw [hlength]
    exact hrun
  unfold removeUnreachableBlocks
  rw [hreach]
  simp [hlength, hall]

theorem thin_true (h : Function) : thin h (fun _ => true) = h := by
  unfold thin
  have hmap : (h.blocks.map fun b => { b with instructions := b.instructions.filter fun _ => true }) =
      h.blocks := by
    refine (List.map_congr_left (g := id) fun b _ => ?_).trans (List.map_id _)
    rw [List.filter_true]
    rfl
  rw [hmap]

/-- The instructions left after another removal. -/
def remaining (h : Function) (p : Instruction → Bool) (i : Instruction) : Bool :=
  isKept (usedValues (thin h p).blocks) i && p i

theorem removeDead_thin (h : Function) (p : Instruction → Bool) :
    (removeDeadInstructions (thin h p)).1 = thin h (remaining h p) := by
  unfold removeDeadInstructions
  dsimp only
  refine congrArg (fun bs => { h with blocks := bs }) ?_
  conv_lhs => rw [thin]
  rw [List.map_map]
  refine List.map_congr_left fun b _ => ?_
  simp only [Function.comp_apply, List.filter_filter]
  rfl

/-- Every instruction left is used or may not be dropped. -/
def Settled (h : Function) (p : Instruction → Bool) : Prop :=
  ∀ b ∈ h.blocks, ∀ i ∈ b.instructions, p i = true →
    isKept (usedValues (thin h p).blocks) i = true

theorem mem_thin {b : BasicBlock} :
    b ∈ (thin h p).blocks ↔
      ∃ c ∈ h.blocks, { c with instructions := c.instructions.filter p } = b := List.mem_map

/-- A removal that takes nothing out leaves the function as it is. -/
theorem removeDead_zero (hzero : (removeDeadInstructions (thin h p)).2 = 0) :
    (removeDeadInstructions (thin h p)).1 = thin h p ∧ Settled h p := by
  have hkept : ∀ b ∈ (thin h p).blocks, ∀ i ∈ b.instructions,
      isKept (usedValues (thin h p).blocks) i = true := by
    intro b hb i hi
    have hcount := List.sum_eq_zero_iff_forall_eq_nat.mp hzero _ (List.mem_map_of_mem hb)
    have key := List.countP_eq_zero.mp hcount i hi
    simpa using key
  constructor
  · unfold removeDeadInstructions
    dsimp only
    refine congrArg (fun bs => { thin h p with blocks := bs }) ?_
    refine (List.map_congr_left (g := id) fun b hb => ?_).trans (List.map_id _)
    rw [List.filter_eq_self.mpr (hkept b hb)]
    rfl
  · intro b hb i hi hp
    exact hkept _ (mem_thin.mpr ⟨b, hb, rfl⟩) i (List.mem_filter.mpr ⟨hi, hp⟩)

/-- A removal takes as many instructions out as it says. -/
theorem size_removeDead (g : Function) :
    size (removeDeadInstructions g).1 + (removeDeadInstructions g).2 = size g := by
  unfold removeDeadInstructions size
  dsimp only
  generalize usedValues g.blocks = used
  induction g.blocks with
  | nil => rfl
  | cons b bs ih =>
    simp only [List.map_cons, List.sum_cons] at ih ⊢
    have hsplit := List.length_eq_countP_add_countP (isKept used) (l := b.instructions)
    have hfilter := List.countP_eq_length_filter (p := isKept used) (l := b.instructions)
    have hnot : b.instructions.countP (fun i => !isKept used i) =
        b.instructions.countP (fun a => decide ¬isKept used a = true) := by
      refine List.countP_congr fun i _ => ?_
      simp
    omega

/-- What has been taken out may be dropped, and its result is dead. -/
def OnlyDead (f : Function) (p : Instruction → Bool) : Prop :=
  ∀ b, Runs f b → ∀ i ∈ b.instructions, p i = false →
    isSafeToDrop i.kind = true ∧ Dead f i.result

/-- The values counted as used: by an instruction that is left, or passed on. -/
theorem Compacted.mem_used (hc : Compacted f h ψ) {v : ValueId} :
    v ∈ usedValues (thin h p).blocks ↔ ∃ b, Runs f b ∧
      ((∃ i ∈ b.instructions, p i = true ∧ v ∈ collectUsed i.kind) ∨ v ∈ passed b.terminator) := by
  have hused : ∀ b : BasicBlock, ∀ n, (place ψ n b).terminator.used = passed b.terminator := by
    intro b n
    rw [passed_eq]
    exact used_mapTargets ψ _
  simp only [usedValues, List.mem_flatMap, List.mem_append]
  constructor
  · rintro ⟨b, hb, hv⟩
    obtain ⟨c, hc', rfl⟩ := mem_thin.mp hb
    obtain ⟨n, hn⟩ := List.mem_iff_getElem?.mp hc'
    rw [hc.getElem?] at hn
    cases hr : (running f)[n]? with
    | none =>
      rw [hr] at hn
      cases hn
    | some a =>
      rw [hr] at hn
      cases hn
      refine ⟨a, mem_running.mp (List.mem_of_getElem? hr), ?_⟩
      rw [← hused a n]
      refine hv.imp_left ?_
      rintro ⟨i, hi, hvi⟩
      obtain ⟨hi, hp⟩ := List.mem_filter.mp hi
      exact ⟨i, hi, hp, hvi⟩
  · rintro ⟨a, ha, hv⟩
    obtain ⟨n, hplace⟩ := hc.place_mem ha
    refine ⟨_, mem_thin.mpr ⟨_, hplace, rfl⟩, ?_⟩
    dsimp only
    rw [hused a n]
    refine hv.imp_left ?_
    rintro ⟨i, hi, hp, hvi⟩
    exact ⟨i, List.mem_filter.mpr ⟨hi, hp⟩, hvi⟩

theorem isKept_eq_false {used : List ValueId} {i : Instruction} :
    isKept used i = false ↔ i.result ∉ used ∧ isSafeToDrop i.kind = true := by
  unfold isKept
  rw [Bool.or_eq_false_iff, List.contains_eq_mem, decide_eq_false_iff_not, Bool.not_eq_false']

/-- Another removal takes out only dead instructions. -/
theorem OnlyDead.remaining (hc : Compacted f h ψ) (hp : OnlyDead f p) :
    OnlyDead f (remaining h p) := by
  intro b hb i hi hout
  unfold Analysis.remaining at hout
  rw [Bool.and_eq_false_iff] at hout
  rcases hout with hout | hout
  · obtain ⟨hunused, hsafe⟩ := isKept_eq_false.mp hout
    rw [hc.mem_used] at hunused
    -- an instruction that uses the result has been taken out before
    have hbefore : ∀ c, Runs f c → ∀ j ∈ c.instructions, i.result ∈ collectUsed j.kind →
        p j = false := by
      intro c hrun j hj hv
      by_contra hpj
      exact hunused ⟨c, hrun, Or.inl ⟨j, hj, by simpa using hpj, hv⟩⟩
    refine ⟨hsafe, .intro ?_ ?_ ?_⟩
    · exact fun c hrun hv => hunused ⟨c, hrun, Or.inr hv⟩
    · exact fun c hrun j hj hv => (hp c hrun j hj (hbefore c hrun j hj hv)).1
    · exact fun c hrun j hj hv => (hp c hrun j hj (hbefore c hrun j hj hv)).2
  · exact hp b hb i hi hout

/-- Once nothing more is taken out, no dead value is used. -/
theorem Dead.not_used (hc : Compacted f h ψ) (hset : Settled h p) {v : ValueId}
    (hv : Dead f v) : v ∉ usedValues (thin h p).blocks := by
  induction hv with
  | intro ends safe results ih =>
    rw [hc.mem_used]
    rintro ⟨b, hb, ⟨i, hi, hp, hvi⟩ | hpassed⟩
    · have hkept : isKept (usedValues (thin h p).blocks) i = false :=
        isKept_eq_false.mpr ⟨ih b hb i hi hvi, safe b hb i hi hvi⟩
      obtain ⟨n, hplace⟩ := hc.place_mem hb
      rw [hset _ hplace i hi hp] at hkept
      cases hkept
    · exact ends b hb hpassed

/-- What is left in the end are the live instructions. -/
theorem left_iff_live (hc : Compacted f h ψ) (honly : OnlyDead f p) (hset : Settled h p)
    {b : BasicBlock} (hb : Runs f b) {i : Instruction} (hi : i ∈ b.instructions) :
    p i = true ↔ Live f i := by
  constructor
  · rintro hp ⟨hsafe, hdead⟩
    have hkept : isKept (usedValues (thin h p).blocks) i = false :=
      isKept_eq_false.mpr ⟨hdead.not_used hc hset, hsafe⟩
    obtain ⟨n, hplace⟩ := hc.place_mem hb
    rw [hset _ hplace i hi hp] at hkept
    cases hkept
  · intro hlive
    by_contra hp
    exact hlive (honly b hb i hi (by simpa using hp))

/-- The loop takes instructions out until none is dead. -/
theorem dceLoop_thin (hc : Compacted f h ψ) (hf : Indexed f) (fuel : Nat) (stats : DceStats)
    (honly : OnlyDead f p) (hfuel : size (thin h p) < fuel) :
    ∃ q stats', dceLoop fuel (thin h p) stats = some (thin h q, stats') ∧ OnlyDead f q ∧
      Settled h q := by
  induction fuel generalizing p stats with
  | zero => omega
  | succ fuel ih =>
    have hsize := size_removeDead (thin h p)
    unfold dceLoop dceRound
    rw [hc.thread_thin p]
    dsimp only
    rw [hc.remove_thin hf p]
    simp only [Option.bind_eq_bind, Option.bind_some, Option.pure_def, Nat.zero_add, Nat.add_zero]
    by_cases hzero : (removeDeadInstructions (thin h p)).2 = 0
    · obtain ⟨hsame, hset⟩ := removeDead_zero hzero
      rw [hzero, hsame]
      exact ⟨p, _, rfl, honly, hset⟩
    · rw [decide_eq_true (Nat.pos_of_ne_zero hzero), if_pos rfl, removeDead_thin]
      rw [removeDead_thin] at hsize
      exact ih _ (honly.remaining hc) (by omega)

/-- The loop from the start: blocks that cannot run are dropped, the others renumbered, and
the dead instructions taken out. -/
theorem dceLoop_ok (hf : Indexed f) (stats : DceStats) :
    ∃ h ψ p stats', dceLoop f.turns f stats = some (thin h p, stats') ∧ Compacted f h ψ ∧
      OnlyDead f p ∧ Settled h p := by
  obtain ⟨h, n, ψ, hrun, hc⟩ := compact_ok hf
  have hall : OnlyDead f fun _ => true := fun _ _ _ _ hout => by cases hout
  have hsize := size_removeDead (thin h fun _ => true)
  have hless : size h ≤ size f := by
    unfold size
    have hinstrs : (h.blocks.map fun b => b.instructions.length) =
        (running f).map fun b => b.instructions.length := by
      refine List.ext_getElem? fun n => ?_
      rw [List.getElem?_map, List.getElem?_map, hc.getElem?]
      cases (running f)[n]? <;> rfl
    rw [hinstrs]
    exact (List.filter_sublist.map _).sum_le_sum fun _ _ => Nat.zero_le _
  have hturns : f.turns = size f + 2 + 1 := rfl
  rw [hturns]
  unfold dceLoop dceRound
  dsimp only
  rw [hrun]
  simp only [Option.bind_eq_bind, Option.bind_some, Option.pure_def]
  rw [← thin_true h]
  by_cases hzero : 0 < (threadBranches f).2 + n + (removeDeadInstructions (thin h fun _ => true)).2
  · rw [decide_eq_true hzero, if_pos rfl, removeDead_thin]
    rw [removeDead_thin, thin_true] at hsize
    obtain ⟨q, stats', hloop, honly, hset⟩ := dceLoop_thin hc hf (size f + 2)
      ⟨stats.branchesThreaded + (threadBranches f).2, stats.blocksRemoved + n,
        stats.instructionsRemoved + (removeDeadInstructions (thin h fun _ => true)).2,
        stats.iterations + 1⟩ (hall.remaining hc) (by omega)
    exact ⟨h, ψ, q, stats', hloop, hc, honly, hset⟩
  · obtain ⟨hsame, hset⟩ := removeDead_zero (h := h) (p := fun _ => true) (by omega)
    rw [decide_eq_false hzero, if_neg Bool.false_ne_true, hsame]
    exact ⟨h, ψ, _, _, rfl, hc, hall, hset⟩

end Thinning

end Vani.Analysis
