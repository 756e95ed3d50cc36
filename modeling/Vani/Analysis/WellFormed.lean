import Vani.Analysis.DeadCode

/-!
# Well-formed functions after dead-code elimination

What is left of a function after dead-code elimination, and when it is well formed: the
dominance between the blocks that can run stays as it is under their new numbers, and a
value is available where it was, unless every definition of it has been taken out.
-/

set_option autoImplicit false

namespace Vani.Analysis

open Vani.Library Vani.Program.Ssa

/-- The number a surviving block had; those past the survivors get numbers of their own. -/
noncomputable def oldId (f : Function) (n : Nat) : Nat :=
  ((running f)[n]?).elim (f.blocks.length + n) BasicBlock.id

section Numbers

variable {f h : Function} {ψ : BlockId → BlockId}

theorem oldId_of {n : Nat} {b : BasicBlock} (hb : (running f)[n]? = some b) :
    oldId f n = b.id := by
  unfold oldId
  rw [hb]
  rfl

theorem oldId_none {n : Nat} (hn : (running f)[n]? = none) : oldId f n = f.blocks.length + n := by
  unfold oldId
  rw [hn]
  rfl

theorem Indexed.running_lt (hf : Indexed f) {n : Nat} {b : BasicBlock}
    (hb : (running f)[n]? = some b) : b.id < f.blocks.length :=
  (List.getElem?_eq_some_iff.mp (hf.id_eq (mem_running.mp (List.mem_of_getElem? hb)).1)).1

theorem Compacted.oldId_injective (hc : Compacted f h ψ) (hf : Indexed f) {n m : Nat}
    (heq : oldId f n = oldId f m) : n = m := by
  cases hn : (running f)[n]? with
  | none =>
    rw [oldId_none hn] at heq
    cases hm : (running f)[m]? with
    | none =>
      rw [oldId_none hm] at heq
      omega
    | some b =>
      rw [oldId_of hm] at heq
      exact absurd heq (Nat.ne_of_gt (Nat.lt_add_right n (hf.running_lt hm)))
  | some a =>
    rw [oldId_of hn] at heq
    cases hm : (running f)[m]? with
    | none =>
      rw [oldId_none hm] at heq
      exact absurd heq.symm (Nat.ne_of_gt (Nat.lt_add_right m (hf.running_lt hn)))
    | some b =>
      rw [oldId_of hm] at heq
      rw [← hc.number n a hn, ← hc.number m b hm, heq]

/-- The old number of a block that can run, from its new one. -/
theorem Compacted.oldId_number (hc : Compacted f h ψ) (hf : Indexed f) {id : BlockId}
    (hid : Reaches (followedNext f) f.entry id) : oldId f (ψ id) = id := by
  obtain ⟨b, -, hbid, hb⟩ := runs_of_reaches hf hid
  obtain ⟨n, hn, hnum, -⟩ := hc.number_lt hb
  rw [← hbid, hnum, oldId_of hn]

/-- An edge between survivors, under their new numbers, is one that was there. -/
theorem Compacted.edge_iff (hc : Compacted f h ψ) (hf : Indexed f) {n : Nat} {b : BasicBlock}
    (hb : (running f)[n]? = some b) {m : BlockId} :
    m ∈ next h.blocks n ↔ oldId f m ∈ followedNext f (oldId f n) ∧
      Reaches (followedNext f) f.entry (oldId f m) := by
  have hrun : Runs f b := mem_running.mp (List.mem_of_getElem? hb)
  have hstep : ∀ id ∈ followed b.terminator, Reaches (followedNext f) f.entry id := fun id hid =>
    hrun.2.step (by rwa [followedNext_of_mem hf hrun.1])
  rw [hc.next_eq hb, oldId_of hb, followedNext_of_mem hf hrun.1, List.mem_map]
  constructor
  · rintro ⟨id, hid, rfl⟩
    rw [hc.oldId_number hf (hstep id hid)]
    exact ⟨hid, hstep id hid⟩
  · rintro ⟨hid, hreach⟩
    refine ⟨_, hid, hc.oldId_injective hf ?_⟩
    exact hc.oldId_number hf hreach

/-- A survivor dominates another under the new numbers if it did under the old ones. -/
theorem Compacted.dominates_iff (hc : Compacted f h ψ) (hf : Indexed f) {n m : Nat} :
    Dominates (next h.blocks) h.entry n m ↔
      Dominates (followedNext f) f.entry (oldId f n) (oldId f m) := by
  have hentry : oldId f h.entry = f.entry := by
    rw [hc.entry]
    exact hc.oldId_number hf .start
  constructor
  · refine Dominates.map (fun y => hc.oldId_injective hf) hentry fun x z hx hz => ?_
    have hlt : x < (running f).length := by
      cases hx with
      | start =>
        obtain ⟨b, -, hbid, hb⟩ := runs_of_reaches hf .start
        obtain ⟨k, -, hk, hlt⟩ := hc.number_lt hb
        rwa [hc.entry, ← hbid, hk]
      | step _ hy => exact hc.target_lt hf hy
    have hb := List.getElem?_eq_getElem hlt
    have hrun : Runs f (running f)[x] := mem_running.mp (List.mem_of_getElem? hb)
    have hreach : Reaches (followedNext f) f.entry z := by
      rw [oldId_of hb] at hz
      exact hrun.2.step hz
    refine ⟨ψ z, (hc.edge_iff hf hb).mpr ?_, hc.oldId_number hf hreach⟩
    rw [hc.oldId_number hf hreach]
    exact ⟨hz, hreach⟩
  · refine Dominates.of_map (fun y => hc.oldId_injective hf) hentry fun x y hy => ?_
    cases hb : (running f)[x]? with
    | none =>
      unfold next at hy
      rw [hc.getElem?, hb] at hy
      cases hy
    | some b => exact ((hc.edge_iff hf hb).mp hy).1

end Numbers

section Left

variable {f h : Function} {ψ : BlockId → BlockId} {q : Instruction → Bool}

/-- The instructions left of the function are the live ones. -/
def LeavesLive (f : Function) (q : Instruction → Bool) : Prop :=
  ∀ b, Runs f b → ∀ i ∈ b.instructions, (q i = true ↔ Live f i)

/-- A block as it is left in the end. -/
def left (ψ : BlockId → BlockId) (q : Instruction → Bool) (n : Nat) (b : BasicBlock) :
    BasicBlock :=
  ⟨n, b.params, b.instructions.filter q, mapTargets ψ (threadTerminator b.terminator)⟩

theorem left_id (ψ : BlockId → BlockId) (q : Instruction → Bool) (n : Nat) (b : BasicBlock) :
    (left ψ q n b).id = n := rfl

theorem Compacted.getElem?_left (hc : Compacted f h ψ) (n : Nat) :
    (thin h q).blocks[n]? = ((running f)[n]?).map (left ψ q n) := by
  rw [getElem?_thin, hc.getElem?, Option.map_map]
  rfl

theorem Compacted.mem_left (hc : Compacted f h ψ) {c : BasicBlock} :
    c ∈ (thin h q).blocks ↔ ∃ n b, (running f)[n]? = some b ∧ left ψ q n b = c := by
  rw [List.mem_iff_getElem?]
  simp only [hc.getElem?_left, Option.map_eq_some_iff]

theorem runs_of_getElem? {n : Nat} {b : BasicBlock} (hb : (running f)[n]? = some b) : Runs f b :=
  mem_running.mp (List.mem_of_getElem? hb)

theorem defines_filter {params : List (ValueId × Program.Ty)} {is : List Instruction}
    {v : ValueId} (hq : ∀ i ∈ is, (q i = true ↔ Live f i)) :
    Defines (fun _ => True) params (is.filter q) v ↔ Defines (Live f) params is v := by
  unfold Defines
  refine or_congr_right (exists_congr fun i => ?_)
  rw [List.mem_filter, true_and, and_assoc]
  exact and_congr_right fun hi => and_congr_left fun _ => hq i hi

/-- A value is available in what is left if a live definition of it was. -/
theorem Compacted.available_iff (hc : Compacted f h ψ) (hwf : WellFormed f)
    (hq : LeavesLive f q) {n : Nat} {b : BasicBlock} (hb : (running f)[n]? = some b)
    {pre : List Instruction} (hpre : ∀ i ∈ pre, i ∈ b.instructions) {v : ValueId} :
    Available (next (thin h q).blocks) (fun _ => True) (thin h q) (left ψ q n b)
        (pre.filter q) v ↔
      Available (followedNext f) (Live f) f b pre v := by
  have hrun := runs_of_getElem? hb
  refine or_congr (defines_filter fun i hi => hq b hrun i (hpre i hi)) ?_
  rw [next_thin]
  constructor
  · rintro ⟨c, hcmem, hne, hdom, hdef⟩
    obtain ⟨m, a, ha, rfl⟩ := hc.mem_left.mp hcmem
    have harun := runs_of_getElem? ha
    rw [left_id, left_id] at hne
    have hdom' := (hc.dominates_iff hwf.indexed).mp hdom
    rw [left_id, left_id, oldId_of ha, oldId_of hb] at hdom'
    refine ⟨a, harun.1, fun heq => hne ?_, hdom', (defines_filter (hq a harun)).mp hdef⟩
    exact (hc.number m a ha).symm.trans ((congrArg ψ heq).trans (hc.number n b hb))
  · rintro ⟨a, hmem, hne, hdom, hdef⟩
    -- what dominates a block that can run can run
    have harun : Runs f a := ⟨hmem, hdom.reaches hrun.2⟩
    obtain ⟨m, ha, -, -⟩ := hc.number_lt harun
    refine ⟨left ψ q m a, hc.mem_left.mpr ⟨m, a, ha, rfl⟩, fun heq => hne ?_, ?_,
      (defines_filter (hq a harun)).mpr hdef⟩
    · rw [left_id, left_id] at heq
      rw [heq, hb] at ha
      rw [Option.some.inj ha]
    · refine (hc.dominates_iff hwf.indexed).mpr ?_
      rwa [left_id, left_id, oldId_of ha, oldId_of hb]

theorem filter_split {α : Type} {q : α → Bool} {l pre post : List α} {i : α} :
    l.filter q = pre ++ i :: post ↔ ∃ pre' post', l = pre' ++ i :: post' ∧ q i = true ∧
      pre'.filter q = pre ∧ post'.filter q = post := by
  constructor
  · intro h
    obtain ⟨l₁, l₂, rfl, rfl, h₂⟩ := List.filter_eq_append_iff.mp h
    obtain ⟨l₃, l₄, rfl, hnone, hi, rfl⟩ := List.filter_eq_cons_iff.mp h₂
    refine ⟨l₁ ++ l₃, l₄, by simp, hi, ?_, rfl⟩
    rw [List.filter_append, List.filter_eq_nil_iff.mpr hnone, List.append_nil]
  · rintro ⟨pre', post', rfl, hi, rfl, rfl⟩
    rw [List.filter_append, List.filter_cons_of_pos hi]

/-- What a live instruction uses is not dead. -/
theorem Live.not_dead {b : BasicBlock} (hb : Runs f b) {i : Instruction}
    (hi : i ∈ b.instructions) (hlive : Live f i) {v : ValueId} (hv : v ∈ collectUsed i.kind) :
    ¬Dead f v := fun ⟨_, safe, results⟩ => hlive ⟨safe b hb i hi hv, results b hb i hi hv⟩

/-- The definitions of a value that is not dead stay. -/
theorem Available.live {next : BlockId → List BlockId} {b : BasicBlock} {pre : List Instruction}
    {v : ValueId} (hv : ¬Dead f v) (h : Available next (fun _ => True) f b pre v) :
    Available next (Live f) f b pre v :=
  h.mono (fun _ _ hy => hy) fun _ hi _ ⟨_, hdead⟩ => hv (hi ▸ hdead)

/-- What is left of the definitions of a value. -/
theorem available_live_iff {next : BlockId → List BlockId} {b : BasicBlock}
    {pre : List Instruction} {v : ValueId} (h : Available next (fun _ => True) f b pre v) :
    Available next (Live f) f b pre v ↔
      ¬Dead f v ∨ Available next (fun d => isSafeToDrop d.kind = false) f b pre v := by
  constructor
  · intro hlive
    by_cases hv : Dead f v
    · refine Or.inr (hlive.mono (fun _ _ hy => hy) fun i hi hl => ?_)
      by_contra hsafe
      exact hl ⟨by simpa using hsafe, hi ▸ hv⟩
    · exact Or.inl hv
  · rintro (hv | hkept)
    · exact h.live hv
    · refine hkept.mono (fun _ _ hy => hy) fun i _ hsafe ⟨hdrop, _⟩ => ?_
      rw [hsafe] at hdrop
      cases hdrop

/-- Every number leads to a block, and that block takes as many values as it is passed. -/
theorem Compacted.arity (hc : Compacted f h ψ) (hwf : WellFormed f) {c : BasicBlock}
    (hcmem : c ∈ (thin h q).blocks) {e : BlockId × List Operand} (he : e ∈ edges c.terminator) :
    ∃ t : BasicBlock, (thin h q).blocks[e.1]? = some t ∧ e.2.length = t.params.length := by
  obtain ⟨n, b, hb, rfl⟩ := hc.mem_left.mp hcmem
  have hrun := runs_of_getElem? hb
  have hedges : (left ψ q n b).terminator = mapTargets ψ (threadTerminator b.terminator) := rfl
  rw [hedges, edges_mapTargets, List.mem_map] at he
  obtain ⟨e, he, rfl⟩ := he
  obtain ⟨t, ht, hlength⟩ := hwf.arity b hrun.1 e (edges_thread he)
  have htid : t.id = e.1 := hwf.ids _ _ ht
  have htrun : Runs f t := by
    refine ⟨List.mem_of_getElem? ht, hrun.2.step ?_⟩
    rw [followedNext_of_mem hwf.indexed hrun.1, followed_eq, targets_eq, htid]
    exact List.mem_map_of_mem he
  obtain ⟨m, hm, hnum, -⟩ := hc.number_lt htrun
  refine ⟨left ψ q m t, ?_, hlength⟩
  dsimp only
  rw [← htid, hnum, hc.getElem?_left, hm]
  rfl

/-- The values passed on stay available. -/
theorem Compacted.terminators (hc : Compacted f h ψ) (hwf : WellFormed f) (hq : LeavesLive f q)
    {c : BasicBlock} (hcmem : c ∈ (thin h q).blocks) {v : ValueId} (hv : v ∈ c.terminator.used) :
    Available (next (thin h q).blocks) (fun _ => True) (thin h q) c c.instructions v := by
  obtain ⟨n, b, hb, rfl⟩ := hc.mem_left.mp hcmem
  have hrun := runs_of_getElem? hb
  have hpassed : v ∈ passed b.terminator := by
    rw [passed_eq, ← used_mapTargets ψ]
    exact hv
  refine (hc.available_iff hwf hq hb fun i hi => hi).mpr (Available.live ?_ ?_)
  · exact fun ⟨ends, _, _⟩ => ends b hrun hpassed
  · refine (hwf.terminators b hrun.1 v ?_).mono (fun _ _ => followedNext_sub) fun _ _ => id
    rw [passed_eq] at hpassed
    exact used_thread hpassed

/-- The values a live instruction names stay available if nothing forgotten has been taken
out. -/
theorem Compacted.operands_iff (hc : Compacted f h ψ) (hwf : WellFormed f)
    (hq : LeavesLive f q) :
    (∀ c ∈ (thin h q).blocks, ∀ pre i post, c.instructions = pre ++ i :: post →
        ∀ v ∈ references i.kind,
          Available (next (thin h q).blocks) (fun _ => True) (thin h q) c pre v) ↔
      ∀ b, Runs f b → ∀ pre i post, b.instructions = pre ++ i :: post → Live f i →
        ∀ v ∈ forgotten i.kind, ¬Dead f v ∨
          Available (followedNext f) (fun d => isSafeToDrop d.kind = false) f b pre v := by
  have hwas : ∀ b, Runs f b → ∀ pre i post, b.instructions = pre ++ i :: post →
      ∀ v ∈ references i.kind, Available (followedNext f) (fun _ => True) f b pre v :=
    fun b hb pre i post hsplit v hv =>
      (hwf.operands b hb.1 pre i post hsplit v hv).mono (fun _ _ => followedNext_sub) fun _ _ => id
  constructor
  · intro hall b hb pre i post hsplit hlive v hv
    obtain ⟨n, hn, -, -⟩ := hc.number_lt hb
    have hi : i ∈ b.instructions := by
      rw [hsplit]
      exact List.mem_append_right pre List.mem_cons_self
    have href := mem_references.mpr (Or.inr hv)
    refine (available_live_iff (hwas b hb pre i post hsplit v href)).mp ?_
    refine (hc.available_iff hwf hq hn fun j hj => ?_).mp
      (hall _ (hc.mem_left.mpr ⟨n, b, hn, rfl⟩) (pre.filter q) i (post.filter q) ?_ v href)
    · rw [hsplit]
      exact List.mem_append_left _ hj
    · exact filter_split.mpr ⟨pre, post, hsplit, (hq b hb i hi).mpr hlive, rfl, rfl⟩
  · intro hall c hcmem pre i post hsplit v href
    obtain ⟨n, b, hn, rfl⟩ := hc.mem_left.mp hcmem
    have hb := runs_of_getElem? hn
    obtain ⟨before, after, hwhole, hqi, rfl, rfl⟩ := filter_split.mp hsplit
    have hi : i ∈ b.instructions := by
      rw [hwhole]
      exact List.mem_append_right before List.mem_cons_self
    have hlive := (hq b hb i hi).mp hqi
    have havail := hwas b hb before i after hwhole v href
    refine (hc.available_iff hwf hq hn fun j hj => ?_).mpr ?_
    · rw [hwhole]
      exact List.mem_append_left _ hj
    · rcases mem_references.mp href with hv | hv
      · exact havail.live (hlive.not_dead hb hi hv)
      · exact (available_live_iff havail).mpr (hall b hb before i after hwhole hlive v hv)

/-- A shape is right in what is left if its numbers are those of survivors. -/
theorem Compacted.shape_iff (hc : Compacted f h ψ) {shape : ParallelForShape} :
    ShapeOk (thin h q) shape ↔
      (∃ a : BasicBlock, (running f)[shape.headerBlock]? = some a ∧
        shape.counterHeaderValue ∈ a.params.map Prod.fst) ∧
      shape.bodyBlock < (running f).length ∧ shape.stepBlock < (running f).length ∧
        shape.exitBlock < (running f).length := by
  have hlength : (thin h q).blocks.length = (running f).length := by
    rw [thin, List.length_map, hc.length]
  constructor
  · rintro ⟨⟨b, hb, hmem⟩, hbody, hstep, hexit⟩
    rw [hlength] at hbody hstep hexit
    rw [hc.getElem?_left, Option.map_eq_some_iff] at hb
    obtain ⟨a, ha, rfl⟩ := hb
    exact ⟨⟨a, ha, hmem⟩, hbody, hstep, hexit⟩
  · rintro ⟨⟨a, ha, hmem⟩, hbody, hstep, hexit⟩
    rw [← hlength] at hbody hstep hexit
    refine ⟨⟨left ψ q shape.headerBlock a, ?_, hmem⟩, hbody, hstep, hexit⟩
    rw [hc.getElem?_left, ha]
    rfl

/-- What is left is well formed if nothing forgotten has been taken out. -/
theorem Compacted.wellFormed_iff (hc : Compacted f h ψ) (hwf : WellFormed f)
    (hq : LeavesLive f q) : WellFormed (thin h q) ↔ NothingForgotten f := by
  have hhint : ∀ (b : BasicBlock), Runs f b → ∀ i ∈ b.instructions, ∀ reductions shape,
      i.kind = .hint (.parallelForBegin reductions shape) → q i = true := by
    rintro b hb i hi reductions shape hkind
    refine (hq b hb i hi).mpr fun ⟨hsafe, _⟩ => ?_
    rw [hkind] at hsafe
    cases hsafe
  constructor
  · intro hleft
    have hshape : ∀ (b : BasicBlock), Runs f b → ∀ i ∈ b.instructions, ∀ reductions shape,
        i.kind = .hint (.parallelForBegin reductions shape) → ShapeOk (thin h q) shape := by
      intro b hb i hi reductions shape hkind
      obtain ⟨n, hn, -, -⟩ := hc.number_lt hb
      refine hleft.shapes _ (hc.mem_left.mpr ⟨n, b, hn, rfl⟩) i ?_ reductions shape hkind
      exact List.mem_filter.mpr ⟨hi, hhint b hb i hi reductions shape hkind⟩
    exact ⟨(hc.operands_iff hwf hq).mp hleft.operands,
      fun b hb i hi reductions shape hkind =>
        (hc.shape_iff.mp (hshape b hb i hi reductions shape hkind)).1,
      fun b hb i hi reductions shape hkind =>
        (hc.shape_iff.mp (hshape b hb i hi reductions shape hkind)).2⟩
  · intro hnone
    refine ⟨fun n c hn => ?_, ?_, fun c hcmem e he => hc.arity hwf hcmem he,
      (hc.operands_iff hwf hq).mpr hnone.values,
      fun c hcmem v hv => hc.terminators hwf hq hcmem hv, ?_⟩
    · rw [hc.getElem?_left, Option.map_eq_some_iff] at hn
      obtain ⟨b, -, rfl⟩ := hn
      rfl
    · obtain ⟨b, -, hbid, hb⟩ := runs_of_reaches hwf.indexed .start
      obtain ⟨k, -, hk, hlt⟩ := hc.number_lt hb
      have hentry : (thin h q).entry = k := by
        rw [← hk, hbid]
        exact hc.entry
      rw [hentry, thin, List.length_map, hc.length]
      exact hlt
    · intro c hcmem i hi reductions shape hkind
      obtain ⟨n, b, hn, rfl⟩ := hc.mem_left.mp hcmem
      have hib := (List.mem_filter.mp hi).1
      have hb := runs_of_getElem? hn
      exact hc.shape_iff.mpr ⟨hnone.header b hb i hib reductions shape hkind,
        hnone.blocks b hb i hib reductions shape hkind⟩

end Left

/-! ## The module -/

/-- Dead-code elimination ends on a well-formed function, and what is left is well formed
if nothing forgotten has been taken out. -/
theorem dceLoop_wellFormed {f : Function} (hwf : WellFormed f) (stats : DceStats) :
    ∃ g stats', dceLoop f.turns f stats = some (g, stats') ∧
      (WellFormed g ↔ NothingForgotten f) := by
  obtain ⟨h, ψ, p, stats', hrun, hc, honly, hset⟩ := dceLoop_ok hwf.indexed stats
  exact ⟨thin h p, stats', hrun, hc.wellFormed_iff hwf fun b hb i hi =>
    left_iff_live hc honly hset hb hi⟩

theorem dceFold_wellFormed {fs : List Function} (hwf : ∀ f ∈ fs, WellFormed f)
    (done : List Function) (stats : DceStats) :
    ∃ gs stats', fs.foldlM (fun (acc : List Function × DceStats) f => do
        let (f, stats) ← dceLoop f.turns f acc.2
        pure (acc.1 ++ [f], stats)) (done, stats) = some (done ++ gs, stats') ∧
      ((∀ g ∈ gs, WellFormed g) ↔ ∀ f ∈ fs, NothingForgotten f) := by
  induction fs generalizing done stats with
  | nil =>
    refine ⟨[], stats, ?_, fun _ _ hf => absurd hf List.not_mem_nil,
      fun _ _ hg => absurd hg List.not_mem_nil⟩
    rw [List.append_nil]
    rfl
  | cons f fs ih =>
    obtain ⟨g, stats₁, hrun, hg⟩ := dceLoop_wellFormed (hwf f List.mem_cons_self) stats
    obtain ⟨gs, stats₂, hrest, hgs⟩ :=
      ih (fun f' hf' => hwf f' (List.mem_cons_of_mem f hf')) (done ++ [g]) stats₁
    refine ⟨g :: gs, stats₂, ?_, ?_⟩
    · rw [List.append_assoc, List.singleton_append] at hrest
      rw [List.foldlM_cons, hrun]
      exact hrest
    · rw [List.forall_mem_cons, List.forall_mem_cons, hg, hgs]

/-- Dead-code elimination ends on every module of well-formed functions, and its functions are
well formed afterwards if and only if nothing forgotten has been taken out. -/
theorem dceModule_wellFormed (m : Module) (hwf : ∀ f ∈ m.functions, WellFormed f) :
    ∃ m' stats, dceModule m = some (m', stats) ∧
      ((∀ g ∈ m'.functions, WellFormed g) ↔ ∀ f ∈ m.functions, NothingForgotten f) := by
  obtain ⟨gs, stats, hrun, hgs⟩ := dceFold_wellFormed hwf [] ⟨0, 0, 0, 0⟩
  refine ⟨⟨gs⟩, stats, ?_, hgs⟩
  unfold dceModule
  rw [hrun]
  rfl

/-- `let x: i64 = 5; return peek(&x);`: a constant whose only use is a reference. -/
def borrowed : Function where
  name := "main"
  isExtern := false
  entry := 0
  blocks := [⟨0, [],
    [⟨0, .const (.int 5), .int .i64⟩,
      ⟨1, .refOf (.value 0) false, .ref (.int .i64)⟩,
      ⟨2, .call "peek" [.value 1], .int .i64⟩],
    .ret (some (.value 2))⟩]

/-- What dead-code elimination makes of it: the reference without the constant. -/
def dangling : Function where
  name := "main"
  isExtern := false
  entry := 0
  blocks := [⟨0, [],
    [⟨1, .refOf (.value 0) false, .ref (.int .i64)⟩,
      ⟨2, .call "peek" [.value 1], .int .i64⟩],
    .ret (some (.value 2))⟩]

theorem borrowed_wellFormed : WellFormed borrowed := by
  have hblock : ∀ b ∈ borrowed.blocks, b = borrowed.blocks.head (by decide) :=
    fun b hb => List.mem_singleton.mp hb
  refine ⟨fun n b hb => ?_, by decide, fun b hb e he => ?_, fun b hb pre i post hsplit v hv => ?_,
    fun b hb v hv => ?_, fun b hb i hi reductions shape hkind => ?_⟩
  · cases n with
    | zero =>
      cases hb
      rfl
    | succ n => cases hb
  · rw [hblock b hb] at he
    cases he
  · rw [hblock b hb] at hsplit ⊢
    refine Or.inl (Or.inr ?_)
    rcases pre with _ | ⟨i₁, _ | ⟨i₂, _ | ⟨i₃, pre⟩⟩⟩
    · cases hsplit
      cases hv
    · cases hsplit
      rw [List.mem_singleton.mp hv]
      exact ⟨_, List.mem_cons_self, trivial, rfl⟩
    · cases hsplit
      rw [List.mem_singleton.mp hv]
      exact ⟨_, List.mem_cons_of_mem _ List.mem_cons_self, trivial, rfl⟩
    · have hlength := congrArg List.length hsplit
      simp [borrowed] at hlength
  · rw [hblock b hb] at hv ⊢
    rw [List.mem_singleton.mp hv]
    exact Or.inl (Or.inr ⟨_, List.mem_of_getElem? (i := 2) rfl, trivial, rfl⟩)
  · rw [hblock b hb] at hi
    rcases List.mem_cons.mp hi with rfl | hi
    · cases hkind
    · rcases List.mem_cons.mp hi with rfl | hi
      · cases hkind
      · rw [List.mem_singleton.mp hi] at hkind
        cases hkind

/-- The module with this function alone. -/
theorem dceModule_wellFormed_borrowed :
    ∃ m' stats, dceModule ⟨[borrowed]⟩ = some (m', stats) ∧
      ((∀ g ∈ m'.functions, WellFormed g) ↔ ∀ f ∈ [borrowed], NothingForgotten f) :=
  dceModule_wellFormed ⟨[borrowed]⟩ fun f hf => by
    rw [List.mem_singleton.mp hf]
    exact borrowed_wellFormed

/-- After dead-code elimination the reference names a value that nothing defines. -/
theorem borrowed_refutes :
    (∀ f ∈ [borrowed], WellFormed f) ∧
      ∃ stats, dceModule ⟨[borrowed]⟩ = some (⟨[dangling]⟩, stats) ∧
        ¬∀ g ∈ [dangling], WellFormed g := by
  refine ⟨by simpa using borrowed_wellFormed, ⟨0, 0, 1, 2⟩, by rfl, fun hall => ?_⟩
  have havail := (hall dangling List.mem_cons_self).operands _ List.mem_cons_self [] _ _ rfl 0
    List.mem_cons_self
  rcases havail with (h | ⟨i, hi, -⟩) | ⟨a, ha, hne, -⟩
  · cases h
  · cases hi
  · rw [List.mem_singleton.mp ha] at hne
    exact hne rfl

end Vani.Analysis
