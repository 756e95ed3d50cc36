import Vani.Program.TaskAffine
import Vani.Model.TaskPaths
import Mathlib.Data.Nat.Basic
import Mathlib.Order.Basic

/-!
# Tasks are joined on every path

An accepted block joins every task it spawns, after the spawn and once, on the paths that
come to its end. The walk does not look at the statements between the two: a path that
leaves the block there leaves the task running. So the tasks of an accepted body are joined
on all paths exactly if no statement between a spawn and its join can leave the block. The
invariant along a path is the set of open tasks of the block, those its names stand for
that have been spawned and not joined.
-/

set_option autoImplicit false

namespace Vani.Analysis

open Vani.Program Vani.Model

/-! ## Leaving a block -/

mutual

/-- The ways a path can get out of a statement. -/
def leavesStmt : TypedStmt → Leave → Bool
  | .return_ _, x => x = .returns
  | .break_, x => x = .breaks
  | .continue_, x => x = .continues
  | .if_ _ thenBody elseBody, x => leavesBlock thenBody x || leavesBlock elseBody x
  | .while_ _ body, x | .for_ _ _ _ _ body _ _, x | .forIter _ _ _ _ _ body, x =>
    x = .falls || (x = .returns && leavesBlock body .returns)
  | _, x => x = .falls

def leavesBlock : List TypedStmt → Leave → Bool
  | [], x => x = .falls
  | s :: ss, x => (x ≠ .falls && leavesStmt s x) || (leavesStmt s .falls && leavesBlock ss x)

end

/-- A path can get from the statement to somewhere else than the next one. -/
def leavesEarly (s : TypedStmt) : Bool :=
  leavesStmt s .returns || leavesStmt s .breaks || leavesStmt s .continues

mutual

/-- A block inside the statement can be left between a spawn and its join. -/
def strandsStmt : TypedStmt → Bool
  | .if_ _ thenBody elseBody => strandsBlock [] [] thenBody || strandsBlock [] [] elseBody
  | .while_ _ body | .for_ _ _ _ _ body _ _ | .forIter _ _ _ _ _ body | .taskSpawn _ body _ =>
    strandsBlock [] [] body
  | _ => false

/-- The rest of a block, where these names have been spawned and joined, can be left while
one of the spawned tasks is not joined, or has a block inside for which this is so. -/
def strandsBlock (spawned joined : List String) : List TypedStmt → Bool
  | [] => false
  | s :: ss =>
    strandsStmt s || (!(unjoined spawned joined).isEmpty && leavesEarly s) ||
      (leavesStmt s .falls && strandsBlock (spawnedAfter spawned s) (joinedAfter joined s) ss)

end

attribute [local simp] leavesStmt leavesBlock affineStmt affineBlock strandsStmt strandsBlock

theorem leavesEarly_iff {s : TypedStmt} :
    leavesEarly s = true ↔ ∃ x, x ≠ .falls ∧ leavesStmt s x = true := by
  constructor
  · intro h
    rw [leavesEarly, Bool.or_eq_true, Bool.or_eq_true] at h
    rcases h with (h | h) | h
    · exact ⟨.returns, by decide, h⟩
    · exact ⟨.breaks, by decide, h⟩
    · exact ⟨.continues, by decide, h⟩
  · rintro ⟨x, hx, h⟩
    rw [leavesEarly, Bool.or_eq_true, Bool.or_eq_true]
    cases x with
    | falls => exact absurd rfl hx
    | returns => exact .inl (.inl h)
    | breaks => exact .inl (.inr h)
    | continues => exact .inr h

/-- The ways a path can get out of a part. -/
def leavesPart : Part → Leave → Bool
  | .stmt s, x => leavesStmt s x
  | .block ss, x => leavesBlock ss x
  | .turns body, x => x = .falls || (x = .returns && leavesBlock body .returns)

theorem leavesStmt_plain {s : TypedStmt} (h : isPlain s = true) : leavesStmt s .falls = true := by
  cases s <;> first | rfl | cases h

theorem leavesStmt_loop {s : TypedStmt} {body : List TypedStmt} (h : loopBody s = some body)
    (x : Leave) : leavesStmt s x = leavesPart (.turns body) x := by
  cases s with
  | while_ _ b | for_ _ _ _ _ b _ _ | forIter _ _ _ _ _ b =>
    cases h
    rw [leavesStmt, leavesPart]
  | _ => cases h

/-- A path gets out of a part in one of the ways found for it. -/
theorem leaves_of_path {p : Part} {t t' : TaskEnv} {es : List TaskEvent} {x : Leave}
    (h : Path p t es t' x) : leavesPart p x = true := by
  induction h with
  | plain h => exact leavesStmt_plain h
  | return_ | break_ | continue_ | spawn | join | nil | done => rfl
  | then_ _ ih =>
    rw [leavesPart, leavesStmt, Bool.or_eq_true]
    exact .inl ih
  | else_ _ ih =>
    rw [leavesPart, leavesStmt, Bool.or_eq_true]
    exact .inr ih
  | loop h _ ih => exact (leavesStmt_loop h _).trans ih
  | cons _ _ ihs ihss =>
    rw [leavesPart, leavesBlock, Bool.or_eq_true, Bool.and_eq_true, Bool.and_eq_true]
    exact .inr ⟨ihs, ihss⟩
  | leave _ hx ih =>
    rw [leavesPart, leavesBlock, Bool.or_eq_true, Bool.and_eq_true]
    exact .inl ⟨decide_eq_true hx, ih⟩
  | turn _ _ _ _ ih => exact ih
  | break_turn => rfl
  | return_turn _ ih => exact ih

/-! ## What the walk accepts -/

theorem mem_unjoined {a : String} {sp jn : List String} : a ∈ unjoined sp jn ↔ a ∈ sp ∧ a ∉ jn := by
  rw [unjoined, List.mem_filter, decide_eq_true_eq]

theorem affine_nil {sp jn : List String} (h : affineBlock sp jn [] = []) : ∀ a ∈ sp, a ∈ jn := by
  rw [affineBlock, List.map_eq_nil_iff] at h
  intro a ha
  by_contra hj
  exact List.not_mem_nil (h ▸ mem_unjoined.mpr ⟨ha, hj⟩)

theorem affine_cons {sp jn : List String} {s : TypedStmt} {ss : List TypedStmt}
    (h : affineBlock sp jn (s :: ss) = []) :
    affineStmt sp jn s = [] ∧ affineBlock (spawnedAfter sp s) (joinedAfter jn s) ss = [] := by
  rw [affineBlock] at h
  exact List.append_eq_nil_iff.mp h

theorem affine_spawn {sp jn : List String} {name : String} {body : List TypedStmt}
    {captures : List (String × Ty)} (h : affineStmt sp jn (.taskSpawn name body captures) = []) :
    name ∉ sp ∧ affineBlock [] [] body = [] := by
  rw [affineStmt, List.append_eq_nil_iff] at h
  refine ⟨fun hmem => ?_, h.2⟩
  rw [if_pos hmem] at h
  cases h.1

theorem affine_join {sp jn : List String} {name : String}
    (h : affineStmt sp jn (.taskJoin name) = []) : name ∈ sp ∧ name ∉ jn := by
  rw [affineStmt, List.append_eq_nil_iff] at h
  constructor
  · by_contra hmem
    rw [if_neg hmem] at h
    cases h.1
  · intro hmem
    rw [if_pos hmem] at h
    cases h.2

theorem affine_if {sp jn : List String} {c : TypedExpr} {th el : List TypedStmt}
    (h : affineStmt sp jn (.if_ c th el) = []) :
    affineBlock [] [] th = [] ∧ affineBlock [] [] el = [] := by
  rw [affineStmt] at h
  exact List.append_eq_nil_iff.mp h

theorem affine_loop {sp jn : List String} {s : TypedStmt} {body : List TypedStmt}
    (hb : loopBody s = some body) (h : affineStmt sp jn s = []) : affineBlock [] [] body = [] := by
  cases s with
  | while_ _ b | for_ _ _ _ _ b _ _ | forIter _ _ _ _ _ b =>
    cases hb
    rw [affineStmt] at h
    exact h
  | _ => cases hb

theorem strandsStmt_loop {s : TypedStmt} {body : List TypedStmt} (h : loopBody s = some body) :
    strandsStmt s = strandsBlock [] [] body := by
  cases s with
  | while_ _ b | for_ _ _ _ _ b _ _ | forIter _ _ _ _ _ b =>
    cases h
    rw [strandsStmt]
  | _ => cases h

/-! ## Open tasks -/

/-- Every name spawned in the block stands for a task of its own. -/
structure Tracks (t : TaskEnv) (sp jn : List String) : Prop where
  known : ∀ a ∈ sp, ∃ id, id < t.next ∧ t.lookup a = some id
  distinct : ∀ a ∈ sp, ∀ b ∈ sp, t.lookup a = t.lookup b → a = b
  spawned : ∀ a ∈ jn, a ∈ sp

theorem Tracks.nil (t : TaskEnv) : Tracks t [] [] :=
  ⟨fun _ h => (List.not_mem_nil h).elim, fun _ h => (List.not_mem_nil h).elim, fun _ h => h⟩

/-- A task that the block has spawned and not joined. -/
def IsOpen (t : TaskEnv) (sp jn : List String) (id : Nat) : Prop :=
  ∃ a ∈ sp, a ∉ jn ∧ t.lookup a = some id

theorem Tracks.lt_of_open {t : TaskEnv} {sp jn : List String} {id : Nat} (h : Tracks t sp jn)
    (ho : IsOpen t sp jn id) : id < t.next := by
  obtain ⟨a, ha, -, hid⟩ := ho
  obtain ⟨id', hlt, hid'⟩ := h.known a ha
  rw [hid] at hid'
  exact Option.some.inj hid' ▸ hlt

theorem not_open_nil {t : TaskEnv} {jn : List String} {id : Nat} : ¬ IsOpen t [] jn id :=
  fun ⟨_, h, _⟩ => List.not_mem_nil h

/-- What a path does to the tasks, where the part spawns for itself: it touches no task from
before, and joins its own unless it can leave one behind. -/
structure Inner (t t' : TaskEnv) (es : List TaskEvent) (strands : Bool) : Prop where
  handles : t'.handles = t.handles
  next_le : t.next ≤ t'.next
  old : ∀ id < t.next, eventsOf id es = []
  new : ∀ id, t'.next ≤ id → eventsOf id es = []
  own : strands = false → ∀ id, t.next ≤ id → id < t'.next → eventsOf id es = [.spawn id, .join id]

/-- What a path does to the tasks in a statement of a block. -/
structure StmtKeeps (t t' : TaskEnv) (es : List TaskEvent) (sp jn : List String)
    (s : TypedStmt) : Prop where
  tracks : Tracks t' (spawnedAfter sp s) (joinedAfter jn s)
  next_le : t.next ≤ t'.next
  old : ∀ id < t.next, ¬ IsOpen t sp jn id →
    eventsOf id es = [] ∧ ¬ IsOpen t' (spawnedAfter sp s) (joinedAfter jn s) id
  new : ∀ id, t'.next ≤ id → eventsOf id es = []
  still : ∀ id, IsOpen t sp jn id →
    (eventsOf id es = [] ∧ IsOpen t' (spawnedAfter sp s) (joinedAfter jn s) id) ∨
      (eventsOf id es = [.join id] ∧ ¬ IsOpen t' (spawnedAfter sp s) (joinedAfter jn s) id)
  own : ∀ id, t.next ≤ id → id < t'.next →
    (eventsOf id es = [.spawn id] ∧ IsOpen t' (spawnedAfter sp s) (joinedAfter jn s) id) ∨
      (¬ IsOpen t' (spawnedAfter sp s) (joinedAfter jn s) id ∧
        (strandsStmt s = false → eventsOf id es = [.spawn id, .join id]))
  passes : joinedAfter jn s = jn → ∀ id < t.next, eventsOf id es = []

/-- What a path does to the tasks in the rest of a block. -/
structure BlockKeeps (t t' : TaskEnv) (es : List TaskEvent) (sp jn : List String)
    (ss : List TypedStmt) : Prop where
  next_le : t.next ≤ t'.next
  old : ∀ id < t.next, ¬ IsOpen t sp jn id → eventsOf id es = []
  new : ∀ id, t'.next ≤ id → eventsOf id es = []
  still : strandsBlock sp jn ss = false → ∀ id, IsOpen t sp jn id → eventsOf id es = [.join id]
  own : strandsBlock sp jn ss = false → ∀ id, t.next ≤ id → id < t'.next →
    eventsOf id es = [.spawn id, .join id]

theorem Tracks.same {t t' : TaskEnv} {sp jn : List String} (h : Tracks t sp jn)
    (hh : t'.handles = t.handles) (hn : t.next ≤ t'.next) : Tracks t' sp jn := by
  have hl : ∀ a, t'.lookup a = t.lookup a := fun a => by rw [TaskEnv.lookup, TaskEnv.lookup, hh]
  refine ⟨?_, ?_, h.spawned⟩
  · intro a ha
    obtain ⟨id, hid, hla⟩ := h.known a ha
    exact ⟨id, lt_of_lt_of_le hid hn, (hl a).trans hla⟩
  · intro a ha b hb hab
    rw [hl, hl] at hab
    exact h.distinct a ha b hb hab

theorem isOpen_same {t t' : TaskEnv} {sp jn : List String} {id : Nat}
    (hh : t'.handles = t.handles) : IsOpen t' sp jn id ↔ IsOpen t sp jn id := by
  unfold IsOpen TaskEnv.lookup
  rw [hh]

/-- A block on its own, seen from the block around it. -/
theorem BlockKeeps.close {t t' : TaskEnv} {es : List TaskEvent} {ss : List TypedStmt}
    (h : BlockKeeps t t' es [] [] ss) : Inner t (t.close t') es (strandsBlock [] [] ss) :=
  ⟨rfl, h.next_le, fun id hid => h.old id hid not_open_nil, h.new, h.own⟩

/-- A statement that neither spawns nor joins leaves the open tasks of its block alone. -/
theorem Inner.stmt {t t' : TaskEnv} {es : List TaskEvent} {sp jn : List String}
    {s : TypedStmt} (h : Inner t t' es (strandsStmt s)) (ht : Tracks t sp jn)
    (hsp : spawnedAfter sp s = sp) (hjn : joinedAfter jn s = jn) :
    StmtKeeps t t' es sp jn s := by
  have hopen : ∀ id, IsOpen t' (spawnedAfter sp s) (joinedAfter jn s) id ↔ IsOpen t sp jn id := by
    intro id
    rw [hsp, hjn]
    exact isOpen_same h.handles
  refine ⟨?_, h.next_le, ?_, h.new, ?_, ?_, fun _ => h.old⟩
  · rw [hsp, hjn]
    exact ht.same h.handles h.next_le
  · exact fun id hid ho => ⟨h.old id hid, fun ho' => ho ((hopen id).mp ho')⟩
  · exact fun id ho => .inl ⟨h.old id (ht.lt_of_open ho), (hopen id).mpr ho⟩
  · intro id hid hid'
    refine .inr ⟨fun ho => ?_, fun hs => h.own hs id hid hid'⟩
    exact absurd (ht.lt_of_open ((hopen id).mp ho)) (Nat.not_lt.mpr hid)

/-- Where nothing happens, no task is touched. -/
theorem Inner.none (t : TaskEnv) (b : Bool) : Inner t t [] b :=
  ⟨rfl, le_rfl, fun _ _ => rfl, fun _ _ => rfl, fun _ _ h h' => absurd h' (Nat.not_lt.mpr h)⟩

theorem Inner.mono {t t' : TaskEnv} {es : List TaskEvent} {b b' : Bool} (h : Inner t t' es b)
    (hb : b' = false → b = false) : Inner t t' es b' :=
  ⟨h.handles, h.next_le, h.old, h.new, fun hb' => h.own (hb hb')⟩

/-- Two paths after one another. -/
theorem Inner.append {t t₁ t₂ : TaskEnv} {es es' : List TaskEvent} {b : Bool}
    (h : Inner t t₁ es b) (h' : Inner t₁ t₂ es' b) : Inner t t₂ (es ++ es') b := by
  refine ⟨h'.handles.trans h.handles, h.next_le.trans h'.next_le, ?_, ?_, ?_⟩
  · intro id hid
    rw [eventsOf_append, h.old id hid, h'.old id (lt_of_lt_of_le hid h.next_le)]
    rfl
  · intro id hid
    rw [eventsOf_append, h.new id (h'.next_le.trans hid), h'.new id hid]
    rfl
  · intro hb id hid hid'
    rw [eventsOf_append]
    rcases Nat.lt_or_ge id t₁.next with hlt | hge
    · rw [h.own hb id hid hlt, h'.old id hlt]
      rfl
    · rw [h.new id hge, h'.own hb id hge hid']
      rfl

/-! ## Spawn and join -/

theorem lookup_bind (t t' : TaskEnv) (name a : String) :
    (t.bind t' name).lookup a = if a = name then some t.next else t.lookup a := by
  unfold TaskEnv.lookup TaskEnv.bind
  by_cases h : a = name
  · rw [if_pos h, h]
    exact List.lookup_cons_self
  · rw [if_neg h, List.lookup_cons]
    simp only [beq_eq_false_iff_ne.mpr h]

/-- A spawn opens one task. -/
theorem isOpen_spawn {t : TaskEnv} (t' : TaskEnv) {sp jn : List String} {name : String}
    (ht : Tracks t sp jn) (hname : name ∉ sp) (id : Nat) :
    IsOpen (t.bind t' name) (sp.insert name) jn id ↔ id = t.next ∨ IsOpen t sp jn id := by
  constructor
  · rintro ⟨a, ha, hj, hid⟩
    rw [lookup_bind] at hid
    by_cases han : a = name
    · rw [if_pos han] at hid
      exact .inl (Option.some.inj hid).symm
    · rw [if_neg han] at hid
      exact .inr ⟨a, (List.mem_insert_iff.mp ha).resolve_left han, hj, hid⟩
  · rintro (rfl | ⟨a, ha, hj, hid⟩)
    · refine ⟨name, List.mem_insert_self, fun hj => hname (ht.spawned _ hj), ?_⟩
      rw [lookup_bind, if_pos rfl]
    · refine ⟨a, List.mem_insert_of_mem ha, hj, ?_⟩
      rw [lookup_bind, if_neg fun han : a = name => hname (han ▸ ha)]
      exact hid

theorem Tracks.spawn {t t' : TaskEnv} {sp jn : List String} {name : String}
    (ht : Tracks t sp jn) (hname : name ∉ sp) (hn : t.next < t'.next) :
    Tracks (t.bind t' name) (sp.insert name) jn := by
  have hne : ∀ a ∈ sp, a ≠ name := fun a ha han => hname (han ▸ ha)
  refine ⟨?_, ?_, fun a ha => List.mem_insert_of_mem (ht.spawned a ha)⟩
  · intro a ha
    rw [lookup_bind]
    rcases List.mem_insert_iff.mp ha with rfl | ha
    · exact ⟨t.next, hn, if_pos rfl⟩
    · obtain ⟨id, hid, hla⟩ := ht.known a ha
      exact ⟨id, hid.trans hn, (if_neg (hne a ha)).trans hla⟩
  · -- the number of the new task is not that of an earlier one
    have hfresh : ∀ a ∈ sp, t.lookup a ≠ some t.next := by
      intro a ha h
      obtain ⟨id, hid, hla⟩ := ht.known a ha
      rw [hla] at h
      exact absurd (Option.some.inj h) (Nat.ne_of_lt hid)
    intro a ha b hb hab
    rw [lookup_bind, lookup_bind] at hab
    rcases List.mem_insert_iff.mp ha with han | ha <;>
      rcases List.mem_insert_iff.mp hb with hbn | hb
    · exact han.trans hbn.symm
    · rw [if_pos han, if_neg (hne b hb)] at hab
      exact absurd hab.symm (hfresh b hb)
    · rw [if_neg (hne a ha), if_pos hbn] at hab
      exact absurd hab (hfresh a ha)
    · rw [if_neg (hne a ha), if_neg (hne b hb)] at hab
      exact ht.distinct a ha b hb hab

theorem StmtKeeps.spawn {t t' : TaskEnv} {es : List TaskEvent} {sp jn : List String}
    {name : String} {body : List TypedStmt} {captures : List (String × Ty)}
    (ht : Tracks t sp jn) (hname : name ∉ sp) (h : BlockKeeps t.start t' es [] [] body) :
    StmtKeeps t (t.bind t' name) (.spawn t.next :: es) sp jn
      (.taskSpawn name body captures) := by
  have hlt : t.next < t'.next := h.next_le
  have hopen := isOpen_spawn t' ht hname
  have hrest : ∀ id, id ≠ t.next → eventsOf id (.spawn t.next :: es) = eventsOf id es :=
    fun id hid => eventsOf_cons_ne (Ne.symm hid) es
  have hself : eventsOf t.next (.spawn t.next :: es) = .spawn t.next :: eventsOf t.next es :=
    eventsOf_cons_self rfl es
  have hold : ∀ id < t.next, eventsOf id (.spawn t.next :: es) = [] := fun id hid =>
    (hrest id hid.ne).trans (h.old id (Nat.lt_succ_of_lt hid) not_open_nil)
  refine ⟨ht.spawn hname hlt, hlt.le, ?_, ?_, ?_, ?_, fun _ => hold⟩
  · intro id hid ho
    exact ⟨hold id hid, fun ho' => ((hopen id).mp ho').elim hid.ne ho⟩
  · intro id hid
    rw [hrest id (lt_of_lt_of_le hlt hid).ne']
    exact h.new id hid
  · intro id ho
    exact .inl ⟨hold id (ht.lt_of_open ho), (hopen id).mpr (.inr ho)⟩
  · intro id hid hid'
    rcases Nat.eq_or_lt_of_le hid with rfl | hlt'
    · rw [hself, h.old _ (Nat.lt_succ_self _) not_open_nil]
      exact .inl ⟨rfl, (hopen _).mpr (.inl rfl)⟩
    · rw [hrest id hlt'.ne']
      refine .inr ⟨fun ho => ?_, fun hs => h.own hs id hlt' hid'⟩
      rcases (hopen id).mp ho with heq | ho
      · exact hlt'.ne' heq
      · exact absurd (ht.lt_of_open ho) (Nat.not_lt.mpr hid)

/-- A join closes the task it names. -/
theorem isOpen_join {t : TaskEnv} {sp jn : List String} {name : String} {task : Nat}
    (ht : Tracks t sp jn) (hname : name ∈ sp) (hl : t.lookup name = some task) (id : Nat) :
    IsOpen t sp (jn.insert name) id ↔ IsOpen t sp jn id ∧ id ≠ task := by
  constructor
  · rintro ⟨a, ha, hj, hid⟩
    refine ⟨⟨a, ha, fun h => hj (List.mem_insert_of_mem h), hid⟩, fun heq => hj ?_⟩
    rw [ht.distinct a ha name hname (by rw [hid, hl, heq])]
    exact List.mem_insert_self
  · rintro ⟨⟨a, ha, hj, hid⟩, hne⟩
    refine ⟨a, ha, fun h => ?_, hid⟩
    rcases List.mem_insert_iff.mp h with rfl | h
    · exact hne (Option.some.inj (hid.symm.trans hl))
    · exact hj h

theorem StmtKeeps.join {t : TaskEnv} {sp jn : List String} {name : String} {task : Nat}
    (ht : Tracks t sp jn) (hsp : name ∈ sp) (hjn : name ∉ jn) (hl : t.lookup name = some task) :
    StmtKeeps t t [.join task] sp jn (.taskJoin name) := by
  have hopen : ∀ id, IsOpen t sp (jn.insert name) id ↔ IsOpen t sp jn id ∧ id ≠ task :=
    isOpen_join ht hsp hl
  have hrest : ∀ id, id ≠ task → eventsOf id [.join task] = [] :=
    fun id hid => eventsOf_cons_ne (Ne.symm hid) []
  have htask : IsOpen t sp jn task := ⟨name, hsp, hjn, hl⟩
  refine ⟨⟨ht.known, ht.distinct, ?_⟩, le_rfl, ?_, ?_, ?_, ?_, ?_⟩
  · intro a ha
    rcases List.mem_insert_iff.mp ha with rfl | ha
    · exact hsp
    · exact ht.spawned a ha
  · intro id _ ho
    exact ⟨hrest id fun heq => ho (heq ▸ htask), fun ho' => ho ((hopen id).mp ho').1⟩
  · intro id hid
    exact hrest id (lt_of_lt_of_le (ht.lt_of_open htask) hid).ne'
  · intro id ho
    by_cases hid : id = task
    · subst hid
      exact .inr ⟨eventsOf_cons_self rfl [], fun ho' => ((hopen id).mp ho').2 rfl⟩
    · exact .inl ⟨hrest id hid, (hopen id).mpr ⟨ho, hid⟩⟩
  · exact fun id hid hid' => absurd hid' (Nat.not_lt.mpr hid)
  · intro hj
    have hmem : name ∈ jn.insert name := List.mem_insert_self
    exact absurd (hj ▸ hmem) hjn

/-! ## Blocks -/

theorem strands_cons {sp jn : List String} {s : TypedStmt} {ss : List TypedStmt} :
    strandsBlock sp jn (s :: ss) = false ↔
      strandsStmt s = false ∧ (unjoined sp jn = [] ∨ leavesEarly s = false) ∧
        (leavesStmt s .falls = false ∨
          strandsBlock (spawnedAfter sp s) (joinedAfter jn s) ss = false) := by
  rw [strandsBlock, Bool.or_eq_false_iff, Bool.or_eq_false_iff, Bool.and_eq_false_iff,
    Bool.and_eq_false_iff, Bool.not_eq_false', List.isEmpty_iff, and_assoc]

theorem not_open_of_unjoined {t : TaskEnv} {sp jn : List String} {id : Nat}
    (h : unjoined sp jn = []) : ¬ IsOpen t sp jn id :=
  fun ⟨_, ha, hj, _⟩ => List.not_mem_nil (h ▸ mem_unjoined.mpr ⟨ha, hj⟩)

/-- A statement that gets out of its block neither spawns nor joins there. -/
theorem after_of_leaves {s : TypedStmt} {x : Leave} (hx : x ≠ .falls)
    (h : leavesStmt s x = true) (sp jn : List String) :
    spawnedAfter sp s = sp ∧ joinedAfter jn s = jn := by
  cases s with
  | taskSpawn | taskJoin => exact absurd (of_decide_eq_true h) hx
  | _ => exact ⟨rfl, rfl⟩

theorem BlockKeeps.cons {t t₁ t₂ : TaskEnv} {es es' : List TaskEvent} {sp jn : List String}
    {s : TypedStmt} {ss : List TypedStmt} (ht : Tracks t sp jn) (h : StmtKeeps t t₁ es sp jn s)
    (h' : BlockKeeps t₁ t₂ es' (spawnedAfter sp s) (joinedAfter jn s) ss)
    (hfalls : leavesStmt s .falls = true) : BlockKeeps t t₂ (es ++ es') sp jn (s :: ss) := by
  have hrest : strandsBlock sp jn (s :: ss) = false → strandsStmt s = false ∧
      strandsBlock (spawnedAfter sp s) (joinedAfter jn s) ss = false := by
    intro hs
    obtain ⟨h1, -, h2⟩ := strands_cons.mp hs
    exact ⟨h1, h2.resolve_left (by rw [hfalls]; decide)⟩
  refine ⟨h.next_le.trans h'.next_le, ?_, ?_, ?_, ?_⟩
  · intro id hid ho
    obtain ⟨he, ho'⟩ := h.old id hid ho
    rw [eventsOf_append, he, h'.old id (lt_of_lt_of_le hid h.next_le) ho']
    rfl
  · intro id hid
    rw [eventsOf_append, h.new id (h'.next_le.trans hid), h'.new id hid]
    rfl
  · intro hs id ho
    rw [eventsOf_append]
    rcases h.still id ho with ⟨he, ho'⟩ | ⟨he, ho'⟩
    · rw [he, h'.still (hrest hs).2 id ho']
      rfl
    · rw [he, h'.old id (lt_of_lt_of_le (ht.lt_of_open ho) h.next_le) ho']
      rfl
  · intro hs id hid hid'
    rw [eventsOf_append]
    rcases Nat.lt_or_ge id t₁.next with hlt | hge
    · rcases h.own id hid hlt with ⟨he, ho⟩ | ⟨ho, he⟩
      · rw [he, h'.still (hrest hs).2 id ho]
        rfl
      · rw [he (hrest hs).1, h'.old id hlt ho]
        rfl
    · rw [h.new id hge, h'.own (hrest hs).2 id hge hid']
      rfl

/-- A path that leaves the block in a statement. -/
theorem BlockKeeps.leave {t t' : TaskEnv} {es : List TaskEvent} {sp jn : List String}
    {s : TypedStmt} {ss : List TypedStmt} {x : Leave} (h : StmtKeeps t t' es sp jn s)
    (hx : x ≠ .falls) (hl : leavesStmt s x = true) : BlockKeeps t t' es sp jn (s :: ss) := by
  obtain ⟨hsp, hjn⟩ := after_of_leaves hx hl sp jn
  have hclosed : strandsBlock sp jn (s :: ss) = false →
      strandsStmt s = false ∧ unjoined sp jn = [] := by
    intro hs
    obtain ⟨h1, h2, -⟩ := strands_cons.mp hs
    refine ⟨h1, h2.resolve_right fun he => ?_⟩
    rw [leavesEarly_iff.mpr ⟨x, hx, hl⟩] at he
    cases he
  refine ⟨h.next_le, fun id hid ho => (h.old id hid ho).1, h.new, ?_, ?_⟩
  · exact fun hs id ho => absurd ho (not_open_of_unjoined (hclosed hs).2)
  · intro hs id hid hid'
    rcases h.own id hid hid' with ⟨-, ho⟩ | ⟨-, he⟩
    · rw [hsp, hjn] at ho
      exact absurd ho (not_open_of_unjoined (hclosed hs).2)
    · exact he (hclosed hs).1

/-! ## Along a path -/

/-- What a path does to the tasks in a part that the walk accepts. -/
def PathKeeps (t t' : TaskEnv) (es : List TaskEvent) : Part → Prop
  | .stmt s => ∀ sp jn, affineStmt sp jn s = [] → Tracks t sp jn → StmtKeeps t t' es sp jn s
  | .block ss => ∀ sp jn, affineBlock sp jn ss = [] → Tracks t sp jn → BlockKeeps t t' es sp jn ss
  | .turns body => affineBlock [] [] body = [] → Inner t t' es (strandsBlock [] [] body)

theorem after_plain {s : TypedStmt} (h : isPlain s = true) (sp jn : List String) :
    spawnedAfter sp s = sp ∧ joinedAfter jn s = jn := by
  cases s with
  | taskSpawn | taskJoin => cases h
  | _ => exact ⟨rfl, rfl⟩

theorem after_loop {s : TypedStmt} {body : List TypedStmt} (h : loopBody s = some body)
    (sp jn : List String) : spawnedAfter sp s = sp ∧ joinedAfter jn s = jn := by
  cases s with
  | taskSpawn | taskJoin => cases h
  | _ => exact ⟨rfl, rfl⟩

theorem path_keeps {p : Part} {t t' : TaskEnv} {es : List TaskEvent} {x : Leave}
    (h : Path p t es t' x) : PathKeeps t t' es p := by
  induction h with
  | plain h =>
    intro sp jn _ ht
    exact (Inner.none _ _).stmt ht (after_plain h sp jn).1 (after_plain h sp jn).2
  | return_ | break_ | continue_ =>
    intro sp jn _ ht
    exact (Inner.none _ _).stmt ht rfl rfl
  | spawn _ ih =>
    intro sp jn ha ht
    obtain ⟨hname, hbody⟩ := affine_spawn ha
    exact .spawn ht hname (ih [] [] hbody (.nil _))
  | join h =>
    intro sp jn ha ht
    exact .join ht (affine_join ha).1 (affine_join ha).2 h
  | then_ _ ih =>
    intro sp jn ha ht
    refine ((ih [] [] (affine_if ha).1 (.nil _)).close.mono fun hs => ?_).stmt ht rfl rfl
    rw [strandsStmt] at hs
    exact (Bool.or_eq_false_iff.mp hs).1
  | else_ _ ih =>
    intro sp jn ha ht
    refine ((ih [] [] (affine_if ha).2 (.nil _)).close.mono fun hs => ?_).stmt ht rfl rfl
    rw [strandsStmt] at hs
    exact (Bool.or_eq_false_iff.mp hs).2
  | loop h _ ih =>
    intro sp jn ha ht
    have hin := ih (affine_loop h ha)
    rw [← strandsStmt_loop h] at hin
    exact hin.stmt ht (after_loop h sp jn).1 (after_loop h sp jn).2
  | nil =>
    intro sp jn ha _
    refine ⟨le_rfl, fun _ _ _ => rfl, fun _ _ => rfl, ?_, ?_⟩
    · rintro - id ⟨a, hsp, hjn, -⟩
      exact absurd (affine_nil ha a hsp) hjn
    · exact fun _ id hid hid' => absurd hid' (Nat.not_lt.mpr hid)
  | cons hs _ ihs ihss =>
    intro sp jn ha ht
    have hkeep := ihs sp jn (affine_cons ha).1 ht
    exact .cons ht hkeep (ihss _ _ (affine_cons ha).2 hkeep.tracks) (leaves_of_path hs)
  | leave hs hx ih =>
    intro sp jn ha ht
    exact .leave (ih sp jn (affine_cons ha).1 ht) hx (leaves_of_path hs)
  | done => exact fun _ => .none _ _
  | turn _ _ _ ihb iht =>
    intro ha
    exact (ihb [] [] ha (.nil _)).close.append (iht ha)
  | break_turn _ ih | return_turn _ ih =>
    intro ha
    exact (ih [] [] ha (.nil _)).close

/-- The paths through an accepted body that strands no task join every task they spawn. -/
theorem affine_of_not_strands {body : List TypedStmt} {t t' : TaskEnv} {es : List TaskEvent}
    {x : Leave} (ha : verifyTaskAffine body = []) (hs : strandsBlock [] [] body = false)
    (h : Path (.block body) t es t' x) (hn : t.next = 0) : TaskAffine es := by
  have hkeep := path_keeps h [] [] ha (.nil t)
  intro id hid
  refine hkeep.own hs id (hn ▸ Nat.zero_le id) (Nat.lt_of_not_le fun hle => ?_)
  have hmem : TaskEvent.spawn id ∈ eventsOf id es :=
    List.mem_filter.mpr ⟨hid, decide_eq_true rfl⟩
  rw [hkeep.new id hle] at hmem
  exact List.not_mem_nil hmem

/-! ## Tasks left behind -/

mutual

/-- Every statement can be got out of in some way. -/
theorem leaves_stmt : ∀ s : TypedStmt, ∃ x, leavesStmt s x = true
  | .return_ _ => ⟨.returns, rfl⟩
  | .break_ => ⟨.breaks, rfl⟩
  | .continue_ => ⟨.continues, rfl⟩
  | .if_ c th el => by
    obtain ⟨x, hx⟩ := leaves_block th
    refine ⟨x, ?_⟩
    rw [leavesStmt, hx]
    rfl
  | .while_ .. | .for_ .. | .forIter .. => ⟨.falls, rfl⟩
  | .let_ .. | .reassign .. | .drop .. | .discard _ | .assert .. | .prove _ | .print _
  | .indexAssign .. | .fieldAssign .. | .taskSpawn .. | .taskJoin _ => ⟨.falls, rfl⟩

theorem leaves_block : ∀ ss : List TypedStmt, ∃ x, leavesBlock ss x = true
  | [] => ⟨.falls, rfl⟩
  | s :: ss => by
    obtain ⟨x, hx⟩ := leaves_stmt s
    obtain ⟨y, hy⟩ := leaves_block ss
    by_cases hf : x = .falls
    · refine ⟨y, ?_⟩
      rw [leavesBlock, ← hf, hx, hy, Bool.and_true, Bool.or_true]
    · refine ⟨x, ?_⟩
      rw [leavesBlock, hx, decide_eq_true hf]
      rfl

end

/-- One turn of a loop and no more. -/
theorem path_turns {body : List TypedStmt} {t t' : TaskEnv} {es : List TaskEvent} {x : Leave}
    (h : Path (.block body) t es t' x) : ∃ y, Path (.turns body) t es (t.close t') y := by
  have hgo : x = .falls ∨ x = .continues → Path (.turns body) t (es ++ []) (t.close t') .falls :=
    fun hx => .turn h hx .done
  rw [List.append_nil] at hgo
  cases x with
  | falls => exact ⟨_, hgo (.inl rfl)⟩
  | continues => exact ⟨_, hgo (.inr rfl)⟩
  | returns => exact ⟨_, .return_turn h⟩
  | breaks => exact ⟨_, .break_turn h⟩

mutual

/-- A path for every way out of an accepted statement. -/
theorem path_stmt {sp jn : List String} {t : TaskEnv} {x : Leave} :
    ∀ s : TypedStmt, affineStmt sp jn s = [] → Tracks t sp jn → leavesStmt s x = true →
      ∃ es t', Path (.stmt s) t es t' x
  | .return_ _, _, _, hx => by
    cases of_decide_eq_true hx
    exact ⟨_, _, .return_⟩
  | .break_, _, _, hx => by
    cases of_decide_eq_true hx
    exact ⟨_, _, .break_⟩
  | .continue_, _, _, hx => by
    cases of_decide_eq_true hx
    exact ⟨_, _, .continue_⟩
  | .if_ c th el, ha, _, hx => by
    rw [leavesStmt, Bool.or_eq_true] at hx
    rcases hx with hx | hx
    · obtain ⟨es, t', h⟩ := path_block th (affine_if ha).1 (.nil t) hx
      exact ⟨_, _, .then_ h⟩
    · obtain ⟨es, t', h⟩ := path_block el (affine_if ha).2 (.nil t) hx
      exact ⟨_, _, .else_ h⟩
  | .while_ _ body, ha, _, hx | .for_ _ _ _ _ body _ _, ha, _, hx
  | .forIter _ _ _ _ _ body, ha, _, hx => by
    rw [leavesStmt, Bool.or_eq_true, Bool.and_eq_true] at hx
    rcases hx with hx | ⟨hx, hb⟩
    · cases of_decide_eq_true hx
      exact ⟨_, _, .loop rfl .done⟩
    · cases of_decide_eq_true hx
      obtain ⟨es, t', h⟩ := path_block body (affine_loop rfl ha) (.nil t) hb
      exact ⟨_, _, .loop rfl (.return_turn h)⟩
  | .taskSpawn name body captures, ha, _, hx => by
    cases of_decide_eq_true hx
    obtain ⟨y, hy⟩ := leaves_block body
    obtain ⟨es, t', h⟩ := path_block body (affine_spawn ha).2 (.nil t.start) hy
    exact ⟨_, _, .spawn h⟩
  | .taskJoin name, ha, ht, hx => by
    cases of_decide_eq_true hx
    obtain ⟨id, -, hid⟩ := ht.known name (affine_join ha).1
    exact ⟨_, _, .join hid⟩
  | .let_ .., _, _, hx | .reassign .., _, _, hx | .drop .., _, _, hx | .discard _, _, _, hx
  | .assert .., _, _, hx | .prove _, _, _, hx | .print _, _, _, hx
  | .indexAssign .., _, _, hx | .fieldAssign .., _, _, hx => by
    cases of_decide_eq_true hx
    exact ⟨_, _, .plain rfl⟩

theorem path_block {sp jn : List String} {t : TaskEnv} {x : Leave} :
    ∀ ss : List TypedStmt, affineBlock sp jn ss = [] → Tracks t sp jn →
      leavesBlock ss x = true → ∃ es t', Path (.block ss) t es t' x
  | [], _, _, hx => by
    cases of_decide_eq_true hx
    exact ⟨_, _, .nil⟩
  | s :: ss, ha, ht, hx => by
    rw [leavesBlock, Bool.or_eq_true, Bool.and_eq_true, Bool.and_eq_true] at hx
    rcases hx with ⟨hne, hs⟩ | ⟨hs, hss⟩
    · obtain ⟨es, t', h⟩ := path_stmt s (affine_cons ha).1 ht hs
      exact ⟨_, _, .leave h (of_decide_eq_true hne)⟩
    · obtain ⟨es, t₁, h⟩ := path_stmt s (affine_cons ha).1 ht hs
      have hkeep := path_keeps h sp jn (affine_cons ha).1 ht
      obtain ⟨es', t₂, h'⟩ := path_block ss (affine_cons ha).2 hkeep.tracks hss
      exact ⟨_, _, .cons h h'⟩

end

/-- A path along which a task is spawned and not joined. -/
structure Stranded (p : Part) (t t' : TaskEnv) (es : List TaskEvent) (x : Leave) (id : Nat) :
    Prop where
  path : Path p t es t' x
  not_joined : .join id ∉ es
  next_le : t.next ≤ id
  lt_next : id < t'.next
  spawned : .spawn id ∈ es

/-- A path through the rest of a block that leaves a task behind, of its own or open before. -/
def StrandedRest (ss : List TypedStmt) (t : TaskEnv) (sp jn : List String) : Prop :=
  (∃ t' es x id, Stranded (.block ss) t t' es x id) ∨
    ∃ t' es x id, Path (.block ss) t es t' x ∧ .join id ∉ es ∧ IsOpen t sp jn id

theorem not_joined_of_nil {id : Nat} {es : List TaskEvent} (h : eventsOf id es = []) :
    .join id ∉ es := by
  intro hmem
  have hj : TaskEvent.join id ∈ eventsOf id es := List.mem_filter.mpr ⟨hmem, decide_eq_true rfl⟩
  rw [h] at hj
  exact List.not_mem_nil hj

theorem StrandedRest.inner {ss : List TypedStmt} {t : TaskEnv} (h : StrandedRest ss t [] []) :
    ∃ t' es x id, Stranded (.block ss) t t' es x id :=
  h.resolve_right fun ⟨_, _, _, _, _, _, ho⟩ => not_open_nil ho

/-- A path that passes a statement where a task is left behind and goes on. -/
theorem stranded_before {sp jn : List String} {s : TypedStmt} {ss : List TypedStmt}
    {t t₁ : TaskEnv} {es : List TaskEvent} {x : Leave} {id : Nat}
    (ha : affineBlock sp jn (s :: ss) = []) (ht : Tracks t sp jn)
    (h : Stranded (.stmt s) t t₁ es x id) (ho : ¬ IsOpen t₁ (spawnedAfter sp s)
      (joinedAfter jn s) id) : ∃ t' es x id, Stranded (.block (s :: ss)) t t' es x id := by
  by_cases hx : x = .falls
  · subst hx
    have hkeep := path_keeps h.path sp jn (affine_cons ha).1 ht
    obtain ⟨y, hy⟩ := leaves_block ss
    obtain ⟨es', t₂, hrest⟩ := path_block ss (affine_cons ha).2 hkeep.tracks hy
    have hrk := path_keeps hrest _ _ (affine_cons ha).2 hkeep.tracks
    refine ⟨t₂, es ++ es', y, id, .cons h.path hrest, ?_, h.next_le,
      lt_of_lt_of_le h.lt_next hrk.next_le, List.mem_append_left _ h.spawned⟩
    rw [List.mem_append, not_or]
    exact ⟨h.not_joined, not_joined_of_nil (hrk.old id h.lt_next ho)⟩
  · exact ⟨t₁, es, x, id, .leave h.path hx, h.not_joined, h.next_le, h.lt_next, h.spawned⟩

/-- A path that passes a statement and leaves a task behind in the rest. -/
theorem stranded_after {sp jn : List String} {s : TypedStmt} {ss : List TypedStmt}
    {t t₁ : TaskEnv} {es : List TaskEvent} (ha : affineBlock sp jn (s :: ss) = [])
    (ht : Tracks t sp jn) (hs : Path (.stmt s) t es t₁ .falls)
    (h : StrandedRest ss t₁ (spawnedAfter sp s) (joinedAfter jn s)) :
    StrandedRest (s :: ss) t sp jn := by
  have hkeep := path_keeps hs sp jn (affine_cons ha).1 ht
  rcases h with ⟨t₂, es', x, id, h⟩ | ⟨t₂, es', x, id, hpath, hj, ho⟩
  · refine .inl ⟨t₂, es ++ es', x, id, .cons hs h.path, ?_, hkeep.next_le.trans h.next_le,
      h.lt_next, List.mem_append_right _ h.spawned⟩
    rw [List.mem_append, not_or]
    exact ⟨not_joined_of_nil (hkeep.new id h.next_le), h.not_joined⟩
  · have hlt : id < t₁.next := hkeep.tracks.lt_of_open ho
    by_cases hbefore : IsOpen t sp jn id
    · refine .inr ⟨t₂, es ++ es', x, id, .cons hs hpath, ?_, hbefore⟩
      rw [List.mem_append, not_or]
      rcases hkeep.still id hbefore with ⟨he, -⟩ | ⟨-, hno⟩
      · exact ⟨not_joined_of_nil he, hj⟩
      · exact absurd ho hno
    · have hge : t.next ≤ id :=
        Nat.not_lt.mp fun hid => (hkeep.old id hid hbefore).2 ho
      have he : eventsOf id es = [.spawn id] :=
        (hkeep.own id hge hlt).elim And.left fun h => absurd ho h.1
      have hself : ∀ e ∈ es, e.task = id → e = .spawn id := by
        intro e hmem hid
        have hin : e ∈ eventsOf id es := List.mem_filter.mpr ⟨hmem, decide_eq_true hid⟩
        rw [he] at hin
        exact List.mem_singleton.mp hin
      have hspawned : TaskEvent.spawn id ∈ eventsOf id es := he ▸ List.mem_singleton_self _
      refine .inl ⟨t₂, es ++ es', x, id, .cons hs hpath, ?_, hge, ?_, ?_⟩
      · rw [List.mem_append, not_or]
        exact ⟨fun hmem => (nomatch hself _ hmem rfl), hj⟩
      · have hrk := path_keeps hpath _ _ (affine_cons ha).2 hkeep.tracks
        exact lt_of_lt_of_le hlt hrk.next_le
      · exact List.mem_append_left _ (List.mem_of_mem_filter hspawned)

mutual

/-- Where a statement can strand a task, a path does. -/
theorem stranded_stmt {sp jn : List String} {t : TaskEnv} :
    ∀ s : TypedStmt, affineStmt sp jn s = [] → Tracks t sp jn → strandsStmt s = true →
      ∃ t' es x id, Stranded (.stmt s) t t' es x id ∧
        ¬ IsOpen t' (spawnedAfter sp s) (joinedAfter jn s) id
  | .if_ c th el, ha, ht, hs => by
    rw [strandsStmt, Bool.or_eq_true] at hs
    rcases hs with hs | hs
    · obtain ⟨t', es, x, id, h⟩ := (stranded_block th (affine_if ha).1 (.nil t) hs).inner
      exact ⟨_, _, _, id, ⟨.then_ h.path, h.not_joined, h.next_le, h.lt_next, h.spawned⟩,
        fun ho => Nat.not_lt.mpr h.next_le (ht.lt_of_open ho)⟩
    · obtain ⟨t', es, x, id, h⟩ := (stranded_block el (affine_if ha).2 (.nil t) hs).inner
      exact ⟨_, _, _, id, ⟨.else_ h.path, h.not_joined, h.next_le, h.lt_next, h.spawned⟩,
        fun ho => Nat.not_lt.mpr h.next_le (ht.lt_of_open ho)⟩
  | .while_ _ body, ha, ht, hs | .for_ _ _ _ _ body _ _, ha, ht, hs
  | .forIter _ _ _ _ _ body, ha, ht, hs => by
    rw [strandsStmt] at hs
    obtain ⟨t', es, x, id, h⟩ := (stranded_block body (affine_loop rfl ha) (.nil t) hs).inner
    obtain ⟨y, hturns⟩ := path_turns h.path
    exact ⟨_, _, _, id, ⟨.loop rfl hturns, h.not_joined, h.next_le, h.lt_next, h.spawned⟩,
      fun ho => Nat.not_lt.mpr h.next_le (ht.lt_of_open ho)⟩
  | .taskSpawn name body captures, ha, ht, hs => by
    rw [strandsStmt] at hs
    obtain ⟨hname, hbody⟩ := affine_spawn ha
    obtain ⟨t', es, x, id, h⟩ := (stranded_block body hbody (.nil t.start) hs).inner
    have hlt : t.next < id := h.next_le
    refine ⟨_, _, _, id, ⟨.spawn h.path, ?_, hlt.le, h.lt_next,
      List.mem_cons_of_mem _ h.spawned⟩, fun ho => ?_⟩
    · exact fun hmem => h.not_joined ((List.mem_cons.mp hmem).resolve_left nofun)
    · rcases (isOpen_spawn _ ht hname id).mp ho with heq | ho
      · exact hlt.ne' heq
      · exact Nat.not_lt.mpr hlt.le (ht.lt_of_open ho)
  | .let_ .., _, _, hs | .reassign .., _, _, hs | .drop .., _, _, hs | .discard _, _, _, hs
  | .assert .., _, _, hs | .prove _, _, _, hs | .print _, _, _, hs | .return_ _, _, _, hs
  | .indexAssign .., _, _, hs | .fieldAssign .., _, _, hs | .break_, _, _, hs
  | .continue_, _, _, hs | .taskJoin _, _, _, hs => by
    cases hs

theorem stranded_block {sp jn : List String} {t : TaskEnv} :
    ∀ ss : List TypedStmt, affineBlock sp jn ss = [] → Tracks t sp jn →
      strandsBlock sp jn ss = true → StrandedRest ss t sp jn
  | [], _, _, hs => by cases hs
  | s :: ss, ha, ht, hs => by
    rw [strandsBlock, Bool.or_eq_true, Bool.or_eq_true, Bool.and_eq_true, Bool.and_eq_true] at hs
    rcases hs with (hs | ⟨hopen, hearly⟩) | ⟨hfalls, hrest⟩
    · obtain ⟨t', es, x, id, h, ho⟩ := stranded_stmt s (affine_cons ha).1 ht hs
      exact .inl (stranded_before ha ht h ho)
    · -- an open task, and a way out of the block
      obtain ⟨x, hx, hl⟩ := leavesEarly_iff.mp hearly
      obtain ⟨es, t', h⟩ := path_stmt s (affine_cons ha).1 ht hl
      obtain ⟨a, ha'⟩ : ∃ a, a ∈ unjoined sp jn := by
        cases hu : unjoined sp jn with
        | nil => rw [hu] at hopen; cases hopen
        | cons a _ => exact ⟨a, List.mem_cons_self⟩
      obtain ⟨id, hid, hla⟩ := ht.known a (mem_unjoined.mp ha').1
      have hkeep := path_keeps h sp jn (affine_cons ha).1 ht
      refine .inr ⟨t', es, x, id, .leave h hx, ?_, a, (mem_unjoined.mp ha').1,
        (mem_unjoined.mp ha').2, hla⟩
      exact not_joined_of_nil (hkeep.passes (after_of_leaves hx hl sp jn).2 id hid)
    · obtain ⟨es, t₁, h⟩ := path_stmt s (affine_cons ha).1 ht hfalls
      have hkeep := path_keeps h sp jn (affine_cons ha).1 ht
      exact stranded_after ha ht h
        (stranded_block ss (affine_cons ha).2 hkeep.tracks hrest)

end

/-! ## Task affinity -/

/-- The names in scope and the numbers of the tasks where a function starts. -/
def noTasks : TaskEnv := ⟨[], 0⟩

/-- In an accepted body every path joins every task it spawns, exactly once and after the
spawn, if and only if no statement between a spawn and its join can leave the block. -/
theorem task_affine_iff (body : List TypedStmt) (h : verifyTaskAffine body = []) :
    (∀ es t x, Path (.block body) noTasks es t x → TaskAffine es) ↔
      strandsBlock [] [] body = false := by
  constructor
  · intro haff
    rw [Bool.eq_false_iff]
    intro hs
    obtain ⟨t, es, x, id, hst⟩ := (stranded_block body h (.nil noTasks) hs).inner
    have hev := haff es t x hst.path id hst.spawned
    have hj : TaskEvent.join id ∈ eventsOf id es := by
      rw [hev]
      exact List.mem_cons_of_mem _ (List.mem_singleton_self _)
    exact hst.not_joined (List.mem_of_mem_filter hj)
  · exact fun hs es t x hpath => affine_of_not_strands h hs hpath rfl

/-- `task t {} join t; if c { return 1; } return 0;` -/
def returnAfterJoin : List TypedStmt :=
  [.taskSpawn "t" [] [], .taskJoin "t", .if_ ⟨.var "c", .bool⟩ [.return_ ⟨.int 1, .int .i64⟩] [],
    .return_ ⟨.int 0, .int .i64⟩]

/-- A task is joined before the statement that may leave the function. -/
theorem task_affine_joined_first :
    verifyTaskAffine returnAfterJoin = [] ∧
      ∀ es t x, Path (.block returnAfterJoin) noTasks es t x → TaskAffine es :=
  ⟨rfl, (task_affine_iff returnAfterJoin rfl).mpr rfl⟩

/-- `task t {} if c { return 1; } join t; return 0;` -/
def returnBeforeJoin : List TypedStmt :=
  [.taskSpawn "t" [] [], .if_ ⟨.var "c", .bool⟩ [.return_ ⟨.int 1, .int .i64⟩] [],
    .taskJoin "t", .return_ ⟨.int 0, .int .i64⟩]

/-- The body is accepted, and the path through its first `return` leaves the task running. -/
theorem task_left_running :
    verifyTaskAffine returnBeforeJoin = [] ∧
      ∃ es t, Path (.block returnBeforeJoin) noTasks es t .returns ∧ ¬ TaskAffine es := by
  have hpath : Path (.block returnBeforeJoin) noTasks ([.spawn 0] ++ [])
      ⟨[("t", 0)], 1⟩ .returns :=
    .cons (.spawn .nil) (.leave (.then_ (.leave .return_ nofun)) nofun)
  refine ⟨rfl, _, _, hpath, fun haff => ?_⟩
  exact absurd (haff 0 List.mem_cons_self) (by decide)

end Vani.Analysis
