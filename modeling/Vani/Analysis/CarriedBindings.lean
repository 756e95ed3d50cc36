import Vani.Program.Ssa
import Vani.Model.Assignments

/-!
# The bindings a loop carries

The walk over a loop's body is a scan of the `let`s and assignments in the order of the text,
whatever blocks they stand in: it collects a name exactly if the first of them that is about
the name assigns it. So a `let` in a block that has ended hides the later assignments to the
outer binding of its name, and the loop does not carry it. An assignment inside of an
expression is not seen at all.
-/

set_option autoImplicit false

namespace Vani.Analysis

open Vani.Program Vani.Model

variable {x : String} {ms ms' : List BindingEvent} {m : Modified}

/-! ## The walk as a scan -/

/-- One step of the scan. -/
def scanStep (m : Modified) : BindingEvent → Modified
  | .declares name => { m with inner := m.inner.insert name }
  | .assigns name => m.assign name

mutual

theorem walkModified_eq (m : Modified) :
    ∀ s, walkModified s m = (stmtMentions s).foldl scanStep m
  | .let_ _ _ _ | .reassign _ _ _ _ | .indexAssign _ _ _ _ _ _ => rfl
  | .if_ _ th el => by
    rw [walkModified, stmtMentions, List.foldl_append, walkModifiedAll_eq m th,
      walkModifiedAll_eq _ el]
  | .while_ _ body | .for_ _ _ _ _ body _ _ | .forIter _ _ _ _ _ body | .taskSpawn _ body _ => by
    rw [walkModified, stmtMentions, walkModifiedAll_eq m body]
  | .drop _ _ _ | .discard _ | .return_ _ | .assert _ _ | .prove _ | .print _ | .break_
  | .continue_ | .fieldAssign _ _ _ _ | .taskJoin _ => rfl

/-- The walk is a scan of the mentions. -/
theorem walkModifiedAll_eq (m : Modified) :
    ∀ ss, walkModifiedAll ss m = (stmtsMentions ss).foldl scanStep m
  | [] => rfl
  | s :: ss => by
    rw [walkModifiedAll, stmtsMentions, List.foldl_append, walkModified_eq m s,
      walkModifiedAll_eq _ ss]

end

theorem firstAssigned_cons_ne {a : BindingEvent} (h : a.name ≠ x) :
    FirstAssigned x (a :: ms) ↔ FirstAssigned x ms := by
  unfold FirstAssigned
  rw [List.filter_cons_of_neg (by simpa using h)]

theorem firstAssigned_cons_eq {a : BindingEvent} (h : a.name = x) :
    FirstAssigned x (a :: ms) ↔ a = .assigns x := by
  unfold FirstAssigned
  rw [List.filter_cons_of_pos (by simpa using h), List.head?_cons, Option.some_inj]

/-- The scan collects the names whose first mention is an assignment. -/
theorem mem_scan_out : ∀ {ms m}, x ∈ (ms.foldl scanStep m).out ↔
    x ∈ m.out ∨ x ∉ m.inner ∧ FirstAssigned x ms
  | [], m => by simp [FirstAssigned]
  | .declares name :: ms, m => by
    rw [List.foldl_cons, mem_scan_out]
    by_cases hname : name = x
    · subst hname
      rw [firstAssigned_cons_eq (show (BindingEvent.declares name).name = name from rfl)]
      simp [scanStep]
    · rw [firstAssigned_cons_ne (show (BindingEvent.declares name).name ≠ x from hname)]
      simp [scanStep, Ne.symm hname]
  | .assigns name :: ms, m => by
    rw [List.foldl_cons, mem_scan_out]
    by_cases hname : name = x
    · subst hname
      rw [firstAssigned_cons_eq (show (BindingEvent.assigns name).name = name from rfl)]
      by_cases hinner : name ∈ m.inner
      · simp [scanStep, Modified.assign, hinner]
      · simp [scanStep, Modified.assign, hinner]
    · rw [firstAssigned_cons_ne (show (BindingEvent.assigns name).name ≠ x from hname)]
      by_cases hinner : name ∈ m.inner
      · simp [scanStep, Modified.assign, hinner]
      · simp [scanStep, Modified.assign, hinner, Ne.symm hname]

/-- The walk collects the names that the body assigns before it declares them. -/
theorem mem_modifiedInBody {body : List TypedStmt} :
    x ∈ modifiedInBody body ↔ AssignedFirst x body := by
  unfold modifiedInBody AssignedFirst
  rw [walkModifiedAll_eq, mem_scan_out]
  simp

/-! ## Assignments that are not late -/

theorem firstAssigned_append_right (h : FirstAssigned x ms') (hdecl : .declares x ∉ ms) :
    FirstAssigned x (ms ++ ms') := by
  induction ms with
  | nil => exact h
  | cons a ms ih =>
    rw [List.mem_cons, not_or] at hdecl
    rw [List.cons_append]
    by_cases hname : a.name = x
    · rw [firstAssigned_cons_eq hname]
      cases a with
      | declares n =>
        cases hname
        exact absurd rfl hdecl.1
      | assigns n =>
        cases hname
        rfl
    · rw [firstAssigned_cons_ne hname]
      exact ih hdecl.2

theorem firstAssigned_append_left (h : FirstAssigned x ms) : FirstAssigned x (ms ++ ms') := by
  unfold FirstAssigned at h ⊢
  rw [List.filter_append, List.head?_append, h]
  rfl

/-- An assignment is late, or its name has not been declared before and is assigned first. -/
def LateOrFirst (x : String) (before ms : List BindingEvent) (late : List String) : Prop :=
  x ∈ late ∨ .declares x ∉ before ∧ FirstAssigned x ms

theorem LateOrFirst.mono {before : List BindingEvent} {late late' : List String}
    (h : LateOrFirst x before ms late) (hlate : x ∈ late → x ∈ late') :
    LateOrFirst x before ms late' := h.imp_left hlate

/-- What comes after some mentions. -/
theorem LateOrFirst.after {before : List BindingEvent} {late : List String}
    (h : LateOrFirst x (before ++ ms) ms' late) : LateOrFirst x before (ms ++ ms') late := by
  refine h.imp_right fun ⟨hdecl, hfirst⟩ => ?_
  rw [List.mem_append, not_or] at hdecl
  exact ⟨hdecl.1, firstAssigned_append_right hfirst hdecl.2⟩

theorem LateOrFirst.before {before : List BindingEvent} {late : List String}
    (h : LateOrFirst x before ms late) : LateOrFirst x before (ms ++ ms') late :=
  h.imp_right fun ⟨hdecl, hfirst⟩ => ⟨hdecl, firstAssigned_append_left hfirst⟩

theorem lateOrFirst_target {before : List BindingEvent} :
    LateOrFirst x before [.assigns x] (if .declares x ∈ before then [x] else []) := by
  by_cases hdecl : .declares x ∈ before
  · rw [if_pos hdecl]
    exact .inl (List.mem_singleton_self x)
  · exact .inr ⟨hdecl, (firstAssigned_cons_eq rfl).mpr rfl⟩

theorem eq_of_mem_target {before : List BindingEvent} {name : String}
    (h : x ∈ if .declares name ∈ before then [name] else []) : x ∈ [name] := by
  split at h
  · exact h
  · cases h

mutual

theorem late_of_stmtAssigns (before : List BindingEvent) : ∀ s, x ∈ stmtAssigns s →
    LateOrFirst x before (stmtMentions s) (stmtLate before s)
  | .let_ _ _ _, h | .discard _, h | .return_ _, h | .assert _ _, h | .prove _, h
  | .print _, h | .fieldAssign _ _ _ _, h => .inl h
  | .reassign name _ e _, h => by
    rw [stmtAssigns, List.mem_append, List.mem_singleton] at h
    rw [stmtMentions, stmtLate]
    rcases h with h | rfl
    · exact .inl (List.mem_append_left _ h)
    · exact lateOrFirst_target.mono (List.mem_append_right _)
  | .indexAssign name _ index _ value _, h => by
    rw [stmtAssigns, List.mem_append, List.mem_singleton] at h
    rw [stmtMentions, stmtLate]
    rcases h with h | rfl
    · exact .inl (List.mem_append_left _ h)
    · exact lateOrFirst_target.mono (List.mem_append_right _)
  | .if_ c th el, h => by
    rw [stmtAssigns, List.mem_append, List.mem_append] at h
    rw [stmtMentions, stmtLate]
    rcases h with h | h | h
    · exact .inl (List.mem_append_left _ h)
    · refine (late_of_stmtsAssigns before th h).before.mono fun hlate => ?_
      exact List.mem_append_right _ (List.mem_append_left _ hlate)
    · refine (late_of_stmtsAssigns (before ++ stmtsMentions th) el h).after.mono fun hlate => ?_
      exact List.mem_append_right _ (List.mem_append_right _ hlate)
  | .while_ c body, h => by
    rw [stmtAssigns, List.mem_append] at h
    rw [stmtMentions, stmtLate]
    rcases h with h | h
    · exact .inl (List.mem_append_left _ h)
    · exact (late_of_stmtsAssigns before body h).mono (List.mem_append_right _)
  | .for_ var _ start end_ body _ _, h => by
    rw [stmtAssigns, List.mem_append, mem_hide] at h
    rw [stmtMentions, stmtLate]
    rcases h with h | ⟨h, hvar⟩
    · exact .inl (List.mem_append_left _ h)
    · refine (late_of_stmtsAssigns before body h).mono fun hlate => ?_
      exact List.mem_append_right _ (mem_hide.mpr ⟨hlate, hvar⟩)
  | .forIter var _ _ _ _ body, h => by
    rw [stmtAssigns, mem_hide] at h
    rw [stmtMentions, stmtLate]
    exact (late_of_stmtsAssigns before body h.1).mono fun hlate => mem_hide.mpr ⟨hlate, h.2⟩
  | .taskSpawn _ body _, h => by
    rw [stmtAssigns] at h
    rw [stmtMentions, stmtLate]
    exact late_of_stmtsAssigns before body h
  | .drop _ _ _, h | .break_, h | .continue_, h | .taskJoin _, h => absurd h List.not_mem_nil

/-- An assignment to an outer binding is late, or the name is assigned first. -/
theorem late_of_stmtsAssigns (before : List BindingEvent) : ∀ ss, x ∈ stmtsAssigns ss [] →
    LateOrFirst x before (stmtsMentions ss) (stmtsLate before ss)
  | [], h => absurd h List.not_mem_nil
  | s :: ss, h => by
    rw [stmtsAssigns, List.mem_append, mem_hide] at h
    rw [stmtsMentions, stmtsLate]
    rcases h with h | ⟨h, hdecl⟩
    · exact (late_of_stmtAssigns before s h).before.mono (List.mem_append_left _)
    · refine (late_of_stmtsAssigns (before ++ stmtMentions s) ss h).after.mono fun hlate => ?_
      exact List.mem_append_right _ (mem_hide.mpr ⟨hlate, hdecl⟩)

end

mutual

theorem assigns_of_stmtLate {before : List BindingEvent} :
    ∀ s, x ∈ stmtLate before s → x ∈ stmtAssigns s
  | .let_ _ _ _, h | .discard _, h | .return_ _, h | .assert _ _, h | .prove _, h
  | .print _, h | .fieldAssign _ _ _ _, h => h
  | .reassign name _ e _, h => by
    rw [stmtLate, List.mem_append] at h
    rw [stmtAssigns, List.mem_append]
    exact h.imp_right eq_of_mem_target
  | .indexAssign name _ index _ value _, h => by
    rw [stmtLate, List.mem_append] at h
    rw [stmtAssigns, List.mem_append]
    exact h.imp_right eq_of_mem_target
  | .if_ c th el, h => by
    rw [stmtLate, List.mem_append, List.mem_append] at h
    rw [stmtAssigns, List.mem_append, List.mem_append]
    exact h.imp_right (Or.imp (assigns_of_stmtsLate th) (assigns_of_stmtsLate el))
  | .while_ c body, h => by
    rw [stmtLate, List.mem_append] at h
    rw [stmtAssigns, List.mem_append]
    exact h.imp_right (assigns_of_stmtsLate body)
  | .for_ var _ start end_ body _ _, h => by
    rw [stmtLate, List.mem_append, mem_hide] at h
    rw [stmtAssigns, List.mem_append, mem_hide]
    exact h.imp_right (And.imp_left (assigns_of_stmtsLate body))
  | .forIter var _ _ _ _ body, h => by
    rw [stmtLate, mem_hide] at h
    rw [stmtAssigns, mem_hide]
    exact h.imp_left (assigns_of_stmtsLate body)
  | .taskSpawn _ body _, h => by
    rw [stmtLate] at h
    rw [stmtAssigns]
    exact assigns_of_stmtsLate body h
  | .drop _ _ _, h | .break_, h | .continue_, h | .taskJoin _, h => absurd h List.not_mem_nil

/-- A late assignment is one to an outer binding. -/
theorem assigns_of_stmtsLate {before : List BindingEvent} :
    ∀ ss, x ∈ stmtsLate before ss → x ∈ stmtsAssigns ss []
  | [], h => absurd h List.not_mem_nil
  | s :: ss, h => by
    rw [stmtsLate, List.mem_append, mem_hide] at h
    rw [stmtsAssigns, List.mem_append, mem_hide]
    exact h.imp (assigns_of_stmtLate s) (And.imp_left (assigns_of_stmtsLate ss))

end

/-! ## What is carried -/

/-- A name that is collected and has a value is carried with it. -/
theorem mem_carriedBindings {locals : String → Option Ssa.ValueId} {body : List TypedStmt}
    {v : Ssa.ValueId} (hv : locals x = some v) (h : x ∈ modifiedInBody body) :
    (x, v) ∈ carriedBindings locals body := by
  refine List.mem_filterMap.mpr ⟨x, h, ?_⟩
  rw [hv]
  rfl

/-- **A loop carries every outer binding its body assigns** exactly if each that is assigned
late, in an expression or behind a `let` of its name in a block that has ended, is also assigned
before the body first declares the name. Source: ssa.rs:1344-1443 -/
theorem modifiedInBody_iff (locals : String → Option Ssa.ValueId) (body : List TypedStmt) :
    (∀ x v, locals x = some v → x ∈ assignedOutside body →
        x ∈ modifiedInBody body ∧ (x, v) ∈ carriedBindings locals body) ↔
      ∀ x v, locals x = some v → x ∈ assignedLate body → AssignedFirst x body := by
  constructor
  · intro hall x v hv hlate
    exact mem_modifiedInBody.mp (hall x v hv (assigns_of_stmtsLate body hlate)).1
  · intro hgood x v hv hassigns
    have hmem : x ∈ modifiedInBody body := by
      rw [mem_modifiedInBody]
      rcases late_of_stmtsAssigns [] body hassigns with hlate | ⟨-, hfirst⟩
      · exact hgood x v hv hlate
      · exact hfirst
    exact ⟨hmem, mem_carriedBindings hv hmem⟩

/-! ## An assignment that is lost -/

/-- `if true { let x = 5; }  x = 7;` -/
def hiddenAssignment : List TypedStmt :=
  [.if_ ⟨.bool true, .bool⟩ [.let_ "x" (.int .i64) ⟨.int 5, .int .i64⟩] [],
    .reassign "x" (.int .i64) ⟨.int 7, .int .i64⟩ false]

theorem hiddenAssignment_refutes :
    ¬ ∀ (locals : String → Option Ssa.ValueId) (body : List TypedStmt) (x : String)
      (v : Ssa.ValueId), locals x = some v → x ∈ assignedOutside body →
        x ∈ modifiedInBody body := by
  intro hall
  have hmem := hall (fun _ => some 0) hiddenAssignment "x" 0 rfl (by decide)
  exact absurd hmem (by decide)

end Vani.Analysis
