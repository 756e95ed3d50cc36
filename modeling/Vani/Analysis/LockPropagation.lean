import Vani.Program.LockParams
import Mathlib.Data.Set.Card
import Mathlib.Data.Set.Finite.List

/-!
# Which parameters are locked

A parameter is locked if the function hands it to `mutex_lock`, or to a parameter of another
function that is locked. The bits the checker computes are the least ones closed under the
calls its walks come to; the walks stop at some forms of expressions, and a parameter that is
locked only through calls inside those has no bit.
-/

set_option autoImplicit false

namespace Vani.Analysis

open Vani.Library Vani.Program

variable {names : List String} {fs : List Function} {table : LockTable}

/-! ## One walk -/

/-- Argument `j` of a call names parameter `i`. -/
def HandsOn (names : List String) (args : List Expr) (j i : Nat) : Prop :=
  ∃ arg n, args[j]? = some arg ∧ lockedName arg = some n ∧ paramPosition names n = some i

theorem HandsOn.lt {args : List Expr} {j i : Nat} (h : HandsOn names args j i) :
    i < names.length := by
  obtain ⟨arg, n, -, -, hpos⟩ := h
  exact (List.findIdx?_eq_some_iff_getElem.mp hpos).1

theorem mem_lockedParams {calleeLocks : List Bool} {args : List Expr} {i : Nat} :
    i ∈ lockedParams names calleeLocks args ↔
      ∃ j, calleeLocks[j]? = some true ∧ HandsOn names args j i := by
  unfold lockedParams HandsOn
  simp only [List.mem_filterMap, Prod.exists, List.mem_zipIdx_iff_getElem?]
  constructor
  · rintro ⟨arg, j, harg, hi⟩
    by_cases hj : calleeLocks[j]? = some true
    · rw [if_pos hj, Option.bind_eq_some_iff] at hi
      obtain ⟨n, hn, hpos⟩ := hi
      exact ⟨j, hj, arg, n, harg, hn, hpos⟩
    · rw [if_neg hj] at hi
      cases hi
  · rintro ⟨j, hj, arg, n, harg, hn, hpos⟩
    refine ⟨arg, j, harg, ?_⟩
    rw [if_pos hj, Option.bind_eq_some_iff]
    exact ⟨n, hn, hpos⟩

/-- Setting bits within the bounds sets those and no others. -/
theorem foldlM_setLock (is : List Nat) (locks : List Bool) (h : ∀ i ∈ is, i < locks.length) :
    ∃ l, is.foldlM setLock locks = .done l ∧ l.length = locks.length ∧
      ∀ i, l[i]? = some true ↔ locks[i]? = some true ∨ i ∈ is := by
  induction is generalizing locks with
  | nil => exact ⟨locks, rfl, rfl, fun i => by simp⟩
  | cons k is ih =>
    have hk : k < locks.length := h k List.mem_cons_self
    have hset : setLock locks k = .done (locks.set k true) := if_pos hk
    obtain ⟨l, hrun, hlength, hbits⟩ := ih (locks.set k true) (fun i hi => by
      rw [List.length_set]
      exact h i (List.mem_cons_of_mem _ hi))
    refine ⟨l, ?_, by rw [hlength, List.length_set], fun i => ?_⟩
    · rw [List.foldlM_cons, hset, Outcome.done_bind, hrun]
    · rw [hbits, List.getElem?_set, List.mem_cons]
      by_cases hik : k = i
      · subst hik
        simp [hk]
      · rw [if_neg hik]
        constructor
        · exact Or.imp_right Or.inr
        · rintro (hb | rfl | hi)
          · exact Or.inl hb
          · exact absurd rfl hik
          · exact Or.inr hi

/-- A walk over calls each of which sets bits within the bounds. -/
theorem foldlM_calls (step : List Bool → String × List Expr → Outcome (List Bool))
    (adds : String × List Expr → List Nat)
    (hstep : ∀ locks call, step locks call = (adds call).foldlM setLock locks) {n : Nat}
    (hadds : ∀ call, ∀ i ∈ adds call, i < n) (calls : List (String × List Expr))
    (locks : List Bool) (hlocks : locks.length = n) :
    ∃ l, calls.foldlM step locks = .done l ∧ l.length = n ∧
      ∀ i, l[i]? = some true ↔ locks[i]? = some true ∨ ∃ call ∈ calls, i ∈ adds call := by
  induction calls generalizing locks with
  | nil => exact ⟨locks, rfl, hlocks, fun i => by simp⟩
  | cons call calls ih =>
    obtain ⟨l, hrun, hlength, hbits⟩ := foldlM_setLock (adds call) locks
      (fun i hi => by rw [hlocks]; exact hadds call i hi)
    obtain ⟨l', hrun', hlength', hbits'⟩ := ih l (hlength.trans hlocks)
    refine ⟨l', ?_, hlength', fun i => ?_⟩
    · rw [List.foldlM_cons, hstep, hrun, Outcome.done_bind, hrun']
    · rw [hbits', hbits, or_assoc]
      refine or_congr_right ?_
      simp only [List.mem_cons, exists_eq_or_imp]

/-- The first walk over a function. -/
theorem computeLocksParams_done (f : Function) :
    ∃ l, computeLocksParams f = .done l ∧ l.length = f.params.length ∧
      ∀ i, l[i]? = some true ↔ ∃ call ∈ walkedStmts f.body,
        call.1 = "mutex_lock" ∧ call.2.length = 1 ∧ HandsOn f.paramNames call.2 0 i := by
  have hone : ∀ {args : List Expr} {i : Nat}, i ∈ lockedParams f.paramNames [true] args ↔
      HandsOn f.paramNames args 0 i := by
    intro args i
    rw [mem_lockedParams]
    constructor
    · rintro ⟨j, hj, h⟩
      cases j with
      | zero => exact h
      | succ j => simp at hj
    · exact fun h => ⟨0, rfl, h⟩
  obtain ⟨l, hrun, hlength, hbits⟩ := foldlM_calls (directCall f.paramNames)
    (fun call => if call.1 = "mutex_lock" ∧ call.2.length = 1 then
      lockedParams f.paramNames [true] call.2 else [])
    (fun locks call => by unfold directCall; split <;> rfl)
    (fun call i hi => by
      split at hi
      · have hlt := (hone.mp hi).lt
        rwa [Function.paramNames, List.length_map] at hlt
      · exact (List.not_mem_nil hi).elim)
    (walkedStmts f.body) (List.replicate f.params.length false) List.length_replicate
  refine ⟨l, hrun, hlength, fun i => ?_⟩
  rw [hbits]
  constructor
  · rintro (h | ⟨call, hcall, hi⟩)
    · rw [List.getElem?_replicate] at h
      split at h <;> cases h
    · split at hi
      · rename_i hlock
        exact ⟨call, hcall, hlock.1, hlock.2, hone.mp hi⟩
      · exact (List.not_mem_nil hi).elim
  · rintro ⟨call, hcall, hname, hlength, h⟩
    refine Or.inr ⟨call, hcall, ?_⟩
    rw [if_pos ⟨hname, hlength⟩]
    exact hone.mpr h

/-- A bit of a table is set. -/
def IsSet (table : LockTable) (name : String) (i : Nat) : Prop :=
  ∃ l, table name = some l ∧ l[i]? = some true

/-- The second walk over a function. -/
theorem computeIndirectLocks_done (f : Function) (table : LockTable) {existing : List Bool}
    (h : existing.length = f.params.length) :
    ∃ l, computeIndirectLocks f.body f.paramNames table existing = .done l ∧
      l.length = f.params.length ∧
      ∀ i, l[i]? = some true ↔ existing[i]? = some true ∨ ∃ call ∈ walkedStmts f.body,
        ∃ j, IsSet table call.1 j ∧ HandsOn f.paramNames call.2 j i := by
  have hset : ∀ (call : String × List Expr) (i : Nat),
      i ∈ lockedParams f.paramNames ((table call.1).getD []) call.2 ↔
        ∃ j, IsSet table call.1 j ∧ HandsOn f.paramNames call.2 j i := by
    intro call i
    rw [mem_lockedParams]
    refine exists_congr fun j => and_congr_left fun _ => ?_
    unfold IsSet
    cases htable : table call.1 with
    | none => simp
    | some l => simp
  obtain ⟨l, hrun, hlength, hbits⟩ := foldlM_calls (indirectCall f.paramNames table)
    (fun call => lockedParams f.paramNames ((table call.1).getD []) call.2)
    (fun locks call => by
      unfold indirectCall
      cases htable : table call.1 with
      | none => simp [lockedParams]
      | some l => simp)
    (fun call i hi => by
      obtain ⟨j, -, hj⟩ := (hset call i).mp hi
      have hlt := hj.lt
      rwa [Function.paramNames, List.length_map] at hlt)
    (walkedStmts f.body) existing h
  refine ⟨l, hrun, hlength, fun i => ?_⟩
  rw [hbits]
  exact or_congr_right (exists_congr fun call => and_congr_right fun _ => hset call i)

/-! ## The passes -/

/-- Parameter `i` of a function is locked by way of calls the walks come to. -/
inductive WalkedLock (fs : List Function) : String → Nat → Prop
  | direct {f : Function} {call : String × List Expr} {i : Nat} (hf : f ∈ fs)
    (hcall : call ∈ walkedStmts f.body) (hname : call.1 = "mutex_lock")
    (hlength : call.2.length = 1) (h : HandsOn f.paramNames call.2 0 i) : WalkedLock fs f.name i
  | through {f : Function} {call : String × List Expr} {i j : Nat} (hf : f ∈ fs)
    (hcall : call ∈ walkedStmts f.body) (hj : WalkedLock fs call.1 j)
    (h : HandsOn f.paramNames call.2 j i) : WalkedLock fs f.name i

/-- A table has the signatures of the functions and sets no bit without reason. -/
structure TableOk (fs : List Function) (table : LockTable) : Prop where
  entry : ∀ f ∈ fs, ∃ l, table f.name = some l ∧ l.length = f.params.length
  sound : ∀ name i, IsSet table name i → WalkedLock fs name i

/-- The bits of one table are among those of another. -/
def LocksLe (table table' : LockTable) : Prop := ∀ name i, IsSet table name i → IsSet table' name i

/-- A call the walk comes to hands parameter `i` on to one that is locked. -/
def Handed (table : LockTable) (f : Function) (i : Nat) : Prop :=
  ∃ call ∈ walkedStmts f.body, ∃ j, IsSet table call.1 j ∧ HandsOn f.paramNames call.2 j i

theorem getElem?_zipWith_or {a b : List Bool} (h : b.length = a.length) (i : Nat) :
    (List.zipWith (· || ·) a b)[i]? = some true ↔ a[i]? = some true ∨ b[i]? = some true := by
  rw [List.getElem?_zipWith]
  by_cases hi : i < a.length
  · have hb : i < b.length := by omega
    rw [List.getElem?_eq_getElem hi, List.getElem?_eq_getElem hb]
    simp
  · rw [List.getElem?_eq_none (by omega), List.getElem?_eq_none (by omega)]
    simp

/-- One function of a pass: its parameters that are handed on get their bits, and the pass
notes whether a bit is new. -/
theorem propagateInto_done (hok : TableOk fs table) (changed : Bool) {f : Function} (hf : f ∈ fs) :
    ∃ table' c, propagateInto (table, changed) f = .done (table', c) ∧ TableOk fs table' ∧
      LocksLe table table' ∧ (∀ i, Handed table f i → IsSet table' f.name i) ∧
      (c = false → changed = false ∧ table' = table) ∧
      (c = true → changed = true ∨ ∃ i, ¬ IsSet table f.name i ∧ IsSet table' f.name i) := by
  obtain ⟨target, htarget, hlength⟩ := hok.entry f hf
  obtain ⟨propagated, hrun, hplength, hbits⟩ := computeIndirectLocks_done f table hlength
  let locks := List.zipWith (· || ·) target propagated
  have hlocks : ∀ i, locks[i]? = some true ↔ target[i]? = some true ∨ Handed table f i := by
    intro i
    rw [getElem?_zipWith_or (by omega), hbits, or_self_left]
    rfl
  have hlength' : locks.length = f.params.length := by
    rw [List.length_zipWith, hplength, hlength, Nat.min_self]
  have hself : ∀ i, IsSet (Function.update table f.name (some locks)) f.name i ↔
      locks[i]? = some true := by
    intro i
    unfold IsSet
    rw [Function.update_self]
    simp
  have hother : ∀ name i, name ≠ f.name →
      (IsSet (Function.update table f.name (some locks)) name i ↔ IsSet table name i) := by
    intro name i hne
    unfold IsSet
    rw [Function.update_of_ne hne]
  have hold : ∀ i, IsSet table f.name i ↔ target[i]? = some true := by
    intro i
    unfold IsSet
    rw [htarget]
    simp
  refine ⟨Function.update table f.name (some locks), changed || decide (locks ≠ target), ?_,
    ⟨?_, ?_⟩, ?_, fun i hi => ?_, fun hc => ?_, fun hc => ?_⟩
  · simp only [propagateInto, htarget, hrun, Outcome.done_bind, Outcome.pure_eq]
    rfl
  · intro g hg
    by_cases hname : g.name = f.name
    · obtain ⟨l, hl, hgl⟩ := hok.entry g hg
      rw [hname, htarget, Option.some.injEq] at hl
      refine ⟨locks, by rw [hname, Function.update_self], ?_⟩
      rw [hlength', ← hgl, ← hl, hlength]
    · obtain ⟨l, hl, hgl⟩ := hok.entry g hg
      exact ⟨l, by rw [Function.update_of_ne hname, hl], hgl⟩
  · intro name i hset
    by_cases hname : name = f.name
    · subst hname
      rw [hself, hlocks] at hset
      rcases hset with ht | ⟨call, hcall, j, hj, hhands⟩
      · exact hok.sound _ i ((hold i).mpr ht)
      · exact WalkedLock.through hf hcall (hok.sound _ _ hj) hhands
    · exact hok.sound _ i ((hother name i hname).mp hset)
  · intro name i hset
    by_cases hname : name = f.name
    · subst hname
      rw [hself, hlocks]
      exact Or.inl ((hold i).mp hset)
    · exact (hother name i hname).mpr hset
  · rw [hself, hlocks]
    exact Or.inr hi
  · rw [Bool.or_eq_false_iff, decide_eq_false_iff_not, not_not] at hc
    refine ⟨hc.1, ?_⟩
    rw [hc.2, ← htarget, Function.update_eq_self]
  · rw [Bool.or_eq_true, decide_eq_true_eq] at hc
    refine hc.imp_right fun hne => ?_
    by_contra hall
    push Not at hall
    apply hne
    refine List.ext_getElem? fun i => ?_
    by_cases hi : i < f.params.length
    · have hsame : locks[i]? = some true ↔ target[i]? = some true := by
        refine ⟨fun h => ?_, fun h => (hlocks i).mpr (Or.inl h)⟩
        by_contra hnot
        exact hall i (fun hset => hnot ((hold i).mp hset)) ((hself i).mpr h)
      rw [List.getElem?_eq_getElem (hlength'.symm ▸ hi), List.getElem?_eq_getElem (hlength.symm ▸ hi)]
        at hsame ⊢
      rw [Option.some.injEq, Option.some.injEq] at hsame
      exact congrArg some (Bool.eq_iff_iff.mpr hsame)
    · rw [List.getElem?_eq_none (by omega), List.getElem?_eq_none (by omega)]

/-- A pass over some of the functions. -/
theorem foldlM_propagateInto {rest : List Function} (hrest : ∀ f ∈ rest, f ∈ fs)
    (hok : TableOk fs table) (changed : Bool) :
    ∃ table' c, rest.foldlM propagateInto (table, changed) = .done (table', c) ∧
      TableOk fs table' ∧ LocksLe table table' ∧
      (c = false → changed = false ∧ table' = table ∧
        ∀ f ∈ rest, ∀ i, Handed table f i → IsSet table f.name i) ∧
      (c = true → changed = true ∨
        ∃ f ∈ rest, ∃ i, ¬ IsSet table f.name i ∧ IsSet table' f.name i) := by
  induction rest generalizing table changed with
  | nil =>
    exact ⟨table, changed, rfl, hok, fun _ _ => id,
      fun hc => ⟨hc, rfl, fun f hf => (List.not_mem_nil hf).elim⟩, Or.inl⟩
  | cons f rest ih =>
    obtain ⟨table₁, c₁, hrun₁, hok₁, hle₁, hhanded, hno₁, hyes₁⟩ :=
      propagateInto_done hok changed (hrest f List.mem_cons_self)
    obtain ⟨table₂, c₂, hrun₂, hok₂, hle₂, hno₂, hyes₂⟩ :=
      ih (fun g hg => hrest g (List.mem_cons_of_mem _ hg)) hok₁ c₁
    refine ⟨table₂, c₂, ?_, hok₂, fun n i h => hle₂ n i (hle₁ n i h), fun hc => ?_, fun hc => ?_⟩
    · rw [List.foldlM_cons, hrun₁, Outcome.done_bind, hrun₂]
    · obtain ⟨hc₁, heq₂, hclosed⟩ := hno₂ hc
      obtain ⟨hc₀, heq₁⟩ := hno₁ hc₁
      subst heq₁
      refine ⟨hc₀, heq₂, fun g hg i hi => ?_⟩
      rcases List.mem_cons.mp hg with rfl | hg
      · exact hhanded i hi
      · exact hclosed g hg i hi
    · rcases hyes₂ hc with hc₁ | ⟨g, hg, i, hnot, hset⟩
      · rcases hyes₁ hc₁ with hc₀ | ⟨i, hnot, hset⟩
        · exact Or.inl hc₀
        · exact Or.inr ⟨f, List.mem_cons_self, i, hnot, hle₂ _ _ hset⟩
      · exact Or.inr ⟨g, List.mem_cons_of_mem _ hg, i, fun h => hnot (hle₁ _ _ h), hset⟩

/-- The parameters whose bits are not set. -/
def unsetBits (fs : List Function) (table : LockTable) : Set (String × Nat) :=
  {q | ∃ f ∈ fs, f.name = q.1 ∧ q.2 < f.params.length ∧ ¬ IsSet table q.1 q.2}

theorem unsetBits_finite (fs : List Function) (table : LockTable) :
    (unsetBits fs table).Finite := by
  refine Set.Finite.subset (List.finite_toSet
    (fs.flatMap fun f => (List.range f.params.length).map fun i => (f.name, i))) ?_
  rintro ⟨name, i⟩ ⟨f, hf, hname, hi, -⟩
  dsimp only at hname hi
  refine List.mem_flatMap.mpr ⟨f, hf, List.mem_map.mpr ⟨i, List.mem_range.mpr hi, ?_⟩⟩
  rw [hname]

/-- A table is closed under the calls the walks come to. -/
def TableClosed (fs : List Function) (table : LockTable) : Prop :=
  ∀ f ∈ fs, ∀ i, Handed table f i → IsSet table f.name i

/-- The passes end with a closed table, whatever calls whatever. -/
theorem propagateLocksParams_done (hok : TableOk fs table) :
    ∃ fuel table', propagateLocksParams fs fuel table = .done table' ∧ TableOk fs table' ∧
      LocksLe table table' ∧ TableClosed fs table' := by
  refine ⟨(unsetBits fs table).ncard + 1, ?_⟩
  refine Outcome.loop_of_measure (fun t => TableOk fs t ∧ LocksLe table t)
    (fun t => (unsetBits fs t).ncard) (Nat.lt_succ_self _) ⟨hok, fun _ _ => id⟩ ?_
  rintro t ⟨ht, hle⟩
  obtain ⟨t', c, hrun, hok', hle', hno, hyes⟩ := foldlM_propagateInto (fun f hf => hf) ht false
  cases c with
  | false =>
    obtain ⟨-, rfl, hclosed⟩ := hno rfl
    refine Or.inr ⟨t', ?_, ht, hle, hclosed⟩
    simp only [propagateTurn, hrun, Outcome.done_bind, Bool.false_eq_true, if_false,
      Outcome.pure_eq]
  | true =>
    refine Or.inl ⟨t', ?_, ⟨hok', fun n i h => hle' n i (hle n i h)⟩, ?_⟩
    · simp only [propagateTurn, hrun, Outcome.done_bind, if_true, Outcome.pure_eq]
    · obtain hf | ⟨f, hf, i, hnot, hset⟩ := hyes rfl
      · cases hf
      · refine Set.ncard_lt_ncard ⟨?_, fun hsub => ?_⟩ (unsetBits_finite fs t)
        · rintro ⟨name, i⟩ ⟨g, hg, hname, hi, hunset⟩
          exact ⟨g, hg, hname, hi, fun h => hunset (hle' _ _ h)⟩
        · obtain ⟨l, hl, hlength⟩ := hok'.entry f hf
          have hi : i < f.params.length := by
            obtain ⟨l', hl', hbit⟩ := hset
            rw [hl, Option.some.injEq] at hl'
            rw [← hlength, hl']
            exact (List.getElem?_eq_some_iff.mp hbit).1
          obtain ⟨-, -, -, -, hunset⟩ :=
            hsub (show (f.name, i) ∈ unsetBits fs t from ⟨f, hf, rfl, hi, hnot⟩)
          exact hunset hset

/-! ## The signatures -/

/-- The bits of the first walks are in the table, each function's under its name. -/
theorem foldlM_addSignature {rest : List Function} (hnodup : (rest.map Function.name).Nodup)
    (table : LockTable) :
    ∃ table', rest.foldlM addSignature table = .done table' ∧
      (∀ f ∈ rest, ∃ l, computeLocksParams f = .done l ∧ table' f.name = some l) ∧
      ∀ name, name ∉ rest.map Function.name → table' name = table name := by
  induction rest generalizing table with
  | nil => exact ⟨table, rfl, fun f hf => (List.not_mem_nil hf).elim, fun _ _ => rfl⟩
  | cons f rest ih =>
    rw [List.map_cons, List.nodup_cons] at hnodup
    obtain ⟨l, hl, -⟩ := computeLocksParams_done f
    obtain ⟨table', hrun, hin, hout⟩ := ih hnodup.2 (Function.update table f.name (some l))
    refine ⟨table', ?_, fun g hg => ?_, fun name hname => ?_⟩
    · rw [List.foldlM_cons, addSignature, hl, Outcome.done_bind, Outcome.pure_eq,
        Outcome.done_bind, hrun]
    · rcases List.mem_cons.mp hg with rfl | hg
      · exact ⟨l, hl, by rw [hout _ hnodup.1, Function.update_self]⟩
      · exact hin g hg
    · rw [List.map_cons, List.mem_cons, not_or] at hname
      rw [hout name hname.2, Function.update_of_ne hname.1]

/-- The computed bits are exactly those of the parameters that are locked by way of calls the
walks come to. -/
theorem collectLocks_done (p : NamedFunctions) :
    ∃ fuel table, collectLocks p.functions fuel = .done table ∧
      ∀ name i, IsSet table name i ↔ WalkedLock p.functions name i := by
  obtain ⟨table₀, hrun₀, hin, hout⟩ := foldlM_addSignature p.nodup fun _ => none
  have hok : TableOk p.functions table₀ := by
    refine ⟨fun f hf => ?_, fun name i hset => ?_⟩
    · obtain ⟨l, hl, htable⟩ := hin f hf
      obtain ⟨l', hl', hlength, -⟩ := computeLocksParams_done f
      rw [hl, Outcome.done.injEq] at hl'
      exact ⟨l, htable, by rw [hl', hlength]⟩
    · obtain ⟨l, hl, hbit⟩ := hset
      by_cases hname : name ∈ p.functions.map Function.name
      · obtain ⟨f, hf, rfl⟩ := List.mem_map.mp hname
        obtain ⟨l₁, hl₁, htable⟩ := hin f hf
        obtain ⟨l₂, hl₂, -, hbits⟩ := computeLocksParams_done f
        rw [hl₁, Outcome.done.injEq] at hl₂
        rw [htable, Option.some.injEq] at hl
        rw [← hl, hl₂, hbits] at hbit
        obtain ⟨call, hcall, hlock, hone, hhands⟩ := hbit
        exact WalkedLock.direct hf hcall hlock hone hhands
      · rw [hout name hname] at hl
        cases hl
  obtain ⟨fuel, table, hrun, hok', hle, hclosed⟩ := propagateLocksParams_done hok
  refine ⟨fuel, table, ?_, fun name i => ⟨hok'.sound name i, fun h => ?_⟩⟩
  · unfold collectLocks
    rw [hrun₀, Outcome.done_bind, hrun]
  · induction h with
    | @direct f call i hf hcall hname hlength hhands =>
      obtain ⟨l, hl, htable⟩ := hin f hf
      obtain ⟨l', hl', -, hbits⟩ := computeLocksParams_done f
      rw [hl, Outcome.done.injEq] at hl'
      exact hle _ _ ⟨l, htable, by rw [hl', hbits]; exact ⟨call, hcall, hname, hlength, hhands⟩⟩
    | @through f call i j hf hcall _ hhands ih =>
      exact hclosed f hf i ⟨call, hcall, j, ih, hhands⟩

/-! ## All calls of a body -/

/-- A call in a body, the names declared around it, and whether it stands in a part of an
expression the walks do not go into. -/
structure CallSite where
  callee : String
  args : List Expr
  declared : List String
  skipped : Bool

/-- The names a pattern binds. -/
def boundNames : Pattern → List String
  | .variantWithBinding _ _ binding => [binding]
  | _ => []

/-- The names a statement declares for what follows it. -/
def declaredNames : Stmt → List String
  | .let_ name _ _ | .taskSpawn name _ => [name]
  | .letTuple names _ _ => names
  | _ => []

section Sites

-- what a method call on a receiver may come to
variable (methods : Expr → String → List String)

mutual

/-- The calls in an expression. An anonymous function has been lifted by then. -/
def exprSites (declared : List String) (skipped : Bool) : Expr → List CallSite
  | .call name args => ⟨name, args, declared, skipped⟩ :: argSites declared skipped args
  | .methodCall receiver method args =>
    (methods receiver method).map (⟨·, receiver :: args, declared, true⟩) ++
      exprSites declared true receiver ++ argSites declared true args
  | .unary _ e | .cast e _ | .len e | .ref e | .refMut e => exprSites declared skipped e
  | .binary _ a b | .index a b => exprSites declared skipped a ++ exprSites declared skipped b
  | .arrayLit elements => argSites declared skipped elements
  | .tuple elements => argSites declared true elements
  | .tupleAccess e _ | .fieldAccess e _ | .try_ e => exprSites declared true e
  | .structLit _ fields => fieldSites declared fields
  | .match_ scrutinee arms => exprSites declared true scrutinee ++ armSites declared arms
  | .ifExpr cond a b =>
    exprSites declared true cond ++ exprSites declared true a ++ exprSites declared true b
  | .block stmts tail =>
    stmtsSites declared true stmts ++
      exprSites (stmts.flatMap declaredNames ++ declared) true tail
  | .int _ | .float _ | .bool _ | .str _ | .var _ | .anonFn _ _ _ => []

def argSites (declared : List String) (skipped : Bool) : List Expr → List CallSite
  | [] => []
  | e :: es => exprSites declared skipped e ++ argSites declared skipped es

def fieldSites (declared : List String) : List (String × Expr) → List CallSite
  | [] => []
  | (_, e) :: fs => exprSites declared true e ++ fieldSites declared fs

def armSites (declared : List String) : List (Pattern × Expr) → List CallSite
  | [] => []
  | (pattern, e) :: arms =>
    exprSites (boundNames pattern ++ declared) true e ++ armSites declared arms

def itemSites (declared : List String) (skipped : Bool) : List PrintItem → List CallSite
  | [] => []
  | .expr e :: items => exprSites declared skipped e ++ itemSites declared skipped items
  | .str _ :: items => itemSites declared skipped items

/-- The calls in a statement. -/
def stmtSites (declared : List String) (skipped : Bool) : Stmt → List CallSite
  | .let_ _ _ e | .letTuple _ _ e | .return_ e | .assert e _ | .prove e | .assign _ e =>
    exprSites declared skipped e
  | .indexAssign _ index _ value =>
    exprSites declared skipped index ++ exprSites declared skipped value
  | .fieldAssign object _ value =>
    exprSites declared skipped object ++ exprSites declared skipped value
  | .print items => itemSites declared skipped items
  | .if_ cond thenBody elseBody =>
    exprSites declared skipped cond ++ stmtsSites declared skipped thenBody ++
      stmtsSites declared skipped elseBody
  | .while_ cond invariants body =>
    exprSites declared skipped cond ++ argSites declared skipped invariants ++
      stmtsSites declared skipped body
  | .for_ var start end_ invariants body _ _ =>
    exprSites declared skipped start ++ exprSites declared skipped end_ ++
      argSites (var :: declared) skipped invariants ++ stmtsSites (var :: declared) skipped body
  | .forIter var _ _ body => stmtsSites (var :: declared) skipped body
  | .taskSpawn _ body => stmtsSites declared skipped body
  | .break_ | .continue_ | .taskJoin _ => []

def stmtsSites (declared : List String) (skipped : Bool) : List Stmt → List CallSite
  | [] => []
  | s :: ss => stmtSites declared skipped s ++ stmtsSites (declaredNames s ++ declared) skipped ss

end

end Sites

variable {methods : Expr → String → List String}

/-- Argument `j` of a call is parameter `i`, itself or by reference. -/
def Passes (names : List String) (s : CallSite) (j i : Nat) : Prop :=
  ∃ arg n, s.args[j]? = some arg ∧ lockedName arg = some n ∧ n ∉ s.declared ∧
    paramPosition names n = some i

theorem Passes.handsOn {s : CallSite} {j i : Nat} (h : Passes names s j i) :
    HandsOn names s.args j i := by
  obtain ⟨arg, n, harg, hn, -, hpos⟩ := h
  exact ⟨arg, n, harg, hn, hpos⟩

/-- Parameter `i` of a function is locked: the body passes it to `mutex_lock`, or as a
parameter of a function that is locked. -/
inductive Locks (methods : Expr → String → List String) (fs : List Function) : String → Nat → Prop
  | direct {f : Function} {s : CallSite} {i : Nat} (hf : f ∈ fs)
    (hs : s ∈ stmtsSites methods [] false f.body) (hname : s.callee = "mutex_lock")
    (hlength : s.args.length = 1) (h : Passes f.paramNames s 0 i) : Locks methods fs f.name i
  | through {f : Function} {s : CallSite} {i j : Nat} (hf : f ∈ fs)
    (hs : s ∈ stmtsSites methods [] false f.body) (hj : Locks methods fs s.callee j)
    (h : Passes f.paramNames s j i) : Locks methods fs f.name i

/-- A call in a part of the body that the walks do not go into passes parameter `i` to be
locked. -/
def SkippedLock (methods : Expr → String → List String) (fs : List Function) (name : String)
    (i : Nat) : Prop :=
  ∃ f ∈ fs, f.name = name ∧ ∃ s ∈ stmtsSites methods [] false f.body, s.skipped = true ∧
    ((s.callee = "mutex_lock" ∧ s.args.length = 1 ∧ Passes f.paramNames s 0 i) ∨
      ∃ j, Locks methods fs s.callee j ∧ Passes f.paramNames s j i)

/-- A call site is in a part that is skipped, or the walks come to it. -/
def Walked (skipped : Bool) (calls : List (String × List Expr)) (s : CallSite) : Prop :=
  s.skipped = true ∨ skipped = false ∧ (s.callee, s.args) ∈ calls

theorem Walked.left {k : Bool} {calls : List (String × List Expr)} {s : CallSite}
    (h : Walked k calls s) (more : List (String × List Expr)) : Walked k (calls ++ more) s :=
  h.imp_right fun hc => ⟨hc.1, List.mem_append_left _ hc.2⟩

theorem Walked.right {k : Bool} {calls : List (String × List Expr)} {s : CallSite}
    (h : Walked k calls s) (more : List (String × List Expr)) : Walked k (more ++ calls) s :=
  h.imp_right fun hc => ⟨hc.1, List.mem_append_right _ hc.2⟩

/-- In a skipped part every call site is one. -/
theorem Walked.skipped {calls calls' : List (String × List Expr)} {s : CallSite} (k : Bool)
    (h : Walked true calls s) : Walked k calls' s :=
  Or.inl (h.elim id fun hc => by cases hc.1)

mutual

theorem walked_expr {s : CallSite} (d : List String) (k : Bool) :
    ∀ e : Expr, s ∈ exprSites methods d k e → Walked k (walkedCalls e) s
  | .call name args, h => by
    rcases List.mem_cons.mp h with rfl | h
    · cases k with
      | true => exact Or.inl rfl
      | false => exact Or.inr ⟨rfl, List.mem_cons_self⟩
    · exact (walked_args d k args h).right [(name, args)]
  | .methodCall receiver method args, h => by
    rw [exprSites, List.mem_append, List.mem_append, List.mem_map] at h
    rcases h with (⟨n, -, rfl⟩ | h) | h
    · exact Or.inl rfl
    · exact (walked_expr d true receiver h).skipped k
    · exact (walked_args d true args h).skipped k
  | .unary _ e, h => walked_expr d k e h
  | .cast e _, h => walked_expr d k e h
  | .len e, h => walked_expr d k e h
  | .ref e, h => walked_expr d k e h
  | .refMut e, h => walked_expr d k e h
  | .binary _ a b, h => by
    rcases List.mem_append.mp h with h | h
    · exact (walked_expr d k a h).left _
    · exact (walked_expr d k b h).right _
  | .index a b, h => by
    rcases List.mem_append.mp h with h | h
    · exact (walked_expr d k a h).left _
    · exact (walked_expr d k b h).right _
  | .arrayLit elements, h => walked_args d k elements h
  | .tuple elements, h => (walked_args d true elements h).skipped k
  | .tupleAccess e _, h => (walked_expr d true e h).skipped k
  | .fieldAccess e _, h => (walked_expr d true e h).skipped k
  | .try_ e, h => (walked_expr d true e h).skipped k
  | .structLit _ fields, h => Or.inl (skipped_fields d fields h)
  | .match_ scrutinee arms, h => by
    rcases List.mem_append.mp h with h | h
    · exact (walked_expr d true scrutinee h).skipped k
    · exact Or.inl (skipped_arms d arms h)
  | .ifExpr cond a b, h => by
    rw [exprSites, List.mem_append, List.mem_append] at h
    rcases h with (h | h) | h
    · exact (walked_expr d true cond h).skipped k
    · exact (walked_expr d true a h).skipped k
    · exact (walked_expr d true b h).skipped k
  | .block stmts tail, h => by
    rcases List.mem_append.mp h with h | h
    · exact (walked_stmts d true stmts h).skipped k
    · exact (walked_expr _ true tail h).skipped k
  | .int _, h | .float _, h | .bool _, h | .str _, h | .var _, h | .anonFn _ _ _, h =>
    (List.not_mem_nil h).elim

theorem walked_args {s : CallSite} (d : List String) (k : Bool) :
    ∀ es : List Expr, s ∈ argSites methods d k es → Walked k (walkedCallsAll es) s
  | [], h => (List.not_mem_nil h).elim
  | e :: es, h => by
    rcases List.mem_append.mp h with h | h
    · exact (walked_expr d k e h).left _
    · exact (walked_args d k es h).right _

theorem skipped_fields {s : CallSite} (d : List String) :
    ∀ fs : List (String × Expr), s ∈ fieldSites methods d fs → s.skipped = true
  | [], h => (List.not_mem_nil h).elim
  | (_, e) :: fs, h => by
    rcases List.mem_append.mp h with h | h
    · exact (walked_expr d true e h).elim id fun hc => by cases hc.1
    · exact skipped_fields d fs h

theorem skipped_arms {s : CallSite} (d : List String) :
    ∀ arms : List (Pattern × Expr), s ∈ armSites methods d arms → s.skipped = true
  | [], h => (List.not_mem_nil h).elim
  | (_, e) :: arms, h => by
    rcases List.mem_append.mp h with h | h
    · exact (walked_expr _ true e h).elim id fun hc => by cases hc.1
    · exact skipped_arms d arms h

theorem walked_items {s : CallSite} (d : List String) (k : Bool) :
    ∀ items : List PrintItem, s ∈ itemSites methods d k items → Walked k (walkedItems items) s
  | [], h => (List.not_mem_nil h).elim
  | .expr e :: items, h => by
    rcases List.mem_append.mp h with h | h
    · exact (walked_expr d k e h).left _
    · exact (walked_items d k items h).right _
  | .str _ :: items, h => walked_items d k items h

theorem walked_stmt {s : CallSite} (d : List String) (k : Bool) :
    ∀ st : Stmt, s ∈ stmtSites methods d k st → Walked k (walkedStmt st) s
  | .let_ _ _ e, h => walked_expr d k e h
  | .letTuple _ _ e, h => walked_expr d k e h
  | .return_ e, h => walked_expr d k e h
  | .assert e _, h => walked_expr d k e h
  | .prove e, h => walked_expr d k e h
  | .assign _ e, h => walked_expr d k e h
  | .indexAssign _ index _ value, h => by
    rcases List.mem_append.mp h with h | h
    · exact (walked_expr d k index h).left _
    · exact (walked_expr d k value h).right _
  | .fieldAssign object _ value, h => by
    rcases List.mem_append.mp h with h | h
    · exact (walked_expr d k object h).left _
    · exact (walked_expr d k value h).right _
  | .print items, h => walked_items d k items h
  | .if_ cond thenBody elseBody, h => by
    rw [stmtSites, List.mem_append, List.mem_append] at h
    rw [walkedStmt]
    rcases h with (h | h) | h
    · exact ((walked_expr d k cond h).left _).left _
    · exact ((walked_stmts d k thenBody h).right _).left _
    · exact (walked_stmts d k elseBody h).right _
  | .while_ cond invariants body, h => by
    rw [stmtSites, List.mem_append, List.mem_append] at h
    rw [walkedStmt]
    rcases h with (h | h) | h
    · exact ((walked_expr d k cond h).left _).left _
    · exact ((walked_args d k invariants h).right _).left _
    · exact (walked_stmts d k body h).right _
  | .for_ var start end_ invariants body _ _, h => by
    rw [stmtSites, List.mem_append, List.mem_append, List.mem_append] at h
    rw [walkedStmt]
    rcases h with ((h | h) | h) | h
    · exact (((walked_expr d k start h).left _).left _).left _
    · exact (((walked_expr d k end_ h).right _).left _).left _
    · exact ((walked_args (var :: d) k invariants h).right _).left _
    · exact (walked_stmts (var :: d) k body h).right _
  | .forIter var _ _ body, h => walked_stmts (var :: d) k body h
  | .taskSpawn _ body, h => walked_stmts d k body h
  | .break_, h | .continue_, h | .taskJoin _, h => (List.not_mem_nil h).elim

theorem walked_stmts {s : CallSite} (d : List String) (k : Bool) :
    ∀ ss : List Stmt, s ∈ stmtsSites methods d k ss → Walked k (walkedStmts ss) s
  | [], h => (List.not_mem_nil h).elim
  | st :: ss, h => by
    rcases List.mem_append.mp h with h | h
    · exact (walked_stmt d k st h).left _
    · exact (walked_stmts _ k ss h).right _

end

/-! ## Completeness -/

/-- The passes come to an end for every program, and the bits are complete exactly if every
parameter that is passed to be locked in a part of a body the walks do not go into is also
locked by way of calls they come to. -/
theorem lock_propagation_complete_iff (p : NamedFunctions) (methods : Expr → String → List String) :
    ∃ fuel table, collectLocks p.functions fuel = .done table ∧
      ((∀ name i, Locks methods p.functions name i → IsSet table name i) ↔
        ∀ name i, SkippedLock methods p.functions name i → WalkedLock p.functions name i) := by
  obtain ⟨fuel, table, hrun, hbits⟩ := collectLocks_done p
  refine ⟨fuel, table, hrun, fun hcomplete name i h => ?_, fun hskipped name i h => ?_⟩
  · rw [← hbits]
    apply hcomplete
    obtain ⟨f, hf, rfl, s, hs, -, ⟨hname, hlength, hp⟩ | ⟨j, hj, hp⟩⟩ := h
    · exact Locks.direct hf hs hname hlength hp
    · exact Locks.through hf hs hj hp
  · rw [hbits]
    induction h with
    | @direct f s i hf hs hname hlength hp =>
      rcases walked_stmts [] false f.body hs with hskip | ⟨-, hcall⟩
      · exact hskipped _ _ ⟨f, hf, rfl, s, hs, hskip, Or.inl ⟨hname, hlength, hp⟩⟩
      · exact WalkedLock.direct hf hcall hname hlength hp.handsOn
    | @through f s i j hf hs hj hp ih =>
      rcases walked_stmts [] false f.body hs with hskip | ⟨-, hcall⟩
      · exact hskipped _ _ ⟨f, hf, rfl, s, hs, hskip, Or.inr ⟨j, hj, hp⟩⟩
      · exact WalkedLock.through hf hcall ih hp.handsOn

/-- A function that locks its parameter, and one that calls it in a branch of a conditional
expression. -/
def branchCall : NamedFunctions where
  functions :=
    [⟨"inner", [⟨"m", .ref (.mutex (.int .i64))⟩], .int .i64, [], [],
      [.let_ "g" none (.call "mutex_lock" [.var "m"]), .return_ (.int 0)], false⟩,
     ⟨"outer", [⟨"m", .ref (.mutex (.int .i64))⟩, ⟨"c", .bool⟩], .int .i64, [], [],
      [.return_ (.ifExpr (.var "c") (.call "inner" [.var "m"]) (.int 0))], false⟩]
  nodup := by decide

/-- The second function locks its first parameter, and the bit for that is not set. -/
theorem lock_bit_missed :
    Locks (fun _ _ => []) branchCall.functions "outer" 0 ∧
      ∃ table, collectLocks branchCall.functions 3 = .done table ∧ ¬ IsSet table "outer" 0 := by
  have hinner : Locks (fun _ _ => []) branchCall.functions "inner" 0 :=
    Locks.direct List.mem_cons_self List.mem_cons_self rfl rfl
      ⟨.var "m", "m", rfl, rfl, List.not_mem_nil, rfl⟩
  refine ⟨?_, _, rfl, ?_⟩
  · refine Locks.through (List.mem_cons_of_mem _ List.mem_cons_self)
      (s := ⟨"inner", [.var "m"], [], true⟩) ?_ hinner
      ⟨.var "m", "m", rfl, rfl, List.not_mem_nil, rfl⟩
    exact List.mem_cons_self
  · rintro ⟨l, hl, hbit⟩
    have hfalse : l = [false, false] := Option.some.inj (hl.symm.trans rfl)
    rw [hfalse] at hbit
    cases hbit

end Vani.Analysis
