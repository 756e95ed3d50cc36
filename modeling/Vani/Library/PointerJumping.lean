import Mathlib.Data.Set.Card
import Mathlib.Data.Set.Finite.Basic
import Mathlib.Logic.Function.Iterate

/-!
# Pointer jumping

A function on names is a graph in which every name points at one other or at itself. A jump
at a name makes it point at what its target points at. Passes of jumps over the names that
do not point at themselves come to an end, on a graph with cycles as well: what lies ahead
of a name never grows, and a pass that changes the graph but leaves that alone would have
gone past a cycle without shortening it.
-/

set_option autoImplicit false

namespace Vani.Library.PointerJumping

variable {α : Type} {F : α → α} {k x y z : α}

/-! ## What lies ahead -/

/-- `y` comes after `x`. -/
def Ahead (F : α → α) (x y : α) : Prop := ∃ n, 0 < n ∧ F^[n] x = y

theorem ahead_next (F : α → α) (x : α) : Ahead F x (F x) := ⟨1, Nat.one_pos, rfl⟩

theorem Ahead.trans (h : Ahead F x y) (h' : Ahead F y z) : Ahead F x z := by
  obtain ⟨n, hn, rfl⟩ := h
  obtain ⟨m, hm, rfl⟩ := h'
  exact ⟨m + n, by omega, Function.iterate_add_apply F m n x⟩

/-- Nothing lies ahead of a name but its target and what lies ahead of that. -/
theorem Ahead.cases (h : Ahead F x y) : y = F x ∨ Ahead F (F x) y := by
  obtain ⟨n, hn, rfl⟩ := h
  obtain ⟨n, rfl⟩ : ∃ m, n = m + 1 := ⟨n - 1, by omega⟩
  cases n with
  | zero => exact Or.inl rfl
  | succ n => exact Or.inr ⟨n + 1, Nat.succ_pos n, (Function.iterate_succ_apply F (n + 1) x).symm⟩

/-- Past a target that points at itself there is nothing more. -/
theorem Ahead.eq_of_fixed (h : Ahead F x y) (hx : F (F x) = F x) : y = F x := by
  obtain ⟨n, hn, rfl⟩ := h
  obtain ⟨n, rfl⟩ : ∃ m, n = m + 1 := ⟨n - 1, by omega⟩
  rw [Function.iterate_succ_apply]
  exact Function.iterate_fixed hx n

/-- The pairs of a name of a set and a name ahead of it. -/
def aheadPairs (D : Set α) (F : α → α) : Set (α × α) := {p | p.1 ∈ D ∧ Ahead F p.1 p.2}

/-- Only names of the set point elsewhere, and what they point at is finite in number. -/
theorem aheadPairs_finite {D : Set α} (hD : D.Finite) (hout : ∀ x, x ∉ D → F x = x) :
    (aheadPairs D F).Finite := by
  refine Set.Finite.subset (hD.prod (hD.image F)) ?_
  rintro ⟨x, y⟩ ⟨hx, hahead⟩
  refine Set.mem_prod.mpr ⟨hx, ?_⟩
  obtain ⟨n, hn, heq⟩ := hahead
  obtain ⟨n, rfl⟩ : ∃ m, n = m + 1 := ⟨n - 1, by omega⟩
  clear hn
  dsimp only at hx heq ⊢
  subst heq
  induction n with
  | zero => exact ⟨x, hx, rfl⟩
  | succ n ih =>
    rw [Function.iterate_succ_apply']
    by_cases hmem : F^[n + 1] x ∈ D
    · exact ⟨_, hmem, rfl⟩
    · rw [hout _ hmem]
      exact ih

/-! ## A jump -/

variable [DecidableEq α]

/-- `k` points at what its target points at. -/
def jump (F : α → α) (k : α) : α → α := Function.update F k (F (F k))

/-- Jumps at the names of a list, one after the other. -/
def jumps (F : α → α) (ks : List α) : α → α := ks.foldl jump F

theorem jump_self (F : α → α) (k : α) : jump F k k = F (F k) := Function.update_self ..

theorem jump_of_ne (h : x ≠ k) : jump F k x = F x := Function.update_of_ne h _ _

/-- A jump at a name whose target points at itself changes nothing. -/
theorem jump_of_eq (h : F (F k) = F k) : jump F k = F := by
  unfold jump
  rw [h, Function.update_eq_self]

/-- A name that points at itself goes on to. -/
theorem jump_fixed (hx : F x = x) (k : α) : jump F k x = x := by
  by_cases hk : x = k
  · subst hk
    rw [jump_self, hx, hx]
  · rw [jump_of_ne hk, hx]

theorem jumps_fixed (hx : F x = x) (ks : List α) : jumps F ks x = x := by
  induction ks generalizing F with
  | nil => exact hx
  | cons k ks ih => exact ih (jump_fixed hx k)

/-- A name that is not in the list keeps its target. -/
theorem jumps_of_notMem {ks : List α} (hx : x ∉ ks) : jumps F ks x = F x := by
  induction ks generalizing F with
  | nil => rfl
  | cons k ks ih =>
    rw [List.mem_cons, not_or] at hx
    calc jumps F (k :: ks) x = jump F k x := ih hx.2
      _ = F x := jump_of_ne hx.1

/-- If jumps at distinct names change nothing, no target of one points elsewhere. -/
theorem fixed_of_jumps_eq {ks : List α} (hks : ks.Nodup) (h : jumps F ks = F) (hk : k ∈ ks) :
    F (F k) = F k := by
  induction ks with
  | nil => cases hk
  | cons k' ks ih =>
    rw [List.nodup_cons] at hks
    have hfix : F (F k') = F k' := by
      calc F (F k') = jump F k' k' := (jump_self F k').symm
        _ = jumps F (k' :: ks) k' := (jumps_of_notMem hks.1).symm
        _ = F k' := by rw [h]
    rcases List.mem_cons.mp hk with rfl | hmem
    · exact hfix
    · refine ih hks.2 ?_ hmem
      calc jumps F ks = jumps (jump F k') ks := by rw [jump_of_eq hfix]
        _ = F := h

theorem jumps_concat (F : α → α) (ks : List α) (k : α) :
    jumps F (ks ++ [k]) = jump (jumps F ks) k := by
  unfold jumps
  rw [List.foldl_append]
  rfl

/-- A jump puts nothing new ahead of any name. -/
theorem Ahead.of_jump (h : Ahead (jump F k) x y) : Ahead F x y := by
  have hstep : ∀ x, Ahead F x (jump F k x) := by
    intro x
    by_cases hx : x = k
    · subst hx
      rw [jump_self]
      exact (ahead_next F x).trans (ahead_next F (F x))
    · rw [jump_of_ne hx]
      exact ahead_next F x
  obtain ⟨n, hn, rfl⟩ := h
  obtain ⟨n, rfl⟩ : ∃ m, n = m + 1 := ⟨n - 1, by omega⟩
  clear hn
  induction n with
  | zero => exact hstep x
  | succ n ih =>
    rw [Function.iterate_succ_apply']
    exact ih.trans (hstep _)

theorem Ahead.of_jumps {ks : List α} (h : Ahead (jumps F ks) x y) : Ahead F x y := by
  induction ks generalizing F with
  | nil => exact h
  | cons k ks ih => exact (ih h).of_jump

/-- A jump that changes the graph leaves the old target ahead only if that is on a cycle. -/
theorem ahead_self_of_jump (hk : F (F k) ≠ F k) (h : Ahead (jump F k) k (F k)) :
    Ahead F (F k) (F k) := by
  have hcases := h.cases
  rw [jump_self] at hcases
  rcases hcases with heq | hahead
  · exact absurd heq.symm hk
  · exact (ahead_next F (F k)).trans hahead.of_jump

/-- A jump at a name on a cycle takes its old target out of the cycle: on a cycle no two
names have one target. -/
theorem not_ahead_jump (hk : F (F k) ≠ F k) (hcycle : Ahead F k k) :
    ¬ Ahead (jump F k) k (F k) := by
  rintro ⟨n, hn, hpath⟩
  obtain ⟨n, rfl⟩ : ∃ m, n = m + 1 := ⟨n - 1, by omega⟩
  rw [Function.iterate_succ_apply'] at hpath
  -- the last name before the old target is another one than `k`
  have hne : (jump F k)^[n] k ≠ k := by
    intro heq
    rw [heq, jump_self] at hpath
    exact hk hpath
  rw [jump_of_ne hne] at hpath
  have hreach : Ahead F k ((jump F k)^[n] k) := by
    cases n with
    | zero => exact absurd rfl hne
    | succ n => exact Ahead.of_jump ⟨n + 1, Nat.succ_pos n, rfl⟩
  obtain ⟨a, ha, hax⟩ := hreach
  obtain ⟨p, hp, hper⟩ := hcycle
  obtain ⟨p, rfl⟩ : ∃ m, p = m + 1 := ⟨p - 1, by omega⟩
  apply hne
  rw [← hax] at hpath ⊢
  calc F^[a] k = F^[a] (F^[p + 1] k) := by rw [hper]
    _ = F^[p] (F (F^[a] k)) := by
      rw [← Function.iterate_add_apply, ← Function.iterate_succ_apply,
        ← Function.iterate_add_apply]
      congr 1
      omega
    _ = F^[p] (F k) := by rw [hpath]
    _ = k := by rw [← Function.iterate_succ_apply, hper]

/-! ## A pass -/

/-- A pass over names among which are all that do not point at themselves: if as much lies
ahead of every name after it as before, it has changed nothing. -/
theorem jumps_eq_of_ahead {ks : List α} (hks : ∀ x, F x ≠ x → x ∈ ks)
    (hsame : ∀ x y, Ahead F x y → Ahead (jumps F ks) x y) : jumps F ks = F := by
  -- between the ends of the pass, too, as much lies ahead
  have hmid : ∀ (front back : List α), ks = front ++ back →
      ∀ x y, Ahead (jumps F front) x y ↔ Ahead F x y := by
    intro front back hsplit x y
    refine ⟨Ahead.of_jumps, fun h => ?_⟩
    have hend := hsame x y h
    rw [hsplit, jumps, List.foldl_append] at hend
    have hback : Ahead (jumps (jumps F front) back) x y := hend
    exact hback.of_jumps
  -- no name is turned away from its target at its place in the pass
  have hstill : ∀ (front back : List α) (k : α), ks = front ++ k :: back →
      jumps F front (jumps F front k) = jumps F front k := by
    intro front back k hsplit
    by_contra hk
    have hnext := hmid (front ++ [k]) back (by rw [hsplit, List.append_assoc]; rfl)
    rw [jumps_concat] at hnext
    have hhere := hmid front (k :: back) hsplit
    have hahead : Ahead (jump (jumps F front) k) k (jumps F front k) :=
      (hnext _ _).mpr ((hhere _ _).mp (ahead_next _ _))
    -- the target `v` lies on a cycle with another name
    have hv := (hhere _ _).mp (ahead_self_of_jump hk hahead)
    have hw := (hhere _ _).mp (ahead_next (jumps F front) (jumps F front k))
    generalize jumps F front k = v at hk hv hw
    generalize jumps F front v = w at hk hw
    have hmem : v ∈ ks := by
      apply hks
      intro hfix
      have heq := hw.eq_of_fixed (by rw [hfix, hfix])
      rw [hfix] at heq
      exact hk heq
    -- where `v` itself is passed, the cycle is cut
    obtain ⟨front', back', hsplit'⟩ := List.append_of_mem hmem
    have hhere' := hmid front' (v :: back') hsplit'
    have hv' := (hhere' _ _).mpr hv
    have hw' := (hhere' _ _).mpr hw
    have hne : jumps F front' (jumps F front' v) ≠ jumps F front' v := by
      intro hfix
      exact hk ((hw'.eq_of_fixed hfix).trans (hv'.eq_of_fixed hfix).symm)
    have hnext' := hmid (front' ++ [v]) back' (by rw [hsplit', List.append_assoc]; rfl)
    rw [jumps_concat] at hnext'
    exact not_ahead_jump hne hv'
      ((hnext' _ _).mpr ((hhere' _ _).mp (ahead_next (jumps F front') v)))
  -- so every prefix of the pass leaves the graph as it is
  have hall : ∀ (back front : List α), ks = front ++ back → jumps F front = F →
      jumps F ks = F := by
    intro back
    induction back with
    | nil =>
      intro front hsplit heq
      rw [hsplit, List.append_nil, heq]
    | cons k back ih =>
      intro front hsplit heq
      refine ih (front ++ [k]) (by rw [hsplit, List.append_assoc]; rfl) ?_
      have hk := hstill front back k hsplit
      rw [jumps_concat, jump_of_eq hk, heq]
  exact hall ks [] rfl rfl

/-- A pass that changes the graph leaves fewer names ahead. -/
theorem ncard_aheadPairs_jumps {D : Set α} (hD : D.Finite) (hout : ∀ x, x ∉ D → F x = x)
    {ks : List α} (hks : ∀ x, x ∈ D → x ∈ ks) (hne : jumps F ks ≠ F) :
    (aheadPairs D (jumps F ks)).ncard < (aheadPairs D F).ncard := by
  refine Set.ncard_lt_ncard ⟨?_, ?_⟩ (aheadPairs_finite hD hout)
  · rintro ⟨x, y⟩ ⟨hx, h⟩
    exact ⟨hx, h.of_jumps⟩
  · intro hsub
    apply hne
    apply jumps_eq_of_ahead
    · intro x hx
      by_contra hmem
      exact hx (hout x (fun hd => hmem (hks x hd)))
    · intro x y h
      by_cases hx : x ∈ D
      · exact (hsub (show (x, y) ∈ aheadPairs D F from ⟨hx, h⟩)).2
      · have hfix := hout x hx
        have hy := h.eq_of_fixed (by rw [hfix, hfix])
        rw [hy, hfix]
        have hkeep := jumps_fixed hfix ks
        have hnext := ahead_next (jumps F ks) x
        rwa [hkeep] at hnext

end Vani.Library.PointerJumping
