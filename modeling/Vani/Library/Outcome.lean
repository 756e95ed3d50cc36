import Mathlib.Algebra.Group.Nat.Defs
import Mathlib.Tactic.Common

/-!
# Outcomes of low-level code

What a call of a C function can do: return, abort, or get stuck. Stuck stands for what the
code must never do, an access outside a buffer or a loop that goes on for ever. Loops take
a bound on their turns and are stuck where the bound does not suffice, so a loop that is
not stuck terminates.
-/

set_option autoImplicit false

namespace Vani.Library

/-- The outcome of a call. -/
inductive Outcome (α : Type)
  | done (value : α)
  | aborted
  | stuck
  deriving DecidableEq

namespace Outcome

variable {α β σ ρ : Type}

/-- Sequencing. -/
def bind (x : Outcome α) (f : α → Outcome β) : Outcome β :=
  match x with
  | done a => f a
  | aborted => aborted
  | stuck => stuck

instance : Monad Outcome where
  pure := done
  bind := bind

@[simp] theorem pure_eq (a : α) : (pure a : Outcome α) = done a := rfl

@[simp] theorem done_bind (a : α) (f : α → Outcome β) : (done a >>= f) = f a := rfl

@[simp] theorem aborted_bind (f : α → Outcome β) : (aborted >>= f) = aborted := rfl

@[simp] theorem stuck_bind (f : α → Outcome β) : (stuck >>= f) = stuck := rfl

/-- Sequencing is associative. -/
theorem bind_bind {γ : Type} (x : Outcome α) (f : α → Outcome β) (g : β → Outcome γ) :
    (x >>= f) >>= g = x >>= fun a => f a >>= g := by
  cases x <;> rfl

/-- What sequencing returns, it returns by way of the first part. -/
theorem bind_eq_done {x : Outcome α} {f : α → Outcome β} {b : β} (h : (x >>= f) = done b) :
    ∃ a, x = done a ∧ f a = done b := by
  cases x with
  | done a => exact ⟨a, rfl, h⟩
  | aborted => cases h
  | stuck => cases h

/-- Where sequencing aborts, the first part does, or the second after it. -/
theorem bind_eq_aborted {x : Outcome α} {f : α → Outcome β} (h : (x >>= f) = aborted) :
    x = aborted ∨ ∃ a, x = done a ∧ f a = aborted := by
  cases x with
  | done a => exact Or.inr ⟨a, rfl, h⟩
  | aborted => exact Or.inl rfl
  | stuck => cases h

/-- The call returns a value for which `R` holds, or aborts for a reason. -/
def Returns (x : Outcome α) (reason : Prop) (R : α → Prop) : Prop :=
  x = aborted ∧ reason ∨ ∃ a, x = done a ∧ R a

namespace Returns

variable {x : Outcome α} {f : α → Outcome β} {reason : Prop} {P R : α → Prop} {S : β → Prop}

theorem of_done {a : α} (h : R a) : Returns (done a) reason R := Or.inr ⟨a, rfl, h⟩

theorem of_exists (h : ∃ a, x = done a ∧ R a) : Returns x reason R := Or.inr h

theorem bind (h : Returns x reason P) (hf : ∀ a, P a → Returns (f a) reason S) :
    Returns (x >>= f) reason S := by
  rcases h with ⟨hx, hreason⟩ | ⟨a, hx, ha⟩
  · exact Or.inl ⟨by rw [hx, aborted_bind], hreason⟩
  · rw [hx, done_bind]
    exact hf a ha

theorem mono (h : Returns x reason P) (hP : ∀ a, P a → R a) : Returns x reason R :=
  h.imp_right fun ⟨a, hx, ha⟩ => ⟨a, hx, hP a ha⟩

theorem imp_reason {reason' : Prop} (h : Returns x reason R) (himp : reason → reason') :
    Returns x reason' R := h.imp_left fun ⟨hx, hreason⟩ => ⟨hx, himp hreason⟩

end Returns

/-- `a[i]`. -/
def read (a : Array α) (i : Nat) : Outcome α :=
  match a[i]? with
  | some x => done x
  | none => stuck

/-- `a[i] = x`. -/
def write (a : Array α) (i : Nat) (x : α) : Outcome (Array α) :=
  if i < a.size then done (a.setIfInBounds i x) else stuck

theorem read_of_lt {a : Array α} {i : Nat} (h : i < a.size) : read a i = done a[i] := by
  unfold read
  rw [Array.getElem?_eq_getElem h]

theorem write_of_lt {a : Array α} {i : Nat} (h : i < a.size) (x : α) :
    write a i x = done (a.setIfInBounds i x) :=
  if_pos h

theorem read_of_getElem? {a : Array α} {i : Nat} {x : α} (h : a[i]? = some x) :
    read a i = done x := by
  unfold read
  rw [h]

/-- A write within the bounds changes its element and no other. -/
theorem write_ok {a : Array α} {i : Nat} (h : i < a.size) (x : α) :
    ∃ a', write a i x = done a' ∧ a'.size = a.size ∧ a'[i]? = some x ∧
      ∀ j, j ≠ i → a'[j]? = a[j]? := by
  refine ⟨_, write_of_lt h x, Array.size_setIfInBounds, ?_, ?_⟩
  · exact Array.getElem?_setIfInBounds_self_of_lt h
  · intro j hj
    exact Array.getElem?_setIfInBounds_ne (Ne.symm hj)

/-- `memcpy(dst + d, src + s, n)` and, between parts of one array, `memmove`. -/
def copy (dst : Array α) (d : Nat) (src : Array α) (s n : Nat) : Outcome (Array α) :=
  if s + n ≤ src.size ∧ d + n ≤ dst.size then
    done (Array.ofFn fun j : Fin dst.size =>
      if d ≤ j ∧ j < d + n then src.getD (s + (j - d)) dst[j] else dst[j])
  else stuck

theorem copy_of_le {dst src : Array α} {d s n : Nat} (hs : s + n ≤ src.size)
    (hd : d + n ≤ dst.size) : ∃ a, copy dst d src s n = done a ∧ a.size = dst.size ∧
      ∀ j, a[j]? = if d ≤ j ∧ j < d + n then src[s + (j - d)]? else dst[j]? := by
  refine ⟨_, if_pos ⟨hs, hd⟩, Array.size_ofFn, ?_⟩
  intro j
  rw [Array.getElem?_ofFn]
  by_cases hj : j < dst.size
  · rw [dif_pos hj]
    by_cases hin : d ≤ j ∧ j < d + n
    · have hlt : s + (j - d) < src.size := by omega
      rw [if_pos hin, if_pos hin, Array.getD_eq_getD_getElem?, Array.getElem?_eq_getElem hlt]
      rfl
    · rw [if_neg hin, if_neg hin, Array.getElem?_eq_getElem hj]
      rfl
  · rw [dif_neg hj, if_neg (by omega), Array.getElem?_eq_none (by omega)]

/-! ## Loops -/

/-- A loop with a bound on its turns: the body goes on with a new state or leaves the loop
with a result. -/
def loop (body : σ → Outcome (σ ⊕ ρ)) : Nat → σ → Outcome ρ
  | 0, _ => stuck
  | fuel + 1, s =>
    match body s with
    | done (.inl s') => loop body fuel s'
    | done (.inr r) => done r
    | aborted => aborted
    | stuck => stuck

attribute [local simp] loop

/-- One turn of a loop that goes on, leaves or aborts. -/
theorem Returns.loop_succ {body : σ → Outcome (σ ⊕ ρ)} {s : σ} {fuel : Nat} {reason : Prop}
    {P : ρ → Prop} {Q : σ ⊕ ρ → Prop} (h : Returns (body s) reason Q)
    (hgo : ∀ s', Q (.inl s') → Returns (loop body fuel s') reason P)
    (hleave : ∀ r, Q (.inr r) → P r) : Returns (loop body (fuel + 1) s) reason P := by
  rcases h with ⟨hs, hreason⟩ | ⟨x, hs, hx⟩
  · exact Or.inl ⟨by simp only [loop, hs], hreason⟩
  · cases x with
    | inl s' =>
      simp only [loop, hs]
      exact hgo s' hx
    | inr r => exact Or.inr ⟨r, by simp only [loop, hs], hleave r hx⟩

/-- A loop that goes along a path of states and leaves at its end returns what the body
returns there. -/
theorem loop_of_path {body : σ → Outcome (σ ⊕ ρ)} {r : ρ} {d fuel : Nat} (path : Nat → σ)
    (hfuel : d < fuel) (hstep : ∀ j, j < d → body (path j) = done (.inl (path (j + 1))))
    (hend : body (path d) = done (.inr r)) : loop body fuel (path 0) = done r := by
  induction d generalizing fuel path with
  | zero =>
    obtain ⟨m, rfl⟩ : ∃ m, fuel = m + 1 := ⟨fuel - 1, by omega⟩
    simp only [loop, hend]
  | succ d ih =>
    obtain ⟨m, rfl⟩ : ∃ m, fuel = m + 1 := ⟨fuel - 1, by omega⟩
    simp only [loop, hstep 0 (Nat.succ_pos d)]
    exact ih (fun j => path (j + 1)) (by omega) (fun j hj => hstep (j + 1) (by omega)) hend

/-- A loop whose turns keep an invariant leaves with what the invariant gives at its end. -/
theorem loop_of_invariant {body : σ → Outcome (σ ⊕ ρ)} {s : σ} {d fuel : Nat} {P : ρ → Prop}
    (I : Nat → σ → Prop) (hfuel : d < fuel) (hinit : I 0 s)
    (hstep : ∀ j s, j < d → I j s → ∃ s', body s = done (.inl s') ∧ I (j + 1) s')
    (hend : ∀ s, I d s → ∃ r, body s = done (.inr r) ∧ P r) :
    ∃ r, loop body fuel s = done r ∧ P r := by
  induction d generalizing fuel s I with
  | zero =>
    obtain ⟨m, rfl⟩ : ∃ m, fuel = m + 1 := ⟨fuel - 1, by omega⟩
    obtain ⟨r, hr, hP⟩ := hend s hinit
    exact ⟨r, by simp only [loop, hr], hP⟩
  | succ d ih =>
    obtain ⟨m, rfl⟩ : ∃ m, fuel = m + 1 := ⟨fuel - 1, by omega⟩
    obtain ⟨s', hs', hI⟩ := hstep 0 s (Nat.succ_pos d) hinit
    obtain ⟨r, hr, hP⟩ := ih (fun j => I (j + 1)) (show d < m by omega) hI
      (fun j s hj => hstep (j + 1) s (by omega)) hend
    exact ⟨r, by simp only [loop, hs', hr], hP⟩

/-- A loop whose turns keep an invariant or abort, each for a reason. -/
theorem loop_of_invariant_or_aborted {body : σ → Outcome (σ ⊕ ρ)} {s : σ} {d fuel : Nat}
    {P : ρ → Prop} {A : Prop} (I : Nat → σ → Prop) (hfuel : d < fuel) (hinit : I 0 s)
    (hstep : ∀ j s, j < d → I j s →
      (body s = aborted ∧ A) ∨ ∃ s', body s = done (.inl s') ∧ I (j + 1) s')
    (hend : ∀ s, I d s → (body s = aborted ∧ A) ∨ ∃ r, body s = done (.inr r) ∧ P r) :
    (loop body fuel s = aborted ∧ A) ∨ ∃ r, loop body fuel s = done r ∧ P r := by
  induction d generalizing fuel s I with
  | zero =>
    obtain ⟨m, rfl⟩ : ∃ m, fuel = m + 1 := ⟨fuel - 1, by omega⟩
    rcases hend s hinit with ⟨hs, hA⟩ | ⟨r, hr, hP⟩
    · exact Or.inl ⟨by simp only [loop, hs], hA⟩
    · exact Or.inr ⟨r, by simp only [loop, hr], hP⟩
  | succ d ih =>
    obtain ⟨m, rfl⟩ : ∃ m, fuel = m + 1 := ⟨fuel - 1, by omega⟩
    rcases hstep 0 s (Nat.succ_pos d) hinit with ⟨hs, hA⟩ | ⟨s', hs', hI⟩
    · exact Or.inl ⟨by simp only [loop, hs], hA⟩
    · rcases ih (fun j => I (j + 1)) (show d < m by omega) hI
        (fun j s hj => hstep (j + 1) s (by omega)) hend with ⟨hrun, hA⟩ | ⟨r, hr, hP⟩
      · exact Or.inl ⟨by simp only [loop, hs', hrun], hA⟩
      · exact Or.inr ⟨r, by simp only [loop, hs', hr], hP⟩

/-- A loop whose turns keep an invariant and bring a measure down, or get stuck for a reason. -/
theorem loop_of_measure_or_stuck {body : σ → Outcome (σ ⊕ ρ)} {s : σ} {fuel : Nat}
    {P : ρ → Prop} {B : Prop} (I : σ → Prop) (m : σ → Nat) (hfuel : m s < fuel) (hinit : I s)
    (hstep : ∀ s, I s → (∃ s', body s = done (.inl s') ∧ I s' ∧ m s' < m s) ∨
      (∃ r, body s = done (.inr r) ∧ P r) ∨ body s = stuck ∧ B) :
    (∃ r, loop body fuel s = done r ∧ P r) ∨ loop body fuel s = stuck ∧ B := by
  induction fuel generalizing s with
  | zero => exact absurd hfuel (Nat.not_lt_zero _)
  | succ fuel ih =>
    rcases hstep s hinit with ⟨s', hs', hI, hm⟩ | ⟨r, hr, hP⟩ | ⟨hs, hB⟩
    · rcases ih (by omega) hI with ⟨r, hr, hP⟩ | ⟨hrun, hB⟩
      · exact Or.inl ⟨r, by simp only [loop, hs', hr], hP⟩
      · exact Or.inr ⟨by simp only [loop, hs', hrun], hB⟩
    · exact Or.inl ⟨r, by simp only [loop, hr], hP⟩
    · exact Or.inr ⟨by simp only [loop, hs], hB⟩

/-- A loop whose turns keep an invariant and bring a measure down. -/
theorem loop_of_measure {body : σ → Outcome (σ ⊕ ρ)} {s : σ} {fuel : Nat} {P : ρ → Prop}
    (I : σ → Prop) (m : σ → Nat) (hfuel : m s < fuel) (hinit : I s)
    (hstep : ∀ s, I s → (∃ s', body s = done (.inl s') ∧ I s' ∧ m s' < m s) ∨
      ∃ r, body s = done (.inr r) ∧ P r) :
    ∃ r, loop body fuel s = done r ∧ P r := by
  rcases loop_of_measure_or_stuck (B := False) I m hfuel hinit
    fun s hs => (hstep s hs).imp_right Or.inl with hdone | ⟨-, hno⟩
  · exact hdone
  · exact hno.elim

/-- What a loop leaves with, where its turns keep an invariant. -/
theorem loop_keeps {body : σ → Outcome (σ ⊕ ρ)} {s : σ} {r : ρ} {fuel : Nat} {P : ρ → Prop}
    (I : σ → Prop) (hinit : I s) (hstep : ∀ s s', I s → body s = done (.inl s') → I s')
    (hend : ∀ s r, I s → body s = done (.inr r) → P r) (hrun : loop body fuel s = done r) :
    P r := by
  induction fuel generalizing s with
  | zero => cases hrun
  | succ fuel ih =>
    rw [loop] at hrun
    cases hbody : body s with
    | done x =>
      rw [hbody] at hrun
      cases x with
      | inl s' => exact ih (hstep s s' hinit hbody) hrun
      | inr r' =>
        cases hrun
        exact hend s r hinit hbody
    | aborted =>
      rw [hbody] at hrun
      cases hrun
    | stuck =>
      rw [hbody] at hrun
      cases hrun

/-- A loop whose turns only go on, until one gets stuck. -/
theorem loop_of_stuck {body : σ → Outcome (σ ⊕ ρ)} {s : σ} (I : σ → Prop) (hinit : I s)
    (hstep : ∀ s, I s → body s = stuck ∨ ∃ s', body s = done (.inl s') ∧ I s') (fuel : Nat) :
    loop body fuel s = stuck := by
  induction fuel generalizing s with
  | zero => rfl
  | succ fuel ih =>
    rcases hstep s hinit with hs | ⟨s', hs', hI⟩
    · simp only [loop, hs]
    · simp only [loop, hs']
      exact ih hI

/-- `for (i = 0; i < n; i++)`. -/
def forRange (f : Nat → σ → Outcome σ) : Nat → σ → Outcome σ
  | 0, s => done s
  | n + 1, s => do f n (← forRange f n s)

/-- What every turn keeps holds at the end. -/
theorem forRange_of_step {f : Nat → σ → Outcome σ} {n : Nat} {s : σ} (P : Nat → σ → Prop)
    (hinit : P 0 s) (hstep : ∀ i s, i < n → P i s → ∃ s', f i s = done s' ∧ P (i + 1) s') :
    ∃ s', forRange f n s = done s' ∧ P n s' := by
  induction n with
  | zero => exact ⟨s, rfl, hinit⟩
  | succ n ih =>
    obtain ⟨s₁, hs₁, hP₁⟩ := ih fun i s hi => hstep i s (by omega)
    obtain ⟨s₂, hs₂, hP₂⟩ := hstep n s₁ (Nat.lt_succ_self n) hP₁
    refine ⟨s₂, ?_, hP₂⟩
    simp only [forRange, hs₁, done_bind, hs₂]

/-- What every turn that returns keeps holds at the end. -/
theorem forRange_keeps {f : Nat → σ → Outcome σ} {n : Nat} {s s' : σ} (P : Nat → σ → Prop)
    (hinit : P 0 s) (hstep : ∀ i s s', i < n → P i s → f i s = done s' → P (i + 1) s')
    (hrun : forRange f n s = done s') : P n s' := by
  induction n generalizing s' with
  | zero =>
    cases hrun
    exact hinit
  | succ n ih =>
    obtain ⟨s₁, hs₁, hrun⟩ := bind_eq_done hrun
    exact hstep n s₁ s' (Nat.lt_succ_self n)
      (ih (fun i s s' hi => hstep i s s' (by omega)) hs₁) hrun

/-- A scan for the first of the least values below a bound, among the ones looked at. -/
theorem forRange_least {f : Nat → Option Nat × Int → Outcome (Option Nat × Int)} {n : Nat}
    {top : Int} (val : Nat → Int) (Out : Nat → Prop)
    (hin : ∀ i p, i < n → p.2 ≤ top → Out i → val i < p.2 → f i p = done (some i, val i))
    (hout : ∀ i p, i < n → p.2 ≤ top → ¬ (Out i ∧ val i < p.2) → f i p = done p) :
    ∃ p, forRange f n (none, top) = done p ∧
      (p.1 = none ∧ (∀ v < n, Out v → top ≤ val v) ∨
        ∃ u, p = (some u, val u) ∧ u < n ∧ Out u ∧ val u < top ∧
          ∀ v < n, Out v → val u < val v ∨ val u = val v ∧ u ≤ v) := by
  obtain ⟨p, hrun, -, hp⟩ := forRange_of_step (n := n) (f := f) (s := (none, top))
    (fun i p => p.2 ≤ top ∧ (p = (none, top) ∧ (∀ v < i, Out v → top ≤ val v) ∨
      ∃ u, p = (some u, val u) ∧ u < i ∧ Out u ∧ val u < top ∧
        ∀ v < i, Out v → val u < val v ∨ val u = val v ∧ u ≤ v))
    ⟨Int.le_refl _, Or.inl ⟨rfl, nofun⟩⟩ (by
      rintro i p hi ⟨htop, hp⟩
      by_cases hless : Out i ∧ val i < p.2
      · refine ⟨_, hin i p hi htop hless.1 hless.2, by simp only; omega,
          Or.inr ⟨i, rfl, Nat.lt_succ_self i, hless.1, by omega, fun v hv hv' => ?_⟩⟩
        by_cases hvi : v = i
        · subst hvi
          exact Or.inr ⟨rfl, Nat.le_refl v⟩
        · rcases hp with ⟨rfl, hall⟩ | ⟨u, rfl, -, -, -, hall⟩
          · have hle := hall v (by omega) hv'
            simp only at hless
            omega
          · have hle := hall v (by omega) hv'
            simp only at hless
            omega
      · refine ⟨p, hout i p hi htop hless, htop, ?_⟩
        rcases hp with ⟨rfl, hall⟩ | ⟨u, rfl, hu, hu', hlt, hall⟩
        · refine Or.inl ⟨rfl, fun v hv hv' => ?_⟩
          by_cases hvi : v = i
          · subst hvi
            exact Int.not_lt.mp fun hlt => hless ⟨hv', hlt⟩
          · exact hall v (by omega) hv'
        · refine Or.inr ⟨u, rfl, by omega, hu', hlt, fun v hv hv' => ?_⟩
          by_cases hvi : v = i
          · subst hvi
            have hge : ¬ val v < val u := fun hlt => hless ⟨hv', hlt⟩
            omega
          · exact hall v (by omega) hv')
  rcases hp with ⟨rfl, hall⟩ | ⟨u, rfl, hu⟩
  · exact ⟨_, hrun, Or.inl ⟨rfl, hall⟩⟩
  · exact ⟨_, hrun, Or.inr ⟨u, rfl, hu⟩⟩

/-- A loop whose turns do not abort does not. -/
theorem forRange_ne_aborted {f : Nat → σ → Outcome σ} {n : Nat} {s : σ}
    (h : ∀ i s, f i s ≠ aborted) : forRange f n s ≠ aborted := by
  induction n with
  | zero => exact nofun
  | succ n ih =>
    intro hrun
    rcases bind_eq_aborted hrun with hrun | ⟨s', -, hrun⟩
    · exact ih hrun
    · exact h n s' hrun

theorem read_ne_aborted (a : Array α) (i : Nat) : read a i ≠ aborted := by
  unfold read
  split <;> exact nofun

theorem write_ne_aborted (a : Array α) (i : Nat) (x : α) : write a i x ≠ aborted := by
  unfold write
  split <;> exact nofun

theorem write_eq_done {a a' : Array α} {i : Nat} {x : α} (h : write a i x = done a') :
    i < a.size ∧ a' = a.setIfInBounds i x := by
  unfold write at h
  split at h
  · next hi =>
    cases h
    exact ⟨hi, rfl⟩
  · cases h

end Outcome

/-- `malloc`, `calloc` and `realloc` under a heap that grants or refuses a request by its
size; no request above `PTRDIFF_MAX` bytes is granted. -/
def malloc (heap : Nat → Bool) (bytes : Nat) : Bool := heap bytes && decide (bytes < 2 ^ 63)

/-- A request for memory is granted or refused. -/
theorem malloc_cases (heap : Nat → Bool) (n : Nat) :
    malloc heap n = false ∨ malloc heap n = true ∧ n < 2 ^ 63 := by
  unfold malloc
  cases heap n with
  | false => exact Or.inl rfl
  | true =>
    by_cases hn : n < 2 ^ 63
    · exact Or.inr ⟨by rw [Bool.true_and, decide_eq_true hn], hn⟩
    · exact Or.inl (by rw [Bool.true_and, decide_eq_false hn])

/-- A heap that refuses nothing by itself. -/
theorem malloc_granted {n : Nat} (h : n < 2 ^ 63) : malloc (fun _ => true) n = true := by
  unfold malloc
  rw [Bool.true_and, decide_eq_true h]

/-! ## Runs against a specification -/

section Runs

variable {σ τ ι ρ : Type} (step : σ → ι → Outcome (ρ × σ)) (spec : τ → ι → Option (ρ × τ))
  (refused : σ → ι → Prop)

/-- One operation against its specification: it returns what the specification returns,
and aborts only where the specification has no result or a request for memory is refused.
`Rel` is what holds of the states afterwards. -/
def StepRefines (Rel : σ → τ → Prop) (s : σ) (t : τ) (i : ι) : Prop :=
  match step s i, spec t i with
  | .done (r, s'), some (r', t') => r = r' ∧ Rel s' t'
  | .aborted, none => True
  | .aborted, some _ => refused s i
  | _, _ => False

/-- The run of a sequence of operations against the run of their specification, up to its
end or the first abort. -/
def RunRefines : List ι → σ → τ → Prop
  | [], _, _ => True
  | i :: is, s, t => StepRefines step spec refused (RunRefines is) s t i

/-- The states a run comes to. -/
inductive Reached (s : σ) : σ → Prop
  | start : Reached s s
  | step {s' s'' : σ} {i : ι} {r : ρ} : Reached s s' → step s' i = .done (r, s'') → Reached s s''

variable {step spec refused}

/-- A relation every operation keeps holds of every state a run comes to. -/
theorem Reached.rel {Rel : σ → τ → Prop}
    (hstep : ∀ s t i, Rel s t → StepRefines step spec refused Rel s t i) {s s' : σ} {t : τ}
    (h : Rel s t) (hr : Reached step s s') : ∃ t', Rel s' t' := by
  induction hr with
  | start => exact ⟨t, h⟩
  | @step s' s'' i r _ hrun ih =>
    obtain ⟨t', hrel⟩ := ih
    have key := hstep s' t' i hrel
    unfold StepRefines at key
    rw [hrun] at key
    cases hspec : spec t' i with
    | none =>
      rw [hspec] at key
      exact key.elim
    | some x =>
      rw [hspec] at key
      exact ⟨x.2, key.2⟩

variable (step spec) in
/-- Every operation of a run meets a condition on the specification's state before it. -/
def RunMeets (Ok : τ → ι → Prop) : List ι → τ → Prop
  | [], _ => True
  | i :: is, t => Ok t i ∧ ∀ r t', spec t i = some (r, t') → RunMeets Ok is t'

variable (step) in
/-- Every operation of a run meets a condition on the state of the code before it. -/
def RunAllows (Ok : σ → ι → Prop) : List ι → σ → Prop
  | [], _ => True
  | i :: is, s => Ok s i ∧ ∀ r s', step s i = .done (r, s') → RunAllows Ok is s'

theorem runAllows_of_all {Ok : σ → ι → Prop} (h : ∀ s i, Ok s i) (is : List ι) (s : σ) :
    RunAllows step Ok is s := by
  induction is generalizing s with
  | nil => trivial
  | cons i is ih => exact ⟨h s i, fun _ s' _ => ih s'⟩

variable (step) in
/-- Every state of a run satisfies a condition. -/
def RunKeeps (Inv : σ → Prop) : List ι → σ → Prop
  | [], s => Inv s
  | i :: is, s => Inv s ∧ ∀ r s', step s i = .done (r, s') → RunKeeps Inv is s'

theorem StepRefines.mono {Rel Rel' : σ → τ → Prop} (hrel : ∀ s t, Rel s t → Rel' s t) {s : σ}
    {t : τ} {i : ι} (h : StepRefines step spec refused Rel s t i) :
    StepRefines step spec refused Rel' s t i := by
  unfold StepRefines at h ⊢
  split at h
  · exact ⟨h.1, hrel _ _ h.2⟩
  · trivial
  · exact h
  · exact h.elim

/-- A relation every operation keeps carries a whole run. -/
theorem runRefines_of_step {Rel : σ → τ → Prop}
    (hstep : ∀ s t i, Rel s t → StepRefines step spec refused Rel s t i) (is : List ι) {s : σ}
    {t : τ} (h : Rel s t) : RunRefines step spec refused is s t := by
  induction is generalizing s t with
  | nil => trivial
  | cons i is ih => exact (hstep s t i h).mono fun _ _ => ih

/-- A relation kept by the operations that meet a condition carries a run in which all do,
and its states satisfy what the relation gives. `Q` says of a run that all do. -/
theorem runRefines_of_ok {Rel : σ → τ → Prop} {Ok : σ → τ → ι → Prop} {Inv : σ → Prop}
    (Q : List ι → σ → τ → Prop)
    (hQ : ∀ i is s t, Q (i :: is) s t → Ok s t i ∧
      ∀ r s' t', step s i = .done (r, s') → spec t i = some (r, t') → Q is s' t')
    (hstep : ∀ s t i, Rel s t → Ok s t i → StepRefines step spec refused Rel s t i)
    (hinv : ∀ s t, Rel s t → Inv s) (is : List ι) {s : σ} {t : τ} (h : Rel s t)
    (hrun : Q is s t) :
    RunRefines step spec refused is s t ∧ RunKeeps step Inv is s := by
  induction is generalizing s t with
  | nil => exact ⟨trivial, hinv s t h⟩
  | cons i is ih =>
    obtain ⟨hok, hrest⟩ := hQ i is s t hrun
    have key := hstep s t i h hok
    unfold RunRefines RunKeeps
    unfold StepRefines at key ⊢
    cases hs : step s i with
    | done x =>
      obtain ⟨r, s'⟩ := x
      rw [hs] at key
      cases ht : spec t i with
      | none =>
        rw [ht] at key
        exact key.elim
      | some y =>
        obtain ⟨r', t'⟩ := y
        rw [ht] at key
        obtain ⟨hr, hrel⟩ := key
        obtain ⟨hrun, hkeep⟩ := ih hrel (hrest r s' t' hs (hr ▸ ht))
        refine ⟨⟨hr, hrun⟩, hinv s t h, ?_⟩
        rintro _ _ ⟨⟩
        exact hkeep
    | aborted =>
      rw [hs] at key
      refine ⟨?_, hinv s t h, fun _ _ hd => by cases hd⟩
      cases ht : spec t i with
      | none => trivial
      | some y =>
        rw [ht] at key
        exact key
    | stuck =>
      rw [hs] at key
      exact key.elim

/-- The condition is on the specification's state. -/
theorem runRefines_of_meets {Rel : σ → τ → Prop} {Ok : τ → ι → Prop} {Inv : σ → Prop}
    (hstep : ∀ s t i, Rel s t → Ok t i → StepRefines step spec refused Rel s t i)
    (hinv : ∀ s t, Rel s t → Inv s) (is : List ι) {s : σ} {t : τ} (h : Rel s t)
    (hmeets : RunMeets spec Ok is t) :
    RunRefines step spec refused is s t ∧ RunKeeps step Inv is s :=
  runRefines_of_ok (fun is _ t => RunMeets spec Ok is t)
    (fun _ _ _ _ hQ => ⟨hQ.1, fun r _ t' _ ht => hQ.2 r t' ht⟩) hstep hinv is h hmeets

/-- The condition is on the state of the code. -/
theorem runRefines_of_allows {Rel : σ → τ → Prop} {Ok : σ → ι → Prop} {Inv : σ → Prop}
    (hstep : ∀ s t i, Rel s t → Ok s i → StepRefines step spec refused Rel s t i)
    (hinv : ∀ s t, Rel s t → Inv s) (is : List ι) {s : σ} {t : τ} (h : Rel s t)
    (hallows : RunAllows step Ok is s) :
    RunRefines step spec refused is s t ∧ RunKeeps step Inv is s :=
  runRefines_of_ok (fun is s _ => RunAllows step Ok is s)
    (fun _ _ _ _ hQ => ⟨hQ.1, fun r s' _ hs _ => hQ.2 r s' hs⟩) hstep hinv is h hallows

variable (step spec) in
/-- The states of the code and of the specification are related all along a run. -/
def RunRelates (Rel : σ → τ → Prop) : List ι → σ → τ → Prop
  | [], s, t => Rel s t
  | i :: is, s, t => Rel s t ∧ ∀ r s' t', step s i = .done (r, s') →
      spec t i = some (r, t') → RunRelates Rel is s' t'

/-- A relation kept by the operations that meet a condition gives another one all along a run
in which all do. -/
theorem runRelates_of_allows {Rel Inv : σ → τ → Prop} {Ok : σ → ι → Prop}
    (hstep : ∀ s t i, Rel s t → Ok s i → StepRefines step spec refused Rel s t i)
    (hinv : ∀ s t, Rel s t → Inv s t) (is : List ι) {s : σ} {t : τ} (h : Rel s t)
    (hallows : RunAllows step Ok is s) : RunRelates step spec Inv is s t := by
  induction is generalizing s t with
  | nil => exact hinv s t h
  | cons i is ih =>
    obtain ⟨hok, hrest⟩ := hallows
    refine ⟨hinv s t h, fun r s' t' hs ht => ih ?_ (hrest r s' hs)⟩
    have key := hstep s t i h hok
    unfold StepRefines at key
    rw [hs, ht] at key
    exact key.2

theorem stepRefines_done {Rel : σ → τ → Prop} {s s' : σ} {t u : τ} {i : ι} {r : ρ}
    (hs : step s i = .done (r, s')) (ht : spec t i = some (r, u)) (hrel : Rel s' u) :
    StepRefines step spec refused Rel s t i := by
  unfold StepRefines
  rw [hs, ht]
  exact ⟨rfl, hrel⟩

theorem stepRefines_aborted {Rel : σ → τ → Prop} {s : σ} {t : τ} {i : ι}
    (hs : step s i = .aborted) (ht : spec t i = none) :
    StepRefines step spec refused Rel s t i := by
  unfold StepRefines
  rw [hs, ht]
  trivial

theorem stepRefines_refused {Rel : σ → τ → Prop} {s : σ} {t : τ} {i : ι}
    (hs : step s i = .aborted) (href : refused s i) :
    StepRefines step spec refused Rel s t i := by
  unfold StepRefines
  rw [hs]
  cases spec t i with
  | none => trivial
  | some x => exact href

end Runs

/-! ## Runs against a relation -/

section Relation

variable {σ τ ι ρ : Type} (step : σ → ι → Outcome (ρ × σ)) (spec : τ → ι → ρ → τ → Prop)
  (refused : σ → ι → Prop)

/-- One operation against a relation that allows it some results: it returns one of them,
and aborts only where a request for memory is refused. -/
def StepSatisfies (Rel : σ → τ → Prop) (s : σ) (t : τ) (i : ι) : Prop :=
  match step s i with
  | .done (r, s') => ∃ t', spec t i r t' ∧ Rel s' t'
  | .aborted => refused s i
  | .stuck => False

/-- The run of a sequence of operations against a relation, up to its end or the first
abort. -/
def RunSatisfies : List ι → σ → τ → Prop
  | [], _, _ => True
  | i :: is, s, t => StepSatisfies step spec refused (RunSatisfies is) s t i

variable {step spec refused}

/-- A relation kept by the operations that the state allows carries a run in which it allows
all, and the states of the run satisfy what the relation gives. -/
theorem runSatisfies_of_allows {Rel : σ → τ → Prop} {Ok : σ → ι → Prop} {Inv : σ → Prop}
    (hstep : ∀ s t i, Rel s t → Ok s i → StepSatisfies step spec refused Rel s t i)
    (hinv : ∀ s t, Rel s t → Inv s) (is : List ι) {s : σ} {t : τ} (h : Rel s t)
    (hallows : RunAllows step Ok is s) :
    RunSatisfies step spec refused is s t ∧ RunKeeps step Inv is s := by
  induction is generalizing s t with
  | nil => exact ⟨trivial, hinv s t h⟩
  | cons i is ih =>
    obtain ⟨hok, hrest⟩ := hallows
    have key := hstep s t i h hok
    unfold RunSatisfies RunKeeps
    unfold StepSatisfies at key ⊢
    cases hs : step s i with
    | done x =>
      rw [hs] at key
      obtain ⟨t', hspec, hrel⟩ := key
      obtain ⟨hrun, hkeep⟩ := ih hrel (hrest x.1 x.2 hs)
      refine ⟨⟨t', hspec, hrun⟩, hinv s t h, ?_⟩
      rintro _ _ ⟨⟩
      exact hkeep
    | aborted =>
      rw [hs] at key
      exact ⟨key, hinv s t h, fun _ _ hd => by cases hd⟩
    | stuck =>
      rw [hs] at key
      exact key.elim

theorem stepSatisfies_done {Rel : σ → τ → Prop} {s s' : σ} {t u : τ} {i : ι} {r : ρ}
    (hs : step s i = .done (r, s')) (ht : spec t i r u) (hrel : Rel s' u) :
    StepSatisfies step spec refused Rel s t i := by
  unfold StepSatisfies
  rw [hs]
  exact ⟨u, ht, hrel⟩

theorem stepSatisfies_refused {Rel : σ → τ → Prop} {s : σ} {t : τ} {i : ι}
    (hs : step s i = .aborted) (href : refused s i) :
    StepSatisfies step spec refused Rel s t i := by
  unfold StepSatisfies
  rw [hs]
  exact href

end Relation

end Vani.Library
