import Mathlib.Data.List.Nodup
import Mathlib.Data.List.Perm.Subperm

/-!
# Futexes

A word of 32 bits on which threads sleep in the kernel. `wait` compares the word and sleeps
in one step; `wake` wakes a number of the sleepers, and which they are is the kernel's choice.
-/

set_option autoImplicit false

namespace Vani.Library

/-- A word, and the threads that sleep on it. -/
structure Futex (T : Type) where
  word : Int32
  sleepers : List T

namespace Futex

variable {T : Type}

/-- `t` sleeps, or the word is not the expected one. -/
def wait (f : Futex T) (t : T) (expected : Int32) : Option (Futex T) :=
  if f.word = expected then some { f with sleepers := f.sleepers ++ [t] } else none

/-- `t` sleeps no more. -/
def leave [DecidableEq T] (f : Futex T) (t : T) : Futex T :=
  { f with sleepers := f.sleepers.filter fun u => u ≠ t }

/-- `woken` is a choice of `n` sleepers, or of all where fewer sleep. -/
def wake [DecidableEq T] (f : Futex T) (n : Nat) (woken : List T) : Option (Futex T) :=
  if woken.Nodup ∧ (∀ u ∈ woken, u ∈ f.sleepers) ∧
      woken.length = min n f.sleepers.length then
    some { f with sleepers := f.sleepers.filter fun u => u ∉ woken }
  else none

/-- The sleepers are the threads at a point of their code. -/
structure Parked (f : Futex T) (asleep : T → Prop) : Prop where
  nodup : f.sleepers.Nodup
  mem_iff : ∀ t, t ∈ f.sleepers ↔ asleep t

section

variable {f f' : Futex T} {t : T} {expected : Int32} {n : Nat} {woken : List T}
  {asleep : T → Prop}

theorem wait_eq_some (h : f.wait t expected = some f') :
    f.word = expected ∧ f' = { f with sleepers := f.sleepers ++ [t] } := by
  unfold wait at h
  split at h
  · next hw => exact ⟨hw, (Option.some.inj h).symm⟩
  · cases h

theorem wait_eq_none (h : f.wait t expected = none) : f.word ≠ expected := by
  intro hw
  unfold wait at h
  rw [if_pos hw] at h
  cases h

theorem Parked.congr (hp : f.Parked asleep) {asleep' : T → Prop} (hs : f'.sleepers = f.sleepers)
    (h : ∀ t, asleep' t ↔ asleep t) : f'.Parked asleep' := by
  constructor
  · rw [hs]
    exact hp.nodup
  · intro t
    rw [hs, hp.mem_iff, h]

variable [DecidableEq T]

theorem wake_eq_some (h : f.wake n woken = some f') :
    woken.Nodup ∧ (∀ u ∈ woken, u ∈ f.sleepers) ∧ woken.length = min n f.sleepers.length ∧
      f' = { f with sleepers := f.sleepers.filter fun u => u ∉ woken } := by
  unfold wake at h
  split at h
  · next hw => exact ⟨hw.1, hw.2.1, hw.2.2, (Option.some.inj h).symm⟩
  · cases h

/-- Where no more than `n` sleep, all are woken. -/
theorem wake_all (h : f.wake n woken = some f') (hn : f.sleepers.length ≤ n) :
    ∀ u ∈ f.sleepers, u ∈ woken := by
  obtain ⟨hnodup, hsub, hlen, -⟩ := wake_eq_some h
  intro u hu
  have hperm : woken.Perm f.sleepers := by
    apply List.Subperm.perm_of_length_le
    · exact List.subperm_of_subset hnodup hsub
    · omega
  exact hperm.mem_iff.mpr hu

/-- Someone is woken, if anyone sleeps. -/
theorem exists_woken (h : f.wake n woken = some f') (hn : 0 < n) (ht : t ∈ f.sleepers) :
    ∃ u ∈ f.sleepers, u ∈ woken := by
  obtain ⟨-, hsub, hlen, -⟩ := wake_eq_some h
  have hpos : 0 < f.sleepers.length := List.length_pos_of_mem ht
  obtain ⟨u, hu⟩ := List.exists_mem_of_length_pos (l := woken) (by omega)
  exact ⟨u, hsub u hu, hu⟩

namespace Parked

omit [DecidableEq T] in
theorem wait (hp : f.Parked asleep) (ht : ¬ asleep t) {asleep' : T → Prop}
    (h : f.wait t expected = some f') (ha : ∀ u, asleep' u ↔ asleep u ∨ u = t) :
    f'.Parked asleep' := by
  obtain ⟨-, rfl⟩ := wait_eq_some h
  constructor
  · apply List.Nodup.append hp.nodup (List.nodup_singleton t)
    intro u hu hut
    obtain rfl := List.mem_singleton.mp hut
    exact ht ((hp.mem_iff u).mp hu)
  · intro u
    rw [List.mem_append, List.mem_singleton, hp.mem_iff, ha]

theorem leave (hp : f.Parked asleep) {asleep' : T → Prop}
    (ha : ∀ u, asleep' u ↔ asleep u ∧ u ≠ t) : (f.leave t).Parked asleep' := by
  constructor
  · exact hp.nodup.filter _
  · intro u
    unfold Futex.leave
    rw [List.mem_filter, hp.mem_iff, ha, decide_eq_true_iff]

theorem wake (hp : f.Parked asleep) {asleep' : T → Prop} (h : f.wake n woken = some f')
    (ha : ∀ u, asleep' u ↔ asleep u ∧ u ∉ woken) : f'.Parked asleep' := by
  obtain ⟨-, -, -, rfl⟩ := wake_eq_some h
  constructor
  · exact hp.nodup.filter _
  · intro u
    rw [List.mem_filter, hp.mem_iff, ha, decide_eq_true_iff]

end Parked

end

end Futex

end Vani.Library
