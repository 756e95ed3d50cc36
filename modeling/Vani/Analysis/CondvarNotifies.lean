import Vani.Backend.Condvar
import Vani.Analysis.MutexSafety

/-!
# The condition variable wakes its waiters

The notifies are counted beside the run, without the wrap of the counter. A waiter sleeps
only if no notify came since its snapshot, so those who sleep at a notify slept before it,
and its wake-up goes to them. Two things can go wrong: 2^32 notifies bring the counter back
to the snapshot, and the one wake-up of a `notify_one` can go to a waiter that began to wait
between the increment and the wake-up.
-/

set_option autoImplicit false

namespace Vani.Analysis

open Vani.Library Vani.Backend Vani.Backend.Condvar

variable {T : Type}

/-! ## The count of notifies -/

/-- What has been seen of a run: how many notifies there were, how many there had been at the
latest snapshot of a thread, and the number of the latest notify of a thread. -/
structure Notifies (T : Type) where
  issued : Nat
  since : T → Nat
  number : T → Nat

def noNotifies (T : Type) : Notifies T := ⟨0, fun _ => 0, fun _ => 0⟩

section

variable [DecidableEq T]

/-- What a step adds. -/
def Notifies.record (h : Notifies T) (s : Condvar.State T) : Condvar.Action T → Notifies T
  | .step t =>
    match s.waits t with
    | .snapshot _ => { h with since := Function.update h.since t h.issued }
    | .notify _ =>
      { h with issued := h.issued + 1, number := Function.update h.number t (h.issued + 1) }
    | _ => h
  | _ => h

/-- A step, and what has been seen. -/
def observe (x : Condvar.State T × Notifies T) (a : Condvar.Action T) :
    Option (Condvar.State T × Notifies T) :=
  match Condvar.step x.1 a with
  | some s => some (s, x.2.record x.1 a)
  | none => none

end

/-- The snapshot that a waiter holds. -/
def snapshotOf : Wait → Option Int32
  | .unlock snapshot _ | .park snapshot _ | .asleep snapshot _ | .returned _ snapshot _ =>
    some snapshot
  | _ => none

def isAsleep : Wait → Bool
  | .asleep _ _ => true
  | _ => false

def isWaking : Wait → Bool
  | .wake _ => true
  | _ => false

/-- What holds between the steps. -/
structure CondvarOk (s : Condvar.State T) (h : Notifies T) : Prop where
  lock : MutexOk s.lock
  parked : s.seq.Parked fun t => isAsleep (s.waits t) = true
  word : s.seq.word = Int32.ofNat h.issued
  since : ∀ t, h.since t ≤ h.issued
  snapshot : ∀ t snapshot, snapshotOf (s.waits t) = some snapshot →
    snapshot = Int32.ofNat (h.since t)
  number : ∀ n, isWaking (s.waits n) = true → h.number n ≤ h.issued
  held : ∀ n, isWaking (s.waits n) = true → s.lock.threads n = .holding →
    ∀ t, h.since t < h.number n

variable {s s' : Condvar.State T} {h h' : Notifies T} {t n : T}

namespace CondvarOk

/-- A step that touches neither the counter nor the sleepers, and takes no snapshot. -/
theorem quiet (ok : CondvarOk s h) (hseq : s'.seq = s.seq) (hlock : MutexOk s'.lock)
    (hasleep : ∀ u, isAsleep (s'.waits u) = isAsleep (s.waits u))
    (hwaking : ∀ u, isWaking (s'.waits u) = true → isWaking (s.waits u) = true)
    (hsnapshot : ∀ u x, snapshotOf (s'.waits u) = some x → snapshotOf (s.waits u) = some x)
    (hheld : ∀ u, isWaking (s.waits u) = true → s'.lock.threads u = .holding →
      s.lock.threads u = .holding) : CondvarOk s' h := by
  constructor
  · exact hlock
  · rw [hseq]
    apply ok.parked.congr rfl
    intro u
    rw [hasleep u]
  · rw [hseq]
    exact ok.word
  · exact ok.since
  · intro u x hx
    exact ok.snapshot u x (hsnapshot u x hx)
  · intro u hu
    exact ok.number u (hwaking u hu)
  · intro u hu hholds
    exact ok.held u (hwaking u hu) (hheld u (hwaking u hu) hholds)

variable [DecidableEq T]

/-- Such a step of one thread, which may take the mutex along. -/
theorem goes (ok : CondvarOk s h) {w w' : Wait} {lock : Mutex.State T} (hw : s.waits t = w)
    (hlock : MutexOk lock)
    (hothers : ∀ u, u ≠ t → lock.threads u = s.lock.threads u ∨ lock.threads u = .retry true)
    (hasleep : isAsleep w' = isAsleep w) (hwaking : isWaking w = false ∧ isWaking w' = false)
    (hsnapshot : ∀ x, snapshotOf w' = some x → snapshotOf w = some x) :
    CondvarOk { s.goes t w' with lock } h := by
  subst hw
  refine ok.quiet rfl hlock ?_ ?_ ?_ ?_
  · exact Function.forall_update_iff _ (p := fun u v => isAsleep v = isAsleep (s.waits u))
      |>.mpr ⟨hasleep, fun _ _ => rfl⟩
  · exact Function.forall_update_iff _
      (p := fun u v => isWaking v = true → isWaking (s.waits u) = true)
      |>.mpr ⟨fun hw => absurd hw (by simp [hwaking.2]), fun _ _ hw => hw⟩
  · exact Function.forall_update_iff _
      (p := fun u v => ∀ x, snapshotOf v = some x → snapshotOf (s.waits u) = some x)
      |>.mpr ⟨hsnapshot, fun _ _ _ hx => hx⟩
  · intro u hu hholds
    have hut : u ≠ t := by
      intro hut
      rw [hut, hwaking.1] at hu
      cases hu
    obtain hsame | hretry := hothers u hut
    · rw [← hsame]
      exact hholds
    · rw [hretry] at hholds
      cases hholds

/-- The waiter that takes its snapshot holds the lock, so no notifier that holds it is under
way. -/
theorem snapshots (ok : CondvarOk s h) {timed : Bool} {lock : Mutex.State T}
    (hw : s.waits t = .snapshot timed) (hlock : Mutex.step s.lock (.unlock t) = some lock) :
    CondvarOk { s.goes t (.unlock s.seq.word timed) with lock }
      { h with since := Function.update h.since t h.issued } := by
  have hholds : s.lock.threads t = .holding := by
    simp only [Mutex.step] at hlock
    split at hlock
    · next hp => exact hp
    · cases hlock
  constructor
  · exact ok.lock.step hlock
  · apply ok.parked.congr rfl
    exact Function.forall_update_iff _
      (p := fun u v => isAsleep v = true ↔ isAsleep (s.waits u) = true)
      |>.mpr ⟨by rw [hw]; rfl, fun _ _ => Iff.rfl⟩
  · exact ok.word
  · exact Function.forall_update_iff _ (p := fun _ v => v ≤ h.issued)
      |>.mpr ⟨Nat.le_refl _, fun u _ => ok.since u⟩
  · intro u x hx
    by_cases hu : u = t
    · subst hu
      simp only [State.goes, Function.update_self] at hx ⊢
      rw [← ok.word]
      exact (Option.some.inj hx).symm
    · simp only [State.goes, Function.update_of_ne hu] at hx ⊢
      exact ok.snapshot u x hx
  · intro u hu
    by_cases hut : u = t
    · subst hut
      simp [State.goes, isWaking] at hu
    · simp only [State.goes, Function.update_of_ne hut] at hu
      exact ok.number u hu
  · intro u hu hul
    have hut : u ≠ t := by
      rintro rfl
      simp [State.goes, isWaking] at hu
    simp only [State.goes, Function.update_of_ne hut] at hu
    have hsame : s.lock.threads u = .holding := by
      obtain hsame | hretry := mutex_step_others hut hlock
      · rw [← hsame]
        exact hul
      · rw [show lock.threads u = .holding from hul] at hretry
        cases hretry
    exact absurd (ok.lock.exclusive u t (by rw [hsame]; rfl) (by rw [hholds]; rfl)) hut

/-- A waiter goes to sleep if the counter has its snapshot. -/
theorem parks (ok : CondvarOk s h) {x : Int32} {timed : Bool} {f : Futex T}
    (hw : s.waits t = .park x timed) (hf : s.seq.wait t x = some f) :
    CondvarOk { s.goes t (.asleep x timed) with seq := f } h := by
  have hword : f.word = s.seq.word := by
    obtain ⟨-, rfl⟩ := Futex.wait_eq_some hf
    rfl
  constructor
  · exact ok.lock
  · apply ok.parked.wait (by rw [hw]; simp [isAsleep]) hf
    intro u
    by_cases hu : u = t
    · simp [hu, State.goes, isAsleep]
    · simp [hu, State.goes]
  · exact hword.trans ok.word
  · exact ok.since
  · intro u y hy
    by_cases hu : u = t
    · subst hu
      simp only [State.goes, Function.update_self] at hy
      exact ok.snapshot u y (by rw [hw]; exact hy)
    · simp only [State.goes, Function.update_of_ne hu] at hy
      exact ok.snapshot u y hy
  · intro u hu
    by_cases hut : u = t
    · subst hut
      simp [State.goes, isWaking] at hu
    · simp only [State.goes, Function.update_of_ne hut] at hu
      exact ok.number u hu
  · intro u hu hul
    by_cases hut : u = t
    · subst hut
      simp [State.goes, isWaking] at hu
    · simp only [State.goes, Function.update_of_ne hut] at hu
      exact ok.held u hu hul

/-- A notify is counted. -/
theorem notifies (ok : CondvarOk s h) {all : Bool} (hw : s.waits t = .notify all) :
    CondvarOk { s.goes t (.wake all) with seq := { s.seq with word := s.seq.word + 1 } }
      { h with issued := h.issued + 1,
               number := Function.update h.number t (h.issued + 1) } := by
  constructor
  · exact ok.lock
  · refine ok.parked.congr rfl ?_
    exact Function.forall_update_iff _
      (p := fun u v => isAsleep v = true ↔ isAsleep (s.waits u) = true)
      |>.mpr ⟨by rw [hw]; rfl, fun _ _ => Iff.rfl⟩
  · show s.seq.word + 1 = Int32.ofNat (h.issued + 1)
    rw [ok.word, Int32.ofNat_add]
    rfl
  · intro u
    exact Nat.le_succ_of_le (ok.since u)
  · intro u x hx
    by_cases hu : u = t
    · subst hu
      simp [State.goes, snapshotOf] at hx
    · simp only [State.goes, Function.update_of_ne hu] at hx
      exact ok.snapshot u x hx
  · intro u hu
    by_cases hut : u = t
    · subst hut
      simp
    · simp only [State.goes, Function.update_of_ne hut] at hu ⊢
      exact Nat.le_succ_of_le (ok.number u hu)
  · intro u hu hul v
    by_cases hut : u = t
    · subst hut
      simp only [Function.update_self]
      exact Nat.lt_succ_of_le (ok.since v)
    · simp only [State.goes, Function.update_of_ne hut] at hu ⊢
      exact ok.held u hu hul v

/-- Who is woken has returned from the system call, and the notify is over. -/
theorem wakes (ok : CondvarOk s h) {all : Bool} {woken : List T} {k : Nat} {f : Futex T}
    (hw : s.waits t = .wake all) (hf : s.seq.wake k woken = some f) :
    CondvarOk { s with
      seq := f
      waits := Function.update
        (fun u => if u ∈ woken then afterWake (s.waits u) else s.waits u) t .outside } h := by
  obtain ⟨-, hsub, -, hfeq⟩ := Futex.wake_eq_some hf
  have hword : f.word = s.seq.word := by rw [hfeq]
  have hasleep : ∀ u ∈ woken, isAsleep (s.waits u) = true :=
    fun u hu => (ok.parked.mem_iff u).mp (hsub u hu)
  set waits := Function.update
    (fun u => if u ∈ woken then afterWake (s.waits u) else s.waits u) t .outside with hwaits
  have hat : waits t = .outside := Function.update_self ..
  have hwoken : ∀ u ∈ woken, u ≠ t → ∃ x timed, s.waits u = .asleep x timed ∧
      waits u = .returned true x timed := by
    intro u hu hut
    have hsleeps := hasleep u hu
    cases hp : s.waits u with
    | asleep x timed => exact ⟨x, timed, rfl, by simp [hwaits, hut, hu, hp, afterWake]⟩
    | outside | snapshot | unlock | park | returned | relock | notify | wake =>
      rw [hp] at hsleeps
      cases hsleeps
  have hne : ∀ u, u ≠ t → u ∉ woken → waits u = s.waits u := by
    intro u hut hu
    simp [hwaits, hut, hu]
  have hback : ∀ u, isWaking (waits u) = true → isWaking (s.waits u) = true := by
    intro u hu
    by_cases hut : u = t
    · rw [hut, hat] at hu
      cases hu
    · by_cases huw : u ∈ woken
      · obtain ⟨x, timed, -, hret⟩ := hwoken u huw hut
        rw [hret] at hu
        cases hu
      · rw [hne u hut huw] at hu
        exact hu
  constructor
  · exact ok.lock
  · apply ok.parked.wake hf
    intro u
    show isAsleep (waits u) = true ↔ _
    by_cases hut : u = t
    · rw [hut, hat, hw]
      simp [isAsleep]
    · by_cases huw : u ∈ woken
      · obtain ⟨x, timed, -, hret⟩ := hwoken u huw hut
        rw [hret]
        simp [isAsleep, huw]
      · rw [hne u hut huw]
        simp [huw]
  · exact hword.trans ok.word
  · exact ok.since
  · intro u x hx
    have hx' : snapshotOf (waits u) = some x := hx
    by_cases hut : u = t
    · rw [hut, hat] at hx'
      cases hx'
    · by_cases huw : u ∈ woken
      · obtain ⟨y, timed, hold, hret⟩ := hwoken u huw hut
        rw [hret] at hx'
        exact ok.snapshot u x (by rw [hold]; exact hx')
      · rw [hne u hut huw] at hx'
        exact ok.snapshot u x hx'
  · intro u hu
    exact ok.number u (hback u hu)
  · intro u hu hul
    exact ok.held u (hback u hu) hul

/-- A sleeper leaves by itself. -/
theorem leaves (ok : CondvarOk s h) {x : Int32} {timed : Bool}
    (hw : s.waits t = .asleep x timed) :
    CondvarOk { s.goes t (.returned false x timed) with seq := s.seq.leave t } h := by
  have hback : ∀ u, isWaking (Function.update s.waits t (.returned false x timed) u) = true →
      isWaking (s.waits u) = true :=
    Function.forall_update_iff _ (p := fun u v => isWaking v = true → isWaking (s.waits u) = true)
      |>.mpr ⟨fun hw => absurd hw (by simp [isWaking]), fun _ _ hu => hu⟩
  constructor
  · exact ok.lock
  · apply ok.parked.leave
    intro u
    by_cases hu : u = t
    · simp [hu, State.goes, isAsleep]
    · simp [hu, State.goes]
  · exact ok.word
  · exact ok.since
  · intro u y hy
    by_cases hu : u = t
    · subst hu
      simp only [State.goes, Function.update_self] at hy
      exact ok.snapshot u y (by rw [hw]; exact hy)
    · simp only [State.goes, Function.update_of_ne hu] at hy
      exact ok.snapshot u y hy
  · intro u hu
    exact ok.number u (hback u hu)
  · intro u hu hul
    exact ok.held u (hback u hu) hul

/-- Each step within a call keeps the invariant. -/
theorem advance (ok : CondvarOk s h) (hs : Condvar.advance s t (s.waits t) = some s') :
    CondvarOk s' (h.record s (.step t)) := by
  cases hw : s.waits t with
  | outside | unlock | asleep | relock | wake =>
    rw [hw] at hs
    cases hs
  | snapshot timed =>
    rw [hw] at hs
    simp only [Condvar.advance, Notifies.record, hw] at hs ⊢
    split at hs
    · next lock hlock =>
      obtain rfl := Option.some.inj hs
      exact ok.snapshots hw hlock
    · cases hs
  | park x timed =>
    rw [hw] at hs
    simp only [Condvar.advance, Notifies.record, hw] at hs ⊢
    split at hs
    · next f hf =>
      obtain rfl := Option.some.inj hs
      exact ok.parks hw hf
    · obtain rfl := Option.some.inj hs
      exact ok.goes hw ok.lock (fun _ _ => Or.inl rfl) rfl ⟨rfl, rfl⟩ fun _ hx => hx
  | returned rc x timed =>
    rw [hw] at hs
    simp only [Condvar.advance, Notifies.record, hw] at hs ⊢
    split at hs
    · next lock hlock =>
      obtain rfl := Option.some.inj hs
      have hothers : ∀ u, u ≠ t →
          lock.threads u = s.lock.threads u ∨ lock.threads u = .retry true :=
        fun u hu => mutex_step_others (a := .lock t) hu hlock
      apply ok.goes hw (ok.lock.step hlock) hothers <;> simp [isAsleep, isWaking, snapshotOf]
    · cases hs
  | notify all =>
    rw [hw] at hs
    simp only [Condvar.advance, Notifies.record, hw] at hs ⊢
    obtain rfl := Option.some.inj hs
    exact ok.notifies hw

/-- Each step keeps the invariant. -/
theorem step {x x' : Condvar.State T × Notifies T} {a : Condvar.Action T}
    (ok : CondvarOk x.1 x.2) (hs : observe x a = some x') : CondvarOk x'.1 x'.2 := by
  obtain ⟨s, h⟩ := x
  simp only [observe] at hs
  split at hs
  case h_2 => cases hs
  next s' hstep =>
  obtain rfl := Option.some.inj hs
  replace ok : CondvarOk s h := ok
  show CondvarOk s' (h.record s a)
  cases a with
  | mutex a =>
    simp only [Condvar.step] at hstep
    split at hstep
    case isFalse => cases hstep
    next hmay =>
    split at hstep
    case h_2 => cases hstep
    next lock hlock =>
    obtain rfl := Option.some.inj hstep
    have hothers : ∀ u, u ≠ a.thread →
        lock.threads u = s.lock.threads u ∨ lock.threads u = .retry true :=
      fun u hu => mutex_step_others hu hlock
    cases hw : s.waits a.thread with
    | outside =>
      exact ok.goes hw (ok.lock.step hlock) hothers rfl ⟨rfl, rfl⟩ fun _ hx => hx
    | unlock y timed =>
      apply ok.goes hw (ok.lock.step hlock) hothers <;> simp only [afterLock] <;> split <;>
        simp [isAsleep, isWaking, snapshotOf]
    | relock notified =>
      apply ok.goes hw (ok.lock.step hlock) hothers <;> simp only [afterLock] <;> split <;>
        simp [isAsleep, isWaking, snapshotOf]
    | snapshot | park | asleep | returned | notify | wake =>
      rw [hw] at hmay
      cases hmay
  | wait t timed =>
    simp only [Condvar.step] at hstep
    split at hstep
    · next hp =>
      obtain rfl := Option.some.inj hstep
      apply ok.goes hp.1 ok.lock (fun _ _ => Or.inl rfl) <;>
        simp [isAsleep, isWaking, snapshotOf]
    · cases hstep
  | notify t all =>
    simp only [Condvar.step] at hstep
    split at hstep
    · next hp =>
      obtain rfl := Option.some.inj hstep
      apply ok.goes hp.1 ok.lock (fun _ _ => Or.inl rfl) <;>
        simp [isAsleep, isWaking, snapshotOf]
    · cases hstep
  | step t => exact ok.advance hstep
  | wake t woken =>
    simp only [Condvar.step] at hstep
    split at hstep
    case h_2 => cases hstep
    next all hw =>
    split at hstep
    · next f hf =>
      obtain rfl := Option.some.inj hstep
      exact ok.wakes hw hf
    · cases hstep
  | timeout t =>
    simp only [Condvar.step] at hstep
    split at hstep
    · next y hw =>
      obtain rfl := Option.some.inj hstep
      exact ok.leaves hw
    · next y hw =>
      obtain rfl := Option.some.inj hstep
      exact ok.goes hw ok.lock (fun _ _ => Or.inl rfl) rfl ⟨rfl, rfl⟩ fun _ hx => hx
    · cases hstep

omit [DecidableEq T] in
theorem start (initial : Int64) : CondvarOk (Condvar.start T initial) (noNotifies T) := by
  constructor
  · exact MutexOk.start initial
  · exact ⟨List.nodup_nil, fun t => by simp [Condvar.start, Condvar.new, isAsleep]⟩
  · rfl
  · exact fun _ => Nat.le_refl _
  · intro t x hx
    cases hx
  · intro t ht
    cases ht
  · intro t ht
    cases ht

end CondvarOk

/-! ## Who sleeps after a notify -/

/-- The thread sleeps in a wait whose snapshot was taken before notify `k + 1`. -/
def SleepsSince (k : Nat) (x : Condvar.State T × Notifies T) (t : T) : Prop :=
  isAsleep (x.1.waits t) = true ∧ x.2.since t ≤ k

/-- The thread has released the mutex in its wait, and not returned from the system call. -/
def hasReleased (s : Condvar.State T) (t : T) : Bool :=
  match s.waits t with
  | .unlock _ _ => !ownsLock (s.lock.threads t)
  | .park _ _ | .asleep _ _ => true
  | _ => false

/-- The thread is in a call of `wait` or `wait_timeout`. -/
def inWait : Wait → Bool
  | .snapshot _ | .unlock _ _ | .park _ _ | .asleep _ _ | .returned _ _ _ | .relock _ => true
  | _ => false

/-- The step does not lose a notify. A waiter that compares has not had a multiple of 2^32
notifies since its snapshot; no more sleep than `notify_all` can ask for; and where the
notifier does not hold the mutex, the wake-up of a `notify_one` does not pass over a waiter
whose snapshot came before the notify for one whose snapshot came after it. -/
def Timely (x : Condvar.State T × Notifies T) : Condvar.Action T → Prop
  | .step t =>
    match x.1.waits t with
    | .park _ _ => 2 ^ 32 ∣ x.2.issued - x.2.since t → x.2.issued = x.2.since t
    | _ => True
  | .wake n woken =>
    match x.1.waits n with
    | .wake true => x.1.seq.sleepers.length ≤ 0x7fffffff
    | .wake false => x.1.lock.threads n ≠ .holding →
        ∀ u ∈ woken, ∀ t ∈ x.1.seq.sleepers, x.2.since t < x.2.number n →
          x.2.since u < x.2.number n
    | _ => True
  | _ => True

/-- A counter of 32 bits comes back to a value after multiples of 2^32. -/
theorem dvd_of_ofNat_eq {a b : Nat} (h : Int32.ofNat a = Int32.ofNat b) :
    2 ^ 32 ∣ a - b := by
  rw [← Int32.toBitVec_inj, Int32.toBitVec_ofNat', Int32.toBitVec_ofNat', ← BitVec.toNat_inj,
    BitVec.toNat_ofNat, BitVec.toNat_ofNat] at h
  exact Nat.dvd_of_mod_eq_zero (Nat.sub_mod_eq_zero_of_mod_eq h)

variable [DecidableEq T]

/-- A step leaves the other threads where they are, but for those that it wakes. -/
theorem condvar_step_others {a : Condvar.Action T} {u : T} (hu : u ≠ a.thread)
    (h : Condvar.step s a = some s') :
    s'.waits u = s.waits u ∨ s'.waits u = afterWake (s.waits u) := by
  cases a with
  | mutex a =>
    simp only [Condvar.step] at h
    split at h
    case isFalse => cases h
    split at h
    case h_2 => cases h
    obtain rfl := Option.some.inj h
    exact Or.inl (Function.update_of_ne hu ..)
  | wait t timed | notify t all =>
    simp only [Condvar.step] at h
    split at h
    case isFalse => cases h
    obtain rfl := Option.some.inj h
    exact Or.inl (Function.update_of_ne hu ..)
  | step t =>
    have hut : u ≠ t := hu
    simp only [Condvar.step] at h
    unfold Condvar.advance at h
    split at h
    case h_5 => cases h
    all_goals try split at h
    all_goals try cases h
    all_goals exact Or.inl (Function.update_of_ne hut ..)
  | wake t woken =>
    have hut : u ≠ t := hu
    simp only [Condvar.step] at h
    split at h
    case h_2 => cases h
    split at h
    case h_2 => cases h
    obtain rfl := Option.some.inj h
    have hval := Function.update_of_ne hut Wait.outside
      fun v => if v ∈ woken then afterWake (s.waits v) else s.waits v
    by_cases hw : u ∈ woken
    · exact Or.inr (hval.trans (if_pos hw))
    · exact Or.inl (hval.trans (if_neg hw))
  | timeout t =>
    have hut : u ≠ t := hu
    simp only [Condvar.step] at h
    split at h
    case h_3 => cases h
    all_goals
      obtain rfl := Option.some.inj h
      exact Or.inl (Function.update_of_ne hut ..)

theorem observe_eq_some {x x' : Condvar.State T × Notifies T} {a : Condvar.Action T}
    (hs : observe x a = some x') :
    Condvar.step x.1 a = some x'.1 ∧ x'.2 = x.2.record x.1 a := by
  unfold observe at hs
  split at hs
  · next s hstep =>
    obtain rfl := Option.some.inj hs
    exact ⟨hstep, rfl⟩
  · cases hs

/-- What has been seen of a thread changes with its own steps. -/
theorem record_others {a : Condvar.Action T} {u : T} (hu : u ≠ a.thread) :
    (h.record s a).since u = h.since u ∧ (h.record s a).number u = h.number u := by
  cases a with
  | step t =>
    have hut : u ≠ t := hu
    simp only [Notifies.record]
    cases s.waits t with
    | snapshot | notify => simp [hut]
    | outside | unlock | park | asleep | returned | relock | wake => exact ⟨rfl, rfl⟩
  | mutex | wait | notify | wake | timeout => exact ⟨rfl, rfl⟩

theorem issued_le_record (a : Condvar.Action T) : h.issued ≤ (h.record s a).issued := by
  cases a with
  | step t =>
    simp only [Notifies.record]
    cases s.waits t with
    | notify => exact Nat.le_succ _
    | snapshot | outside | unlock | park | asleep | returned | relock | wake =>
      exact Nat.le_refl _
  | mutex | wait | notify | wake | timeout => exact Nat.le_refl _

omit [DecidableEq T] in
theorem not_isAsleep_afterWake (w : Wait) : isAsleep (afterWake w) = false := by
  cases w <;> rfl

/-- Who sleeps after a step slept before it, or has just compared. -/
theorem asleep_after {x x' : Condvar.State T × Notifies T} {a : Condvar.Action T}
    (hs : observe x a = some x') (hsleeps : isAsleep (x'.1.waits t) = true) :
    isAsleep (x.1.waits t) = true ∧ x'.2.since t = x.2.since t ∨
      a = .step t ∧ x'.2.since t = x.2.since t ∧ ∃ timed, x.1.waits t = .park x.1.seq.word timed := by
  obtain ⟨s, h⟩ := x
  obtain ⟨s', h'⟩ := x'
  obtain ⟨hstep, hrecord⟩ := observe_eq_some hs
  simp only at hstep hrecord hsleeps ⊢
  by_cases hta : t ≠ a.thread
  · have hsame : s'.waits t = s.waits t := by
      obtain hsame | hwoken := condvar_step_others hta hstep
      · exact hsame
      · rw [hwoken, not_isAsleep_afterWake] at hsleeps
        cases hsleeps
    rw [hsame] at hsleeps
    exact Or.inl ⟨hsleeps, by rw [hrecord]; exact (record_others hta).1⟩
  · rw [not_not] at hta
    cases a with
    | mutex a =>
      exfalso
      simp only [Condvar.step] at hstep
      split at hstep
      case isFalse => cases hstep
      next hmay =>
      split at hstep
      case h_2 => cases hstep
      next lock hlock =>
      obtain rfl := Option.some.inj hstep
      obtain rfl : t = a.thread := hta
      simp only [State.goes, Function.update_self] at hsleeps
      cases hw : s.waits a.thread <;> rw [hw] at hmay hsleeps <;> simp only [afterLock] at hsleeps
      case unlock | relock => split at hsleeps <;> cases hsleeps
      case asleep => cases hmay
      all_goals cases hsleeps
    | wait u timed =>
      exfalso
      obtain rfl : t = u := hta
      simp only [Condvar.step] at hstep
      split at hstep
      case isFalse => cases hstep
      obtain rfl := Option.some.inj hstep
      simp [State.goes, isAsleep] at hsleeps
    | notify u all =>
      exfalso
      obtain rfl : t = u := hta
      simp only [Condvar.step] at hstep
      split at hstep
      case isFalse => cases hstep
      obtain rfl := Option.some.inj hstep
      simp [State.goes, isAsleep] at hsleeps
    | step u =>
      obtain rfl : t = u := hta
      simp only [Condvar.step] at hstep
      cases hw : s.waits t with
      | park y timed =>
        rw [hw] at hstep
        simp only [Condvar.advance] at hstep
        split at hstep
        · next f hf =>
          obtain ⟨hword, -⟩ := Futex.wait_eq_some hf
          refine Or.inr ⟨rfl, ?_, timed, by rw [hword]⟩
          rw [hrecord]
          simp only [Notifies.record, hw]
        · obtain rfl := Option.some.inj hstep
          simp [State.goes, isAsleep] at hsleeps
      | snapshot | returned | notify =>
        exfalso
        rw [hw] at hstep
        simp only [Condvar.advance] at hstep
        first
        | split at hstep
          case h_2 => cases hstep
          obtain rfl := Option.some.inj hstep
          simp [State.goes, isAsleep] at hsleeps
        | obtain rfl := Option.some.inj hstep
          simp [State.goes, isAsleep] at hsleeps
      | outside | unlock | asleep | relock | wake =>
        rw [hw] at hstep
        cases hstep
    | wake u woken =>
      exfalso
      obtain rfl : t = u := hta
      simp only [Condvar.step] at hstep
      split at hstep
      case h_2 => cases hstep
      split at hstep
      case h_2 => cases hstep
      obtain rfl := Option.some.inj hstep
      simp [isAsleep] at hsleeps
    | timeout u =>
      exfalso
      obtain rfl : t = u := hta
      simp only [Condvar.step] at hstep
      split at hstep
      case h_3 => cases hstep
      all_goals
        obtain rfl := Option.some.inj hstep
        simp [State.goes, isAsleep] at hsleeps

/-- After a notify no one goes to sleep in a wait that began before it. -/
theorem sleepsSince_back {x x' : Condvar.State T × Notifies T} {a : Condvar.Action T} {k : Nat}
    (ok : CondvarOk x.1 x.2) (hk : k < x.2.issued) (htimely : Timely x a)
    (hs : observe x a = some x') (ht : SleepsSince k x' t) : SleepsSince k x t := by
  obtain ⟨hasleep, hsince⟩ | ⟨rfl, hsince, timed, hw⟩ := asleep_after hs ht.1
  · exact ⟨hasleep, hsince ▸ ht.2⟩
  · exfalso
    have hle : x.2.since t ≤ k := hsince ▸ ht.2
    have hsnap := ok.snapshot t x.1.seq.word (by rw [hw]; rfl)
    simp only [Timely, hw] at htimely
    have heq := htimely (dvd_of_ofNat_eq (ok.word.symm.trans hsnap))
    omega

/-- A call of `wait` ends when its thread has the lock again. -/
theorem holds_after_wait {a : Condvar.Action T} (hs : Condvar.step s a = some s')
    (hin : inWait (s.waits t) = true) (hout : s'.waits t = .outside) :
    s'.lock.threads t = .holding := by
  by_cases hta : t ≠ a.thread
  · exfalso
    obtain hsame | hwoken := condvar_step_others hta hs
    · rw [← hsame, hout] at hin
      cases hin
    · rw [hwoken] at hout
      cases hw : s.waits t <;> rw [hw] at hin hout
      case outside => cases hin
      all_goals cases hout
  · rw [not_not] at hta
    cases a with
    | mutex a =>
      obtain rfl : t = a.thread := hta
      simp only [Condvar.step] at hs
      split at hs
      case isFalse => cases hs
      next hmay =>
      split at hs
      case h_2 => cases hs
      next lock hlock =>
      obtain rfl := Option.some.inj hs
      simp only [State.goes, Function.update_self] at hout
      cases hw : s.waits a.thread <;> rw [hw] at hmay hin hout <;> simp only [afterLock] at hout
      case outside => cases hin
      case unlock => split at hout <;> cases hout
      case relock =>
        split at hout
        · next hholds => exact hholds
        · cases hout
      all_goals cases hmay
    | wait u timed =>
      exfalso
      obtain rfl : t = u := hta
      simp only [Condvar.step] at hs
      split at hs
      case isFalse => cases hs
      next hp =>
      rw [hp.1] at hin
      cases hin
    | notify u all =>
      exfalso
      obtain rfl : t = u := hta
      simp only [Condvar.step] at hs
      split at hs
      case isFalse => cases hs
      next hp =>
      rw [hp.1] at hin
      cases hin
    | step u =>
      exfalso
      obtain rfl : t = u := hta
      simp only [Condvar.step] at hs
      unfold Condvar.advance at hs
      split at hs
      case h_5 => cases hs
      all_goals try split at hs
      all_goals try cases hs
      all_goals simp [State.goes] at hout
    | wake u woken =>
      exfalso
      obtain rfl : t = u := hta
      simp only [Condvar.step] at hs
      split at hs
      case h_2 => cases hs
      next all hw =>
      rw [hw] at hin
      cases hin
    | timeout u =>
      exfalso
      obtain rfl : t = u := hta
      simp only [Condvar.step] at hs
      split at hs
      case h_3 => cases hs
      all_goals
        obtain rfl := Option.some.inj hs
        simp [State.goes] at hout

/-! ## The claims of the condition variable -/

/-- What is promised of a run from `x₀` to `x`. A wait ends with its thread holding the mutex,
and no other. Who goes to sleep has seen every notify so far in its snapshot. After a
`notify_all` none of those sleep on who had released the mutex in their waits; after a
`notify_one` one of them at least does not. -/
structure Served (as : List (Condvar.Action T)) (x₀ x : Condvar.State T × Notifies T) : Prop where
  holding : ∀ pre a post y y', as = pre ++ a :: post → runAll observe pre x₀ = some y →
    observe y a = some y' → ∀ t, inWait (y.1.waits t) = true → y'.1.waits t = .outside →
      y'.1.lock.threads t = .holding ∧ ∀ u, ownsLock (y'.1.lock.threads u) = true → u = t
  unnotified : ∀ pre a post y y', as = pre ++ a :: post → runAll observe pre x₀ = some y →
    observe y a = some y' → ∀ t, isAsleep (y.1.waits t) = false →
      isAsleep (y'.1.waits t) = true → y'.2.since t = y'.2.issued
  notified : ∀ pre n mid woken post y all,
    as = pre ++ .step n :: (mid ++ .wake n woken :: post) → (∀ a ∈ mid, a.thread ≠ n) →
      runAll observe pre x₀ = some y → y.1.waits n = .notify all →
        if all = true then ∀ t, hasReleased y.1 t = true → ¬ SleepsSince y.2.issued x t
        else (∃ t, hasReleased y.1 t = true) →
          ∃ t, hasReleased y.1 t = true ∧ ¬ SleepsSince y.2.issued x t

section

variable {k : Nat} {x x' : Condvar.State T × Notifies T}

/-- Between the increment of a notify and its wake-up: who sleeps since before it slept
then. -/
structure Between (k : Nat) (n : T) (all : Bool) (was : T → Bool)
    (x : Condvar.State T × Notifies T) : Prop where
  ok : CondvarOk x.1 x.2
  issued : k < x.2.issued
  waking : x.1.waits n = .wake all
  number : x.2.number n = k + 1
  sleepers : ∀ t, SleepsSince k x t → was t = true

theorem Between.step {all : Bool} {was : T → Bool} {a : Condvar.Action T}
    (hb : Between k n all was x) (ha : Timely x a ∧ a.thread ≠ n) (hs : observe x a = some x') :
    Between k n all was x' := by
  obtain ⟨hstep, hrecord⟩ := observe_eq_some hs
  constructor
  · exact hb.ok.step hs
  · rw [hrecord]
    exact Nat.lt_of_lt_of_le hb.issued (issued_le_record a)
  · obtain hsame | hwoken := condvar_step_others ha.2.symm hstep
    · rw [hsame]
      exact hb.waking
    · rw [hwoken, hb.waking]
      rfl
  · rw [hrecord, (record_others ha.2.symm).2]
    exact hb.number
  · intro t ht
    exact hb.sleepers t (sleepsSince_back hb.ok hb.issued ha.1 hs ht)

/-- The increment. -/
theorem Between.start {all : Bool} (ok : CondvarOk x.1 x.2) (hn : x.1.waits n = .notify all)
    (hs : observe x (.step n) = some x') :
    Between x.2.issued n all (fun t => isAsleep (x.1.waits t)) x' := by
  obtain ⟨hstep, hrecord⟩ := observe_eq_some hs
  simp only [Condvar.step, hn, Condvar.advance] at hstep
  simp only [Notifies.record, hn] at hrecord
  have hwaits : x'.1.waits = Function.update x.1.waits n (.wake all) := by
    rw [← Option.some.inj hstep]
    rfl
  constructor
  · exact ok.step hs
  · rw [hrecord]
    exact Nat.lt_succ_self _
  · rw [hwaits]
    exact Function.update_self ..
  · rw [hrecord]
    exact Function.update_self ..
  · intro t ht
    obtain ⟨hasleep, -⟩ | ⟨hact, -, timed, hw⟩ := asleep_after hs ht.1
    · exact hasleep
    · obtain rfl : n = t := by
        injection hact
      rw [hn] at hw
      cases hw

/-- After the wake-up: who was woken does not sleep since before the notify. -/
theorem not_sleepsSince_woken {all : Bool} {woken : List T} (hn : x.1.waits n = .wake all)
    (hs : observe x (.wake n woken) = some x') (ht : t ∈ woken) : ¬ SleepsSince k x' t := by
  obtain ⟨hstep, -⟩ := observe_eq_some hs
  simp only [Condvar.step, hn] at hstep
  split at hstep
  case h_2 => cases hstep
  intro hsleeps
  have hasleep := hsleeps.1
  rw [← Option.some.inj hstep] at hasleep
  by_cases htn : t = n
  · subst htn
    simp [isAsleep] at hasleep
  · simp [htn, ht, not_isAsleep_afterWake] at hasleep

/-- The wake-up of a `notify_one` goes to one who slept at the notify, if one sleeps on. -/
theorem Between.exists_woken {was : T → Bool} {woken : List T}
    (hb : Between k n false was x) (htimely : Timely x (.wake n woken))
    (hs : observe x (.wake n woken) = some x') (ht : SleepsSince k x t) :
    ∃ u ∈ woken, was u = true := by
  obtain ⟨hstep, -⟩ := observe_eq_some hs
  simp only [Condvar.step, hb.waking] at hstep
  split at hstep
  case h_2 => cases hstep
  next f hf =>
  have hmem : t ∈ x.1.seq.sleepers := (hb.ok.parked.mem_iff t).mpr ht.1
  obtain ⟨u, hu, huw⟩ := Futex.exists_woken hf Nat.one_pos hmem
  have hlt : x.2.since u < x.2.number n := by
    by_cases hholds : x.1.lock.threads n = .holding
    · exact hb.ok.held n (by rw [hb.waking]; rfl) hholds u
    · simp only [Timely, hb.waking] at htimely
      apply htimely hholds u huw t hmem
      rw [hb.number]
      exact Nat.lt_succ_of_le ht.2
  rw [hb.number] at hlt
  exact ⟨u, huw, hb.sleepers u ⟨(hb.ok.parked.mem_iff u).mp hu, Nat.le_of_lt_succ hlt⟩⟩

/-- The wake-up of a `notify_all` goes to all who sleep. -/
theorem Between.all_woken {was : T → Bool} {woken : List T} (hb : Between k n true was x)
    (htimely : Timely x (.wake n woken)) (hs : observe x (.wake n woken) = some x')
    (ht : SleepsSince k x t) : t ∈ woken := by
  obtain ⟨hstep, -⟩ := observe_eq_some hs
  simp only [Condvar.step, hb.waking] at hstep
  split at hstep
  case h_2 => cases hstep
  next f hf =>
  simp only [Timely, hb.waking] at htimely
  exact Futex.wake_all hf htimely t ((hb.ok.parked.mem_iff t).mpr ht.1)

theorem Between.issued_lt_after {all : Bool} {was : T → Bool} {a : Condvar.Action T}
    (hb : Between k n all was x) (hs : observe x a = some x') : k < x'.2.issued := by
  rw [(observe_eq_some hs).2]
  exact Nat.lt_of_lt_of_le hb.issued (issued_le_record a)

/-- In a whole run after a notify, no one goes to sleep in a wait that began before it. -/
theorem sleepsSince_back_run {as : List (Condvar.Action T)} (ok : CondvarOk x.1 x.2)
    (hk : k < x.2.issued) (hmeets : StepsMeet observe Timely as x)
    (hrun : runAll observe as x = some x') (t : T) (ht : SleepsSince k x' t) :
    SleepsSince k x t := by
  induction as generalizing x with
  | nil =>
    obtain rfl := Option.some.inj hrun
    exact ht
  | cons a as ih =>
    obtain ⟨x₁, hs, hrest⟩ := runAll_cons_eq_some hrun
    have hk₁ : k < x₁.2.issued := by
      rw [(observe_eq_some hs).2]
      exact Nat.lt_of_lt_of_le hk (issued_le_record a)
    exact sleepsSince_back ok hk hmeets.1 hs (ih (ok.step hs) hk₁ (hmeets.2 x₁ hs) hrest)

end

omit [DecidableEq T] in
theorem released_of_isAsleep (ht : isAsleep (s.waits t) = true) : hasReleased s t = true := by
  unfold hasReleased
  cases hw : s.waits t with
  | park | asleep => rfl
  | outside | snapshot | unlock | returned | relock | notify | wake =>
    rw [hw] at ht
    cases ht

/-- The invariant, in every run. -/
theorem condvarOk_of_run (initial : Int64) {as : List (Condvar.Action T)}
    {x : Condvar.State T × Notifies T}
    (hrun : runAll observe as (Condvar.start T initial, noNotifies T) = some x) :
    CondvarOk x.1 x.2 :=
  runAll_keeps (I := fun x => CondvarOk x.1 x.2) (fun _ _ _ hok hs => hok.step hs)
    (CondvarOk.start initial) hrun

/-- In every interleaving whose steps lose no notify, the waiters are served. -/
theorem condvar_serves (initial : Int64) (as : List (Condvar.Action T))
    (x : Condvar.State T × Notifies T)
    (hrun : runAll observe as (Condvar.start T initial, noNotifies T) = some x)
    (htimely : StepsMeet observe Timely as (Condvar.start T initial, noNotifies T)) :
    Served as (Condvar.start T initial, noNotifies T) x := by
  constructor
  · intro pre a post y y' has hpre hs t hin hout
    have hok := condvarOk_of_run initial hpre
    have hholds := holds_after_wait (observe_eq_some hs).1 hin hout
    refine ⟨hholds, fun u hu => ?_⟩
    exact (hok.step hs).lock.exclusive u t hu (by rw [hholds]; rfl)
  · intro pre a post y y' has hpre hs t hawake hasleep
    have hok := condvarOk_of_run initial hpre
    subst has
    have ha : Timely y a := (stepsMeet_append_right htimely hpre).1
    obtain ⟨hbefore, -⟩ | ⟨rfl, hsince, timed, hw⟩ := asleep_after hs hasleep
    · rw [hawake] at hbefore
      cases hbefore
    · have hsnap := hok.snapshot t y.1.seq.word (by rw [hw]; rfl)
      simp only [Timely, hw] at ha
      have hissued : y'.2.issued = y.2.issued := by
        rw [(observe_eq_some hs).2]
        simp only [Notifies.record, hw]
      rw [hissued, hsince]
      exact (ha (dvd_of_ofNat_eq (hok.word.symm.trans hsnap))).symm
  · intro pre n mid woken post y all has hmid hpre hn
    subst has
    obtain ⟨y', hy', hrest⟩ := runAll_append_eq_some.mp hrun
    obtain rfl := Option.some.inj (hpre.symm.trans hy')
    have hmeets := stepsMeet_append_right htimely hpre
    obtain ⟨y₁, hinc, hrest⟩ := runAll_cons_eq_some hrest
    replace hmeets := hmeets.2 y₁ hinc
    obtain ⟨y₂, hrunmid, hrest⟩ := runAll_append_eq_some.mp hrest
    have hmeetsMid := stepsMeet_and (stepsMeet_append_left hmeets) hmid
    have hbetween : Between y.2.issued n all (fun t => isAsleep (y.1.waits t)) y₂ := by
      refine runAll_keeps_of_meets (fun _ _ _ hb ha hs => hb.step ha hs) ?_ hmeetsMid hrunmid
      exact Between.start (condvarOk_of_run initial hpre) hn hinc
    replace hmeets := stepsMeet_append_right hmeets hrunmid
    obtain ⟨y₃, hwake, hpost⟩ := runAll_cons_eq_some hrest
    have hback := sleepsSince_back_run (hbetween.ok.step hwake)
      (hbetween.issued_lt_after hwake) (hmeets.2 y₃ hwake) hpost
    cases all with
    | true =>
      simp only [if_true]
      intro t _ ht
      have ht₃ := hback t ht
      have ht₂ := sleepsSince_back hbetween.ok hbetween.issued hmeets.1 hwake ht₃
      exact not_sleepsSince_woken hbetween.waking hwake
        (hbetween.all_woken hmeets.1 hwake ht₂) ht₃
    | false =>
      rw [if_neg Bool.false_ne_true]
      rintro ⟨t, ht⟩
      by_cases hsleeps : SleepsSince y.2.issued y₂ t
      · obtain ⟨u, hu, hwas⟩ := hbetween.exists_woken hmeets.1 hwake hsleeps
        exact ⟨u, released_of_isAsleep hwas,
          fun hx => not_sleepsSince_woken hbetween.waking hwake hu (hback u hx)⟩
      · refine ⟨t, ht, fun hx => hsleeps ?_⟩
        exact sleepsSince_back hbetween.ok hbetween.issued hmeets.1 hwake (hback t hx)

/-- A waiter sleeps, is woken, and comes back with the lock. -/
theorem condvar_serves_one :
    ∃ x, runAll observe [.mutex (.lock true), .mutex (.step true), .wait true false, .step true,
        .mutex (.step true), .step true, .notify false false, .step false, .wake false [true],
        .step true, .mutex (.step true)] (Condvar.start Bool 0, noNotifies Bool) = some x ∧
      x.1.waits true = .outside ∧ x.1.lock.threads true = .holding ∧
      Served [.mutex (.lock true), .mutex (.step true), .wait true false, .step true,
        .mutex (.step true), .step true, .notify false false, .step false, .wake false [true],
        .step true, .mutex (.step true)] (Condvar.start Bool 0, noNotifies Bool) x := by
  refine ⟨_, rfl, rfl, rfl, condvar_serves 0 _ _ rfl ?_⟩
  apply stepsMeet_cons trivial rfl
  apply stepsMeet_cons trivial rfl
  apply stepsMeet_cons trivial rfl
  apply stepsMeet_cons trivial rfl
  apply stepsMeet_cons trivial rfl
  apply stepsMeet_cons (fun _ => rfl) rfl
  apply stepsMeet_cons trivial rfl
  apply stepsMeet_cons trivial rfl
  apply stepsMeet_cons _ rfl
  · exact stepsMeet_cons trivial rfl (stepsMeet_cons trivial rfl trivial)
  · intro _ u _ t _ _
    cases u <;> decide

/-- A `notify_all` of a thread while no thread sleeps. -/
def notifyCalls (n : T) : List (Condvar.Action T) := [.notify n true, .step n, .wake n []]

/-- Such a call moves the counter and nothing else. -/
theorem notifyCalls_once {x : Condvar.State T × Notifies T}
    (hn : x.1.waits n = .outside) (hidle : x.1.lock.threads n = .idle)
    (hnone : x.1.seq.sleepers = []) :
    ∃ x', runAll observe (notifyCalls n) x = some x' ∧
      x'.1 = { x.1 with seq := ⟨x.1.seq.word + 1, []⟩ } ∧
      x'.2.issued = x.2.issued + 1 ∧ x'.2.since = x.2.since := by
  have hwaits : Function.update x.1.waits n .outside = x.1.waits := by
    rw [← hn]
    exact Function.update_eq_self ..
  simp [notifyCalls, runAll, observe, Condvar.step, Condvar.advance, Notifies.record, State.goes,
    Futex.wake, hn, hidle, hnone, hwaits]

theorem notifyCalls_run (k : Nat) {x : Condvar.State T × Notifies T}
    (hn : x.1.waits n = .outside) (hidle : x.1.lock.threads n = .idle)
    (hnone : x.1.seq.sleepers = []) :
    ∃ x', runAll observe (List.replicate k (notifyCalls n)).flatten x = some x' ∧
      x'.1 = { x.1 with seq := ⟨x.1.seq.word + Int32.ofNat k, []⟩ } ∧
      x'.2.issued = x.2.issued + k ∧ x'.2.since = x.2.since := by
  induction k generalizing x with
  | zero =>
    obtain ⟨⟨⟨word, sleepers⟩, lock, waits⟩, h⟩ := x
    obtain rfl : sleepers = [] := hnone
    exact ⟨_, rfl, by simp, rfl, rfl⟩
  | succ k ih =>
    obtain ⟨x₁, hrun₁, hstate₁, hissued₁, hsince₁⟩ := notifyCalls_once hn hidle hnone
    obtain ⟨x₂, hrun₂, hstate₂, hissued₂, hsince₂⟩ :=
      ih (x := x₁) (by rw [hstate₁]; exact hn) (by rw [hstate₁]; exact hidle) (by rw [hstate₁])
    refine ⟨x₂, ?_, ?_, ?_, hsince₂.trans hsince₁⟩
    · rw [List.replicate_succ, List.flatten_cons]
      exact runAll_append_eq_some.mpr ⟨x₁, hrun₁, hrun₂⟩
    · have hword : x.1.seq.word + 1 + Int32.ofNat k = x.1.seq.word + Int32.ofNat (k + 1) := by
        rw [Int32.ofNat_add, Int32.add_assoc, Int32.add_comm 1]
        rfl
      rw [hstate₂, hstate₁, ← hword]
    · omega

/-- After 2^32 notifies a waiter goes to sleep that was notified. -/
theorem condvar_loses_notifies :
    ∃ x, runAll observe ([.mutex (.lock true), .mutex (.step true), .wait true false,
        .step true, .mutex (.step true)] ++
        ((List.replicate (2 ^ 32) (notifyCalls false)).flatten ++ [.step true]))
        (Condvar.start Bool 0, noNotifies Bool) = some x ∧
      x.1.waits true = .asleep 0 false ∧ x.2.since true = 0 ∧ x.2.issued = 2 ^ 32 ∧
      ¬ Served ([.mutex (.lock true), .mutex (.step true), .wait true false,
        .step true, .mutex (.step true)] ++
        ((List.replicate (2 ^ 32) (notifyCalls false)).flatten ++ [.step true]))
        (Condvar.start Bool 0, noNotifies Bool) x := by
  obtain ⟨x₁, hrun₁⟩ : ∃ x₁, runAll observe [.mutex (.lock true), .mutex (.step true),
      .wait true false, .step true, .mutex (.step true)]
      (Condvar.start Bool 0, noNotifies Bool) = some x₁ := ⟨_, rfl⟩
  have h₁ : x₁.1.waits false = .outside ∧ x₁.1.lock.threads false = .idle ∧
      x₁.1.seq = ⟨0, []⟩ ∧ x₁.1.waits true = .park 0 false ∧ x₁.2.issued = 0 ∧
      x₁.2.since true = 0 := by
    obtain rfl := Option.some.inj hrun₁
    exact ⟨rfl, rfl, rfl, rfl, rfl, rfl⟩
  obtain ⟨hn, hidle, hseq, hpark, hissued₁, hsince₁⟩ := h₁
  obtain ⟨x₂, hrun₂, hstate₂, hissued₂, hsince₂⟩ :=
    notifyCalls_run (2 ^ 32) hn hidle (by rw [hseq])
  have hzero : (0 : Int32) + Int32.ofNat (2 ^ 32) = 0 := by decide
  rw [hseq, hzero] at hstate₂
  have hpark₂ : x₂.1.waits true = .park 0 false := by
    rw [hstate₂]
    exact hpark
  have hseq₂ : x₂.1.seq = ⟨0, []⟩ := by rw [hstate₂]
  rw [hissued₁] at hissued₂
  rw [← hsince₂] at hsince₁
  obtain ⟨x₃, hstep₃, hasleep₃, hnotifies₃⟩ : ∃ x₃, observe x₂ (.step true) = some x₃ ∧
      x₃.1.waits true = .asleep 0 false ∧ x₃.2 = x₂.2 := by
    simp [observe, Condvar.step, Condvar.advance, Futex.wait, Notifies.record, State.goes, hpark₂,
      hseq₂]
  have hpre : runAll observe ([.mutex (.lock true), .mutex (.step true), .wait true false,
      .step true, .mutex (.step true)] ++ (List.replicate (2 ^ 32) (notifyCalls false)).flatten)
      (Condvar.start Bool 0, noNotifies Bool) = some x₂ :=
    runAll_append_eq_some.mpr ⟨x₁, hrun₁, hrun₂⟩
  rw [← List.append_assoc]
  refine ⟨x₃, ?_, hasleep₃, ?_, ?_, ?_⟩
  · refine runAll_append_eq_some.mpr ⟨x₂, hpre, ?_⟩
    rw [runAll, hstep₃]
    rfl
  · rw [hnotifies₃]
    exact hsince₁
  · rw [hnotifies₃, hissued₂, Nat.zero_add]
  · intro hserved
    have hlost := hserved.unnotified _ (.step true) [] x₂ x₃ rfl hpre hstep₃ true
      (by rw [hpark₂]; rfl) (by rw [hasleep₃]; rfl)
    rw [hnotifies₃, hissued₂, hsince₁] at hlost
    exact absurd hlost (by decide)

/-- The wake-up of a `notify_one` goes to a waiter that came after the increment, and the one
that slept before it sleeps on. -/
theorem condvar_passes_over :
    ∃ x, runAll observe ([.mutex (.lock 0), .mutex (.step 0), .wait 0 false, .step 0,
        .mutex (.step 0), .step 0, .notify 2 false] ++ .step 2 ::
        ([.mutex (.lock 1), .mutex (.step 1), .wait 1 false, .step 1, .mutex (.step 1), .step 1] ++
          .wake 2 [1] :: [])) (Condvar.start (Fin 3) 0, noNotifies (Fin 3)) = some x ∧
      ¬ Served ([.mutex (.lock 0), .mutex (.step 0), .wait 0 false, .step 0,
        .mutex (.step 0), .step 0, .notify 2 false] ++ .step 2 ::
        ([.mutex (.lock 1), .mutex (.step 1), .wait 1 false, .step 1, .mutex (.step 1), .step 1] ++
          .wake 2 [1] :: [])) (Condvar.start (Fin 3) 0, noNotifies (Fin 3)) x := by
  obtain ⟨y, hpre⟩ : ∃ y, runAll observe [.mutex (.lock 0), .mutex (.step 0), .wait 0 false,
      .step 0, .mutex (.step 0), .step 0, .notify 2 false]
      (Condvar.start (Fin 3) 0, noNotifies (Fin 3)) = some y := ⟨_, rfl⟩
  have hy : y.1.waits = (fun t => if t = 0 then .asleep 0 false else if t = 2 then .notify false
      else .outside) ∧ y.2.issued = 0 := by
    obtain rfl := Option.some.inj hpre
    refine ⟨?_, rfl⟩
    funext t
    match t with
    | 0 | 1 | 2 => rfl
  obtain ⟨x, hrest⟩ : ∃ x, runAll observe (.step 2 :: ([.mutex (.lock 1), .mutex (.step 1),
      .wait 1 false, .step 1, .mutex (.step 1), .step 1] ++ .wake 2 [1] :: [])) y = some x := by
    obtain rfl := Option.some.inj hpre
    exact ⟨_, rfl⟩
  have hx : x.1.waits 0 = .asleep 0 false ∧ x.2.since 0 = 0 := by
    obtain rfl := Option.some.inj hpre
    obtain rfl := Option.some.inj hrest
    exact ⟨rfl, rfl⟩
  refine ⟨x, runAll_append_eq_some.mpr ⟨y, hpre, hrest⟩, ?_⟩
  intro hserved
  have hone := hserved.notified _ 2 _ [1] [] y false rfl (by decide) hpre (by rw [hy.1]; rfl)
  rw [if_neg Bool.false_ne_true] at hone
  obtain ⟨t, hreleased, hawake⟩ := hone ⟨0, by simp [hasReleased, hy.1]⟩
  obtain rfl : t = 0 := by
    by_contra ht
    by_cases h2 : t = 2 <;> simp [hasReleased, hy.1, ht, h2] at hreleased
  exact hawake ⟨by rw [hx.1]; rfl, by rw [hx.2]; exact Nat.zero_le _⟩

end Vani.Analysis
