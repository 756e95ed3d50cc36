import Vani.Backend.Mutex
import Vani.Library.Transitions

/-!
# The mutex excludes and wakes

The word is 0 exactly while no thread owns the lock, and one thread owns it at most. While
threads sleep, the word is 2, so that the owner will wake one, or a thread is about to wake
one, or one that was woken has still to mark the word again. Each step of each thread keeps
this.
-/

set_option autoImplicit false

namespace Vani.Analysis

open Vani.Library Vani.Backend Vani.Backend.Mutex

/-- The thread has the lock: `unlock` gives it up with its last store. -/
def ownsLock : Lock → Bool
  | .holding | .subtract | .reset => true
  | _ => false

/-- A wake-up is pending: the thread will wake a sleeper, or has been woken and not yet tried
again. -/
def willWake : Lock → Bool
  | .reset | .wake | .retry true => true
  | _ => false

variable {T : Type}

/-- The lock is free. -/
def Unowned (s : Mutex.State T) : Prop := ∀ t, ownsLock (s.threads t) = false

/-- What holds between the steps. -/
structure MutexOk (s : Mutex.State T) : Prop where
  word : s.mutex.locked.word = 0 ∨ s.mutex.locked.word = 1 ∨ s.mutex.locked.word = 2
  parked : s.mutex.locked.Parked fun t => s.threads t = .asleep
  free : s.mutex.locked.word = 0 ↔ Unowned s
  exclusive : ∀ t u, ownsLock (s.threads t) = true → ownsLock (s.threads u) = true → t = u
  pending : s.mutex.locked.sleepers ≠ [] → s.mutex.locked.word = 2 ∨
    ∃ t, willWake (s.threads t) = true

/-- What a step of one thread, from `p` to `p'`, may do to the word: the sleepers stay, the
word and the owner change together, and the word is not taken from 2 without a wake-up to
come. -/
structure Moves (f : Futex T) (p : Lock) (f' : Futex T) (p' : Lock) : Prop where
  sleepers : f'.sleepers = f.sleepers
  awake : p ≠ .asleep ∧ p' ≠ .asleep
  word : f'.word = 0 ∨ f'.word = 1 ∨ f'.word = 2
  owner : (f'.word = 0 ↔ f.word = 0) ∧ ownsLock p' = ownsLock p ∨
    f.word = 0 ∧ f'.word ≠ 0 ∧ ownsLock p' = true ∨
    f'.word = 0 ∧ ownsLock p = true ∧ ownsLock p' = false
  pending : f'.word = 2 ∨ willWake p' = true ∨ f.word ≠ 2 ∧ willWake p = false

variable {s s' : Mutex.State T} {t : T} {p p' : Lock} {f : Futex T}

namespace MutexOk

theorem owned_of_owns (ok : MutexOk s) (ht : ownsLock (s.threads t) = true) :
    s.mutex.locked.word = 1 ∨ s.mutex.locked.word = 2 := by
  obtain h | h := ok.word
  · have hfree := ok.free.mp h t
    rw [ht] at hfree
    cases hfree
  · exact h

variable [DecidableEq T]

/-- Such a step keeps the invariant. -/
theorem goes (ok : MutexOk s) (hp : s.threads t = p) (hm : Moves s.mutex.locked p f p') :
    MutexOk (s.goes t p' f) := by
  have hat : (s.goes t p' f).threads t = p' := Function.update_self ..
  have hne : ∀ u, u ≠ t → (s.goes t p' f).threads u = s.threads u :=
    fun u hu => Function.update_of_ne hu ..
  constructor
  · exact hm.word
  · apply ok.parked.congr hm.sleepers
    intro u
    by_cases hu : u = t
    · subst hu
      rw [hat, hp]
      simp only [hm.awake.1, hm.awake.2]
    · rw [hne u hu]
  · constructor
    · intro h0 u
      obtain ⟨hiff, howns⟩ | ⟨-, hne0, -⟩ | ⟨-, howned, hnot⟩ := hm.owner
      · have hfree := ok.free.mp (hiff.mp h0)
        by_cases hu : u = t
        · subst hu
          rw [hat, howns, ← hp]
          exact hfree u
        · rw [hne u hu]
          exact hfree u
      · exact absurd h0 hne0
      · by_cases hu : u = t
        · subst hu
          rw [hat]
          exact hnot
        · rw [hne u hu]
          by_contra hcon
          rw [Bool.not_eq_false] at hcon
          exact hu (ok.exclusive u t hcon (by rw [hp]; exact howned))
    · intro hfree
      have hmine := hfree t
      rw [hat] at hmine
      obtain ⟨hiff, howns⟩ | ⟨-, -, hown⟩ | ⟨h0, -, -⟩ := hm.owner
      · apply hiff.mpr
        apply ok.free.mpr
        intro u
        by_cases hu : u = t
        · subst hu
          rw [hp, ← howns]
          exact hmine
        · rw [← hne u hu]
          exact hfree u
      · rw [hmine] at hown
        cases hown
      · exact h0
  · -- a thread that takes the lock found it free
    have hkey : ∀ u, u ≠ t → ownsLock p' = true → ownsLock (s.threads u) = false := by
      intro u hu hown
      obtain ⟨-, howns⟩ | ⟨h0, -, -⟩ | ⟨-, -, hnot⟩ := hm.owner
      · by_contra hcon
        rw [Bool.not_eq_false] at hcon
        exact hu (ok.exclusive u t hcon (by rw [hp, ← howns]; exact hown))
      · exact ok.free.mp h0 u
      · rw [hown] at hnot
        cases hnot
    intro u v hu hv
    by_cases hut : u = t <;> by_cases hvt : v = t
    · rw [hut, hvt]
    · rw [hne v hvt] at hv
      rw [hut, hat] at hu
      rw [hkey v hvt hu] at hv
      cases hv
    · rw [hne u hut] at hu
      rw [hvt, hat] at hv
      rw [hkey u hut hv] at hu
      cases hu
    · rw [hne u hut] at hu
      rw [hne v hvt] at hv
      exact ok.exclusive u v hu hv
  · intro hs
    obtain h2 | hwakes | ⟨hn2, hnot⟩ := hm.pending
    · exact Or.inl h2
    · exact Or.inr ⟨t, by rw [hat]; exact hwakes⟩
    · obtain h2 | ⟨u, hu⟩ := ok.pending (by rw [← hm.sleepers]; exact hs)
      · exact absurd h2 hn2
      · have hut : u ≠ t := by
          intro hut
          rw [hut, hp, hnot] at hu
          cases hu
        exact Or.inr ⟨u, by rw [hne u hut]; exact hu⟩

/-- A thread that goes to sleep has just seen the word 2. -/
theorem sleeps (ok : MutexOk s) (hp : s.threads t = .wait)
    (h : s.mutex.locked.wait t 2 = some f) : MutexOk (s.goes t .asleep f) := by
  have hat : (s.goes t .asleep f).threads t = .asleep := Function.update_self ..
  have hne : ∀ u, u ≠ t → (s.goes t .asleep f).threads u = s.threads u :=
    fun u hu => Function.update_of_ne hu ..
  have howns : ∀ u, ownsLock ((s.goes t .asleep f).threads u) = ownsLock (s.threads u) := by
    intro u
    by_cases hu : u = t
    · rw [hu, hat, hp]
      rfl
    · rw [hne u hu]
  obtain ⟨hword, hf⟩ := Futex.wait_eq_some h
  have hword' : (s.goes t .asleep f).mutex.locked.word = s.mutex.locked.word := by
    rw [hf]
    rfl
  constructor
  · rw [hword']
    exact ok.word
  · apply ok.parked.wait (by rw [hp]; simp) h
    intro u
    by_cases hu : u = t
    · simp [hu, hat]
    · simp [hu, hne u hu]
  · rw [hword', ok.free]
    unfold Unowned
    simp only [howns]
  · intro u v
    rw [howns, howns]
    exact ok.exclusive u v
  · intro _
    exact Or.inl (hword'.trans hword)

/-- A thread that wakes leaves the wake-up to the one it has woken. -/
theorem wakes (ok : MutexOk s) (hp : s.threads t = .wake) {woken : List T}
    (h : s.mutex.locked.wake 1 woken = some f) :
    MutexOk ⟨{ s.mutex with locked := f }, Function.update
      (fun u => if u ∈ woken then .retry true else s.threads u) t .idle⟩ := by
  obtain ⟨-, hsub, hlen, hf⟩ := Futex.wake_eq_some h
  have hasleep : ∀ u ∈ woken, s.threads u = .asleep :=
    fun u hu => (ok.parked.mem_iff u).mp (hsub u hu)
  have htw : t ∉ woken := by
    intro ht
    have hboth := hasleep t ht
    rw [hp] at hboth
    cases hboth
  set threads := Function.update
    (fun u => if u ∈ woken then Lock.retry true else s.threads u) t .idle with hthreads
  have hat : threads t = .idle := Function.update_self ..
  have hwoken : ∀ u ∈ woken, threads u = .retry true := by
    intro u hu
    have hut : u ≠ t := fun hut => htw (hut ▸ hu)
    rw [hthreads, Function.update_of_ne hut, if_pos hu]
  have hne : ∀ u, u ≠ t → u ∉ woken → threads u = s.threads u := by
    intro u hut hu
    rw [hthreads, Function.update_of_ne hut, if_neg hu]
  have howns : ∀ u, ownsLock (threads u) = ownsLock (s.threads u) := by
    intro u
    by_cases hut : u = t
    · rw [hut, hat, hp]
      rfl
    · by_cases hu : u ∈ woken
      · rw [hwoken u hu, hasleep u hu]
        rfl
      · rw [hne u hut hu]
  have hword : f.word = s.mutex.locked.word := by rw [hf]
  constructor
  · show f.word = 0 ∨ f.word = 1 ∨ f.word = 2
    rw [hword]
    exact ok.word
  · apply ok.parked.wake h
    intro u
    by_cases hut : u = t
    · simp [hut, hat, hp]
    · by_cases hu : u ∈ woken
      · simp [hu, hwoken u hu]
      · simp [hu, hne u hut hu]
  · show f.word = 0 ↔ ∀ u, ownsLock (threads u) = false
    rw [hword, ok.free]
    unfold Unowned
    simp only [howns]
  · intro u v
    show ownsLock (threads u) = true → ownsLock (threads v) = true → u = v
    rw [howns, howns]
    exact ok.exclusive u v
  · intro hs
    have hsleepers : s.mutex.locked.sleepers ≠ [] := by
      intro hnil
      apply hs
      show f.sleepers = []
      rw [hf, hnil]
      rfl
    obtain ⟨u, hu⟩ := List.exists_mem_of_ne_nil _ hsleepers
    obtain ⟨v, -, hv⟩ := Futex.exists_woken h Nat.one_pos hu
    exact Or.inr ⟨v, congrArg willWake (hwoken v hv)⟩

/-- An exchange takes the lock if it was free, and leaves the word at 2. -/
theorem exchanges (ok : MutexOk s) (hp : s.threads t = p) (hawake : p ≠ .asleep)
    (howns : ownsLock p = false) :
    MutexOk (s.goes t (afterExchange s.mutex.locked.word) { s.mutex.locked with word := 2 }) := by
  apply ok.goes hp
  by_cases h0 : s.mutex.locked.word = 0
  · have hafter : afterExchange s.mutex.locked.word = .holding := if_pos h0
    rw [hafter]
    exact ⟨rfl, ⟨hawake, by simp⟩, by simp, Or.inr (Or.inl ⟨h0, by simp, rfl⟩), Or.inl rfl⟩
  · have hafter : afterExchange s.mutex.locked.word = .wait := if_neg h0
    rw [hafter]
    exact ⟨rfl, ⟨hawake, by simp⟩, by simp, Or.inl ⟨by simp [h0], howns.symm⟩, Or.inl rfl⟩

/-- Each step within a call keeps the invariant. -/
theorem advance (ok : MutexOk s)
    (h : Mutex.advance s.mutex.locked t (s.threads t) = some (p, f)) :
    MutexOk (s.goes t p f) := by
  cases hp : s.threads t with
  | idle | asleep | holding | wake =>
    rw [hp] at h
    cases h
  | compareExchange =>
    rw [hp] at h
    simp only [Mutex.advance] at h
    split at h
    · next h0 =>
      obtain ⟨rfl, rfl⟩ := Prod.mk.inj (Option.some.inj h)
      apply ok.goes hp
      exact ⟨rfl, by simp, by simp, Or.inr (Or.inl ⟨h0, by simp, rfl⟩),
        Or.inr (Or.inr ⟨by rw [h0]; decide, rfl⟩)⟩
    · next h0 =>
      obtain ⟨rfl, rfl⟩ := Prod.mk.inj (Option.some.inj h)
      apply ok.goes hp
      by_cases h2 : s.mutex.locked.word = 2
      · rw [if_neg (not_not.mpr h2)]
        exact ⟨rfl, by simp, ok.word, Or.inl ⟨Iff.rfl, rfl⟩, Or.inl h2⟩
      · rw [if_pos h2]
        exact ⟨rfl, by simp, ok.word, Or.inl ⟨Iff.rfl, rfl⟩, Or.inr (Or.inr ⟨h2, rfl⟩)⟩
  | exchange | retry =>
    rw [hp] at h
    obtain ⟨rfl, rfl⟩ := Prod.mk.inj (Option.some.inj h)
    exact ok.exchanges hp (by simp) rfl
  | wait =>
    rw [hp] at h
    simp only [Mutex.advance] at h
    split at h
    · next f' hwait =>
      obtain ⟨rfl, rfl⟩ := Prod.mk.inj (Option.some.inj h)
      exact ok.sleeps hp hwait
    · next hwait =>
      obtain ⟨rfl, rfl⟩ := Prod.mk.inj (Option.some.inj h)
      have h2 := Futex.wait_eq_none hwait
      apply ok.goes hp
      exact ⟨rfl, by simp, ok.word, Or.inl ⟨Iff.rfl, rfl⟩, Or.inr (Or.inr ⟨h2, rfl⟩)⟩
  | subtract =>
    rw [hp] at h
    obtain ⟨rfl, rfl⟩ := Prod.mk.inj (Option.some.inj h)
    apply ok.goes hp
    obtain h1 | h2 := ok.owned_of_owns (t := t) (by rw [hp]; rfl)
    · have h0 : (1 : Int32) - 1 = 0 := by decide
      rw [h1]
      exact ⟨rfl, by simp, Or.inl h0, Or.inr (Or.inr ⟨h0, rfl, rfl⟩),
        Or.inr (Or.inr ⟨by rw [h1]; decide, rfl⟩)⟩
    · have h1 : (2 : Int32) - 1 = 1 := by decide
      rw [h2]
      exact ⟨rfl, by simp, Or.inr (Or.inl h1), Or.inl ⟨by simp [h1, h2], rfl⟩,
        Or.inr (Or.inl rfl)⟩
  | reset =>
    rw [hp] at h
    obtain ⟨rfl, rfl⟩ := Prod.mk.inj (Option.some.inj h)
    apply ok.goes hp
    exact ⟨rfl, by simp, by simp, Or.inr (Or.inr ⟨rfl, rfl, rfl⟩), Or.inr (Or.inl rfl)⟩

/-- A call leaves the word as it is. -/
theorem calls (ok : MutexOk s) (hp : s.threads t = p) (hawake : p ≠ .asleep ∧ p' ≠ .asleep)
    (howns : ownsLock p' = ownsLock p) (hwill : willWake p = false) :
    MutexOk (s.goes t p' s.mutex.locked) := by
  apply ok.goes hp
  refine ⟨rfl, hawake, ok.word, Or.inl ⟨Iff.rfl, howns⟩, ?_⟩
  by_cases h2 : s.mutex.locked.word = 2
  · exact Or.inl h2
  · exact Or.inr (Or.inr ⟨h2, hwill⟩)

/-- Each step keeps the invariant. -/
theorem step {a : Mutex.Action T} (ok : MutexOk s) (h : Mutex.step s a = some s') :
    MutexOk s' := by
  cases a with
  | lock t =>
    simp only [Mutex.step] at h
    split at h
    · next hp =>
      obtain rfl := Option.some.inj h
      exact ok.calls hp (by simp) rfl rfl
    · cases h
  | step t =>
    simp only [Mutex.step] at h
    split at h
    · next p f hstep =>
      obtain rfl := Option.some.inj h
      exact ok.advance hstep
    · cases h
  | set t v =>
    simp only [Mutex.step] at h
    split at h
    · obtain rfl := Option.some.inj h
      exact ⟨ok.word, ok.parked, ok.free, ok.exclusive, ok.pending⟩
    · cases h
  | unlock t =>
    simp only [Mutex.step] at h
    split at h
    · next hp =>
      obtain rfl := Option.some.inj h
      exact ok.calls hp (by simp) rfl rfl
    · cases h
  | wake t woken =>
    simp only [Mutex.step] at h
    split at h
    · next hp =>
      split at h
      · next f hwake =>
        obtain rfl := Option.some.inj h
        exact ok.wakes hp hwake
      · cases h
    · cases h

omit [DecidableEq T] in
theorem start (initial : Int64) : MutexOk (Mutex.start T initial) := by
  constructor
  · exact Or.inl rfl
  · exact ⟨List.nodup_nil, fun t => by simp [Mutex.start, Mutex.new]⟩
  · exact ⟨fun _ _ => rfl, fun _ => rfl⟩
  · intro t u ht
    cases ht
  · intro hs
    exact absurd rfl hs

end MutexOk

/-- A step leaves the other threads where they are, but for one that it wakes. -/
theorem mutex_step_others [DecidableEq T] {a : Mutex.Action T} {u : T} (hu : u ≠ a.thread)
    (h : Mutex.step s a = some s') :
    s'.threads u = s.threads u ∨ s'.threads u = .retry true := by
  cases a with
  | lock t | unlock t =>
    simp only [Mutex.step] at h
    split at h
    · obtain rfl := Option.some.inj h
      exact Or.inl (Function.update_of_ne hu ..)
    · cases h
  | step t =>
    simp only [Mutex.step] at h
    split at h
    · obtain rfl := Option.some.inj h
      exact Or.inl (Function.update_of_ne hu ..)
    · cases h
  | set t v =>
    simp only [Mutex.step] at h
    split at h
    · obtain rfl := Option.some.inj h
      exact Or.inl rfl
    · cases h
  | wake t woken =>
    simp only [Mutex.step] at h
    split at h
    · split at h
      · obtain rfl := Option.some.inj h
        have hut : u ≠ t := hu
        have hval := Function.update_of_ne hut Lock.idle
          fun v => if v ∈ woken then Lock.retry true else s.threads v
        by_cases hw : u ∈ woken
        · exact Or.inr (hval.trans (if_pos hw))
        · exact Or.inl (hval.trans (if_neg hw))
      · cases h
    · cases h

/-! ## The claims of the lock -/

/-- In every interleaving, for any number of threads, one thread owns the lock at most, and
while the lock is free and a thread sleeps, a thread is about to wake a sleeper or has been
woken and not yet tried again. -/
theorem mutex_safe [DecidableEq T] (initial : Int64) (as : List (Mutex.Action T))
    (s : Mutex.State T) (h : runAll Mutex.step as (Mutex.start T initial) = some s) :
    (∀ t u, ownsLock (s.threads t) = true → ownsLock (s.threads u) = true → t = u) ∧
      (s.mutex.locked.word = 0 ↔ Unowned s) ∧
      ¬ (Unowned s ∧ (∃ t, s.threads t = .asleep) ∧ ∀ t, willWake (s.threads t) = false) := by
  have ok : MutexOk s := runAll_keeps (fun _ _ _ hi hs => hi.step hs) (MutexOk.start initial) h
  refine ⟨ok.exclusive, ok.free, ?_⟩
  rintro ⟨hfree, ⟨t, ht⟩, hnone⟩
  have hmem : t ∈ s.mutex.locked.sleepers := (ok.parked.mem_iff t).mpr ht
  obtain h2 | ⟨u, hu⟩ := ok.pending (List.ne_nil_of_mem hmem)
  · have h0 := ok.free.mpr hfree
    rw [h2] at h0
    exact absurd h0 (by decide)
  · rw [hnone u] at hu
    cases hu

/-- One thread sleeps while another has freed the lock and not yet woken it. -/
theorem mutex_safe_contended :
    ∃ s, runAll Mutex.step [.lock false, .step false, .lock true, .step true, .step true,
        .step true, .unlock false, .step false, .step false] (Mutex.start Bool 7) = some s ∧
      s.threads true = .asleep ∧ Unowned s ∧ ¬ ∀ t, willWake (s.threads t) = false := by
  obtain ⟨s, hs⟩ : ∃ s, runAll Mutex.step [.lock false, .step false, .lock true, .step true,
      .step true, .step true, .unlock false, .step false, .step false]
      (Mutex.start Bool 7) = some s := ⟨_, rfl⟩
  obtain ⟨-, hfree, hpending⟩ := mutex_safe 7 _ s hs
  have hasleep : s.threads true = .asleep ∧ s.mutex.locked.word = 0 := by
    obtain rfl := Option.some.inj hs
    exact ⟨rfl, rfl⟩
  have hun := hfree.mp hasleep.2
  exact ⟨s, hs, hasleep.1, hun, fun hnone => hpending ⟨hun, ⟨true, hasleep.1⟩, hnone⟩⟩

end Vani.Analysis
