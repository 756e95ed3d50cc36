import Vani.Library.Futex
import Mathlib.Algebra.Group.Nat.Defs
import Mathlib.Logic.Function.Basic

/-!
# The emitted mutexes

`intent_mutex_i64` on Linux: a futex whose word is 0 when the lock is free, 1 when it is taken
and 2 when it is taken and threads may sleep on it. Every access to memory and every system
call is one step of its thread; between the steps of one thread those of others come in any
order. A thread is here one that takes the lock at most once: where a thread locks again while
it holds, its second acquisition counts as another thread.
-/

set_option autoImplicit false

namespace Vani.Backend

open Vani.Library

/-- Source: backend_c.rs:4056 -/
structure Mutex (T : Type) where
  value : Int64
  locked : Futex T

/-- A thread at a mutex: before each step, with the variables that are live. At `retry`,
`woken` says whether `futex_wait` returned for a wake-up, which the code does not look at.
Source: backend_c.rs:4066-4112 -/
inductive Lock
  | idle
  | compareExchange
  | exchange
  | wait
  | asleep
  | retry (woken : Bool)
  | holding
  | subtract
  | reset
  | wake
  deriving DecidableEq

namespace Mutex

variable {T : Type}

/-- Source: backend_c.rs:4059-4064 -/
def new (initial : Int64) : Mutex T := ⟨initial, ⟨0, []⟩⟩

/-- The loop's test of the value that an exchange returned. -/
def afterExchange (c : Int32) : Lock := if c = 0 then .holding else .wait

/-- A step within `lock` or `unlock`, except for the system call that wakes.
Source: backend_c.rs:4068-4076, 4107-4110 -/
def advance (f : Futex T) (t : T) : Lock → Option (Lock × Futex T)
  | .compareExchange =>
    if f.word = 0 then some (.holding, { f with word := 1 })
    else some (if f.word ≠ 2 then .exchange else .wait, f)
  | .exchange | .retry _ => some (afterExchange f.word, { f with word := 2 })
  | .wait =>
    match f.wait t 2 with
    | some f' => some (.asleep, f')
    | none => some (.retry false, f)
  | .subtract => some (if f.word ≠ 1 then .reset else .idle, { f with word := f.word - 1 })
  | .reset => some (.wake, { f with word := 0 })
  | .idle | .asleep | .holding | .wake => none

/-- The mutex with its threads. -/
structure State (T : Type) where
  mutex : Mutex T
  threads : T → Lock

/-- What can come next: a thread calls, or takes a step within a call. At `wake` the kernel
has chosen whom it wakes. -/
inductive Action (T : Type)
  | lock (t : T)
  | step (t : T)
  | set (t : T) (v : Int64)
  | unlock (t : T)
  | wake (t : T) (woken : List T)

/-- The thread that takes the step. -/
def Action.thread : Action T → T
  | .lock t | .step t | .set t _ | .unlock t | .wake t _ => t

variable [DecidableEq T]

/-- The thread `t` goes on at `p`. -/
def State.goes (s : State T) (t : T) (p : Lock) (f : Futex T) : State T :=
  ⟨{ s.mutex with locked := f }, Function.update s.threads t p⟩

/-- What `t` reads. Source: backend_c.rs:4093-4095 -/
def State.get (s : State T) (t : T) : Option Int64 :=
  if s.threads t = .holding then some s.mutex.value else none

/-- A guard is had from `lock` and given up with `unlock`, so only who holds one calls on it.
Source: backend_c.rs:4066-4113 -/
def step (s : State T) : Action T → Option (State T)
  | .lock t =>
    if s.threads t = .idle then some (s.goes t .compareExchange s.mutex.locked) else none
  | .step t =>
    match advance s.mutex.locked t (s.threads t) with
    | some (p, f) => some (s.goes t p f)
    | none => none
  | .set t v =>
    if s.threads t = .holding then some { s with mutex := { s.mutex with value := v } } else none
  | .unlock t =>
    if s.threads t = .holding then some (s.goes t .subtract s.mutex.locked) else none
  | .wake t woken =>
    if s.threads t = .wake then
      match s.mutex.locked.wake 1 woken with
      | some f => some ⟨{ s.mutex with locked := f }, Function.update
          (fun u => if u ∈ woken then .retry true else s.threads u) t .idle⟩
      | none => none
    else none

/-- A new mutex, with no thread at it. -/
def start (T : Type) (initial : Int64) : State T := ⟨new initial, fun _ => .idle⟩

end Mutex

end Vani.Backend
