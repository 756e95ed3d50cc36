import Vani.Backend.Mutex

/-!
# The emitted condition variables

`intent_condvar` on Linux: a counter of notifies that wraps at 32 bits, on which waiters
sleep. A wait takes a snapshot of the counter under the mutex, releases the mutex, sleeps
unless the counter has moved on, and locks the mutex again. A time-out may come at any time.
Threads use the mutex outside of waits as well, and notify with or without it.
-/

set_option autoImplicit false

namespace Vani.Backend

open Vani.Library

/-- A thread in a call on the condition variable: before each step of it, with the variables
that are live; `timed` tells `wait_timeout` from `wait`. In `unlock` and `relock` it takes the
steps of the mutex. At `returned`, `rc` says whether the system call gave 0, and `relock`
has the result of a timed wait.
Source: backend_c.rs:3941-4004 -/
inductive Wait
  | outside
  | snapshot (timed : Bool)
  | unlock (snapshot : Int32) (timed : Bool)
  | park (snapshot : Int32) (timed : Bool)
  | asleep (snapshot : Int32) (timed : Bool)
  | returned (rc : Bool) (snapshot : Int32) (timed : Bool)
  | relock (notified : Bool)
  | notify (all : Bool)
  | wake (all : Bool)
  deriving DecidableEq

namespace Condvar

variable {T : Type}

/-- Source: backend_c.rs:3933-3939 -/
def new (T : Type) : Futex T := ⟨0, []⟩

/-- The condition variable and its mutex, with the threads. -/
structure State (T : Type) where
  seq : Futex T
  lock : Mutex.State T
  waits : T → Wait

/-- What can come next. At `wake` the kernel has chosen whom it wakes. -/
inductive Action (T : Type)
  | mutex (a : Mutex.Action T)
  | wait (t : T) (timed : Bool)
  | notify (t : T) (all : Bool)
  | step (t : T)
  | wake (t : T) (woken : List T)
  | timeout (t : T)

/-- The thread that takes the step. -/
def Action.thread : Action T → T
  | .mutex a => a.thread
  | .wait t _ | .notify t _ | .step t | .wake t _ | .timeout t => t

variable [DecidableEq T]

/-- The thread `t` goes on at `w`. -/
def State.goes (s : State T) (t : T) (w : Wait) : State T :=
  { s with waits := Function.update s.waits t w }

/-- Where a thread is when a step of the mutex has brought it to `p`: the calls of `unlock`
and of `lock` within a wait end. Source: backend_c.rs:3944, 3956 -/
def afterLock (p : Lock) : Wait → Wait
  | .unlock snapshot timed => if p = .idle then .park snapshot timed else .unlock snapshot timed
  | .relock notified => if p = .holding then .outside else .relock notified
  | w => w

/-- The mutex is called outside of waits, and by the waits themselves. -/
def mayTake (a : Mutex.Action T) : Wait → Bool
  | .outside => true
  | .unlock _ _ | .relock _ =>
    match a with
    | .step _ | .wake _ _ => true
    | _ => false
  | _ => false

/-- The counter is read again when the system call of a timed wait did not give 0.
Source: backend_c.rs:3968-3969 -/
def notified (s : State T) (rc : Bool) (snapshot : Int32) : Bool :=
  rc || decide (s.seq.word ≠ snapshot)

/-- The numbers of threads that the notifies ask the kernel to wake.
Source: backend_c.rs:3994, 4002 -/
def wakeCount (all : Bool) : Nat := if all then 0x7fffffff else 1

/-- What a thread does when it has been woken in its wait. -/
def afterWake : Wait → Wait
  | .asleep snapshot timed => .returned true snapshot timed
  | w => w

/-- A step within a call. Source: backend_c.rs:3941-4004 -/
def advance (s : State T) (t : T) : Wait → Option (State T)
  | .snapshot timed =>
    match Mutex.step s.lock (.unlock t) with
    | some lock => some { s.goes t (.unlock s.seq.word timed) with lock }
    | none => none
  | .park snapshot timed =>
    match s.seq.wait t snapshot with
    | some seq => some { s.goes t (.asleep snapshot timed) with seq }
    | none => some (s.goes t (.returned false snapshot timed))
  | .returned rc snapshot _ =>
    match Mutex.step s.lock (.lock t) with
    | some lock => some { s.goes t (.relock (notified s rc snapshot)) with lock }
    | none => none
  | .notify all =>
    some { s.goes t (.wake all) with seq := { s.seq with word := s.seq.word + 1 } }
  | _ => none

/-- A guard is had from `lock`, so only a holder calls `wait`. A time-out that is not a time
is reported before the comparison. Source: backend_c.rs:3941-4004 -/
def step (s : State T) : Action T → Option (State T)
  | .mutex a =>
    if mayTake a (s.waits a.thread) then
      match Mutex.step s.lock a with
      | some lock => some { s.goes a.thread (afterLock (lock.threads a.thread)
          (s.waits a.thread)) with lock }
      | none => none
    else none
  | .wait t timed =>
    if s.waits t = .outside ∧ s.lock.threads t = .holding then some (s.goes t (.snapshot timed))
    else none
  | .notify t all =>
    if s.waits t = .outside ∧ (s.lock.threads t = .idle ∨ s.lock.threads t = .holding) then
      some (s.goes t (.notify all))
    else none
  | .step t => advance s t (s.waits t)
  | .wake t woken =>
    match s.waits t with
    | .wake all =>
      match s.seq.wake (wakeCount all) woken with
      | some seq => some { s with
          seq
          waits := Function.update
            (fun u => if u ∈ woken then afterWake (s.waits u) else s.waits u) t .outside }
      | none => none
    | _ => none
  | .timeout t =>
    match s.waits t with
    | .asleep snapshot true =>
      some { s.goes t (.returned false snapshot true) with seq := s.seq.leave t }
    | .park snapshot true => some (s.goes t (.returned false snapshot true))
    | _ => none

/-- A new condition variable and a new mutex, with no thread at either. -/
def start (T : Type) (initial : Int64) : State T :=
  ⟨new T, Mutex.start T initial, fun _ => .outside⟩

end Condvar

end Vani.Backend
