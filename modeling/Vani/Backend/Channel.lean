import Vani.Library.Outcome
import Mathlib.Data.Int.Bitwise
import Mathlib.Logic.Function.Basic

/-!
# The emitted channels

`intent_channel_T_N`: a ring of slots, each with a sequence number, and the counters `head`
and `tail`. Any number of producers send, one consumer receives, and every access to memory
is one step of its thread; between the steps of one thread those of others come in any
order. Counters are `int64_t`, and their overflow is undefined.
-/

set_option autoImplicit false

namespace Vani.Backend

open Vani.Library

/-- Source: checker.rs:15188-15190 -/
def channelCapacityIsPow2 (n : Nat) : Bool := decide (0 < n) && (n &&& (n - 1)) == 0

/-- Source: backend_c.rs:3829-3838 -/
structure Channel (α : Type) where
  buf : Array α
  seq : Array Int
  head : Int
  tail : Int

/-- A thread in `send`: before each access to memory, with the variables that are live.
Source: backend_c.rs:3840-3859 -/
inductive Send (α : Type)
  | idle
  | loadTail (v : α)
  | loadSeq (v : α) (t : Int)
  | exchange (v : α) (t : Int)
  | store (v : α) (t : Int)
  | publish (v : α) (t : Int)

/-- A thread in `recv`. Source: backend_c.rs:3861-3871 -/
inductive Recv (α : Type)
  | idle
  | loadHead
  | poll (h : Int)
  | load (h : Int)
  | release (h : Int) (v : α)
  | advance (h : Int) (v : α)

namespace Channel

variable {P α : Type}

/-- A value of an `int64_t` expression. -/
def int64 (x : Int) : Outcome Int := if -2 ^ 63 ≤ x ∧ x < 2 ^ 63 then pure x else .stuck

/-- `t & (CAP - 1)`, as an index. -/
def slot (cap : Nat) (t : Int) : Outcome Nat :=
  if 0 ≤ t.land (cap - 1) then pure (t.land (cap - 1)).toNat else .stuck

/-- The counter of the loops is an `int`, and passes the capacity at their end.
Source: backend_c.rs:3873-3880 -/
def new (cap : Nat) (zero : α) : Outcome (Channel α) :=
  if cap < 2 ^ 31 then
    pure ⟨Array.replicate cap zero, Array.ofFn (n := cap) fun i => (i : Int), 0, 0⟩
  else .stuck

/-- What a step does that an observer of the channel may want to know. -/
inductive Event (P α : Type)
  | called (p : P) (v : α)
  | ticket (p : P) (v : α)
  | stored (t : Int)
  | read (v : α)
  | received (v : α)
  | silent

/-- A step of a producer. Source: backend_c.rs:3840-3859 -/
def sendStep (cap : Nat) (c : Channel α) (p : P) :
    Send α → Outcome (Event P α × Send α × Channel α)
  | .idle => pure (.silent, .idle, c)
  | .loadTail v => pure (.silent, .loadSeq v c.tail, c)
  | .loadSeq v t => do
    let s ← Outcome.read c.seq (← slot cap t)
    let diff ← int64 (s - t)
    pure (.silent, if diff = 0 then .exchange v t else .loadTail v, c)
  | .exchange v t => do
    let next ← int64 (t + 1)
    pure (if c.tail = t then (.ticket p v, .store v t, { c with tail := next })
      else (.silent, .loadTail v, c))
  | .store v t => do
    let buf ← Outcome.write c.buf (← slot cap t) v
    pure (.stored t, .publish v t, { c with buf })
  | .publish _ t => do
    let seq ← Outcome.write c.seq (← slot cap t) (← int64 (t + 1))
    pure (.silent, .idle, { c with seq })

/-- A step of the consumer. Source: backend_c.rs:3861-3871 -/
def recvStep (cap : Nat) (c : Channel α) : Recv α → Outcome (Event P α × Recv α × Channel α)
  | .idle => pure (.silent, .idle, c)
  | .loadHead => pure (.silent, .poll c.head, c)
  | .poll h => do
    let s ← Outcome.read c.seq (← slot cap h)
    let next ← int64 (h + 1)
    pure (.silent, if s = next then .load h else .poll h, c)
  | .load h => do
    let v ← Outcome.read c.buf (← slot cap h)
    pure (.read v, .release h v, c)
  | .release h v => do
    let seq ← Outcome.write c.seq (← slot cap h) (← int64 (h + cap))
    pure (.silent, .advance h v, { c with seq })
  | .advance h v => do
    let head ← int64 (h + 1)
    pure (.received v, .idle, { c with head })

/-- The channel with its threads. -/
structure State (P α : Type) where
  chan : Channel α
  producers : P → Send α
  consumer : Recv α

/-- What can come next: a thread between two calls calls, or a thread takes a step. -/
inductive Action (P α : Type)
  | send (p : P) (v : α)
  | producer (p : P)
  | recv
  | consumer

variable [DecidableEq P]

/-- A thread within a call does not call. -/
def step (cap : Nat) (s : State P α) : Action P α → Outcome (Event P α × State P α)
  | .send p v =>
    match s.producers p with
    | .idle =>
      pure (.called p v, { s with producers := Function.update s.producers p (.loadTail v) })
    | _ => pure (.silent, s)
  | .producer p => do
    let (e, x, chan) ← sendStep cap s.chan p (s.producers p)
    pure (e, { s with chan, producers := Function.update s.producers p x })
  | .recv =>
    match s.consumer with
    | .idle => pure (.silent, { s with consumer := .loadHead })
    | _ => pure (.silent, s)
  | .consumer => do
    let (e, consumer, chan) ← recvStep cap s.chan s.consumer
    pure (e, { s with chan, consumer })

/-- An interleaving, with what has been seen of it. -/
def exec (cap : Nat) : List (Action P α) → List (Event P α) × State P α →
    Outcome (List (Event P α) × State P α)
  | [], x => pure x
  | a :: as, (tr, s) => do
    let (e, s) ← step cap s a
    exec cap as (tr ++ [e], s)

/-- A new channel, with all threads between two calls. -/
def start (P : Type) (cap : Nat) (zero : α) : Outcome (List (Event P α) × State P α) := do
  let chan ← new cap zero
  pure ([], ⟨chan, fun _ => .idle, .idle⟩)

end Channel

end Vani.Backend
