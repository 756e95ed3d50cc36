import Vani.Analysis.ChannelRing
import Mathlib.Data.Int.ModEq
import Mathlib.Data.List.Infix

/-!
# The channel is a queue

What the threads know between their steps, over the window of slots: the consumer has read
what it has released, a producer about to take a ticket has room for it. Each step keeps
this, so in every interleaving the values come in the order of the tickets.
-/

set_option autoImplicit false

namespace Vani.Analysis

open Vani.Library Vani.Backend Vani.Backend.Channel

variable {P α : Type}

/-! ## What has been seen -/

def ticketOf : Event P α → Option (P × α)
  | .ticket p v => some (p, v)
  | _ => none

def readOf : Event P α → Option α
  | .read v => some v
  | _ => none

def receivedOf : Event P α → Option α
  | .received v => some v
  | _ => none

def calledOf [DecidableEq P] (p : P) : Event P α → Option α
  | .called q v => if q = p then some v else none
  | _ => none

/-- The values sent, with their producers, in the order of the tickets. -/
def tickets (tr : List (Event P α)) : List (P × α) := tr.filterMap ticketOf

/-- The values that the consumer has taken out of the slots. -/
def reads (tr : List (Event P α)) : List α := tr.filterMap readOf

/-- The values that calls of `recv` have returned. -/
def received (tr : List (Event P α)) : List α := tr.filterMap receivedOf

/-- The values that a producer has called `send` with, in order. -/
def calls [DecidableEq P] (p : P) (tr : List (Event P α)) : List α := tr.filterMap (calledOf p)

section Trace

variable (tr : List (Event P α)) (e : Event P α)

theorem filterMap_concat {β γ : Type} (f : β → Option γ) (l : List β) (b : β) :
    (l ++ [b]).filterMap f = l.filterMap f ++ (f b).toList := by
  rw [List.filterMap_append, List.filterMap_cons]
  cases f b <;> rfl

theorem tickets_concat : tickets (tr ++ [e]) = tickets tr ++ (ticketOf e).toList :=
  filterMap_concat ticketOf tr e

theorem reads_concat : reads (tr ++ [e]) = reads tr ++ (readOf e).toList :=
  filterMap_concat readOf tr e

theorem received_concat : received (tr ++ [e]) = received tr ++ (receivedOf e).toList :=
  filterMap_concat receivedOf tr e

theorem calls_concat [DecidableEq P] (p : P) :
    calls p (tr ++ [e]) = calls p tr ++ (calledOf p e).toList :=
  filterMap_concat (calledOf p) tr e

variable {tr e}

theorem tickets_of_none (h : ticketOf e = none) : tickets (tr ++ [e]) = tickets tr := by
  rw [tickets_concat, h]
  exact List.append_nil _

theorem reads_of_none (h : readOf e = none) : reads (tr ++ [e]) = reads tr := by
  rw [reads_concat, h]
  exact List.append_nil _

theorem received_of_none (h : receivedOf e = none) : received (tr ++ [e]) = received tr := by
  rw [received_concat, h]
  exact List.append_nil _

theorem calls_of_none [DecidableEq P] {p : P} (h : calledOf p e = none) :
    calls p (tr ++ [e]) = calls p tr := by
  rw [calls_concat, h]
  exact List.append_nil _

end Trace

/-- What a queue promises of a run: values are read and received in the order of the tickets,
the tickets of a producer are its calls in order, a slot is stored into only when what was
there has been read, a slot is free for the next ticket when fewer than `cap` values wait,
and when no producer is under way and the consumer waits, all that was sent has been
received. -/
structure InOrder [DecidableEq P] (cap : Nat) (tr : List (Event P α)) (s : State P α) : Prop where
  received : received tr <+: reads tr
  read : reads tr <+: (tickets tr).map Prod.snd
  program : ∀ p, ((tickets tr).filter fun x => x.1 = p).map Prod.snd <+: calls p tr
  sent : ∀ p, s.producers p = .idle →
    ((tickets tr).filter fun x => x.1 = p).map Prod.snd = calls p tr
  kept : ∀ tr₁ t tr₂, tr = tr₁ ++ .stored t :: tr₂ →
    ∀ t' : Nat, (t' : Int) < t → (t' : Int) % cap = t % cap → t' < (reads tr₁).length
  room : (tickets tr).length < (Analysis.received tr).length + cap →
    ∀ i, Channel.slot cap s.chan.tail = .done i → s.chan.seq[i]? = some s.chan.tail
  nothingLost : (∀ p, s.producers p = .idle) → ∀ h i, s.consumer = .poll h →
    Channel.slot cap h = .done i → s.chan.seq[i]? ≠ some (h + 1) →
      Analysis.received tr = (tickets tr).map Prod.snd

/-! ## The invariant -/

/-- The tickets released: those received, and the one under way once its slot is released. -/
def released (rc : List α) : Recv α → Nat
  | .advance _ _ => rc.length + 1
  | _ => rc.length

/-- The consumer's variables: `rs` has been read, `rc` received. -/
def RecvOk (N : Nat) (rs rc : List α) (c : Channel α) : Recv α → Prop
  | .idle | .loadHead => rs = rc
  | .poll h => h = rc.length ∧ rs = rc
  | .load h => h = rc.length ∧ rs = rc ∧ c.seq[rc.length % N]? = some ((rc.length : Int) + 1)
  | .release h v =>
    h = rc.length ∧ rs = rc ++ [v] ∧ c.seq[rc.length % N]? = some ((rc.length : Int) + 1)
  | .advance h v => h = rc.length ∧ rs = rc ++ [v]

/-- The value of a call that has no ticket yet. -/
def pending : Send α → List α
  | .loadTail v | .loadSeq v _ | .exchange v _ => [v]
  | _ => []

/-- A producer's variables before it has a ticket; `T` tickets are taken, and the ring has
`room` for the next. -/
def SendOk (T : Nat) (room : Prop) : Send α → Prop
  | .loadSeq _ t => ∃ n : Nat, t = n ∧ n ≤ T
  | .exchange _ t => ∃ n : Nat, t = n ∧ n ≤ T ∧ (n = T → room)
  | _ => True

/-- The invariant of a run of the channel. -/
structure ChannelOk [DecidableEq P] (N : Nat) (tr : List (Event P α)) (s : State P α) : Prop where
  ring : Ring N (released (received tr) s.consumer) (tickets tr) s.producers s.chan
  head : s.chan.head = (received tr).length
  recv : RecvOk N (reads tr) (received tr) s.chan s.consumer
  inOrder : reads tr <+: (tickets tr).map Prod.snd
  send : ∀ p, SendOk (tickets tr).length
    ((tickets tr).length < released (received tr) s.consumer + N) (s.producers p)
  program : ∀ p, calls p tr =
    ((tickets tr).filter fun x => x.1 = p).map Prod.snd ++ pending (s.producers p)
  kept : ∀ tr₁ (t : Int) tr₂, tr = tr₁ ++ .stored t :: tr₂ → t < (reads tr₁).length + N

section Steps

variable {N : Nat} {tr : List (Event P α)} {s : State P α} {p : P} {v : α}

/-- An earlier store, or the one just seen. -/
theorem kept_concat {e : Event P α}
    (hold : ∀ tr₁ (t : Int) tr₂, tr = tr₁ ++ .stored t :: tr₂ → t < (reads tr₁).length + N)
    (hnew : ∀ t : Int, e = .stored t → t < (reads tr).length + N) (tr₁ : List (Event P α)) (t : Int)
    (tr₂ : List (Event P α)) (h : tr ++ [e] = tr₁ ++ .stored t :: tr₂) :
    t < (reads tr₁).length + N := by
  rcases List.eq_nil_or_concat tr₂ with rfl | ⟨tr₃, e', rfl⟩
  · obtain ⟨rfl, he⟩ := List.append_inj' h rfl
    exact hnew t (List.cons.inj he).1
  · rw [List.concat_eq_append, ← List.cons_append, ← List.append_assoc] at h
    exact hold tr₁ t tr₃ (List.append_inj' h rfl).1

theorem SendOk.mono {T T' : Nat} {room room' : Prop} (hT : T ≤ T') (hroom : T = T' → room → room')
    {x : Send α} (h : SendOk T room x) : SendOk T' room' x := by
  cases x with
  | loadSeq v t =>
    obtain ⟨n, ht, hn⟩ := h
    exact ⟨n, ht, hn.trans hT⟩
  | exchange v t =>
    obtain ⟨n, ht, hn, hr⟩ := h
    refine ⟨n, ht, hn.trans hT, fun heq => ?_⟩
    obtain rfl : T = T' := by omega
    exact hroom rfl (hr heq)
  | _ => trivial

/-- A producer goes on. -/
theorem send_update [DecidableEq P] {T : Nat} {room : Prop} {ps : P → Send α} {x : Send α}
    (h : ∀ q, SendOk T room (ps q)) (hx : SendOk T room x) (q : P) :
    SendOk T room (Function.update ps p x q) :=
  (Function.forall_update_iff ps fun _ => SendOk T room).mpr ⟨hx, fun q _ => h q⟩ q

/-- The slot that the consumer has found published is not the one being published. -/
theorem RecvOk.publish {R : Nat} {ts : List (P × α)} {ps : P → Send α} {c : Channel α}
    {rs rc : List α} {x : Recv α} (h : RecvOk N rs rc c x) (hring : Ring N R ts ps c)
    (hR : R = released rc x) {n : Nat} (hp : ps p = .publish v n) :
    RecvOk N rs rc { c with seq := c.seq.setIfInBounds (n % N) (n + 1) } x := by
  have hother : R = rc.length → c.seq[rc.length % N]? = some ((rc.length : Int) + 1) →
      (c.seq.setIfInBounds (n % N) ((n : Int) + 1))[rc.length % N]? =
        some ((rc.length : Int) + 1) := by
    intro hlen hdone
    obtain ⟨m, hm, hRm, hx, hseq⟩ := hring.holder p v n (Or.inr hp)
    obtain rfl : n = m := by omega
    have hwin := hring.window hRm hx
    have hne : n ≠ rc.length := by
      rintro rfl
      rw [hdone] at hseq
      have hval := Option.some.inj hseq
      omega
    rw [Array.getElem?_setIfInBounds_ne (mod_ne_of_window hwin ⟨hlen.le, by omega⟩ hne), hdone]
  cases x with
  | load k => exact ⟨h.1, h.2.1, hother hR h.2.2⟩
  | release k w => exact ⟨h.1, h.2.1, hother hR h.2.2⟩
  | _ => exact h

variable [DecidableEq P]

/-- Nothing happens. -/
theorem ChannelOk.silent (h : ChannelOk N tr s) : ChannelOk N (tr ++ [.silent]) s where
  ring := by
    rw [tickets_of_none rfl, received_of_none rfl]
    exact h.ring
  head := by
    rw [received_of_none rfl]
    exact h.head
  recv := by
    rw [reads_of_none rfl, received_of_none rfl]
    exact h.recv
  inOrder := by
    rw [tickets_of_none rfl, reads_of_none rfl]
    exact h.inOrder
  send := by
    rw [tickets_of_none rfl, received_of_none rfl]
    exact h.send
  program p := by
    rw [tickets_of_none rfl, calls_of_none rfl]
    exact h.program p
  kept := kept_concat h.kept fun t ht => by cases ht

/-- A producer without a ticket goes on without one. -/
theorem ChannelOk.move (h : ChannelOk N tr s) (x : Send α)
    (hp : holdsTicket (s.producers p) = false) (hx : holdsTicket x = false)
    (hpending : pending x = pending (s.producers p))
    (hsend : SendOk (tickets tr).length
      ((tickets tr).length < released (received tr) s.consumer + N) x) :
    ChannelOk N tr { s with producers := Function.update s.producers p x } where
  ring := h.ring.move hp hx
  head := h.head
  recv := h.recv
  inOrder := h.inOrder
  send := send_update h.send hsend
  program q := by
    dsimp only
    by_cases hqp : q = p
    · subst hqp
      rw [Function.update_self, hpending]
      exact h.program q
    · rw [Function.update_of_ne hqp]
      exact h.program q
  kept := h.kept

/-- A producer calls `send`. -/
theorem ChannelOk.called (h : ChannelOk N tr s) (hp : s.producers p = .idle) :
    ChannelOk N (tr ++ [.called p v])
      { s with producers := Function.update s.producers p (.loadTail v) } where
  ring := by
    rw [tickets_of_none rfl, received_of_none rfl]
    exact h.ring.move (by rw [hp]; rfl) rfl
  head := by
    rw [received_of_none rfl]
    exact h.head
  recv := by
    rw [reads_of_none rfl, received_of_none rfl]
    exact h.recv
  inOrder := by
    rw [tickets_of_none rfl, reads_of_none rfl]
    exact h.inOrder
  send := by
    rw [tickets_of_none rfl, received_of_none rfl]
    exact send_update h.send trivial
  program q := by
    rw [tickets_of_none rfl, calls_concat]
    dsimp only [calledOf]
    by_cases hqp : q = p
    · subst hqp
      have hcalls := h.program q
      rw [hp] at hcalls
      rw [Function.update_self, if_pos rfl, hcalls]
      simp only [pending, List.append_nil, Option.toList]
    · rw [Function.update_of_ne hqp, if_neg (Ne.symm hqp), h.program q]
      exact List.append_nil _
  kept := kept_concat h.kept fun t ht => by cases ht

/-- A producer takes a ticket. -/
theorem ChannelOk.ticket (h : ChannelOk N tr s) (hp : s.producers p = .exchange v s.chan.tail) :
    ChannelOk N (tr ++ [.ticket p v])
      { s with
        chan := { s.chan with tail := s.chan.tail + 1 }
        producers := Function.update s.producers p (.store v s.chan.tail) } where
  ring := by
    obtain ⟨n, hn, -, hroom⟩ : SendOk _ _ (.exchange v s.chan.tail) := hp ▸ h.send p
    have htail := h.ring.tail
    rw [tickets_concat, received_of_none rfl, htail]
    exact h.ring.take (by rw [hp]; rfl) (hroom (by omega))
  head := by
    rw [received_of_none rfl]
    exact h.head
  recv := by
    rw [reads_of_none rfl, received_of_none rfl]
    exact h.recv
  inOrder := by
    rw [tickets_concat, reads_of_none rfl, List.map_append]
    exact h.inOrder.trans (List.prefix_append _ _)
  send := by
    rw [tickets_concat, received_of_none rfl, List.length_append]
    exact send_update (fun q => (h.send q).mono (Nat.le_succ _) fun heq => by omega) trivial
  program q := by
    rw [tickets_concat, calls_of_none rfl, List.filter_append]
    dsimp only [ticketOf]
    by_cases hqp : q = p
    · subst hqp
      have hcalls := h.program q
      rw [hp] at hcalls
      rw [Function.update_self, hcalls]
      simp [pending]
    · rw [Function.update_of_ne hqp, h.program q]
      simp [Ne.symm hqp]
  kept := kept_concat h.kept fun t ht => by cases ht

/-- A producer stores its value. -/
theorem ChannelOk.store (h : ChannelOk N tr s) {n : Nat} (hp : s.producers p = .store v n) :
    ChannelOk N (tr ++ [.stored n])
      { s with
        chan := { s.chan with buf := s.chan.buf.setIfInBounds (n % N) v }
        producers := Function.update s.producers p (.publish v n) } where
  ring := by
    rw [tickets_of_none rfl, received_of_none rfl]
    exact h.ring.store hp
  head := by
    rw [received_of_none rfl]
    exact h.head
  recv := by
    rw [reads_of_none rfl, received_of_none rfl]
    exact h.recv
  inOrder := by
    rw [tickets_of_none rfl, reads_of_none rfl]
    exact h.inOrder
  send := by
    rw [tickets_of_none rfl, received_of_none rfl]
    exact send_update h.send trivial
  program q := by
    rw [tickets_of_none rfl, calls_of_none rfl]
    dsimp only
    by_cases hqp : q = p
    · subst hqp
      have hcalls := h.program q
      rw [hp] at hcalls
      rw [Function.update_self]
      exact hcalls
    · rw [Function.update_of_ne hqp]
      exact h.program q
  kept := by
    refine kept_concat h.kept fun t ht => ?_
    cases ht
    -- the slot was released by reading what was there
    obtain ⟨m, hm, hR, hx, -⟩ := h.ring.holder p v n (Or.inl hp)
    have hwin := h.ring.window hR hx
    have hle : released (received tr) s.consumer ≤ (reads tr).length := by
      have hrecv := h.recv
      cases hc : s.consumer with
      | advance k w =>
        rw [hc] at hrecv
        rw [hrecv.2, List.length_append]
        exact le_rfl
      | release k w =>
        rw [hc] at hrecv
        rw [hrecv.2.1, List.length_append]
        exact Nat.le_add_right _ _
      | idle =>
        rw [hc] at hrecv
        exact (congrArg List.length hrecv).ge
      | loadHead =>
        rw [hc] at hrecv
        exact (congrArg List.length hrecv).ge
      | poll k =>
        rw [hc] at hrecv
        exact (congrArg List.length hrecv.2).ge
      | load k =>
        rw [hc] at hrecv
        exact (congrArg List.length hrecv.2.1).ge
    omega

/-- A producer publishes its ticket. -/
theorem ChannelOk.publish (h : ChannelOk N tr s) {n : Nat} (hp : s.producers p = .publish v n) :
    ChannelOk N tr
      { s with
        chan := { s.chan with seq := s.chan.seq.setIfInBounds (n % N) (n + 1) }
        producers := Function.update s.producers p .idle } where
  ring := h.ring.publish hp
  head := h.head
  recv := h.recv.publish h.ring rfl hp
  inOrder := h.inOrder
  send := send_update h.send trivial
  program q := by
    dsimp only
    by_cases hqp : q = p
    · subst hqp
      have hcalls := h.program q
      rw [hp] at hcalls
      rw [Function.update_self]
      exact hcalls
    · rw [Function.update_of_ne hqp]
      exact h.program q
  kept := h.kept

/-- The consumer goes on, and what it knows holds. -/
theorem ChannelOk.wait (h : ChannelOk N tr s) {x : Recv α}
    (hreleased : released (received tr) x = released (received tr) s.consumer)
    (hrecv : RecvOk N (reads tr) (received tr) s.chan x) :
    ChannelOk N tr { s with consumer := x } where
  ring := by
    rw [hreleased]
    exact h.ring
  head := h.head
  recv := hrecv
  inOrder := h.inOrder
  send := by
    rw [hreleased]
    exact h.send
  program := h.program
  kept := h.kept

/-- The consumer reads the value of the first ticket of the window. -/
theorem ChannelOk.read (h : ChannelOk N tr s) (hN : 2 ≤ N) {k : Int} (hc : s.consumer = .load k)
    (hv : s.chan.buf[(received tr).length % N]? = some v) :
    ChannelOk N (tr ++ [.read v]) { s with consumer := .release k v } := by
  have hrecv := h.recv
  have hring := h.ring
  rw [hc] at hrecv hring
  obtain ⟨rfl, hrs, hdone⟩ := hrecv
  have hreads : reads (tr ++ [.read v]) = received tr ++ [v] := by
    rw [reads_concat, hrs]
    rfl
  have htickets : tickets (tr ++ [.read v]) = tickets tr := tickets_of_none rfl
  have hreceived : received (tr ++ [.read v]) = received tr := received_of_none rfl
  constructor
  case ring =>
    rw [htickets, hreceived]
    exact hring
  case head =>
    rw [hreceived]
    exact h.head
  case recv =>
    rw [hreads, hreceived]
    exact ⟨rfl, rfl, hdone⟩
  case inOrder =>
    rw [hreads, htickets]
    obtain ⟨x, hx, hbuf⟩ := hring.value_of_seq hdone hN
    change s.chan.buf[(received tr).length % N]? = some x.2 at hbuf
    obtain rfl : v = x.2 := Option.some.inj (hv.symm.trans hbuf)
    have hprefix := h.inOrder
    rw [hrs] at hprefix
    have hnext : ((tickets tr).map Prod.snd)[(received tr).length]? = some x.2 := by
      rw [List.getElem?_map]
      exact congrArg (Option.map Prod.snd) hx
    obtain ⟨hlt, hget⟩ := List.getElem?_eq_some_iff.mp hnext
    have hconcat := List.concat_get_prefix hprefix hlt
    rwa [List.get_eq_getElem, hget] at hconcat
  case send =>
    rw [htickets, hreceived]
    have hsend := h.send
    rw [hc] at hsend
    exact hsend
  case program =>
    intro p
    rw [htickets, calls_of_none rfl]
    exact h.program p
  case kept => exact kept_concat h.kept fun t ht => by cases ht

/-- The consumer releases the slot of the first ticket of the window. -/
theorem ChannelOk.release (h : ChannelOk N tr s) (hN : 2 ≤ N) {k : Int}
    (hc : s.consumer = .release k v) :
    ChannelOk N tr
      { s with
        chan := { s.chan with
          seq := s.chan.seq.setIfInBounds ((received tr).length % N) ((received tr).length + N) }
        consumer := .advance k v } := by
  have hrecv := h.recv
  have hring := h.ring
  have hsend := h.send
  rw [hc] at hrecv hring hsend
  obtain ⟨hk, hrs, hdone⟩ := hrecv
  obtain ⟨x, hx, -⟩ := hring.value_of_seq hdone hN
  exact {
    ring := hring.release (List.getElem?_eq_some_iff.mp hx).1 hdone
    head := h.head
    recv := ⟨hk, hrs⟩
    inOrder := h.inOrder
    send := fun p => (hsend p).mono le_rfl fun _ (hroom : _ < (received tr).length + N) =>
      show _ < (received tr).length + 1 + N by omega
    program := h.program
    kept := h.kept }

/-- A call of `recv` returns. -/
theorem ChannelOk.receive (h : ChannelOk N tr s) {k : Int} (hc : s.consumer = .advance k v) :
    ChannelOk N (tr ++ [.received v])
      { s with chan := { s.chan with head := k + 1 }, consumer := .idle } := by
  have hrecv := h.recv
  have hring := h.ring
  have hsend := h.send
  rw [hc] at hrecv hring hsend
  obtain ⟨hk, hrs⟩ := hrecv
  have hreads : reads (tr ++ [.received v]) = reads tr := reads_of_none rfl
  have htickets : tickets (tr ++ [.received v]) = tickets tr := tickets_of_none rfl
  have hreceived : received (tr ++ [.received v]) = received tr ++ [v] := by
    rw [received_concat]
    rfl
  have hlength : (received (tr ++ [.received v])).length = (received tr).length + 1 := by
    rw [hreceived, List.length_append, List.length_singleton]
  constructor
  case ring =>
    rw [htickets]
    change Ring N (received (tr ++ [.received v])).length _ _ _
    rw [hlength]
    exact { hring with }
  case head =>
    change k + 1 = _
    rw [hlength, hk]
    rfl
  case recv => exact hreads.trans (hrs.trans hreceived.symm)
  case inOrder =>
    rw [hreads, htickets]
    exact h.inOrder
  case send =>
    rw [htickets]
    change ∀ p, SendOk _ (_ < (received (tr ++ [.received v])).length + N) _
    rw [hlength]
    exact hsend
  case program =>
    intro p
    rw [htickets, calls_of_none rfl]
    exact h.program p
  case kept => exact kept_concat h.kept fun t ht => by cases ht

/-! ## Steps -/

theorem int64_of_lt {x : Int} (hle : 0 ≤ x) (hlt : x < 2 ^ 63) : int64 x = .done x :=
  if_pos ⟨by omega, hlt⟩

/-- A step of a producer. -/
theorem ChannelOk.sendStep (h : ChannelOk N tr s) {k : Nat} (hpow : N = 2 ^ k) (hN : 2 ≤ N)
    (hbound : s.chan.tail + N ≤ 2 ^ 63) (p : P) :
    ∃ e x chan, Channel.sendStep N s.chan p (s.producers p) = .done (e, x, chan) ∧
      ChannelOk N (tr ++ [e])
        { s with chan, producers := Function.update s.producers p x } := by
  have htail := h.ring.tail
  have hsend := h.send p
  have hprogram := h.program p
  generalize hp : s.producers p = x at hsend hprogram
  cases x with
  | idle =>
    exact ⟨_, _, _, rfl, (h.move .idle (by rw [hp]; rfl) rfl (by rw [hp]) trivial).silent⟩
  | loadTail v =>
    refine ⟨_, _, _, rfl, (h.move (.loadSeq v _) (by rw [hp]; rfl) rfl (by rw [hp]; rfl) ?_).silent⟩
    exact ⟨_, htail, le_rfl⟩
  | loadSeq v t =>
    obtain ⟨n, rfl, hn⟩ := hsend
    obtain ⟨y, hy, hpos, hlt⟩ := h.ring.seq_lt (Nat.mod_lt n (by omega))
    have hdiff : int64 (y - n) = .done (y - n) := if_pos ⟨by omega, by omega⟩
    have hstep : Channel.sendStep N s.chan p (.loadSeq v n) =
        .done (.silent, if y - n = 0 then .exchange v n else .loadTail v, s.chan) := by
      simp only [Channel.sendStep, slot_eq hpow, Outcome.done_bind, Outcome.read, hy, hdiff,
        Outcome.pure_eq]
    refine ⟨_, _, _, hstep, ?_⟩
    split
    · rename_i hzero
      refine (h.move (.exchange v n) (by rw [hp]; rfl) rfl (by rw [hp]; rfl) ?_).silent
      refine ⟨n, rfl, hn, ?_⟩
      rintro rfl
      exact h.ring.room_of_seq hN (by rw [hy]; congr 1; omega)
    · exact (h.move (.loadTail v) (by rw [hp]; rfl) rfl (by rw [hp]; rfl) trivial).silent
  | exchange v t =>
    obtain ⟨n, rfl, hn, -⟩ := hsend
    have hnext : int64 ((n : Int) + 1) = .done ((n : Int) + 1) :=
      int64_of_lt (by omega) (by omega)
    by_cases heq : s.chan.tail = n
    · have hstep : Channel.sendStep N s.chan p (.exchange v n) =
          .done (.ticket p v, .store v n, { s.chan with tail := n + 1 }) := by
        simp only [Channel.sendStep, hnext, Outcome.done_bind, Outcome.pure_eq, if_pos heq]
      refine ⟨_, _, _, hstep, ?_⟩
      rw [← heq] at hp ⊢
      exact h.ticket hp
    · have hstep : Channel.sendStep N s.chan p (.exchange v n) =
          .done (.silent, .loadTail v, s.chan) := by
        simp only [Channel.sendStep, hnext, Outcome.done_bind, Outcome.pure_eq, if_neg heq]
      refine ⟨_, _, _, hstep, ?_⟩
      exact (h.move (.loadTail v) (by rw [hp]; rfl) rfl (by rw [hp]; rfl) trivial).silent
  | store v t =>
    obtain ⟨n, rfl, -⟩ := h.ring.holder p v t (Or.inl hp)
    have hlt : n % N < s.chan.buf.size := by
      rw [h.ring.buf_size]
      exact Nat.mod_lt n (by omega)
    have hstep : Channel.sendStep N s.chan p (.store v n) =
        .done (.stored n, .publish v n,
          { s.chan with buf := s.chan.buf.setIfInBounds (n % N) v }) := by
      simp only [Channel.sendStep, slot_eq hpow, Outcome.done_bind, Outcome.write_of_lt hlt,
        Outcome.pure_eq]
    exact ⟨_, _, _, hstep, h.store hp⟩
  | publish v t =>
    obtain ⟨n, rfl, hR, hx, -⟩ := h.ring.holder p v t (Or.inr hp)
    have hn := (List.getElem?_eq_some_iff.mp hx).1
    have hlt : n % N < s.chan.seq.size := by
      rw [h.ring.seq_size]
      exact Nat.mod_lt n (by omega)
    have hnext : int64 ((n : Int) + 1) = .done ((n : Int) + 1) :=
      int64_of_lt (by omega) (by omega)
    have hstep : Channel.sendStep N s.chan p (.publish v n) =
        .done (.silent, .idle,
          { s.chan with seq := s.chan.seq.setIfInBounds (n % N) (n + 1) }) := by
      simp only [Channel.sendStep, slot_eq hpow, Outcome.done_bind, hnext,
        Outcome.write_of_lt hlt, Outcome.pure_eq]
    exact ⟨_, _, _, hstep, (h.publish hp).silent⟩

/-- A step of the consumer. -/
theorem ChannelOk.recvStep (h : ChannelOk N tr s) {k : Nat} (hpow : N = 2 ^ k) (hN : 2 ≤ N)
    (hbound : s.chan.tail + N ≤ 2 ^ 63) :
    ∃ e consumer chan, Channel.recvStep N s.chan s.consumer = .done (e, consumer, chan) ∧
      ChannelOk N (tr ++ [e]) { s with chan, consumer } := by
  have htail := h.ring.tail
  have hrecv := h.recv
  have hring := h.ring
  have hle := h.ring.le
  generalize hc : s.consumer = x at hrecv hring hle
  cases x with
  | idle =>
    refine ⟨_, _, _, rfl, ?_⟩
    rw [← hc]
    exact h.silent
  | loadHead =>
    exact ⟨_, _, _, rfl, (h.wait (x := .poll _) (by rw [hc]; rfl) ⟨h.head, hrecv⟩).silent⟩
  | poll t =>
    obtain ⟨rfl, hrs⟩ := hrecv
    obtain ⟨y, hy, -⟩ := hring.seq_lt (Nat.mod_lt (received tr).length (by omega))
    have hnext : int64 (((received tr).length : Int) + 1) =
        .done (((received tr).length : Int) + 1) :=
      int64_of_lt (by omega) (by change (received tr).length ≤ _ at hle; omega)
    have hstep : Channel.recvStep N s.chan (.poll (received tr).length) =
        .done ((.silent : Event P α), if y = (received tr).length + 1 then
          .load (received tr).length else .poll (received tr).length, s.chan) := by
      simp only [Channel.recvStep, slot_eq hpow, Outcome.done_bind, Outcome.read, hy, hnext,
        Outcome.pure_eq]
    refine ⟨_, _, _, hstep, ?_⟩
    split
    · rename_i hdone
      rw [hdone] at hy
      exact (h.wait (x := .load _) (by rw [hc]; rfl) ⟨rfl, hrs, hy⟩).silent
    · exact (h.wait (x := .poll _) (by rw [hc]) ⟨rfl, hrs⟩).silent
  | load t =>
    obtain ⟨rfl, hrs, hdone⟩ := hrecv
    obtain ⟨x, -, hbuf⟩ := hring.value_of_seq hdone hN
    have hstep : Channel.recvStep N s.chan (.load (received tr).length) =
        .done ((.read x.2 : Event P α), .release (received tr).length x.2, s.chan) := by
      change s.chan.buf[(received tr).length % N]? = _ at hbuf
      simp only [Channel.recvStep, slot_eq hpow, Outcome.done_bind, Outcome.read, hbuf,
        Outcome.pure_eq]
    exact ⟨_, _, _, hstep, h.read hN hc hbuf⟩
  | release t v =>
    obtain ⟨rfl, hrs, hdone⟩ := hrecv
    obtain ⟨x, hx, -⟩ := hring.value_of_seq hdone hN
    have hlt : (received tr).length < (tickets tr).length := (List.getElem?_eq_some_iff.mp hx).1
    have hsize : (received tr).length % N < s.chan.seq.size := by
      rw [h.ring.seq_size]
      exact Nat.mod_lt _ (by omega)
    have hnext : int64 (((received tr).length : Int) + N) =
        .done (((received tr).length : Int) + N) :=
      int64_of_lt (by omega) (by omega)
    have hstep : Channel.recvStep N s.chan (.release (received tr).length v) =
        .done ((.silent : Event P α), .advance (received tr).length v,
          { s.chan with
            seq := s.chan.seq.setIfInBounds ((received tr).length % N)
              ((received tr).length + N) }) := by
      simp only [Channel.recvStep, slot_eq hpow, Outcome.done_bind, hnext,
        Outcome.write_of_lt hsize, Outcome.pure_eq]
    exact ⟨_, _, _, hstep, (h.release hN hc).silent⟩
  | advance t v =>
    obtain ⟨rfl, hrs⟩ := hrecv
    have hnext : int64 (((received tr).length : Int) + 1) =
        .done (((received tr).length : Int) + 1) :=
      int64_of_lt (by omega) (by change (received tr).length + 1 ≤ _ at hle; omega)
    have hstep : Channel.recvStep N s.chan (.advance (received tr).length v) =
        .done ((.received v : Event P α), .idle,
          { s.chan with head := (received tr).length + 1 }) := by
      simp only [Channel.recvStep, hnext, Outcome.done_bind, Outcome.pure_eq]
    exact ⟨_, _, _, hstep, h.receive hc⟩

/-- A step of the system, after `tail` tickets. -/
theorem ChannelOk.step (h : ChannelOk N tr s) {k : Nat} (hpow : N = 2 ^ k) (hN : 2 ≤ N)
    (hbound : s.chan.tail + N ≤ 2 ^ 63) (a : Channel.Action P α) :
    ∃ e s', Channel.step N s a = .done (e, s') ∧ ChannelOk N (tr ++ [e]) s' := by
  cases a with
  | send p v =>
    cases hp : s.producers p with
    | idle => exact ⟨_, _, by simp only [Channel.step, hp]; rfl, h.called hp⟩
    | _ => exact ⟨_, _, by simp only [Channel.step, hp]; rfl, h.silent⟩
  | producer p =>
    obtain ⟨e, x, chan, hstep, hok⟩ := h.sendStep hpow hN hbound p
    exact ⟨_, _, by simp only [Channel.step, hstep]; rfl, hok⟩
  | recv =>
    cases hc : s.consumer with
    | idle =>
      refine ⟨_, _, by simp only [Channel.step, hc]; rfl, ?_⟩
      have hrecv := h.recv
      rw [hc] at hrecv
      exact (h.wait (x := .loadHead) (by rw [hc]; rfl) hrecv).silent
    | _ => exact ⟨_, _, by simp only [Channel.step, hc]; rfl, h.silent⟩
  | consumer =>
    obtain ⟨e, consumer, chan, hstep, hok⟩ := h.recvStep hpow hN hbound
    exact ⟨_, _, by simp only [Channel.step, hstep]; rfl, hok⟩

/-! ## Runs -/

/-- A new channel. -/
theorem ChannelOk.start (hsmall : N < 2 ^ 31) (zero : α) :
    ∃ s, Channel.start P N zero = .done ([], s) ∧ ChannelOk N [] s := by
  refine ⟨⟨⟨Array.replicate N zero, Array.ofFn (n := N) fun i => (i : Int), 0, 0⟩,
    fun _ => .idle, .idle⟩, ?_, ?_⟩
  · simp only [Channel.start, new, if_pos hsmall]
    rfl
  · constructor
    case ring =>
      refine ⟨Array.size_replicate, Array.size_ofFn, rfl, Nat.zero_le _, le_rfl,
        fun n _ hlt => ?_, fun n q w _ hq => ?_, fun q w t hq => ?_⟩
      · have hn : n < N := (Nat.zero_add N).symm ▸ hlt
        rw [Nat.mod_eq_of_lt hn, Array.getElem?_ofFn, dif_pos hn]
      · cases hq
      · rcases hq with hq | hq <;> cases hq
    case head => rfl
    case recv => rfl
    case inOrder => exact List.nil_prefix
    case send => exact fun _ => trivial
    case program => exact fun _ => rfl
    case kept =>
      intro tr₁ t tr₂ h
      cases tr₁ <;> cases h

/-- Every step of a run keeps the invariant. -/
theorem ChannelOk.exec {k : Nat} (hpow : N = 2 ^ k) (hN : 2 ≤ N) (acts : List (Channel.Action P α))
    (h : ChannelOk N tr s)
    (hbound : ∀ acts₁ a acts₂ tr' s', acts = acts₁ ++ a :: acts₂ →
      Channel.exec N acts₁ (tr, s) = .done (tr', s') → s'.chan.tail + N ≤ 2 ^ 63) :
    ∃ tr' s', Channel.exec N acts (tr, s) = .done (tr', s') ∧ ChannelOk N tr' s' := by
  induction acts generalizing tr s with
  | nil => exact ⟨tr, s, rfl, h⟩
  | cons a as ih =>
    obtain ⟨e, s', hstep, hok⟩ := h.step hpow hN (hbound [] a as tr s rfl rfl) a
    have hexec : ∀ l, Channel.exec N (a :: l) (tr, s) = Channel.exec N l (tr ++ [e], s') := by
      intro l
      simp only [Channel.exec, hstep, Outcome.done_bind]
    rw [hexec]
    refine ih hok fun acts₁ b acts₂ tr₁ s₁ has hrun => ?_
    refine hbound (a :: acts₁) b acts₂ tr₁ s₁ ?_ ?_
    · rw [has, List.cons_append]
    · rw [hexec, hrun]

/-- What has been received has been read. -/
theorem RecvOk.received_prefix {rs rc : List α} {c : Channel α} {x : Recv α}
    (h : RecvOk N rs rc c x) : rc <+: rs := by
  cases x with
  | idle => exact (show rs = rc from h) ▸ List.prefix_rfl
  | loadHead => exact (show rs = rc from h) ▸ List.prefix_rfl
  | poll t => exact h.2 ▸ List.prefix_rfl
  | load t => exact h.2.1 ▸ List.prefix_rfl
  | release t v => exact h.2.1 ▸ List.prefix_append _ _
  | advance t v => exact h.2 ▸ List.prefix_append _ _

/-- The invariant makes the channel a queue. -/
theorem ChannelOk.queue (h : ChannelOk N tr s) {k : Nat} (hpow : N = 2 ^ k) :
    InOrder N tr s where
  received := h.recv.received_prefix
  read := h.inOrder
  program p := by
    rw [h.program p]
    exact List.prefix_append _ _
  sent p hp := by
    rw [h.program p, hp]
    exact (List.append_nil _).symm
  kept := by
    intro tr₁ t tr₂ htr m hlt hmod
    have hkept := h.kept tr₁ t tr₂ htr
    -- an earlier ticket of the slot is the capacity or more earlier
    have hdvd : (N : Int) ∣ t - m := Int.ModEq.dvd hmod
    have hle := Int.le_of_dvd (by omega) hdvd
    omega
  room := by
    intro hlt i hi
    rw [h.ring.tail, slot_eq hpow] at hi
    cases hi
    rw [h.ring.tail]
    refine h.ring.free _ le_rfl ?_
    have hle : (Analysis.received tr).length ≤ released (Analysis.received tr) s.consumer := by
      unfold released
      split <;> omega
    omega
  nothingLost := by
    intro hidle t i hc hi hpoll
    have hrecv := h.recv
    have hring := h.ring
    rw [hc] at hrecv hring
    obtain ⟨rfl, hrs⟩ := hrecv
    rw [slot_eq hpow] at hi
    cases hi
    have hle : (tickets tr).length ≤ (Analysis.received tr).length := by
      by_contra hlt
      have hx := List.getElem?_eq_getElem (Nat.not_le.mp hlt)
      rcases hring.taken _ _ _ le_rfl hx with ⟨-, hst⟩ | ⟨-, hst, -⟩ | ⟨hdone, -⟩
      · rw [hidle] at hst
        cases hst
      · rw [hidle] at hst
        cases hst
      · exact hpoll hdone
    have hprefix := h.inOrder
    rw [hrs] at hprefix
    refine hprefix.eq_of_length_le ?_
    rwa [List.length_map]

end Steps

/-- Every interleaving of a channel of two slots or more is that of a queue, while there are
tickets in 64 bits. -/
theorem channel_inOrder [DecidableEq P] (N : Nat) (haccepted : channelCapacityIsPow2 N = true)
    (hone : N ≠ 1) (hsmall : N < 2 ^ 31) (zero : α) (acts : List (Channel.Action P α))
    (hbound : ∀ acts₁ a acts₂ tr s, acts = acts₁ ++ a :: acts₂ →
      (start P N zero >>= exec N acts₁) = .done (tr, s) → s.chan.tail + N ≤ 2 ^ 63) :
    ∃ tr s, (start P N zero >>= exec N acts) = .done (tr, s) ∧ InOrder N tr s := by
  obtain ⟨k, hpow⟩ := pow2_of_accepted haccepted
  have hpos : 0 < N := by
    rw [hpow]
    exact Nat.two_pow_pos k
  obtain ⟨s, hstart, hok⟩ := ChannelOk.start (P := P) hsmall zero
  rw [hstart] at hbound ⊢
  obtain ⟨tr', s', hexec, hok'⟩ := ChannelOk.exec hpow (by omega) acts hok hbound
  exact ⟨tr', s', hexec, hok'.queue hpow⟩

/-- A value sent and received through two slots. -/
def oneSend : List (Channel.Action Unit Nat) :=
  [.send () 5, .producer (), .producer (), .producer (), .producer (), .producer (), .recv,
    .consumer, .consumer, .consumer, .consumer, .consumer]

theorem channel_inOrder_oneSend :
    ∃ tr s, (start Unit 2 0 >>= exec 2 oneSend) = .done (tr, s) ∧ InOrder 2 tr s := by
  refine channel_inOrder 2 (by decide) (by decide) (by decide) 0 oneSend ?_
  intro acts₁ a acts₂ tr s hacts hrun
  have hall : ∀ n < 12, (match start Unit 2 0 >>= exec 2 (oneSend.take n) with
      | .done (_, s) => decide (s.chan.tail + 2 ≤ 2 ^ 63)
      | _ => true) = true := by decide
  have htake : oneSend.take acts₁.length = acts₁ := by rw [hacts, List.take_left]
  have hlength : acts₁.length < oneSend.length := by
    rw [hacts, List.length_append, List.length_cons]
    omega
  have hbound := hall _ hlength
  rw [htake, hrun] at hbound
  exact of_decide_eq_true hbound

/-- One slot, and two values sent before any is read. -/
def twoSends : List (Channel.Action Unit Nat) :=
  [.send () 5, .producer (), .producer (), .producer (), .producer (), .producer (),
    .send () 6, .producer (), .producer (), .producer (), .producer ()]

/-- With one slot the mark of a published ticket is the next ticket, so the second value
overwrites the first. -/
theorem oneSlot_refutes : channelCapacityIsPow2 1 = true ∧
    ∃ tr s, (start Unit 1 0 >>= exec 1 twoSends) = .done (tr, s) ∧ ¬ InOrder 1 tr s := by
  refine ⟨by decide, _, _, rfl, fun h => ?_⟩
  have hkept := h.kept _ 1 [] rfl 0 (by decide) (by decide)
  cases hkept

end Vani.Analysis
