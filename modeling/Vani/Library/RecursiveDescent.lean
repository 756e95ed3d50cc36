import Vani.Library.Outcome

/-!
# Recursive-descent parsers

A parser reads from a state and changes it, also where it fails: an error is a value, and a
caller may go on behind it. Parsers that call one another take what they call as an argument,
so that the bound on the depth of the calls stands in one place.

A contract says which states the parsers meet, how much a state has left to read, which errors
they report, how a state may come after another, and for a type what its results are like. A parser
meets it below a bound if it returns from every state with less left than the bound. Behind a
parser that reads something the bound is one lower, which is what a parser that calls itself needs.

Sequences and branches meet the contract where their parts do; this is what the instances say, so
that no such step is proved by hand.
-/

set_option autoImplicit false

namespace Vani.Library

/-- A parser over states `σ` with errors `ε`. -/
def Parser (σ ε α : Type) : Type := σ → Outcome (Except ε α × σ)

namespace Parser

variable {σ ε α β γ : Type}

instance : Monad (Parser σ ε) where
  pure a := fun s => .done (.ok a, s)
  bind p f := fun s =>
    match p s with
    | .done (.ok a, s') => f a s'
    | .done (.error e, s') => .done (.error e, s')
    | .aborted => .aborted
    | .stuck => .stuck

/-- `return Err(e)` -/
def fail (e : ε) : Parser σ ε α := fun s => .done (.error e, s)

/-- A panic. -/
def abort : Parser σ ε α := fun _ => .aborted

/-- The bound on the calls is reached. -/
def stuck : Parser σ ε α := fun _ => .stuck

/-- The state. -/
def get : Parser σ ε σ := fun s => .done (.ok s, s)

/-- A change of the state. -/
def modify (f : σ → σ) : Parser σ ε Unit := fun s => .done (.ok (), f s)

/-- `match p() { Ok(..) => .., Err(..) => .. }` -/
def attempt (p : Parser σ ε α) : Parser σ ε (Except ε α) := fun s =>
  match p s with
  | .done (r, s') => .done (.ok r, s')
  | .aborted => .aborted
  | .stuck => .stuck

/-- A loop with a bound on its turns: the body goes on with a value or leaves with a result. -/
def iterate (body : β → Parser σ ε (β ⊕ γ)) : Nat → β → Parser σ ε γ
  | 0, _ => stuck
  | fuel + 1, b => do
    match ← body b with
    | .inl b' => iterate body fuel b'
    | .inr c => pure c

theorem bind_apply (p : Parser σ ε α) (f : α → Parser σ ε β) (s : σ) :
    (p >>= f) s = match p s with
      | .done (.ok a, s') => f a s'
      | .done (.error e, s') => .done (.error e, s')
      | .aborted => .aborted
      | .stuck => .stuck := rfl

/-- Sequencing behind a part that returns a value. -/
theorem bind_of_ok {p : Parser σ ε α} {f : α → Parser σ ε β} {a : α} {s s' : σ}
    (h : p s = .done (.ok a, s')) : (p >>= f) s = f a s' := by
  rw [bind_apply, h]

/-- More turns do not change what a loop returns. -/
theorem iterate_mono {body : β → Parser σ ε (β ⊕ γ)} {fuel more : Nat} {b : β} {s : σ}
    {r : Except ε γ × σ} (h : iterate body fuel b s = .done r) (hle : fuel ≤ more) :
    iterate body more b s = .done r := by
  induction fuel generalizing more b s with
  | zero => cases h
  | succ fuel ih =>
    obtain ⟨more, rfl⟩ := Nat.exists_eq_add_of_le' (Nat.le_trans (Nat.le_add_left 1 fuel) hle)
    rw [iterate, bind_apply] at h ⊢
    match body b s, h with
    | .done (.ok (.inl b'), s'), h => exact ih h (Nat.le_of_succ_le_succ hle)
    | .done (.ok (.inr c), s'), h => exact h
    | .done (.error e, s'), h => exact h

end Parser

/-! ## Contracts -/

/-- What the parsers over a kind of state keep. -/
structure Contract (σ ε : Type) where
  /-- The states the parsers meet. -/
  valid : σ → Prop
  /-- How much a state has left to read. -/
  left : σ → Nat
  /-- The errors the parsers report. -/
  reports : ε → Prop
  /-- How a state may come after another. -/
  after : σ → σ → Prop
  refl : ∀ s, after s s
  trans : ∀ {s t u}, after s t → after t u → after s u

namespace Contract

variable {σ ε α β γ : Type} (C : Contract σ ε)

/-- The state behind a parser, seen from the state before it. -/
structure Behind (s s' : σ) : Prop where
  valid : C.valid s'
  left : C.left s' ≤ C.left s
  after : C.after s s'

variable {C}

theorem Behind.refl {s : σ} (h : C.valid s) : C.Behind s s := ⟨h, Nat.le_refl _, C.refl s⟩

theorem Behind.trans {s t u : σ} (h : C.Behind s t) (h' : C.Behind t u) : C.Behind s u :=
  ⟨h'.valid, Nat.le_trans h'.left h.left, C.trans h.after h'.after⟩

variable (C)

/-- From a state the parser returns, with a value and a state as described or with an error and a
state as described. -/
def Runs (p : Parser σ ε α) (s : σ) (Q : α → σ → Prop) (E : σ → Prop) : Prop :=
  ∃ r s', p s = .done (r, s') ∧ C.Behind s s' ∧
    match r with
    | .ok a => Q a s'
    | .error e => C.reports e ∧ E s'

variable {C} {p : Parser σ ε α} {f : α → Parser σ ε β} {s : σ} {E : σ → Prop}

theorem runs_pure {a : α} {Q : α → σ → Prop} (hs : C.valid s) (h : Q a s) :
    C.Runs (pure a) s Q E :=
  ⟨.ok a, s, rfl, Behind.refl hs, h⟩

theorem runs_fail {e : ε} {Q : α → σ → Prop} (hs : C.valid s) (he : C.reports e) (h : E s) :
    C.Runs (Parser.fail e) s Q E :=
  ⟨.error e, s, rfl, Behind.refl hs, he, h⟩

theorem Runs.mono {Q R : α → σ → Prop} {E' : σ → Prop} (h : C.Runs p s Q E)
    (hQ : ∀ a s', C.Behind s s' → Q a s' → R a s') (hE : ∀ s', C.Behind s s' → E s' → E' s') :
    C.Runs p s R E' := by
  obtain ⟨r, s', hrun, hbehind, hr⟩ := h
  refine ⟨r, s', hrun, hbehind, ?_⟩
  cases r with
  | ok a => exact hQ a s' hbehind hr
  | error e => exact ⟨hr.1, hE s' hbehind hr.2⟩

theorem Runs.bind {Q : α → σ → Prop} {R : β → σ → Prop} {E' : σ → Prop} (h : C.Runs p s Q E')
    (hE : ∀ s', C.Behind s s' → E' s' → E s')
    (hf : ∀ a s', C.Behind s s' → Q a s' → C.Runs (f a) s' R E) : C.Runs (p >>= f) s R E := by
  obtain ⟨r, s', hrun, hbehind, hr⟩ := h
  cases r with
  | ok a =>
    obtain ⟨r', s'', hrun', hbehind', hr'⟩ := hf a s' hbehind hr
    refine ⟨r', s'', ?_, hbehind.trans hbehind', hr'⟩
    rw [Parser.bind_of_ok hrun, hrun']
  | error e =>
    refine ⟨.error e, s', ?_, hbehind, hr.1, hE s' hbehind hr.2⟩
    rw [Parser.bind_apply, hrun]

/-- An attempt returns what the parser returns. -/
theorem Runs.attempt {Q : α → σ → Prop} (h : C.Runs p s Q E) :
    C.Runs p.attempt s (fun r s' =>
      match r with
      | .ok a => Q a s'
      | .error e => C.reports e ∧ E s') fun _ => False := by
  obtain ⟨r, s', hrun, hbehind, hr⟩ := h
  refine ⟨.ok r, s', ?_, hbehind, hr⟩
  unfold Parser.attempt
  rw [hrun]

/-- A change of the state. -/
theorem runs_modify {f : σ → σ} (h : C.Behind s (f s)) :
    C.Runs (Parser.modify f) s (fun _ s' => s' = f s) E :=
  ⟨.ok (), f s, rfl, h, rfl⟩

/-! ## What results are like -/

/-- What the results of a type are like. -/
class Describes (_C : Contract σ ε) (α : Type) where
  holds : α → Prop

section Results

variable (C)

/-- Nothing is said about most types. -/
instance (priority := low) unsaid (α : Type) : C.Describes α := ⟨fun _ => True⟩

variable [C.Describes α] [C.Describes β]

instance : C.Describes (α × β) := ⟨fun x => Describes.holds C x.1 ∧ Describes.holds C x.2⟩

instance : C.Describes (α ⊕ β) := ⟨fun x => x.elim (Describes.holds C) (Describes.holds C)⟩

instance : C.Describes (Option α) := ⟨fun o => ∀ x, o = some x → Describes.holds C x⟩

instance : C.Describes (List α) := ⟨fun xs => ∀ x ∈ xs, Describes.holds C x⟩

/-- A result as described. -/
class Good (a : α) : Prop where
  holds : Describes.holds C a

/-- The results as described; what follows a parser is asked about these. -/
abbrev Results (α : Type) [C.Describes α] : Type := {a : α // C.Good a}

instance (a : C.Results α) : C.Good a.1 := a.2

instance {δ : Type} (a : δ) : @Good _ _ δ C (unsaid C δ) a :=
  @Good.mk _ _ δ C (unsaid C δ) a trivial

instance (a : α) (b : β) [ha : C.Good a] [hb : C.Good b] : C.Good (a, b) := ⟨ha.holds, hb.holds⟩

instance (x : α × β) [h : C.Good x] : C.Good x.1 := ⟨h.holds.1⟩

instance (x : α × β) [h : C.Good x] : C.Good x.2 := ⟨h.holds.2⟩

instance (a : α) [h : C.Good a] : C.Good (.inl a : α ⊕ β) := ⟨h.holds⟩

instance (b : β) [h : C.Good b] : C.Good (.inr b : α ⊕ β) := ⟨h.holds⟩

instance : C.Good (none : Option α) := ⟨fun _ h => nomatch h⟩

instance (a : α) [h : C.Good a] : C.Good (some a) :=
  ⟨fun _ heq => Option.some_inj.mp heq ▸ h.holds⟩

instance (o : Option α) (a : α) [ho : C.Good o] [ha : C.Good a] : C.Good (o.getD a) := by
  cases o with
  | none => exact ha
  | some x => exact ⟨ho.holds x rfl⟩

instance (o : Option α) (g : α → β) [ho : C.Good o] [hg : ∀ a : C.Results α, C.Good (g a.1)] :
    C.Good (o.map g) := by
  refine ⟨fun y hy => ?_⟩
  obtain ⟨x, hx, rfl⟩ := Option.map_eq_some_iff.mp hy
  exact (hg ⟨x, ⟨ho.holds x hx⟩⟩).holds

instance : C.Good ([] : List α) := ⟨fun _ h => nomatch h⟩

instance (priority := low) (xs : List α) [h : ∀ x : α, C.Good x] : C.Good xs :=
  ⟨fun x _ => (h x).holds⟩

instance (xs ys : List α) [hxs : C.Good xs] [hys : C.Good ys] : C.Good (xs ++ ys) :=
  ⟨fun x hx => (List.mem_append.mp hx).elim (hxs.holds x) (hys.holds x)⟩

instance (x : α) (xs : List α) [hx : C.Good x] [hxs : C.Good xs] : C.Good (x :: xs) :=
  ⟨fun y hy => (List.mem_cons.mp hy).elim (fun h => h ▸ hx.holds) (hxs.holds y)⟩

instance (xs : List α) (g : α → β) [hxs : C.Good xs] [hg : ∀ a : C.Results α, C.Good (g a.1)] :
    C.Good (xs.map g) := by
  refine ⟨fun y hy => ?_⟩
  obtain ⟨x, hx, rfl⟩ := List.mem_map.mp hy
  exact (hg ⟨x, ⟨hxs.holds x hx⟩⟩).holds

end Results

/-! ## Below a bound -/

section Bounds

variable (C) [C.Describes α] [C.Describes β] [C.Describes γ] (n : Nat)

/-- From every state below the bound the parser returns. -/
class Accepts (p : Parser σ ε α) : Prop where
  runs : ∀ s, C.valid s → C.left s < n → C.Runs p s (fun a _ => C.Good a) fun _ => True

/-- From every state below the bound the parser returns, a value only if it has read something,
and an error only then if it began as described. -/
class Reads (K : outParam (σ → Prop)) (p : Parser σ ε α) : Prop where
  runs : ∀ s, C.valid s → C.left s < n →
    C.Runs p s (fun a s' => C.left s' < C.left s ∧ C.Good a)
      fun s' => K s → C.left s' < C.left s

/-- From the states below the bound that are as described the parser returns, behind something that
has been read. -/
def From (K : σ → Prop) (p : Parser σ ε α) : Prop :=
  ∀ s, C.valid s → C.left s < n → K s →
    C.Runs p s (fun a s' => C.left s' < C.left s ∧ C.Good a)
      fun s' => C.left s' < C.left s

/-- A turn of a loop: it goes on only if it has read something. -/
def Turns (p : Parser σ ε (β ⊕ γ)) : Prop :=
  ∀ s, C.valid s → C.left s < n →
    C.Runs p s (fun x s' => (∀ b, x = .inl b → C.left s' < C.left s) ∧ C.Good x)
      fun _ => True

variable {C n} {K K' : σ → Prop}

theorem Reads.start (h : C.Reads n K p) : C.Accepts n p :=
  ⟨fun s hs hlt => (h.runs s hs hlt).mono (fun _ _ _ hQ => hQ.2) fun _ _ _ => trivial⟩

theorem Accepts.lower {m : Nat} (h : C.Accepts n p) (hm : m ≤ n) : C.Accepts m p :=
  ⟨fun s hs hlt => h.runs s hs (Nat.lt_of_lt_of_le hlt hm)⟩

/-- Below nothing there is nothing to read. -/
theorem accepts_zero : C.Accepts 0 p := ⟨fun _ _ hlt => absurd hlt (Nat.not_lt_zero _)⟩

theorem reads_zero : C.Reads 0 K p := ⟨fun _ _ hlt => absurd hlt (Nat.not_lt_zero _)⟩

instance [h : C.Reads (n + 1) K p] : C.Accepts n p := h.start.lower (Nat.le_succ n)

instance (a : α) [h : C.Good a] : C.Accepts n (pure a) := ⟨fun _ hs _ => runs_pure hs h⟩

instance : C.Accepts n Parser.get := ⟨fun s hs _ => ⟨.ok s, s, rfl, Behind.refl hs, inferInstance⟩⟩

instance (c : Prop) [Decidable c] (p q : Parser σ ε α) [hp : C.Accepts n p]
    [hq : C.Accepts n q] : C.Accepts n (if c then p else q) := by
  split
  · exact hp
  · exact hq

theorem Accepts.bind (hp : C.Accepts n p) (hf : ∀ a : C.Results α, C.Accepts n (f a.1)) :
    C.Accepts n (p >>= f) := by
  refine ⟨fun s hs hlt => (hp.runs s hs hlt).bind (fun _ _ h => h) ?_⟩
  intro a s' hbehind ha
  exact (hf ⟨a, ha⟩).runs s' hbehind.valid (Nat.lt_of_le_of_lt hbehind.left hlt)

instance [hp : C.Accepts n p] [hf : ∀ a : C.Results α, C.Accepts n (f a.1)] :
    C.Accepts n (p >>= f) :=
  hp.bind hf

/-- A result that is taken apart. -/
instance (priority := high) {p : Parser σ ε (α × β)} {f : α × β → Parser σ ε γ}
    [hp : C.Accepts n p] [hf : ∀ (a : C.Results α) (b : C.Results β), C.Accepts n (f (a.1, b.1))] :
    C.Accepts n (p >>= f) :=
  hp.bind fun x => hf ⟨x.1.1, inferInstance⟩ ⟨x.1.2, inferInstance⟩

/-- A result that may be there. -/
theorem Accepts.bindOption {p : Parser σ ε (Option α)} {f : Option α → Parser σ ε β}
    (hp : C.Accepts n p) (hnone : C.Accepts n (f none))
    (hsome : ∀ a : C.Results α, C.Accepts n (f (some a.1))) : C.Accepts n (p >>= f) := by
  refine hp.bind fun o => ?_
  obtain ⟨o, ho⟩ := o
  cases o with
  | none => exact hnone
  | some a => exact hsome ⟨a, ⟨ho.holds a rfl⟩⟩

instance (priority := high) {p : Parser σ ε (Option α)} {f : Option α → Parser σ ε β}
    [hp : C.Accepts n p] [hnone : C.Accepts n (f none)]
    [hsome : ∀ a : C.Results α, C.Accepts n (f (some a.1))] : C.Accepts n (p >>= f) :=
  hp.bindOption hnone hsome

/-- Behind a part that reads something the bound is one lower. -/
theorem Reads.bind (h : C.Reads (n + 1) K p) (hf : ∀ a : C.Results α, C.Accepts n (f a.1)) :
    C.Reads (n + 1) K (p >>= f) := by
  refine ⟨fun s hs hlt => (h.runs s hs hlt).bind (fun _ _ h => h) ?_⟩
  rintro a s' hbehind ⟨hread, ha⟩
  refine ((hf ⟨a, ha⟩).runs s' hbehind.valid (by omega)).mono ?_ ?_
  · intro b s'' hbehind' hb
    exact ⟨Nat.lt_of_le_of_lt hbehind'.left hread, hb⟩
  · intro s'' hbehind' _ _
    exact Nat.lt_of_le_of_lt hbehind'.left hread

/-- The same for what the instances find. -/
theorem reads_then [h : C.Reads (n + 1) K p] [hf : ∀ a : C.Results α, C.Accepts n (f a.1)] :
    C.Reads (n + 1) K (p >>= f) :=
  h.bind hf

theorem reads_thenPair {p : Parser σ ε (α × β)} {f : α × β → Parser σ ε γ}
    [h : C.Reads (n + 1) K p]
    [hf : ∀ (a : C.Results α) (b : C.Results β), C.Accepts n (f (a.1, b.1))] :
    C.Reads (n + 1) K (p >>= f) :=
  h.bind fun x => hf ⟨x.1.1, inferInstance⟩ ⟨x.1.2, inferInstance⟩

end Bounds

/-! ## Loops -/

section Loops

variable [C.Describes α] [C.Describes β] [C.Describes γ] {n : Nat} {K : σ → Prop}
  {body : β → Parser σ ε (β ⊕ γ)} {q r : Parser σ ε (β ⊕ γ)} {g : α → Parser σ ε (β ⊕ γ)}

theorem turns_leave {c : γ} [h : C.Good c] : C.Turns n (pure (.inr c) : Parser σ ε (β ⊕ γ)) :=
  fun _ hs _ => runs_pure hs ⟨fun _ hb => (nomatch hb), ⟨h.holds⟩⟩

/-- Where something is read the loop may go on. -/
theorem Reads.turns (h : C.Reads (n + 1) K q) : C.Turns n q :=
  fun s hs hlt => (h.runs s hs (Nat.lt_succ_of_lt hlt)).mono
    (fun _ _ _ hx => ⟨fun _ _ => hx.1, hx.2⟩) fun _ _ _ => trivial

theorem turns_ite {c : Prop} [Decidable c] (hq : C.Turns n q) (hr : C.Turns n r) :
    C.Turns n (if c then q else r) := by
  split
  · exact hq
  · exact hr

theorem Accepts.bind_turns (h : C.Accepts n p) (hf : ∀ a : C.Results α, C.Turns n (g a.1)) :
    C.Turns n (p >>= g) := by
  intro s hs hlt
  refine (h.runs s hs hlt).bind (fun _ _ h => h) ?_
  intro a s' hbehind ha
  refine (hf ⟨a, ha⟩ s' hbehind.valid (Nat.lt_of_le_of_lt hbehind.left hlt)).mono ?_ fun _ _ h => h
  intro x s'' _ hx
  exact ⟨fun b hb => Nat.lt_of_lt_of_le (hx.1 b hb) hbehind.left, hx.2⟩

/-- A loop whose body reads something whenever it goes on. -/
theorem runs_iterate (hbody : ∀ b, C.Good b → ∀ s, C.valid s → C.left s < n →
      C.Runs (body b) s
        (fun x s' => (∀ b', x = .inl b' → C.left s' < C.left s) ∧ C.Good x) E)
    {fuel : Nat} {b : β} (hb : C.Good b) (hs : C.valid s) (hlt : C.left s < n)
    (hfuel : C.left s < fuel) :
    C.Runs (Parser.iterate body fuel b) s (fun c _ => C.Good c) E := by
  induction fuel generalizing b s with
  | zero => omega
  | succ fuel ih =>
    unfold Parser.iterate
    refine (hbody b hb s hs hlt).bind (fun _ _ h => h) ?_
    rintro x s' hbehind ⟨hread, hx⟩
    have hle := hbehind.left
    cases x with
    | inl b' =>
      have hless := hread b' rfl
      exact ih ⟨hx.holds⟩ hbehind.valid (by omega) (by omega)
    | inr c => exact runs_pure hbehind.valid ⟨hx.holds⟩

end Loops

end Contract

end Vani.Library
