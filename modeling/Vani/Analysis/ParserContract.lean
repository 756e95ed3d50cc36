import Mathlib.Data.List.Forall2
import Vani.Syntax.Declarations

/-!
# What every parser keeps

The parser stands at a token, the last token is the end, and every span in the tokens and in the
errors is a place. A parser leaves the tokens as they are, but for `>>` read as `>`, and never has
more left to read than before.
-/

set_option autoImplicit false

namespace Vani.Analysis

open Vani.Library Vani.Program Vani.Syntax

/-! ## Places -/

/-- Spans that are places, with what lies between any two of them. -/
structure Places where
  holds : Span → Prop
  merge : ∀ {a b : Span}, holds a → holds b → holds (a.merge b)

/-- The span is a place. -/
def Located (good : Places) (span : Span) : Prop := good.holds span

/-- The token has a place, `>>` also behind its first character. -/
structure TokenAt (good : Places) (token : Token) : Prop where
  located : Located good token.span
  half : token.kind = .greaterGreater →
    Located good ⟨token.span.start + 1, token.span.stop⟩

variable {good : Places}

theorem Located.merge {a b : Span} (ha : Located good a) (hb : Located good b) :
    Located good (a.merge b) :=
  good.merge ha hb

/-! ## States -/

/-- The kind of the token the parser stands at. -/
def currentKind (s : ParserState) : TokenKind :=
  (s.tokens[s.pos]?.map Token.kind).getD .eof

/-- The parser stands at a token, the last of which is the end. -/
structure Standing (good : Places) (s : ParserState) : Prop where
  bound : s.pos < s.tokens.length
  last : s.tokens.getLast?.map Token.kind = some .eof
  tokens : ∀ t ∈ s.tokens, TokenAt good t
  errors : ∀ e ∈ s.errors, Located good e.span

/-- The token is as before, or the second half of `>>`. -/
def SameOrHalf (before after : TokenKind) : Prop :=
  after = before ∨ before = .greaterGreater ∧ after = .greater

/-- The tokens are the ones before, but for some `>>` of which one half is read. -/
def Keeps : List Token → List Token → Prop := List.Forall₂ fun t t' => SameOrHalf t.kind t'.kind

theorem SameOrHalf.trans {a b c : TokenKind} (h : SameOrHalf a b) (h' : SameOrHalf b c) :
    SameOrHalf a c := by
  rcases h with rfl | ⟨rfl, rfl⟩
  · exact h'
  · rcases h' with rfl | ⟨h', -⟩
    · exact .inr ⟨rfl, rfl⟩
    · cases h'

theorem keeps_refl (tokens : List Token) : Keeps tokens tokens :=
  List.forall₂_same.mpr fun _ _ => .inl rfl

theorem keeps_trans {tokens tokens' tokens'' : List Token} (h : Keeps tokens tokens')
    (h' : Keeps tokens' tokens'') : Keeps tokens tokens'' := by
  induction h generalizing tokens'' with
  | nil => exact h'
  | cons hab _ ih =>
    cases h' with
    | cons hbc hrest => exact List.Forall₂.cons (hab.trans hbc) (ih hrest)

/-- What the parsers of this language keep. -/
def contract (good : Places) : Contract ParserState Diagnostic where
  valid := Standing good
  left := ParserState.left
  reports e := Located good e.span
  after s s' := Keeps s.tokens s'.tokens
  refl s := keeps_refl s.tokens
  trans := keeps_trans

variable {s s' : ParserState}

theorem weight_le {a b : TokenKind} (h : SameOrHalf a b) : b.weight ≤ a.weight := by
  rcases h with rfl | ⟨rfl, rfl⟩
  · exact Nat.le_refl _
  · decide

/-- The tokens of a later state count no more. -/
theorem weights_le {tokens tokens' : List Token}
    (h : Keeps tokens tokens') :
    (tokens'.map fun t => t.kind.weight).sum ≤ (tokens.map fun t => t.kind.weight).sum := by
  induction h with
  | nil => exact Nat.le_refl _
  | cons h _ ih =>
    have hle := weight_le h
    simp only [List.map_cons, List.sum_cons]
    omega

theorem left_le_of_keeps (h : Keeps s.tokens s'.tokens) (hpos : s'.pos = s.pos) :
    s'.left ≤ s.left := by
  unfold ParserState.left
  rw [hpos]
  exact weights_le (List.forall₂_drop s.pos h)

section Token

variable (hs : Standing good s)
include hs

theorem Standing.exists_token : ∃ t, s.tokens[s.pos]? = some t ∧ t.kind = currentKind s := by
  refine ⟨s.tokens.get ⟨s.pos, hs.bound⟩, List.getElem?_eq_getElem hs.bound, ?_⟩
  unfold currentKind
  rw [List.getElem?_eq_getElem hs.bound]
  rfl

theorem current_run : ∃ t, current s = .done (.ok t, s) ∧ s.tokens[s.pos]? = some t ∧
    TokenAt good t ∧ t.kind = currentKind s := by
  obtain ⟨t, ht, hkind⟩ := hs.exists_token
  refine ⟨t, ?_, ht, hs.tokens t (List.mem_of_getElem? ht), hkind⟩
  unfold current
  rw [ht]

/-- The token is not the last one, and what is left is what it counts and what is left behind. -/
theorem Standing.next (hkind : currentKind s ≠ .eof) :
    Standing good { s with pos := s.pos + 1 } ∧
      s.left = (currentKind s).weight + ParserState.left { s with pos := s.pos + 1 } := by
  obtain ⟨t, ht, htkind⟩ := hs.exists_token
  have hdrop : s.tokens.drop s.pos = t :: s.tokens.drop (s.pos + 1) :=
    List.drop_eq_getElem?_toList_append.trans (by rw [ht]; rfl)
  have hbound : s.pos + 1 < s.tokens.length := by
    by_contra hlast
    have hlen : s.tokens.length - 1 = s.pos := by have := hs.bound; omega
    have hend := hs.last
    rw [List.getLast?_eq_getElem?, hlen, ht] at hend
    rw [Option.map_some, htkind] at hend
    exact hkind (Option.some_inj.mp hend)
  refine ⟨⟨hbound, hs.last, hs.tokens, hs.errors⟩, ?_⟩
  unfold ParserState.left
  rw [hdrop, List.map_cons, List.sum_cons, htkind]

end Token

/-! ## What results are like

Of a result nothing is asked but that the spans in it are places. -/

instance : (contract good).Describes Span := ⟨Located good⟩

instance : (contract good).Describes Token := ⟨TokenAt good⟩

instance (t : Token) [h : (contract good).Good t] : (contract good).Good t.span :=
  ⟨h.holds.located⟩

instance (a b : Span) [ha : (contract good).Good a] [hb : (contract good).Good b] :
    (contract good).Good (a.merge b) :=
  ⟨Located.merge ha.holds hb.holds⟩

/-! ## Tokens -/

/-- The parser stands at a token that passes the test. -/
def At (p : TokenKind → Bool) (s : ParserState) : Prop := p (currentKind s) = true

/-- The parser does not stand at the end. -/
def Inside (s : ParserState) : Prop := currentKind s ≠ .eof

section Primitives

variable {n : Nat} {α : Type} {Q : α → ParserState → Prop} {E : ParserState → Prop}

/-- A test of the token changes nothing. -/
theorem check_run (p : TokenKind → Bool) (hs : Standing good s) :
    check p s = .done (.ok (p (currentKind s)), s) := by
  obtain ⟨t, hrun, -, -, hkind⟩ := current_run hs
  unfold check
  rw [Parser.bind_of_ok hrun, hkind]
  rfl

/-- What follows the token the parser stands at. -/
theorem runs_current {f : Token → Parse α} (hs : Standing good s)
    (h : ∀ t, s.tokens[s.pos]? = some t → TokenAt good t → t.kind = currentKind s →
      (contract good).Runs (f t) s Q E) : (contract good).Runs (current >>= f) s Q E := by
  obtain ⟨t, hrun, htoken, ht, hkind⟩ := current_run hs
  unfold Contract.Runs
  rw [Parser.bind_of_ok hrun]
  exact h t htoken ht hkind

/-- What follows a test. -/
theorem runs_check {p : TokenKind → Bool} {f : Bool → Parse α} (hs : Standing good s)
    (h : (contract good).Runs (f (p (currentKind s))) s Q E) :
    (contract good).Runs (check p >>= f) s Q E := by
  unfold Contract.Runs
  rw [Parser.bind_of_ok (check_run p hs)]
  exact h

/-- What follows a look at the state. -/
theorem runs_peek {β : Type} {p : Parse β} {f : β → Parse α} (hp : ∃ b, p s = .done (.ok b, s))
    (hf : ∀ b, (contract good).Runs (f b) s Q E) : (contract good).Runs (p >>= f) s Q E := by
  obtain ⟨b, hb⟩ := hp
  unfold Contract.Runs
  rw [Parser.bind_of_ok hb]
  exact hf b

instance : (contract good).Accepts n current := by
  refine ⟨fun s hs _ => ?_⟩
  obtain ⟨t, hrun, -, ht, -⟩ := current_run hs
  exact ⟨.ok t, s, hrun, Contract.Behind.refl hs, ⟨ht⟩⟩

instance (p : TokenKind → Bool) : (contract good).Accepts n (check p) := by
  unfold check
  infer_instance

instance (ahead : Nat) : (contract good).Accepts n (kindsFrom ahead) :=
  ⟨fun s hs _ => ⟨.ok _, s, rfl, Contract.Behind.refl hs, inferInstance⟩⟩

instance (ahead : Nat) (p : TokenKind → Bool) : (contract good).Accepts n (checkAhead ahead p) := by
  unfold checkAhead
  infer_instance

/-- The end is not passed, any other token is. -/
theorem bump_run (hs : Standing good s) : ∃ t s', bump s = .done (.ok t, s') ∧
    (contract good).Behind s s' ∧ TokenAt good t ∧ t.kind = currentKind s ∧
    (currentKind s ≠ .eof → s'.left < s.left) := by
  obtain ⟨t, hrun, -, ht, hkind⟩ := current_run hs
  unfold bump
  rw [Parser.bind_of_ok hrun, hkind]
  by_cases hend : currentKind s = .eof
  · rw [if_pos hend]
    exact ⟨t, s, rfl, Contract.Behind.refl hs, ht, hkind, fun h => absurd hend h⟩
  · rw [if_neg hend]
    obtain ⟨hnext, hleft⟩ := hs.next hend
    have hweight : 0 < (currentKind s).weight := by
      unfold TokenKind.weight
      split
      · contradiction
      · decide
      · decide
    refine ⟨t, { s with pos := s.pos + 1 }, rfl, ⟨hnext, ?_, keeps_refl _⟩, ht, hkind,
      fun _ => ?_⟩
    · show ParserState.left _ ≤ s.left
      omega
    · omega

instance : (contract good).Accepts n bump := by
  refine ⟨fun s hs _ => ?_⟩
  obtain ⟨t, s', hrun, hbehind, ht, -, -⟩ := bump_run hs
  exact ⟨.ok t, s', hrun, hbehind, ⟨ht⟩⟩

/-- What follows a token that is not the end. -/
theorem runs_bump {f : Token → Parse α} (hs : Standing good s) (hkind : currentKind s ≠ .eof)
    (hf : ∀ t s', TokenAt good t → t.kind = currentKind s → Standing good s' → s'.left < s.left →
      (contract good).Runs (f t) s' Q E) : (contract good).Runs (bump >>= f) s Q E := by
  obtain ⟨t, s', hrun, hbehind, ht, htkind, hread⟩ := bump_run hs
  obtain ⟨r, s'', hrun', hbehind', hr⟩ := hf t s' ht htkind hbehind.valid (hread hkind)
  refine ⟨r, s'', ?_, hbehind.trans hbehind', hr⟩
  rw [Parser.bind_of_ok hrun, hrun']

variable [(contract good).Describes α]

theorem from_bump {f : Token → Parse α}
    [hf : ∀ t : (contract good).Results Token, (contract good).Accepts n (f t.1)] :
    (contract good).From (n + 1) Inside (bump >>= f) := by
  intro s hs hlt hkind
  refine runs_bump hs hkind fun t s' ht _ hs' hread => ?_
  refine ((hf ⟨t, ⟨ht⟩⟩).runs s' hs' (Nat.lt_of_lt_of_le hread (Nat.le_of_lt_succ hlt))).mono ?_ ?_
  · intro a s'' hbehind ha
    exact ⟨Nat.lt_of_le_of_lt hbehind.left hread, ha⟩
  · intro s'' hbehind _
    exact Nat.lt_of_le_of_lt hbehind.left hread

/-- What follows any token, the end being an error. -/
theorem reads_bump {f : Token → Parse α}
    (hf : ∀ t : (contract good).Results Token, (contract good).Accepts n (f t.1))
    (hend : ∀ t, t.kind = .eof → ∃ message, f t = Parser.fail ⟨t.span, message⟩) :
    (contract good).Reads (n + 1) Inside (bump >>= f) := by
  refine ⟨fun s hs hlt => ?_⟩
  by_cases hkind : currentKind s = .eof
  · obtain ⟨t, s', hrun, hbehind, ht, htkind, -⟩ := bump_run hs
    obtain ⟨message, herror⟩ := hend t (htkind.trans hkind)
    refine ⟨.error ⟨t.span, message⟩, s', ?_, hbehind, ht.located, absurd hkind⟩
    rw [Parser.bind_of_ok hrun, herror]
    rfl
  · exact (from_bump s hs hlt hkind).mono (fun _ _ _ h => h) fun _ _ h _ => h

/-! ## Errors -/

instance (span : Span) (message : String) [h : (contract good).Good span] :
    (contract good).Accepts n (errorAt span message : Parse α) :=
  ⟨fun _ hs _ => Contract.runs_fail hs h.holds trivial⟩

instance (message : String) : (contract good).Accepts n (errorHere message : Parse α) := by
  unfold errorHere
  infer_instance

omit [(contract good).Describes α] in
theorem errorHere_runs (message : String) (hs : Standing good s) (hE : E s) :
    (contract good).Runs (errorHere message : Parse α) s Q E := by
  unfold errorHere
  refine runs_current hs fun t _ ht _ => ?_
  exact Contract.runs_fail hs ht.located hE

/-- A change that leaves the tokens alone and adds errors. -/
theorem modify_runs {f : ParserState → ParserState} (hs : Standing good s)
    (htokens : (f s).tokens = s.tokens) (hpos : (f s).pos = s.pos) {errors : List Diagnostic}
    (herrors : (f s).errors = s.errors ++ errors) (hgood : ∀ e ∈ errors, Located good e.span) :
    (contract good).Runs (Parser.modify f) s (fun _ s' => s' = f s) E := by
  have hkeeps : Keeps s.tokens (f s).tokens := by
    rw [htokens]
    exact keeps_refl _
  apply Contract.runs_modify
  refine ⟨⟨?_, ?_, ?_, ?_⟩, left_le_of_keeps hkeeps hpos, hkeeps⟩
  · rw [htokens, hpos]
    exact hs.bound
  · rw [htokens]
    exact hs.last
  · rw [htokens]
    exact hs.tokens
  · intro e he
    rw [herrors, List.mem_append] at he
    rcases he with he | he
    · exact hs.errors e he
    · exact hgood e he

theorem modify_accepts {f : ParserState → ParserState} (htokens : ∀ s, (f s).tokens = s.tokens)
    (hpos : ∀ s, (f s).pos = s.pos) (errors : List Diagnostic)
    (herrors : ∀ s, (f s).errors = s.errors ++ errors) (hgood : ∀ e ∈ errors, Located good e.span) :
    (contract good).Accepts n (Parser.modify f) :=
  ⟨fun s hs _ => (modify_runs hs (htokens s) (hpos s) (herrors s) hgood).mono
    (fun _ _ _ _ => inferInstance) fun _ _ h => h⟩

theorem pushError_runs {e : Diagnostic} (hs : Standing good s) (h : Located good e.span) :
    (contract good).Runs (pushError e) s
      (fun _ s' => s' = { s with errors := s.errors ++ [e] }) E := by
  unfold pushError
  refine modify_runs hs rfl rfl rfl ?_
  intro e' he'
  rw [List.mem_singleton.mp he']
  exact h

instance (span : Span) (message : String) [h : (contract good).Good span] :
    (contract good).Accepts n (pushError ⟨span, message⟩) :=
  ⟨fun _ hs _ => (pushError_runs hs h.holds).mono (fun _ _ _ _ => inferInstance) fun _ _ h => h⟩

/-! ## Inside the tokens -/

/-- Called at a token that is not the end, the parser returns. -/
class ReturnsInside (good : Places) (n : Nat) {α : Type} [(contract good).Describes α] (p : Parse α) :
    Prop where
  runs : ∀ s, Standing good s → s.left < n → Inside s →
    (contract good).Runs p s (fun a _ => (contract good).Good a) fun _ => True

instance {f : Token → Parse α}
    [∀ t : (contract good).Results Token, (contract good).Accepts n (f t.1)] :
    ReturnsInside good (n + 1) (bump >>= f) :=
  ⟨fun s hs hlt hkind => (from_bump s hs hlt hkind).mono (fun _ _ _ h => h.2) fun _ _ _ => trivial⟩

instance (message : String) : ReturnsInside good n (errorHere message : Parse α) :=
  ⟨fun _ hs _ _ => errorHere_runs message hs trivial⟩

instance (c : Prop) [Decidable c] (p q : Parse α) [hp : ReturnsInside good n p] [hq : ReturnsInside good n q] :
    ReturnsInside good n (if c then p else q) := by
  split
  · exact hp
  · exact hq

instance (ahead : Nat) (p : TokenKind → Bool) {f : Bool → Parse α} [hf : ∀ b, ReturnsInside good n (f b)] :
    ReturnsInside good n (checkAhead ahead p >>= f) :=
  ⟨fun s hs hlt hkind => runs_peek ⟨_, rfl⟩ fun b => (hf b).runs s hs hlt hkind⟩

instance {f : ParserState → Parse α} [hf : ∀ s, ReturnsInside good n (f s)] :
    ReturnsInside good n (Parser.get >>= f) :=
  ⟨fun s hs hlt hkind => runs_peek ⟨_, rfl⟩ fun b => (hf b).runs s hs hlt hkind⟩

/-! ## Expected tokens -/

instance (p : TokenKind → Bool) : (contract good).Accepts n (matchToken p) := by
  unfold matchToken
  infer_instance

instance (expected : String) (p : TokenKind → Bool) :
    (contract good).Accepts n (expectKeyword expected p) := by
  unfold expectKeyword
  infer_instance

section Expected

variable {p : TokenKind → Bool} (hp : p .eof = false)
include hp

theorem At.inside (h : At p s) : Inside s := by
  intro hend
  unfold At at h
  rw [hend, hp] at h
  cases h

/-- A token that passes the test is not the end, and is read. -/
theorem matchToken_runs (hs : Standing good s) : (contract good).Runs (matchToken p) s
    (fun o s' => (o = none ∧ s' = s ∧ ¬ At p s) ∨
      ∃ t, o = some t ∧ TokenAt good t ∧ s'.left < s.left) fun _ => False := by
  unfold matchToken
  refine runs_check hs ?_
  cases htest : p (currentKind s) with
  | false => exact Contract.runs_pure hs (.inl ⟨rfl, rfl, by simp [At, htest]⟩)
  | true =>
    refine runs_bump hs (At.inside hp htest) fun t s' ht _ hs' hread => ?_
    exact Contract.runs_pure hs' (.inr ⟨t, rfl, ht, hread⟩)

/-- A token is read and the loop may go on, or it is not there. -/
theorem matchToken_turns {β γ : Type} [(contract good).Describes β] [(contract good).Describes γ]
    {f : Option Token → Parse (β ⊕ γ)} (hnone : (contract good).Turns n (f none))
    (hsome : ∀ t : (contract good).Results Token, (contract good).Accepts n (f (some t.1))) :
    (contract good).Turns n (matchToken p >>= f) := by
  intro s hs hlt
  refine (matchToken_runs hp hs).bind (fun _ _ => False.elim) ?_
  rintro o s' hbehind (⟨rfl, rfl, -⟩ | ⟨t, rfl, ht, hread⟩)
  · exact hnone _ hs hlt
  · refine ((hsome ⟨t, ⟨ht⟩⟩).runs s' hbehind.valid (Nat.lt_trans hread hlt)).mono ?_ fun _ _ h => h
    intro x s'' hbehind' hx
    exact ⟨fun _ _ => Nat.lt_of_le_of_lt hbehind'.left hread, hx⟩

/-- A token that is expected, with an error where it is not there. -/
theorem expected_runs (message : String) (hs : Standing good s) :
    (contract good).Runs (do if ← check p then bump else errorHere message) s
      (fun t s' => s'.left < s.left ∧ TokenAt good t ∧ p t.kind = true)
      fun s' => At p s → s'.left < s.left := by
  refine runs_check hs ?_
  cases htest : p (currentKind s) with
  | true =>
    obtain ⟨t, s', hrun, hbehind, ht, hkind, hread⟩ := bump_run hs
    exact ⟨.ok t, s', hrun, hbehind, hread (At.inside hp htest), ht, by rw [hkind, htest]⟩
  | false => exact errorHere_runs message hs (by simp [At, htest])

theorem expectKeyword_reads (expected : String) :
    (contract good).Reads n (At p) (expectKeyword expected p) :=
  ⟨fun _ hs _ => (expected_runs hp _ hs).mono (fun _ _ _ h => ⟨h.1, ⟨h.2.1⟩⟩) fun _ _ h => h⟩

/-- What begins with a keyword. -/
theorem reads_keyword {expected : String} {f : Token → Parse α}
    [∀ t : (contract good).Results Token, (contract good).Accepts n (f t.1)] :
    (contract good).Reads (n + 1) (At p) (expectKeyword expected p >>= f) :=
  (expectKeyword_reads hp expected).bind inferInstance

end Expected

/-- The string literals with a place. -/
abbrev StrToken (good : Places) : Type := {t : Token // TokenAt good t ∧ t.kind.isStr = true}

instance (t : StrToken good) : (contract good).Good t.1 := ⟨t.2.1⟩

instance (t : StrToken good) : (contract good).Accepts n (strText t.1) := by
  have h := t.2.2
  unfold TokenKind.isStr at h
  unfold strText
  split
  · infer_instance
  · simp_all

instance (priority := high) {f : Token → Parse α}
    [hf : ∀ t : StrToken good, (contract good).Accepts n (f t.1)] :
    (contract good).Accepts n (expectString >>= f) := by
  refine ⟨fun s hs hlt => (expected_runs rfl _ hs).bind (fun _ _ _ => trivial) ?_⟩
  rintro t s' hbehind ⟨-, ht⟩
  exact (hf ⟨t, ht⟩).runs s' hbehind.valid (Nat.lt_of_le_of_lt hbehind.left hlt)

instance : (contract good).Reads n (At TokenKind.isIdent) ident := by
  unfold ident
  refine ⟨fun s hs hlt => (expected_runs rfl _ hs).bind (fun _ _ h => h) ?_⟩
  rintro t s' hbehind ⟨hread, ht, hident⟩
  unfold TokenKind.isIdent at hident
  unfold identText
  split at hident
  · exact Contract.runs_pure hbehind.valid ⟨hread, ⟨trivial, ht.located⟩⟩
  · cases hident

/-- Half of `>>` is read. -/
theorem runs_half {t : Token} (hs : Standing good s) (htoken : s.tokens[s.pos]? = some t)
    (ht : TokenAt good t) (hkind : t.kind = .greaterGreater) {token : Token}
    (htoken' : token = ⟨.greater, ⟨t.span.start + 1, t.span.stop⟩⟩) :
    (contract good).Runs (Parser.modify fun s => { s with tokens := s.tokens.set s.pos token }) s
      (fun a _ => (contract good).Good a) E := by
  have hcurrent : currentKind s = .greaterGreater := by
    unfold currentKind
    rw [htoken]
    exact hkind
  obtain ⟨hnext, -⟩ := hs.next (by rw [hcurrent]; exact TokenKind.noConfusion)
  obtain ⟨before, rest, htokens, hlen, hset⟩ :=
    @List.exists_of_set _ _ token _ (List.getElem?_eq_some_iff.mp htoken).1
  rw [(List.getElem?_eq_some_iff.mp htoken).2] at htokens
  have hkeeps : Keeps s.tokens (s.tokens.set s.pos token) := by
    rw [htokens] at hset ⊢
    rw [hset]
    refine List.rel_append (keeps_refl before) (List.Forall₂.cons (.inr ⟨hkind, ?_⟩) (keeps_refl rest))
    rw [htoken']
  have hle : ParserState.left { s with tokens := s.tokens.set s.pos token } ≤ s.left :=
    left_le_of_keeps hkeeps rfl
  have hbound := hnext.bound
  refine ⟨.ok (), _, rfl, ⟨⟨?_, ?_, ?_, hs.errors⟩, hle, hkeeps⟩, inferInstance⟩
  · rw [List.length_set]
    exact hs.bound
  · have hlast := hs.last
    have hrest : rest ≠ [] := by
      rintro rfl
      rw [htokens, List.length_append] at hbound
      simp only [List.length_cons, List.length_nil] at hbound
      omega
    obtain ⟨r, rest', rfl⟩ := List.exists_cons_of_ne_nil hrest
    dsimp only
    rw [htokens] at hlast
    rw [hset]
    simpa [List.getLast?_append, List.getLast?_cons_cons] using hlast
  · intro t' ht'
    rcases List.mem_or_eq_of_mem_set ht' with ht' | rfl
    · exact hs.tokens t' ht'
    · rw [htoken']
      exact ⟨ht.half hkind, TokenKind.noConfusion⟩

instance : (contract good).Accepts n expectCloseAngle := by
  refine ⟨fun s hs hlt => ?_⟩
  unfold expectCloseAngle
  refine runs_current hs fun t htoken ht _ => ?_
  split
  · exact Contract.Accepts.runs s hs hlt
  · rename_i hgreater
    exact runs_half hs htoken ht hgreater rfl
  · exact Contract.Accepts.runs s hs hlt

end Primitives

/-! ## Loops -/

section Loops

variable {n : Nat} {α β γ : Type}

/-- What one turn of a loop is to do. -/
theorem loop_runs [(contract good).Describes β] [(contract good).Describes γ]
    {body : β → Parse (β ⊕ γ)} {E : ParserState → Prop}
    (hbody : ∀ b : (contract good).Results β, ∀ s, Standing good s → s.left < n →
      (contract good).Runs (body b.1) s (fun x s' => (∀ b', x = .inl b' → s'.left < s.left) ∧
        (contract good).Good x) E)
    {b : β} [hb : (contract good).Good b] (hs : Standing good s) (hlt : s.left < n) :
    (contract good).Runs (loop body b) s
      (fun c _ => (contract good).Good c) E := by
  unfold loop
  exact Contract.runs_iterate (fun b hb => hbody ⟨b, hb⟩) hb hs hlt (Nat.lt_succ_self _)

theorem loop_accepts [(contract good).Describes β] [(contract good).Describes γ]
    {body : β → Parse (β ⊕ γ)}
    (hbody : ∀ b : (contract good).Results β, (contract good).Turns n (body b.1)) {b : β}
    [(contract good).Good b] : (contract good).Accepts n (loop body b) :=
  ⟨fun _ hs hlt => loop_runs hbody hs hlt⟩

/-- A turn that begins with a token that is not the end. -/
theorem turn_bump [(contract good).Describes β] [(contract good).Describes γ]
    {f : Token → Parse (β ⊕ γ)} (hs : Standing good s) (hlt : s.left < n) (hkind : Inside s)
    [∀ t : (contract good).Results Token, (contract good).Accepts n (f t.1)] :
    (contract good).Runs (bump >>= f) s (fun x s' => (∀ b, x = .inl b → s'.left < s.left) ∧
      (contract good).Good x) fun _ => True :=
  (from_bump s hs (Nat.lt_succ_of_lt hlt) hkind).mono (fun _ _ _ h => ⟨fun _ _ => h.1, h.2⟩)
    fun _ _ _ => trivial

section Lists

variable [(contract good).Describes α] {item : Parse α}

instance (close : TokenKind → Bool) (p : Parse (List α)) [(contract good).Accepts n p] :
    (contract good).Accepts n (unlessClosed close p) := by
  unfold unlessClosed
  infer_instance

instance (stop : TokenKind → Bool) [hitem : (contract good).Accepts n item] :
    (contract good).Accepts n (commaSeparated item stop) := by
  unfold commaSeparated
  refine loop_accepts fun items => ?_
  unfold commaTurn
  refine hitem.bind_turns fun x => ?_
  refine matchToken_turns rfl Contract.turns_leave fun _ => ?_
  infer_instance

instance (close : TokenKind) [(contract good).Accepts n item] :
    (contract good).Accepts n (itemsBefore item close) := by
  unfold itemsBefore
  infer_instance

instance (stop : TokenKind → Bool) [hitem : (contract good).Accepts n item] :
    (contract good).Accepts n (separatedUntil item stop) := by
  unfold separatedUntil
  refine loop_accepts fun items => ?_
  refine Contract.Accepts.bind_turns inferInstance fun stops => ?_
  refine Contract.turns_ite Contract.turns_leave ?_
  refine hitem.bind_turns fun x => ?_
  exact matchToken_turns rfl Contract.turns_leave fun _ => inferInstance

/-- Items that are not separated read something each. -/
instance {K : ParserState → Prop} [(contract good).Reads (n + 1) K item] :
    (contract good).Accepts n (itemsUntilBrace item) := by
  unfold itemsUntilBrace
  refine loop_accepts fun items => ?_
  refine Contract.Accepts.bind_turns inferInstance fun ends => ?_
  exact Contract.turns_ite Contract.turns_leave Contract.reads_then.turns

theorem itemsAfter_accepts {p : TokenKind → Bool} (hp : p .eof = false) {item : Token → Parse α}
    [∀ t : (contract good).Results Token, (contract good).Accepts n (item t.1)] :
    (contract good).Accepts n (itemsAfter p item) := by
  unfold itemsAfter
  refine loop_accepts fun items => ?_
  exact matchToken_turns hp Contract.turns_leave fun _ => inferInstance

end Lists

/-! ## Recovery -/

/-- Tokens that pass the test are skipped, at least the first of them. -/
theorem skipWhile_runs {p : TokenKind → Bool} (hp : p .eof = false) (hs : Standing good s) :
    (contract good).Runs (skipWhile p) s
      (fun _ s' => (s' = s ∧ ¬ At p s) ∨ s'.left < s.left) fun _ => False := by
  unfold skipWhile
  show (contract good).Runs (Parser.iterate _ (s.left + 1) ()) s _ _
  have hfuel : s.left < s.left + 1 := Nat.lt_succ_self _
  revert hfuel
  generalize s.left + 1 = fuel
  intro hfuel
  induction fuel generalizing s with
  | zero => omega
  | succ fuel ih =>
    unfold Parser.iterate
    refine Contract.Runs.bind (Q := fun x s' =>
      (x = .inr () ∧ s' = s ∧ ¬ At p s) ∨ x = .inl () ∧ s'.left < s.left) ?_ (fun _ _ h => h) ?_
    · refine runs_check hs ?_
      cases htest : p (currentKind s) with
      | false => exact Contract.runs_pure hs (.inl ⟨rfl, rfl, by simp [At, htest]⟩)
      | true =>
        refine runs_bump hs (At.inside hp htest) fun t s' _ _ hs' hread => ?_
        exact Contract.runs_pure hs' (.inr ⟨rfl, hread⟩)
    · rintro x s' hbehind (⟨rfl, rfl, htest⟩ | ⟨rfl, hread⟩)
      · exact Contract.runs_pure hs (.inl ⟨rfl, htest⟩)
      · refine (ih hbehind.valid (by omega)).mono ?_ fun _ _ h => h
        rintro _ s'' _ (⟨rfl, -⟩ | hread')
        · exact .inr hread
        · exact .inr (Nat.lt_trans hread' hread)

theorem skipWhile_accepts {p : TokenKind → Bool} (hp : p .eof = false) :
    (contract good).Accepts n (skipWhile p) :=
  ⟨fun _ hs _ => (skipWhile_runs hp hs).mono (fun _ _ _ _ => inferInstance) fun _ _ => False.elim⟩

/-- No statement begins at the token, or a `;` stands there: something is passed to recover. -/
def Skipped (kind : TokenKind) : Prop := kind.startsStmt = false ∨ kind = .semicolon

theorem syncToStmt_runs (hs : Standing good s) : (contract good).Runs syncToStmt s
    (fun _ s' => Skipped (currentKind s) → s'.left < s.left) fun _ => False := by
  unfold syncToStmt
  refine (skipWhile_runs rfl hs).bind (fun _ _ h => h) ?_
  rintro _ s' hbehind (⟨rfl, htest⟩ | hread)
  · refine (matchToken_runs rfl hs).bind (fun _ _ => False.elim) ?_
    rintro o s'' hbehind' (⟨-, -, hnot⟩ | ⟨t, -, -, hread⟩)
    · refine Contract.runs_pure hbehind'.valid ?_
      rintro (h | h)
      · exact absurd (by simp [At, h]) htest
      · exact absurd (by simp [At, h]) hnot
    · exact Contract.runs_pure hbehind'.valid fun _ => hread
  · refine (matchToken_runs rfl hbehind.valid).bind (fun _ _ => False.elim) ?_
    intro o s'' hbehind' _
    exact Contract.runs_pure hbehind'.valid fun _ => Nat.lt_of_le_of_lt hbehind'.left hread

/-- A parser of a statement, called where a body does not end, reads something, or it fails
where something is passed to recover. -/
def ReadsStmt (good : Places) (n : Nat) (p : Parse Stmt) : Prop :=
  ∀ s, Standing good s → s.left < n → (currentKind s).endsBody = false →
    (contract good).Runs p s (fun _ s' => s'.left < s.left) fun s' =>
      s'.left < s.left ∨ Skipped (currentKind s')

variable {stmt : Parse Stmt} (hstmt : ReadsStmt good n stmt)
include hstmt

theorem stmtsUntilBrace_accepts : (contract good).Accepts n (stmtsUntilBrace stmt) := by
  unfold stmtsUntilBrace
  refine loop_accepts fun body s hs hlt => ?_
  refine runs_check hs ?_
  cases hend : (currentKind s).endsBody with
  | true => exact Contract.turns_leave s hs hlt
  | false =>
    refine (hstmt s hs hlt hend).attempt.bind (fun _ _ => False.elim) ?_
    intro r s' hbehind hr
    cases r with
    | ok x => exact Contract.runs_pure hbehind.valid ⟨fun _ _ => hr, inferInstance⟩
    | error e =>
      obtain ⟨he, hE⟩ := hr
      refine (pushError_runs (E := fun _ => False) hbehind.valid he).bind (fun _ _ => False.elim) ?_
      rintro _ s₁ hbehind₁ rfl
      refine (syncToStmt_runs hbehind₁.valid).bind (fun _ _ => False.elim) ?_
      intro _ s₂ hbehind₂ hsync
      have hle : s₂.left ≤ s'.left := hbehind₂.left
      have hle' : s'.left ≤ s.left := hbehind.left
      have hread : s₂.left < s.left := by
        rcases hE with hread | hskipped
        · exact Nat.lt_of_le_of_lt hle hread
        · exact Nat.lt_of_lt_of_le (hsync hskipped) hle'
      exact Contract.runs_pure hbehind₂.valid ⟨fun _ _ => hread, inferInstance⟩

theorem stmtItems_accept : (contract good).Accepts n (itemsUntilBrace stmt) := by
  unfold itemsUntilBrace
  refine loop_accepts fun body s hs hlt => ?_
  refine runs_check hs ?_
  cases hend : (currentKind s).endsBody with
  | true => exact Contract.turns_leave s hs hlt
  | false =>
    refine (hstmt s hs hlt hend).bind (fun _ _ _ => trivial) fun x s' hbehind hread => ?_
    exact Contract.runs_pure hbehind.valid ⟨fun _ _ => hread, inferInstance⟩

end Loops

end Vani.Analysis
