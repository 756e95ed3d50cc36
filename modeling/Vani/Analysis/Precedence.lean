import Vani.Syntax.Expressions

/-!
# Expressions are parsed as they are spelled

The grammar of expressions has a level for each precedence of the operators, one above these for
operands with a prefix, one for operands with suffixes and one for primary expressions. A spelling
has at least the parentheses that the levels ask for. The function of a level reads the spelling
and goes on with its loop behind it, which is what the induction on the spelling carries: an
operand on the left is read by the loop that goes on to the operator.
-/

set_option autoImplicit false

namespace Vani.Analysis

open Vani.Library Vani.Program Vani.Syntax

/-! ## Spellings -/

/-- The tokens spell the expression at a level: up to `10` the operators of that precedence, `11`
an operand with a prefix, `12` one with suffixes, `13` a primary expression. -/
inductive Spells : Nat → Expr → List TokenKind → Prop
  | int (v : Int) : Spells 13 (.int v) [.int v]
  | float (bits : Nat) : Spells 13 (.float bits) [.float bits]
  | true_ : Spells 13 (.bool true) [.true_]
  | false_ : Spells 13 (.bool false) [.false_]
  | str (text : String) : Spells 13 (.str text) [.str text]
  | var (name : String) : Spells 13 (.var name) [.ident name]
  | paren {e ks} (h : Spells 1 e ks) : Spells 13 e (.lParen :: (ks ++ [.rParen]))
  | cast {e ks kind ty} (h : Spells 12 e ks) (hty : (kind, ty) ∈ keywordTypes) :
      Spells 12 (.cast e ty) (ks ++ [.as_, kind])
  | index {e i ks ks'} (h : Spells 12 e ks) (hi : Spells 1 i ks') :
      Spells 12 (.index e i) (ks ++ .lBracket :: (ks' ++ [.rBracket]))
  | field {e ks} (name : String) (h : Spells 12 e ks) :
      Spells 12 (.fieldAccess e name) (ks ++ [.dot, .ident name])
  | element {e ks} {n : Nat} (hn : n < 2 ^ 32) (h : Spells 12 e ks) :
      Spells 12 (.tupleAccess e n) (ks ++ [.dot, .int n])
  | neg {e ks} (h : Spells 11 e ks) : Spells 11 (.unary .neg e) (.minus :: ks)
  | not {e ks} (h : Spells 11 e ks) : Spells 11 (.unary .not e) (.bang :: ks)
  | ref {e ks} (h : Spells 11 e ks) : Spells 11 (.ref e) (.ref :: ks)
  | refMut {e ks} (h : Spells 11 e ks) : Spells 11 (.refMut e) (.mut_ :: .ref :: ks)
  | binary {op p k l r ks ks'} (hop : currentBinaryOp k = some (op, p)) (hl : Spells p l ks)
      (hr : Spells (p + 1) r ks') : Spells p (.binary op l r) (ks ++ k :: ks')
  | lower {m e ks} (h : Spells (m + 1) e ks) : Spells m e ks

theorem Spells.down {m n : Nat} {e : Expr} {ks : List TokenKind} (h : Spells m e ks)
    (hn : n ≤ m) : Spells n e ks := by
  induction hn with
  | refl => exact h
  | step _ ih => exact ih h.lower

/-! ## What lies ahead -/

/-- The kinds of the tokens from the place on. -/
def Comes (s : ParserState) (kinds : List TokenKind) : Prop :=
  (s.tokens.drop s.pos).map Token.kind = kinds

/-- Behind so many tokens. -/
def behind (s : ParserState) (n : Nat) : ParserState := { s with pos := s.pos + n }

/-- There is a first token, and it is as described. -/
def First (P : TokenKind → Prop) : List TokenKind → Prop
  | [] => False
  | k :: _ => P k

section Comes

variable {s : ParserState} {P P' : TokenKind → Prop} {k : TokenKind} {ks rest : List TokenKind}

theorem behind_behind (s : ParserState) (a b : Nat) : behind (behind s a) b = behind s (a + b) := by
  unfold behind
  rw [Nat.add_assoc]

theorem First.mono (h : First P ks) (hP : ∀ k, P k → P' k) : First P' ks :=
  match ks, h with
  | k :: _, h => hP k h

theorem First.append (h : First P ks) : First P (ks ++ rest) :=
  match ks, h with
  | _ :: _, h => h

theorem Comes.tail (h : Comes s (ks ++ rest)) : Comes (behind s ks.length) rest := by
  unfold Comes at h
  show (s.tokens.drop (s.pos + ks.length)).map Token.kind = rest
  rw [← List.drop_drop, List.map_drop, h, List.drop_left]

theorem Comes.left (h : Comes s ks) : s.left = (ks.map TokenKind.weight).sum := by
  unfold ParserState.left
  rw [← h, List.map_map]
  rfl

/-- Behind tokens of which the first is not the end there is less left. -/
theorem Comes.left_lt (h : Comes s (ks ++ rest)) (hks : First (· ≠ .eof) ks) :
    (behind s ks.length).left < s.left := by
  match ks, hks with
  | k :: ks, hk =>
    have hweight : 0 < k.weight := by
      unfold TokenKind.weight
      split
      · contradiction
      · decide
      · decide
    rw [h.tail.left, h.left, List.map_append, List.sum_append, List.map_cons, List.sum_cons]
    omega

end Comes

/-! ## Parsers that read given tokens -/

/-- Where the tokens come next and the others behind them, the parser reads the former, with a
result as described. -/
def Takes {α : Type} (p : Parse α) (Q : α → Prop) (ks rest : List TokenKind) : Prop :=
  ∀ ⦃s⦄, Comes s (ks ++ rest) → ∃ a, Q a ∧ p s = .done (.ok a, behind s ks.length)

section Takes

variable {α β γ : Type} {p : Parse α} {f : α → Parse β} {Q : α → Prop} {R : β → Prop}
  {k : TokenKind} {ks ks' rest : List TokenKind} {test : TokenKind → Bool}

theorem takes_pure {a : α} (h : Q a) : Takes (pure a) Q [] rest := fun _ _ => ⟨a, h, rfl⟩

theorem Takes.bind (h : Takes p Q ks (ks' ++ rest)) (hf : ∀ a, Q a → Takes (f a) R ks' rest) :
    Takes (p >>= f) R (ks ++ ks') rest := by
  intro s hs
  rw [List.append_assoc] at hs
  obtain ⟨a, ha, hrun⟩ := h hs
  obtain ⟨b, hb, hrun'⟩ := hf a ha hs.tail
  refine ⟨b, hb, ?_⟩
  rw [Parser.bind_of_ok hrun, hrun', behind_behind, List.length_append]

/-- The first part reads one token. -/
theorem Takes.token (h : Takes p Q [k] (ks ++ rest)) (hf : ∀ a, Q a → Takes (f a) R ks rest) :
    Takes (p >>= f) R (k :: ks) rest :=
  show Takes (p >>= f) R ([k] ++ ks) rest from h.bind hf

/-- The first part looks ahead. -/
theorem Takes.look (h : Takes p Q [] (ks ++ rest)) (hf : ∀ a, Q a → Takes (f a) R ks rest) :
    Takes (p >>= f) R ks rest :=
  show Takes (p >>= f) R ([] ++ ks) rest from h.bind hf

/-- The first part reads everything. -/
theorem Takes.last (h : Takes p Q ks rest) (hf : ∀ a, Q a → Takes (f a) R [] rest) :
    Takes (p >>= f) R ks rest := by
  rw [← List.append_nil ks]
  exact h.bind hf

theorem takes_current {P : TokenKind → Prop} (h : First P rest) :
    Takes current (fun t => P t.kind) [] rest := by
  intro s hs
  match rest, h with
  | k :: rest, h =>
    obtain ⟨t, ts, hdrop, rfl, -⟩ := List.map_eq_cons_iff.mp hs
    have ht : s.tokens[s.pos]? = some t := by
      rw [← List.head?_drop, hdrop]
      rfl
    refine ⟨t, h, ?_⟩
    unfold Syntax.current
    rw [ht]
    rfl

/-- The parser looks at the next token. -/
theorem takes_kind {f : Token → Parse β} (hf : ∀ t, t.kind = k → Takes (f t) R (k :: ks) rest) :
    Takes (current >>= f) R (k :: ks) rest :=
  (takes_current (show First (· = k) (k :: ks ++ rest) from rfl)).look hf

theorem takes_check {b : Bool} (h : First (test · = b) rest) :
    Takes (check test) (· = b) [] rest :=
  (takes_current h).look fun _ ht => takes_pure ht

theorem takes_bump (hk : k ≠ .eof) : Takes bump (·.kind = k) [k] rest := by
  unfold bump
  refine takes_kind fun t ht => ?_
  rw [if_neg (ht ▸ hk)]
  exact fun _ _ => ⟨t, ht, rfl⟩

theorem takes_expect (hk : test k = true ∧ k ≠ .eof) (expected : String) :
    Takes (expectKeyword expected test) (·.kind = k) [k] rest := by
  unfold expectKeyword
  refine Takes.look (takes_check hk.1) ?_
  rintro _ rfl
  exact takes_bump hk.2

theorem takes_miss (h : First (test · = false) rest) :
    Takes (matchToken test) (· = none) [] rest := by
  unfold matchToken
  refine (takes_check h).look ?_
  rintro _ rfl
  exact takes_pure rfl

section Loops

variable {body : β → Parse (β ⊕ γ)} {b : β} {T : β ⊕ γ → Prop} {U : γ → Prop}

theorem Takes.goes (h : Takes (body b) T ks (ks' ++ rest)) (hks : First (· ≠ .eof) ks)
    (hT : ∀ x, T x → ∃ b', x = .inl b' ∧ Takes (loop body b') U ks' rest) :
    Takes (loop body b) U (ks ++ ks') rest := by
  intro s hs
  rw [List.append_assoc] at hs
  obtain ⟨x, hx, hrun⟩ := h hs
  obtain ⟨b', rfl, hrest⟩ := hT x hx
  obtain ⟨c, hc, hloop⟩ := hrest hs.tail
  refine ⟨c, hc, ?_⟩
  rw [List.length_append, ← behind_behind]
  unfold loop at hloop ⊢
  rw [Parser.iterate, Parser.bind_of_ok hrun]
  exact Parser.iterate_mono hloop (hs.left_lt hks)

theorem Takes.leaves {c : γ} (h : Takes (body b) (· = .inr c) ks rest) (hc : U c) :
    Takes (loop body b) U ks rest := by
  intro s hs
  obtain ⟨_, rfl, hrun⟩ := h hs
  refine ⟨c, hc, ?_⟩
  unfold loop
  rw [Parser.iterate, Parser.bind_of_ok hrun]
  rfl

end Loops

end Takes

/-! ## Tokens between expressions -/

/-- The token goes on with the name before it, as a path or as a struct literal. -/
def extendsName : TokenKind → Bool
  | .colonColon | .lBrace => true
  | _ => false

/-- An operand ends before the token. -/
def endsOperand : TokenKind → Bool
  | .lParen | .as_ | .lBracket | .dot => false
  | k => !extendsName k

/-- An operand ends before the token, and no operator that binds so tightly follows. -/
def Looser (m : Nat) (k : TokenKind) : Prop :=
  endsOperand k = true ∧ ∀ x, currentBinaryOp k = some x → x.2 < m

/-- An expression ends before the token. -/
def EndsExpr (k : TokenKind) : Prop := endsOperand k = true ∧ currentBinaryOp k = none

/-- A primary expression begins with the token. -/
def beginsPrimary : TokenKind → Bool
  | .int _ | .float _ | .true_ | .false_ | .str _ | .ident _ | .lParen | .lBracket | .len => true
  | _ => false

/-- An operand with a mark before it begins with the token. -/
def beginsUnary : TokenKind → Bool
  | .minus | .bang | .ref | .mut_ => true
  | _ => false

theorem EndsExpr.looser {k : TokenKind} {m : Nat} (h : EndsExpr k) : Looser m k :=
  ⟨h.1, fun x hx => by rw [h.2] at hx; cases hx⟩

theorem Looser.succ {k : TokenKind} {m : Nat} (h : Looser m k) : Looser (m + 1) k :=
  ⟨h.1, fun x hx => Nat.lt_succ_of_lt (h.2 x hx)⟩

theorem looser_of_op {k : TokenKind} {op : BinaryOp} {p : Nat}
    (h : currentBinaryOp k = some (op, p)) : Looser (p + 1) k ∧ k ≠ .eof ∧ p ≤ 10 := by
  have hk : endsOperand k = true ∧ k ≠ .eof ∧ p ≤ 10 := by
    cases k
    all_goals first
      | cases h; exact ⟨rfl, TokenKind.noConfusion, by decide⟩
      | exact nomatch h
  refine ⟨⟨hk.1, fun x hx => ?_⟩, hk.2⟩
  rw [h] at hx
  cases hx
  exact Nat.lt_succ_self p

theorem extendsName_of_endsOperand {k : TokenKind} (h : endsOperand k = true) :
    extendsName k = false ∧ k ≠ .lParen := by
  unfold endsOperand at h
  split at h
  · cases h
  · cases h
  · cases h
  · cases h
  · exact ⟨by simpa using h, by assumption⟩

/-! ## What the functions of the levels do -/

/-- The expression, and where it stands. -/
def Finds (e : Expr) (x : Expr × Span) : Prop := ∃ span, x = (e, span)

/-- The calls may be as deep as the tokens are many, and a name before what follows is not gone on
with. -/
def PrimaryParses (e : Expr) (ks : List TokenKind) : Prop :=
  ∀ ⦃d rest⦄, ks.length ≤ d → First (extendsName · = false) rest →
    Takes (parsePrimaryExpr (entries d)) (Finds e) ks rest

/-- What the loop over suffixes goes on to behind the operand is what the function returns. -/
def SuffixedParses (e : Expr) (ks : List TokenKind) : Prop :=
  ∀ ⦃d ks' rest⦄ {R : Expr × Span → Prop}, ks.length ≤ d →
    First (fun k => extendsName k = false ∧ k ≠ .lParen) (ks' ++ rest) →
    (∀ span, Takes (loop (parseSuffix (entries d)) (e, span)) R ks' rest) →
    Takes (parseCallExpr (entries d)) R (ks ++ ks') rest

def UnaryParses (e : Expr) (ks : List TokenKind) : Prop :=
  ∀ ⦃d rest⦄, ks.length ≤ d → First (endsOperand · = true) rest →
    Takes (parseUnaryExpr (entries d)) (Finds e) ks rest

/-- What the loop over operators goes on to behind the operand is what the function returns. -/
def BinaryParses (m : Nat) (e : Expr) (ks : List TokenKind) : Prop :=
  ∀ ⦃d n ks' rest⦄ {R : Expr × Span → Prop}, n ≤ m → ks.length ≤ d →
    First (Looser (m + 1)) (ks' ++ rest) →
    (∀ span, Takes (loop (parseOperator (entries d) n) (e, span)) R ks' rest) →
    Takes (parseBinaryExpr (entries d) n) R (ks ++ ks') rest

/-- The functions of the levels up to the given one read the tokens as the expression. -/
structure Parsed (m : Nat) (e : Expr) (ks : List TokenKind) : Prop where
  begins : First (fun k => beginsPrimary k = true ∨ m ≤ 11 ∧ beginsUnary k = true) ks
  primary : 13 ≤ m → PrimaryParses e ks
  suffixed : 12 ≤ m → SuffixedParses e ks
  unary : 11 ≤ m → UnaryParses e ks
  binary : BinaryParses m e ks

section Parsed

variable {m d : Nat} {e e' : Expr} {span : Span} {ks ks' rest : List TokenKind} {k₀ : TokenKind}

theorem Parsed.lower (h : Parsed (m + 1) e ks) : Parsed m e ks where
  begins := h.begins.mono fun _ hk => hk.imp_right fun hk => ⟨Nat.le_of_succ_le hk.1, hk.2⟩
  primary hm := h.primary (Nat.le_succ_of_le hm)
  suffixed hm := h.suffixed (Nat.le_succ_of_le hm)
  unary hm := h.unary (Nat.le_succ_of_le hm)
  binary _ _ _ _ _ hn hd hrest := h.binary (Nat.le_succ_of_le hn) hd (hrest.mono fun _ => .succ)

theorem suffixes_leave (h : First (endsOperand · = true) rest) :
    Takes (loop (parseSuffix (entries d)) (e, span)) (Finds e) [] rest := by
  refine Takes.leaves (c := (e, span)) ?_ ⟨span, rfl⟩
  unfold parseSuffix
  refine (takes_current h).look fun t ht => ?_
  split
  iterate 4 simp_all [endsOperand]
  exact takes_pure rfl

/-- No operator follows that binds as tightly. -/
theorem operators_leave (h : First (Looser m) rest) :
    Takes (loop (parseOperator (entries d) m) (e, span)) (Finds e) [] rest := by
  refine Takes.leaves (c := (e, span)) ?_ ⟨span, rfl⟩
  unfold parseOperator
  refine (takes_current h).look fun t ht => ?_
  cases hop : currentBinaryOp t.kind with
  | none => exact takes_pure rfl
  | some x =>
    dsimp only
    rw [if_pos (ht.2 x hop)]
    exact takes_pure rfl

theorem PrimaryParses.suffixed (h : PrimaryParses e ks) : SuffixedParses e ks := by
  intro d ks' rest R hd hrest hloop
  unfold parseCallExpr
  refine (h hd (hrest.mono fun _ hk => hk.1)).bind ?_
  rintro _ ⟨span, rfl⟩
  exact hloop span

theorem SuffixedParses.unary (h : SuffixedParses e ks)
    (hbegins : First (beginsPrimary · = true) ks) : UnaryParses e ks := by
  intro d rest hd hrest
  have hcall := @h d [] rest (Finds e) hd (hrest.mono fun _ => extendsName_of_endsOperand)
    fun span => suffixes_leave hrest
  rw [List.append_nil] at hcall
  unfold parseUnaryExpr
  refine (takes_current hbegins.append).look fun t ht => ?_
  split
  iterate 5 simp_all [beginsPrimary]
  exact hcall

theorem UnaryParses.binary (h : UnaryParses e ks) : BinaryParses m e ks := by
  intro d n ks' rest R _ hd hrest hloop
  unfold parseBinaryExpr
  refine (h hd (hrest.mono fun _ hk => hk.1)).bind ?_
  rintro _ ⟨span, rfl⟩
  exact hloop span

/-- No operator follows that the loop of the level goes on with. -/
theorem BinaryParses.alone (h : BinaryParses m e ks) (hd : ks.length ≤ d)
    (hrest : First (Looser m) rest) : Takes (parseBinaryExpr (entries d) m) (Finds e) ks rest := by
  have hrun := @h d m [] rest (Finds e) (Nat.le_refl m) hd (hrest.mono fun _ => .succ)
    fun span => operators_leave hrest
  rwa [List.append_nil] at hrun

theorem SuffixedParses.parsed (h : SuffixedParses e ks)
    (hbegins : First (beginsPrimary · = true) ks) : Parsed 12 e ks where
  begins := hbegins.mono fun _ => .inl
  primary hm := absurd hm (by decide)
  suffixed _ := h
  unary _ := h.unary hbegins
  binary := (h.unary hbegins).binary

theorem UnaryParses.parsed (h : UnaryParses e (k₀ :: ks)) (hk₀ : beginsUnary k₀ = true) :
    Parsed 11 e (k₀ :: ks) where
  begins := .inr ⟨Nat.le_refl 11, hk₀⟩
  primary hm := absurd hm (by decide)
  suffixed hm := absurd hm (by decide)
  unary _ := h
  binary := h.binary

/-- What the token begins is a primary expression. -/
theorem parsed_primary (hk₀ : beginsPrimary k₀ = true)
    (h : ∀ {d rest t}, ks.length < d → First (extendsName · = false) rest → t.kind = k₀ →
      Takes (parsePrimaryFrom (entries d) t) (Finds e) ks rest) : Parsed 13 e (k₀ :: ks) := by
  have hprimary : PrimaryParses e (k₀ :: ks) := by
    intro d rest hd hrest
    unfold parsePrimaryExpr
    refine (takes_bump ?_).token fun t ht => h hd hrest ht
    rintro rfl
    cases hk₀
  have hunary : UnaryParses e (k₀ :: ks) := hprimary.suffixed.unary hk₀
  exact ⟨.inl hk₀, fun _ => hprimary, fun _ => hprimary.suffixed, fun _ => hunary, hunary.binary⟩

/-! ## Expressions behind a token -/

/-- An expression of the level is read behind a token. -/
theorem Parsed.operand (h : Parsed m e ks) (hd : ks.length < d) (hrest : First (Looser m) rest) :
    Takes ((entries d).parseBinaryExpr m) (Finds e) ks rest := by
  obtain ⟨d, rfl⟩ := Nat.exists_eq_add_of_lt hd
  exact h.binary.alone (Nat.le_add_right _ d) hrest

theorem Parsed.expr (h : Parsed 1 e ks) (hd : ks.length < d) (hrest : First EndsExpr rest) :
    Takes (entries d).parseExpr (Finds e) ks rest :=
  h.operand hd (hrest.mono fun _ => EndsExpr.looser)

theorem Parsed.exprOnly (h : Parsed 1 e ks) (hd : ks.length < d) (hrest : First EndsExpr rest) :
    Takes (entries d).expr (· = e) ks rest := by
  unfold Entries.expr
  refine (h.expr hd hrest).last ?_
  rintro _ ⟨span, rfl⟩
  exact takes_pure rfl

/-! ## Primary expressions -/

/-- A literal is read as it is. -/
theorem parsed_literal (hk₀ : beginsPrimary k₀ = true)
    (h : ∀ {r t}, t.kind = k₀ → parsePrimaryFrom r t = pure (e, t.span)) : Parsed 13 e [k₀] :=
  parsed_primary hk₀ fun _ _ ht => by
    rw [h ht]
    exact takes_pure ⟨_, rfl⟩

theorem parsed_var (name : String) : Parsed 13 (.var name) [.ident name] := by
  refine parsed_primary rfl fun {d rest t} _ hrest ht => ?_
  have hpath : Takes (exprPath name t.span) (· = (name, t.span)) [] rest := by
    refine Takes.leaves ?_ rfl
    refine (takes_check (b := false) (hrest.mono fun k hk => ?_)).look ?_
    · apply beq_false_of_ne
      rintro rfl
      cases hk
    · rintro _ rfl
      exact takes_pure rfl
  have hkinds : Takes (kindsFrom 0) (· = rest) [] rest := fun s hs => ⟨_, hs, rfl⟩
  have hstruct : looksLikeStruct name rest = false := by
    match rest, hrest with
    | k :: rest, hk =>
      unfold looksLikeStruct
      split
      · simp_all [extendsName, First]
      · simp_all [extendsName, First]
      · rfl
  unfold parsePrimaryFrom
  rw [ht]
  refine hpath.look ?_
  rintro _ rfl
  refine hkinds.look ?_
  rintro _ rfl
  rw [hstruct]
  exact takes_pure ⟨_, rfl⟩

theorem Parsed.paren (h : Parsed 1 e ks) : Parsed 13 e (.lParen :: (ks ++ [.rParen])) := by
  refine parsed_primary rfl fun {d rest t} hd _ ht => ?_
  rw [List.length_append] at hd
  unfold parsePrimaryFrom
  rw [ht]
  refine Takes.bind (h.expr (by omega) ⟨rfl, rfl⟩) ?_
  rintro _ ⟨span, rfl⟩
  refine Takes.look (takes_miss rfl) ?_
  rintro _ rfl
  exact (takes_expect ⟨rfl, TokenKind.noConfusion⟩ _).token fun _ _ => takes_pure ⟨_, rfl⟩

/-! ## Suffixes -/

section Suffix

variable {ks₁ : List TokenKind}

/-- A turn of the loop over suffixes reads the tokens behind the expression. -/
def SuffixParses (e e' : Expr) (ks : List TokenKind) : Prop :=
  ∀ ⦃d rest⦄ (span : Span), ks.length ≤ d → First (· ≠ .lParen) rest →
    Takes (parseSuffix (entries d) (e, span)) (fun x => ∃ span', x = .inl (e', span')) ks rest

/-- An operand and what a turn of the loop over suffixes reads behind it. -/
theorem Parsed.suffix (h : Parsed 12 e ks) (hk₀ : endsOperand k₀ = false)
    (hname : extendsName k₀ = false ∧ k₀ ≠ .lParen) (hsuffix : SuffixParses e e' (k₀ :: ks₁)) :
    Parsed 12 e' (ks ++ k₀ :: ks₁) := by
  have hbegins : First (beginsPrimary · = true) ks := by
    refine h.begins.mono fun _ hk => hk.resolve_right ?_
    rintro ⟨hm, -⟩
    exact absurd hm (by decide)
  refine SuffixedParses.parsed ?_ hbegins.append
  intro d ks' rest R hd hrest hloop
  rw [List.length_append] at hd
  rw [List.append_assoc]
  refine h.suffixed (Nat.le_refl 12) (Nat.le_of_add_right_le hd) hname fun span => ?_
  have hturn := hsuffix span (Nat.le_of_add_left_le hd) (hrest.mono fun _ hk => hk.2)
  refine hturn.goes (show k₀ ≠ .eof from ?_) ?_
  · rintro rfl
    cases hk₀
  · rintro _ ⟨span', rfl⟩
    exact ⟨_, rfl, hloop span'⟩

theorem takes_keywordType {kind : TokenKind} {ty : Ty} (hty : (kind, ty) ∈ keywordTypes) :
    Takes (parseType (entries d)) (· = ty) [kind] rest := by
  have hlookup : keywordTypes.lookup kind = some ty ∧ kind ≠ .eof := by
    simp only [keywordTypes, List.mem_cons, Prod.mk.injEq, List.not_mem_nil, or_false] at hty
    casesm* _ ∨ _
    all_goals
      obtain ⟨rfl, rfl⟩ := hty
      exact ⟨rfl, TokenKind.noConfusion⟩
  unfold parseType
  refine takes_kind ?_
  rintro t rfl
  split
  iterate 9 simp_all [keywordTypes]
  rw [hlookup.1]
  exact (takes_bump hlookup.2).token fun _ _ => takes_pure rfl

theorem Parsed.cast {kind : TokenKind} {ty : Ty} (h : Parsed 12 e ks)
    (hty : (kind, ty) ∈ keywordTypes) : Parsed 12 (.cast e ty) (ks ++ [.as_, kind]) := by
  refine h.suffix rfl ⟨rfl, TokenKind.noConfusion⟩ fun d rest span hd _ => ?_
  obtain ⟨d, rfl⟩ := Nat.exists_eq_add_of_le' (Nat.le_of_add_left_le hd)
  have htype : Takes (entries (d + 1)).parseType (· = ty) [kind] rest := takes_keywordType hty
  unfold parseSuffix
  refine takes_kind fun t ht => ?_
  rw [ht]
  refine (takes_bump TokenKind.noConfusion).token fun _ _ => htype.last ?_
  rintro _ rfl
  exact takes_pure ⟨_, rfl⟩

theorem Parsed.index {i : Expr} (h : Parsed 12 e ks) (hi : Parsed 1 i ks₁) :
    Parsed 12 (.index e i) (ks ++ .lBracket :: (ks₁ ++ [.rBracket])) := by
  refine h.suffix rfl ⟨rfl, TokenKind.noConfusion⟩ fun d rest span hd _ => ?_
  rw [List.length_cons, List.length_append] at hd
  unfold parseSuffix
  refine takes_kind fun t ht => ?_
  rw [ht]
  refine (takes_bump TokenKind.noConfusion).token fun _ _ => ?_
  refine Takes.bind (hi.exprOnly (by omega) ⟨rfl, rfl⟩) ?_
  rintro _ rfl
  exact (takes_expect ⟨rfl, TokenKind.noConfusion⟩ _).token fun _ _ => takes_pure ⟨_, rfl⟩

/-- A suffix that begins with a dot. -/
theorem Parsed.dotted (h : Parsed 12 e ks)
    (hdot : ∀ {d rest} (span : Span), ks₁.length < d → First (· ≠ .lParen) rest →
      Takes (parseDot (entries d) (e, span)) (Finds e') ks₁ rest) :
    Parsed 12 e' (ks ++ .dot :: ks₁) := by
  refine h.suffix rfl ⟨rfl, TokenKind.noConfusion⟩ fun d rest span hd hrest => ?_
  unfold parseSuffix
  refine takes_kind fun t ht => ?_
  rw [ht]
  refine (takes_bump TokenKind.noConfusion).token fun _ _ => (hdot span hd hrest).last ?_
  rintro _ ⟨span', rfl⟩
  exact takes_pure ⟨_, rfl⟩

theorem Parsed.element {n : Nat} (h : Parsed 12 e ks) (hn : n < 2 ^ 32) :
    Parsed 12 (.tupleAccess e n) (ks ++ [.dot, .int n]) := by
  refine h.dotted fun {d rest} span _ _ => ?_
  have hfits : ((n : Int) < 0 || 2 ^ 32 ≤ (n : Int)) = false := by
    simp only [Bool.or_eq_false_iff, decide_eq_false_iff_not]
    omega
  unfold parseDot
  refine (takes_bump TokenKind.noConfusion).token fun t ht => ?_
  rw [ht]
  dsimp only
  rw [hfits]
  exact takes_pure ⟨_, rfl⟩

theorem Parsed.field (h : Parsed 12 e ks) (name : String) :
    Parsed 12 (.fieldAccess e name) (ks ++ [.dot, .ident name]) := by
  refine h.dotted fun {d rest} span _ hrest => ?_
  unfold parseDot
  refine (takes_bump TokenKind.noConfusion).token fun t ht => ?_
  rw [ht]
  refine (takes_check (b := false) (hrest.mono fun _ hk => beq_false_of_ne hk)).look ?_
  rintro _ rfl
  exact takes_pure ⟨_, rfl⟩

end Suffix

/-! ## Prefixes and operators -/

theorem Parsed.restMark (h : Parsed 11 e ks) (hk₀ : k₀ ≠ .eof) (former : Expr → Expr)
    (hd : ks.length < d) (hrest : First (endsOperand · = true) rest) :
    Takes (parsePrefixed (entries d) former) (Finds (former e)) (k₀ :: ks) rest := by
  obtain ⟨d, rfl⟩ := Nat.exists_eq_add_of_lt hd
  have hinner : Takes (entries (ks.length + d + 1)).parseUnaryExpr (Finds e) ks rest :=
    h.unary (Nat.le_refl 11) (Nat.le_add_right _ d) hrest
  unfold parsePrefixed
  refine (takes_bump hk₀).token fun _ _ => hinner.last ?_
  rintro _ ⟨span, rfl⟩
  exact takes_pure ⟨_, rfl⟩

/-- An operand with a mark of one token before it. -/
theorem Parsed.marked {former : Expr → Expr} (h : Parsed 11 e ks) (hk₀ : beginsUnary k₀ = true)
    (hmark : ∀ {r s} {t : Token}, t.kind = k₀ → current s = .done (.ok t, s) →
      parseUnaryExpr r s = parsePrefixed r former s) : Parsed 11 (former e) (k₀ :: ks) := by
  refine UnaryParses.parsed (fun d rest hd hrest s hs => ?_) hk₀
  obtain ⟨t, ht, hcurrent⟩ := takes_current (show First (· = k₀) (k₀ :: ks ++ rest) from rfl) hs
  rw [hmark ht hcurrent]
  exact h.restMark (by rintro rfl; cases hk₀) former hd hrest hs

theorem Parsed.refMut (h : Parsed 11 e ks) : Parsed 11 (.refMut e) (.mut_ :: .ref :: ks) := by
  refine UnaryParses.parsed (fun d rest hd hrest => ?_) rfl
  have hahead : Takes (checkAhead 1 (· == .ref)) (· = true) [] (.mut_ :: .ref :: ks ++ rest) := by
    intro s hs
    refine ⟨true, rfl, ?_⟩
    have hkinds : kindsFrom 1 s = .done (.ok (.ref :: ks ++ rest), s) := by
      rw [← show Comes (behind s 1) (.ref :: ks ++ rest) from
        Comes.tail (show Comes s ([.mut_] ++ (.ref :: ks ++ rest)) from hs)]
      rfl
    unfold checkAhead
    exact (Parser.bind_of_ok hkinds).trans rfl
  unfold parseUnaryExpr
  refine takes_kind fun t ht => ?_
  rw [ht]
  refine hahead.look ?_
  rintro _ rfl
  refine (takes_bump TokenKind.noConfusion).token fun _ _ => ?_
  refine (h.restMark TokenKind.noConfusion .refMut (Nat.le_of_succ_le hd) hrest).last ?_
  rintro _ ⟨span, rfl⟩
  exact takes_pure ⟨_, rfl⟩

/-- The operand on the left is read by the loop that goes on to the operator. -/
theorem Parsed.operator {op : BinaryOp} {p : Nat} {kind : TokenKind} {l r : Expr}
    (hop : currentBinaryOp kind = some (op, p)) (hl : Parsed p l ks) (hr : Parsed (p + 1) r ks') :
    Parsed p (.binary op l r) (ks ++ kind :: ks') := by
  obtain ⟨hlooser, hkind, hp⟩ := looser_of_op hop
  refine ⟨hl.begins.append, fun hm => by omega, fun hm => by omega, fun hm => by omega, ?_⟩
  intro d n ks₁ rest R hn hd hrest hloop
  rw [List.length_append] at hd
  rw [List.append_assoc]
  refine hl.binary hn (Nat.le_of_add_right_le hd) hlooser fun span => ?_
  have hright := hr.operand (Nat.le_of_add_left_le hd) hrest
  refine Takes.goes (T := fun x => ∃ span', x = .inl (.binary op l r, span')) ?_ hkind ?_
  · unfold parseOperator
    refine takes_kind fun t ht => ?_
    rw [ht, hop]
    dsimp only
    rw [if_neg (Nat.not_lt.mpr hn)]
    refine (takes_bump hkind).token fun _ _ => hright.last ?_
    rintro _ ⟨span', rfl⟩
    exact takes_pure ⟨_, rfl⟩
  · rintro _ ⟨span', rfl⟩
    exact ⟨_, rfl, hloop span'⟩

/-! ## Every spelling -/

theorem Spells.parsed (h : Spells m e ks) : Parsed m e ks := by
  induction h with
  | int | float | true_ | false_ | str =>
    exact parsed_literal rfl fun ht => by unfold parsePrimaryFrom; rw [ht]
  | var name => exact parsed_var name
  | paren _ ih => exact ih.paren
  | cast _ hty ih => exact ih.cast hty
  | index _ _ ih ihi => exact ih.index ihi
  | field name _ ih => exact ih.field name
  | element hn _ ih => exact ih.element hn
  | neg _ ih | not _ ih | ref _ ih =>
    refine ih.marked rfl fun ht hrun => ?_
    unfold parseUnaryExpr
    rw [Parser.bind_of_ok hrun, ht]
  | refMut _ ih => exact ih.refMut
  | binary hop _ _ ihl ihr => exact ihl.operator hop ihr
  | lower _ ih => exact ih.lower

/-- What is spelled with the parentheses that the levels ask for is parsed as what it spells, up to
the token behind it. -/
theorem parseExpr_spelled {s : ParserState} {k : TokenKind} (h : Spells 1 e ks)
    (hs : Comes s (ks ++ k :: rest)) (hk : EndsExpr k) (hd : ks.length ≤ d) :
    ∃ span, parseExpr (entries d) s = .done (.ok (e, span), behind s ks.length) := by
  have hlooser : First (Looser 1) (k :: rest) := hk.looser
  obtain ⟨_, ⟨span, rfl⟩, hparse⟩ := h.parsed.binary.alone hd hlooser hs
  exact ⟨span, hparse⟩

/-- A product on the right of a sum needs no parentheses. -/
theorem parseExpr_spelled_product :
    let kinds : List TokenKind := [.int 1, .plus, .int 2, .star, .int 3, .semicolon]
    let s := ParserState.new (kinds.map fun kind => ⟨kind, ⟨0, 0⟩⟩)
    ∃ span, parseExpr (entries 5) s = .done (.ok
      (.binary .add (.int 1) (.binary .mul (.int 2) (.int 3)), span), behind s 5) :=
  have hproduct := Spells.binary (k := .star) rfl ((Spells.int 2).down (by decide))
    ((Spells.int 3).down (by decide))
  have hsum := Spells.binary (k := .plus) rfl ((Spells.int 1).down (by decide)) hproduct
  parseExpr_spelled (hsum.down (by decide)) rfl ⟨rfl, rfl⟩ (by decide)

/-- A spelling stands for one expression. -/
theorem spelled_unique (h : Spells 1 e ks) (h' : Spells 1 e' ks) : e = e' := by
  have hs : Comes (ParserState.new ((ks ++ [TokenKind.eof]).map fun kind => ⟨kind, ⟨0, 0⟩⟩))
      (ks ++ [.eof]) := by
    unfold Comes ParserState.new
    rw [List.drop_zero, List.map_map]
    exact List.map_id _
  have hd : ks.length < ks.length + 1 := Nat.lt_succ_self _
  have hend : First EndsExpr [.eof] := ⟨rfl, rfl⟩
  obtain ⟨_, ⟨span, rfl⟩, hrun⟩ := h.parsed.expr hd hend hs
  obtain ⟨_, ⟨span', rfl⟩, hrun'⟩ := h'.parsed.expr hd hend hs
  have heq := hrun.symm.trans hrun'
  cases heq
  rfl

end Parsed

end Vani.Analysis
