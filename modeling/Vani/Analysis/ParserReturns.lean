import Vani.Analysis.ParserContract

/-!
# The parser returns

Every parser returns from every state in which it stands at a token: with a value behind tokens it
has read, or with an error that has a place in the source. The functions that call one another are
good below a bound if the ones they call are good below the next lower bound, since a call is made
behind a token. Of a function in one piece the instances of the contract find this; what is proved
by hand is where the parser looks at a token first, and the loops.
-/

set_option autoImplicit false
set_option synthInstance.maxSize 4000

namespace Vani.Analysis

open Vani.Library Vani.Program Vani.Syntax

/-- The functions return below a bound. -/
class Returning (good : Places) (n : Nat) (r : Entries) : Prop where
  parseType : (contract good).Accepts n r.parseType
  parseBinaryExpr : ∀ m, (contract good).Accepts n (r.parseBinaryExpr m)
  parseUnaryExpr : (contract good).Accepts n r.parseUnaryExpr
  parseCallExpr : (contract good).Accepts n r.parseCallExpr
  parsePrimaryExpr : (contract good).Accepts n r.parsePrimaryExpr
  parseStmt : ReadsStmt good n r.parseStmt
  parseIfStmt : (contract good).Accepts n r.parseIfStmt

variable {good : Places} {n : Nat} {r : Entries}

section Called

variable [hr : Returning good n r]

instance : (contract good).Accepts n r.parseType := hr.parseType

instance (m : Nat) : (contract good).Accepts n (r.parseBinaryExpr m) := hr.parseBinaryExpr m

instance : (contract good).Accepts n r.parseUnaryExpr := hr.parseUnaryExpr

instance : (contract good).Accepts n r.parseCallExpr := hr.parseCallExpr

instance : (contract good).Accepts n r.parsePrimaryExpr := hr.parsePrimaryExpr

instance : (contract good).Accepts n r.parseIfStmt := hr.parseIfStmt

instance : (contract good).Accepts n r.parseExpr := hr.parseBinaryExpr 1

instance : (contract good).Accepts n r.expr := by
  unfold Entries.expr
  infer_instance

instance : (contract good).Accepts n (stmtsUntilBrace r.parseStmt) :=
  stmtsUntilBrace_accepts hr.parseStmt

instance : (contract good).Accepts n (itemsUntilBrace r.parseStmt) := stmtItems_accept hr.parseStmt

end Called

/-! ## Types -/

instance (t : (contract good).Results Token) (constIntValues : List (String × Int)) :
    (contract good).Accepts n (arrayLengthValue t.1 constIntValues) := by
  unfold arrayLengthValue
  split
  · infer_instance
  · split
    · infer_instance
    · infer_instance
  · infer_instance

instance : (contract good).Accepts n parseArrayLength := by
  unfold parseArrayLength
  infer_instance

instance : ReturnsInside good (n + 1) parseDynType := by
  unfold parseDynType
  have hname : ∀ t : (contract good).Results Token, (contract good).Accepts n
      (match t.1.kind with
        | .ident name => pure (.object name)
        | _ => errorAt t.1.span "expected an interface name after `dyn`" : Parse Ty) := by
    intro t
    split
    · infer_instance
    · infer_instance
  infer_instance

instance : (contract good).Accepts n parseCapacity := by
  unfold parseCapacity
  refine Contract.Accepts.bindOption inferInstance inferInstance fun _ => ?_
  refine Contract.Accepts.bind inferInstance fun t => ?_
  split
  · infer_instance
  · infer_instance

instance (name : String) : (contract good).Accepts n (typePath name) := by
  unfold typePath
  refine loop_accepts fun path => ?_
  refine Contract.Accepts.bind_turns inferInstance fun _ => ?_
  exact Contract.reads_thenPair.turns

section Types

variable [Returning good n r]

instance : (contract good).Accepts n (parseAngled r) := by
  unfold parseAngled
  infer_instance

instance : (contract good).Accepts n (parseAngledPair r) := by
  unfold parseAngledPair
  infer_instance

instance : ReturnsInside good (n + 1) (parseTupleType r) := by
  unfold parseTupleType
  infer_instance

instance : ReturnsInside good (n + 1) (parseFnPtrType r) := by
  unfold parseFnPtrType
  infer_instance

instance : ReturnsInside good (n + 1) (parseArrayType r) := by
  unfold parseArrayType
  infer_instance

instance : ReturnsInside good (n + 1) (parseChannelType r) := by
  unfold parseChannelType
  infer_instance

instance (name : String) : ReturnsInside good (n + 1) (parseNominalType r name) := by
  unfold parseNominalType
  infer_instance

instance (name : String) : ReturnsInside good (n + 1) (parseNamedType r name) := by
  unfold parseNamedType
  split
  · infer_instance
  · split
    · infer_instance
    · split
      all_goals infer_instance

instance : ReturnsInside good (n + 1) (parseMutRefType r) := by
  unfold parseMutRefType
  infer_instance

theorem parseType_accepts : (contract good).Accepts (n + 1) (parseType r) := by
  refine ⟨fun s hs hlt => ?_⟩
  unfold parseType
  refine runs_current hs fun t _ ht hkind => ?_
  have hgood : (contract good).Good t := ⟨ht⟩
  rw [hkind]
  split
  iterate 3 exact ReturnsInside.runs s hs hlt (by simp [Inside, *])
  iterate 2 exact Contract.Accepts.runs s hs hlt
  iterate 4 exact ReturnsInside.runs s hs hlt (by simp [Inside, *])
  · split
    · rename_i hlookup
      refine ReturnsInside.runs s hs hlt fun hend => ?_
      rw [hend] at hlookup
      cases hlookup
    · exact Contract.Accepts.runs s hs hlt

instance : (contract good).Accepts n (parseTypeAscription r) := by
  unfold parseTypeAscription
  infer_instance

instance (colon : String) :
    (contract good).Reads (n + 1) (At TokenKind.isIdent) (parseParam r colon) :=
  Contract.reads_thenPair

end Types

/-! ## Expressions -/

section Primaries

variable [Returning good n r] {start : Span} [(contract good).Good start]

instance : (contract good).Accepts n (parseLetTuple r start) := by
  unfold parseLetTuple
  infer_instance

instance : (contract good).Reads (n + 1) (At (· == .let_)) (parseLetStmt r) :=
  reads_keyword rfl

/-- An item is a string literal, or what the expression is. -/
theorem printItem_runs {s : ParserState} {expr : Parse Expr} {Q E : ParserState → Prop}
    (hs : Standing good s) (hread : ∀ s', s'.left < s.left → Q s')
    (hexpr : (contract good).Runs expr s (fun _ s' => Q s') E) :
    (contract good).Runs (printItem expr) s (fun _ s' => Q s') E := by
  unfold printItem
  refine runs_check hs ?_
  cases htest : (currentKind s).isStr with
  | true =>
    refine runs_bump hs (At.inside rfl htest) fun t s' ht hkind hs' hless => ?_
    rw [← hkind] at htest
    unfold TokenKind.isStr at htest
    unfold strText
    split at htest
    · exact Contract.runs_pure hs' (hread s' hless)
    · cases htest
  | false =>
    refine hexpr.bind (fun _ _ h => h) fun e s' hbehind hQ => ?_
    exact Contract.runs_pure hbehind.valid hQ

instance (expr : Parse Expr) [h : (contract good).Accepts n expr] :
    (contract good).Accepts n (printItem expr) :=
  ⟨fun s hs hlt => (printItem_runs hs (fun _ _ => trivial)
    ((h.runs s hs hlt).mono (fun _ _ _ _ => trivial) fun _ _ h => h)).mono
      (fun _ _ _ _ => inferInstance) fun _ _ h => h⟩

instance : (contract good).Reads (n + 1) (At (· == .print)) (parsePrintStmt r) :=
  reads_keyword rfl

instance : (contract good).Accepts n (parseBlockExpr r start) := by
  unfold parseBlockExpr
  refine Contract.Accepts.bind (loop_accepts fun stmts => ?_) fun stmts => inferInstance
  refine Contract.Accepts.bind_turns inferInstance fun _ => ?_
  refine Contract.turns_ite Contract.reads_then.turns ?_
  refine Contract.Accepts.bind_turns inferInstance fun _ => ?_
  exact Contract.turns_ite Contract.reads_then.turns Contract.turns_leave

instance : (contract good).Accepts n (parseElseValue r) := by
  unfold parseElseValue
  infer_instance

instance : (contract good).Accepts n (parseIfExpr r start) := by
  unfold parseIfExpr
  infer_instance

instance : (contract good).Accepts n (parseClosure r start) := by
  unfold parseClosure
  infer_instance

instance : (contract good).Accepts n (parseReturnType r) := by
  unfold parseReturnType
  infer_instance

instance : (contract good).Accepts n (parseAnonFn r start) := by
  unfold parseAnonFn
  infer_instance

omit [Returning good n r] [(contract good).Good start] in
instance : (contract good).Accepts n parseNumberPattern := by
  unfold parseNumberPattern
  refine Contract.Accepts.bind inferInstance fun start => ?_
  refine Contract.Accepts.bind inferInstance fun negative => ?_
  refine Contract.Accepts.bind inferInstance fun literal => ?_
  split
  · split
    · infer_instance
    · infer_instance
  · infer_instance
  · infer_instance

omit [Returning good n r] [(contract good).Good start] in
instance : (contract good).Accepts n parseVariantPattern := by
  unfold parseVariantPattern
  infer_instance

omit [Returning good n r] [(contract good).Good start] in
instance : (contract good).Accepts n parsePattern := by
  unfold parsePattern
  refine Contract.Accepts.bind inferInstance fun t => ?_
  split
  all_goals infer_instance

instance : (contract good).Accepts n (parseArm r) := by
  unfold parseArm
  infer_instance

instance : (contract good).Accepts n (parseMatchExpr r start) := by
  unfold parseMatchExpr
  infer_instance

omit [Returning good n r] in
instance (name : String) : (contract good).Accepts n (exprPath name start) := by
  unfold exprPath
  refine loop_accepts fun path => ?_
  refine Contract.Accepts.bind_turns inferInstance fun _ => ?_
  refine Contract.turns_ite ?_ Contract.turns_leave
  refine Contract.Accepts.bind_turns inferInstance fun _ => ?_
  exact Contract.reads_thenPair.turns

instance : (contract good).Accepts n (parseFieldInit r) := by
  unfold parseFieldInit
  infer_instance

instance (first : String) : (contract good).Accepts n (parseNameExpr r first start) := by
  unfold parseNameExpr
  infer_instance

instance : (contract good).Accepts n (parseParenExpr r start) := by
  unfold parseParenExpr
  refine Contract.Accepts.bind inferInstance fun first => ?_
  exact Contract.Accepts.bindOption inferInstance inferInstance fun _ => inferInstance

instance : (contract good).Accepts n (parseArrayExpr r start) := by
  unfold parseArrayExpr
  infer_instance

instance : (contract good).Reads (n + 1) Inside (parsePrimaryExpr r) := by
  unfold parsePrimaryExpr
  refine reads_bump (fun t => ?_) fun t hend => ?_
  · unfold parsePrimaryFrom
    split
    all_goals infer_instance
  · unfold parsePrimaryFrom
    rw [hend]
    exact ⟨_, rfl⟩

end Primaries

/-! ## Operands -/

section Operands

variable [Returning good n r]

instance (e : Expr × Span) (name : String) (span : Span) [(contract good).Good span] :
    (contract good).Accepts n (parseMember r e name span) := by
  unfold parseMember
  infer_instance

instance (e : Expr × Span) [(contract good).Good e] : (contract good).Accepts n (parseDot r e) := by
  unfold parseDot
  refine Contract.Accepts.bind inferInstance fun next => ?_
  dsimp only
  split
  · infer_instance
  · split
    · infer_instance
    · infer_instance
  · infer_instance
  · infer_instance
  · infer_instance

instance (e : Expr × Span) [(contract good).Good e] :
    (contract good).Accepts n (parseCallArgs r e) := by
  unfold parseCallArgs
  split
  · infer_instance
  · infer_instance

instance : (contract good).Reads (n + 1) Inside (parseCallExpr r) := by
  unfold parseCallExpr
  refine Contract.Reads.bind inferInstance fun e => loop_accepts fun e s hs hlt => ?_
  unfold parseSuffix
  refine runs_current hs fun t _ _ hkind => ?_
  rw [hkind]
  split
  iterate 4 exact turn_bump hs hlt (by simp [Inside, *])
  exact Contract.turns_leave s hs hlt

instance (former : Expr → Expr) : (contract good).Accepts n (parsePrefixed r former) := by
  unfold parsePrefixed
  infer_instance

instance : (contract good).Reads (n + 1) Inside (parseUnaryExpr r) := by
  refine ⟨fun s hs hlt => ?_⟩
  unfold parseUnaryExpr
  refine runs_current hs fun t _ ht hkind => ?_
  have hgood : (contract good).Good t := ⟨ht⟩
  -- a prefix is read, and the operand behind it is a call of another function
  have hprefix : ∀ {p : Parse (Expr × Span)}, (contract good).From (n + 1) Inside p → Inside s →
      (contract good).Runs p s (fun a s' => s'.left < s.left ∧ (contract good).Good a)
        fun s' => Inside s → s'.left < s.left :=
    fun h hin => (h s hs hlt hin).mono (fun _ _ _ h => h) fun _ _ h _ => h
  rw [hkind]
  split
  iterate 4 exact hprefix from_bump (by simp [Inside, *])
  · refine runs_peek ⟨_, rfl⟩ fun isRef => ?_
    split
    · exact hprefix from_bump (by simp [Inside, *])
    · exact Contract.Reads.runs s hs hlt
  · exact Contract.Reads.runs s hs hlt

instance (minPrecedence : Nat) :
    (contract good).Reads (n + 1) Inside (parseBinaryExpr r minPrecedence) := by
  unfold parseBinaryExpr
  refine Contract.Reads.bind inferInstance fun left => loop_accepts fun left s hs hlt => ?_
  unfold parseOperator
  refine runs_current hs fun t _ _ hkind => ?_
  rw [hkind]
  split
  · exact Contract.turns_leave s hs hlt
  · rename_i hop
    split
    · exact Contract.turns_leave s hs hlt
    · refine turn_bump hs hlt fun hend => ?_
      rw [hend] at hop
      cases hop

instance : (contract good).Reads (n + 1) Inside (parseExpr r) := by
  unfold parseExpr
  infer_instance

instance : (contract good).Reads (n + 1) Inside (parseExprOnly r) := Contract.reads_thenPair

end Operands

/-! ## Statements that begin with a keyword -/

section Statements

variable [Returning good n r]

instance : (contract good).Reads (n + 1) (At (· == .lBrace)) (parseBlock r) :=
  reads_keyword rfl

instance : (contract good).Reads (n + 1) (At (· == .return_)) (parseReturnStmt r) :=
  reads_keyword rfl

omit [Returning good n r] in
instance : (contract good).Accepts n parseMessage := by
  unfold parseMessage
  infer_instance

instance : (contract good).Reads (n + 1) (At (· == .assert)) (parseAssertStmt r) :=
  reads_keyword rfl

instance : (contract good).Reads (n + 1) (At (· == .prove)) (parseProveStmt r) :=
  reads_keyword rfl

instance : (contract good).Reads (n + 1) (At (· == .if_)) (parseIfStmt r) :=
  reads_keyword rfl

instance : (contract good).Accepts n (parseInvariants r) := itemsAfter_accepts rfl

instance : (contract good).Reads (n + 1) (At (· == .while_)) (parseWhileStmt r) :=
  reads_keyword rfl

omit [Returning good n r] in
instance (start : Token) [(contract good).Good start] :
    (contract good).Accepts n (parseReduction start) := by
  unfold parseReduction
  refine Contract.Accepts.bind inferInstance fun var => ?_
  refine Contract.Accepts.bind inferInstance fun _ => ?_
  refine Contract.Accepts.bind inferInstance fun t => ?_
  split
  · infer_instance
  · infer_instance

omit [Returning good n r] in
instance : (contract good).Accepts n parseReductions := itemsAfter_accepts rfl

instance (parallel : Bool) (var : String) (first last : Expr) :
    (contract good).Accepts n (parseForRest r parallel var first last) := by
  unfold parseForRest
  refine Contract.Accepts.bind inferInstance fun invariants => ?_
  refine Contract.Accepts.bind inferInstance fun ⟨reductions, hall⟩ => ?_
  cases reductions with
  | nil => infer_instance
  | cons x rest =>
    obtain ⟨reduction, span⟩ := x
    have hspan : (contract good).Good span := ⟨(hall.holds _ List.mem_cons_self).2⟩
    cases parallel
    · infer_instance
    · infer_instance

instance (parallel : Bool) (start : Span) [(contract good).Good start] (var : String) :
    (contract good).Accepts n (parseForIter r parallel start var) := by
  unfold parseForIter
  infer_instance

instance (parallel : Bool) :
    (contract good).Reads (n + 1) (At (· == .for_)) (parseForStmtInner r parallel) :=
  reads_keyword rfl

instance (parallel : Bool) :
    (contract good).Reads (n + 1) (At TokenKind.isIdent) (parseSovForStmt r parallel) :=
  Contract.reads_thenPair

instance : (contract good).Reads (n + 1) (At (· == .task)) (parseTaskSpawnStmt r) :=
  reads_keyword rfl

omit [Returning good n r] in
instance : (contract good).Reads (n + 1) (At (· == .join)) parseTaskJoinStmt :=
  reads_keyword rfl

instance : (contract good).Reads (n + 1) (At (· == .lBrace)) (parseBareBlock r) :=
  Contract.reads_then

/-! ## Statements that begin with an expression -/

omit [Returning good n r] in
instance (head : String) : (contract good).Accepts n (parseFieldPlace head) := by
  unfold parseFieldPlace
  refine loop_accepts fun object => ?_
  exact (reads_keyword rfl).turns

omit [Returning good n r] in
instance : (contract good).Accepts n parseFieldSegment := by
  unfold parseFieldSegment
  infer_instance

instance : (contract good).Reads (n + 1) (At TokenKind.isIdent) (parseAssignStmt r) :=
  Contract.reads_thenPair

instance : (contract good).Reads (n + 1) (At TokenKind.isIdent) (parseIndexAssignStmt r) :=
  Contract.reads_thenPair

omit [Returning good n r] in
instance : (contract good).Accepts n (itemsAfter (· == .dot) fun _ => parseFieldSegment) :=
  itemsAfter_accepts rfl

instance : (contract good).Reads (n + 1) (At TokenKind.isIdent) (parseIndexThenFieldAssignStmt r) :=
  Contract.reads_thenPair

instance : (contract good).Reads (n + 1) (At TokenKind.isIdent) (parseFieldAssignStmt r) :=
  Contract.reads_thenPair

instance : (contract good).Reads (n + 1) Inside (printItem (parseExprOnly r)) :=
  ⟨fun s hs hlt => (printItem_runs hs (Q := fun s' => s'.left < s.left) (fun _ h => h)
    ((Contract.Reads.runs s hs hlt).mono (fun _ _ _ h => h.1) fun _ _ h => h)).mono
      (fun _ _ _ h => ⟨h, inferInstance⟩) fun _ _ h => h⟩

instance : (contract good).Reads (n + 1) Inside (sovPrintItems r) := by
  unfold sovPrintItems
  refine Contract.Reads.bind inferInstance fun first => loop_accepts fun items => ?_
  refine Contract.Accepts.bind_turns inferInstance fun _ => ?_
  refine Contract.turns_ite Contract.turns_leave ?_
  exact matchToken_turns rfl Contract.turns_leave fun _ => inferInstance

instance (verb : SovVerb) : (contract good).Reads (n + 1) Inside (parseSovObject r verb) := by
  cases verb with
  | return_ => exact Contract.reads_then
  | prove => exact Contract.reads_then
  | assert => exact Contract.reads_then
  | print => exact Contract.reads_then

instance (verb : SovVerb) : (contract good).Reads (n + 1) Inside (parseSovVerbStmt r verb) :=
  Contract.reads_then

end Statements

end Vani.Analysis
