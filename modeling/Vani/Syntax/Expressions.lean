import Vani.Syntax.Parser

/-!
# Parsing expressions and statements

An expression is a chain of operands with operators between them, an operand a primary expression
with prefixes and suffixes. A statement is told by its first token, by a look ahead for the shape
of an assignment or, where the verb comes last, for the verb before the next `;`.
-/

set_option autoImplicit false

namespace Vani.Syntax

open Vani.Library Vani.Program

/-! ## Operators -/

/-- The operators between operands and how tightly they bind. Source: parser.rs:3789-3817 -/
def currentBinaryOp : TokenKind → Option (BinaryOp × Nat)
  | .orOr => some (.or, 1)
  | .andAnd => some (.and, 2)
  | .eqEq => some (.eq, 3)
  | .bangEq => some (.ne, 3)
  | .less => some (.lt, 4)
  | .lessEq => some (.le, 4)
  | .greater => some (.gt, 4)
  | .greaterEq => some (.ge, 4)
  | .pipe => some (.bitOr, 5)
  | .caret => some (.bitXor, 6)
  | .amp => some (.bitAnd, 7)
  | .lessLess => some (.shl, 8)
  | .greaterGreater => some (.shr, 8)
  | .plus => some (.add, 9)
  | .minus => some (.sub, 9)
  | .star => some (.mul, 10)
  | .slash => some (.div, 10)
  | .percent => some (.rem, 10)
  | _ => none

/-- `-value` of an `f64`. -/
def negateF64 (bits : Nat) : Nat := if bits < 2 ^ 63 then bits + 2 ^ 63 else bits - 2 ^ 63

/-- `text.parse::<u32>()` -/
def parseU32 (text : List Char) : Option Nat :=
  let digits := match text with
    | '+' :: rest => rest
    | _ => text
  if digits.isEmpty || !digits.all Char.isDigit then none
  else if digitsValue 10 digits < 2 ^ 32 then some (digitsValue 10 digits) else none

/-- `{:?}` of a float, read as one index, a `.` and another. Source: parser.rs:3049-3059 -/
def nestedIndices (bits : Nat) : Option (Nat × Nat) :=
  match (debugF64 bits).toList.splitOn '.' with
  | [n, m] =>
    match parseU32 n, parseU32 m with
    | some n, some m => some (n, m)
    | _, _ => none
  | _ => none

/-- The type of a closure from its body. Source: parser.rs:3362-3376 -/
def closureReturnType : Expr → Ty
  | .binary op _ _ =>
    match op with
    | .eq | .ne | .lt | .le | .gt | .ge | .and | .or => .bool
    | _ => .int .i64
  | .unary .not _ => .bool
  | .bool _ => .bool
  | _ => .int .i64

/-- The last statement is a `return`. -/
def endsWithReturn (body : List Stmt) : Bool :=
  match body.getLast? with
  | some (.return_ _) => true
  | _ => false

/-- `return 0;` is added where no return type was written. Source: parser.rs:1236-1247, 3443-3454 -/
def unitBody (unitReturn : Bool) (body : List Stmt) : List Stmt :=
  if unitReturn && !endsWithReturn body then body ++ [.return_ (.int 0)] else body

/-! ## Looking ahead for a statement -/

/-- The verbs that may come last. -/
inductive SovVerb
  | return_
  | print
  | assert
  | prove
  deriving DecidableEq

/-- Source: parser.rs:2062-2070 -/
def sovVerb : TokenKind → Option SovVerb
  | .return_ => some .return_
  | .print => some .print
  | .assert => some .assert
  | .prove => some .prove
  | _ => none

/-- The verb before the next `;` outside of brackets, the token before being given.
Source: parser.rs:2039-2082 -/
def sovVerbBefore : Nat → Option TokenKind → List TokenKind → Option SovVerb
  | _, _, [] => none
  | depth, prev, kind :: rest =>
    match kind with
    | .lParen | .lBrace | .lBracket => sovVerbBefore (depth + 1) (some kind) rest
    | .rParen | .rBrace | .rBracket =>
      if depth = 0 then none else sovVerbBefore (depth - 1) (some kind) rest
    | .semicolon => if depth = 0 then prev.bind sovVerb else sovVerbBefore depth (some kind) rest
    | .eof => none
    | _ => sovVerbBefore depth (some kind) rest

/-- The tokens behind the bracket that closes so many; `none` if the end comes first.
Source: parser.rs:1957-1973, 2193-2208 -/
def pastBrackets : Nat → List TokenKind → Option (List TokenKind)
  | _, [] => some []
  | depth, kind :: rest =>
    match kind with
    | .lBracket => pastBrackets (depth + 1) rest
    | .rBracket => if depth ≤ 1 then some rest else pastBrackets (depth - 1) rest
    | .eof => none
    | _ => pastBrackets depth rest

/-- `name[…]`, and what follows it. -/
def pastIndex : List TokenKind → Option (List TokenKind)
  | .ident _ :: .lBracket :: rest => pastBrackets 1 rest
  | _ => none

/-- `name.name… =` Source: parser.rs:1980-1996 -/
def fieldsToEqual : List TokenKind → Bool
  | .ident _ :: .equal :: _ => true
  | .ident _ :: .dot :: rest => fieldsToEqual rest
  | _ => false

/-- Source: parser.rs:1948-1997 -/
def looksLikeIndexThenFieldAssign (kinds : List TokenKind) : Bool :=
  match pastIndex kinds with
  | some (.dot :: rest) => fieldsToEqual rest
  | _ => false

/-- Source: parser.rs:2184-2211 -/
def looksLikeIndexAssign (kinds : List TokenKind) : Bool :=
  match pastIndex kinds with
  | some (.equal :: _) => true
  | _ => false

/-- Source: parser.rs:1998-2006 -/
def looksLikeAssignment : List TokenKind → Bool
  | .ident _ :: .equal :: _ => true
  | _ => false

/-- Source: parser.rs:2013-2021 -/
def looksLikeSovFor : List TokenKind → Bool
  | .ident _ :: .for_ :: _ => true
  | _ => false

/-- Source: parser.rs:2084-2095 -/
def looksLikeSovParallelFor : List TokenKind → Bool
  | .parallel :: .ident _ :: .for_ :: _ => true
  | _ => false

/-- `.name` at least once, not as a method, then `=`. Source: parser.rs:2107-2134 -/
def fieldChain : Bool → List TokenKind → Bool
  | _, .dot :: .ident _ :: .lParen :: _ => false
  | _, .dot :: .ident _ :: rest => fieldChain true rest
  | sawDot, .equal :: _ => sawDot
  | _, _ => false

/-- Source: parser.rs:2103-2135 -/
def looksLikeFieldAssign : List TokenKind → Bool
  | .ident _ :: rest => fieldChain false rest
  | _ => false

/-- The operators of reductions. Source: parser.rs:2508-2552 -/
def reductionOp : TokenKind → Option ReductionOp
  | .plus => some .add
  | .star => some .mul
  | .andAnd => some .and
  | .orOr => some .or
  | .amp => some .bitAnd
  | .pipe => some .bitOr
  | .caret => some .bitXor
  | .ident name => if name = "min" then some .min else if name = "max" then some .max else none
  | _ => none

section Parsers

variable (r : Entries)

/-! ## Statements without a block -/

/-- The names of a `let` with a tuple. Source: parser.rs:2615-2631 -/
def parseLetTuple (start : Span) : Parse Stmt := do
  let _ ← bump
  let names ← commaSeparated ident (· == .rParen)
  let _ ← expectKeyword "')'" (· == .rParen)
  let annotation ← parseTypeAscription r
  let _ ← expectKeyword "'='" (· == .equal)
  let expr ← r.expr
  let semi ← expectKeyword "';'" (· == .semicolon)
  if names.length < 2 then
    errorAt (start.merge semi.span)
      "destructure-let needs at least two names; use plain `let` for single bindings"
  else pure (.letTuple (names.map Prod.fst) annotation expr)

/-- Source: parser.rs:2609-2675 -/
def parseLetStmt : Parse Stmt := do
  let start ← expectKeyword "'let'" (· == .let_)
  if ← check (· == .lParen) then parseLetTuple r start.span
  else do
    let (name, _) ← ident
    let annotation ← parseTypeAscription r
    let _ ← expectKeyword "'='" (· == .equal)
    let expr ← r.expr
    let _ ← expectKeyword "';'" (· == .semicolon)
    pure (.let_ name annotation expr)

/-- An item of a `print`, the expression being parsed as given. Source: parser.rs:2831-2843 -/
def printItem (expr : Parse Expr) : Parse PrintItem := do
  if ← check TokenKind.isStr then do
    let token ← bump
    let text ← strText token
    pure (.str text)
  else do
    let e ← expr
    pure (.expr e)

/-- Source: parser.rs:2721-2747 -/
def parsePrintStmt : Parse Stmt := do
  let _ ← expectKeyword "'print'" (· == .print)
  let items ← commaSeparated (printItem r.expr) fun _ => false
  let _ ← expectKeyword "';'" (· == .semicolon)
  pure (.print items)

/-! ## Primary expressions -/

/-- `{ let …; print …; tail }` behind the brace. Source: parser.rs:3220-3252 -/
def parseBlockExpr (start : Span) : Parse (Expr × Span) := do
  let stmts ← loop (fun stmts => do
    if ← check (· == .let_) then do
      let s ← parseLetStmt r
      pure (.inl (stmts ++ [s]))
    else if ← check (· == .print) then do
      let s ← parsePrintStmt r
      pure (.inl (stmts ++ [s]))
    else pure (.inr stmts)) []
  let tail ← r.expr
  let close ← expectKeyword "'\x7d' (block-expression close)" (· == .rBrace)
  pure (.block stmts tail, start.merge close.span)

/-- What follows `else`, and where it ends. Source: parser.rs:3287-3308 -/
def parseElseValue : Parse (Expr × Span) := do
  if ← check (· == .if_) then r.parsePrimaryExpr
  else do
    let _ ← expectKeyword "'\x7b' (if-expression else-branch)" (· == .lBrace)
    let v ← r.expr
    let close ← expectKeyword "'\x7d' (if-expression else-branch)" (· == .rBrace)
    pure (v, close.span)

/-- `c { a } else { b }` behind `if`. Source: parser.rs:3270-3317 -/
def parseIfExpr (start : Span) : Parse (Expr × Span) := do
  let cond ← r.expr
  let _ ← expectKeyword "'\x7b' (if-expression then-branch)" (· == .lBrace)
  let thenValue ← r.expr
  let _ ← expectKeyword "'\x7d' (if-expression then-branch)" (· == .rBrace)
  let _ ← expectKeyword "'else' (if-expression)" (· == .else_)
  let (elseValue, close) ← parseElseValue r
  pure (.ifExpr cond thenValue elseValue, start.merge close)

/-- `x, y| body` behind `|`. Source: parser.rs:3318-3390 -/
def parseClosure (start : Span) : Parse (Expr × Span) := do
  let params ← commaSeparated ident fun _ => false
  let _ ← expectKeyword "'|'" (· == .pipe)
  let (body, span) ← r.parseExpr
  pure (.anonFn (params.map fun p => ⟨p.1, .int .i64⟩) (closureReturnType body) [.return_ body],
    start.merge span)

/-- A return type, or `i64` where none is written, and whether none is.
Source: parser.rs:1146-1152, 3424-3430 -/
def parseReturnType : Parse (Ty × Bool) := do
  if ← check (· == .arrow) then do
    let _ ← expectKeyword "'->'" (· == .arrow)
    let ty ← r.parseType
    pure (ty, false)
  else pure (.int .i64, true)

/-- `(p: T) -> R { … }` behind `fn`. Source: parser.rs:3391-3464 -/
def parseAnonFn (start : Span) : Parse (Expr × Span) := do
  let _ ← expectKeyword "'('" (· == .lParen)
  let params ← itemsBefore (parseParam r "':'") .rParen
  let _ ← expectKeyword "')'" (· == .rParen)
  let (returnType, unitReturn) ← parseReturnType r
  let _ ← expectKeyword "'\x7b'" (· == .lBrace)
  let body ← stmtsUntilBrace r.parseStmt
  let close ← expectKeyword "'\x7d'" (· == .rBrace)
  pure (.anonFn params returnType (unitBody unitReturn body), start.merge close.span)

/-- A number in a pattern, with its sign. Source: parser.rs:3497-3544 -/
def parseNumberPattern : Parse Pattern := do
  let start ← current
  let negative ← matchToken (· == .minus)
  let literal ← bump
  match literal.kind with
  | .int v =>
    match negative with
    | some _ =>
      if v = -2 ^ 127 then
        errorAt (start.span.merge literal.span) "integer pattern overflow when negating"
      else pure (.int (-v))
    | none => pure (.int v)
  | .float bits => pure (.float (if negative.isSome then negateF64 bits else bits))
  | _ => errorAt literal.span "expected integer or float literal in match pattern"

/-- `_`, `Enum.Variant` or `Enum.Variant(binding)`. Source: parser.rs:3550-3590 -/
def parseVariantPattern : Parse Pattern := do
  let (first, _) ← ident
  if first = "_" then pure .wildcard
  else do
    let _ ← expectKeyword "'.' (variant access in match pattern)" (· == .dot)
    let (variant, _) ← ident
    match ← matchToken (· == .lParen) with
    | none => pure (.variant first variant)
    | some _ => do
      let (binding, _) ← ident
      let _ ← expectKeyword "')' (variant payload binding close)" (· == .rParen)
      pure (.variantWithBinding first variant binding)

/-- Source: parser.rs:3481-3590 -/
def parsePattern : Parse Pattern := do
  let token ← current
  match token.kind with
  | .true_ => do
    let _ ← bump
    pure (.bool true)
  | .false_ => do
    let _ ← bump
    pure (.bool false)
  | .str text => do
    let _ ← bump
    pure (.str text)
  | .minus | .int _ | .float _ => parseNumberPattern
  | _ => parseVariantPattern

/-- Source: parser.rs:3469-3603 -/
def parseArm : Parse (Pattern × Expr) := do
  let pattern ← parsePattern
  let _ ← expectKeyword "'then'" (· == .then_)
  let body ← r.expr
  pure (pattern, body)

/-- `e { arms }` behind `match`. Source: parser.rs:3465-3615 -/
def parseMatchExpr (start : Span) : Parse (Expr × Span) := do
  let scrutinee ← r.expr
  let _ ← expectKeyword "'\x7b'" (· == .lBrace)
  let arms ← separatedUntil (parseArm r) TokenKind.endsBody
  let close ← expectKeyword "'\x7d' (match expression)" (· == .rBrace)
  pure (.match_ scrutinee arms, start.merge close.span)

/-- What follows a name: `::` and a further name, the names joined by `__`.
Source: parser.rs:3633-3640 -/
def exprPath (name : String) (span : Span) : Parse (String × Span) :=
  loop (fun path => do
    if ← check (· == .colonColon) then do
      let _ ← bump
      let (next, nextSpan) ← ident
      pure (.inl (path.1 ++ "__" ++ next, path.2.merge nextSpan))
    else pure (.inr path)) (name, span)

/-- What follows a name looks like the fields of a struct. Source: parser.rs:3652-3672 -/
def looksLikeStruct (name : String) : List TokenKind → Bool
  | .lBrace :: .ident _ :: .colon :: _ => startsUppercase (lastSegment name)
  | .lBrace :: .rBrace :: _ => startsUppercase (lastSegment name)
  | _ => false

/-- `name: value` in a struct literal. Source: parser.rs:3677-3681 -/
def parseFieldInit : Parse (String × Expr) := do
  let (name, _) ← ident
  let _ ← expectKeyword "':'" (· == .colon)
  let value ← r.expr
  pure (name, value)

/-- A name, or a struct literal. Source: parser.rs:3616-3703 -/
def parseNameExpr (first : String) (start : Span) : Parse (Expr × Span) := do
  let (name, span) ← exprPath first start
  let kinds ← kindsFrom 0
  if looksLikeStruct name kinds then do
    let _ ← bump
    let fields ← separatedUntil (parseFieldInit r) TokenKind.endsBody
    let close ← expectKeyword "'\x7d' (struct literal)" (· == .rBrace)
    pure (.structLit name fields, span.merge close.span)
  else pure (.var name, span)

/-- `e)` or `e1, e2, …)` behind `(`. Source: parser.rs:3704-3739 -/
def parseParenExpr (start : Span) : Parse (Expr × Span) := do
  let first ← r.parseExpr
  match ← matchToken (· == .comma) with
  | some _ => do
    let rest ← separatedUntil r.expr (· == .rParen)
    let close ← expectKeyword "')'" (· == .rParen)
    pure (.tuple (first.1 :: rest), start.merge close.span)
  | none => do
    let _ ← expectKeyword "')'" (· == .rParen)
    pure first

/-- `e1, …]` behind `[`. Source: parser.rs:3740-3766 -/
def parseArrayExpr (start : Span) : Parse (Expr × Span) := do
  let elements ← itemsBefore r.expr .rBracket
  let close ← expectKeyword "']'" (· == .rBracket)
  pure (.arrayLit elements, start.merge close.span)

/-- The primary expression that the token begins. Source: parser.rs:3199-3786 -/
def parsePrimaryFrom (token : Token) : Parse (Expr × Span) :=
  match token.kind with
  | .int value => pure (.int value, token.span)
  | .float bits => pure (.float bits, token.span)
  | .true_ => pure (.bool true, token.span)
  | .false_ => pure (.bool false, token.span)
  | .str text => pure (.str text, token.span)
  | .lBrace => parseBlockExpr r token.span
  | .try_ => do
    let (inner, span) ← r.parseCallExpr
    pure (.try_ inner, token.span.merge span)
  | .if_ => parseIfExpr r token.span
  | .pipe => parseClosure r token.span
  | .fn => parseAnonFn r token.span
  | .match_ => parseMatchExpr r token.span
  | .ident name => parseNameExpr r name token.span
  | .lParen => parseParenExpr r token.span
  | .lBracket => parseArrayExpr r token.span
  | .len => do
    let _ ← expectKeyword "'('" (· == .lParen)
    let array ← r.expr
    let close ← expectKeyword "')'" (· == .rParen)
    pure (.len array, token.span.merge close.span)
  | _ => errorAt token.span "expected expression"

/-- Source: parser.rs:3197-3787 -/
def parsePrimaryExpr : Parse (Expr × Span) := do
  let token ← bump
  parsePrimaryFrom r token

/-! ## Suffixes, prefixes and operators -/

/-- `.name` or `.name(args)`, the name being read. Source: parser.rs:3100-3182 -/
def parseMember (e : Expr × Span) (name : String) (span : Span) : Parse (Expr × Span) := do
  if ← check (· == .lParen) then do
    let _ ← expectKeyword "'('" (· == .lParen)
    let args ← itemsBefore r.expr .rParen
    let close ← expectKeyword "')'" (· == .rParen)
    pure (.methodCall e.1 name args, span.merge close.span)
  else pure (.fieldAccess e.1 name, span)

/-- What follows `.`. Source: parser.rs:3013-3190 -/
def parseDot (e : Expr × Span) : Parse (Expr × Span) := do
  let next ← bump
  let span := e.2.merge next.span
  match next.kind with
  | .int value =>
    if value < 0 || 2 ^ 32 ≤ value then errorAt next.span "tuple index must fit in u32"
    else pure (.tupleAccess e.1 value.toNat, span)
  | .float bits =>
    match nestedIndices bits with
    | some (n, m) => pure (.tupleAccess (.tupleAccess e.1 n) m, span.merge next.span)
    | none =>
      errorAt next.span "expected integer (tuple index) or identifier (field name) after '.'"
  | .len => parseMember r e "len" span
  | .ident name => parseMember r e name span
  | _ => errorAt next.span "expected integer (tuple index) or identifier (field name) after '.'"

/-- `(args)` behind the bracket, for a name. Source: parser.rs:2961-2979 -/
def parseCallArgs (e : Expr × Span) : Parse (Expr × Span) :=
  match e.1 with
  | .var name => do
    let args ← itemsBefore r.expr .rParen
    let close ← expectKeyword "')'" (· == .rParen)
    pure (.call name args, e.2.merge close.span)
  | _ => errorAt e.2 "only named functions can be called"

/-- A suffix, if one follows. Source: parser.rs:2942-3192 -/
def parseSuffix (e : Expr × Span) : Parse ((Expr × Span) ⊕ (Expr × Span)) := do
  let token ← current
  match token.kind with
  | .lParen => do
    let _ ← bump
    let e ← parseCallArgs r e
    pure (.inl e)
  | .as_ => do
    let _ ← bump
    let ty ← r.parseType
    pure (.inl (.cast e.1 ty, e.2))
  | .lBracket => do
    let _ ← bump
    let index ← r.expr
    let close ← expectKeyword "']'" (· == .rBracket)
    pure (.inl (.index e.1 index, e.2.merge close.span))
  | .dot => do
    let _ ← bump
    let e ← parseDot r e
    pure (.inl e)
  | _ => pure (.inr e)

/-- Source: parser.rs:2939-3195 -/
def parseCallExpr : Parse (Expr × Span) := do
  let e ← parsePrimaryExpr r
  loop (parseSuffix r) e

/-- A prefix and the operand behind it. -/
def parsePrefixed (former : Expr → Expr) : Parse (Expr × Span) := do
  let token ← bump
  let (inner, span) ← r.parseUnaryExpr
  pure (former inner, token.span.merge span)

/-- Source: parser.rs:2873-2937 -/
def parseUnaryExpr : Parse (Expr × Span) := do
  let token ← current
  match token.kind with
  | .ref => parsePrefixed r .ref
  | .amp => do
    let _ ← bump
    errorAt token.span "use `ref x` (or `mut ref x`) instead of `&x` for borrows (T0.0)"
  | .minus => parsePrefixed r (.unary .neg)
  | .bang => parsePrefixed r (.unary .not)
  | .mut_ => do
    if ← checkAhead 1 (· == .ref) then do
      let _ ← bump
      let (inner, span) ← parsePrefixed r .refMut
      pure (inner, token.span.merge span)
    else parseCallExpr r
  | _ => parseCallExpr r

/-- An operator with its right operand, if one follows. Source: parser.rs:2851-2868 -/
def parseOperator (minPrecedence : Nat) (left : Expr × Span) :
    Parse ((Expr × Span) ⊕ (Expr × Span)) := do
  let token ← current
  match currentBinaryOp token.kind with
  | none => pure (.inr left)
  | some (op, precedence) =>
    if precedence < minPrecedence then pure (.inr left)
    else do
      let _ ← bump
      let right ← r.parseBinaryExpr (precedence + 1)
      pure (.inl (.binary op left.1 right.1, left.2.merge right.2))

/-- Source: parser.rs:2849-2871 -/
def parseBinaryExpr (minPrecedence : Nat) : Parse (Expr × Span) := do
  let left ← parseUnaryExpr r
  loop (parseOperator r minPrecedence) left

/-- Source: parser.rs:2845-2847 -/
def parseExpr : Parse (Expr × Span) := parseBinaryExpr r 1

/-- An expression of which the span is not needed. -/
def parseExprOnly : Parse Expr := do
  let (e, _) ← parseExpr r
  pure e

/-! ## Statements -/

/-- Source: parser.rs:2593-2607 -/
def parseBlock : Parse (List Stmt) := do
  let _ ← expectKeyword "'\x7b'" (· == .lBrace)
  let body ← stmtsUntilBrace r.parseStmt
  let _ ← expectKeyword "'\x7d'" (· == .rBrace)
  pure body

/-- Source: parser.rs:2677-2685 -/
def parseReturnStmt : Parse Stmt := do
  let _ ← expectKeyword "'return'" (· == .return_)
  let expr ← r.expr
  let _ ← expectKeyword "';'" (· == .semicolon)
  pure (.return_ expr)

/-- `, "message"`, if there is one. Source: parser.rs:2690-2702, 2791-2802 -/
def parseMessage : Parse (Option String) := do
  match ← matchToken (· == .comma) with
  | none => pure none
  | some _ => do
    let token ← expectString
    let text ← strText token
    pure (some text)

/-- Source: parser.rs:2687-2709 -/
def parseAssertStmt : Parse Stmt := do
  let _ ← expectKeyword "'assert'" (· == .assert)
  let expr ← r.expr
  let message ← parseMessage
  let _ ← expectKeyword "';'" (· == .semicolon)
  pure (.assert expr message)

/-- Source: parser.rs:2711-2719 -/
def parseProveStmt : Parse Stmt := do
  let _ ← expectKeyword "'prove'" (· == .prove)
  let expr ← r.expr
  let _ ← expectKeyword "';'" (· == .semicolon)
  pure (.prove expr)

/-- Source: parser.rs:2287-2317 -/
def parseIfStmt : Parse Stmt := do
  let _ ← expectKeyword "'if'" (· == .if_)
  let cond ← r.expr
  let thenBody ← parseBlock r
  match ← matchToken (· == .else_) with
  | none => pure (.if_ cond thenBody [])
  | some _ =>
    if ← check (· == .if_) then do
      let inner ← r.parseIfStmt
      pure (.if_ cond thenBody [inner])
    else do
      let elseBody ← parseBlock r
      pure (.if_ cond thenBody elseBody)

/-- Source: parser.rs:2566-2577 -/
def parseInvariants : Parse (List Expr) :=
  itemsAfter (· == .invariant) fun _ => do
    let expr ← r.expr
    let _ ← expectKeyword "';'" (· == .semicolon)
    pure expr

/-- Source: parser.rs:2579-2591 -/
def parseWhileStmt : Parse Stmt := do
  let _ ← expectKeyword "'while'" (· == .while_)
  let cond ← r.expr
  let invariants ← parseInvariants r
  let body ← parseBlock r
  pure (.while_ cond invariants body)

/-- `var with op;` behind `reduce`. Source: parser.rs:2498-2561 -/
def parseReduction (start : Token) : Parse (Reduction × Span) := do
  let (var, _) ← ident
  let _ ← expectKeyword "'with'" (· == .with_)
  let token ← current
  match reductionOp token.kind with
  | none =>
    errorAt token.span
      "expected reduction operator (one of `+`, `*`, `&&`, `||`, `&`, `|`, `^`, `min`, `max`)"
  | some op => do
    let _ ← bump
    let semi ← expectKeyword "';'" (· == .semicolon)
    pure (⟨var, op⟩, start.span.merge semi.span)

/-- Source: parser.rs:2496-2564 -/
def parseReductions : Parse (List (Reduction × Span)) :=
  itemsAfter (· == .reduce) parseReduction

/-- The clauses and the body of a range loop. Source: parser.rs:2426-2450, 2469-2493 -/
def parseForRest (parallel : Bool) (var : String) (start stop : Expr) : Parse Stmt := do
  let invariants ← parseInvariants r
  let reductions ← parseReductions
  match reductions, parallel with
  | (_, span) :: _, false =>
    errorAt span "'reduce' clauses are only valid on a `parallel for` loop"
  | _, _ => do
    let body ← parseBlock r
    pure (.for_ var start stop invariants body parallel (reductions.map Prod.fst))

/-- `in xs { … }` behind `in`. Source: parser.rs:2374-2412 -/
def parseForIter (parallel : Bool) (start : Span) (var : String) : Parse Stmt := do
  let token ← current
  if token.kind = .amp then
    errorAt token.span "use `for VAR in ref XS \x7b … \x7d` to iterate by borrow (T0.0)"
  else do
    let borrows ← matchToken (· == .ref)
    if parallel then errorAt start "'parallel' is only valid on a range-form for loop"
    else do
      let (collection, _) ← ident
      let body ← parseBlock r
      pure (.forIter var collection borrows.isNone body)

/-- Source: parser.rs:2358-2451 -/
def parseForStmtInner (parallel : Bool) : Parse Stmt := do
  let start ← expectKeyword "'for'" (· == .for_)
  let (var, _) ← ident
  match ← matchToken (· == .in_) with
  | some _ => parseForIter r parallel start.span var
  | none => do
    let _ ← expectKeyword "'from' (range form) or 'in' (collection-iter)" (· == .from_)
    let first ← r.expr
    let _ ← expectKeyword "'to'" (· == .to)
    let last ← r.expr
    parseForRest r parallel var first last

/-- Source: parser.rs:2453-2494 -/
def parseSovForStmt (parallel : Bool) : Parse Stmt := do
  let (var, _) ← ident
  let _ ← expectKeyword "'for' / 'के लिए' postposition after the loop variable" (· == .for_)
  let first ← r.expr
  let _ ← expectKeyword "'from' / 'से' postposition after the start value" (· == .from_)
  let last ← r.expr
  let _ ← expectKeyword "'to' / 'तक' postposition after the end value" (· == .to)
  parseForRest r parallel var first last

/-- Source: parser.rs:2323-2338 -/
def parseTaskSpawnStmt : Parse Stmt := do
  let _ ← expectKeyword "'task'" (· == .task)
  let (name, _) ← ident
  let _ ← expectKeyword "'\x7b'" (· == .lBrace)
  let body ← itemsUntilBrace r.parseStmt
  let _ ← expectKeyword "'\x7d'" (· == .rBrace)
  pure (.taskSpawn name body)

/-- Source: parser.rs:2340-2349 -/
def parseTaskJoinStmt : Parse Stmt := do
  let _ ← expectKeyword "'join'" (· == .join)
  let (name, _) ← ident
  let _ ← expectKeyword "';'" (· == .semicolon)
  pure (.taskJoin name)

/-- Source: parser.rs:2273-2285 -/
def parseAssignStmt : Parse Stmt := do
  let (name, _) ← ident
  let _ ← expectKeyword "'='" (· == .equal)
  let expr ← r.expr
  let _ ← expectKeyword "';'" (· == .semicolon)
  pure (.assign name expr)

/-- Source: parser.rs:2213-2231 -/
def parseIndexAssignStmt : Parse Stmt := do
  let (name, _) ← ident
  let _ ← expectKeyword "'['" (· == .lBracket)
  let index ← r.expr
  let _ ← expectKeyword "']'" (· == .rBracket)
  let _ ← expectKeyword "'='" (· == .equal)
  let value ← r.expr
  let _ ← expectKeyword "';'" (· == .semicolon)
  pure (.indexAssign name index [] value)

/-- `.field` of a path that `=` or a further field must follow. Source: parser.rs:2247-2260 -/
def parseFieldSegment : Parse String := do
  let (field, _) ← ident
  if ← check fun kind => kind == .dot || kind == .equal then pure field
  else errorHere "expected '.<field>' or '=' after indexed field-access"

/-- Source: parser.rs:2237-2271 -/
def parseIndexThenFieldAssignStmt : Parse Stmt := do
  let (name, _) ← ident
  let _ ← expectKeyword "'['" (· == .lBracket)
  let index ← r.expr
  let _ ← expectKeyword "']'" (· == .rBracket)
  let fieldPath ← itemsAfter (· == .dot) fun _ => parseFieldSegment
  let _ ← expectKeyword "'='" (· == .equal)
  let value ← r.expr
  let _ ← expectKeyword "';'" (· == .semicolon)
  pure (.indexAssign name index fieldPath value)

/-- The object before the last field, and that field. Source: parser.rs:2149-2181 -/
def parseFieldPlace (head : String) : Parse (Expr × String) :=
  loop (fun object => do
    let _ ← expectKeyword "'.'" (· == .dot)
    let (field, _) ← ident
    if ← check (· == .equal) then pure (.inr (object, field))
    else pure (.inl (.fieldAccess object field))) (.var head)

/-- Source: parser.rs:2137-2182 -/
def parseFieldAssignStmt : Parse Stmt := do
  let (head, _) ← ident
  let (object, field) ← parseFieldPlace head
  let _ ← expectKeyword "'='" (· == .equal)
  let value ← r.expr
  let _ ← expectKeyword "';'" (· == .semicolon)
  pure (.fieldAssign object field value)

/-- The items of a `print` that comes last. Source: parser.rs:2808-2824 -/
def sovPrintItems : Parse (List PrintItem) := do
  let first ← printItem (parseExprOnly r)
  loop (fun items => do
    if ← check (· == .print) then pure (.inr items)
    else
      match ← matchToken (· == .comma) with
      | none => pure (.inr items)
      | some _ => do
        let item ← printItem r.expr
        pure (.inl (items ++ [item]))) [first]

/-- What stands before the verb. Source: parser.rs:2755-2824 -/
def parseSovObject : SovVerb → Parse Stmt
  | .return_ => do
    let expr ← parseExprOnly r
    pure (.return_ expr)
  | .prove => do
    let expr ← parseExprOnly r
    pure (.prove expr)
  | .assert => do
    let expr ← parseExprOnly r
    let message ← parseMessage
    pure (.assert expr message)
  | .print => do
    let items ← sovPrintItems r
    pure (.print items)

/-- Source: parser.rs:2749-2829 -/
def parseSovVerbStmt (verb : SovVerb) : Parse Stmt := do
  let stmt ← parseSovObject r verb
  let _ ← bump
  let _ ← expectKeyword "';'" (· == .semicolon)
  pure stmt

/-- `break;` or `continue;` Source: parser.rs:1850-1861 -/
def parseJump (stmt : Stmt) : Parse Stmt := do
  let _ ← bump
  let _ ← expectKeyword "';'" (· == .semicolon)
  pure stmt

/-- A block is an `if true`. Source: parser.rs:1884-1906 -/
def parseBareBlock : Parse Stmt := do
  let body ← parseBlock r
  pure (.if_ (.bool true) body [])

def isCall : Expr → Bool
  | .call _ _ | .methodCall _ _ _ => true
  | _ => false

/-- A call and a `;`, or none. -/
def callAndSemicolon : Parse (Option Expr) := do
  match ← (parseExpr r).attempt with
  | .error _ => pure none
  | .ok (expr, _) =>
    match ← matchToken (· == .semicolon) with
    | none => pure none
    | some _ => pure (if isCall expr then some expr else none)

/-- A call as a statement. What the attempt has read is given back where it is none; the errors
recorded on the way and a `>>` that was split stay. Source: parser.rs:1907-1939 -/
def parseCallStmt : Parse Stmt := do
  let saved ← (Parser.get : Parse ParserState)
  match ← callAndSemicolon r with
  | some expr => pure (.let_ "_" none expr)
  | none => do
    Parser.modify fun s => { s with pos := saved.pos }
    errorHere "expected statement"

/-- A statement that no keyword begins. Source: parser.rs:1862-1940 -/
def parsePlainStmt (kinds : List TokenKind) : Parse Stmt :=
  match sovVerbBefore 0 none kinds with
  | some verb => parseSovVerbStmt r verb
  | none =>
    if looksLikeAssignment kinds then parseAssignStmt r
    else if looksLikeIndexAssign kinds then parseIndexAssignStmt r
    else if looksLikeFieldAssign kinds then parseFieldAssignStmt r
    else if looksLikeIndexThenFieldAssign kinds then parseIndexThenFieldAssignStmt r
    else if kinds.head? = some .lBrace then parseBareBlock r
    else parseCallStmt r

/-- Source: parser.rs:1807-1940 -/
def parseStmt : Parse Stmt := do
  let token ← current
  let kinds ← kindsFrom 0
  match token.kind with
  | .let_ => parseLetStmt r
  | .return_ => parseReturnStmt r
  | .assert => parseAssertStmt r
  | .prove => parseProveStmt r
  | .print => parsePrintStmt r
  | .if_ => parseIfStmt r
  | .while_ => parseWhileStmt r
  | .for_ => parseForStmtInner r false
  | .parallel => do
    let _ ← bump
    if looksLikeSovParallelFor kinds then parseSovForStmt r true else parseForStmtInner r true
  | .task => parseTaskSpawnStmt r
  | .join => parseTaskJoinStmt
  | .break_ => parseJump .break_
  | .continue_ => parseJump .continue_
  | _ =>
    if looksLikeSovFor kinds then parseSovForStmt r false else parsePlainStmt r kinds

end Parsers

/-- The functions, up to a depth of the calls. -/
def entries : Nat → Entries
  | 0 => ⟨Parser.stuck, fun _ => Parser.stuck, Parser.stuck, Parser.stuck, Parser.stuck,
      Parser.stuck, Parser.stuck⟩
  | depth + 1 =>
    let r := entries depth
    ⟨parseType r, parseBinaryExpr r, parseUnaryExpr r, parseCallExpr r, parsePrimaryExpr r,
      parseStmt r, parseIfStmt r⟩

end Vani.Syntax
