import Mathlib.Algebra.Group.Int.Defs
import Mathlib.Algebra.GroupWithZero.Nat
import Vani.Library.RecursiveDescent
import Vani.Program.Ast
import Vani.Syntax.Literals
import Vani.Syntax.Token

/-!
# The state of the parser, and types

The parser stands at a token and looks any distance ahead. It reports an error as the result of
the function that met it, or records it and goes on behind the next place where a statement may
begin. `>>` closes two lists of type arguments: the token is replaced where the first one ends.

The functions of the source call one another without end; here they take the functions that are
called again behind a token as `Entries`, and `entries` gives them to themselves up to a depth.
Of the spans in the tree only those that end up in an error are kept.
-/

set_option autoImplicit false

namespace Vani.Syntax

open Vani.Library Vani.Program

/-- Source: parser.rs:24-43 -/
structure ParserState where
  tokens : List Token
  pos : Nat
  errors : List Diagnostic
  currentTypeParams : List String
  constIntValues : List (String × Int)
  deriving DecidableEq

/-- How much a token counts for the bounds on loops: one `>>` is read as two tokens, the end is
never passed. -/
def TokenKind.weight : TokenKind → Nat
  | .eof => 0
  | .greaterGreater => 2
  | _ => 1

/-- What the parser has left to read. -/
def ParserState.left (s : ParserState) : Nat :=
  ((s.tokens.drop s.pos).map fun t => t.kind.weight).sum

abbrev Parse (α : Type) : Type := Parser ParserState Diagnostic α

/-- Source: parser.rs:45-54 -/
def ParserState.new (tokens : List Token) : ParserState := ⟨tokens, 0, [], [], []⟩

/-! ## Tokens -/

/-- Source: parser.rs:3880-3882 -/
def current : Parse Token := fun s =>
  match s.tokens[s.pos]? with
  | some token => .done (.ok token, s)
  | none => .aborted

/-- The kinds of the tokens from some token ahead on. -/
def kindsFrom (ahead : Nat) : Parse (List TokenKind) := fun s =>
  .done (.ok ((s.tokens.drop (s.pos + ahead)).map Token.kind), s)

/-- Source: parser.rs:3876-3878 -/
def check (predicate : TokenKind → Bool) : Parse Bool := do
  let token ← current
  pure (predicate token.kind)

/-- The token so far ahead exists and passes a test. -/
def checkAhead (ahead : Nat) (predicate : TokenKind → Bool) : Parse Bool := do
  let kinds ← kindsFrom ahead
  pure (kinds.head?.any predicate)

/-- Source: parser.rs:3884-3890 -/
def bump : Parse Token := do
  let token ← current
  if token.kind = .eof then pure token
  else do
    Parser.modify fun s => { s with pos := s.pos + 1 }
    pure token

/-- `return Err(Diagnostic::new(span, message))` -/
def errorAt {α : Type} (span : Span) (message : String) : Parse α := Parser.fail ⟨span, message⟩

/-- `return Err(self.error_here(message))` Source: parser.rs:3892-3894 -/
def errorHere {α : Type} (message : String) : Parse α := do
  let token ← current
  errorAt token.span message

/-- `self.errors.push(error)` -/
def pushError (error : Diagnostic) : Parse Unit :=
  Parser.modify fun s => { s with errors := s.errors ++ [error] }

/-- Source: parser.rs:3868-3874 -/
def matchToken (predicate : TokenKind → Bool) : Parse (Option Token) := do
  if ← check predicate then do
    let token ← bump
    pure (some token)
  else pure none

/-- Source: parser.rs:3856-3866 -/
def expectKeyword (expected : String) (predicate : TokenKind → Bool) : Parse Token := do
  if ← check predicate then bump else errorHere ("expected " ++ expected)

def TokenKind.isIdent : TokenKind → Bool
  | .ident _ => true
  | _ => false

def TokenKind.isStr : TokenKind → Bool
  | .str _ => true
  | _ => false

/-- Source: parser.rs:3819-3825 -/
def expectIdent : Parse Token := do
  if ← check TokenKind.isIdent then bump else errorHere "expected identifier"

/-- Source: parser.rs:3827-3833 -/
def expectString : Parse Token := do
  if ← check TokenKind.isStr then bump else errorHere "expected string literal"

/-- Source: parser.rs:3897-3902 -/
def identText (token : Token) : Parse String :=
  match token.kind with
  | .ident name => pure name
  | _ => .abort

/-- `let TokenKind::Str(text) = token.kind else { unreachable!(..) }` -/
def strText (token : Token) : Parse String :=
  match token.kind with
  | .str text => pure text
  | _ => .abort

/-- An identifier and where it stands. -/
def ident : Parse (String × Span) := do
  let token ← expectIdent
  let name ← identText token
  pure (name, token.span)

/-- Source: parser.rs:3835-3854 -/
def expectCloseAngle : Parse Unit := do
  let token ← current
  match token.kind with
  | .greater => do
    let _ ← bump
    pure ()
  | .greaterGreater =>
    Parser.modify fun s =>
      { s with tokens := s.tokens.set s.pos ⟨.greater, ⟨token.span.start + 1, token.span.stop⟩⟩ }
  | _ => errorHere "expected '>'"

/-! ## Loops -/

/-- A loop that reads at least one token in each turn but the last. -/
def loop {β γ : Type} (body : β → Parse (β ⊕ γ)) (b : β) : Parse γ := fun s =>
  Parser.iterate body (s.left + 1) b s

/-- `while self.check(p) { self.bump(); }`, the end of the tokens not passing the test. -/
def skipWhile (p : TokenKind → Bool) : Parse Unit :=
  loop (fun _ => do
    if ← check p then do
      let _ ← bump
      pure (.inl ())
    else pure (.inr ())) ()

section Lists

variable {α : Type}

/-- `if check(close) { vec![] } else { .. }` -/
def unlessClosed (close : TokenKind → Bool) (p : Parse (List α)) : Parse (List α) := do
  if ← check close then pure [] else p

variable (item : Parse α)

/-- `items.push(item()?); if no comma { break } if check(stop) { break }` -/
def commaTurn (stop : TokenKind → Bool) (items : List α) : Parse (List α ⊕ List α) := do
  let x ← item
  match ← matchToken (· == .comma) with
  | none => pure (.inr (items ++ [x]))
  | some _ => if ← check stop then pure (.inr (items ++ [x])) else pure (.inl (items ++ [x]))

/-- `loop { .. }` over the items, with commas between them. -/
def commaSeparated (stop : TokenKind → Bool) : Parse (List α) := loop (commaTurn item stop) []

/-- Items up to a closing token, which is not passed; a comma may stand before it. -/
def itemsBefore (close : TokenKind) : Parse (List α) :=
  unlessClosed (· == close) (commaSeparated item (· == close))

/-- `while !check(stop) { items.push(item()?); if no comma { break } }` -/
def separatedUntil (stop : TokenKind → Bool) : Parse (List α) :=
  loop (fun items => do
    if ← check stop then pure (.inr items)
    else do
      let x ← item
      match ← matchToken (· == .comma) with
      | none => pure (.inr (items ++ [x]))
      | some _ => pure (.inl (items ++ [x]))) []

/-- `}` or the end of the tokens. -/
def TokenKind.endsBody (kind : TokenKind) : Bool := kind == .rBrace || kind == .eof

/-- `while !check(RBrace | Eof) { items.push(item()?); }` -/
def itemsUntilBrace : Parse (List α) :=
  loop (fun items => do
    if ← check TokenKind.endsBody then pure (.inr items)
    else do
      let x ← item
      pure (.inl (items ++ [x]))) []

/-- `while self.match_token(p) { items.push(item()?); }` -/
def itemsAfter (p : TokenKind → Bool) (item : Token → Parse α) : Parse (List α) :=
  loop (fun items => do
    match ← matchToken p with
    | none => pure (.inr items)
    | some token => do
      let x ← item token
      pure (.inl (items ++ [x]))) []

end Lists

/-! ## Recovery -/

/-- Source: parser.rs:1019-1043 -/
def TokenKind.startsStmt : TokenKind → Bool
  | .semicolon | .rBrace | .eof | .let_ | .return_ | .assert | .prove | .print | .if_ | .while_
  | .for_ | .break_ | .continue_ => true
  | _ => false

/-- Source: parser.rs:1019-1043 -/
def syncToStmt : Parse Unit := do
  skipWhile fun kind => !kind.startsStmt
  let _ ← matchToken (· == .semicolon)
  pure ()

/-- Statements up to the end of a body; behind an error the next statement is looked for.
Source: parser.rs:2596-2604, 1221-1229, 3433-3441 -/
def stmtsUntilBrace (stmt : Parse Stmt) : Parse (List Stmt) :=
  loop (fun body => do
    if ← check TokenKind.endsBody then pure (.inr body)
    else
      match ← stmt.attempt with
      | .ok s => pure (.inl (body ++ [s]))
      | .error e => do
        pushError e
        syncToStmt
        pure (.inl body)) []

/-! ## What is called again behind a token -/

/-- The functions that call one another, as they are called behind at least one token. -/
structure Entries where
  parseType : Parse Ty
  parseBinaryExpr : Nat → Parse (Expr × Span)
  parseUnaryExpr : Parse (Expr × Span)
  parseCallExpr : Parse (Expr × Span)
  parsePrimaryExpr : Parse (Expr × Span)
  parseStmt : Parse Stmt
  parseIfStmt : Parse Stmt

/-- `self.parse_expr()` behind a token. Source: parser.rs:2845-2847 -/
def Entries.parseExpr (r : Entries) : Parse (Expr × Span) := r.parseBinaryExpr 1

/-- An expression of which the span is not needed. -/
def Entries.expr (r : Entries) : Parse Expr := do
  let (e, _) ← r.parseExpr
  pure e

/-! ## Types -/

/-- What stands before the first `__`. -/
def beforeSeparator : List Char → List Char
  | '_' :: '_' :: _ => []
  | c :: rest => c :: beforeSeparator rest
  | [] => []

/-- `name.rsplit("__").next()` -/
def lastSegment (name : String) : List Char :=
  (beforeSeparator name.toList.reverse).reverse

/-- The first character is one of `A` to `Z`. -/
def startsUppercase (text : List Char) : Bool := text.head?.any Char.isUpper

/-- The types that are a name alone. Source: parser.rs:1557-1572, 1612-1616, 1624-1646 -/
def bareTypes : List (String × Ty) := [
  ("Str", .str), ("OwnedStr", .ownedStr), ("Task", .task), ("Condvar", .condvar),
  ("UnionFind", .unionFind), ("BloomFilter", .bloomFilter), ("Graph", .graph), ("Trie", .trie),
  ("SkipList", .skipList)]

/-- The types with one argument. Source: parser.rs:1573-1586, 1596-1602, 1617-1623, 1628-1634,
1647-1653, 1684-1697 -/
def angledTypes : List (String × (Ty → Ty)) := [
  ("Deque", .deque), ("HashSet", .hashSet), ("BTreeSet", .bTreeSet), ("BinaryHeap", .binaryHeap),
  ("Bst", .bst), ("Atomic", .atomic), ("Mutex", .mutex), ("Guard", .guard)]

/-- The types with two arguments. Source: parser.rs:1587-1595, 1603-1611 -/
def angledPairTypes : List (String × (Ty → Ty → Ty)) := [
  ("HashMap", .hashMap), ("BTreeMap", .bTreeMap)]

/-- The types that are a keyword. Source: parser.rs:1785-1796 -/
def keywordTypes : List (TokenKind × Ty) := [
  (.i8, .int .i8), (.i16, .int .i16), (.i32, .int .i32), (.i64, .int .i64), (.u8, .int .u8),
  (.u16, .int .u16), (.u32, .int .u32), (.u64, .int .u64), (.f32, .float .f32),
  (.f64, .float .f64), (.bool, .bool)]

/-- What follows the path of a name: `::` and a further name, the names joined by `__`.
Source: parser.rs:1723-1733 -/
def typePath (name : String) : Parse String :=
  loop (fun path => do
    let _ ← bump
    let (next, _) ← ident
    if ← check (· == .colonColon) then pure (.inl (path ++ "__" ++ next))
    else pure (.inr (path ++ "__" ++ next))) name

section Types

variable (r : Entries)

/-- `<T>` -/
def parseAngled : Parse Ty := do
  let _ ← expectKeyword "'<'" (· == .less)
  let element ← r.parseType
  expectCloseAngle
  pure element

/-- `<K, V>` -/
def parseAngledPair : Parse (Ty × Ty) := do
  let _ ← expectKeyword "'<'" (· == .less)
  let k ← r.parseType
  let _ ← expectKeyword "','" (· == .comma)
  let v ← r.parseType
  expectCloseAngle
  pure (k, v)

/-- `T1, T2, …)` behind `(`. Source: parser.rs:1384-1412 -/
def parseTupleType : Parse Ty := do
  let _ ← bump
  let first ← r.parseType
  let _ ← expectKeyword "',' (tuple type needs at least two elements)" (· == .comma)
  let rest ← commaSeparated r.parseType (· == .rParen)
  let _ ← expectKeyword "')'" (· == .rParen)
  pure (.tuple (first :: rest))

/-- `fn(T1, T2, …) -> R`. Source: parser.rs:1419-1438 -/
def parseFnPtrType : Parse Ty := do
  let _ ← bump
  let _ ← expectKeyword "'('" (· == .lParen)
  let params ← unlessClosed (· == .rParen) (commaSeparated r.parseType fun _ => false)
  let _ ← expectKeyword "')'" (· == .rParen)
  let _ ← expectKeyword "'->'" (· == .arrow)
  let ret ← r.parseType
  pure (.fnPtr params ret)

/-- A number, or the value of the constant of a name. Source: parser.rs:1493-1514 -/
def arrayLengthValue (token : Token) (constIntValues : List (String × Int)) : Parse Int :=
  match token.kind with
  | .int v => pure v
  | .ident name =>
    match constIntValues.lookup name with
    | some v => pure v
    | none => errorAt token.span ("array length '" ++ name ++
        "' must be a literal integer or a previously-declared `const NAME: i64 = <int>;`")
  | _ => errorAt token.span "expected integer literal or const identifier for array length"

/-- The length of an array. Source: parser.rs:1488-1526 -/
def parseArrayLength : Parse Nat := do
  let token ← bump
  let s ← (Parser.get : Parse ParserState)
  let rawLength ← arrayLengthValue token s.constIntValues
  if rawLength < 0 then errorAt token.span "array length must be non-negative"
  else if 2 ^ 64 ≤ rawLength then errorAt token.span "array length does not fit in u64"
  else pure rawLength.toNat

/-- `[T; N]`. Source: parser.rs:1482-1532 -/
def parseArrayType : Parse Ty := do
  let _ ← bump
  let element ← r.parseType
  let _ ← expectKeyword "';'" (· == .semicolon)
  let length ← parseArrayLength
  let _ ← expectKeyword "']'" (· == .rBracket)
  pure (.array element length)

/-- Source: parser.rs:1543-1556 -/
def parseDynType : Parse Ty := do
  let _ ← bump
  let token ← bump
  match token.kind with
  | .ident name => pure (.object name)
  | _ => errorAt token.span "expected an interface name after `dyn`"

/-- `, N`, if it is there. Source: parser.rs:1661-1680 -/
def parseCapacity : Parse Nat := do
  match ← matchToken (· == .comma) with
  | none => pure 16
  | some _ => do
    let token ← current
    match token.kind with
    | .int n =>
      if 0 < n then do
        let _ ← bump
        pure (n % 2 ^ 64).toNat
      else errorAt token.span "expected positive integer capacity after ',' in Channel<T, N>"
    | _ => errorAt token.span "expected positive integer capacity after ',' in Channel<T, N>"

/-- `Channel<T>` or `Channel<T, N>`. Source: parser.rs:1654-1683 -/
def parseChannelType : Parse Ty := do
  let _ ← bump
  let _ ← expectKeyword "'<'" (· == .less)
  let element ← r.parseType
  let capacity ← parseCapacity
  expectCloseAngle
  pure (.channel element capacity)

/-- A name, its path or its type arguments. Source: parser.rs:1698-1782 -/
def parseNominalType (name : String) : Parse Ty := do
  let s ← (Parser.get : Parse ParserState)
  if s.currentTypeParams.contains name then do
    let _ ← bump
    pure (.param name)
  else if ← checkAhead 1 (· == .colonColon) then do
    let _ ← bump
    let path ← typePath name
    if startsUppercase (lastSegment path) then pure (.struct path)
    else errorHere ("expected an uppercase type name as the last segment " ++
      "of the path (only types can appear in type position)")
  else if startsUppercase name.toList then do
    let _ ← bump
    match ← matchToken (· == .less) with
    | none => pure (.struct name)
    | some _ => do
      let args ← commaSeparated r.parseType fun kind => kind == .greater || kind == .greaterGreater
      expectCloseAngle
      pure (.apply name args)
  else errorHere "expected type like 'i32', 'u64', 'f64', 'bool', 'Str', or '[T; N]'"

/-- A type that begins with an identifier. Source: parser.rs:1538-1783 -/
def parseNamedType (name : String) : Parse Ty := do
  if name = "dyn" then parseDynType
  else if name = "Channel" then parseChannelType r
  else
    match bareTypes.lookup name, angledTypes.lookup name, angledPairTypes.lookup name with
    | some ty, _, _ => do
      let _ ← bump
      pure ty
    | none, some former, _ => do
      let _ ← bump
      let element ← parseAngled r
      pure (former element)
    | none, none, some former => do
      let _ ← bump
      let (k, v) ← parseAngledPair r
      pure (former k v)
    | none, none, none => parseNominalType r name

/-- `mut ref T` -/
def parseMutRefType : Parse Ty := do
  if ← checkAhead 1 (· == .ref) then do
    let _ ← bump
    let _ ← bump
    let inner ← r.parseType
    pure (.refMut inner)
  else errorHere "expected type like 'i32', 'u64', 'f64', 'bool', 'Str', or '[T; N]'"

/-- Source: parser.rs:1378-1805 -/
def parseType : Parse Ty := do
  let token ← current
  match token.kind with
  | .lParen => parseTupleType r
  | .fn => parseFnPtrType r
  | .ref => do
    let _ ← bump
    let inner ← r.parseType
    pure (.ref inner)
  | .amp | .andAnd =>
    errorAt token.span "use `ref T` / `mut ref T` for reference types (T0.0 syntax sweep)"
  | .vec => do
    let _ ← bump
    let element ← parseAngled r
    pure (.vec element)
  | .lBracket => parseArrayType r
  | .ident name => parseNamedType r name
  | .mut_ => parseMutRefType r
  | kind =>
    match keywordTypes.lookup kind with
    | some ty => do
      let _ ← bump
      pure ty
    | none => errorHere "expected type like 'i32', 'u64', 'f64', 'bool', 'Str', or '[T; N]'"

/-- `: T`, if there is one. -/
def parseTypeAscription : Parse (Option Ty) := do
  match ← matchToken (· == .colon) with
  | none => pure none
  | some _ => do
    let ty ← r.parseType
    pure (some ty)

/-- `name: T`. Source: parser.rs:1105-1121, 3404-3414, 612-622 -/
def parseParam (colon : String) : Parse Param := do
  let (name, _) ← ident
  let _ ← expectKeyword colon (· == .colon)
  let ty ← r.parseType
  pure ⟨name, ty⟩

end Types

end Vani.Syntax
