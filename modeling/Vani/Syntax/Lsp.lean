import Vani.Syntax.Lexer

/-!
# Positions for editors

The language server converts byte offsets to positions and back, and reports the tokens of a
document one relative to the other. Its numbers are `u32` and wrap. What the compiler knows of
the names in a document changes their token types; it is a parameter here.
-/

set_option autoImplicit false

namespace Vani.Syntax

open Vani.Library

/-- A line and a column, both from zero. -/
structure Position where
  line : Nat
  character : Nat
  deriving DecidableEq

/-- A number as a `u32`. -/
def asU32 (n : Nat) : Nat := n % 2 ^ 32

/-- `a - b` of two `u32`. -/
def subU32 (a b : Nat) : Nat := (a + 2 ^ 32 - b) % 2 ^ 32

/-- The loop over the bytes before an offset: the line, and where it begins.
Source: lsp.rs:1757-1767 -/
def lineFrom (clamped : Nat) : Nat → Nat → Nat → List UInt8 → Nat × Nat
  | _, line, lastNewlineByte, [] => (line, lastNewlineByte)
  | i, line, lastNewlineByte, b :: rest =>
    if clamped ≤ i then (line, lastNewlineByte)
    else if b == 0x0A then lineFrom clamped (i + 1) (asU32 (line + 1)) (i + 1) rest
    else lineFrom clamped (i + 1) line lastNewlineByte rest

/-- Source: lsp.rs:1755-1770 -/
def byteOffsetToPosition (source : List Char) (offset : Nat) : Position :=
  let clamped := min offset (byteSize source)
  let (line, lastNewlineByte) := lineFrom clamped 0 0 0 (utf8 source)
  ⟨line, asU32 (clamped - lastNewlineByte)⟩

/-- The loop over the bytes up to a position. Source: lsp.rs:1780-1800 -/
def offsetFrom (position : Position) : Nat → Nat → Nat → List UInt8 → Option Nat
  | i, line, col, [] => if line = position.line ∧ col = position.character then some i else none
  | i, line, col, b :: rest =>
    if line = position.line ∧ col = position.character then some i
    else if b == 0x0A then
      if line = position.line then some i else offsetFrom position (i + 1) (asU32 (line + 1)) 0 rest
    else offsetFrom position (i + 1) line (asU32 (col + 1)) rest

/-- Source: lsp.rs:1776-1801 -/
def positionToByteOffset (source : List Char) (position : Position) : Option Nat :=
  offsetFrom position 0 0 0 (utf8 source)

/-! ## Semantic tokens -/

/-- Source: lsp.rs:598-608 -/
inductive TokenType
  | variable
  | function
  | parameter
  | type
  | keyword
  | number
  | string
  deriving DecidableEq

/-- A token as the protocol sends it. -/
structure SemanticToken where
  deltaLine : Nat
  deltaStart : Nat
  length : Nat
  tokenType : TokenType
  tokenModifiersBitset : Nat
  deriving DecidableEq

/-- Names that stand for types. Source: lsp.rs:460-465 -/
def typeNameIdents : List String :=
  ["Str", "OwnedStr", "Vec", "Atomic", "Channel", "Mutex", "Guard", "Task"]

/-- Operators that get no token. Source: lsp.rs:521-551 -/
def skippedOperators : List TokenKind := [
  .lParen, .rParen, .lBrace, .rBrace, .lBracket, .rBracket, .colon, .semicolon, .comma, .plus,
  .minus, .star, .slash, .percent, .bang, .equal, .eqEq, .bangEq, .less, .lessEq, .lessLess,
  .greater, .greaterEq, .greaterGreater, .amp, .andAnd, .pipe, .orOr, .caret, .arrow, .dotDot]

/-- Source: lsp.rs:490-501 -/
def typeKeywords : List TokenKind := [
  .i8, .i16, .i32, .i64, .u8, .u16, .u32, .u64, .f32, .f64, .bool, .vec]

/-- The type of a token, if it gets one. Source: lsp.rs:483-554 -/
def kindIndex : TokenKind → Option TokenType
  | .eof => none
  | .int _ => some .number
  | .float _ => some .number
  | .str _ => some .string
  | .min => some .function
  | .max => some .function
  | .ident name => if typeNameIdents.contains name then some .type else some .variable
  | kind =>
    if typeKeywords.contains kind then some .type
    else if skippedOperators.contains kind then none
    else some .keyword

/-- What the compiler knows of the names at some spans. Source: lsp.rs:640-644 -/
abbrev Overrides : Type := Span → Option (TokenType × Nat)

/-- A token before it is encoded: its position, length, type and modifiers. -/
structure EmittedToken where
  position : Position
  length : Nat
  tokenType : TokenType
  modifiers : Nat
  deriving DecidableEq

/-- Source: lsp.rs:555-567 -/
def emitToken (source : List Char) (overrides : Overrides) (token : Token) : Option EmittedToken :=
  (kindIndex token.kind).map fun kind =>
    let (tokenType, modifiers) := (overrides token.span).getD (kind, 0)
    ⟨byteOffsetToPosition source token.span.start, asU32 (token.span.stop - token.span.start),
      tokenType, modifiers⟩

/-- The tokens relative to the line and the column of the one before. Source: lsp.rs:571-590 -/
def encodeFrom : Nat → Nat → List EmittedToken → List SemanticToken
  | _, _, [] => []
  | prevLine, prevStart, e :: rest =>
    let deltaLine := subU32 e.position.line prevLine
    let deltaStart :=
      if deltaLine = 0 then subU32 e.position.character prevStart else e.position.character
    ⟨deltaLine, deltaStart, e.length, e.tokenType, e.modifiers⟩ ::
      encodeFrom e.position.line e.position.character rest

/-- Source: lsp.rs:447-592 -/
def computeSemanticTokens (overrides : Overrides) (source : List Char) : List SemanticToken :=
  match (lex source : Outcome (Except Diagnostic (List Token))) with
  | .done (.ok tokens) => encodeFrom 0 0 (tokens.filterMap (emitToken source overrides))
  | _ => []

end Vani.Syntax
