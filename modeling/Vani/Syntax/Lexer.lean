import Vani.Library.Outcome
import Vani.Library.Utf8
import Vani.Syntax.Token
import Vani.Syntax.Literals

/-!
# The lexer

A cursor stands at an offset and has the bytes from there on. `lexOne` reads one piece of the
text: a blank, a comment or a token. The lexer returns the tokens among the pieces; two passes
join words that stand for one keyword, a last one looks for files in two scripts.

Indexing past the end of the bytes and slicing off a character boundary abort.
-/

set_option autoImplicit false

namespace Vani.Syntax

open Vani.Library

/-- The result of the lexer, or of a part of it. -/
def Lexed (α : Type) : Type := Outcome (Except Diagnostic α)

namespace Lexed

variable {α : Type}

instance : Monad Lexed where
  pure a := Outcome.done (.ok a)
  bind x f :=
    match x with
    | .done (.ok a) => f a
    | .done (.error d) => .done (.error d)
    | .aborted => .aborted
    | .stuck => .stuck

instance [DecidableEq α] : DecidableEq (Lexed α) :=
  inferInstanceAs (DecidableEq (Outcome (Except Diagnostic α)))

def error (span : Span) (message : String) : Lexed α := Outcome.done (.error ⟨span, message⟩)

def abort : Lexed α := Outcome.aborted

def stuck : Lexed α := Outcome.stuck

end Lexed

/-! ## Bytes -/

/-- `self.pos` and the bytes from there on. Source: lexer.rs:664-669 -/
structure Cursor where
  pos : Nat
  rest : List UInt8
  deriving DecidableEq

namespace Cursor

/-- Source: lexer.rs:1150-1152 -/
def isAtEnd (c : Cursor) : Bool := c.rest.isEmpty

/-- Source: lexer.rs:1154-1156 -/
def peek (c : Cursor) : Option UInt8 := c.rest[0]?

/-- Source: lexer.rs:1158-1160 -/
def peekNext (c : Cursor) : Option UInt8 := c.rest[1]?

/-- `self.pos += n` -/
def forward (c : Cursor) (n : Nat) : Cursor := ⟨c.pos + n, c.rest.drop n⟩

/-- Source: lexer.rs:1162-1166 -/
def advance (c : Cursor) : Lexed (UInt8 × Cursor) :=
  match c.rest with
  | [] => .abort
  | byte :: rest => pure (byte, ⟨c.pos + 1, rest⟩)

/-- `while p(self.peek()) { self.advance(); }` -/
def advanceWhile (p : UInt8 → Bool) (c : Cursor) : Cursor :=
  ⟨c.pos + (c.rest.takeWhile p).length, c.rest.dropWhile p⟩

/-- The byte at the cursor passes a test. -/
def peekIs (p : UInt8 → Bool) (c : Cursor) : Bool := c.peek.any p

/-- The byte after the one at the cursor passes a test. -/
def peekNextIs (p : UInt8 → Bool) (c : Cursor) : Bool := c.peekNext.any p

end Cursor

/-- `byte as char` -/
def charOf (byte : UInt8) : Char := Char.ofNat byte.toNat

/-- The byte is one of some ASCII characters. -/
def isOneOf (chars : List Char) (byte : UInt8) : Bool := chars.any fun c => asciiByte c == byte

def isDigit (byte : UInt8) : Bool := 0x30 ≤ byte.toNat && byte.toNat ≤ 0x39

def isDigitOrUnderscore (byte : UInt8) : Bool := isDigit byte || byte == asciiByte '_'

def isAlphaOrUnderscore (byte : UInt8) : Bool :=
  0x61 ≤ byte.toNat && byte.toNat ≤ 0x7A || 0x41 ≤ byte.toNat && byte.toNat ≤ 0x5A ||
    byte == asciiByte '_'

def isIdentByte (byte : UInt8) : Bool := isAlphaOrUnderscore byte || isDigit byte

def isNonAscii (byte : UInt8) : Bool := 0x80 ≤ byte.toNat

/-- The last byte of a digit `०` to `९`. -/
def isDevanagariDigitEnd (byte : UInt8) : Bool := 0xA6 ≤ byte.toNat && byte.toNat ≤ 0xAF

/-- `&source[start..stop]` -/
def slice (source : List Char) (start stop : Nat) : Lexed (List Char) :=
  match sliceBytes source start stop with
  | some text => pure text
  | none => .abort

/-! ## Numbers -/

/-- The value of the digits `०` to `९` as an `i128`. Source: lexer.rs:792-799 -/
def devanagariDigits (raw : List Char) : List Char :=
  raw.map fun c => Char.ofNat (0x30 + (c.toNat - 0x0966))

/-- A digit `०` to `९` is next. -/
def devanagariDigitNext : List UInt8 → Bool
  | b :: b' :: b'' :: _ => b == 0xE0 && b' == 0xA5 && isDevanagariDigitEnd b''
  | _ => false

/-- Over digits `०` to `९`, at most so many. -/
def skipDevanagariDigits : Nat → Cursor → Cursor
  | 0, c => c
  | fuel + 1, c => if devanagariDigitNext c.rest then skipDevanagariDigits fuel (c.forward 3) else c

/-- Source: lexer.rs:773-808 -/
def lexDevanagariNumber (source : List Char) (start : Nat) (c : Cursor) :
    Lexed (TokenKind × Cursor) := do
  let (_, c) ← c.advance
  let (_, c) ← c.advance
  let c := skipDevanagariDigits c.rest.length c
  let raw ← slice source start c.pos
  match parseI128 10 (devanagariDigits raw) with
  | some value => pure (.int value, c)
  | none => .error ⟨start, c.pos⟩ ("invalid Devanagari integer '" ++ String.ofList raw ++ "'")

/-- Source: lexer.rs:1195-1203 -/
def isDigitForRadix (radix : Nat) (byte : UInt8) : Bool :=
  match radix with
  | 2 => isOneOf ['0', '1'] byte
  | 8 => 0x30 ≤ byte.toNat && byte.toNat ≤ 0x37
  | 16 => isDigit byte || 0x61 ≤ byte.toNat && byte.toNat ≤ 0x66 ||
      0x41 ≤ byte.toNat && byte.toNat ≤ 0x46
  | 10 => isDigit byte
  | _ => false

/-- The base a prefix stands for and its name. -/
def radixOf (letter : UInt8) : Nat × String :=
  if isOneOf ['x', 'X'] letter then (16, "hex")
  else if isOneOf ['b', 'B'] letter then (2, "binary")
  else (8, "octal")

/-- Source: lexer.rs:884-927 -/
def lexRadixInt (source : List Char) (start : Nat) (c : Cursor) : Lexed (TokenKind × Cursor) := do
  let (letter, c) ← c.advance
  let (radix, name) := radixOf letter
  let digitsStart := c.pos
  let c := c.advanceWhile fun byte => byte == asciiByte '_' || isDigitForRadix radix byte
  if c.pos = digitsStart then
    .error ⟨start, c.pos⟩ ("expected " ++ name ++ " digits after '0" ++
      String.singleton (charOf letter) ++ "' prefix")
  else do
    let digits ← slice source digitsStart c.pos
    match parseI128 radix (stripUnderscores digits) with
    | some value => pure (.int value, c)
    | none => do
      let raw ← slice source start c.pos
      .error ⟨start, c.pos⟩ (name ++ " integer literal '" ++ String.ofList raw ++
        "' does not fit in i128")

/-- The digits after a `.`, and whether there are any. Source: lexer.rs:822-828 -/
def skipFraction (c : Cursor) : Bool × Cursor :=
  if c.peekIs (isOneOf ['.']) && c.peekNextIs isDigit then
    (true, (c.forward 1).advanceWhile isDigitOrUnderscore)
  else (false, c)

/-- The sign and the digits after an `e`, and whether there is one. Source: lexer.rs:830-847 -/
def skipExponent (c : Cursor) : Lexed (Bool × Cursor) :=
  if c.peekIs (isOneOf ['e', 'E']) then
    let afterE := c.forward 1
    let digits := if afterE.peekIs (isOneOf ['+', '-']) then afterE.forward 1 else afterE
    if digits.peekIs isDigit then pure (true, digits.advanceWhile isDigitOrUnderscore)
    else .error ⟨c.pos, digits.pos⟩ "expected digits after float exponent"
  else pure (false, c)

/-- The value of a float literal. Source: lexer.rs:853-868 -/
def floatLiteral (span : Span) (raw : List Char) : Lexed TokenKind :=
  match parseF64 (stripUnderscores raw) with
  | none => .error span ("float literal '" ++ String.ofList raw ++ "' cannot be parsed")
  | some bits =>
    if bits < infinityBits then pure (.float bits)
    else .error span ("float literal '" ++ String.ofList raw ++ "' is not finite")

/-- The value of a decimal literal. Source: lexer.rs:870-881 -/
def intLiteral (span : Span) (raw : List Char) : Lexed TokenKind :=
  match parseI128 10 (stripUnderscores raw) with
  | some value => pure (.int value)
  | none => .error span ("integer literal '" ++ String.ofList raw ++ "' does not fit in i128")

/-- Source: lexer.rs:810-882 -/
def lexNumber (source : List Char) (start : Nat) (first : UInt8) (c : Cursor) :
    Lexed (TokenKind × Cursor) := do
  if first == asciiByte '0' && c.peekIs (isOneOf ['x', 'X', 'b', 'B', 'o', 'O']) then
    lexRadixInt source start c
  else do
    let c := c.advanceWhile isDigitOrUnderscore
    let (hasFraction, c) := skipFraction c
    let (hasExponent, c) ← skipExponent c
    let raw ← slice source start c.pos
    let kind ← if hasFraction || hasExponent then floatLiteral ⟨start, c.pos⟩ raw
      else intLiteral ⟨start, c.pos⟩ raw
    pure (kind, c)

/-! ## Words -/

/-- Source: lexer.rs:938-955 -/
def lexUnicodeIdent (source : List Char) (start : Nat) (c : Cursor) :
    Lexed (TokenKind × Cursor) := do
  let c := c.advanceWhile fun byte => isIdentByte byte || isNonAscii byte
  let text ← slice source start c.pos
  let text := String.ofList text
  pure ((devanagariKeywords.lookup text).getD (.ident text), c)

/-- Source: lexer.rs:957-1083 -/
def lexIdent (source : List Char) (start : Nat) (c : Cursor) : Lexed (TokenKind × Cursor) := do
  let c := c.advanceWhile isIdentByte
  let text ← slice source start c.pos
  let text := String.ofList text
  pure ((keywords.lookup text).getD (.ident text), c)

/-! ## Strings -/

/-- What stands for a character after a `\`. Source: lexer.rs:1104-1117 -/
def escapes : List (Char × Char) := [
  (Char.ofNat 0x22, Char.ofNat 0x22), (Char.ofNat 0x5C, Char.ofNat 0x5C), ('n', Char.ofNat 0x0A),
  ('t', Char.ofNat 0x09), ('r', Char.ofNat 0x0D), ('0', Char.ofNat 0)]

def escapeOf (byte : UInt8) : Option Char :=
  (escapes.find? fun e => asciiByte e.1 == byte).map Prod.snd

/-- The next character. Source: lexer.rs:1168-1172 -/
def nextChar (source : List Char) (c : Cursor) : Lexed (Option (Char × Cursor)) :=
  match splitAtByte source c.pos with
  | none => .abort
  | some (_, []) => pure none
  | some (_, ch :: _) => pure (some (ch, c.forward ch.utf8Size))

/-- The rest of a string literal, the value so far being given. Source: lexer.rs:1085-1142 -/
def lexString (source : List Char) (start : Nat) :
    Nat → List Char → Cursor → Lexed (TokenKind × Cursor)
  | 0, _, _ => .stuck
  | fuel + 1, value, c =>
    match c.rest with
    | [] => .error ⟨start, c.pos⟩ "unterminated string literal"
    | byte :: _ =>
      if byte == 0x22 then pure (.str (String.ofList value), c.forward 1)
      else if byte == 0x5C then
        match (c.forward 1).rest with
        | [] => .error ⟨start, c.pos + 1⟩ "unterminated string literal"
        | escaped :: _ =>
          match escapeOf escaped with
          | some ch => lexString source start fuel (value ++ [ch]) (c.forward 2)
          | none =>
            .error ⟨c.pos, c.pos + 2⟩ ("unknown escape sequence '" ++
              String.ofList [Char.ofNat 0x5C, charOf escaped] ++ "'")
      else if byte == 0x0A then .error ⟨start, c.pos⟩ "string literal cannot span lines"
      else do
        match ← nextChar source c with
        | some (ch, c') => lexString source start fuel (value ++ [ch]) c'
        | none => .error ⟨c.pos, c.pos⟩ "invalid character in string literal"

/-! ## Pieces -/

/-- What the lexer goes over in one turn. -/
inductive Piece
  | blank
  | comment
  | token (kind : TokenKind)
  deriving DecidableEq

/-- Operators of two bytes. Source: lexer.rs:715-740 -/
def doubleOperators : List (Char × Char × TokenKind) := [
  (':', ':', .colonColon), ('-', '>', .arrow), ('!', '=', .bangEq), ('=', '=', .eqEq),
  ('<', '<', .lessLess), ('<', '=', .lessEq), ('>', '>', .greaterGreater), ('>', '=', .greaterEq),
  ('&', '&', .andAnd), ('|', '|', .orOr), ('.', '.', .dotDot)]

/-- Operators of one byte. Source: lexer.rs:709-747 -/
def singleOperators : List (Char × TokenKind) := [
  ('(', .lParen), (')', .rParen), ('{', .lBrace), ('}', .rBrace), ('[', .lBracket),
  (']', .rBracket), (':', .colon), (';', .semicolon), (',', .comma), ('+', .plus), ('-', .minus),
  ('*', .star), ('/', .slash), ('%', .percent), ('!', .bang), ('=', .equal), ('<', .less),
  ('>', .greater), ('&', .amp), ('|', .pipe), ('^', .caret), ('.', .dot), ('#', .hash)]

/-- The operator that begins with a byte, the cursor being past that byte. -/
def operator (byte : UInt8) (c : Cursor) : Option (TokenKind × Cursor) :=
  match doubleOperators.find? fun o => asciiByte o.1 == byte && c.peekIs (isOneOf [o.2.1]) with
  | some o => some (o.2.2, c.forward 1)
  | none => (singleOperators.find? fun o => asciiByte o.1 == byte).map fun o => (o.2, c)

/-- Source: lexer.rs:1144-1148 -/
def skipLineComment (c : Cursor) : Cursor := c.advanceWhile fun byte => byte != 0x0A

/-- A piece that is a token. -/
def asToken (x : Lexed (TokenKind × Cursor)) : Lexed (Piece × Cursor) := do
  let (kind, c) ← x
  pure (.token kind, c)

/-- One turn of the main loop. Source: lexer.rs:682-754 -/
def lexOne (source : List Char) (c : Cursor) : Lexed (Piece × Cursor) := do
  let start := c.pos
  let (byte, c) ← c.advance
  if isOneOf [' ', Char.ofNat 0x0D, Char.ofNat 0x09, Char.ofNat 0x0A] byte then pure (.blank, c)
  else if byte == asciiByte '/' && c.peekIs (isOneOf ['/']) then
    pure (.comment, skipLineComment (c.forward 1))
  else if isDigit byte then asToken (lexNumber source start byte c)
  else if isAlphaOrUnderscore byte then asToken (lexIdent source start c)
  else if isNonAscii byte then
    if byte == 0xE0 && c.peek == some 0xA5 && c.peekNextIs isDevanagariDigitEnd then
      asToken (lexDevanagariNumber source start c)
    else asToken (lexUnicodeIdent source start c)
  else if byte == 0x22 then asToken (lexString source start (c.rest.length + 1) [] c)
  else
    match operator byte c with
    | some (kind, c) => pure (.token kind, c)
    | none =>
      .error ⟨start, start + 1⟩
        ("unexpected character '" ++ String.singleton (charOf byte) ++ "'")

/-- The pieces of the text from the cursor on, with their ranges. Source: lexer.rs:681-756 -/
def scan (source : List Char) : Nat → Cursor → Lexed (List (Piece × Span))
  | 0, c => if c.isAtEnd then pure [] else .stuck
  | fuel + 1, c =>
    if c.isAtEnd then pure []
    else do
      let (piece, c') ← lexOne source c
      let pieces ← scan source fuel c'
      pure ((piece, ⟨c.pos, c'.pos⟩) :: pieces)

/-- The pieces of a text. -/
def pieces (source : List Char) : Lexed (List (Piece × Span)) :=
  scan source (byteSize source) ⟨0, utf8 source⟩

/-- The token that a piece is. -/
def tokenOf : Piece × Span → Option Token
  | (.token kind, span) => some ⟨kind, span⟩
  | _ => none

/-- The comment that a piece is. -/
def commentOf : Piece × Span → Option Span
  | (.comment, span) => some span
  | _ => none

/-- The main pass. Source: lexer.rs:681-763 -/
def lexTokens (source : List Char) : Lexed (List Token) := do
  let found ← pieces source
  pure (found.filterMap tokenOf ++ [⟨.eof, ⟨byteSize source, byteSize source⟩⟩])

/-- The regions the main pass goes over as comments. -/
def skippedComments (source : List Char) : Lexed (List Span) := do
  let found ← pieces source
  pure (found.filterMap commentOf)

/-! ## Keywords of two words -/

/-- Source: lexer.rs:571-576 -/
def whitespaceOnly (source : List Char) (start stop : Nat) : Bool :=
  match sliceBytes source start stop with
  | some text => text.all fun c => c = ' ' ∨ c = Char.ofNat 0x09
  | none => false

/-- The text of a token, if its span is on boundaries. -/
def textOf (source : List Char) (span : Span) : Option (List Char) :=
  sliceBytes source span.start span.stop

/-- The keyword two words make. Source: lexer.rs:493-514 -/
def multiWordKeyword (source : List Char) (a b : Token) : Option TokenKind := do
  if whitespaceOnly source a.span.stop b.span.start then
    let aText ← textOf source a.span
    let bText ← textOf source b.span
    if (utf8 aText).any isNonAscii && (utf8 bText).any isNonAscii then
      multiWordKeywords.lookup (String.ofList (aText ++ ' ' :: bText))
    else none
  else none

/-- `give back`. Source: lexer.rs:536-551 -/
def giveBack (source : List Char) (a b : Token) : Option TokenKind :=
  match a.kind, b.kind with
  | .return_, .ident _ =>
    if whitespaceOnly source a.span.stop b.span.start &&
        textOf source a.span == some "give".toList && textOf source b.span == some "back".toList then
      some .return_
    else none
  | _, _ => none

/-- Adjacent tokens are merged where they make a keyword, from a token on. -/
def mergeFrom (keyword : Token → Token → Option TokenKind) (a : Token) : List Token → List Token
  | [] => [a]
  | b :: rest =>
    match keyword a b with
    | some kind => mergeFrom keyword ⟨kind, a.span.merge b.span⟩ rest
    | none => a :: mergeFrom keyword b rest

/-- `while i + 1 < tokens.len() { ... }` -/
def mergeAdjacent (keyword : Token → Token → Option TokenKind) : List Token → List Token
  | [] => []
  | a :: rest => mergeFrom keyword a rest

/-- Source: lexer.rs:485-518 -/
def mergeMultiWordDevanagariAliases (source : List Char) (tokens : List Token) : List Token :=
  mergeAdjacent (multiWordKeyword source) tokens

/-- Source: lexer.rs:533-569 -/
def mergeGiveBackAsciiAlias (source : List Char) (tokens : List Token) : List Token :=
  mergeAdjacent (giveBack source) tokens

/-! ## One script per file -/

/-- Source: lexer.rs:376-380 -/
def isDevanagariChar (c : Char) : Bool :=
  0x0900 ≤ c.toNat && c.toNat ≤ 0x097F || 0xA8E0 ≤ c.toNat && c.toNat ≤ 0xA8FF

/-- `start..stop` in a message. -/
def spanText (span : Span) : String := toString span.start ++ ".." ++ toString span.stop

/-- The loop over the tokens, with the first keyword seen in each script.
Source: lexer.rs:368-416 -/
def languagePurityFrom (source : List Char) :
    Option Span → Option Span → List Token → Lexed Unit
  | _, _, [] => pure ()
  | english, devanagari, token :: rest =>
    if !structureKeywords.contains token.kind then languagePurityFrom source english devanagari rest
    else do
      let text ← slice source token.span.start token.span.stop
      match text.any isDevanagariChar, english, devanagari with
      | true, some span, _ =>
        .error token.span
          ("language mismatch: file already used an English structure keyword (see span " ++
            spanText span ++
            "), can't switch to a Devanagari alias mid-file. Pick one language per file.")
      | true, none, _ =>
        languagePurityFrom source english (devanagari.or (some token.span)) rest
      | false, _, some span =>
        .error token.span
          ("language mismatch: file already used a Devanagari structure keyword (see span " ++
            spanText span ++
            "), can't switch to an English keyword mid-file. Pick one language per file.")
      | false, _, none =>
        languagePurityFrom source (english.or (some token.span)) devanagari rest

/-- Source: lexer.rs:368-416 -/
def enforceLanguagePurity (source : List Char) (tokens : List Token) : Lexed Unit :=
  languagePurityFrom source none none tokens

/-- Source: lexer.rs:342-348 -/
def lex (source : List Char) : Lexed (List Token) := do
  let tokens ← lexTokens source
  let tokens := mergeMultiWordDevanagariAliases source tokens
  let tokens := mergeGiveBackAsciiAlias source tokens
  enforceLanguagePurity source tokens
  pure tokens

end Vani.Syntax
