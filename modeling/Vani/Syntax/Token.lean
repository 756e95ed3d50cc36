import Mathlib.Data.List.Basic

/-!
# Tokens

What the lexer hands to the parser: kinds of tokens with the range of bytes they come from, or
the diagnostic of an error. An `i128` is an integer, a float is kept as the bits of the `f64`.
-/

set_option autoImplicit false

namespace Vani.Syntax

/-- A range of byte offsets; `stop` is the source's `end`. Source: span.rs:1-5 -/
structure Span where
  start : Nat
  stop : Nat
  deriving DecidableEq

/-- Source: span.rs:12-17 -/
def Span.merge (a b : Span) : Span := ⟨min a.start b.start, max a.stop b.stop⟩

/-- Source: lexer.rs:11-187 -/
inductive TokenKind
  | ident (name : String)
  | int (value : Int)
  | float (bits : Nat)
  | str (text : String)
  | fn
  | pureKw
  | externKw
  | parallel
  | reduce
  | with_
  | min
  | max
  | task
  | join
  | let_
  | return_
  | if_
  | else_
  | while_
  | break_
  | continue_
  | mut_
  | for_
  | in_
  | ref
  | struct
  | enum
  | match_
  | then_
  | interface
  | implement
  | where_
  | is
  | const
  | type
  | methods
  | from_
  | to
  | dotDot
  | dot
  | intent
  | use
  | requires
  | ensures
  | invariant
  | assert
  | prove
  | print
  | try_
  | len
  | as_
  | true_
  | false_
  | i8
  | i16
  | i32
  | i64
  | u8
  | u16
  | u32
  | u64
  | f32
  | f64
  | bool
  | vec
  | lParen
  | rParen
  | lBrace
  | rBrace
  | lBracket
  | rBracket
  | colon
  | colonColon
  | semicolon
  | comma
  | plus
  | minus
  | star
  | slash
  | percent
  | bang
  | equal
  | eqEq
  | bangEq
  | less
  | lessEq
  | lessLess
  | greater
  | greaterEq
  | greaterGreater
  | amp
  | andAnd
  | pipe
  | orOr
  | caret
  | hash
  | arrow
  | module_
  | pub
  | eof
  deriving DecidableEq

/-- Source: lexer.rs:4-8 -/
structure Token where
  kind : TokenKind
  span : Span
  deriving DecidableEq

/-- An error; the lexer relates none of its errors to other places. Source: diagnostic.rs:3-21 -/
structure Diagnostic where
  span : Span
  message : String
  deriving DecidableEq

/-!
## Keywords

The words that are not identifiers, in English and in Devanagari, and those keywords that
decide which of the two a file is written in.
-/

/-- The English words and their aliases. Source: lexer.rs:981-1075 -/
def keywords : List (String × TokenKind) := [
  ("fn", .fn), ("pure", .pureKw), ("extern", .externKw), ("parallel", .parallel),
  ("reduce", .reduce), ("with", .with_), ("task", .task), ("join", .join), ("let", .let_),
  ("assign", .let_), ("return", .return_), ("give", .return_), ("give_back", .return_),
  ("if", .if_), ("else", .else_), ("while", .while_), ("break", .break_),
  ("continue", .continue_), ("mut", .mut_), ("for", .for_), ("in", .in_), ("ref", .ref),
  ("from", .from_), ("to", .to), ("struct", .struct), ("record", .struct), ("enum", .enum),
  ("match", .match_), ("then", .then_), ("interface", .interface), ("trait", .interface),
  ("implement", .implement), ("impl", .implement), ("module", .module_), ("mod", .module_),
  ("pub", .pub), ("public", .pub), ("where", .where_), ("is", .is), ("const", .const),
  ("type", .type), ("methods", .methods), ("intent", .intent), ("use", .use),
  ("requires", .requires), ("ensures", .ensures), ("invariant", .invariant), ("assert", .assert),
  ("prove", .prove), ("print", .print), ("write", .print), ("try", .try_), ("len", .len),
  ("as", .as_), ("true", .true_), ("false", .false_), ("returns", .arrow), ("yields", .arrow),
  ("i8", .i8), ("i16", .i16), ("i32", .i32), ("i64", .i64), ("u8", .u8), ("u16", .u16),
  ("u32", .u32), ("u64", .u64), ("f32", .f32), ("f64", .f64), ("bool", .bool), ("Vec", .vec)]

/-- Source: lexer.rs:204-341 -/
def devanagariKeywords : List (String × TokenKind) := [
  ("फलन", .fn), ("कार्य", .fn), ("मान", .let_), ("माना", .let_), ("परत", .return_),
  ("लौटाओ", .return_), ("पुनरागम", .return_), ("यदि", .if_), ("अगर", .if_), ("जर", .if_),
  ("अन्यथा", .else_), ("वरना", .else_), ("नाहीतर", .else_), ("यावत्", .while_), ("जबतक", .while_),
  ("जोपर्यंत", .while_), ("प्रति", .for_), ("साठी", .for_), ("तदा", .then_), ("तो", .then_),
  ("तर", .then_), ("पहा", .ref), ("देखो", .ref), ("बदल", .mut_), ("परिवर्तनीय", .mut_),
  ("जुळवा", .match_), ("मिलान", .match_), ("मेल", .match_), ("खात्री", .assert),
  ("सुनिश्चित", .assert), ("सिद्धम्", .assert), ("सिद्ध", .prove), ("प्रमाण", .prove),
  ("प्रमाणित", .prove), ("दर्शाओ", .prove), ("दाखवा", .prove), ("अपेक्षित", .requires),
  ("चाहिए", .requires), ("पाहिजे", .requires), ("निश्चित", .ensures), ("सुनिश्चयित", .ensures),
  ("सत्य", .true_), ("सही", .true_), ("असत्य", .false_), ("अशुद्ध", .false_), ("लिख", .print),
  ("लिखो", .print), ("शुद्ध", .pureKw), ("संरचना", .struct), ("विकल्प", .enum), ("गणन", .enum),
  ("स्थिर", .const), ("नियत", .const), ("विराम", .break_), ("रुको", .break_), ("थांब", .break_),
  ("अग्रे", .continue_), ("पुढे", .continue_), ("आगे", .continue_), ("में", .in_), ("से", .from_),
  ("तक", .to), ("संक्षेप", .reduce), ("सह", .with_), ("समानांतर", .parallel), ("उपयोग", .use),
  ("खण्ड", .module_), ("मॉड्यूल", .module_), ("सार्वजनिक", .pub), ("यथा", .as_),
  ("संकेत", .interface), ("अंतरापृष्ठ", .interface), ("कार्यान्वित", .implement),
  ("विधि", .methods), ("जहाँ", .where_), ("यत्र", .where_), ("जिथे", .where_), ("है", .is),
  ("अस्ति", .is), ("आहे", .is), ("प्रयास", .try_), ("नियोग", .task), ("संयोजन", .join)]

/-- Source: lexer.rs:584-594 -/
def multiWordKeywords : List (String × TokenKind) := [
  ("नहीं तो", .else_), ("के लिए", .for_), ("सिद्ध करो", .prove), ("सिद्ध करा", .prove),
  ("समान्तर प्रति", .parallel)]

/-- The kinds under the rule of one script per file. Source: lexer.rs:424-473 -/
def structureKeywords : List TokenKind := [
  .fn, .pureKw, .externKw, .parallel, .reduce, .with_, .task, .join, .let_, .return_, .if_,
  .else_, .while_, .break_, .continue_, .mut_, .for_, .in_, .ref, .from_, .to, .struct, .enum,
  .match_, .then_, .interface, .implement, .where_, .is, .const, .type, .methods, .intent, .use,
  .requires, .ensures, .invariant, .assert, .prove, .print, .try_, .module_, .pub]

end Vani.Syntax
