import Vani.Syntax.Expressions

/-!
# Parsing declarations

A file is a list of declarations, some of them modules with declarations in turn. An error in a
declaration is recorded, and the parser goes on where the next one may begin: at the top level
behind a few keywords, in a module at the brace that closes it.
-/

set_option autoImplicit false

namespace Vani.Syntax

open Vani.Library Vani.Program

/-! ## Declarations -/

/-- `where T is Iface`. Source: ast.rs:473-481 -/
structure WhereClause where
  typeParam : String
  interfaceName : String

/-- A function as it is written. Source: ast.rs:532-573 -/
structure FunctionDecl extends Program.Function where
  typeParams : List String
  whereClauses : List WhereClause
  isExtern : Bool
  recursionBound : Option Nat

/-- Source: ast.rs:483-487 -/
structure Use where
  path : String
  span : Span

/-- Source: ast.rs:502-524 -/
structure UsePath where
  module_ : String
  item : String
  alias_ : Option String
  isPub : Bool
  span : Span

/-- The three shapes of `use`. Source: parser.rs:8-15 -/
inductive UseDecl
  | file (use : Use)
  | path (use : UsePath)
  | pathMulti (uses : List UsePath)

structure StructDecl where
  name : String
  typeParams : List String
  fields : List Param

structure EnumVariant where
  name : String
  payload : List Ty

structure EnumDecl where
  name : String
  typeParams : List String
  variants : List EnumVariant

structure InterfaceMethod where
  name : String
  params : List Param
  returnType : Ty

structure InterfaceDecl where
  name : String
  methods : List InterfaceMethod

structure ImplDecl where
  interfaceName : String
  forType : Ty
  methods : List FunctionDecl

structure ConstDecl where
  name : String
  ty : Ty
  value : Expr

structure TypeAlias where
  name : String
  target : Ty

structure MethodsBlock where
  forType : Ty
  methods : List FunctionDecl

/-- The declarations of a kind of item each; a file and a module have them in common. -/
structure Items (form : Type → Type) where
  functions : List (form FunctionDecl)
  structs : List (form StructDecl)
  enums : List (form EnumDecl)
  interfaces : List (form InterfaceDecl)
  impls : List (form ImplDecl)
  consts : List (form ConstDecl)
  typeAliases : List (form TypeAlias)
  methodsBlocks : List (form MethodsBlock)

def Items.empty {form : Type → Type} : Items form := ⟨[], [], [], [], [], [], [], []⟩

/-- An item of a module with its entries in the lists of visibilities. Source: ast.rs:330-358 -/
structure Visible (α : Type) where
  item : α
  isPub : Bool
  isKoshOnly : Bool

/-- Source: ast.rs:280-314 -/
inductive ModuleDecl
  | mk (name : String) (items : Items Visible) (modules : List (Visible ModuleDecl))
      (usePaths : List UsePath)

/-- An item as it is. -/
abbrev Plain (α : Type) : Type := α

/-- A file. Source: ast.rs:226-271 -/
structure ProgramDecl where
  intents : List String
  uses : List Use
  items : Items Plain
  modules : List ModuleDecl
  usePaths : List UsePath

/-! ## Constants -/

/-- A result of checked `i128` arithmetic. -/
def checkedI128 (v : Int) : Option Int := if -2 ^ 127 ≤ v && v < 2 ^ 127 then some v else none

/-- Source: parser.rs:3917-3928 -/
def foldIntLiteral (op : BinaryOp) (l r : Int) : Option Int :=
  match op with
  | .add => checkedI128 (l + r)
  | .sub => checkedI128 (l - r)
  | .mul => checkedI128 (l * r)
  | .div => if r = 0 then none else checkedI128 (l.tdiv r)
  | .rem => if r = 0 || (l == -2 ^ 127 && r == -1) then none else some (l.tmod r)
  | _ => none

/-- Source: parser.rs:3909-3933 -/
def exprAsIntLiteral (priorConsts : List (String × Int)) : Expr → Option Int
  | .int v => some v
  | .var name => priorConsts.lookup name
  | .unary .neg inner => (exprAsIntLiteral priorConsts inner).bind fun v => checkedI128 (-v)
  | .binary op left right =>
    match exprAsIntLiteral priorConsts left, exprAsIntLiteral priorConsts right with
    | some l, some r => foldIntLiteral op l r
    | _, _ => none
  | _ => none

/-! ## Recovery -/

/-- Source: parser.rs:1005-1014 -/
def TokenKind.startsTopLevel : TokenKind → Bool
  | .fn | .pureKw | .intent | .use | .eof => true
  | _ => false

/-- Source: parser.rs:1005-1014 -/
def syncToTopLevel : Parse Unit := skipWhile fun kind => !kind.startsTopLevel

/-- Up to the brace that closes the one around, which is not passed. Source: parser.rs:511-524 -/
def syncPastBrace : Parse Unit :=
  loop (fun depth => do
    let token ← current
    match token.kind, depth with
    | .eof, _ | .rBrace, 0 => pure (.inr ())
    | .lBrace, depth => do
      let _ ← bump
      pure (.inl (depth + 1))
    | .rBrace, depth + 1 => do
      let _ ← bump
      pure (.inl depth)
    | _, depth => do
      let _ ← bump
      pure (.inl depth)) 0

/-- What a declaration adds to the ones before; an error is recorded and the parser goes on. -/
def recover {α β : Type} (sync : Parse Unit) (p : Parse α) (keep : α → β) (before : β) :
    Parse β := do
  match ← p.attempt with
  | .ok x => pure (keep x)
  | .error e => do
    pushError e
    sync
    pure before

section Parsers

variable (r : Entries)

/-! ## Items -/

/-- `<T1, T2, …>`, if it is there. Source: parser.rs:693-708, 777-792, 1076-1096 -/
def parseTypeParams : Parse (List String) := do
  match ← matchToken (· == .less) with
  | none => pure []
  | some _ => do
    let params ← commaSeparated ident fun kind => kind == .greater || kind == .greaterGreater
    expectCloseAngle
    pure (params.map Prod.fst)

/-- The names are type parameters from here on; the ones before are returned. -/
def enterTypeParams (names : List String) : Parse (List String) := do
  let s ← (Parser.get : Parse ParserState)
  Parser.modify fun s => { s with currentTypeParams := names ++ s.currentTypeParams }
  pure s.currentTypeParams

def restoreTypeParams (saved : List String) : Parse Unit :=
  Parser.modify fun s => { s with currentTypeParams := saved }

/-- The members of a struct or an enum, a comma between any two. -/
def membersUntilBrace {α : Type} (member : Parse α) (message : String) : Parse (List α) :=
  loop (fun members => do
    if ← check TokenKind.endsBody then pure (.inr members)
    else do
      let x ← member
      let comma ← matchToken (· == .comma)
      let closes ← check (· == .rBrace)
      if comma.isSome || closes then pure (.inl (members ++ [x]))
      else errorHere message) []

/-- Source: parser.rs:768-831 -/
def parseStructDecl : Parse StructDecl := do
  let _ ← expectKeyword "'struct'" (· == .struct)
  let (name, _) ← ident
  let typeParams ← parseTypeParams
  let saved ← enterTypeParams typeParams
  let _ ← expectKeyword "'\x7b'" (· == .lBrace)
  let fields ← membersUntilBrace (parseParam r "':'")
    "expected ',' between struct fields or '\x7d' to close"
  let _ ← expectKeyword "'\x7d'" (· == .rBrace)
  restoreTypeParams saved
  pure ⟨name, typeParams, fields⟩

/-- `(T1, T2, …)`, if it is there. Source: parser.rs:727-747 -/
def parsePayload : Parse (List Ty) := do
  match ← matchToken (· == .lParen) with
  | none => pure []
  | some _ => do
    let payload ← unlessClosed (· == .rParen) (commaSeparated r.parseType fun _ => false)
    let _ ← expectKeyword "')'" (· == .rParen)
    pure payload

/-- Source: parser.rs:718-753 -/
def parseVariant : Parse EnumVariant := do
  let (name, _) ← ident
  let payload ← parsePayload r
  pure ⟨name, payload⟩

/-- Source: parser.rs:684-766 -/
def parseEnumDecl : Parse EnumDecl := do
  let _ ← expectKeyword "'enum'" (· == .enum)
  let (name, _) ← ident
  let typeParams ← parseTypeParams
  let saved ← enterTypeParams typeParams
  let _ ← expectKeyword "'\x7b'" (· == .lBrace)
  let variants ← membersUntilBrace (parseVariant r)
    "expected ',' between enum variants or '\x7d' to close"
  let _ ← expectKeyword "'\x7d'" (· == .rBrace)
  restoreTypeParams saved
  pure ⟨name, typeParams, variants⟩

/-- Source: parser.rs:603-646 -/
def parseInterfaceMethod : Parse InterfaceMethod := do
  let _ ← expectKeyword "'fn'" (· == .fn)
  let (name, _) ← ident
  let _ ← expectKeyword "'('" (· == .lParen)
  let params ← itemsBefore (parseParam r "':'") .rParen
  let _ ← expectKeyword "')'" (· == .rParen)
  let _ ← expectKeyword "'returns'" (· == .arrow)
  let returnType ← r.parseType
  let _ ← expectKeyword "';'" (· == .semicolon)
  pure ⟨name, params, returnType⟩

/-- Source: parser.rs:596-653 -/
def parseInterfaceDecl : Parse InterfaceDecl := do
  let _ ← expectKeyword "'interface'" (· == .interface)
  let (name, _) ← ident
  let _ ← expectKeyword "'\x7b'" (· == .lBrace)
  let methods ← itemsUntilBrace (parseInterfaceMethod r)
  let _ ← expectKeyword "'\x7d'" (· == .rBrace)
  pure ⟨name, methods⟩

/-- Source: parser.rs:570-594 -/
def parseConstDecl : Parse ConstDecl := do
  let _ ← expectKeyword "'const'" (· == .const)
  let (name, _) ← ident
  let _ ← expectKeyword "':'" (· == .colon)
  let ty ← r.parseType
  let _ ← expectKeyword "'='" (· == .equal)
  let value ← r.expr
  let _ ← expectKeyword "';'" (· == .semicolon)
  Parser.modify fun s =>
    match exprAsIntLiteral s.constIntValues value with
    | some v => { s with constIntValues := (name, v) :: s.constIntValues }
    | none => s
  pure ⟨name, ty, value⟩

/-- Source: parser.rs:554-568 -/
def parseTypeAlias : Parse TypeAlias := do
  let _ ← expectKeyword "'type'" (· == .type)
  let (name, _) ← ident
  let _ ← expectKeyword "'='" (· == .equal)
  let target ← r.parseType
  let _ ← expectKeyword "';'" (· == .semicolon)
  pure ⟨name, target⟩

/-! ## Functions -/

/-- `T is Iface`. Source: parser.rs:1164-1175 -/
def parseWhereClause : Parse WhereClause := do
  let (typeParam, _) ← ident
  let _ ← expectKeyword "'is'" (· == .is)
  let (interfaceName, _) ← ident
  pure ⟨typeParam, interfaceName⟩

/-- Source: parser.rs:1158-1195 -/
def parseWhereClauses : Parse (List WhereClause) := do
  match ← matchToken (· == .where_) with
  | none => pure []
  | some _ =>
    commaSeparated parseWhereClause fun kind =>
      kind == .lBrace || kind == .requires || kind == .ensures

/-- The conditions before and after a call, in any order. Source: parser.rs:1197-1217 -/
def parseContract : Parse (List Expr × List Expr) :=
  loop (fun contract => do
    match ← matchToken (· == .requires) with
    | some _ => do
      let condition ← r.expr
      let _ ← expectKeyword "';'" (· == .semicolon)
      pure (.inl (contract.1 ++ [condition], contract.2))
    | none =>
      match ← matchToken (· == .ensures) with
      | some _ => do
        let condition ← r.expr
        let _ ← expectKeyword "';'" (· == .semicolon)
        pure (.inl (contract.1, contract.2 ++ [condition]))
      | none => pure (.inr contract)) ([], [])

/-- What follows `fn`. Source: parser.rs:1065-1264 -/
def parseFunctionRest (isPure : Bool) : Parse FunctionDecl := do
  let (name, _) ← ident
  let typeParams ← parseTypeParams
  let saved ← enterTypeParams typeParams
  let _ ← expectKeyword "'('" (· == .lParen)
  let params ← itemsBefore (parseParam r "':'") .rParen
  let _ ← expectKeyword "')'" (· == .rParen)
  let (returnType, unitReturn) ← parseReturnType r
  let whereClauses ← parseWhereClauses
  let (requires, ensures) ← parseContract r
  let _ ← expectKeyword "'\x7b'" (· == .lBrace)
  let body ← stmtsUntilBrace r.parseStmt
  let _ ← expectKeyword "'\x7d'" (· == .rBrace)
  restoreTypeParams saved
  pure ⟨⟨name, params, returnType, requires, ensures, unitBody unitReturn body, isPure⟩,
    typeParams, whereClauses, false, none⟩

/-- Source: parser.rs:1060-1264 -/
def parseFunction : Parse FunctionDecl := do
  let isPure ← matchToken (· == .pureKw)
  let _ ← expectKeyword "'fn'" (· == .fn)
  parseFunctionRest r isPure.isSome

/-- Source: parser.rs:1288-1296 -/
def boundValue (token : Token) : Parse Nat :=
  match token.kind with
  | .int v =>
    if 0 ≤ v then pure (v % 2 ^ 64).toNat
    else errorAt token.span "expected a non-negative integer literal as the bound"
  | _ => errorAt token.span "expected a non-negative integer literal as the bound"

/-- The bound in `#[bounded(N)]`. Source: parser.rs:1285-1306 -/
def parseBound : Parse Nat := do
  let (attrName, _) ← ident
  if attrName = "bounded" then do
    let _ ← expectKeyword "'(' after `bounded`" (· == .lParen)
    let token ← bump
    let bound ← boundValue token
    let _ ← expectKeyword "')'" (· == .rParen)
    pure bound
  else errorHere ("unknown attribute '#[" ++ attrName ++
    "]' — only `#[bounded(N)]` is recognized in v1")

/-- Source: parser.rs:1280-1314 -/
def parseAttributedFn : Parse FunctionDecl := do
  let _ ← expectKeyword "'#'" (· == .hash)
  let _ ← expectKeyword "'['" (· == .lBracket)
  let bound ← parseBound
  let _ ← expectKeyword "']'" (· == .rBracket)
  let f ← parseFunction r
  pure { f with recursionBound := some bound }

/-- Source: parser.rs:1316-1376 -/
def parseExternFn : Parse FunctionDecl := do
  let _ ← expectKeyword "'extern'" (· == .externKw)
  let token ← expectString
  let abi ← strText token
  if abi = "C" then do
    let _ ← expectKeyword "'fn' after `extern \"C\"`" (· == .fn)
    let (name, _) ← ident
    let _ ← expectKeyword "'(' after extern fn name" (· == .lParen)
    let params ← unlessClosed (· == .rParen)
      (commaSeparated (parseParam r "':' after extern param name") fun _ => false)
    let _ ← expectKeyword "')' to close extern fn params" (· == .rParen)
    let _ ← expectKeyword "'->' before extern fn return type" (· == .arrow)
    let returnType ← r.parseType
    let _ ← expectKeyword "';' after extern fn signature" (· == .semicolon)
    pure ⟨⟨name, params, returnType, [], [], [], false⟩, [], [], true, none⟩
  else
    errorAt token.span
      ("only `extern \"C\"` is supported in v1; got `extern \"" ++ abi ++ "\"`")

/-- Source: parser.rs:655-682 -/
def parseImplDecl : Parse ImplDecl := do
  let _ ← expectKeyword "'implement'" (· == .implement)
  let (interfaceName, _) ← ident
  let _ ← expectKeyword "'for' in `implement <Iface> for <Type>`" (· == .for_)
  let forType ← r.parseType
  let _ ← expectKeyword "'\x7b'" (· == .lBrace)
  let methods ← itemsUntilBrace (parseFunction r)
  let _ ← expectKeyword "'\x7d'" (· == .rBrace)
  pure ⟨interfaceName, forType, methods⟩

/-- Source: parser.rs:526-552 -/
def parseMethodsBlock : Parse MethodsBlock := do
  let _ ← expectKeyword "'methods'" (· == .methods)
  let (on, span) ← ident
  if on = "on" then do
    let forType ← r.parseType
    let _ ← expectKeyword "'\x7b'" (· == .lBrace)
    let methods ← itemsUntilBrace (parseFunction r)
    let _ ← expectKeyword "'\x7d'" (· == .rBrace)
    pure ⟨forType, methods⟩
  else errorAt span "expected 'on' in `methods on <Type> \x7b … \x7d`"

/-! ## Imports -/

/-- The modules of a path, up to the item, the list or the star. Source: parser.rs:883-905 -/
def parseUseModule (first : String) : Parse String :=
  loop (fun path => do
    let stops ← check fun kind => kind == .lBrace || kind == .star
    let nextIsPathsep ← checkAhead 1 (· == .colonColon)
    if stops || !nextIsPathsep then pure (.inr path)
    else do
      let (segment, _) ← ident
      let _ ← expectKeyword "'::' in `use` path" (· == .colonColon)
      pure (.inl (path ++ "__" ++ segment))) first

/-- `as name`, if it is there. Source: parser.rs:937-946, 984-992 -/
def parseAlias : Parse (Option (String × Span)) := do
  match ← matchToken (· == .as_) with
  | none => pure none
  | some _ => do
    let x ← ident
    pure (some x)

/-- An entry of `use foo::{…};`. Source: parser.rs:932-947 -/
def parseUseItem : Parse (String × Option String × Span) := do
  let (item, span) ← ident
  let alias_ ← parseAlias
  pure (item, alias_.map Prod.fst, span.merge ((alias_.map Prod.snd).getD span))

/-- The list of `use foo::{…};`. Source: parser.rs:926-978 -/
def parseUseItems (isPub : Bool) (start : Span) (module_ : String) : Parse UseDecl := do
  let _ ← bump
  let items ← unlessClosed TokenKind.endsBody (commaSeparated parseUseItem (· == .rBrace))
  let _ ← expectKeyword "'\x7d' in `use \x7b … \x7d` list" (· == .rBrace)
  let semi ← expectKeyword "';'" (· == .semicolon)
  if items.isEmpty then
    errorAt (start.merge semi.span) "`use foo::\x7b\x7d` must list at least one item"
  else pure (.pathMulti (items.map fun item =>
    ⟨module_, item.1, item.2.1, isPub, start.merge item.2.2⟩))

/-- `use module::…;` Source: parser.rs:875-1000 -/
def parseUsePath (isPub : Bool) (start : Span) : Parse UseDecl := do
  let (first, _) ← ident
  let _ ← expectKeyword "'::' in `use` path" (· == .colonColon)
  let module_ ← parseUseModule first
  if ← check (· == .star) then do
    let star ← bump
    let semi ← expectKeyword "';'" (· == .semicolon)
    pure (.path ⟨module_, "*", none, isPub, start.merge (semi.span.merge star.span)⟩)
  else if ← check (· == .lBrace) then parseUseItems isPub start module_
  else do
    let (item, _) ← ident
    let alias_ ← parseAlias
    let semi ← expectKeyword "';'" (· == .semicolon)
    pure (.path ⟨module_, item, alias_.map Prod.fst, isPub, start.merge semi.span⟩)

/-- Source: parser.rs:852-1001 -/
def parseUse (isPub : Bool) : Parse UseDecl := do
  let start ← expectKeyword "'use'" (· == .use)
  if ← check TokenKind.isStr then do
    let token ← expectString
    let semi ← expectKeyword "';'" (· == .semicolon)
    let path ← strText token
    pure (.file ⟨path, start.span.merge semi.span⟩)
  else parseUsePath isPub start.span

/-- Source: parser.rs:1045-1058 -/
def parseIntent : Parse String := do
  let _ ← expectKeyword "intent" (· == .intent)
  let token ← expectString
  let _ ← expectKeyword "';'" (· == .semicolon)
  strText token

/-! ## Modules -/

/-- `(kosh)` behind `pub`, if it is there; any other qualifier is skipped.
Source: parser.rs:330-368 -/
def parseQualifier : Parse (Bool × Bool) := do
  let kinds ← kindsFrom 0
  match kinds with
  | .lParen :: rest =>
    if rest.take 2 = [.ident "kosh", .rParen] then do
      let _ ← bump
      let _ ← bump
      let _ ← bump
      pure (true, true)
    else do
      let token ← current
      pushError ⟨token.span, "only `pub(kosh)` is supported as a `pub(…)` " ++
        "qualifier in v1 — write `pub` for kosh-wide visibility or `pub(kosh)` to mark an " ++
        "item as internal to this kosh"⟩
      let _ ← bump
      skipWhile fun kind => !(kind == .rParen || kind == .rBrace || kind == .eof)
      let _ ← matchToken (· == .rParen)
      pure (true, false)
  | _ => pure (true, false)

/-- `pub` and `pub(kosh)`. Source: parser.rs:324-371 -/
def parseVisibility : Parse (Bool × Bool) := do
  match ← matchToken (· == .pub) with
  | none => pure (false, false)
  | some _ => parseQualifier

/-- What has been read of the body of a module. -/
structure ModuleBody where
  items : Items Visible
  modules : List (Visible ModuleDecl)
  usePaths : List UsePath

/-- `use` or `pub use` in a module. Source: parser.rs:292-314 -/
def parseModuleUse (b : ModuleBody) : Parse ModuleBody := do
  let isPub ← matchToken (· == .pub)
  match ← (parseUse isPub.isSome).attempt with
  | .ok (.path use) => pure { b with usePaths := b.usePaths ++ [use] }
  | .ok (.pathMulti uses) => pure { b with usePaths := b.usePaths ++ uses }
  | .ok (.file use) => do
    pushError ⟨use.span,
      "`use \"path\";` (file imports) are only valid at the top level, not inside `module`"⟩
    pure b
  | .error e => do
    pushError e
    syncPastBrace
    pure b

/-- An item of a module behind its visibility, `nested` being a module.
Source: parser.rs:374-470 -/
def parseModuleItem (nested : Parse ModuleDecl) (visibility : Bool × Bool) (b : ModuleBody) :
    Parse ModuleBody := do
  let token ← current
  let items := b.items
  match token.kind with
  | .module_ => recover syncPastBrace nested (fun x =>
      { b with modules := b.modules ++ [⟨x, visibility.1, visibility.2⟩] }) b
  | .struct => recover syncPastBrace (parseStructDecl r) (fun x =>
      { b with items := { items with
        structs := items.structs ++ [⟨x, visibility.1, visibility.2⟩] } }) b
  | .enum => recover syncPastBrace (parseEnumDecl r) (fun x =>
      { b with items := { items with
        enums := items.enums ++ [⟨x, visibility.1, visibility.2⟩] } }) b
  | .interface => recover syncPastBrace (parseInterfaceDecl r) (fun x =>
      { b with items := { items with
        interfaces := items.interfaces ++ [⟨x, visibility.1, visibility.2⟩] } }) b
  | .implement => recover syncPastBrace (parseImplDecl r) (fun x =>
      { b with items := { items with
        impls := items.impls ++ [⟨x, visibility.1, visibility.2⟩] } }) b
  | .const => recover syncPastBrace (parseConstDecl r) (fun x =>
      { b with items := { items with
        consts := items.consts ++ [⟨x, visibility.1, visibility.2⟩] } }) b
  | .type => recover syncPastBrace (parseTypeAlias r) (fun x =>
      { b with items := { items with
        typeAliases := items.typeAliases ++ [⟨x, visibility.1, visibility.2⟩] } }) b
  | .methods => recover syncPastBrace (parseMethodsBlock r) (fun x =>
      { b with items := { items with
        methodsBlocks := items.methodsBlocks ++ [⟨x, visibility.1, visibility.2⟩] } }) b
  | .fn | .pureKw => recover syncPastBrace (parseFunction r) (fun x =>
      { b with items := { items with
        functions := items.functions ++ [⟨x, visibility.1, visibility.2⟩] } }) b
  | _ => do
    pushError ⟨token.span, "expected an item declaration (fn / struct / enum / interface / " ++
      "implement / methods / const / type) inside `module`"⟩
    if token.kind == .rBrace then pure b
    else do
      let _ ← bump
      pure b

/-- A part of the body of a module. Source: parser.rs:269-470 -/
def parseModulePart (nested : Parse ModuleDecl) (b : ModuleBody) : Parse ModuleBody := do
  let token ← current
  let usesNext ← checkAhead 1 (· == .use)
  if token.kind == .use || (token.kind == .pub && usesNext) then parseModuleUse b
  else do
    let visibility ← parseVisibility
    parseModuleItem r nested visibility b

/-- An error for each import of all items. Source: parser.rs:481-490 -/
def rejectGlobs (usePaths : List UsePath) : Parse Unit :=
  Parser.modify fun s => { s with errors := s.errors ++
    (usePaths.filter fun u => u.item == "*").map fun u => ⟨u.span,
      "glob `use foo::*;` inside a module is not yet supported — list the items explicitly or " ++
        "hoist the import to the top level"⟩ }

/-- Modules up to a depth. Source: parser.rs:250-507 -/
def parseModuleDecl : Nat → Parse ModuleDecl
  | 0 => Parser.stuck
  | depth + 1 => do
    let _ ← expectKeyword "'module'" (· == .module_)
    let (name, _) ← ident
    let _ ← expectKeyword "'\x7b' after module name" (· == .lBrace)
    let body ← loop (fun b => do
      if ← check TokenKind.endsBody then pure (.inr b)
      else do
        let b ← parseModulePart r (parseModuleDecl depth) b
        pure (.inl b)) (⟨Items.empty, [], []⟩ : ModuleBody)
    let _ ← expectKeyword "'\x7d' to close module" (· == .rBrace)
    rejectGlobs body.usePaths
    pure (.mk name body.items body.modules body.usePaths)

/-! ## Files -/

/-- A `use` of a file. -/
def ProgramDecl.addUse (p : ProgramDecl) : UseDecl → ProgramDecl
  | .file use => { p with uses := p.uses ++ [use] }
  | .path use => { p with usePaths := p.usePaths ++ [use] }
  | .pathMulti uses => { p with usePaths := p.usePaths ++ uses }

def ProgramDecl.addFunction (p : ProgramDecl) (f : FunctionDecl) : ProgramDecl :=
  { p with items := { p.items with functions := p.items.functions ++ [f] } }

/-- A declaration of a file. Source: parser.rs:69-226 -/
def parseTopLevel (nested : Parse ModuleDecl) (p : ProgramDecl) : Parse ProgramDecl := do
  let token ← current
  let externNext ← checkAhead 1 (· == .externKw)
  let items := p.items
  match token.kind with
  | .module_ => recover syncToTopLevel nested (fun x => { p with modules := p.modules ++ [x] }) p
  | .intent =>
    recover syncToTopLevel parseIntent
      (fun x => { p with intents := p.intents ++ [x] }) p
  | .use => recover syncToTopLevel (parseUse false) p.addUse p
  | .struct =>
    recover syncToTopLevel (parseStructDecl r)
      (fun x => { p with items := { items with structs := items.structs ++ [x] } }) p
  | .enum =>
    recover syncToTopLevel (parseEnumDecl r)
      (fun x => { p with items := { items with enums := items.enums ++ [x] } }) p
  | .interface =>
    recover syncToTopLevel (parseInterfaceDecl r)
      (fun x => { p with items := { items with interfaces := items.interfaces ++ [x] } }) p
  | .implement =>
    recover syncToTopLevel (parseImplDecl r)
      (fun x => { p with items := { items with impls := items.impls ++ [x] } }) p
  | .const =>
    recover syncToTopLevel (parseConstDecl r)
      (fun x => { p with items := { items with consts := items.consts ++ [x] } }) p
  | .type =>
    recover syncToTopLevel (parseTypeAlias r)
      (fun x => { p with items := { items with typeAliases := items.typeAliases ++ [x] } }) p
  | .methods =>
    recover syncToTopLevel (parseMethodsBlock r)
      (fun x => { p with items := { items with methodsBlocks := items.methodsBlocks ++ [x] } }) p
  | .hash => recover syncToTopLevel (parseAttributedFn r) p.addFunction p
  | .pureKw =>
    if externNext then do
      let _ ← bump
      recover syncToTopLevel (parseExternFn r)
        (fun f => p.addFunction { f with isPure := true }) p
    else recover syncToTopLevel (parseFunction r) p.addFunction p
  | .fn => recover syncToTopLevel (parseFunction r) p.addFunction p
  | .externKw => recover syncToTopLevel (parseExternFn r) p.addFunction p
  | _ => do
    pushError ⟨token.span, "expected 'use', 'intent', 'struct', or 'fn'"⟩
    let _ ← bump
    syncToTopLevel
    pure p

/-- Modules may be nested up to the given depth. Source: parser.rs:56-243 -/
def parseProgram (depth : Nat) : Parse ProgramDecl :=
  loop (fun p => do
    if ← check (· == .eof) then pure (.inr p)
    else do
      let p ← parseTopLevel r (parseModuleDecl r depth) p
      pure (.inl p)) ⟨[], [], Items.empty, [], []⟩

end Parsers

/-- The declarations of a file and the errors in it. Source: parser.rs:18-22 -/
def parse (tokens : List Token) : Outcome (ProgramDecl × List Diagnostic) :=
  let s := ParserState.new tokens
  match parseProgram (entries (s.left + 1)) (s.left + 1) s with
  | .done (.ok program, s) => .done (program, s.errors)
  -- the source has no error here: every error is recorded before
  | .done (.error _, _) => .aborted
  | .aborted => .aborted
  | .stuck => .stuck

end Vani.Syntax
