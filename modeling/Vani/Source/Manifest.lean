import Vani.Library.Outcome
import Vani.Source.Path

/-!
# Manifests

`vani.toml`: a minimal subset of TOML, read line by line, and the loader, which reads the
manifest of every dependency for the path of its entry, and for that the manifests of its
dependencies in turn. The file system is a parameter.
-/

set_option autoImplicit false

namespace Vani.Source

open Vani.Library

/-! ## Texts -/

/-- `char::is_whitespace`, the Unicode property `White_Space`. -/
def isWhitespace (c : Char) : Bool :=
  let n := c.toNat
  9 ≤ n && n ≤ 13 || n == 32 || n == 0x85 || n == 0xA0 || n == 0x1680 ||
    0x2000 ≤ n && n ≤ 0x200A || n == 0x2028 || n == 0x2029 || n == 0x202F || n == 0x205F ||
    n == 0x3000

/-- `trim`. -/
def trim (cs : List Char) : List Char :=
  ((cs.dropWhile isWhitespace).reverse.dropWhile isWhitespace).reverse

/-- A line without a carriage return at its end. -/
def stripCr (line : List Char) : List Char :=
  if line.getLast? = some '\r' then line.dropLast else line

/-- `lines`. -/
def lines (cs : List Char) : List (List Char) :=
  let pieces := cs.splitOn '\n'
  let last := pieces.getLast?.getD []
  pieces.dropLast.map stripCr ++ if last = [] then [] else [last]

/-- What stands before and after the first occurrence of a character. -/
def splitFirst (c : Char) : List Char → Option (List Char × List Char)
  | [] => none
  | d :: ds => if d = c then some ([], ds) else (splitFirst c ds).map fun s => (d :: s.1, s.2)

/-- What stands before the last occurrence of a character. -/
def beforeLast (c : Char) (cs : List Char) : Option (List Char) :=
  (splitFirst c cs.reverse).map fun s => s.2.reverse

/-! ## The manifest -/

/-- Source: manifest.rs:56-62 -/
inductive ManifestError
  | io (message : String)
  | parse (line : Nat) (message : String)
  | missingField (section_ key : String)
  | unknownSection (name : String)
  deriving DecidableEq

/-- Source: manifest.rs:64-81 -/
def ManifestError.display : ManifestError → String
  | .io m => "vani.toml: " ++ m
  | .parse line message => "vani.toml:" ++ toString line ++ ": " ++ message
  | .missingField section_ key =>
    "vani.toml: missing required `" ++ key ++ "` in [" ++ section_ ++ "] section"
  | .unknownSection name => "vani.toml: unknown section [" ++ name ++ "]"

/-- Source: manifest.rs:47-54 -/
structure Dependency where
  name : String
  entryPath : Path
  deriving DecidableEq

/-- Source: manifest.rs:30-45 -/
structure Manifest where
  packageName : String
  entryPath : Path
  rootDir : Path
  deps : List Dependency
  deriving DecidableEq

/-- The keys of the sections. -/
abbrev Sections := List (String × List (String × String))

/-- What the parser has read so far. -/
structure Toml where
  sections : Sections
  deps : List (String × String)
  current : Option String
  deriving DecidableEq

/-- `entry(key)`: the value, or a default one, is changed. -/
def upsert {β : Type} (key : String) (default : β) (change : β → β) :
    List (String × β) → List (String × β)
  | [] => [(key, change default)]
  | (k, v) :: rest => if k = key then (k, change v) :: rest else (k, v) :: upsert key default change rest

/-- A section header. Source: manifest.rs:184-198 -/
def sectionHeader (lineNo : Nat) (trimmed : List Char) (t : Toml) : Except ManifestError Toml :=
  match splitFirst ']' trimmed with
  | none => .error (.parse lineNo "section header missing closing `]`")
  | some (before, _) =>
    let name := String.ofList (trim (before.drop 1))
    if name = "package" ∨ name = "deps" then
      .ok { t with sections := upsert name [] id t.sections, current := some name }
    else .error (.unknownSection name)

/-- The value of a dependency, from the text after its opening brace on.
Source: manifest.rs:211-247 -/
def inlineTable (lineNo : Nat) (key : String) (valueRaw : List Char) : Except ManifestError String :=
  match beforeLast '}' valueRaw with
  | none => .error (.parse lineNo "inline table missing closing `\x7d`")
  | some before =>
    match splitFirst '=' (before.drop 1) with
    | none => .error (.parse lineNo "inline table needs `path = \"...\"`")
    | some (innerKey, innerVal) =>
      let innerKey := String.ofList (trim innerKey)
      if innerKey ≠ "path" then
        .error (.parse lineNo
          ("deps `" ++ key ++ "`: only the `path` key is recognized in v1; got `" ++ innerKey ++ "`"))
      else
        match trim innerVal with
        | '"' :: afterOpen =>
          match splitFirst '"' afterOpen with
          | none => .error (.parse lineNo "path value missing closing `\"`")
          | some (value, _) => .ok (String.ofList value)
        | _ => .error (.parse lineNo "path value must be a quoted string")

/-- A key and its value. Source: manifest.rs:199-272 -/
def keyValue (lineNo : Nat) (trimmed : List Char) (t : Toml) : Except ManifestError Toml :=
  match splitFirst '=' trimmed with
  | none => .error (.parse lineNo "expected `key = …`")
  | some (before, after) =>
    let key := String.ofList (trim before)
    let valueRaw := trim after
    match t.current with
    | none => .error (.parse lineNo "key/value outside any [section]")
    | some current =>
      if current = "deps" ∧ valueRaw.head? = some '{' then
        match inlineTable lineNo key valueRaw with
        | .error e => .error e
        | .ok path => .ok { t with deps := t.deps ++ [(key, path)] }
      else
        match valueRaw with
        | '"' :: afterOpen =>
          match splitFirst '"' afterOpen with
          | none => .error (.parse lineNo "string value missing closing `\"`")
          | some (value, _) =>
            let value := String.ofList value
            .ok { t with sections := upsert current [] (upsert key value fun _ => value) t.sections }
        | _ => .error (.parse lineNo
            ("value of `" ++ key ++ "` must be a quoted string (or an inline table " ++
              "`\x7b path = \"...\" \x7d` in [deps])"))

/-- The lines from one on. -/
def tomlLines : Nat → List (List Char) → Toml → Except ManifestError Toml
  | _, [], t => .ok t
  | lineNo, raw :: rest, t => do
    let trimmed := trim raw
    if trimmed = [] ∨ trimmed.head? = some '#' then tomlLines (lineNo + 1) rest t
    else if trimmed.head? = some '[' then
      tomlLines (lineNo + 1) rest (← sectionHeader lineNo trimmed t)
    else tomlLines (lineNo + 1) rest (← keyValue lineNo trimmed t)

/-- Source: manifest.rs:172-275 -/
def parseTomlMinimal (source : String) : Except ManifestError (Sections × List (String × String)) := do
  let t ← tomlLines 1 (lines source.toList) ⟨[], [], none⟩
  pure (t.sections, t.deps)

/-! ## The loader -/

/-- What a manifest says itself. -/
structure PackageText where
  name : String
  entryRel : String
  deps : List (String × String)
  deriving DecidableEq

/-- `fs::read_to_string`. -/
abbrev ReadFile := Path → Except String String

variable (read : ReadFile)

/-- The part of the loader before the dependencies. Source: manifest.rs:102-124 -/
def readPackage (manifestPath : Path) : Except ManifestError PackageText :=
  match read manifestPath with
  | .error e => .error (.io ("read '" ++ manifestPath ++ "': " ++ e))
  | .ok source => do
    let (sections, deps) ← parseTomlMinimal source
    match sections.lookup "package" with
    | none => .error (.missingField "package" "package")
    | some pkg =>
      match pkg.lookup "name" with
      | none => .error (.missingField "package" "name")
      | some name =>
        match pkg.lookup "entry" with
        | none => .error (.missingField "package" "entry")
        | some entryRel => .ok ⟨name, entryRel, deps⟩

/-- The directory of a manifest. -/
def rootDir (manifestPath : Path) : Path := manifestPath.parent.getD "."

/-- The manifest of a dependency. -/
def depManifest (manifestPath : Path) (rel : String) : Path :=
  ((rootDir manifestPath).join rel).join "vani.toml"

/-- The dependencies, until one fails. Source: manifest.rs:133-147 -/
def loadDeps (run : Path → Outcome (Except ManifestError Manifest)) (manifestPath : Path) :
    List (String × String) → Outcome (Except ManifestError (List Dependency))
  | [] => pure (.ok [])
  | (name, rel) :: rest => do
    match ← run (depManifest manifestPath rel) with
    | .error e => pure (.error (.io ("loading dep '" ++ name ++ "' from '" ++
        depManifest manifestPath rel ++ "': " ++ e.display)))
    | .ok loaded =>
      match ← loadDeps run manifestPath rest with
      | .error e => pure (.error e)
      | .ok deps => pure (.ok (⟨name, loaded.entryPath⟩ :: deps))

/-- Source: manifest.rs:102-154 -/
def loadManifest : Nat → Path → Outcome (Except ManifestError Manifest)
  | 0, _ => .stuck
  | fuel + 1, manifestPath =>
    match readPackage read manifestPath with
    | .error e => pure (.error e)
    | .ok p => do
      match ← loadDeps (loadManifest fuel) manifestPath p.deps with
      | .error e => pure (.error e)
      | .ok deps =>
        pure (.ok ⟨p.name, (rootDir manifestPath).join p.entryRel, rootDir manifestPath, deps⟩)

end Vani.Source
