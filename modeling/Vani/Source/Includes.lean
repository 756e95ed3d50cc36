import Vani.Library.Outcome
import Vani.Source.Path
import Mathlib.Data.List.Basic

/-!
# Resolution of includes

The walk over the files that a file uses, each of them before the file itself. What the walk
asks of its surroundings are parameters: the file system, and the lexer and the parser, of
which only the paths of the `use` declarations matter here. The walk leaves what it has done
so far also where it fails.
-/

set_option autoImplicit false

namespace Vani.Source

open Vani.Library

/-!
## The map from the combined buffer to its files

Where the text of each file lies in the buffer that is compiled, so that an offset into the
buffer can be reported as an offset into a file. Texts are UTF-8, offsets count bytes.
-/

/-- Source: diagnostic.rs:97-103 -/
structure FileEntry where
  path : String
  source : String
  start : Nat
  deriving DecidableEq

/-- Source: diagnostic.rs:92-95 -/
structure FileMap where
  entries : List FileEntry
  deriving DecidableEq

/-- The last offset of an entry. -/
def FileEntry.stop (e : FileEntry) : Nat := e.start + e.source.utf8ByteSize

namespace FileMap

/-- Source: diagnostic.rs:106-108 -/
def new : FileMap := ⟨[]⟩

/-- Source: diagnostic.rs:110-112 -/
def push (m : FileMap) (path source : String) (start : Nat) : FileMap :=
  ⟨m.entries ++ [⟨path, source, start⟩]⟩

/-- Source: diagnostic.rs:116-127 -/
def lookup (m : FileMap) (globalOffset : Nat) : Option (FileEntry × Nat) :=
  (m.entries.reverse.find? fun e => e.start ≤ globalOffset ∧ globalOffset ≤ e.stop).map
    fun e => (e, globalOffset - e.start)

/-- Source: diagnostic.rs:129-131 -/
def isEmpty (m : FileMap) : Bool := m.entries.isEmpty

/-- Source: diagnostic.rs:136-142 -/
def endOffset (m : FileMap) : Nat := (m.entries.map FileEntry.stop).max?.getD 0

/-- The entry in another frame. -/
def shifted (shift : Nat) (e : FileEntry) : FileEntry := { e with start := e.start + shift }

/-- The merged map and the shift of the other one. Source: diagnostic.rs:157-168 -/
def extendWith (m other : FileMap) : FileMap × Nat :=
  let shift := m.endOffset + if m.entries.isEmpty then 0 else 1
  (⟨m.entries ++ other.entries.map (shifted shift)⟩, shift)

end FileMap

/-- What the walk asks of its surroundings. -/
structure Surroundings where
  canonicalize : Path → Except String Path
  readToString : Path → Except String String
  /-- The paths of the `use` declarations of a source, or the offset and the message of a lex
  error. -/
  uses : String → Except (Nat × String) (List String)

/-- What the walk changes. -/
structure Resolution where
  visited : List Path
  out : String
  fileMap : FileMap
  deriving DecidableEq

/-- Before the first file. -/
def Resolution.initial : Resolution := ⟨[], "", FileMap.new⟩

namespace Surroundings

variable (fs : Surroundings)

/-- The path of a used file, relative to the directory of the file that uses it. -/
def target (canonical : Path) (u : String) : Path := (canonical.parent.getD ".").join u

/-- The text of a file and the paths that it uses. -/
def load (canonical : Path) : Except String (String × List String) :=
  match fs.readToString canonical with
  | .error e => .error ("failed to read '" ++ canonical ++ "': " ++ e)
  | .ok source =>
    match fs.uses source with
    | .error (start, message) =>
      .error ("lex error in '" ++ canonical ++ "' at byte " ++ toString start ++ ": " ++ message)
    | .ok us => .ok (source, us)

/-- The text of a file goes to the end of the buffer. -/
def append (s : Resolution) (canonical : Path) (source : String) : Resolution :=
  { s with
    out := s.out ++ source ++ "\n"
    fileMap := s.fileMap.push canonical source s.out.utf8ByteSize }

/-- The files of a list, until one fails. -/
def forEach (run : Path → Resolution → Outcome (Except String Unit × Resolution)) :
    List Path → Resolution → Outcome (Except String Unit × Resolution)
  | [], s => pure (.ok (), s)
  | p :: ps, s => do
    match ← run p s with
    | (.error e, s) => pure (.error e, s)
    | (.ok (), s) => forEach run ps s

/-- Source: lib.rs:121-160 -/
def resolveUses : Nat → Path → Resolution → Outcome (Except String Unit × Resolution)
  | 0, _, _ => .stuck
  | fuel + 1, path, s =>
    match fs.canonicalize path with
    | .error e => pure (.error ("failed to canonicalize '" ++ path ++ "': " ++ e), s)
    | .ok canonical =>
      if canonical ∈ s.visited then pure (.ok (), s)
      else
        let s := { s with visited := canonical :: s.visited }
        match fs.load canonical with
        | .error e => pure (.error e, s)
        | .ok (source, us) => do
          match ← forEach (resolveUses fuel) (us.map (target canonical)) s with
          | (.error e, s) => pure (.error e, s)
          | (.ok (), s) => pure (.ok (), append s canonical source)

end Surroundings

end Vani.Source
