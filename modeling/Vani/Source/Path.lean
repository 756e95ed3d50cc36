import Mathlib.Data.List.Basic

/-!
# Paths

The operations on paths that the driver uses, on the text of a path and by the rules of Unix:
components are separated by slashes, empty components and a `.` that is not the first count
for nothing, and a path with a leading slash is absolute.
-/

set_option autoImplicit false

namespace Vani.Source

/-- The text of a path. -/
abbrev Path := String

namespace Path

/-- `is_absolute`. -/
def isAbsolute (p : Path) : Bool := p.toList.head? = some '/'

/-- `join`: an absolute path replaces the base, and else a separator goes between. -/
def join (base rel : Path) : Path :=
  if isAbsolute rel then rel
  else if base.toList = [] ∨ base.toList.getLast? = some '/' then base ++ rel
  else base ++ "/" ++ rel

/-- The text up to the body of a path: the root, or a leading `.`. -/
def beforeBody (cs : List Char) : List Char :=
  match cs with
  | '/' :: _ => ['/']
  | ['.'] => ['.']
  | '.' :: '/' :: _ => ['.']
  | _ => []

/-- The parts of a body between the slashes. -/
def parts (cs : List Char) : List (List Char) := cs.splitOn '/'

/-- A part that is no component. -/
def isNoComponent (part : List Char) : Bool := part = [] ∨ part = ['.']

/-- `parent`: the path without its last component, or nothing where there is none. -/
def parent (p : Path) : Option Path :=
  let front := beforeBody p.toList
  let body := parts (p.toList.drop front.length)
  match body.reverse.dropWhile isNoComponent with
  | [] => if front = ['.'] then some "" else none
  | _ :: rest =>
    some (String.ofList (front ++ ['/'].intercalate (rest.dropWhile isNoComponent).reverse))

end Path

end Vani.Source
