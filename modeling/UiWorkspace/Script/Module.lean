import UiWorkspace.Table
import UiWorkspace.Text.Pieces
import UiWorkspace.Text.Span

/-! Module dependencies. A module path such as `sap/m/Button` or `./Base` stands for a
dotted class name; a dependency is bound to the parameter at its position. -/
namespace UiWorkspace.Script

open UiWorkspace.Text

structure Import where
  path : String
  className : String
  /-- The parameter bound to the dependency; empty for a destructured one. -/
  alias? : Option String
  span : Span
deriving DecidableEq, Repr

/-- Follows the segments of a relative path from a directory, given last segment first. -/
def follow : List String → List String → Option (List String)
  | directory, [] => some directory
  | directory, segment :: rest =>
    if segment = "." || segment = "" then follow directory rest
    else if segment = ".." then
      match directory with
      | [] => none
      | _ :: above => follow above rest
    else follow (segment :: directory) rest

/-- The class name a module path stands for. A path that begins with `./` or `../` is
followed from the directory of the current module; it may not leave the topmost one. -/
def moduleClassName? (path : String) (current? : Option String) : Option String :=
  let cs := dropTails ".js".toList (by decide) (trimChars path.toList)
  let bare := String.ofList cs
  if bare = "" then none
  else if !(startsWith "./" bare || startsWith "../" bare) then some (replaceChar '/' '.' bare)
  else do
    let current ← current?
    let directory := ((split '.' current).reverse).drop 1
    let reached ← follow directory (split '/' bare)
    if reached.isEmpty then none else some (join "." reached.reverse)

def aliasTable (imports : List Import) : List (String × String) :=
  imports.foldl
    (fun table i =>
      match i.alias? with
      | some a => Table.put a i.className table
      | none => table) []

end UiWorkspace.Script
