import UiWorkspace.CommandLine.Reads

/-! The program. It takes the files a command can read into a tree, runs the command on the
tree, and writes what the command changed. -/
namespace UiWorkspace.CommandLine

def variableNames : List String :=
  ["HOME", "XDG_CACHE_HOME", "ATLAS_ROOT", "ATLAS_VERSION", "ATLAS_WORKSPACE_ROOT", "ATLAS_DEBUG",
    "ATLAS_FRAMEWORK", "ATLAS_FRAMEWORK__VERSION", "ATLAS_FRAMEWORK__METADATA_PATH",
    "ATLAS_FRAMEWORK__ROOT_CLASS", "ATLAS_INDEXING", "ATLAS_INDEXING__EXCLUDE_PATTERNS",
    "ATLAS_INDEXING__FOLLOW_LINKS", "ATLAS_RESOLUTION", "ATLAS_RESOLUTION__MAX_INHERITANCE_HOPS",
    "ATLAS_RESOLUTION__MAX_RESOLUTION_DEPTH", "ATLAS_CACHE", "ATLAS_CACHE__ENABLED",
    "ATLAS_CACHE__DIR"]

def readVariables : List String → IO (List (String × String))
  | [] => return []
  | name :: names => do
    let rest ← readVariables names
    match ← IO.getEnv name with
    | some value => return (name, value) :: rest
    | none => return rest

def pathText (place : Place) : String := (FileTree.pathOf place).text

/-- Takes a file, or all files below a directory, into a tree. What cannot be read is left
out. -/
partial def takeIn (t : FileTree) (place : Place) : IO FileTree := do
  let path ← IO.FS.realPath (pathText place)
  if ← path.isDir then
    let mut t : FileTree := { t with directories := place :: t.directories }
    for entry in ← path.readDir do
      t ← takeIn t (place ++ [entry.fileName])
    return t
  else if t.isFile place then return t
  else
    try return t.write place (← IO.FS.readFile (pathText place))
    catch _ => return t

def takeInAll (t : FileTree) : List Place → IO FileTree
  | [] => return t
  | place :: places => do takeInAll (← takeIn t place) places

def putBack : List (Place × Option String) → IO Unit
  | [] => return ()
  | (place, text?) :: rest => do
    match text? with
    | some text =>
      IO.FS.createDirAll (pathText place.dropLast)
      IO.FS.writeFile (pathText place) text
    | none => IO.FS.removeFile (pathText place)
    putBack rest

def printAll (out : IO.FS.Stream) : List String → IO Unit
  | [] => return ()
  | line :: lines => do
    out.putStrLn line
    printAll out lines

def execute (args : List String) : IO UInt32 := do
  let started ← IO.monoMsNow
  let here := FileTree.target [] ⟨(← IO.currentDir).toString⟩
  let environment ← readVariables variableNames
  let bare : Surroundings := ⟨.empty, here, environment⟩
  let settled := { bare with tree := ← takeInAll .empty (bare.requestSettings args) }
  let full := { settled with tree := ← takeInAll settled.tree (settled.requestPlaces args) }
  let outcome := full.run args
  putBack (FileTree.changes full.tree outcome.tree)
  printAll (← IO.getStderr) outcome.complaints
  let ended ← IO.monoMsNow
  printAll (← IO.getStdout) (outcome.lines (elapsedText (ended - started)))
  return UInt32.ofNat outcome.exit

end UiWorkspace.CommandLine

def main (args : List String) : IO UInt32 := UiWorkspace.CommandLine.execute args
