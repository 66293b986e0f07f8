import UiWorkspace.FilePath
import UiWorkspace.Table

/-! A tree of directories and text files. Places in it are lists of names from the root;
a path leads to a place by going through directories that exist. -/
namespace UiWorkspace

/-- A file or directory, by the names that lead to it. -/
abbrev Place := List String

structure FileTree where
  files : List (Place × String)
  /-- Directories that may hold no file; those above files need not be listed. -/
  directories : List Place
deriving Repr

namespace FileTree

def empty : FileTree := ⟨[], []⟩

/-- Whether `place` is a directory: it lies above a file or is, or lies above, a listed one. -/
def isDirectory (t : FileTree) (place : Place) : Bool :=
  place.isEmpty
    || t.directories.any (fun d => (Text.after? place d).isSome)
    || t.files.any (fun f => f.1 != place && (Text.after? place f.1).isSome)

def isFile (t : FileTree) (place : Place) : Bool := Table.has place t.files

def fileAt? (t : FileTree) (place : Place) : Option String := t.files.lookup place

/-- One step of a path. Only a directory can be left, by going on, up or staying. -/
def step (t : FileTree) (piece : String) (place : Place) : Option Place :=
  if !t.isDirectory place then none
  else if piece = "" || piece = "." then some place
  else if piece = ".." then some place.dropLast
  else some (place ++ [piece])

/-- The place a path leads to from a directory, whether or not something is there. -/
def follow? (t : FileTree) (base : Place) (path : FilePath) : Option Place :=
  let start := if path.isAbsolute then [] else base
  let pieces := (Text.split '/' path.text).drop (if path.isAbsolute then 1 else 0)
  if path.text = "" then none
  else pieces.foldl (fun place? piece => place?.bind (t.step piece)) (some start)

def find? (t : FileTree) (base : Place) (path : FilePath) : Option Place :=
  (t.follow? base path).filter fun place => t.isFile place || t.isDirectory place

def read? (t : FileTree) (base : Place) (path : FilePath) : Option String :=
  (t.follow? base path).bind t.fileAt?

/-- The place a path names from a directory, by its pieces alone. -/
def target (base : Place) (path : FilePath) : Place :=
  path.components.foldl
    (fun place component =>
      match component with
      | .root => []
      | .here => place
      | .up => place.dropLast
      | .name n => place ++ [n]) base

def pathOf (place : Place) : FilePath := ⟨"/" ++ Text.join "/" place⟩

def write (t : FileTree) (place : Place) (text : String) : FileTree :=
  { t with files := Table.put place text t.files }

def remove (t : FileTree) (place : Place) : FileTree :=
  ⟨Table.erase place t.files, place.dropLast :: t.directories⟩

/-- The files that differ between two trees: with their new text, or without one if they
are gone. -/
def changes (old new : FileTree) : List (Place × Option String) :=
  (new.files.filterMap fun f =>
    if old.fileAt? f.1 = some f.2 then none else some (f.1, some f.2))
    ++ (old.files.filterMap fun f => if new.isFile f.1 then none else some (f.1, none))

def filesIn (t : FileTree) (directory : Place) : List (String × String) :=
  t.files.filterMap fun f =>
    match Text.after? directory f.1 with
    | some [name] => some (name, f.2)
    | _ => none

def setFilesIn (t : FileTree) (directory : Place) (files : List (String × String)) : FileTree :=
  let others := t.files.filter fun f =>
    match Text.after? directory f.1 with
    | some [_] => false
    | _ => true
  { t with files := others ++ files.map fun f => (directory ++ [f.1], f.2) }

end FileTree

end UiWorkspace
