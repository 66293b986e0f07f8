import UiWorkspace.Error
import UiWorkspace.FileTree

/-! Where a workspace reads its files: a table of texts by path, or a tree of files, in
which relative paths start from a directory. -/
namespace UiWorkspace

inductive Source where
  | memory (files : List (FilePath × String))
  | tree (base : Place) (files : FileTree)

namespace Source

def texts : Source → List String
  | memory files => files.map Prod.snd
  | tree _ files => files.files.map Prod.snd

def holds : Source → FilePath → Bool
  | memory files, path => Table.has path files
  | tree base files, path => (files.read? base path).isSome

def read : Source → FilePath → Except ReadFault String
  | memory files, path =>
    match files.lookup path with
    | some text => .ok text
    | none => .error (.notHeld path)
  | tree base files, path =>
    match files.read? base path with
    | some text => .ok text
    | none => .error (.system "No such file or directory (os error 2)")

def write : Source → FilePath → String → Source
  | memory files, path, text => memory (Table.put path text files)
  | tree base files, path, text => tree base (files.write (FileTree.target base path) text)

def remove : Source → FilePath → Source
  | memory files, path => memory (Table.erase path files)
  | tree base files, path =>
    match files.follow? base path with
    | some place => tree base (if files.isFile place then files.remove place else files)
    | none => tree base files

end Source

end UiWorkspace
