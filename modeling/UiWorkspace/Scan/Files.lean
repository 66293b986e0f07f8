import UiWorkspace.FileTree
import UiWorkspace.Markup.Document
import UiWorkspace.Scan.Ignore
import UiWorkspace.Settings.Basic

/-! The files of a workspace below a directory: its manifests, documents and scripts but
for hidden files and those that patterns or ignore files leave out. -/
namespace UiWorkspace.Scan

open UiWorkspace.Text

/-- The files to be read, in the order in which the groups are read. -/
structure WorkspaceFiles where
  manifests : List FilePath
  fragments : List FilePath
  views : List FilePath
  scripts : List FilePath
deriving Repr

namespace WorkspaceFiles

def empty : WorkspaceFiles := ⟨[], [], [], []⟩

def all (f : WorkspaceFiles) : List FilePath := f.manifests ++ f.fragments ++ f.views ++ f.scripts

def append (f g : WorkspaceFiles) : WorkspaceFiles :=
  ⟨f.manifests ++ g.manifests, f.fragments ++ g.fragments, f.views ++ g.views,
    f.scripts ++ g.scripts⟩

def ofPaths (paths : List FilePath) : WorkspaceFiles :=
  let group (role : FileRole) : List FilePath :=
    (paths.filter fun p => FileRole.ofPath p == role).mergeSort fun a b => FilePath.compare a b != .gt
  ⟨group .manifest, group (.markup .fragment), group (.markup .view), group .script⟩

end WorkspaceFiles

def ignoreFiles : List Place :=
  [[".ui5atlasignore"], [".ignore"], [".gitignore"], [".git", "info", "exclude"]]

def above (place : Place) : List Place :=
  ((List.range place.length).map fun n => place.take n).reverse

/-- What the ignore files with one name say of a place: the nearest that says something
decides. -/
def ignoreVerdict? (t : FileTree) (file entry : Place) (isDirectory : Bool) : Option Bool :=
  (above entry).findSome? fun directory =>
    (t.fileAt? (directory ++ file)).bind fun text =>
      IgnoreRule.verdict? (IgnoreRule.ofText text) (join "/" (entry.drop directory.length)) isDirectory

def isHidden (entry : Place) : Bool := (entry.getLast?.map (startsWith ".")).getD false

/-- Whether a walk from `root` leaves an entry out. Patterns come before ignore files, and
these before the rule for hidden names. -/
def skips (t : FileTree) (excluded : List IgnoreRule) (root entry : Place) (isDirectory : Bool) : Bool :=
  let decided? :=
    (IgnoreRule.verdict? excluded (join "/" (entry.drop root.length)) isDirectory).orElse fun _ =>
      ignoreFiles.findSome? fun file => ignoreVerdict? t file entry isDirectory
  decided?.getD (isHidden entry)

def reaches (t : FileTree) (excluded : List IgnoreRule) (root file : Place) : Bool :=
  (List.range (file.length - root.length)).all fun n =>
    let entry := file.take (root.length + n + 1)
    !skips t excluded root entry (entry.length != file.length)

/-- The paths of the files below a root, written from the root on. A root that is a file
is found as it is. -/
def filesBelow (t : FileTree) (patterns : List String) (base : Place) (root : FilePath) :
    List FilePath :=
  match t.find? base root with
  | none => []
  | some place =>
    if t.isFile place then [root]
    else
      let excluded := IgnoreRule.ofPatterns patterns
      t.files.filterMap fun f =>
        match after? place f.1 with
        | some names => if reaches t excluded place f.1 then some (names.foldl FilePath.push root) else none
        | none => none

def collect (t : FileTree) (settings : Settings) (base : Place) (root : FilePath) : WorkspaceFiles :=
  WorkspaceFiles.ofPaths (filesBelow t settings.excludePatterns base root)

end UiWorkspace.Scan
