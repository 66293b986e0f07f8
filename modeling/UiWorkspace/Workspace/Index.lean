import UiWorkspace.Markup.Document
import UiWorkspace.Workspace.State

/-! Manifests and documents of a workspace. A class name leads to a file below the root of
the manifest that owns it, and a file below the root of a manifest has a class name. -/
namespace UiWorkspace

open UiWorkspace.Markup
open UiWorkspace.Text

def lastGreatest? {α : Type} (measure : α → Nat) (items : List α) : Option α :=
  items.foldl
    (fun best? item =>
      match best? with
      | none => some item
      | some best => if measure best ≤ measure item then some item else some best) none

inductive SourceKind where
  | script
  | controller
  | fragment
  | view
deriving DecidableEq, Repr

def SourceKind.endings : SourceKind → List String
  | script => [".js", ".controller.js"]
  | controller => [".controller.js"]
  | fragment => [".fragment.xml"]
  | view => [".view.xml"]

/-- The endings a file name loses when it becomes a class name, longer ones first. -/
def knownEndings : List String := [".controller.js", ".fragment.xml", ".view.xml", ".js", ".xml"]

namespace Workspace

def removeManifest (w : Workspace) (path : FilePath) : Workspace :=
  { w with manifests := w.manifests.filter fun m => !(m.path == path) }

/-- Puts a manifest in the place of those with its path or its component. -/
def addManifest (w : Workspace) (manifest : Manifest) : Workspace :=
  { w with
    manifests := (w.manifests.filter fun m =>
      !(m.path == manifest.path) && m.component != manifest.component) ++ [manifest] }

/-- Registers the manifest a text spells. A text that spells none takes the manifest that
was registered for the path away. -/
def registerManifest (path : FilePath) (text : String) : Query (Except WorkspaceError Manifest) := do
  match Manifest.parse path text with
  | .ok manifest =>
    modify (addManifest · manifest)
    return .ok manifest
  | .error e =>
    modify (removeManifest · path)
    return .error e

def readFile (w : Workspace) (path : FilePath) : Except WorkspaceError String :=
  (w.source.read path).mapError (.fileRead path)

def loadManifest (path : FilePath) : Query (Except WorkspaceError Manifest) := do
  match (← get).readFile path with
  | .ok text => registerManifest path text
  | .error e => return .error e

/-- The manifest with the longest name among those that own a class name. -/
def manifestForClass? (w : Workspace) (className : String) : Option Manifest :=
  lastGreatest? (fun m => m.component.utf8ByteSize) (w.manifests.filter fun m => m.owns className)

/-- The manifest with the deepest root among those whose root contains a path. -/
def manifestForPath? (w : Workspace) (path : FilePath) : Option Manifest :=
  lastGreatest? (fun m => m.root.components.length)
    (w.manifests.filter fun m => path.isBelow m.root)

/-- The path of a dotted name below a directory: directories for all but its last piece,
which makes the file name. -/
def pathBelow? (root : FilePath) (name ending : String) : Option FilePath :=
  let pieces := split '.' name
  match pieces.getLast? with
  | none => none
  | some stem =>
    if stem = "" then none
    else some ((pieces.dropLast.foldl FilePath.push root).push (stem ++ ending))

def candidate? (w : Workspace) (className ending : String) : Option FilePath := do
  let manifest ← w.manifestForClass? className
  pathBelow? manifest.root (← manifest.relativeName? className) ending

/-- The first of the paths at which there is a file. Each path asked about is recorded. -/
def firstHeld? : List FilePath → Query (Option FilePath)
  | [] => return none
  | path :: paths => do
    modify fun w => { w with probes := path :: w.probes }
    if (← get).source.holds path then return some path else firstHeld? paths

def sourcePath? (className : String) (kind : SourceKind) : Query (Option FilePath) := do
  let w ← get
  firstHeld? (kind.endings.filterMap (w.candidate? className))

def componentNames? (components : List FilePath.Component) : Option (List String) :=
  components.mapM fun
    | .name n => some n
    | _ => none

def withoutEnding (name : String) : String :=
  (knownEndings.findSome? fun ending => stripTail? ending name).getD name

def className? (w : Workspace) (path : FilePath) : Option String := do
  let manifest ← w.manifestForPath? path
  let names ← componentNames? (← path.below? manifest.root)
  if names.isEmpty then none
  else some (withoutEnding (join "." (manifest.component :: names)))

def cachedDocument? (w : Workspace) (path : FilePath) : Option Document :=
  w.documents.find? fun d => d.path == path

def insertDocument (d : Document) : List Document → List Document
  | [] => [d]
  | e :: rest =>
    match FilePath.compare d.path e.path with
    | .lt => d :: e :: rest
    | .eq => d :: rest
    | .gt => e :: insertDocument d rest

def putDocument (w : Workspace) (d : Document) : Workspace :=
  { w with
    documents := insertDocument d w.documents
    examined := w.examined.filter fun p => !(p == d.path) }

/-- Gives a document new content; nothing of the former content stays. -/
def setDocument (path : FilePath) (content : String) : Query (Option Document) := do
  match Document.ofPath? path content with
  | none => return none
  | some d =>
    modify (putDocument · d)
    return some d

def loadDocument (path : FilePath) : Query (Option Document) := do
  if (DocumentKind.ofPath? path).isNone then return none
  match (← get).source.read path with
  | .ok content => setDocument path content
  | .error _ => return none

def document? (path : FilePath) : Query (Option Document) := do
  match (← get).cachedDocument? path with
  | some d => return some d
  | none => loadDocument path

def dropDocument (w : Workspace) (path : FilePath) : Workspace :=
  { w with
    documents := w.documents.filter fun d => !(d.path == path)
    examined := w.examined.filter fun p => !(p == path) }

def clearDocuments (w : Workspace) : Workspace := { w with documents := [], examined := [] }

def examine (d : Document) : Query Unit :=
  modify fun w =>
    if w.examined.any (· == d.path) then w else { w with examined := d.path :: w.examined }

def views (w : Workspace) : List Document := w.documents.filter fun d => d.kind == .view

def fragments (w : Workspace) : List Document := w.documents.filter fun d => d.kind == .fragment

def viewsOfController (w : Workspace) (controller : String) : List Document :=
  w.views.filter fun d => d.controller? == some controller

def fragmentNamed? (name : String) : Query (Option Document) := do
  let w ← get
  match (w.candidate? name ".fragment.xml").bind w.cachedDocument? with
  | some d => return some d
  | none =>
    match ← sourcePath? name .fragment with
    | some path => document? path
    | none => return none

end Workspace

end UiWorkspace
