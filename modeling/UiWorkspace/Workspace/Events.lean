import UiWorkspace.Workspace.Controllers

/-! Notices of changed files. When a notice has been dealt with, nothing is kept that was
worked out from what the file held before. -/
namespace UiWorkspace

inductive Event where
  | changed (path : FilePath) (content : String)
  | opened (path : FilePath) (content : String)
  | created (path : FilePath)
  | deleted (path : FilePath)
  | renamed (source target : FilePath)
  | configurationChanged

namespace Workspace

def resetModels (w : Workspace) : Workspace :=
  { w with classes := [], types := TypeMemo.empty, handlers := [] }

def forgetDerived (w : Workspace) (className : String) : Workspace :=
  { w with types := w.types.invalidate className, handlers := [] }

def markupChanged (w : Workspace) (controllers : List String) : Workspace :=
  { w with types := controllers.foldl TypeMemo.invalidate w.types, handlers := [] }

def keptController (path : FilePath) : Query (List String) := do
  match (← get).cachedDocument? path with
  | some d => return (← controllerOf? d).toList
  | none => return []

def textOr (w : Workspace) (path : FilePath) (content? : Option String) :
    Except WorkspaceError String :=
  match content? with
  | some text => .ok text
  | none => w.readFile path

/-- A manifest has new content. One that cannot be used is left out; class names hang on
manifests, so all models go. -/
def applyManifest (path : FilePath) (content? : Option String) : Query (Except WorkspaceError Unit) := do
  match (← get).textOr path content? with
  | .error e => return .error e
  | .ok text =>
    discard (registerManifest path text)
    modify resetModels
    return .ok ()

/-- A document has new content. One that cannot be read is dropped. -/
def applyMarkup (path : FilePath) (content? : Option String) : Query Unit := do
  let before ← keptController path
  let found? ←
    match content? with
    | some text => setDocument path text
    | none => loadDocument path
  if found?.isNone then modify (dropDocument · path)
  let after ← keptController path
  modify (markupChanged · (before ++ after))

/-- A script has new content. One below no manifest is no class. -/
def applyScript (path : FilePath) (content? : Option String) : Query (Except WorkspaceError Unit) := do
  match (← get).className? path with
  | none => return .ok ()
  | some name =>
    match (← get).textOr path content? with
    | .error e => return .error e
    | .ok text =>
      let (_, rebuilt) ← setScript name path text
      if rebuilt then modify (forgetDerived · name)
      return .ok ()

/-- Takes new content of a file in, from the source if none is given. -/
def applyContent (path : FilePath) (content? : Option String) : Query (Except WorkspaceError Unit) := do
  match FileRole.ofPath path with
  | .manifest => applyManifest path content?
  | .markup _ =>
    applyMarkup path content?
    return .ok ()
  | .script => applyScript path content?
  | .other => return .ok ()

def forget (path : FilePath) : Query Unit := do
  match FileRole.ofPath path with
  | .manifest => modify fun w => (w.removeManifest path).resetModels
  | .markup _ =>
    let before ← keptController path
    modify fun w => (w.dropDocument path).markupChanged before
  | .script =>
    match (← get).className? path with
    | some name => modify fun w => (w.removeClass name).forgetDerived name
    | none => return ()
  | .other => return ()

def loadDocuments : List FilePath → Query Unit
  | [] => return ()
  | path :: paths => do
    discard (loadDocument path)
    loadDocuments paths

/-- Forgets all models, reads the kept documents again and makes the catalog anew. -/
def clearCaches : Query Unit := do
  modify resetModels
  let paths := (← get).documents.map fun d => d.path
  modify clearDocuments
  loadDocuments paths
  modify fun w =>
    { w with
      cache := if w.settings.cacheEnabled then Catalog.clear w.cache else w.cache
      catalog := freshCatalog w.settings w.metadata? }

def handle : Event → Query (Except WorkspaceError Unit)
  | .changed path content | .opened path content => applyContent path (some content)
  | .created path => applyContent path none
  | .deleted path => do
    forget path
    return .ok ()
  | .renamed source target => do
    forget source
    applyContent target none
  | .configurationChanged => do
    clearCaches
    return .ok ()

end Workspace

end UiWorkspace
