import UiWorkspace.Workspace.Classes

/-! The controller behind a view or fragment. A view names its controller. A fragment has
the controller of a view that includes it, else of a fragment that includes it, else it
belongs to the class whose script mentions it, else to the view it is made to extend. -/
namespace UiWorkspace.Workspace

open UiWorkspace.Markup
open UiWorkspace.Text

def mentions (script name : String) : Bool :=
  contains ("\"" ++ name ++ "\"") script || contains ("'" ++ name ++ "'") script

/-- The controller of the first view that includes a fragment and has one. -/
def includingController? (w : Workspace) (fragment : String) : Option String :=
  (w.views.filter fun v => v.includes fragment).findSome? Document.controller?

def includingFragments (w : Workspace) (fragment : String) : List String :=
  (w.fragments.filter fun f => f.includes fragment).filterMap fun f => w.className? f.path

def mentioningClass? (w : Workspace) (name : String) : Option String :=
  w.projectClassNames.find? fun c =>
    ((w.classes.lookup c).bind ClassDefinition.source?).any fun s => mentions s.text name

/-- The controller of the first extended view that has one, after the replacements of the
extending manifest. -/
def extendedController? : List (Manifest × ViewExtension) → Query (Option String)
  | [] => return none
  | (manifest, extension) :: rest => do
    let view? ←
      match ← sourcePath? extension.view .view with
      | some path => document? path
      | none => pure none
    match view?.bind Document.controller? with
    | some controller => return some ((manifest.controllerReplacement? controller).getD controller)
    | none => extendedController? rest

def extensionsWith (w : Workspace) (fragment : String) : List (Manifest × ViewExtension) :=
  w.manifests.flatMap fun m =>
    (m.viewExtensions.filter fun e => e.fragment == fragment).map fun e => (m, e)

/-- Tries names one after the other until one has a controller, and passes on which names
have been visited. -/
def firstController? (search : String → List String → Query (Option String × List String)) :
    List String → List String → Query (Option String × List String)
  | [], visited => return (none, visited)
  | name :: names, visited => do
    match ← search name visited with
    | (some controller, visited) => return (some controller, visited)
    | (none, visited) => firstController? search names visited

/-- The controller of a fragment and the fragments visited for it. Each visit is of a
fragment not visited before, so as many visits as there are fragments go deep enough. -/
def searchController? : (visits : Nat) → String → List String → Query (Option String × List String)
  | 0, _, visited => return (none, visited)
  | visits + 1, fragment, visited => do
    if visited.contains fragment then return (none, visited)
    let visited := fragment :: visited
    let w ← get
    match w.includingController? fragment with
    | some controller => return (some controller, visited)
    | none =>
      match ← firstController? (searchController? visits) (w.includingFragments fragment) visited with
      | (some controller, visited) => return (some controller, visited)
      | (none, visited) =>
        match (← get).mentioningClass? fragment with
        | some controller => return (some controller, visited)
        | none => return (← extendedController? ((← get).extensionsWith fragment), visited)

def fragmentController? (fragment : String) (visited : List String) :
    Query (Option String × List String) := do
  searchController? ((← get).fragments.length + 2) fragment visited

def controllerOf? (d : Document) : Query (Option String) := do
  match d.controller? with
  | some controller => return some controller
  | none =>
    match (← get).className? d.path with
    | some name => return (← fragmentController? name []).1
    | none => return none

def withController : List Document → Query (List (String × Document))
  | [] => return []
  | d :: ds => do
    let controller? ← controllerOf? d
    let rest ← withController ds
    match controller? with
    | some controller => return (controller, d) :: rest
    | none => return rest

def controlledDocuments : Query (List (String × Document)) := do withController (← get).documents

def documentsOfController (controller : String) : Query (List Document) := do
  return ((← controlledDocuments).filter fun e => e.1 == controller).map Prod.snd

end UiWorkspace.Workspace
