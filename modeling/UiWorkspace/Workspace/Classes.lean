import UiWorkspace.Class.Hierarchy
import UiWorkspace.Workspace.Index

/-! The classes of a workspace. A class is made when it is first asked for, from the script
its name leads to or, where there is no script, from the catalog of framework classes. -/
namespace UiWorkspace.Workspace

def putClass (w : Workspace) (c : ClassDefinition) : Workspace :=
  { w with classes := Table.put c.name c w.classes }

def build (name : String) (path : FilePath) (text : String) : Query ClassDefinition := do
  modify fun w => { w with builds := w.builds + 1 }
  return ClassDefinition.ofScript name path text

/-- The class as a first look-up makes it. A script that cannot be read makes none, even
where the catalog has the name. -/
def make? (name : String) : Query (Option ClassDefinition) := do
  match ← sourcePath? name .script with
  | some path =>
    match (← get).source.read path with
    | .ok text => return some (← build name path text)
    | .error _ => return none
  | none => return (← get).catalog.definition? name

def class? (name : String) : Query (Option ClassDefinition) := do
  match (← get).classes.lookup name with
  | some c => return some c
  | none =>
    match ← make? name with
    | some c =>
      modify (putClass · c)
      return some c
    | none => return none

def classAt? (path : FilePath) : Query (Option ClassDefinition) := do
  match (← get).className? path with
  | some name => return (← class? name).filter ClassDefinition.isProject
  | none => return none

def isMadeOf (c : ClassDefinition) (path : FilePath) (text : String) : Bool :=
  c.source?.any fun s => s.path == path && s.digest == Digest.sha256 text

/-- Gives a class a new script. Answers the class and whether it had to be made anew. -/
def setScript (name : String) (path : FilePath) (text : String) : Query (ClassDefinition × Bool) := do
  match ((← get).classes.lookup name).filter fun c => isMadeOf c path text with
  | some c => return (c, false)
  | none =>
    let c ← build name path text
    modify (putClass · c)
    return (c, true)

def removeClass (w : Workspace) (name : String) : Workspace :=
  { w with classes := Table.erase name w.classes }

def clearClasses (w : Workspace) : Workspace := { w with classes := [] }

def projectClassNames (w : Workspace) : List String :=
  ((w.classes.filter fun e => e.2.isProject).map Prod.fst).mergeSort fun a b => decide (a ≤ b)

def limits (w : Workspace) : Hierarchy.Limits := ⟨w.settings.maxInheritanceHops, w.settings.rootClass⟩

def findMember (name member : String) : Query Hierarchy.Walk := do
  Hierarchy.findMember class? (← get).limits name member

end UiWorkspace.Workspace
