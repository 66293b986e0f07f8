import UiWorkspace.Typing.Resolver
import UiWorkspace.Workspace.Handlers

/-! What a workspace tells about members: those of a class, and the one a place in a file
refers to. -/
namespace UiWorkspace.Workspace

open UiWorkspace.Text

structure MemberInfo where
  name : String
  kind : MemberKind
  declaration? : Option Span
  /-- Markup of the class, or of one that inherits the member, binds it to an event. -/
  isHandler : Bool
  type? : Option String

def memberInfos (className : String) (handlers : List String) : List Member → Query (List MemberInfo)
  | [] => return []
  | m :: ms => do
    let type? ← typeOfMember m.kind className m.name
    let rest ← memberInfos className handlers ms
    return ⟨m.name, m.kind, m.declaration?, handlers.contains m.name, type?⟩ :: rest

def membersOf? (className : String) : Query (Option (List MemberInfo)) := do
  match ← class? className with
  | none => return none
  | some c =>
    let handlers ← if c.isProject then eventHandlers className else pure []
    return some (← memberInfos className handlers c.members)

def declaredAt? (c : ClassDefinition) (offset : Nat) : Option Member :=
  c.members.find? fun m => m.declaration?.any fun span => span.touches offset

/-- The class and the name that a place in a script refers to: a declared member, or one
that is accessed. -/
def scriptReference? (path : FilePath) (offset : Nat) : Query (Option (String × String)) := do
  match ← classAt? path with
  | none => return none
  | some c =>
    match declaredAt? c offset with
    | some m => return some (c.name, m.name)
    | none => return (← accessAt? c.name offset).map fun access => (access.objectType, access.name)

def markupReference? (path : FilePath) (offset : Nat) : Query (Option (String × String)) := do
  match ← document? path with
  | none => return none
  | some d =>
    examine d
    match d.handlers.find? fun r => r.span.touches offset with
    | none => return none
    | some reference => return (← controllerOf? d).map fun controller => (controller, reference.name)

def referenceAt? (path : FilePath) (offset : Nat) : Query (Option (String × String)) :=
  match FileRole.ofPath path with
  | .markup _ => markupReference? path offset
  | .script => scriptReference? path offset
  | .manifest | .other => return none

/-- The declaration of the member a place in a file refers to. Members of the framework
have none. -/
def definitionAt? (path : FilePath) (offset : Nat) : Query (Option Location) := do
  match ← referenceAt? path offset with
  | none => return none
  | some (className, name) =>
    let found? := foundMember? (← findMember className name)
    return found?.bind fun f => f.2.declaration?.bind fun span =>
      f.1.path?.map fun declaring => ⟨declaring, span.start⟩

def controllerAt? (path : FilePath) : Query (Option String) := do
  match ← document? path with
  | some d => controllerOf? d
  | none => return none

end UiWorkspace.Workspace
