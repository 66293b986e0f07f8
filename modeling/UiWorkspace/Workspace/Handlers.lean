import UiWorkspace.Edit
import UiWorkspace.Workspace.Controllers

/-! Methods bound to events in markup. -/
namespace UiWorkspace.Workspace

open UiWorkspace.Markup

def foundMember? (walk : Hierarchy.Walk) : Option (ClassDefinition × Member) := do
  let (c, index) ← walk.found?
  some (c, ← c.members[index]?)

/-- Whether a name bound in a document of `controller` calls a method of `className`: one
the controller has, if it is that class, else one it inherits from it. -/
def bindsMethodOf (controller name className : String) : Query Bool := do
  match foundMember? (← findMember controller name) with
  | some (c, member) =>
    return member.kind == .method && (controller == className || c.name == className)
  | none => return false

def addHandlers (className controller : String) : List String → List String → Query (List String)
  | found, [] => return found
  | found, name :: names => do
    if found.contains name then addHandlers className controller found names
    else if ← bindsMethodOf controller name className then
      addHandlers className controller (found ++ [name]) names
    else addHandlers className controller found names

def handlersIn (className : String) : List String → List (String × Document) → Query (List String)
  | found, [] => return found
  | found, (controller, d) :: rest => do
    examine d
    let found ← addHandlers className controller found (d.handlers.map HandlerReference.name)
    handlersIn className found rest

/-- The methods of a class bound in its own documents or in those of classes that inherit
them, worked out once. -/
def eventHandlers (className : String) : Query (List String) := do
  match (← get).handlers.lookup className with
  | some found => return found
  | none =>
    let found ← handlersIn className [] (← controlledDocuments)
    modify fun w => { w with handlers := Table.put className found w.handlers }
    return found

def handlerEditsIn (declaring name newName : String) : List (String × Document) → Query (List Edit)
  | [] => return []
  | (controller, d) :: rest => do
    examine d
    let bound := d.handlers.filter fun r => r.name == name
    if bound.isEmpty then handlerEditsIn declaring name newName rest
    else
      let walk ← findMember controller name
      let edits :=
        if walk.found?.any fun f => f.1.name == declaring then
          bound.map fun r => ({ path := d.path, span := r.span, text := newName } : Edit)
        else []
      return edits ++ (← handlerEditsIn declaring name newName rest)

def handlerEdits (declaring name newName : String) : Query (List Edit) := do
  handlerEditsIn declaring name newName (← controlledDocuments)

end UiWorkspace.Workspace
