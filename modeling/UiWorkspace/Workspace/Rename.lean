import UiWorkspace.Workspace.Members

/-! Renaming a member: its declaration, the accesses to it in the known scripts, and the
bindings of markup that call it. An access to an object without a type is left alone. -/
namespace UiWorkspace.Workspace

open UiWorkspace.Script

structure RenameTarget where
  className : String
  member : String
  path : FilePath
  span : Text.Span

/-- The target a declared member makes; a member of the framework makes none. -/
def targetOf? (c : ClassDefinition) (member : Member) : Option RenameTarget := do
  let path ← c.path?
  let span ← member.declaration?
  some ⟨c.name, member.name, path, span⟩

def scriptSubject (path : FilePath) (offset : Nat) :
    Query (Except WorkspaceError (String × String)) := do
  let nothing : WorkspaceError := .nothingToRename path offset
  match ← classAt? path with
  | none => return .error nothing
  | some c =>
    match c.members.find? fun m => m.declaration?.any fun span => span.touches offset with
    | some m => return .ok (c.name, m.name)
    | none =>
      match ← accessAt? c.name offset with
      | some access => return .ok (access.objectType, access.name)
      | none => return .error nothing

def markupSubject (path : FilePath) (offset : Nat) :
    Query (Except WorkspaceError (String × String)) := do
  let nothing : WorkspaceError := .nothingToRename path offset
  match ← document? path with
  | none => return .error nothing
  | some d =>
    examine d
    match d.handlers.find? fun r => r.span.touches offset with
    | none => return .error nothing
    | some reference =>
      match ← controllerOf? d with
      | some controller => return .ok (controller, reference.name)
      | none => return .error nothing

/-- The class and the name of the member to rename at a place in a file. A renaming finds them by
itself; it refuses every place that refers to no member. -/
def subjectAt (path : FilePath) (offset : Nat) : Query (Except WorkspaceError (String × String)) :=
  match FileRole.ofPath path with
  | .script => scriptSubject path offset
  | .markup _ => markupSubject path offset
  | .manifest | .other => return .error (.nothingToRename path offset)

def prepareRename (path : FilePath) (offset : Nat) : Query (Except WorkspaceError RenameTarget) := do
  match ← subjectAt path offset with
  | .error e => return .error e
  | .ok (className, name) =>
    let found? := foundMember? (← findMember className name)
    match found?.bind fun f => targetOf? f.1 f.2 with
    | some target => return .ok target
    | none => return .error (.nothingToRename path offset)

def accessesTo (source : ProjectSource) (name : String) : List Node :=
  source.tree.preorder.filter fun n =>
    n.is .member && (n.part? .property).any fun p => p.text source.text == name

def accessEdits (target : RenameTarget) (newName : String) (c : ClassDefinition)
    (path : FilePath) : List Node → Query (List Edit)
  | [] => return []
  | n :: ns => do
    let access? ← memberAccess? c n
    let rest ← accessEdits target newName c path ns
    match access?.filter fun a => a.declaring? == some target.className with
    | some access => return ⟨path, access.span, newName⟩ :: rest
    | none => return rest

def scriptEdits (target : RenameTarget) (newName : String) : List ClassDefinition → Query (List Edit)
  | [] => return []
  | c :: cs =>
    match c.source? with
    | none => scriptEdits target newName cs
    | some source => do
      let edits ← accessEdits target newName c source.path (accessesTo source target.member)
      return edits ++ (← scriptEdits target newName cs)

/-- The edits that give a member a new name, each place once, in the order in which they
are found. Classes that become known on the way do not take part. -/
def rename (target : RenameTarget) (newName : String) : Query (List Edit) := do
  let w ← get
  let known := w.projectClassNames.filterMap fun name => w.classes.lookup name
  let inScripts ← scriptEdits target newName known
  let inMarkup ← handlerEdits target.className target.member newName
  return Edit.dedup (⟨target.path, target.span, newName⟩ :: (inScripts ++ inMarkup))

end UiWorkspace.Workspace
