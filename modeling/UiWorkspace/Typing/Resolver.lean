import UiWorkspace.Typing.Rules
import UiWorkspace.Workspace.Controls

/-! Types in a workspace. The type of a member is remembered together with the classes
that were read for it. While it is worked out its entry is marked; meeting the mark again
gives no type, and a type that rests on such an answer, or on one cut off by the depth
limit, is not remembered. -/
namespace UiWorkspace.Typing

open UiWorkspace.Script

structure Frame where
  dependsOn : List String
  /-- A mark of work in progress was met. -/
  cyclic : Bool
  /-- The depth limit cut something off. -/
  limited : Bool
deriving Repr

def Frame.record (name : String) (f : Frame) : Frame :=
  if f.dependsOn.contains name then f else { f with dependsOn := name :: f.dependsOn }

/-- A workspace and the members whose types are being worked out, innermost first. -/
structure Progress where
  workspace : Workspace
  frames : List Frame

abbrev Resolve := StateM Progress

/-- A query of the workspace, unnoticed by the members being worked out. -/
def ask {α : Type} (q : Query α) : Resolve α := fun p =>
  let (a, w) := q p.workspace
  (a, { p with workspace := w })

def updateFrames (f : Frame → Frame) : Resolve Unit :=
  modify fun p => { p with frames := p.frames.map f }

def record (name : String) : Resolve Unit := updateFrames (Frame.record name)

def recordAll : List String → Resolve Unit
  | [] => return ()
  | name :: names => do
    record name
    recordAll names

def updateTypes (f : TypeMemo → TypeMemo) : Resolve Unit :=
  modify fun p => { p with workspace := { p.workspace with types := f p.workspace.types } }

/-- Ends the innermost work. A type that is only partial is not kept: one cut off, or one
that met a mark, unless nothing else is being worked out. -/
def settle (key : MemoKey) (type? : Option String) : Resolve Unit := do
  match (← get).frames with
  | [] => return ()
  | frame :: outer =>
    modify fun p => { p with frames := outer }
    if frame.limited || (frame.cyclic && !outer.isEmpty) then updateTypes (·.abandon key)
    else updateTypes (·.finish key type? frame.dependsOn)

def remember (key : MemoKey) (work : Resolve (Option String)) : Resolve (Option String) := do
  match (← get).workspace.types.lookup key with
  | some (.done type? dependsOn) =>
    recordAll dependsOn
    return type?
  | some .inProgress =>
    updateFrames fun f => { f with cyclic := true }
    return none
  | none =>
    updateTypes (·.begin key)
    modify fun p => { p with frames := ⟨[key.className], false, false⟩ :: p.frames }
    let type? ← work
    settle key type?
    return type?

def class? (name : String) : Resolve (Option ClassDefinition) := do
  record name
  ask (Workspace.class? name)

def surroundings (limits : Hierarchy.Limits) : Surroundings Resolve where
  limits := limits
  class? := class?
  control? controller id := do
    record controller
    ask (Workspace.controlClass? controller id)
  remember := remember
  cutOff := updateFrames fun f => { f with limited := true }

def chainTypeIn (settings : Settings) : ClassDefinition → Chain → Nat → Resolve (Option String) :=
  chainType (surroundings ⟨settings.maxInheritanceHops, settings.rootClass⟩)
    settings.maxResolutionDepth

def nodeTypeIn (settings : Settings) : ClassDefinition → Node → Resolve (Option String) :=
  nodeType (chainTypeIn settings)

end UiWorkspace.Typing

namespace UiWorkspace.Workspace

open UiWorkspace.Script

/-- Works out types from a state in which nothing is being worked out. -/
def resolving {α : Type} (work : Settings → Typing.Resolve α) : Query α := fun w =>
  let (a, p) := work w.settings ⟨w, []⟩
  (a, p.workspace)

def typeOfMember (kind : MemberKind) (className name : String) : Query (Option String) :=
  resolving fun settings =>
    Typing.memberType (Typing.surroundings ⟨settings.maxInheritanceHops, settings.rootClass⟩)
      (Typing.nodeTypeIn settings) kind className name

def returnType (className method : String) : Query (Option String) :=
  typeOfMember .method className method

def fieldType (className field : String) : Query (Option String) :=
  typeOfMember .field className field

/-- What a method returns or a field holds, whichever the name stands for. -/
def memberType (className name : String) : Query (Option String) := do
  match (← findMember className name).found? with
  | none => return none
  | some (c, index) =>
    match c.members[index]? with
    | none => return none
    | some member => typeOfMember member.kind className name

def nodeType (c : ClassDefinition) (n : Node) : Query (Option String) :=
  resolving fun settings => Typing.nodeTypeIn settings c n

/-- The type of a chain, as if written at an offset in the script of a class. -/
def chainType (className : String) (chain : Chain) (offset : Nat) : Query (Option String) := do
  match ← class? className with
  | none => return none
  | some c => resolving fun settings => Typing.chainTypeIn settings c chain offset

/-- The expression whose type is asked for at an offset. The name in a declaration stands
for the declared value. -/
def expressionFor? (root : Node) (offset : Nat) : Option Node := do
  let meant ← expressionAt? root offset
  match meant.parent? with
  | some parent =>
    if parent.focus.is .declarator && meant.focus.role == some .name then parent.focus.part? .value
    else some meant.focus
  | none => some meant.focus

def typeAt (className : String) (offset : Nat) : Query (Option String) := do
  match ← class? className with
  | none => return none
  | some c =>
    match (c.source?.bind fun s => expressionFor? s.tree offset) with
    | some n => nodeType c n
    | none => return none

structure MemberAccess where
  name : String
  span : Text.Span
  objectType : String
  declaring? : Option String

def memberAccess? (c : ClassDefinition) (access : Node) : Query (Option MemberAccess) := do
  match c.source?, access.part? .object, access.part? .property with
  | some source, some object, some property =>
    match ← nodeType c object with
    | none => return none
    | some objectType =>
      let name := property.text source.text
      let walk ← findMember objectType name
      return some ⟨name, property.span, objectType, walk.found?.map fun f => f.1.name⟩
  | _, _, _ => return none

def accessNode? (root : Node) (offset : Nat) : Option Node := do
  let here := Cursor.atOffset root offset
  if here.focus.is .propertyName then
    let parent ← here.parent?
    if parent.focus.is .member then some parent.focus else none
  else none

def accessAt? (className : String) (offset : Nat) : Query (Option MemberAccess) := do
  match ← class? className with
  | none => return none
  | some c =>
    match c.source?.bind fun s => accessNode? s.tree offset with
    | some access => memberAccess? c access
    | none => return none

end UiWorkspace.Workspace
