import UiWorkspace.Class.Member
import UiWorkspace.Script.Module
import UiWorkspace.Script.Reference

/-! The class a script defines. A module is a call of `sap.ui.define` or `sap.ui.require`
with dependencies and a factory; its class is what the first call of `extend` with a
name declares, or else the object the factory returns. Members are the entries of that
object and whatever is assigned to a property of `this` inside it. -/
namespace UiWorkspace.Script

open UiWorkspace.Text

structure ParsedClass where
  declaredName? : Option String
  parent? : Option String
  imports : List Import
  aliases : List (String × String)
  members : List Member
  factory? : Option Span
  /-- The object that holds the members. -/
  body? : Option Span
deriving DecidableEq, Repr

def defineCallees : List String := ["sap.ui.define", "sap.ui.require"]

def defineCall? (root : Node) (code : String) : Option Node :=
  root.preorder.find? fun n =>
    n.is .call && (n.part? .callee).any fun c => defineCallees.contains (compact (c.text code))

/-- The dependencies listed in `deps`, bound by position to the parameters. -/
def importsOf (deps : Node) (code module : String) (params : List String) : List Import :=
  deps.namedChildren.zipIdx.filterMap fun (dep, position) => do
    let (path, span) ← dep.stringContents? code
    let className ← moduleClassName? path (some module)
    some ⟨path, className, params[position]?, span⟩

/-- The dependencies and the factory of a module: the first array and the first function
among the arguments of its call. -/
def moduleParts (call : Node) (code module : String) : List Import × Option Node :=
  match call.part? .arguments with
  | none => ([], none)
  | some args =>
    let named := args.namedChildren
    let factory? := named.find? Node.isFunction
    let params := (factory?.map fun f => f.parameterNames code).getD []
    match named.find? fun n => n.is .array with
    | none => ([], factory?)
    | some deps => (importsOf deps code module params, factory?)

structure ExtendCall where
  name : String
  parent : Node
  body? : Option Node

def ExtendCall.of? (n : Node) (code : String) : Option ExtendCall := do
  if !n.is .call then none
  else
    let callee ← n.part? .callee
    if !callee.is .member then none
    else
      let property ← callee.part? .property
      let parent ← callee.part? .object
      let args ← n.part? .arguments
      if property.text code != "extend" then none
      else
        let named := args.namedChildren
        let first ← named.head?
        let (name, _) ← first.stringContents? code
        some ⟨name, parent, named[1]?.filter fun b => b.is .object⟩

def extendCall? (scope : Node) (code : String) : Option ExtendCall :=
  scope.preorder.findSome? fun n => ExtendCall.of? n code

def declaredObject? (factory : Node) (code name : String) : Option Node := do
  let body ← factory.part? .body
  (body.visits fun n => !n.isFunction).findSome? fun n =>
    if n.is .declarator && (n.part? .name).any fun m => m.text code == name then
      (n.part? .value).filter fun v => v.is .object
    else none

/-- The object a factory returns, directly or through a variable. -/
def returnedObject? (factory : Node) (code : String) : Option Node :=
  factory.returned.findSome? fun n =>
    if n.is .object then some n
    else if n.is .identifier then declaredObject? factory code (n.text code)
    else none

def keyName? (key : Node) (code : String) : Option (String × Span) :=
  if key.is .propertyName || key.is .identifier then some (key.text code, key.span)
  else key.stringContents? code

/-- The member an entry of the object declares, given the documentation comment right
before it. -/
def declaredMember? (entry : Node) (doc? : Option String) (code : String)
    (aliases : List (String × String)) : Option Member := do
  let typeOf (raw? : Option String) := raw?.bind fun raw => DocComment.className? raw aliases
  let method (name : String) (span : Span) (function : Node) : Member :=
    ⟨name, .method, some span, typeOf (doc?.bind DocComment.returnType?), some function.span, none, []⟩
  if entry.is .pair then
    let key ← entry.part? .key
    let value ← entry.part? .value
    let (name, span) ← keyName? key code
    if value.isFunction then some (method name span value)
    else
      let initial? :=
        if value.is .construct then
          (value.part? .constructor).bind fun c => c.classReference? code aliases
        else none
      some ⟨name, .field, some span, (typeOf (doc?.bind DocComment.fieldType?)) <|> initial?, none,
        some value.span, []⟩
  else if entry.is .methodDef then
    let key ← entry.part? .name
    let (name, span) ← keyName? key code
    some (method name span entry)
  else none

def docText? (n : Node) (code : String) : Option String :=
  let text := n.text code
  if n.is .comment && startsWith "/**" text then some text else none

/-- The members that the entries of an object declare; of two with one name the first
counts. `previous?` is the construct before the first entry. -/
def declaredMembers (code : String) (aliases : List (String × String)) (previous? : Option Node)
    (found : List Member) : List Node → List Member
  | [] => found
  | entry :: rest =>
    let doc? := previous?.bind fun p => docText? p code
    let found :=
      match declaredMember? entry doc? code aliases with
      | some m => if found.any fun f => f.name == m.name then found else found ++ [m]
      | none => found
    declaredMembers code aliases (some entry) found rest

def thisAssignment? (n : Node) : Option (Node × Node) := do
  if !n.is .assignment then none
  else
    let left ← n.part? .left
    let right ← n.part? .right
    let object ← left.part? .object
    if left.is .member && object.is .this then
      let property ← left.part? .property
      some (property, right)
    else none

/-- Notes an assignment at the first member of that name, or adds a field for it. -/
def noteAssignment (name : String) (property right : Span) : List Member → List Member
  | [] => [⟨name, .field, some property, none, none, none, [right]⟩]
  | m :: rest =>
    if m.name == name then { m with assignments := m.assignments ++ [right] } :: rest
    else m :: noteAssignment name property right rest

def withAssignments (body : Node) (code : String) (members : List Member) : List Member :=
  (body.preorder.filterMap thisAssignment?).foldl
    (fun members (property, right) =>
      noteAssignment (property.text code) property.span right.span members)
    members

/-- The class that a syntax tree defines; `module` is the dotted name of the script. -/
def classOfTree (module code : String) (root : Node) : ParsedClass :=
  let (imports, factory?) :=
    match defineCall? root code with
    | some call => moduleParts call code module
    | none => ([], none)
  let aliases := aliasTable imports
  let extend? := extendCall? (factory?.getD root) code
  let body? :=
    match extend? with
    | some extend => extend.body?
    | none => factory?.bind fun f => returnedObject? f code
  { declaredName? := extend?.map ExtendCall.name
    parent? := extend?.bind fun e => e.parent.classReference? code aliases
    imports := imports
    aliases := aliases
    members :=
      match body? with
      | some body =>
        withAssignments body code (declaredMembers code aliases none [] body.namedChildren)
      | none => []
    factory? := factory?.map Node.span
    body? := body?.map Node.span }

end UiWorkspace.Script
