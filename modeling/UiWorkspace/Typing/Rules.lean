import UiWorkspace.Class.Hierarchy
import UiWorkspace.Class.TypeMemo
import UiWorkspace.Script.Chain
import UiWorkspace.Script.Scope
import UiWorkspace.Typing.Evidence

/-! The rules by which expressions and members have types. A type is the name of a class;
an expression has one only if everything that can be its value has that type or none. The
rules leave it to their surroundings how classes are found, how controls are looked up and
whether the type of a member is remembered. What a method returns is the type declared for it or
that of what it returns; what a field holds is the type declared for it or that of its values. -/
namespace UiWorkspace.Typing

open UiWorkspace.Script

structure Surroundings (m : Type → Type) where
  limits : Hierarchy.Limits
  class? : String → m (Option ClassDefinition)
  /-- The class of the control with an id in the markup a controller reaches. -/
  control? : (controller id : String) → m (Option String)
  /-- The type of a member, worked out as given unless it is known. -/
  remember : MemoKey → m (Option String) → m (Option String)
  /-- Told when an expression is nested too deep to be followed. -/
  cutOff : m Unit

variable {m : Type → Type} [Monad m]

/-- The type all candidates agree on with `found`. A candidate without a type says nothing;
the first one of another type ends the search. -/
def agree : (found : Option String) → List (m (Option String)) → m (Option String)
  | found, [] => return found
  | found, candidate :: rest => do
    match found, ← candidate with
    | found, none => agree found rest
    | none, some type => agree (some type) rest
    | some known, some type => if known == type then agree (some known) rest else return none

def evidenceType (expression : Node → m (Option String)) : Evidence → m (Option String)
  | .nothing => return none
  | .expression n => expression n
  | .either a b => agree none [evidenceType expression a, evidenceType expression b]

def nodeType (chain : ClassDefinition → Chain → Nat → m (Option String))
    (c : ClassDefinition) (n : Node) : m (Option String) :=
  match c.source? with
  | none => return none
  | some source =>
    evidenceType
      (fun leaf =>
        match Chain.ofNode? leaf source.text with
        | some written => chain c written leaf.span.start
        | none => return none)
      (Evidence.ofNode n)

/-- The class a constructor makes: an imported one, or one named in full. -/
def constructorType (c : ClassDefinition) (constructor : String) : Option String :=
  match c.aliases.lookup constructor with
  | some full => some full
  | none => if Text.contains "." constructor then some constructor else none

section

variable (node : ClassDefinition → Node → m (Option String))

def returnType (c : ClassDefinition) (method : Member) : m (Option String) :=
  match method.inferred?, c.source?, method.body? with
  | some type, _, _ => return some type
  | none, some source, some body =>
    let function := (Cursor.spanning source.tree body).focus
    if function.isFunction then agree none (function.returned.map (node c)) else return none
  | none, _, _ => return none

def valueType (c : ClassDefinition) (field : Member) : m (Option String) :=
  match field.inferred?, c.source? with
  | some type, _ => return some type
  | none, some source =>
    let values := (field.value?.toList ++ field.assignments).map fun span =>
      (Cursor.spanning source.tree span).focus
    agree none (values.map (node c))
  | none, none => return none

end

section

variable (around : Surroundings m) (node : ClassDefinition → Node → m (Option String))

def findMember (className member : String) : m Hierarchy.Walk :=
  Hierarchy.findMember around.class? around.limits className member

def isProjectClass (name : String) : m Bool := do
  return (← around.class? name).any ClassDefinition.isProject

/-- The type of the nearest member with a name and kind; a nearer member of the other kind
hides it. -/
def memberType (kind : MemberKind) (className name : String) : m (Option String) := do
  match (← findMember around className name).found? with
  | none => return none
  | some (c, index) =>
    match c.members[index]? with
    | none => return none
    | some member =>
      if member.kind != kind then return none
      else
        around.remember ⟨c.name, name, kind⟩
          (match kind with
          | .method => returnType node c member
          | .field => valueType node c member)

/-- The control that `byId` finds: in the view it was called on, else in the markup of the
class it was called on. -/
def calledControl? (owner method : String) (argument? view? : Option String) :
    m (Option String) := do
  match argument? with
  | none => return none
  | some id =>
    if method != "byId" then return none
    else
      match view? with
      | some controller => around.control? controller id
      | none => if ← isProjectClass around owner then around.control? owner id else return none

/-- The type of a call, and the controller whose view it gives. -/
def callType (owner method : String) (argument? view? : Option String) :
    m (Option String × Option String) := do
  match ← calledControl? around owner method argument? view? with
  | some control => return (some control, none)
  | none =>
    let type? ← memberType around node .method owner method
    if method != "getView" then return (type?, none)
    else if ← isProjectClass around owner then return (type?, some owner)
    else return (type?, none)

/-- The type at the end of a chain from the type of its head on. `view?` is the controller
whose view the last call gave. -/
def segmentsType : (head? view? : Option String) → List ChainSegment → m (Option String)
  | head?, _, [] => return head?
  | none, _, _ :: _ => return none
  | some owner, view?, .property name _ :: .call argument? :: rest => do
    let (type?, view?) ← callType around node owner name argument? view?
    segmentsType type? view? rest
  | some owner, _, .property name _ :: rest => do
    segmentsType (← memberType around node .field owner name) none rest
  | some _, _, .call _ :: _ => return none

/-- The shortest dotted name at the beginning of a chain that is the name of a class, and
the segments behind it. -/
def globalClass? : (name : String) → List ChainSegment → m (Option (String × List ChainSegment))
  | name, .property part _ :: rest => do
    let longer := name ++ "." ++ part
    if (← around.class? longer).isSome then return some (longer, rest) else globalClass? longer rest
  | _, _ => return none

def freeNameType (c : ClassDefinition) (name : String) (segments : List ChainSegment) :
    m (Option String × List ChainSegment) := do
  match c.aliases.lookup name with
  | some full => return (some full, segments)
  | none =>
    match ← globalClass? around name segments with
    | some (full, rest) => return (some full, rest)
    | none => return (none, segments)

def nameType (c : ClassDefinition) (name : String) (offset : Nat) (segments : List ChainSegment) :
    m (Option String × List ChainSegment) := do
  match c.source? with
  | none => freeNameType around c name segments
  | some source =>
    match binding source.tree source.text offset name source.factory? with
    | .variable values => return (← agree none (values.map (node c)), segments)
    | .parameter docType? =>
      return (docType?.bind fun raw => DocComment.className? raw c.aliases, segments)
    | .factoryParameter | .unbound => freeNameType around c name segments

def chainTypeFrom (c : ClassDefinition) (chain : Chain) (offset : Nat) : m (Option String) :=
  match chain.head with
  | .this => segmentsType around node (some c.name) none chain.segments
  | .construct constructor =>
    segmentsType around node (constructorType c constructor) none chain.segments
  | .identifier name => do
    let (head?, rest) ← nameType around node c name offset chain.segments
    segmentsType around node head? none rest

end

/-- The type of a chain, with at most `depth` chains nested in each other. -/
def chainType (around : Surroundings m) :
    (depth : Nat) → ClassDefinition → Chain → Nat → m (Option String)
  | 0, _, _, _ => do
    around.cutOff
    return none
  | depth + 1, c, chain, offset => chainTypeFrom around (nodeType (chainType around depth)) c chain offset

end UiWorkspace.Typing
