import UiWorkspace.Script.Reference

/-! What a name means at a place of a script. Functions form a stack of scopes around
the place, innermost first, with the whole script outermost; the first scope that
declares the name decides. Blocks are no scopes of their own. -/
namespace UiWorkspace.Script

open UiWorkspace.Text

inductive Binding where
  /-- A parameter of the module factory, bound to a dependency. -/
  | factoryParameter
  /-- A parameter of another function, with its documented type. -/
  | parameter (docType? : Option String)
  /-- A variable, with the expressions assigned to it before the place. -/
  | variable (values : List Node)
  | unbound

/-- Whether the search for declarations goes into the node: not into what begins at or
behind the offset, and not into functions. -/
def entersScope (offset : Nat) (n : Node) : Bool := n.span.start < offset && !n.isFunction

def declaresName (code name : String) (n : Node) : Bool :=
  (n.is .functionDecl && (n.part? .name).any fun m => m.text code == name)
    || (n.is .declarator && (n.part? .name).any fun m => m.is .identifier && m.text code == name)

def givenValue? (code name : String) (n : Node) : Option Node :=
  if n.is .declarator then
    if (n.part? .name).any fun m => m.is .identifier && m.text code == name then n.part? .value
    else none
  else if n.is .assignment then
    if (n.part? .left).any fun m => m.is .identifier && m.text code == name then n.part? .right
    else none
  else none

/-- The values given to the name in a scope before the offset, if the scope declares it
before the offset. -/
def declaredValues? (scope : Node) (code : String) (offset : Nat) (name : String) :
    Option (List Node) := do
  let body ← if scope.isFunction then scope.part? .body else some scope
  let seen := (body.visits (entersScope offset)).filter fun n => n.span.start < offset
  if seen.any (declaresName code name) then some (seen.filterMap (givenValue? code name)) else none

def scopeBinding? (scope : Cursor) (code : String) (offset : Nat) (name : String)
    (factory? : Option Span) : Option Binding :=
  match declaredValues? scope.focus code offset name with
  | some values => some (.variable values)
  | none =>
    if scope.focus.isFunction
        && scope.focus.parameterNodes.any fun p => p.any fun n => n.text code == name then
      if factory? == some scope.focus.span then some .factoryParameter
      else
        some (.parameter ((scope.leadingComment? code).bind fun doc => DocComment.paramType? doc name))
    else none

def enclosingFunctions (root : Node) (offset : Nat) : List Cursor :=
  (Cursor.atOffset root offset).enclosing.filter fun c => c.focus.isFunction

def binding (root : Node) (code : String) (offset : Nat) (name : String)
    (factory? : Option Span) : Binding :=
  ((enclosingFunctions root offset ++ [Cursor.ofRoot root]).findSome? fun scope =>
    scopeBinding? scope code offset name factory?).getD .unbound

end UiWorkspace.Script
