import UiWorkspace.Script.Cursor
import UiWorkspace.Script.DocComment

/-! Class references, parameters, returned values and leading comments in a syntax tree. -/
namespace UiWorkspace.Script

open UiWorkspace.Text

namespace Node

mutual

/-- The expression inside any number of parentheses: the first construct after the
opening one, a comment too. -/
def unwrapped? : Node → Option Node
  | mk label role span children =>
    if label == .construct .parenthesized then firstUnwrapped? children
    else some (mk label role span children)

def firstUnwrapped? : List Node → Option Node
  | [] => none
  | c :: cs => if c.isNamed then unwrapped? c else firstUnwrapped? cs

end

def isDottedName (s : String) : Bool :=
  (pieces '.' s.toList).all fun p =>
    !p.isEmpty && p.all fun c => isAlphanumeric c || c == '_' || c == '$'

/-- The class an expression names: a short name through its alias, a dotted name as it
is written. -/
def classReference? (n : Node) (code : String) (aliases : List (String × String)) : Option String := do
  let inner ← n.unwrapped?
  if inner.is .identifier then aliases.lookup (inner.text code)
  else if inner.is .member then
    let name := compact (inner.text code)
    if isDottedName name then some name else none
  else none

def parameterName? (n : Node) : Option Node :=
  let found :=
    if n.is .identifier then some n
    else if n.is .assignmentPattern then n.part? .left
    else if n.is .restPattern then n.namedChildren.head?
    else none
  found.filter fun m => m.is .identifier

def parameterNodes (function : Node) : List (Option Node) :=
  match function.part? .parameter with
  | some single => [some single]
  | none =>
    match function.part? .parameters with
    | none => []
    | some list => (list.namedChildren.filter fun p => !p.is .comment).map parameterName?

/-- The names of the parameters of a function, empty for patterns. -/
def parameterNames (function : Node) (code : String) : List String :=
  function.parameterNodes.map fun p => (p.map fun n => n.text code).getD ""

/-- Whether the search for returned values stays out of the node: nested functions and
class declarations return for themselves, and a return statement is taken as it is. -/
def closesReturns (n : Node) : Bool := n.isFunction || n.is .classDecl || n.is .returnStmt

/-- The expressions a function returns. A body that is an expression is returned. -/
def returned (function : Node) : List Node :=
  match function.part? .body with
  | none => []
  | some body =>
    if !body.is .block then [body]
    else
      (body.visits fun n => !closesReturns n).filterMap fun n =>
        if n.is .returnStmt then n.namedChildren.head? else none

end Node

namespace Cursor

/-- Constructs a leading comment stands before, together with the function in them. -/
def carriesComment (n : Node) : Bool :=
  n.is .pair || n.is .declarator || n.is .lexicalDecl || n.is .variableDecl
    || n.is .expressionStmt || n.is .assignment

def anchorsComment (n : Node) : Bool := n.is .pair || n.is .lexicalDecl || n.is .variableDecl

def commentAnchor (focus : Node) : List Descent → Cursor
  | [] => ⟨focus, []⟩
  | step :: above =>
    if carriesComment step.parent then
      if anchorsComment step.parent then ⟨step.parent, above⟩
      else commentAnchor step.parent above
    else ⟨focus, step :: above⟩

def leadingComment? (c : Cursor) (code : String) : Option String := do
  let before ← (commentAnchor c.focus c.above).previousNamed?
  let text := before.text code
  if before.is .comment && startsWith "/**" text then some text else none

end Cursor

end UiWorkspace.Script
