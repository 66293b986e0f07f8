import UiWorkspace.Script.Cursor
import UiWorkspace.Text.Pieces

/-! Chains of accesses and calls. `this.getView().byId("b1")` is a head followed by
segments; only expressions made of such pieces have a chain. -/
namespace UiWorkspace.Script

open UiWorkspace.Text

inductive ChainHead where
  | this
  | identifier (name : String)
  /-- `new`, with the constructor as written but for its blanks. -/
  | construct (text : String)
deriving DecidableEq, Repr

inductive ChainSegment where
  | property (name : String) (span? : Option Span)
  /-- A call of what comes before, with its first argument if that is a string. -/
  | call (argument? : Option String)
deriving DecidableEq, Repr

structure Chain where
  head : ChainHead
  segments : List ChainSegment
  span? : Option Span
deriving DecidableEq, Repr

namespace Chain

def of (head : ChainHead) : Chain := ⟨head, [], none⟩

def append (c : Chain) (s : ChainSegment) : Chain := { c with segments := c.segments ++ [s] }

def property (c : Chain) (name : String) : Chain := c.append (.property name none)

def call (c : Chain) (argument? : Option String) : Chain := c.append (.call argument?)

def lastProperty? (c : Chain) : Option String :=
  c.segments.reverse.findSome? fun s =>
    match s with
    | .property name _ => some name
    | .call _ => none

mutual

def build? (code : String) : Node → Option Chain
  | .mk label role span children =>
    let n := Node.mk label role span children
    if label == .construct .this then some (of .this)
    else if label == .construct .identifier then some (of (.identifier (n.text code)))
    else if label == .construct .construct then
      (n.part? .constructor).map fun c => of (.construct (compact (c.text code)))
    else if label == .construct .parenthesized then buildFirst? code children
    else if label == .construct .member then do
      let object ← buildPart? code .object children
      let property ← n.part? .property
      some (object.append (.property (property.text code) (some property.span)))
    else if label == .construct .call then do
      let callee ← buildPart? code .callee children
      let args ← n.part? .arguments
      let first? := args.namedChildren.head?.bind fun a => a.stringContents? code
      some (callee.append (.call (first?.map Prod.fst)))
    else none

def buildFirst? (code : String) : List Node → Option Chain
  | [] => none
  | c :: cs => if c.isNamed then build? code c else buildFirst? code cs

def buildPart? (code : String) (role : Role) : List Node → Option Chain
  | [] => none
  | c :: cs => if c.role == some role then build? code c else buildPart? code role cs

end

def ofNode? (n : Node) (code : String) : Option Chain :=
  (build? code n).map fun c => { c with span? := some n.span }

end Chain

/-- The expression a cursor at an offset means: a name, `this`, or the access to the
property under the cursor, together with a call of it. -/
def expressionAt? (root : Node) (offset : Nat) : Option Cursor := do
  let here := Cursor.atOffset root offset
  let meant ←
    if here.focus.is .propertyName then here.parent?.filter fun p => p.focus.is .member
    else if here.focus.is .identifier || here.focus.is .this then some here
    else none
  match meant.parent? with
  | some parent =>
    if parent.focus.is .call && meant.focus.role == some .callee then some parent else some meant
  | none => some meant

end UiWorkspace.Script
