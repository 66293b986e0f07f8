import UiWorkspace.Script.Termination
import UiWorkspace.Script.Tree

/-! Reading a script into its syntax tree. A comment becomes a part of the smallest
construct that has tokens on both sides of it. Patterns are read as expressions first,
and relabelled once what follows shows that a pattern is meant. -/
namespace UiWorkspace.Script

open UiWorkspace.Text

structure Reading where
  /-- Right behind the last token that was taken. -/
  last : Place
  /-- The comments before the next token that no construct has taken yet. -/
  comments : List (Span × Place)
  lineBreak : Bool
  /-- The place of the next token, the token, and the place behind it. -/
  here : Place
  token : Token
  next : Place

abbrev Parse := StateT Reading Option

namespace Reading

def from_ (p : Place) : Reading :=
  let gap := gapAt p
  let (token, next) := tokenAt gap.next
  ⟨p, gap.comments, gap.lineBreak, gap.next, token, next⟩

end Reading

namespace Node

def group (kind : Kind) (parts : List Node) : Node :=
  let start := (parts.head?.map fun n => n.span.start).getD 0
  let stop := (parts.getLast?.map fun n => n.span.stop).getD 0
  mk (.construct kind) none ⟨start, stop⟩ parts

def leaf (kind : Kind) (span : Span) : Node := mk (.construct kind) none span []

def as (n : Node) (role : Role) : Node := n.withRole (some role)

mutual

def toPattern : Node → Node
  | mk label role span children =>
    match label with
    | .construct .object => mk (.construct .objectPattern) role span (toPatterns children)
    | .construct .array => mk (.construct .arrayPattern) role span (toPatterns children)
    | .construct .pair => mk (.construct .pairPattern) role span (toPatterns children)
    | .construct .assignment => mk (.construct .assignmentPattern) role span children
    | .construct .spread => mk (.construct .restPattern) role span (toPatterns children)
    | .construct .shorthandName => mk (.construct .shorthandPattern) role span children
    | _ => mk label role span children

def toPatterns : List Node → List Node
  | [] => []
  | c :: cs => toPattern c :: toPatterns cs

end

end Node

namespace Parse

def fail {α : Type} : Parse α := fun _ => none

def token : Parse Token := fun s => some (s.token, s)

def lineBreakBefore : Parse Bool := fun s => some (s.lineBreak, s)

def second : Parse Token := fun s => some ((tokenAt (gapAt s.next).next).1, s)

/-- The token behind the next one, and whether a line ends between the two. -/
def secondOnLine : Parse (Token × Bool) := fun s =>
  let gap := gapAt s.next
  some (((tokenAt gap.next).1, !gap.lineBreak), s)

def isAt (symbol : String) : Parse Bool := do
  let t ← token
  return (t.kind == .symbol || t.kind == .name) && t.text == symbol

def isAtName : Parse Bool := do
  return (← token).kind == .name

def comments : Parse (List Node) := fun s =>
  some (s.comments.map fun c => Node.leaf .comment c.1, { s with comments := [] })

def shift (label : Label) : Parse Node := fun s =>
  some (Node.mk label none s.token.span [], Reading.from_ s.next)

/-- The parts one step contributes: comments that stand before it, then its own node. -/
def part (p : Parse Node) : Parse (List Node) := do
  let before ← comments
  let n ← p
  return before ++ [n]

def partAs (role : Role) (p : Parse Node) : Parse (List Node) :=
  part (return (← p).as role)

def expect (symbol : String) : Parse (List Node) := do
  if ← isAt symbol then part (shift .token) else fail

def option (symbol : String) : Parse (List Node) := do
  if ← isAt symbol then part (shift .token) else return []

def nameAs (kind : Kind) : Parse Node := do
  if ← isAtName then shift (.construct kind) else fail

def identifier : Parse Node := nameAs .identifier

def repeatWhile (go : Parse Bool) (step : Parse (List Node)) : (bound : Nat) → Parse (List Node)
  | 0 => fail
  | bound + 1 => do
    if ← go then
      let first ← step
      let rest ← repeatWhile go step bound
      return first ++ rest
    else return []

/-- The number of comments behind the last token after which a statement may end without
a semicolon. -/
def endingAfter? (bare : Bool) : Place → List (Span × Place) → Option Nat
  | p, [] => if mayEnd bare p.rest then some 0 else none
  | p, c :: cs =>
    if mayEnd bare p.rest then some 0 else (endingAfter? bare c.2 cs).map (· + 1)

def takeComments (n : Nat) : Parse (List Node) := fun s =>
  let taken := s.comments.take n
  let last := (taken.getLast?.map Prod.snd).getD s.last
  some (taken.map fun c => Node.leaf .comment c.1,
    { s with comments := s.comments.drop n, last := last })

/-- The end of a block that is part of an expression takes the line comments after which
a statement may end; `bare` is set where no operator can follow the block. -/
def blockEnd (bare : Bool) : Parse (List Node) := do
  let s ← get
  match endingAfter? bare s.last s.comments with
  | some n => takeComments n
  | none => return []

def semicolon (bare : Bool) : Parse (List Node) := do
  let s ← get
  match endingAfter? bare s.last s.comments with
  | some n => takeComments n
  | none => option ";"

end Parse

end UiWorkspace.Script
