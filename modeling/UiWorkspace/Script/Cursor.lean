import UiWorkspace.Script.Tree

/-! Places in a syntax tree: a node together with the way that leads to it from the root. -/
namespace UiWorkspace.Script

/-- One step down: the node that was left, and the siblings passed over, nearest first. -/
structure Descent where
  parent : Node
  passed : List Node

/-- A node and the steps that lead to it, the last step first. -/
structure Cursor where
  focus : Node
  above : List Descent

namespace Cursor

def ofRoot (root : Node) : Cursor := ⟨root, []⟩

def parent? (c : Cursor) : Option Cursor :=
  match c.above with
  | [] => none
  | step :: above => some ⟨step.parent, above⟩

/-- The nearest construct before the node among the parts of its parent. -/
def previousNamed? (c : Cursor) : Option Node :=
  match c.above with
  | [] => none
  | step :: _ => step.passed.find? Node.isNamed

def enclosing (c : Cursor) : List Cursor := go c.focus c.above
where
  go (focus : Node) : List Descent → List Cursor
    | [] => [⟨focus, []⟩]
    | step :: above => ⟨focus, step :: above⟩ :: go step.parent above

mutual

def descend (first last : Nat) (above : List Descent) : Node → Cursor
  | .mk label role span children =>
    descendInto first last (.mk label role span children) above [] children

/-- Looks for the part to go down into: the first one that reaches past `first` and at
least to `last`, provided it begins early enough. -/
def descendInto (first last : Nat) (parent : Node) (above : List Descent) (passed : List Node) :
    List Node → Cursor
  | [] => ⟨parent, above⟩
  | c :: cs =>
    if c.span.stop < last || c.span.stop ≤ first then
      descendInto first last parent above (c :: passed) cs
    else if first < c.span.start then ⟨parent, above⟩
    else descend first last (⟨parent, passed⟩ :: above) c

end

def spanning (root : Node) (range : Text.Span) : Cursor := descend range.start range.stop [] root

/-- The smallest node over an offset: the root where there is none. -/
def atOffset (root : Node) (offset : Nat) : Cursor := descend offset offset [] root

mutual

def preorderFrom (above : List Descent) : Node → List Cursor
  | .mk label role span children =>
    ⟨.mk label role span children, above⟩ ::
      preorderAll (.mk label role span children) above [] children

def preorderAll (parent : Node) (above : List Descent) (passed : List Node) :
    List Node → List Cursor
  | [] => []
  | c :: cs =>
    preorderFrom (⟨parent, passed⟩ :: above) c ++ preorderAll parent above (c :: passed) cs

end

def preorder (root : Node) : List Cursor := preorderFrom [] root

end Cursor

end UiWorkspace.Script
