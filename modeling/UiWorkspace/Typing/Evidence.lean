import UiWorkspace.Script.Tree

/-! What an expression can evaluate to, as far as its outer form tells: an assignment and
parentheses are what they hold, a conditional is one of two. -/
namespace UiWorkspace.Typing

open UiWorkspace.Script

inductive Evidence where
  | nothing
  | expression (n : Node)
  | either (first second : Evidence)

namespace Evidence

mutual

def ofNode : Node → Evidence
  | .mk label role span children =>
    if label == .construct .parenthesized then ofFirst children
    else if label == .construct .assignment then ofPart .right children
    else if label == .construct .ternary then
      .either (ofPart .consequence children) (ofPart .alternative children)
    else .expression (.mk label role span children)

def ofFirst : List Node → Evidence
  | [] => .nothing
  | c :: cs => if c.isNamed then ofNode c else ofFirst cs

def ofPart (role : Role) : List Node → Evidence
  | [] => .nothing
  | c :: cs => if c.role == some role then ofNode c else ofPart role cs

end

end Evidence

end UiWorkspace.Typing
