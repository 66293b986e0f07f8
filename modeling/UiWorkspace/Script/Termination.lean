import UiWorkspace.Script.Token

/-! Where a statement may end without a semicolon. It may end before a closing brace, at
the end of the text, and at a line break, unless the next line begins with a character
that continues an expression. -/
namespace UiWorkspace.Script

open UiWorkspace.Text

def isAsciiSpace (c : Char) : Bool := c == ' ' || (9 ≤ c.toNat && c.toNat ≤ 13)

/-- Line breaks that end a statement; a carriage return alone does not. -/
def endsLine (c : Char) : Bool := c == '\n' || c == '\u2028' || c == '\u2029'

inductive Passage where
  /-- A slash that begins no comment. -/
  | slash
  /-- Stopped behind a block comment, which held a line break or did not. -/
  | blockComment (lineBreak : Bool) (rest : List Char)
  /-- Read up to something else. -/
  | through (rest : List Char)

/-- Reads over blanks and comments. Unless `through` is set, it stops behind a block
comment that no slash follows. The first argument bounds the number of comments. -/
def passage (through : Bool) : Nat → Bool → List Char → Passage
  | 0, _, cs => .through cs
  | fuel + 1, lineBreak, cs =>
    match cs.dropWhile isAsciiSpace with
    | '/' :: '/' :: rest => passage through fuel lineBreak (rest.dropWhile fun c => !endsLine c)
    | '/' :: '*' :: rest =>
      let size := blockCommentLength rest
      let broken := lineBreak || (rest.take size).any endsLine
      let behind := rest.drop size
      if through || behind.head? == some '/' then passage through fuel broken behind
      else .blockComment broken behind
    | '/' :: _ => .slash
    | rest => .through rest

def endsBefore (cs : List Char) : Bool :=
  match cs with
  | '.' :: rest => rest.head?.any Char.isDigit
  | '+' :: rest => rest.head? == some '+'
  | '-' :: rest => rest.head? == some '-'
  | '!' :: rest => rest.head? != some '='
  | 'i' :: 'n' :: rest =>
    if !(rest.head?.any Char.isAlpha) then false
    else match after? "stanceof".toList rest with
      | some behind => behind.head?.any Char.isAlpha
      | none => true
  | c :: _ => !("\x60,:;*%><=[(?^|&/".toList.contains c)
  | [] => true

/-- Whether a statement may end behind comments that did or did not lead to another line, given
whether it may end further on. -/
def stopsAt (bare newLine : Bool) (further : List Char → Bool) (rest : List Char) : Bool :=
  if bare && newLine && rest.head? != some ',' && rest.head? != some '=' then true
  else match rest with
    | [] => false
    | c :: next =>
      if c == '\x7d' then true
      else if endsLine c then
        match passage true (next.length + 1) false next with
        | .slash => false
        | .blockComment _ last => endsBefore last
        | .through last => endsBefore last
      else isAsciiSpace c && further next

/-- Whether a statement may end here, where the last token or comment has ended. With
`bare` set no operator can follow, so a comment that leads to another line ends the
statement at once. The first argument bounds the number of comments passed over. -/
def mayEndFrom (bare : Bool) : Nat → List Char → Bool
  | 0, _ => false
  | fuel + 1, cs =>
    match cs with
    | [] => true
    | '/' :: _ =>
      match passage false (cs.length + 1) false cs with
      | .slash => false
      | .blockComment lineBreak rest => stopsAt bare lineBreak (mayEndFrom bare fuel) rest
      | .through rest => stopsAt bare true (mayEndFrom bare fuel) rest
    | c :: rest =>
      if c == '\x7d' then true
      else if endsLine c then
        match passage true (rest.length + 1) false rest with
        | .slash => false
        | .blockComment _ next => endsBefore next
        | .through next => endsBefore next
      else isAsciiSpace c && mayEndFrom bare fuel rest

def mayEnd (bare : Bool) (cs : List Char) : Bool := mayEndFrom bare (cs.length + 1) cs

end UiWorkspace.Script
