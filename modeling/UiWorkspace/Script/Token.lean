import UiWorkspace.Text.Pieces
import UiWorkspace.Text.Span

/-! Tokens of a script. Whether a slash begins a regular expression depends on the
construct around it, so tokens are read one at a time, from the place reached so far. -/
namespace UiWorkspace.Script

open UiWorkspace.Text

/-- A place in a text: its byte offset and the characters from there on. -/
structure Place where
  offset : Nat
  rest : List Char

namespace Place

def ofString (s : String) : Place := ⟨0, s.toList⟩

def advance (p : Place) (n : Nat) : Place :=
  ⟨p.offset + byteLength (p.rest.take n), p.rest.drop n⟩

end Place

inductive TokenKind where
  | name
  | privateName
  | number
  | string
  | symbol
  | stop
deriving DecidableEq, Repr

structure Token where
  kind : TokenKind
  text : String
  span : Span
deriving Repr

def isLineBreak (c : Char) : Bool :=
  c == '\n' || c == '\r' || c == '\u2028' || c == '\u2029'

/-- Blanks between tokens; beside the Unicode blanks these are three marks of no width. -/
def isSpace (c : Char) : Bool :=
  isBlank c || c == '\uFEFF' || c == '\u2060' || c == '\u200B'

/-- Whether the character can stand in a name: every character that is no control
character, blank or ASCII punctuation. -/
def isNamePart (c : Char) : Bool :=
  31 < c.toNat && !isSpace c && !(":;\x60\"'@#.,|^&<=>+-*/\\%?!~()[]\x7b\x7d".toList.contains c)

def isNameStart (c : Char) : Bool := isNamePart c && !c.isDigit

/-- The symbols of the language, those with a longer spelling first. -/
def symbols : List (List Char) :=
  [">>>=", "...", "===", "!==", "**=", "<<=", ">>=", ">>>", "&&=", "||=", "??=",
   "=>", "==", "!=", "<=", ">=", "&&", "||", "??", "?.", "++", "--", "+=", "-=", "*=", "/=",
   "%=", "&=", "|=", "^=", "<<", ">>", "**",
   "\x7b", "\x7d", "(", ")", "[", "]", ";", ",", ".", "<", ">", "+", "-", "*", "/", "%", "&", "|",
   "^", "!", "~", "?", ":", "=", "@", "\x60", "#"].map String.toList

def quotedLength (quote : Char) : List Char → Nat
  | [] => 0
  | '\\' :: _ :: cs => quotedLength quote cs + 2
  | c :: cs => if c == quote then 1 else quotedLength quote cs + 1

/-- The number of characters of a name. An escape such as `\\u0041` is part of it; with
`inBraces` the code point of an escape is being read up to its closing brace. -/
def nameLength (inBraces : Bool) : List Char → Nat
  | '\\' :: 'u' :: '\x7b' :: cs => nameLength true cs + 3
  | '\\' :: 'u' :: cs => nameLength inBraces cs + 2
  | c :: cs =>
    if inBraces && c == '\x7d' then nameLength false cs + 1
    else if isNamePart c then nameLength inBraces cs + 1
    else 0
  | [] => 0

def digitsLength (cs : List Char) : Nat :=
  (cs.takeWhile fun c => c.isDigit || c == '_').length

def exponentLength : List Char → Nat
  | e :: cs =>
    if e == 'e' || e == 'E' then
      match cs with
      | s :: ds => if s == '+' || s == '-' then 2 + digitsLength ds else 1 + digitsLength cs
      | [] => 1
    else 0
  | [] => 0

def numberLength (cs : List Char) : Nat :=
  match cs with
  | '0' :: x :: digits =>
    if "xXoObB".toList.contains x then
      2 + (digits.takeWhile fun c => c.isAlphanum || c == '_').length
    else decimal cs
  | _ => decimal cs
where
  decimal (cs : List Char) : Nat :=
    let whole := digitsLength cs
    let fraction :=
      match cs.drop whole with
      | '.' :: ds => 1 + digitsLength ds
      | _ => 0
    let exponent := exponentLength (cs.drop (whole + fraction))
    let size := whole + fraction + exponent
    if (cs.drop size).head? == some 'n' then size + 1 else size

def blockCommentLength : List Char → Nat
  | '*' :: '/' :: _ => 2
  | _ :: cs => blockCommentLength cs + 1
  | [] => 0

def commentLength? : List Char → Option Nat
  | '/' :: '/' :: cs => some (2 + (cs.takeWhile fun c => !isLineBreak c).length)
  | '/' :: '*' :: cs => some (2 + blockCommentLength cs)
  | _ => none

/-- The number of characters of a regular expression behind its opening slash, flags
included; a slash inside brackets does not close it. -/
def regexLength (inBrackets : Bool) : List Char → Nat
  | '\\' :: _ :: cs => regexLength inBrackets cs + 2
  | c :: cs =>
    if c == '/' && !inBrackets then 1 + (cs.takeWhile Char.isAlpha).length
    else regexLength (if c == '[' then true else if c == ']' then false else inBrackets) cs + 1
  | [] => 0

def tokenShape (cs : List Char) : TokenKind × Nat :=
  match cs with
  | [] => (.stop, 0)
  | c :: rest =>
    if isNameStart c || c == '\\' then (.name, max 1 (nameLength false cs))
    else if c.isDigit || (c == '.' && rest.head?.any Char.isDigit) then (.number, numberLength cs)
    else if c == '"' || c == '\'' then (.string, 1 + quotedLength c rest)
    else if c == '#' && rest.head?.any isNameStart then (.privateName, 1 + nameLength false rest)
    else if c == '?' && rest.head? == some '.' && (rest.drop 1).head?.any Char.isDigit then (.symbol, 1)
    else match symbols.find? fun s => (after? s cs).isSome with
      | some s => (.symbol, s.length)
      | none => (.symbol, 1)

def tokenAt (p : Place) : Token × Place :=
  let (kind, size) := tokenShape p.rest
  let next := p.advance size
  (⟨kind, String.ofList (p.rest.take size), ⟨p.offset, next.offset⟩⟩, next)

/-- What stands between two tokens: the comments, each with the place behind it, whether
a line ends there, and the place of the next token. -/
structure Gap where
  comments : List (Span × Place)
  lineBreak : Bool
  next : Place

def gapFrom : Nat → Place → Gap
  | 0, p => ⟨[], false, p⟩
  | fuel + 1, p =>
    let blanks := p.rest.takeWhile isSpace
    let here := p.advance blanks.length
    let broken := blanks.any isLineBreak
    match commentLength? here.rest with
    | none => ⟨[], broken, here⟩
    | some size =>
      let behind := here.advance size
      let more := gapFrom fuel behind
      ⟨(⟨here.offset, behind.offset⟩, behind) :: more.comments,
        broken || more.lineBreak || (here.rest.take size).any isLineBreak, more.next⟩

def gapAt (p : Place) : Gap := gapFrom (p.rest.length + 1) p

end UiWorkspace.Script
