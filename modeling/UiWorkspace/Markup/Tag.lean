import UiWorkspace.Text.Pieces
import UiWorkspace.Text.Span

/-! Element tags of a markup text, read in one pass from left to right. Reading is
lenient: comments, character data, processing instructions and declarations are passed
over, and whatever is not closed ends the reading with the tags found so far. -/
namespace UiWorkspace.Markup

open UiWorkspace.Text

structure Attribute where
  name : String
  value : String
  valueSpan : Span
deriving DecidableEq, Repr

structure Tag where
  text : String
  span : Span
  name : String
  attributes : List Attribute
  isClosing : Bool
  isSelfClosing : Bool
deriving DecidableEq, Repr

namespace Tag

def namespace? (t : Tag) : Option String := (splitFirst? ':' t.name).map Prod.fst

def localName (t : Tag) : String := ((splitFirst? ':' t.name).map Prod.snd).getD t.name

def attribute? (t : Tag) (name : String) : Option String :=
  (t.attributes.find? fun a => a.name == name).map Attribute.value

end Tag

def isQuote (c : Char) : Bool := c == '"' || c == '\''

/-- Where reading stands inside a tag, behind its name. Characters already read are
kept last first. -/
inductive AttributeMode where
  | gap
  | name (seen : List Char)
  /-- A name has ended; without an equals sign next it counts for nothing. -/
  | sign (name : List Char)
  | opening (name : List Char)
  | value (name : List Char) (quote : Char) (start : Nat) (seen : List Char)

/-- The attributes in `cs`, whose first byte has offset `pos`. A value without a name is
read and left out; an unquoted or unclosed value ends the reading. -/
def attributesIn : AttributeMode → Nat → List Char → List Attribute
  | _, _, [] => []
  | .gap, pos, c :: cs =>
    let next := pos + c.utf8Size
    if isAsciiBlank c then attributesIn .gap next cs
    else if c == '=' then attributesIn (.opening []) next cs
    else attributesIn (.name [c]) next cs
  | .name seen, pos, c :: cs =>
    let next := pos + c.utf8Size
    if isAsciiBlank c then attributesIn (.sign seen.reverse) next cs
    else if c == '=' then attributesIn (.opening seen.reverse) next cs
    else attributesIn (.name (c :: seen)) next cs
  | .sign name, pos, c :: cs =>
    let next := pos + c.utf8Size
    if isAsciiBlank c then attributesIn (.sign name) next cs
    else if c == '=' then attributesIn (.opening name) next cs
    else attributesIn (.name [c]) next cs
  | .opening name, pos, c :: cs =>
    let next := pos + c.utf8Size
    if isAsciiBlank c then attributesIn (.opening name) next cs
    else if isQuote c then attributesIn (.value name c next []) next cs
    else []
  | .value name quote start seen, pos, c :: cs =>
    let next := pos + c.utf8Size
    if c == quote then
      if name.isEmpty then attributesIn .gap next cs
      else
        ⟨String.ofList name, String.ofList seen.reverse, ⟨start, pos⟩⟩ :: attributesIn .gap next cs
    else attributesIn (.value name quote start (c :: seen)) next cs

/-- The tag whose `<` has offset `begin` and whose characters between `<` and `>` are
`inner`. Its name ends at a blank or a slash; without a name there is no tag. -/
def Tag.ofInner? (begin : Nat) (inner : List Char) : Option Tag :=
  let closing := inner.head? == some '/'
  let selfClosing := !closing && inner.getLast? == some '/'
  let body :=
    if closing then inner.drop 1 else if selfClosing then inner.dropLast else inner
  let bodyStart := if closing then begin + 2 else begin + 1
  let name := body.takeWhile fun c => !(isBlank c || c == '/')
  if name.isEmpty then none
  else
    let behind := body.dropWhile fun c => !(isBlank c || c == '/')
    some {
      text := String.ofList ('<' :: (inner ++ ['>']))
      span := ⟨begin, begin + byteLength inner + 2⟩
      name := String.ofList name
      attributes :=
        if closing then [] else attributesIn .gap (bodyStart + byteLength name) behind
      isClosing := closing
      isSelfClosing := selfClosing }

inductive ScanMode where
  | text
  | comment
  | characterData
  | declaration
  | tag (begin : Nat) (quote : Option Char) (seen : List Char)

/-- The tags in `cs`, whose first byte has offset `pos`. A `<` inside a tag but outside
its quoted values breaks the tag and ends the reading. -/
def tagsIn : ScanMode → Nat → List Char → List Tag
  | _, _, [] => []
  | .text, pos, '<' :: '!' :: cs =>
    if (after? ['-', '-'] cs).isSome then tagsIn .comment (pos + 2) cs
    else if (after? "[CDATA[".toList cs).isSome then tagsIn .characterData (pos + 2) cs
    else tagsIn .declaration (pos + 2) cs
  | .text, pos, '<' :: '?' :: cs => tagsIn .declaration (pos + 2) cs
  | .text, pos, '<' :: cs => tagsIn (.tag pos none []) (pos + 1) cs
  | .text, pos, c :: cs => tagsIn .text (pos + c.utf8Size) cs
  | .comment, pos, '-' :: '-' :: '>' :: cs => tagsIn .text (pos + 3) cs
  | .comment, pos, c :: cs => tagsIn .comment (pos + c.utf8Size) cs
  | .characterData, pos, ']' :: ']' :: '>' :: cs => tagsIn .text (pos + 3) cs
  | .characterData, pos, c :: cs => tagsIn .characterData (pos + c.utf8Size) cs
  | .declaration, pos, c :: cs =>
    if c == '>' then tagsIn .text (pos + 1) cs
    else tagsIn .declaration (pos + c.utf8Size) cs
  | .tag begin (some quote) seen, pos, c :: cs =>
    tagsIn (.tag begin (if c == quote then none else some quote) (c :: seen)) (pos + c.utf8Size) cs
  | .tag begin none seen, pos, c :: cs =>
    if c == '>' then
      (Tag.ofInner? begin seen.reverse).toList ++ tagsIn .text (pos + 1) cs
    else if c == '<' then []
    else tagsIn (.tag begin (if isQuote c then some c else none) (c :: seen)) (pos + c.utf8Size) cs

@[simp] theorem tagsIn_nil (mode : ScanMode) (pos : Nat) : tagsIn mode pos [] = [] := by
  simp only [tagsIn]

def tags (content : String) : List Tag := tagsIn .text 0 content.toList

end UiWorkspace.Markup
