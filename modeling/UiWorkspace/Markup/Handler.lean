import UiWorkspace.Markup.Tag

/-! Attribute values that name a method of the controller. Such a value is a name, with
an optional dot before it and an optional argument list behind it; whether the
controller has a method of that name is decided elsewhere. -/
namespace UiWorkspace.Markup

open UiWorkspace.Text

structure HandlerReference where
  attributeName : String
  name : String
  span : Span
deriving DecidableEq, Repr

def isNameChar (c : Char) : Bool := c.isAlphanum || c == '_' || c == '$'

/-- Attributes that carry names and never bind an event. -/
def isStructural (name : String) : Bool :=
  ["id", "controllerName", "fragmentName", "viewName", "xmlns"].contains name
    || startsWith "xmlns:" name
    || contains ":require" name

def isArguments (cs : List Char) : Bool :=
  cs.isEmpty || (cs.head? == some '(' && cs.getLast? == some ')')

/-- The handler name in a value that is already trimmed, as the characters before it
and its own. -/
def handlerName? (cs : List Char) : Option (List Char × List Char) :=
  let lead := if cs.head? == some '.' then ['.'] else []
  let body := cs.drop lead.length
  let name := body.takeWhile isNameChar
  if name.isEmpty || (name.head?.any Char.isDigit) then none
  else if isArguments (body.dropWhile isNameChar) then some (lead, name)
  else none

def handlerSpan? (value : String) : Option Span :=
  let cs := value.toList
  (handlerName? (trimChars cs)).map fun (lead, name) =>
    let start := byteLength (cs.takeWhile isBlank) + byteLength lead
    ⟨start, start + byteLength name⟩

def Attribute.handler? (a : Attribute) : Option HandlerReference :=
  if isStructural a.name then none
  else do
    let place ← handlerSpan? a.value
    some ⟨a.name, place.sliceD a.value, place.shift a.valueSpan.start⟩

def handlerReferences (ts : List Tag) : List HandlerReference :=
  (ts.filter fun t => !t.isClosing).flatMap fun t => t.attributes.filterMap Attribute.handler?

end UiWorkspace.Markup
