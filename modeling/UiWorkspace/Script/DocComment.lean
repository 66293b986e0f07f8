import UiWorkspace.Text.Pieces
import UiWorkspace.Text.Word

/-! Types written in documentation comments: `@returns {T}`, `@type {T}` and
`@param {T} name`. -/
namespace UiWorkspace.Script.DocComment

open UiWorkspace.Text

/-- The text in braces at the beginning, blanks before it allowed, and what follows it.
Between the braces stands at least one character. -/
def braced? (cs : List Char) : Option (List Char × List Char) :=
  match cs.dropWhile isBlank with
  | '\x7b' :: inside =>
    let inner := inside.takeWhile fun c => c != '\x7d'
    match inside.dropWhile fun c => c != '\x7d' with
    | _ :: behind => if inner.isEmpty then none else some (inner, behind)
    | [] => none
  | _ => none

/-- The text in braces behind the first occurrence of a tag that has one; `plural` lets
an `s` follow the tag. -/
def firstBraced? (tag : List Char) (plural : Bool) : List Char → Option String
  | [] => none
  | c :: cs =>
    let here := do
      let behind ← after? tag (c :: cs)
      let behind := if plural && behind.head? == some 's' then behind.drop 1 else behind
      let (inner, _) ← braced? behind
      some (String.ofList inner)
    here <|> firstBraced? tag plural cs

def returnType? (doc : String) : Option String := firstBraced? "@return".toList true doc.toList

def fieldType? (doc : String) : Option String := firstBraced? "@type".toList false doc.toList

/-- The type, the name and the length of a `@param {T} name` that begins here. A bracket
may open before the name, which begins with an ASCII letter, `_` or `$`. -/
def paramAt? (cs : List Char) : Option (String × String × Nat) := do
  let behind ← after? "@param".toList cs
  let (type, behind) ← braced? behind
  let behind := behind.dropWhile isBlank
  let behind := if behind.head? == some '[' then behind.drop 1 else behind
  match behind with
  | [] => none
  | c :: rest =>
    if c.isAlpha || c == '_' || c == '$' then
      let more := rest.takeWhile fun c => isWordChar c || c == '$'
      some (String.ofList type, String.ofList (c :: more),
        cs.length - (rest.length - more.length))
    else none

def paramsIn : Nat → List Char → List (String × String)
  | _, [] => []
  | skip + 1, _ :: cs => paramsIn skip cs
  | 0, c :: cs =>
    match paramAt? (c :: cs) with
    | some (type, name, size) => (name, type) :: paramsIn (size - 1) cs
    | none => paramsIn 0 cs

def paramType? (doc name : String) : Option String := (paramsIn 0 doc.toList).lookup name

def plainTypes : List String :=
  ["any", "array", "Array", "bigint", "boolean", "Boolean", "Date", "Error", "float", "function",
   "Function", "int", "Map", "null", "number", "Number", "object", "Object", "Promise", "RegExp",
   "Set", "string", "String", "symbol", "this", "undefined", "void", "*"]

/-- The class a documented type stands for, if it stands for exactly one: through its
short name, or because it is a dotted name itself. -/
def className? (raw : String) (aliases : List (String × String)) : Option String :=
  let cs := dropLeads "module:".toList (by decide) (trimChars raw.toList)
  let name := String.ofList cs
  if cs.isEmpty || cs.any (fun c => "|<([\x7b ?!".toList.contains c) || plainTypes.contains name then
    none
  else
    let dotted := replaceChar '/' '.' name
    match aliases.lookup dotted with
    | some full => some full
    | none => if dotted.toList.contains '.' then some dotted else none

end UiWorkspace.Script.DocComment
