import UiWorkspace.FilePath
import UiWorkspace.Markup.Handler

/-! Views and fragments. What a document says about its controller and its fragments is
searched in its plain text; control ids, namespaces and handlers come from its tags. -/
namespace UiWorkspace.Markup

open UiWorkspace.Text

inductive DocumentKind where
  | view
  | fragment
deriving DecidableEq, Repr

def DocumentKind.ofPath? (path : FilePath) : Option DocumentKind := do
  let name ← path.fileName?
  if endsWith ".fragment.xml" name then some .fragment
  else if endsWith ".view.xml" name then some .view
  else none

/-- The value in `key = "value"` at the beginning of `cs`, and the number of characters
read. Any two quotes enclose a value, which is not empty and holds no quote. -/
def assignedAt? (key : List Char) (cs : List Char) : Option (List Char × Nat) :=
  match after? key cs with
  | none => none
  | some afterKey =>
    match afterKey.dropWhile isBlank with
    | '=' :: afterSign =>
      match afterSign.dropWhile isBlank with
      | quote :: inside =>
        let value := inside.takeWhile fun c => !isQuote c
        match inside.dropWhile fun c => !isQuote c with
        | _ :: behind =>
          if isQuote quote && !value.isEmpty then some (value, cs.length - behind.length) else none
        | [] => none
      | [] => none
    | _ => none

/-- The values assigned to `key` anywhere in the text, in order, each search going on
behind the last hit. The first argument counts characters still to be passed over. -/
def assignedIn (key : List Char) : Nat → List Char → List (List Char)
  | _, [] => []
  | skip + 1, _ :: cs => assignedIn key skip cs
  | 0, c :: cs =>
    match assignedAt? key (c :: cs) with
    | some (value, size) => value :: assignedIn key (size - 1) cs
    | none => assignedIn key 0 cs

def assigned (key content : String) : List String :=
  (assignedIn key.toList 0 content.toList).map fun v => String.ofList (trimChars v)

structure Document where
  path : FilePath
  kind : DocumentKind
  content : String
  /-- The controller a view names; a fragment names none. -/
  controller? : Option String
  fragments : List String
deriving Repr

namespace Document

def new (path : FilePath) (kind : DocumentKind) (content : String) : Document where
  path := path
  kind := kind
  content := content
  controller? :=
    match kind with
    | .view => (assigned "controllerName" content).head?
    | .fragment => none
  fragments := (assigned "fragmentName" content).foldl
    (fun names name => if names.contains name then names else names ++ [name]) []

def ofPath? (path : FilePath) (content : String) : Option Document :=
  (DocumentKind.ofPath? path).map fun kind => new path kind content

def tags (d : Document) : List Tag := Markup.tags d.content

/-- The key an attribute declares a namespace for; the empty key is the default. -/
def namespaceKey? (a : Attribute) : Option String :=
  if a.name = "xmlns" then some "" else stripLead? "xmlns:" a.name

/-- The declared namespaces, the first declaration of each key first. -/
def namespaces (d : Document) : List (String × String) :=
  (d.tags.flatMap Tag.attributes).foldl declare []
where
  declare (found : List (String × String)) (a : Attribute) : List (String × String) :=
    match namespaceKey? a with
    | some key => if (found.lookup key).isSome then found else found ++ [(key, a.value)]
    | none => found

/-- The class of the control each id names, the first tag with an id counting. -/
def ids (d : Document) : List (String × String) :=
  let spaces := d.namespaces
  (d.tags.filter fun t => !t.isClosing).foldl (declare spaces) []
where
  declare (spaces found : List (String × String)) (t : Tag) : List (String × String) :=
    match t.attribute? "id", spaces.lookup (t.namespace?.getD "") with
    | some id, some space =>
      if (found.lookup id).isSome then found else found ++ [(id, space ++ "." ++ t.localName)]
    | _, _ => found

def classForId? (d : Document) (id : String) : Option String := d.ids.lookup id

def handlers (d : Document) : List HandlerReference := handlerReferences d.tags

def includes (d : Document) (fragment : String) : Bool := d.fragments.contains fragment

end Document

end UiWorkspace.Markup

namespace UiWorkspace

inductive FileRole where
  | manifest
  | markup (kind : Markup.DocumentKind)
  | script
  | other
deriving DecidableEq, Repr

def FileRole.ofPath (path : FilePath) : FileRole :=
  match path.fileName? with
  | none => .other
  | some name =>
    if name = "manifest.json" then .manifest
    else
      match Markup.DocumentKind.ofPath? path with
      | some kind => .markup kind
      | none => if Text.endsWith ".js" name then .script else .other

end UiWorkspace
