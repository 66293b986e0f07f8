import UiWorkspace.Class.Definition
import UiWorkspace.Format.Json

/-! Catalogs of framework classes. A catalog is tagged with the framework version it
describes and has its classes sorted by name. Where one is read, a record is an object, whose
unknown keys are passed over and whose known keys may not repeat, or an array of its fields in
order. -/
namespace UiWorkspace

open UiWorkspace.Format

structure FrameworkMember where
  name : String
  type? : Option String
deriving DecidableEq, Repr

structure FrameworkClass where
  parent? : Option String
  methods : List FrameworkMember
  fields : List FrameworkMember
deriving DecidableEq, Repr

namespace FrameworkClass

def method (name : String) : FrameworkMember := ⟨name, none⟩

def typed (name type : String) : FrameworkMember := ⟨name, some type⟩

end FrameworkClass

structure Catalog where
  version : String
  classes : List (String × FrameworkClass)
deriving DecidableEq, Repr

namespace Catalog

def empty : Catalog := ⟨"", []⟩

def class? (c : Catalog) (name : String) : Option FrameworkClass := c.classes.lookup name

/-- Adds the classes of another catalog, which take the place of those with their names.
The version stays. -/
def merge (c other : Catalog) : Catalog :=
  { c with
    classes := other.classes.foldl
      (fun t e => Table.insertSorted Ord.compare e.1 e.2 t) c.classes }

def definition? (c : Catalog) (name : String) : Option ClassDefinition :=
  (c.class? name).map fun k =>
    { name := name
      parent? := k.parent?
      members :=
        (k.methods.map fun m => Member.plain m.name .method m.type?)
          ++ (k.fields.map fun f => Member.plain f.name .field f.type?)
      aliases := []
      source? := none }

def memberJson (typeKey : String) (m : FrameworkMember) : JsonValue :=
  .object (("name", .string m.name) ::
    match m.type? with
    | some t => [(typeKey, .string t)]
    | none => [])

def classJson (k : FrameworkClass) : JsonValue :=
  .object
    ((match k.parent? with
      | some p => [("parent", .string p)]
      | none => [])
      ++ [("methods", .array (k.methods.map (memberJson "returnType"))),
          ("fields", .array (k.fields.map (memberJson "type")))])

def toJson (c : Catalog) : JsonValue :=
  .object [("version", .string c.version),
    ("classes", .object (c.classes.map fun e => (e.1, classJson e.2)))]

def write (c : Catalog) : String := c.toJson.write

def record? (keys : List String) : JsonValue → Option (List (Option JsonValue))
  | .object fields =>
    if keys.any fun k => 1 < (fields.filter fun f => f.1 == k).length then none
    else some (keys.map fun k => fields.lookup k)
  | .array items =>
    if keys.length < items.length then none
    else some ((List.range keys.length).map fun i => items[i]?)
  | _ => none

def optionalText? : Option JsonValue → Option (Option String)
  | none => some none
  | some .null => some none
  | some (.string s) => some (some s)
  | some _ => none

def readMember? (typeKey : String) (v : JsonValue) : Option FrameworkMember := do
  match ← record? ["name", typeKey] v with
  | [some (.string name), type] => some ⟨name, ← optionalText? type⟩
  | _ => none

def readMembers? (typeKey : String) : Option JsonValue → Option (List FrameworkMember)
  | none => some []
  | some (.array items) => items.mapM (readMember? typeKey)
  | some _ => none

def readClass? (v : JsonValue) : Option FrameworkClass := do
  match ← record? ["parent", "methods", "fields"] v with
  | [parent, methods, fields] =>
    some ⟨← optionalText? parent, ← readMembers? "returnType" methods, ← readMembers? "type" fields⟩
  | _ => none

/-- The classes of an object, of repeated names the last; missing classes are none. -/
def readClasses? : Option JsonValue → Option (List (String × FrameworkClass))
  | none => some []
  | some (.object fields) => do
    let classes ← fields.mapM fun f => (readClass? f.2).map fun k => (f.1, k)
    some (classes.foldl (fun t e => Table.insertSorted Ord.compare e.1 e.2 t) [])
  | some _ => none

def ofJson? (v : JsonValue) : Option Catalog := do
  match ← record? ["version", "classes"] v with
  | [some (.string version), classes] => some ⟨version, ← readClasses? classes⟩
  | _ => none

def read? (text : String) : Option Catalog := (JsonValue.read? text).bind ofJson?

end Catalog

end UiWorkspace
