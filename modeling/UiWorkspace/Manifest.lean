import UiWorkspace.Error
import UiWorkspace.Format.Json
import UiWorkspace.Text.Pieces

/-! Component descriptors. The descriptor at the root of a component names the component,
which owns the class names below its own name, and says where views of other components
are extended. -/
namespace UiWorkspace

open UiWorkspace.Format
open UiWorkspace.Text

structure Manifest where
  component : String
  /-- The directory that holds the descriptor. -/
  root : FilePath
  path : FilePath
  content : JsonValue
deriving Repr

structure ViewExtension where
  view : String
  point : String
  fragment : String
deriving DecidableEq, Repr

namespace Manifest

def componentName? (content : JsonValue) : Option String := do
  let id ← (← content.at? ["sap.app", "id"]).string?
  if trim id = "" then none else some (trim id)

def parse (path : FilePath) (text : String) : Except WorkspaceError Manifest :=
  match JsonValue.document? text with
  | none => .error (.manifestParse path (.malformed "not a JSON document"))
  | some content =>
    match componentName? content with
    | none => .error (.manifestParse path .missingId)
    | some component => .ok ⟨component, path.parent?.getD ⟨""⟩, path, content⟩

/-- The part of a class name behind the component's name, for a class of the component.
The component's name ends at a dot: `App` owns `App.view.Main`, not `Application.Main`. -/
def relativeName? (m : Manifest) (className : String) : Option String :=
  stripLead? (m.component ++ ".") className

def owns (m : Manifest) (className : String) : Bool := (m.relativeName? className).isSome

def defaultBundle : String := "i18n/i18n.properties"

def bundlePath (m : Manifest) : FilePath :=
  m.root.push <|
    match m.content.at? ["sap.app", "i18n"] with
    | some (.string path) => path
    | some v => ((v.field? "bundleUrl").bind JsonValue.string?).getD defaultBundle
    | none => defaultBundle

def extension? (m : Manifest) (kind : String) : Option JsonValue :=
  m.content.at? ["sap.ui5", "extends", "extensions", kind]

def viewExtensions (m : Manifest) : List ViewExtension :=
  match m.extension? "sap.ui.viewExtensions" with
  | none => []
  | some views =>
    views.sortedFields.flatMap fun (view, points) =>
      points.sortedFields.filterMap fun (point, target) =>
        ((target.field? "fragmentName").bind JsonValue.string?).map fun fragment =>
          ⟨view, point, fragment⟩

/-- The controller put in the place of another, given by its name or by an object. -/
def controllerReplacement? (m : Manifest) (controller : String) : Option String := do
  match ← (← m.extension? "sap.ui.controllerReplacements").field? controller with
  | .string name => some name
  | v => (← v.field? "controllerName").string?

end Manifest

end UiWorkspace
