import UiWorkspace.Catalog.Basic

/-! The framework classes known without any metadata file. -/
namespace UiWorkspace.Catalog

open FrameworkClass (method typed)

def bundledClasses : List (String × FrameworkClass) :=
  [("sap.m.Button", ⟨some "sap.ui.core.Control",
      [method "getText", typed "setText" "sap.m.Button", method "getEnabled",
       typed "setEnabled" "sap.m.Button", typed "setIcon" "sap.m.Button",
       typed "attachPress" "sap.m.Button", typed "firePress" "sap.m.Button"], []⟩),
   ("sap.m.Dialog", ⟨some "sap.ui.core.Control",
      [typed "open" "sap.m.Dialog", typed "close" "sap.m.Dialog", method "isOpen"], []⟩),
   ("sap.m.Input", ⟨some "sap.m.InputBase",
      [typed "setPlaceholder" "sap.m.Input", method "getSelectedKey"], []⟩),
   ("sap.m.InputBase", ⟨some "sap.ui.core.Control",
      [method "getValue", typed "setValue" "sap.m.InputBase",
       typed "setValueState" "sap.m.InputBase"], []⟩),
   ("sap.m.MessageBox", ⟨some "sap.ui.base.Object",
      [method "show", method "alert", method "confirm", method "error"], []⟩),
   ("sap.m.MessageToast", ⟨some "sap.ui.base.Object",
      [method "show"], []⟩),
   ("sap.m.Page", ⟨some "sap.ui.core.Control",
      [method "getTitle", typed "setTitle" "sap.m.Page", typed "addContent" "sap.m.Page"], []⟩),
   ("sap.m.Text", ⟨some "sap.ui.core.Control",
      [method "getText", typed "setText" "sap.m.Text"], []⟩),
   ("sap.ui.base.Event", ⟨some "sap.ui.base.Object",
      [method "getId", typed "getSource" "sap.ui.base.EventProvider", method "getParameter",
       method "getParameters", method "preventDefault"], []⟩),
   ("sap.ui.base.EventProvider", ⟨some "sap.ui.base.Object",
      [typed "attachEvent" "sap.ui.base.EventProvider",
       typed "detachEvent" "sap.ui.base.EventProvider",
       typed "fireEvent" "sap.ui.base.EventProvider", method "hasListeners"], []⟩),
   ("sap.ui.base.ManagedObject", ⟨some "sap.ui.base.EventProvider",
      [method "getId", typed "getModel" "sap.ui.model.Model",
       typed "setModel" "sap.ui.base.ManagedObject", method "getProperty",
       typed "setProperty" "sap.ui.base.ManagedObject",
       typed "bindProperty" "sap.ui.base.ManagedObject",
       typed "bindElement" "sap.ui.base.ManagedObject",
       typed "getBindingContext" "sap.ui.model.Context",
       typed "getParent" "sap.ui.base.ManagedObject", method "getAggregation",
       typed "clone" "sap.ui.base.ManagedObject"], []⟩),
   ("sap.ui.base.Metadata", ⟨some "sap.ui.base.Object",
      [method "getName", typed "getParent" "sap.ui.base.Metadata"], []⟩),
   ("sap.ui.base.Object", ⟨none,
      [typed "getMetadata" "sap.ui.base.Metadata", typed "getInterface" "sap.ui.base.Object",
       method "destroy"], []⟩),
   ("sap.ui.core.Component", ⟨some "sap.ui.base.ManagedObject",
      [method "getManifest", method "getManifestEntry", method "init"], []⟩),
   ("sap.ui.core.Control", ⟨some "sap.ui.core.Element",
      [typed "addStyleClass" "sap.ui.core.Control",
       typed "removeStyleClass" "sap.ui.core.Control",
       typed "setVisible" "sap.ui.core.Control", method "getVisible",
       typed "setBusy" "sap.ui.core.Control", method "invalidate",
       typed "placeAt" "sap.ui.core.Control"], []⟩),
   ("sap.ui.core.Element", ⟨some "sap.ui.base.ManagedObject",
      [method "getDomRef", method "focus", method "data",
       typed "addDependent" "sap.ui.core.Element"], []⟩),
   ("sap.ui.core.Fragment", ⟨some "sap.ui.base.ManagedObject",
      [method "load", typed "byId" "sap.ui.core.Element", method "createId"], []⟩),
   ("sap.ui.core.UIComponent", ⟨some "sap.ui.core.Component",
      [typed "getRouter" "sap.ui.core.routing.Router",
       typed "getRootControl" "sap.ui.core.Control",
       typed "createContent" "sap.ui.core.Control"], []⟩),
   ("sap.ui.core.mvc.Controller", ⟨some "sap.ui.base.EventProvider",
      [typed "getView" "sap.ui.core.mvc.View", typed "byId" "sap.ui.core.Element",
       method "createId", typed "getOwnerComponent" "sap.ui.core.UIComponent",
       method "onInit", method "onExit", method "onBeforeRendering",
       method "onAfterRendering"], []⟩),
   ("sap.ui.core.mvc.View", ⟨some "sap.ui.core.Control",
      [typed "byId" "sap.ui.core.Element", method "createId",
       typed "getController" "sap.ui.core.mvc.Controller", method "getViewName"], []⟩),
   ("sap.ui.core.mvc.XMLView", ⟨some "sap.ui.core.mvc.View",
      [], []⟩),
   ("sap.ui.core.routing.Route", ⟨some "sap.ui.base.EventProvider",
      [typed "attachPatternMatched" "sap.ui.core.routing.Route",
       typed "attachMatched" "sap.ui.core.routing.Route"], []⟩),
   ("sap.ui.core.routing.Router", ⟨some "sap.ui.base.EventProvider",
      [typed "navTo" "sap.ui.core.routing.Router",
       typed "getRoute" "sap.ui.core.routing.Route",
       typed "initialize" "sap.ui.core.routing.Router"], []⟩),
   ("sap.ui.model.ClientModel", ⟨some "sap.ui.model.Model",
      [method "getData", method "setData"], []⟩),
   ("sap.ui.model.Context", ⟨some "sap.ui.base.Object",
      [method "getObject", method "getPath", method "getProperty",
       typed "getModel" "sap.ui.model.Model"], []⟩),
   ("sap.ui.model.Model", ⟨some "sap.ui.base.EventProvider",
      [method "getProperty", method "setProperty", method "bindList", method "refresh",
       method "getResourceBundle"], []⟩),
   ("sap.ui.model.json.JSONModel", ⟨some "sap.ui.model.ClientModel",
      [method "loadData", method "getJSON", method "setJSON"], []⟩)]

def bundled : Catalog := ⟨"bundled", bundledClasses⟩

end UiWorkspace.Catalog
