import UiWorkspace.Error
import UiWorkspace.Text.Pieces

/-! What a scan reports: counts, and the first of the failures. -/
namespace UiWorkspace.Scan

inductive Phase where
  | manifests
  | fragments
  | views
  | scripts
deriving DecidableEq, Repr

def Phase.label : Phase → String
  | manifests => "manifests"
  | fragments => "fragments"
  | views => "views"
  | scripts => "scripts"

inductive Fault where
  | manifest (error : WorkspaceError)
  | markup
  | script (fault : ReadFault)
deriving Repr

def Fault.message : Fault → String
  | manifest error => error.message
  | markup => "unreadable markup document"
  | script fault => fault.message

inductive Found where
  | manifest
  | document
  | script
  /-- A script below no manifest. -/
  | outside
deriving DecidableEq, Repr

structure Report where
  indexed : Nat
  failed : Nat
  manifests : Nat
  classes : Nat
  cancelled : Bool
  errors : List (FilePath × Fault)
deriving Repr

namespace Report

def empty : Report := ⟨0, 0, 0, 0, false, []⟩

def maxErrors : Nat := 100

def addFault (r : Report) (path : FilePath) (fault : Fault) : Report :=
  { r with
    failed := r.failed + 1
    errors := if r.errors.length < maxErrors then r.errors ++ [(path, fault)] else r.errors }

def addFound (r : Report) (found : Found) : Report :=
  { r with
    indexed := r.indexed + 1
    manifests := if found = .manifest then r.manifests + 1 else r.manifests
    classes := if found = .script then r.classes + 1 else r.classes }

def add (r : Report) (path : FilePath) : Except Fault Found → Report
  | .ok found => r.addFound found
  | .error fault => r.addFault path fault

def shownErrors : Nat := 5

def errorLines (r : Report) : List String :=
  if r.errors.isEmpty then []
  else
    let shown := r.errors.take shownErrors
    ["", "Errors (showing first " ++ toString shown.length ++ "):"]
      ++ shown.map (fun e => "  " ++ e.1.text ++ ": " ++ e.2.message)
      ++ (if shownErrors < r.errors.length then
          ["  ... and " ++ toString (r.errors.length - shownErrors) ++ " more errors"]
        else [])

def lines (r : Report) (elapsed : String) : List String :=
  ["", if r.cancelled then "Indexing cancelled:" else "Indexing complete:",
    "  Files indexed: " ++ toString r.indexed,
    "  Files failed: " ++ toString r.failed,
    "  Manifests: " ++ toString r.manifests,
    "  Classes: " ++ toString r.classes,
    "  Time elapsed: " ++ elapsed] ++ r.errorLines

end Report

end UiWorkspace.Scan
