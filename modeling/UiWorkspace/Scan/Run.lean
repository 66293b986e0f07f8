import UiWorkspace.Scan.Files
import UiWorkspace.Scan.Report
import UiWorkspace.Workspace.Events

/-! The scan of a workspace: all manifests first, since class names hang on them, then the
fragments, the views and the scripts. A file that fails is reported and passed over; the
scan can be stopped between two files. -/
namespace UiWorkspace.Scan

open UiWorkspace.Workspace

inductive Notice where
  | phase (phase : Phase) (total : Nat)
  | done (path : FilePath)
deriving Repr

/-- The state of a scan beside the workspace: the report, the notices given, latest first,
and the number of files done. -/
structure Course where
  report : Report
  notices : List Notice
  done : Nat

def Course.start : Course := ⟨Report.empty, [], 0⟩

def Course.finish (c : Course) (path : FilePath) (outcome : Except Fault Found) : Course :=
  ⟨c.report.add path outcome, .done path :: c.notices, c.done + 1⟩

def Course.cancel (c : Course) : Course := { c with report := { c.report with cancelled := true } }

def indexManifest (path : FilePath) : Query (Except Fault Found) := do
  match ← loadManifest path with
  | .ok _ => return .ok .manifest
  | .error e => return .error (.manifest e)

def indexDocument (path : FilePath) : Query (Except Fault Found) := do
  match ← loadDocument path with
  | some _ => return .ok .document
  | none => return .error .markup

def indexScript (path : FilePath) : Query (Except Fault Found) := do
  match (← get).className? path with
  | none => return .ok .outside
  | some name =>
    match (← get).source.read path with
    | .error fault => return .error (.script fault)
    | .ok text =>
      discard (setScript name path text)
      return .ok .script

def indexFile (phase : Phase) (path : FilePath) : Query (Except Fault Found) :=
  match phase with
  | .manifests => indexManifest path
  | .fragments | .views => indexDocument path
  | .scripts => indexScript path

def runFiles (stopAfter? : Option Nat) (phase : Phase) : Course → List FilePath → Query Course
  | course, [] => return course
  | course, path :: paths => do
    if stopAfter?.any (· ≤ course.done) then return course.cancel
    let outcome ← indexFile phase path
    runFiles stopAfter? phase (course.finish path outcome) paths

/-- Runs the phases one after the other. Once the manifests are read all models go. -/
def runPhases (stopAfter? : Option Nat) : Course → List (Phase × List FilePath) → Query Course
  | course, [] => return course
  | course, (phase, paths) :: rest => do
    let course := { course with notices := .phase phase paths.length :: course.notices }
    let course ← runFiles stopAfter? phase course paths
    if course.report.cancelled then return course
    if phase = .manifests then modify resetModels
    runPhases stopAfter? course rest

def phases (f : WorkspaceFiles) : List (Phase × List FilePath) :=
  [(.manifests, f.manifests), (.fragments, f.fragments), (.views, f.views), (.scripts, f.scripts)]

def run (stopAfter? : Option Nat) (files : WorkspaceFiles) : Query (Report × List Notice) := do
  let course ← runPhases stopAfter? Course.start (phases files)
  return (course.report, course.notices.reverse)

/-- The workspace files below the roots, root after root. Only a tree of files can be
searched. -/
def filesOf (w : Workspace) (roots : List FilePath) : WorkspaceFiles :=
  match w.source with
  | .memory _ => WorkspaceFiles.empty
  | .tree base t => roots.foldl (fun found root => found.append (collect t w.settings base root)) .empty

def scan (stopAfter? : Option Nat) (roots : List FilePath) : Query (Report × List Notice) := do
  run stopAfter? (filesOf (← get) roots)

end UiWorkspace.Scan
