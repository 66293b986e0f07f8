import UiWorkspace.CommandLine.Arguments
import UiWorkspace.Scan.Run
import UiWorkspace.Settings.Variables
import UiWorkspace.Workspace.Rename

/-! The commands. A command sees a tree of files from a directory in it, with the variables
of its environment, and leaves output and a tree behind. -/
namespace UiWorkspace

open UiWorkspace.Format

def Typing.text (type? : Option String) : String := type?.getD "<unresolved>"

def Typing.json : Option String → JsonValue
  | some name => .object [("Resolved", .string name)]
  | none => .string "Unresolved"

namespace CommandLine

structure Surroundings where
  tree : FileTree
  here : Place
  environment : List (String × String)

structure Outcome where
  exit : Nat
  /-- The printed lines, given the time the command took. -/
  lines : (elapsed : String) → List String
  complaints : List String
  tree : FileTree

namespace Surroundings

def print (s : Surroundings) (lines : List String) : Outcome := ⟨0, fun _ => lines, [], s.tree⟩

def fail (s : Surroundings) (message : String) (advice : List String) : Outcome :=
  ⟨1, fun _ => [], ("Error: " ++ message) :: advice.map fun a => "  - " ++ a, s.tree⟩

def refuse (s : Surroundings) : Outcome := ⟨2, fun _ => [], [], s.tree⟩

def read? (s : Surroundings) (path : FilePath) : Option String := s.tree.read? s.here path

/-- The full path of what is there, and other paths as they are. -/
def absolute (s : Surroundings) (path : FilePath) : FilePath :=
  match s.tree.find? s.here path with
  | some place => FileTree.pathOf place
  | none => path

def directories (s : Surroundings) : List Place := s.here :: Scan.above s.here

def settingsFile : String := "settings.toml"

def workspaceRoot? (s : Surroundings) : Option Place :=
  s.directories.find? fun d => s.tree.isDirectory (d ++ [Settings.directory])

/-- The text of a settings file, which is searched from here upwards if its path is
relative. -/
def settingsText? (s : Surroundings) (path : FilePath) : Option String :=
  if path.isAbsolute then s.tree.read? s.here path
  else s.directories.findSome? fun d => s.tree.read? d path

def ownSettings? (s : Surroundings) : Option Settings := do
  let root? := s.workspaceRoot?
  let text? := root?.bind fun root => s.tree.fileAt? (root ++ [Settings.directory, settingsFile])
  let settings ← Settings.loadAll? text? s.environment
  some
    { settings with
      workspaceRoot? := settings.workspaceRoot?.orElse fun _ => root?.map FileTree.pathOf }

/-- The settings of a command: those of the file it is given, which has to be usable, else
those of the workspace, else the built-in ones. -/
def settings? (s : Surroundings) (config? : Option String) : Option Settings :=
  match config? with
  | some path => Settings.load? (s.settingsText? ⟨path⟩)
  | none => some (s.ownSettings?.getD Settings.builtIn)

def cacheDirectory (s : Surroundings) (settings : Settings) : FilePath :=
  match settings.cacheDir? with
  | some path => path
  | none =>
    let cache :=
      match s.environment.lookup "XDG_CACHE_HOME", s.environment.lookup "HOME" with
      | some path, home? =>
        if Text.startsWith "/" path then path else home?.elim "/tmp" (· ++ "/.cache")
      | none, some home => home ++ "/.cache"
      | none, none => "/tmp"
    FilePath.push ⟨cache⟩ "ui5-atlas"

def rootOf (settings : Settings) (root? : Option String) : FilePath :=
  ((root?.map FilePath.mk).orElse fun _ => settings.workspaceRoot?).getD ⟨"."⟩

/-- Runs a query on a workspace opened here. The catalogs kept by the workspace are left
in the tree. -/
def withWorkspace {α : Type} (s : Surroundings) (settings : Settings) (q : Query α) :
    α × Surroundings :=
  let directory := FileTree.target s.here (s.cacheDirectory settings)
  let opened := Workspace.new settings (.tree s.here s.tree) (settings.metadataPath?.bind s.read?)
    (s.tree.filesIn directory)
  let (a, w) := q opened
  (a, { s with tree := s.tree.setFilesIn directory w.cache })

def scanned {α : Type} (s : Surroundings) (settings : Settings) (root : FilePath) (q : Query α) :
    α × Surroundings :=
  s.withWorkspace settings do
    discard (Scan.scan none [root])
    q

end Surroundings

def naturalJson (n : Nat) : JsonValue := .number (toString n)

def textJson : Option String → JsonValue
  | some s => .string s
  | none => .null

def spanJson (r : Text.Span) : JsonValue :=
  .object [("start", naturalJson r.start), ("end", naturalJson r.stop)]

def resolvedJson (file : FilePath) (offset : Nat) (type? : Option String) : JsonValue :=
  .object [("file", .string file.text), ("offset", naturalJson offset), ("class_name", textJson type?)]

def locationJson : Option Location → JsonValue
  | some l => .object [("file_path", .string l.path.text), ("offset", naturalJson l.offset)]
  | none => .null

def memberJson (m : Workspace.MemberInfo) : JsonValue :=
  .object
    [("name", .string m.name), ("kind", .string m.kind.toText),
      ("declaration_range", (m.declaration?.map spanJson).getD .null),
      ("is_event_handler", .bool m.isHandler), ("inferred_type", Typing.json m.type?)]

def editJson (e : Edit) : JsonValue :=
  .object
    [("file_path", .string e.path.text), ("range", spanJson e.span), ("replacement", .string e.text)]

namespace Surroundings

def initialSettings : String :=
  Text.join "\n"
    ["# ui5-atlas configuration", "", "version = 1", "", "# Global debug mode", "debug = false", "",
      "[framework]", "# Framework version; the persisted builtin cache is keyed by it",
      "version = \"" ++ Settings.builtIn.frameworkVersion ++ "\"", "",
      "# Additional builtin class metadata (JSON), optional",
      "# metadata_path = \"framework-metadata.json\"", "",
      "# Every inheritance chain ends at this class",
      "root_class = \"" ++ Settings.builtIn.rootClass ++ "\"", "", "[indexing]",
      "# Patterns excluded from the workspace scan (gitignore syntax)",
      "exclude_patterns = [\"node_modules/**\", \"dist/**\", \".git/**\", \"**/test-resources/**\"]",
      "follow_links = false", "", "[resolution]",
      "max_inheritance_hops = " ++ toString Settings.builtIn.maxInheritanceHops,
      "max_resolution_depth = " ++ toString Settings.builtIn.maxResolutionDepth, "", "[cache]",
      "enabled = true", "# dir = \"/tmp/ui5-atlas\"", ""]

def runInit (s : Surroundings) (force : Bool) : Outcome :=
  let place := s.here ++ [Settings.directory, settingsFile]
  if !force && (s.tree.isFile place || s.tree.isDirectory place) then
    s.fail "Configuration file already exists. Use --force to overwrite" []
  else
    { s with tree := s.tree.write place initialSettings }.print
      ["Created configuration file at: " ++ Settings.directory ++ "/" ++ settingsFile,
        "Edit this file to customize your settings."]

def runConfig (s : Surroundings) (settings : Settings) : Outcome :=
  s.print ["Current Configuration:", String.ofList (List.replicate 50 '='), settings.write]

def runIndex (s : Surroundings) (settings : Settings) (root : FilePath) (dryRun : Bool) : Outcome :=
  if dryRun then
    let files := (Scan.collect s.tree settings s.here root).all
    s.print (files.map FilePath.text ++ ["", toString files.length ++ " files would be indexed"])
  else
    let ((report, _), s) := s.withWorkspace settings (Scan.scan none [root])
    ⟨0, report.lines, [], s.tree⟩

def runResolve (s : Surroundings) (settings : Settings) (root file : FilePath) (offset : Nat) : Outcome :=
  let query : Query (Option (Option String)) := do
    match ← Workspace.classAt? file with
    | none => return none
    | some c => return some (← Workspace.typeAt c.name offset)
  match s.scanned settings root query with
  | (none, s) => s.fail (file.text ++ " is not a project class") []
  | (some type?, s) => s.print [(resolvedJson file offset type?).write]

def runDefinition (s : Surroundings) (settings : Settings) (root file : FilePath) (offset : Nat) :
    Outcome :=
  let (location?, s) := s.scanned settings root (Workspace.definitionAt? file offset)
  s.print [(locationJson location?).write]

def runMembers (s : Surroundings) (settings : Settings) (root : FilePath) (className : String) :
    Outcome :=
  match s.scanned settings root (Workspace.membersOf? className) with
  | (none, s) => s.fail ("Class '" ++ className ++ "' not found") []
  | (some members, s) => s.print [(JsonValue.array (members.map memberJson)).write]

def runController (s : Surroundings) (settings : Settings) (root file : FilePath) : Outcome :=
  let (controller?, s) := s.scanned settings root (Workspace.controllerAt? file)
  s.print [(textJson controller?).write]

def applyEdits (s : Surroundings) (edits : List Edit) : Surroundings × List String :=
  (Edit.groupByFile edits).foldl
    (fun (s, lines) (path, own) =>
      let text := Edit.apply ((s.read? path).getD "") own
      ({ s with tree := s.tree.write (FileTree.target s.here path) text },
        lines ++ [path.text ++ ": " ++ toString own.length ++ " edit(s)"]))
    (s, [])

def runRename (s : Surroundings) (settings : Settings) (root file : FilePath) (offset : Nat)
    (newName : String) (write : Bool) : Outcome :=
  let query : Query (Except WorkspaceError (List Edit)) := do
    match ← Workspace.prepareRename file offset with
    | .error e => return .error e
    | .ok target => return .ok (← Workspace.rename target newName)
  match s.scanned settings root query with
  | (.error e, s) => s.fail e.message e.suggestions
  | (.ok edits, s) =>
    if write then
      let (s, lines) := s.applyEdits edits
      s.print lines
    else s.print [(JsonValue.array (edits.map editJson)).write]

def runClearCache (s : Surroundings) (settings : Settings) : Outcome :=
  let (_, s) := s.withWorkspace settings Workspace.clearCaches
  s.print ["Builtin cache cleared"]

def runCommand (s : Surroundings) (settings : Settings) (root : FilePath) : Command → Outcome
  | .init force => s.runInit force
  | .config => s.runConfig settings
  | .index path? dryRun =>
    s.runIndex settings (path?.elim root fun p => s.absolute ⟨p⟩) dryRun
  | .resolve file offset => s.runResolve settings root (s.absolute ⟨file⟩) offset
  | .definition file offset => s.runDefinition settings root (s.absolute ⟨file⟩) offset
  | .members className => s.runMembers settings root className
  | .controller file => s.runController settings root (s.absolute ⟨file⟩)
  | .rename file offset newName write =>
    s.runRename settings root (s.absolute ⟨file⟩) offset newName write
  | .clearCache => s.runClearCache settings

def runInvocation (s : Surroundings) (i : Invocation) : Outcome :=
  match s.settings? i.config? with
  | none => s.fail ("Configuration error loading from " ++ i.config?.getD "") []
  | some settings => s.runCommand settings (s.absolute (rootOf settings i.root?)) i.command

def versionText : String := "ui5-atlas 0.3.1"

def helpLines : List String :=
  ["Source model and type resolution for UI5 workspaces", "",
    "Usage: ui5-atlas [OPTIONS] <COMMAND>", "",
    "Commands: " ++ Text.join ", " commandNames,
    "Options: -c, --config <CONFIG>; -r, --root <ROOT>; -v, --verbose; -h, --help; -V, --version"]

def run (s : Surroundings) (args : List String) : Outcome :=
  match parse (s.environment.lookup "ATLAS_ROOT") args with
  | .refused => s.refuse
  | .help => s.print helpLines
  | .version => s.print [versionText]
  | .run invocation => s.runInvocation invocation

end Surroundings

end CommandLine

end UiWorkspace
