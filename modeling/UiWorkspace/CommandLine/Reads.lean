import UiWorkspace.CommandLine.Run

/-! Which parts of the file system a command can read, so that no more than these have to
be in the tree it is run on. -/
namespace UiWorkspace.CommandLine

namespace Surroundings

def settingsPlaces (s : Surroundings) (config? : Option String) : List Place :=
  let own := s.directories.map fun d => d ++ [Settings.directory]
  match config? with
  | none => own
  | some path => own ++ s.directories.map fun d => FileTree.target d ⟨path⟩

def namedPaths : Command → List String
  | .index path? _ => path?.toList
  | .resolve file _ | .definition file _ | .controller file | .rename file _ _ _ => [file]
  | .init _ | .config | .members _ | .clearCache => []

def workPlaces (s : Surroundings) (settings : Settings) (i : Invocation) : List Place :=
  let paths := rootOf settings i.root? :: (namedPaths i.command).map FilePath.mk
  let named := paths.map (FileTree.target s.here)
  let kept := s.cacheDirectory settings :: settings.metadataPath?.toList
  let ignoring := named.flatMap fun place =>
    (Scan.above place).flatMap fun d => Scan.ignoreFiles.map fun file => d ++ file
  named ++ kept.map (FileTree.target s.here) ++ ignoring

def requestPlaces (s : Surroundings) (args : List String) : List Place :=
  match parse (s.environment.lookup "ATLAS_ROOT") args with
  | .run i => ((s.settings? i.config?).map fun settings => s.workPlaces settings i).getD []
  | .help | .version | .refused => []

def requestSettings (s : Surroundings) (args : List String) : List Place :=
  match parse (s.environment.lookup "ATLAS_ROOT") args with
  | .run i => s.settingsPlaces i.config?
  | .help | .version | .refused => []

end Surroundings

/-- Milliseconds as seconds with two places, a half rounded up. -/
def elapsedText (milliseconds : Nat) : String :=
  let hundredths := (milliseconds + 5) / 10
  let fraction := toString (hundredths % 100)
  toString (hundredths / 100) ++ "." ++ (if fraction.length < 2 then "0" ++ fraction else fraction) ++ "s"

end UiWorkspace.CommandLine
