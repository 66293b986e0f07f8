import UiWorkspace.FilePath

/-! What can go wrong when something definite was asked for. Plain lookups answer "not
found" and raise none of these. -/
namespace UiWorkspace

inductive ReadFault where
  | notHeld (path : FilePath)
  /-- The file system's own words. -/
  | system (reason : String)
deriving Repr

def ReadFault.message : ReadFault → String
  | notHeld path => path.text ++ " not in memory source"
  | system reason => reason

inductive ManifestFault where
  | malformed (reason : String)
  | missingId
deriving Repr

def ManifestFault.message : ManifestFault → String
  | malformed reason => reason
  | missingId => "missing \"sap.app\".\"id\""

inductive CacheError where
  | io (path : FilePath) (reason : String)
  | malformed (details : String)
  | wrongVersion (expected found : String)
deriving Repr

namespace CacheError

def message : CacheError → String
  | io path reason => "cache io error at '" ++ path.text ++ "': " ++ reason
  | malformed details => "invalid cache: " ++ details
  | wrongVersion expected found =>
    "invalid cache: Incompatible cache version: expected " ++ expected ++ ", got " ++ found

def code : CacheError → String
  | io .. => "CACHE_IO"
  | malformed .. | wrongVersion .. => "CACHE_INVALID"

def suggestions : CacheError → List String
  | io .. =>
    ["Ensure the cache directory exists and is writable",
     "Delete the cache directory to force a rebuild"]
  | malformed .. | wrongVersion .. =>
    ["Run 'ui5-atlas clear-cache' to rebuild the builtin cache",
     "Verify the framework version in settings matches the metadata file"]

end CacheError

inductive WorkspaceError where
  | fileRead (path : FilePath) (fault : ReadFault)
  | manifestParse (path : FilePath) (fault : ManifestFault)
  | scriptParse (path : FilePath) (reason : String)
  | parserInit (language reason : String)
  | nothingToRename (path : FilePath) (offset : Nat)
  | cache (error : CacheError)
deriving Repr

namespace WorkspaceError

def message : WorkspaceError → String
  | fileRead path fault => "Failed to read file '" ++ path.text ++ "': " ++ fault.message
  | manifestParse path fault => "Failed to parse manifest '" ++ path.text ++ "': " ++ fault.message
  | scriptParse path reason => "Failed to parse script '" ++ path.text ++ "': " ++ reason
  | parserInit language reason => "Failed to initialize " ++ language ++ " parser: " ++ reason
  | nothingToRename path offset =>
    "No renameable member at offset " ++ toString offset ++ " in '" ++ path.text ++ "'"
  | cache error => error.message

def code : WorkspaceError → String
  | fileRead .. => "FILE_READ_ERROR"
  | manifestParse .. => "MANIFEST_PARSE_ERROR"
  | scriptParse .. => "SCRIPT_PARSE_ERROR"
  | parserInit .. => "PARSER_INIT_ERROR"
  | nothingToRename .. => "NOTHING_TO_RENAME"
  | cache error => error.code

def suggestions : WorkspaceError → List String
  | manifestParse .. =>
    ["Check that manifest.json is valid JSON and declares sap.app.id",
     "The remaining manifests of the workspace are still indexed"]
  | nothingToRename .. =>
    ["Place the cursor on a member declaration, a member access or a handler binding",
     "Members inherited from framework classes cannot be renamed"]
  | fileRead .. =>
    ["Check that the file exists and you have read permissions",
     "Ensure the file is not locked by another process"]
  | cache error => error.suggestions
  | scriptParse .. | parserInit .. => []

end WorkspaceError

end UiWorkspace
