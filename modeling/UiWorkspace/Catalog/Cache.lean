import UiWorkspace.Catalog.Basic
import UiWorkspace.Error

/-! A directory of kept catalogs, one file for each framework version. Versions that
differ only in unusual characters share a file name, so a file counts only for the
version written in it. -/
namespace UiWorkspace.Catalog

open UiWorkspace.Text

abbrev CacheFiles := List (String × String)

def isFileChar (c : Char) : Bool := c.isAlphanum || c == '.' || c == '-' || c == '_'

def cacheFileName (version : String) : String :=
  "builtin_" ++ String.ofList (version.toList.map fun c => if isFileChar c then c else '_') ++ ".json"

def isCacheFileName (name : String) : Bool := startsWith "builtin_" name && endsWith ".json" name

def ofCacheText (path : FilePath) (version text : String) : Except CacheError Catalog :=
  match read? text with
  | none => .error (.malformed (path.text ++ ": not a catalog"))
  | some c =>
    if c.version = version then .ok c else .error (.wrongVersion version c.version)

def load (dir : FilePath) (files : CacheFiles) (version : String) : Except CacheError (Option Catalog) :=
  match files.lookup (cacheFileName version) with
  | none => .ok none
  | some text => (ofCacheText (dir.push (cacheFileName version)) version text).map some

def save (files : CacheFiles) (c : Catalog) : CacheFiles :=
  Table.put (cacheFileName c.version) c.write files

def clear (files : CacheFiles) : CacheFiles := files.filter fun f => !isCacheFileName f.1

def kept (files : CacheFiles) : Nat := (files.filter fun f => isCacheFileName f.1).length

end UiWorkspace.Catalog
