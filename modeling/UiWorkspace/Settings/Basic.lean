import UiWorkspace.FilePath
import UiWorkspace.Format.TomlReader

/-! Settings: what is built in, and a TOML file laid over it. The file replaces single
values; a value of the wrong type makes the whole unusable. Each reader takes what stands under
a key, if anything does, and what a missing key means. -/
namespace UiWorkspace

open UiWorkspace.Format

structure Settings where
  version : Nat
  workspaceRoot? : Option FilePath
  debug : Bool
  /-- The framework version, which keys the kept catalog. -/
  frameworkVersion : String
  metadataPath? : Option FilePath
  /-- The class at which every chain of parents ends. -/
  rootClass : String
  excludePatterns : List String
  followLinks : Bool
  maxInheritanceHops : Nat
  maxResolutionDepth : Nat
  cacheEnabled : Bool
  cacheDir? : Option FilePath
deriving Repr

namespace Settings

def directory : String := ".ui5atlas"

def builtIn : Settings where
  version := 1
  workspaceRoot? := none
  debug := false
  frameworkVersion := "1.120.0"
  metadataPath? := none
  rootClass := "sap.ui.base.Object"
  excludePatterns := ["node_modules/**", "dist/**", ".git/**", "**/test-resources/**"]
  followLinks := false
  maxInheritanceHops := 32
  maxResolutionDepth := 24
  cacheEnabled := true
  cacheDir? := none

def pathEntry (key : String) : Option FilePath → List (String × TomlValue)
  | some p => [(key, .string p.text)]
  | none => []

def entries (s : Settings) : List (String × TomlValue) :=
  [("version", .integer s.version)]
    ++ pathEntry "workspace_root" s.workspaceRoot?
    ++ [("debug", .boolean s.debug),
      ("framework", .table
        ([("version", .string s.frameworkVersion)] ++ pathEntry "metadata_path" s.metadataPath?
          ++ [("root_class", .string s.rootClass)])),
      ("indexing", .table
        [("exclude_patterns", .array (s.excludePatterns.map .string)),
         ("follow_links", .boolean s.followLinks)]),
      ("resolution", .table
        [("max_inheritance_hops", .integer s.maxInheritanceHops),
         ("max_resolution_depth", .integer s.maxResolutionDepth)]),
      ("cache", .table ([("enabled", .boolean s.cacheEnabled)] ++ pathEntry "dir" s.cacheDir?))]

def write (s : Settings) : String := TomlValue.write s.entries

def natural? (limit : Nat) (missing : Nat) : Option TomlValue → Option Nat
  | none => some missing
  | some (.integer n) => if 0 ≤ n ∧ n < limit then some n.toNat else none
  | some _ => none

def flag? (missing : Bool) : Option TomlValue → Option Bool
  | none => some missing
  | some (.boolean b) => some b
  | some _ => none

def text? (missing : String) : Option TomlValue → Option String
  | none => some missing
  | some (.string s) => some s
  | some _ => none

def path? : Option TomlValue → Option (Option FilePath)
  | none => some none
  | some (.string s) => some (some ⟨s⟩)
  | some _ => none

def texts? : Option TomlValue → Option (List String)
  | none => some []
  | some (.array items) => items.mapM fun v => text? "" (some v)
  | some _ => none

/-- A group of settings; a missing group stands as it is built in. A list holds the
values of a group in the order of its keys and has to reach the key that has no value
built in, if there is one. -/
def group? (name : String) (keys : List String) (least : Nat) (v : TomlValue) : Option TomlValue :=
  match v.get? name with
  | some (.table inner) => some (.table inner)
  | some (.array items) =>
    if items.length < least then none else some (.table (keys.zip items))
  | some _ => none
  | none => (TomlValue.table builtIn.entries).get? name

def ofTable? (v : TomlValue) : Option Settings := do
  let framework ← group? "framework" ["version", "metadata_path", "root_class"] 2 v
  let indexing ← group? "indexing" ["exclude_patterns", "follow_links"] 0 v
  let resolution ← group? "resolution" ["max_inheritance_hops", "max_resolution_depth"] 0 v
  let cache ← group? "cache" ["enabled", "dir"] 2 v
  some
    { version := ← natural? (Nat.pow 2 32) builtIn.version (v.get? "version")
      workspaceRoot? := ← path? (v.get? "workspace_root")
      debug := ← flag? false (v.get? "debug")
      frameworkVersion := ← text? builtIn.frameworkVersion (framework.get? "version")
      metadataPath? := ← path? (framework.get? "metadata_path")
      rootClass := ← text? builtIn.rootClass (framework.get? "root_class")
      excludePatterns := ← texts? (indexing.get? "exclude_patterns")
      followLinks := ← flag? false (indexing.get? "follow_links")
      maxInheritanceHops :=
        ← natural? (Nat.pow 2 64) builtIn.maxInheritanceHops (resolution.get? "max_inheritance_hops")
      maxResolutionDepth :=
        ← natural? (Nat.pow 2 64) builtIn.maxResolutionDepth (resolution.get? "max_resolution_depth")
      cacheEnabled := ← flag? true (cache.get? "enabled")
      cacheDir? := ← path? (cache.get? "dir") }

def fileLayer? (text? : Option String) : Option TomlValue :=
  match text? with
  | none => some (.table builtIn.entries)
  | some text => (TomlReader.read? text).map fun v => TomlValue.overlay (.table builtIn.entries) v

def load? (text? : Option String) : Option Settings := (fileLayer? text?).bind ofTable?

end Settings

end UiWorkspace
