import UiWorkspace.Catalog.Bundled
import UiWorkspace.Catalog.Cache
import UiWorkspace.Class.TypeMemo
import UiWorkspace.Manifest
import UiWorkspace.Markup.Document
import UiWorkspace.Settings.Basic
import UiWorkspace.Source

/-! The state of an open workspace. Manifests, documents and classes are kept as they were
read, and types and event handlers as they were worked out from them; a query answers from
what is kept and reads what is missing. -/
namespace UiWorkspace

structure Workspace where
  settings : Settings
  source : Source
  /-- The paths whose existence was asked for, latest first. -/
  probes : List FilePath
  manifests : List Manifest
  /-- The kept documents, sorted by path. -/
  documents : List Markup.Document
  examined : List FilePath
  classes : List (String × ClassDefinition)
  /-- The number of scripts that were made into classes. -/
  builds : Nat
  types : TypeMemo
  /-- The methods of a class that markup binds to events, for the classes asked about. -/
  handlers : List (String × List String)
  catalog : Catalog
  metadata? : Option String
  cache : Catalog.CacheFiles

/-- An answer that may read files and keep what it read. -/
abbrev Query := StateM Workspace

namespace Workspace

def freshCatalog (settings : Settings) (metadata? : Option String) : Catalog :=
  let own := { Catalog.bundled with version := settings.frameworkVersion }
  match metadata?.bind Catalog.read? with
  | some extra => own.merge extra
  | none => own

/-- The catalog a workspace opens with and the directory of kept catalogs afterwards: the
kept one for the version, else a fresh one, which is then kept. -/
def openCatalog (settings : Settings) (metadata? : Option String) (cache : Catalog.CacheFiles) :
    Catalog × Catalog.CacheFiles :=
  let fresh := freshCatalog settings metadata?
  if !settings.cacheEnabled then (fresh, cache)
  else
    match Catalog.load ⟨""⟩ cache settings.frameworkVersion with
    | .ok (some kept) => (kept, cache)
    | _ => (fresh, Catalog.save cache fresh)

def new (settings : Settings) (source : Source) (metadata? : Option String)
    (cache : Catalog.CacheFiles) : Workspace :=
  let (catalog, cache) := openCatalog settings metadata? cache
  { settings := settings
    source := source
    probes := []
    manifests := []
    documents := []
    examined := []
    classes := []
    builds := 0
    types := TypeMemo.empty
    handlers := []
    catalog := catalog
    metadata? := metadata?
    cache := cache }

end Workspace

end UiWorkspace
