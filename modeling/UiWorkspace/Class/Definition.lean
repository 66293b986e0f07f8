import UiWorkspace.Class.Member
import UiWorkspace.Digest
import UiWorkspace.FilePath
import UiWorkspace.Script.Class
import UiWorkspace.Script.Parser.Statement

/-! Classes of a workspace: those of the project, with the script behind them, and those
of the framework, of which only the members are known. -/
namespace UiWorkspace

open UiWorkspace.Text

structure ProjectSource where
  path : FilePath
  text : String
  tree : Script.Node
  digest : String
  imports : List Script.Import
  factory? : Option Span
  body? : Option Span
  declaredName? : Option String

/-- A class; a framework class has no source. -/
structure ClassDefinition where
  name : String
  parent? : Option String
  members : List Member
  aliases : List (String × String)
  source? : Option ProjectSource

namespace ClassDefinition

def member? (c : ClassDefinition) (name : String) : Option Member :=
  c.members.find? fun m => m.name == name

def isProject (c : ClassDefinition) : Bool := c.source?.isSome

def path? (c : ClassDefinition) : Option FilePath := c.source?.map ProjectSource.path

def ofScript (name : String) (path : FilePath) (text : String) : ClassDefinition :=
  let tree := Script.parse text
  let parsed := Script.classOfTree name text tree
  { name := name
    parent? := parsed.parent?
    members := parsed.members
    aliases := parsed.aliases
    source? := some
      { path := path
        text := text
        tree := tree
        digest := Digest.sha256 text
        imports := parsed.imports
        factory? := parsed.factory?
        body? := parsed.body?
        declaredName? := parsed.declaredName? } }

end ClassDefinition

end UiWorkspace
