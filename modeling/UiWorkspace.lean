import UiWorkspace.Catalog.Basic
import UiWorkspace.Catalog.Bundled
import UiWorkspace.Catalog.Cache
import UiWorkspace.Class.Definition
import UiWorkspace.Class.Hierarchy
import UiWorkspace.Class.Member
import UiWorkspace.Class.TypeMemo
import UiWorkspace.CommandLine.Arguments
import UiWorkspace.CommandLine.Reads
import UiWorkspace.CommandLine.Run
import UiWorkspace.Digest
import UiWorkspace.Edit
import UiWorkspace.Error
import UiWorkspace.FilePath
import UiWorkspace.FileTree
import UiWorkspace.Format.Json
import UiWorkspace.Format.Toml
import UiWorkspace.Format.TomlDate
import UiWorkspace.Format.TomlReader
import UiWorkspace.Main
import UiWorkspace.Manifest
import UiWorkspace.Markup.Document
import UiWorkspace.Markup.Handler
import UiWorkspace.Markup.Tag
import UiWorkspace.Proofs.FilePath
import UiWorkspace.Proofs.Markup.AssignedNames
import UiWorkspace.Proofs.Markup.Assignments
import UiWorkspace.Proofs.Markup.HandlerRenaming
import UiWorkspace.Proofs.Markup.Pieces
import UiWorkspace.Proofs.Markup.Rereading
import UiWorkspace.Proofs.Markup.TagBounds
import UiWorkspace.Proofs.Query
import UiWorkspace.Proofs.Typing.Account
import UiWorkspace.Proofs.Typing.Dependencies
import UiWorkspace.Proofs.Typing.EditRuns
import UiWorkspace.Proofs.Typing.Lockstep
import UiWorkspace.Proofs.Typing.MemoSoundness
import UiWorkspace.Proofs.Typing.QueryOrder
import UiWorkspace.Proofs.Typing.Simulation
import UiWorkspace.Proofs.Typing.Tracked
import UiWorkspace.Proofs.Workspace.Classes
import UiWorkspace.Proofs.Workspace.ClearCaches
import UiWorkspace.Proofs.Workspace.Congruence
import UiWorkspace.Proofs.Workspace.ControlSearch
import UiWorkspace.Proofs.Workspace.Documents
import UiWorkspace.Proofs.Workspace.HandlerMemo
import UiWorkspace.Proofs.Workspace.MarkupEdits
import UiWorkspace.Proofs.Workspace.Reachable
import UiWorkspace.Proofs.Workspace.Requests
import UiWorkspace.Proofs.Workspace.SharedMarkup
import UiWorkspace.Scan.Files
import UiWorkspace.Scan.Glob
import UiWorkspace.Scan.Ignore
import UiWorkspace.Scan.Report
import UiWorkspace.Scan.Run
import UiWorkspace.Script.Chain
import UiWorkspace.Script.Class
import UiWorkspace.Script.Cursor
import UiWorkspace.Script.DocComment
import UiWorkspace.Script.Module
import UiWorkspace.Script.Parser.Basic
import UiWorkspace.Script.Parser.Expression
import UiWorkspace.Script.Parser.Statement
import UiWorkspace.Script.Reference
import UiWorkspace.Script.Scope
import UiWorkspace.Script.Termination
import UiWorkspace.Script.Token
import UiWorkspace.Script.Tree
import UiWorkspace.Settings.Basic
import UiWorkspace.Settings.Variables
import UiWorkspace.Source
import UiWorkspace.Table
import UiWorkspace.Text.Pieces
import UiWorkspace.Text.Span
import UiWorkspace.Text.Word
import UiWorkspace.Typing.Evidence
import UiWorkspace.Typing.Resolver
import UiWorkspace.Typing.Rules
import UiWorkspace.Workspace.Classes
import UiWorkspace.Workspace.Controllers
import UiWorkspace.Workspace.Controls
import UiWorkspace.Workspace.Events
import UiWorkspace.Workspace.Handlers
import UiWorkspace.Workspace.Index
import UiWorkspace.Workspace.Members
import UiWorkspace.Workspace.Rename
import UiWorkspace.Workspace.State
import UiWorkspace.Proofs.Script.Layout
import UiWorkspace.Proofs.Script.Parser.Basic
import UiWorkspace.Proofs.Script.Parser.Expression
import UiWorkspace.Proofs.Script.Parser.Statement
import UiWorkspace.Proofs.Script.NamePlaces
import UiWorkspace.Proofs.Workspace.RenameEdits
import UiWorkspace.Proofs.Text.Pieces
import UiWorkspace.Proofs.Workspace.ClassPaths
import UiWorkspace.Proofs.Scan.Interruption
import UiWorkspace.Proofs.Workspace.BackingScripts
import UiWorkspace.Proofs.Typing.Balance
import UiWorkspace.Proofs.Typing.SharedResolver
import UiWorkspace.Proofs.Workspace.ClassSlots
import UiWorkspace.Proofs.Workspace.Writes
import UiWorkspace.Proofs.Scan.Agreement
import UiWorkspace.Proofs.Workspace.FailedNotices
import UiWorkspace.Proofs.Markup.Continuation
import UiWorkspace.Proofs.Markup.WrittenTags
import UiWorkspace.Proofs.Script.Comments
import UiWorkspace.Proofs.Script.CommentedParts
import UiWorkspace.Proofs.Script.CommentedClass
import UiWorkspace.Proofs.Workspace.BoundMembers
import UiWorkspace.Proofs.Workspace.ManifestRegistry
import UiWorkspace.Proofs.Format.Json
import UiWorkspace.Proofs.Catalog.Keeping
import UiWorkspace.Proofs.Class.Hierarchy
import UiWorkspace.Proofs.Source
import UiWorkspace.Proofs.BreadthFirst
import UiWorkspace.Proofs.Workspace.ControlReach
import UiWorkspace.Proofs.Typing.Conflicts
import UiWorkspace.Proofs.Typing.CutOffs
import UiWorkspace.Proofs.Typing.FirmEntries
import UiWorkspace.Proofs.Typing.DepthLimit
import UiWorkspace.Proofs.Edit.Order
import UiWorkspace.Proofs.Edit.Outside
import UiWorkspace.Proofs.Edit.Substitution
import UiWorkspace.Proofs.Edit.Undoing
import UiWorkspace.Proofs.Workspace.FragmentControllers
import UiWorkspace.Proofs.Text.Bytes
import UiWorkspace.Proofs.Markup.AttributeRounds
import UiWorkspace.Proofs.Markup.TagGeometry
import UiWorkspace.Proofs.Markup.Sections
import UiWorkspace.Proofs.Markup.AttributeOffsets
import UiWorkspace.Proofs.Markup.ByteOffsets
import UiWorkspace.Proofs.Script.TreeLayout
import UiWorkspace.Proofs.Script.Scopes
import UiWorkspace.Proofs.Markup.HandlerForms
import UiWorkspace.Proofs.Script.MemberTable
import UiWorkspace.Proofs.Typing.Constructors
import UiWorkspace.Proofs.Class.MemoHistory
import UiWorkspace.Proofs.Script.ModulePaths
import UiWorkspace.Proofs.Workspace.Definitions
import UiWorkspace.Proofs.Scan.Accounting
