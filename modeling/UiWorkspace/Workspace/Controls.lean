import UiWorkspace.Workspace.Controllers

/-! Controls by their ids. A controller reaches its views, the fragments its script
mentions, and whatever fragments these include. -/
namespace UiWorkspace.Workspace

open UiWorkspace.Markup

def controlRoots (controller : String) : Query (List Document) := do
  let views := (← get).viewsOfController controller
  match (← class? controller).bind ClassDefinition.source? with
  | none => return views
  | some source =>
    let w ← get
    return views ++ w.fragments.filter fun f =>
      (w.className? f.path).any fun name => mentions source.text name

def fragmentsNamed : List String → Query (List Document)
  | [] => return []
  | name :: names => do
    let found? ← fragmentNamed? name
    return found?.toList ++ (← fragmentsNamed names)

/-- Searches the documents of a queue for an id, and behind them the fragments they
include. A round takes one document that has not been seen. -/
def searchControl? (id : String) : (rounds : Nat) → List FilePath → List Document →
    Query (Option String)
  | 0, _, _ => return none
  | rounds + 1, seen, queue =>
    match queue.dropWhile fun d => seen.any (· == d.path) with
    | [] => return none
    | d :: rest => do
      examine d
      match d.classForId? id with
      | some control => return some control
      | none =>
        let included ← fragmentsNamed d.fragments
        searchControl? id rounds (d.path :: seen) (rest ++ included)

/-- More rounds than there are documents to see: the kept ones, and one for each fragment
that a kept document or a file names. A file names no more fragments than it has characters. -/
def searchRounds (w : Workspace) : Nat :=
  w.documents.length + (w.documents.flatMap Document.fragments).length
    + (w.source.texts.flatMap String.toList).length + 1

def controlClass? (controller id : String) : Query (Option String) := do
  let roots ← controlRoots controller
  searchControl? id (← get).searchRounds [] roots

end UiWorkspace.Workspace
