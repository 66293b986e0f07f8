import UiWorkspace.Text.Pieces

/-! Slash-separated file paths. A path keeps the text it was built from; two paths
are the same when their components agree, so repeated slashes, a trailing slash and
inner `.` components make no difference. Nothing is resolved: `..` stays. -/
namespace UiWorkspace

structure FilePath where
  text : String
deriving Repr, Inhabited

namespace FilePath

inductive Component where
  | root
  | here
  | up
  | name (text : String)
deriving DecidableEq, Repr

namespace Component

def rank : Component → Nat
  | root => 0
  | here => 1
  | up => 2
  | name _ => 3

/-- Root first, then `.`, then `..`, then names by their bytes. -/
def compare : Component → Component → Ordering
  | name a, name b => Ord.compare a b
  | a, b => Ord.compare a.rank b.rank

end Component

def isAbsolute (p : FilePath) : Bool := Text.startsWith "/" p.text

/-- The component a piece between slashes stands for. An empty piece is none, and a
`.` is one only at the beginning of a relative path. -/
def component? (leading : Bool) (piece : String) : Option Component :=
  if piece = "" then none
  else if piece = "." then (if leading then some .here else none)
  else if piece = ".." then some .up
  else some (.name piece)

def slots (p : FilePath) : List (String × Option Component) :=
  match Text.split '/' p.text with
  | [] => []
  | first :: rest =>
    (first, component? (!p.isAbsolute) first) :: rest.map fun piece => (piece, component? false piece)

def components (p : FilePath) : List Component :=
  let body := p.slots.filterMap Prod.snd
  if p.isAbsolute then .root :: body else body

def same (p q : FilePath) : Bool := p.components == q.components

instance : BEq FilePath := ⟨same⟩

def compareComponents : List Component → List Component → Ordering
  | [], [] => .eq
  | [], _ :: _ => .lt
  | _ :: _, [] => .gt
  | a :: as, b :: bs => (Component.compare a b).then (compareComponents as bs)

def compare (p q : FilePath) : Ordering := compareComponents p.components q.components

def fileName? (p : FilePath) : Option String :=
  match p.components.getLast? with
  | some (.name n) => some n
  | _ => none

/-- The path without its last component, as far as it was written; a root and an
empty path have no parent. -/
def parent? (p : FilePath) : Option FilePath :=
  match p.slots.reverse.dropWhile fun s => s.2.isNone with
  | [] => none
  | _ :: above =>
    match above.dropWhile fun s => s.2.isNone with
    | [] => some ⟨if p.isAbsolute then "/" else ""⟩
    | kept => some ⟨Text.join "/" (kept.reverse.map Prod.fst)⟩

/-- Appends a relative path with a slash between; an absolute one takes its place. -/
def push (p : FilePath) (s : String) : FilePath :=
  if Text.startsWith "/" s then ⟨s⟩
  else if p.text = "" || Text.endsWith "/" p.text then ⟨p.text ++ s⟩
  else ⟨p.text ++ "/" ++ s⟩

def below? (p base : FilePath) : Option (List Component) :=
  Text.after? base.components p.components

def isBelow (p base : FilePath) : Bool := (p.below? base).isSome

end FilePath

end UiWorkspace
