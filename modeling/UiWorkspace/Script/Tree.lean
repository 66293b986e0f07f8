import UiWorkspace.Text.Span

/-! Syntax trees of scripts. A tree keeps every token with its place, comments included,
so that an offset in the text leads to the construct it lies in. -/
namespace UiWorkspace.Script

open UiWorkspace.Text

inductive Kind where
  -- the whole, and what may stand anywhere
  | program | comment | hashBang
  -- names and literals
  | identifier | propertyName | privateName | shorthandName | shorthandPattern | labelName
  | this | superRef | undefinedRef | trueLit | falseLit | nullLit
  | number | string | template | substitution | regex
  -- expressions
  | member | subscript | call | construct | parenthesized | metaProperty | importRef
  | optionalChain | arguments | array | object | pair | spread | computedName
  | unary | binary | update | ternary | assignment | augmentedAssignment
  | awaitExpr | yieldExpr | sequence
  | functionExpr | generatorExpr | arrow | classExpr
  -- functions and classes
  | methodDef | fieldDef | staticBlock | classBody | heritage | parameters
  | functionDecl | generatorDecl | classDecl
  -- patterns
  | objectPattern | arrayPattern | pairPattern | assignmentPattern | objectAssignmentPattern
  | restPattern
  -- statements
  | variableDecl | lexicalDecl | declarator | expressionStmt | block | emptyStmt
  | ifStmt | elseClause | switchStmt | switchBody | switchCase | switchDefault
  | forStmt | forInStmt | whileStmt | doStmt | tryStmt | catchClause | finallyClause
  | withStmt | breakStmt | continueStmt | returnStmt | throwStmt | debuggerStmt | labeledStmt
  -- modules
  | importStmt | importClause | namespaceImport | namedImports | importSpecifier
  | importAttribute | exportStmt | exportClause | exportSpecifier | namespaceExport
deriving DecidableEq, Repr

inductive Role where
  | name | value | key | body | left | right | object | property | callee | arguments
  | parameter | parameters | constructor | condition | consequence | alternative
deriving DecidableEq, Repr

/-- A node is a construct, or a bare token such as a bracket or a keyword. -/
inductive Label where
  | construct (kind : Kind)
  | token
deriving DecidableEq, Repr

/-- A node with its place in the text; the parts of a node stand in source order. -/
inductive Node where
  | mk (label : Label) (role : Option Role) (span : Span) (children : List Node)
deriving Repr

namespace Node

def label : Node → Label
  | mk label _ _ _ => label

def role : Node → Option Role
  | mk _ role _ _ => role

def span : Node → Span
  | mk _ _ span _ => span

def children : Node → List Node
  | mk _ _ _ children => children

instance : Inhabited Node := ⟨mk .token none ⟨0, 0⟩ []⟩

def is (n : Node) (kind : Kind) : Bool := n.label == .construct kind

def isNamed (n : Node) : Bool := n.label != .token

def withRole (role : Option Role) : Node → Node
  | mk label _ span children => mk label role span children

def namedChildren (n : Node) : List Node := n.children.filter isNamed

def part? (n : Node) (role : Role) : Option Node :=
  n.children.find? fun c => c.role == some role

def text (n : Node) (code : String) : String := n.span.sliceD code

def isFunction (n : Node) : Bool :=
  match n.label with
  | .construct k =>
    [Kind.functionExpr, .functionDecl, .arrow, .methodDef, .generatorExpr, .generatorDecl].contains k
  | .token => false

def stringContents? (n : Node) (code : String) : Option (String × Span) :=
  if n.is .string && n.span.start + 2 ≤ n.span.stop then
    let inner : Span := ⟨n.span.start + 1, n.span.stop - 1⟩
    (inner.slice code).map fun text => (text, inner)
  else none

mutual

/-- The node and everything below it in source order, without what lies below a node
that is not entered. -/
def visits (enter : Node → Bool) : Node → List Node
  | mk label role span children =>
    mk label role span children ::
      if enter (mk label role span children) then visitsAll enter children else []

def visitsAll (enter : Node → Bool) : List Node → List Node
  | [] => []
  | c :: cs => visits enter c ++ visitsAll enter cs

end

def preorder (n : Node) : List Node := n.visits fun _ => true

end Node

end UiWorkspace.Script
