import UiWorkspace.Script.Parser.Expression

/-! Reading statements and whole scripts. Reading does not recover from errors: a text that is no
script gives a tree without parts. Of trees that were read, the theory uses only that names stand
in the text in order and that comments have no role and no parts. -/
namespace UiWorkspace.Script

open UiWorkspace.Text

namespace Parse

variable (deeper : Deeper) (bound : Nat)

def condition : Parse Node := do
  let opening ← expect "("
  let inner ← part (expressions deeper bound true)
  let closing ← expect ")"
  return .group .parenthesized (opening ++ inner ++ closing)

def target : Parse Node := do
  if ← isAtName then identifier
  else return Node.toPattern (← deeper .primary)

/-- A declared name with its initial value, if it has one; `true` if it has one. -/
def declarator (inAllowed : Bool) : Parse (Node × Bool) := do
  let name := (← target deeper).as .name
  if ← isAt "=" then
    let sign ← expect "="
    let value ← partAs .value (deeper (.assignment inAllowed))
    return (.group .declarator (name :: (sign ++ value)), true)
  else return (.group .declarator [name], false)

/-- The declarators behind a first one, and whether the last of all has a value. -/
def moreDeclarators (inAllowed : Bool) : (rounds : Nat) → Bool → Parse (List Node × Bool)
  | 0, _ => fail
  | rounds + 1, valued => do
    if ← isAt "," then
      let comma ← expect ","
      let before ← comments
      let (n, valued) ← declarator deeper inAllowed
      let (rest, last) ← moreDeclarators inAllowed rounds valued
      return (comma ++ before ++ [n] ++ rest, last)
    else return ([], valued)

def declaration (kind : Kind) (word : List Node) : Parse Node := do
  let before ← comments
  let (first, valued) ← declarator deeper true
  let (rest, valued) ← moreDeclarators deeper true bound valued
  let last ← semicolon (!valued)
  return .group kind (word ++ before ++ [first] ++ rest ++ last)

def isLet : Parse Bool := do
  let (after, _) ← secondOnLine
  return (← isAt "let") && (after.kind == .name && after.text != "in" && after.text != "instanceof"
    || after.kind == .symbol && (after.text == "[" || after.text == "\x7b"))

def isIn : Parse Bool := return (← isAt "in") || (← isAt "of")

def forIn (before : List Node) : Parse Node := do
  let word ← part (shift .token)
  let right ← partAs .right (expressions deeper bound true)
  let closing ← expect ")"
  let body ← partAs .body (deeper .statement)
  return .group .forInStmt (before ++ word ++ right ++ closing ++ body)

def forRest (before : List Node) : Parse Node := do
  let test ←
    if ← isAt ";" then part (return .group .emptyStmt (← expect ";"))
    else do
      let n ← partAs .condition (expressions deeper bound true)
      pure (n ++ (← expect ";"))
  let step ← if ← isAt ")" then pure [] else part (expressions deeper bound true)
  let closing ← expect ")"
  let body ← partAs .body (deeper .statement)
  return .group .forStmt (before ++ test ++ step ++ closing ++ body)

def forStatement : Parse Node := do
  let word ← expect "for"
  let wait ← option "await"
  let opening ← expect "("
  let head := word ++ wait ++ opening
  if ← isAt ";" then
    let none_ ← part (return .group .emptyStmt (← expect ";"))
    forRest deeper bound (head ++ none_)
  else if (← isAt "var") || (← isAt "const") || (← isLet) then
    let before ← comments
    let kind := if ← isAt "var" then Kind.variableDecl else .lexicalDecl
    let word ← part (shift .token)
    let gap ← comments
    let (first, valued) ← declarator deeper false
    if ← isIn then
      let left := first.children.map fun n => if n.role == some .name then n.as .left else n
      forIn deeper bound (head ++ before ++ word ++ gap ++ left)
    else
      let (rest, _) ← moreDeclarators deeper false bound valued
      let last ← expect ";"
      forRest deeper bound (head ++ before ++ [.group kind (word ++ gap ++ [first] ++ rest ++ last)])
  else
    let before ← comments
    let first ← expressions deeper bound false
    if ← isIn then
      forIn deeper bound (head ++ before ++ [(Node.toPattern first).as .left])
    else
      let last ← expect ";"
      forRest deeper bound (head ++ before ++ [first] ++ last)

def switchCase : Parse Node := do
  let isDefault ← isAt "default"
  let word ← part (shift .token)
  let value ← if isDefault then pure [] else partAs .value (expressions deeper bound true)
  let colon ← expect ":"
  let body ← repeatWhile
    (return !((← isAt "case") || (← isAt "default") || (← isAt "\x7d"))) (part (deeper .statement)) bound
  return .group (if isDefault then .switchDefault else .switchCase) (word ++ value ++ colon ++ body)

def switchStatement : Parse Node := do
  let word ← expect "switch"
  let value ← partAs .value (condition deeper bound)
  let body ← partAs .body (do
    let opening ← expect "\x7b"
    let cases ← repeatWhile (return !(← isAt "\x7d")) (part (switchCase deeper bound)) bound
    let closing ← expect "\x7d"
    return .group .switchBody (opening ++ cases ++ closing))
  return .group .switchStmt (word ++ value ++ body)

def ifStatement : Parse Node := do
  let word ← expect "if"
  let test ← partAs .condition (condition deeper bound)
  let yes ← partAs .consequence (deeper .statement)
  let no ←
    if ← isAt "else" then
      partAs .alternative (do
        let word ← expect "else"
        let n ← part (deeper .statement)
        return .group .elseClause (word ++ n))
    else pure []
  return .group .ifStmt (word ++ test ++ yes ++ no)

def tryStatement : Parse Node := do
  let word ← expect "try"
  let body ← partAs .body (block deeper bound true)
  let handler ←
    if ← isAt "catch" then
      part (do
        let word ← expect "catch"
        let param ←
          if ← isAt "(" then do
            let opening ← expect "("
            let n ← partAs .parameter (target deeper)
            pure (opening ++ n ++ (← expect ")"))
          else pure []
        let body ← partAs .body (block deeper bound true)
        return .group .catchClause (word ++ param ++ body))
    else pure []
  let finalizer ←
    if ← isAt "finally" then
      part (do
        let word ← expect "finally"
        let body ← partAs .body (block deeper bound true)
        return .group .finallyClause (word ++ body))
    else pure []
  return .group .tryStmt (word ++ body ++ handler ++ finalizer)

/-- `return` and what it returns, unless the statement ends behind the word and its comments. -/
def returnStatement : Parse Node := do
  let word ← expect "return"
  let s ← get
  if (endingAfter? true s.last s.comments).isSome || s.token.text == ";" then
    return .group .returnStmt (word ++ (← semicolon true))
  else
    let n ← part (expressions deeper bound true)
    return .group .returnStmt (word ++ n ++ (← semicolon false))

def jump (kind : Kind) : Parse Node := do
  let word ← part (shift .token)
  let s ← get
  let label ←
    if s.token.kind == .name && (endingAfter? true s.last s.comments).isNone then
      part (nameAs .labelName)
    else pure []
  return .group kind (word ++ label ++ (← semicolon true))

def clause (list item : Kind) : Parse Node := do
  let specifier : Parse (List Node) := part (do
    let name ← partAs .name (do
      if (← token).kind == .string then shift (.construct .string) else identifier)
    let alias_ ←
      if ← isAt "as" then do
        let word ← expect "as"
        let n ← part (do
          if (← token).kind == .string then shift (.construct .string) else identifier)
        pure (word ++ n)
      else pure []
    return .group item (name ++ alias_))
  return .group list (← listed bound "\x7b" "\x7d" specifier)

def fromModule : Parse (List Node) := do
  let word ← expect "from"
  let source ← part (shift (.construct .string))
  return word ++ source

def importAttribute : Parse (List Node) := do
  if ← isAt "with" then
    part (do
      let word ← expect "with"
      let n ← part (object deeper bound)
      return .group .importAttribute (word ++ n))
  else return []

def importStatement : Parse Node := do
  let word ← expect "import"
  let names ←
    if (← token).kind == .string then part (shift (.construct .string))
    else do
      let clauses ← part (do
        let parts ← repeatWhile (return !(← isAt "from")) (do
          if ← isAt "," then expect ","
          else if ← isAt "*" then
            part (do
              let star ← expect "*"
              let word ← expect "as"
              let n ← part identifier
              return .group .namespaceImport (star ++ word ++ n))
          else if ← isAt "\x7b" then part (clause bound .namedImports .importSpecifier)
          else part identifier) bound
        return .group .importClause parts)
      pure (clauses ++ (← fromModule))
  let attribute_ ← importAttribute deeper bound
  return .group .importStmt (word ++ names ++ attribute_ ++ (← semicolon true))

def exportStatement : Parse Node := do
  let word ← expect "export"
  if ← isAt "*" then
    let star ← part (do
      let star ← part (shift .token)
      if ← isAt "as" then
        let word ← expect "as"
        let n ← part identifier
        return .group .namespaceExport (star ++ word ++ n)
      else return (star.getLast?).getD default)
    let source ← fromModule
    return .group .exportStmt (word ++ star ++ source ++ (← semicolon true))
  else if ← isAt "\x7b" then
    let names ← part (clause bound .exportClause .exportSpecifier)
    let source ← if ← isAt "from" then fromModule else pure []
    return .group .exportStmt (word ++ names ++ source ++ (← semicolon true))
  else if ← isAt "default" then
    let default_ ← expect "default"
    if (← isAt "function") || (← isAt "class") then
      let n ← partAs .value (deeper .primary)
      return .group .exportStmt (word ++ default_ ++ n)
    else
      let n ← partAs .value (deeper (.assignment true))
      return .group .exportStmt (word ++ default_ ++ n ++ (← semicolon false))
  else
    let n ← part (deeper .statement)
    return .group .exportStmt (word ++ n)

def expressionStatement : Parse Node := do
  let n ← expressions deeper bound true
  return .group .expressionStmt (n :: (← semicolon false))

def wordStatement (word : String) : Parse Node := do
  let (after, onLine) ← secondOnLine
  match word with
  | "var" => declaration deeper bound .variableDecl (← expect "var")
  | "const" => declaration deeper bound .lexicalDecl (← expect "const")
  | "function" => function deeper bound [] .functionDecl .generatorDecl
  | "class" => classAs deeper bound .classDecl
  | "if" => ifStatement deeper bound
  | "for" => forStatement deeper bound
  | "while" =>
    let word ← expect "while"
    let test ← partAs .condition (condition deeper bound)
    let body ← partAs .body (deeper .statement)
    return .group .whileStmt (word ++ test ++ body)
  | "do" =>
    let word ← expect "do"
    let body ← partAs .body (deeper .statement)
    let until_ ← expect "while"
    let test ← partAs .condition (condition deeper bound)
    return .group .doStmt (word ++ body ++ until_ ++ test ++ (← semicolon true))
  | "return" => returnStatement deeper bound
  | "break" => jump .breakStmt
  | "continue" => jump .continueStmt
  | "throw" =>
    let word ← expect "throw"
    let n ← part (expressions deeper bound true)
    return .group .throwStmt (word ++ n ++ (← semicolon false))
  | "try" => tryStatement deeper bound
  | "switch" => switchStatement deeper bound
  | "with" =>
    let word ← expect "with"
    let n ← partAs .object (condition deeper bound)
    let body ← partAs .body (deeper .statement)
    return .group .withStmt (word ++ n ++ body)
  | "debugger" =>
    let word ← expect "debugger"
    return .group .debuggerStmt (word ++ (← semicolon true))
  | "export" => exportStatement deeper bound
  | _ =>
    if word == "import" && after.text != "(" && after.text != "." then importStatement deeper bound
    else if word == "async" && onLine && after.kind == .name && after.text == "function" then
      function deeper bound (← expect "async") .functionDecl .generatorDecl
    else if ← isLet then declaration deeper bound .lexicalDecl (← expect "let")
    else if after.kind == .symbol && after.text == ":" then
      let label ← part (nameAs .labelName)
      let colon ← expect ":"
      let body ← partAs .body (deeper .statement)
      return .group .labeledStmt (label ++ colon ++ body)
    else expressionStatement deeper bound

def statement : Parse Node := do
  let t ← token
  if t.kind == .name then wordStatement deeper bound t.text
  else if t.kind == .symbol && t.text == "\x7b" then block deeper bound true
  else if t.kind == .symbol && t.text == ";" then return .group .emptyStmt (← expect ";")
  else expressionStatement deeper bound

/-- Reads a goal, at most `depth` constructs deep. -/
def run : (depth : Nat) → Goal → Parse Node
  | 0, _ => fail
  | depth + 1, goal =>
    let deeper : Deeper := fun g => run depth g
    match goal with
    | .statement => statement deeper depth
    | .assignment inAllowed => assignment deeper depth inAllowed
    | .operand => operand deeper depth
    | .primary => primary deeper depth
    | .construct => construct deeper depth

def statements (depth : Nat) : Parse (List Node) := do
  let body ← repeatWhile (return (← token).kind != .stop) (part (run depth .statement)) depth
  return body ++ (← comments)

end Parse

def hashBang (code : String) : Option (Node × Place) :=
  let start := Place.ofString code
  match start.rest with
  | '#' :: '!' :: rest =>
    let next := start.advance (2 + (rest.takeWhile fun c => !(c == '\n')).length)
    some (Node.leaf .hashBang ⟨0, next.offset⟩, next)
  | _ => none

/-- The syntax tree of a script. A text that is no script gives a tree without parts. -/
def parse (code : String) : Node :=
  let (before, start) :=
    match hashBang code with
    | some (n, p) => ([n], p)
    | none => ([], Place.ofString code)
  let depth := 6 * code.length + 16
  let parts :=
    match Parse.statements depth (Reading.from_ start) with
    | some (body, _) => before ++ body
    | none => []
  .mk (.construct .program) none ⟨0, code.utf8ByteSize⟩ parts

end UiWorkspace.Script
