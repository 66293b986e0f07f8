import UiWorkspace.Script.Parser.Basic

/-! Reading expressions, with the functions, classes and objects inside them. What may
nest is read through `Deeper`, so that one bound on the depth serves all constructs. -/
namespace UiWorkspace.Script

open UiWorkspace.Text

/-- What can be read at any depth of a script. -/
inductive Goal where
  | statement
  /-- An expression without a comma at its top; `inAllowed` tells whether the operator
  `in` belongs to it. -/
  | assignment (inAllowed : Bool)
  | operand
  /-- Something a call or an access can follow. -/
  | primary
  | construct
deriving DecidableEq

abbrev Deeper := Goal → Parse Node

namespace Parse

variable (deeper : Deeper) (bound : Nat)

def expressions (inAllowed : Bool) : Parse Node := do
  let first ← deeper (.assignment inAllowed)
  if ← isAt "," then
    let rest ← repeatWhile (isAt ",") (do
      let comma ← expect ","
      let n ← part (deeper (.assignment inAllowed))
      return comma ++ n) bound
    return .group .sequence (first :: rest)
  else return first

def listed (opening closing : String) (item : Parse (List Node)) : Parse (List Node) := do
  let first ← expect opening
  let items ← repeatWhile (return !(← isAt closing)) (do
    if ← isAt "," then expect "," else item) bound
  let last ← expect closing
  return first ++ items ++ last

def element : Parse (List Node) := do
  if ← isAt "..." then
    part (do
      let dots ← expect "..."
      let n ← part (deeper (.assignment true))
      return .group .spread (dots ++ n))
  else part (deeper (.assignment true))

def arguments : Parse Node :=
  return .group .arguments (← listed bound "(" ")" (element deeper))

def parameters : Parse Node :=
  return .group .parameters (Node.toPatterns (← listed bound "(" ")" (element deeper)))

def block (bare : Bool) : Parse Node := do
  let opening ← expect "\x7b"
  let body ← repeatWhile (return !(← isAt "\x7d")) (part (deeper .statement)) bound
  let closing ← expect "\x7d"
  let last ← blockEnd bare
  return .group .block (opening ++ body ++ closing ++ last)

def signature (bare : Bool) : Parse (List Node) := do
  let params ← partAs .parameters (parameters deeper bound)
  let body ← partAs .body (block deeper bound bare)
  return params ++ body

def function (before : List Node) (plain generator : Kind) : Parse Node := do
  let word ← expect "function"
  let star ← option "*"
  let name ← if ← isAtName then partAs .name identifier else pure []
  let rest ← signature deeper bound false
  return .group (if star.isEmpty then plain else generator) (before ++ word ++ star ++ name ++ rest)

def computedName : Parse Node := do
  let opening ← expect "["
  let key ← part (deeper (.assignment true))
  let closing ← expect "]"
  return .group .computedName (opening ++ key ++ closing)

def propertyName : Parse Node := do
  match (← token).kind with
  | .name => shift (.construct .propertyName)
  | .privateName => shift (.construct .privateName)
  | .number => shift (.construct .number)
  | .string => shift (.construct .string)
  | _ => computedName deeper

/-- Whether the next token is a modifier such as `get`: a word with a key behind it. -/
def isModifier (words : List String) : Parse Bool := do
  let t ← token
  let (after, _) ← secondOnLine
  return t.kind == .name && words.contains t.text &&
    (after.kind == .name || after.kind == .string || after.kind == .number
      || after.kind == .privateName || after.text == "[" || after.text == "*" && t.text != "get"
        && t.text != "set")

def modifiers (words : List String) : Parse (List Node) := do
  let before ← repeatWhile (isModifier words) (part (shift .token)) bound
  let star ← option "*"
  return before ++ star

def method (before key : List Node) : Parse Node := do
  let rest ← signature deeper bound true
  return .group .methodDef (before ++ key.map (fun n => if n.is .comment then n else n.as .name) ++ rest)

def property : Parse Node := do
  if ← isAt "..." then
    let dots ← expect "..."
    let n ← part (deeper (.assignment true))
    return .group .spread (dots ++ n)
  let before ← modifiers bound ["get", "set", "async"]
  let t ← token
  let key ← part (propertyName deeper)
  if ← isAt "(" then method deeper bound before key
  else if ← isAt ":" then
    let colon ← expect ":"
    let value ← partAs .value (deeper (.assignment true))
    return .group .pair (key.map (fun n => if n.is .comment then n else n.as .key) ++ colon ++ value)
  else if ← isAt "=" then
    let sign ← expect "="
    let value ← partAs .right (deeper (.assignment true))
    return .group .objectAssignmentPattern
      ((Node.leaf .shorthandPattern t.span).as .left :: (sign ++ value))
  else return Node.leaf .shorthandName t.span

def object : Parse Node :=
  return .group .object (← listed bound "\x7b" "\x7d" (part (property deeper bound)))

def array : Parse Node := return .group .array (← listed bound "[" "]" (element deeper))

def classMember : Parse (List Node) := do
  if ← isAt ";" then expect ";"
  else
    let (after, _) ← secondOnLine
    if (← isAt "static") && after.text == "\x7b" then
      part (do
        let word ← expect "static"
        let body ← partAs .body (block deeper bound true)
        return .group .staticBlock (word ++ body))
    else
      let head ← comments
      let before ← modifiers bound ["static", "get", "set", "async"]
      let key ← part (propertyName deeper)
      if ← isAt "(" then return head ++ [← method deeper bound before key]
      else
        let property := before ++ key.map fun n => if n.is .comment then n else n.as .property
        let value ←
          if ← isAt "=" then do
            let sign ← expect "="
            let n ← partAs .value (deeper (.assignment true))
            pure (sign ++ n)
          else pure []
        return head ++ [.group .fieldDef (property ++ value)]

def classBody : Parse Node := do
  let opening ← expect "\x7b"
  let members ← repeatWhile (return !(← isAt "\x7d")) (classMember deeper bound) bound
  let closing ← expect "\x7d"
  return .group .classBody (opening ++ members ++ closing)

def classAs (kind : Kind) : Parse Node := do
  let word ← expect "class"
  let name ←
    if (← isAtName) && !(← isAt "extends") then partAs .name identifier else pure []
  let heritage ←
    if ← isAt "extends" then
      part (do
        let word ← expect "extends"
        let n ← part (deeper .operand)
        return .group .heritage (word ++ n))
    else pure []
  let body ← partAs .body (classBody deeper bound)
  let last ← if kind == .classDecl then blockEnd false else pure []
  return .group kind (word ++ name ++ heritage ++ body ++ last)

/-- What stands between parentheses: one expression, or the parameters of an arrow function. -/
def parenthesized : Parse Node := do
  let opening ← expect "("
  if ← isAt ")" then
    let closing ← expect ")"
    return .group .parenthesized (opening ++ closing)
  let before ← comments
  let first ← element deeper
  let rest ← repeatWhile (isAt ",") (do
    let comma ← expect ","
    if ← isAt ")" then return comma
    let n ← element deeper
    return comma ++ n) bound
  let closing ← expect ")"
  let inner := if rest.isEmpty then first else [.group .sequence (first ++ rest)]
  return .group .parenthesized (opening ++ before ++ inner ++ closing)

def templateTextLength : List Char → Nat
  | '\\' :: _ :: cs => templateTextLength cs + 2
  | '$' :: '\x7b' :: _ => 0
  | c :: cs => if c == '\x60' then 0 else templateTextLength cs + 1
  | [] => 0

/-- Passes over the plain text of a template that begins behind the last token; an
expression in the template follows, or not. -/
def templateText : Parse Bool := fun s =>
  let stop := s.last.advance (templateTextLength s.last.rest)
  some (stop.rest.head? == some '$', { s with here := stop, next := stop, comments := [] })

def shiftChars (n : Nat) : Parse Node := fun s =>
  let next := s.here.advance n
  some (Node.mk .token none ⟨s.here.offset, next.offset⟩ [], { s with last := next, here := next, next := next })

def resume : Parse Unit := fun s => some ((), Reading.from_ s.next)

def templateParts : (rounds : Nat) → Parse (List Node)
  | 0 => fail
  | rounds + 1 => do
    if ← templateText then
      let opening ← shiftChars 2
      resume
      let inner ← part (expressions deeper bound true)
      let last ← comments
      if ← isAt "\x7d" then
        let closing ← shiftChars 1
        let rest ← templateParts rounds
        return .group .substitution (opening :: (inner ++ last ++ [closing])) :: rest
      else fail
    else
      let closing ← shiftChars 1
      resume
      return [closing]

def template : Parse Node := do
  let opening ← shiftChars 1
  let rest ← templateParts deeper bound bound
  return .group .template (opening :: rest)

/-- A regular expression where the next token was read as a slash. -/
def regex : Parse Node := fun s =>
  let next := s.here.advance (1 + regexLength false (s.here.rest.drop 1))
  some (Node.leaf .regex ⟨s.here.offset, next.offset⟩, Reading.from_ next)

def nameKind (text : String) : Kind :=
  match text with
  | "this" => .this
  | "super" => .superRef
  | "null" => .nullLit
  | "true" => .trueLit
  | "false" => .falseLit
  | "undefined" => .undefinedRef
  | _ => .identifier

def importRef : Parse Node := do
  if (← second).text == "." then
    let word ← expect "import"
    let dot ← expect "."
    let target ← part (shift .token)
    return .group .metaProperty (word ++ dot ++ target)
  else nameAs .importRef

def primary : Parse Node := do
  let t ← token
  match t.kind with
  | .number => shift (.construct .number)
  | .string => shift (.construct .string)
  | .privateName => shift (.construct .privateName)
  | .stop => fail
  | .name =>
    match t.text with
    | "function" => function deeper bound [] .functionExpr .generatorExpr
    | "class" => classAs deeper bound .classExpr
    | "new" => deeper .construct
    | "import" => importRef
    | "async" =>
      let (after, onLine) ← secondOnLine
      if onLine && after.text == "function" && after.kind == .name then
        let word ← expect "async"
        function deeper bound word .functionExpr .generatorExpr
      else identifier
    | text => nameAs (nameKind text)
  | .symbol =>
    match t.text with
    | "(" => parenthesized deeper bound
    | "[" => array deeper bound
    | "\x7b" => object deeper bound
    | "\x60" => template deeper bound
    | "/" | "/=" => regex
    | _ => fail

def accessed : Parse (List Node) := do
  if (← token).kind == .privateName then partAs .property (shift (.construct .privateName))
  else partAs .property (nameAs .propertyName)

def accesses (calls : Bool) : (rounds : Nat) → Node → Parse Node
  | 0, _ => fail
  | rounds + 1, left => do
    let t ← token
    if t.kind != .symbol then return left
    match t.text with
    | "." =>
      let dot ← expect "."
      let property ← accessed
      accesses calls rounds (.group .member (left.as .object :: (dot ++ property)))
    | "?." =>
      if !calls then return left
      let mark ← part (shift (.construct .optionalChain))
      if ← isAt "(" then
        let args ← partAs .arguments (arguments deeper bound)
        accesses calls rounds (.group .call (left.as .callee :: (mark ++ args)))
      else if ← isAt "[" then
        let opening ← expect "["
        let index ← part (expressions deeper bound true)
        let closing ← expect "]"
        accesses calls rounds (.group .subscript (left.as .object :: (mark ++ opening ++ index ++ closing)))
      else
        let property ← accessed
        accesses calls rounds (.group .member (left.as .object :: (mark ++ property)))
    | "[" =>
      let opening ← expect "["
      let index ← part (expressions deeper bound true)
      let closing ← expect "]"
      accesses calls rounds (.group .subscript (left.as .object :: (opening ++ index ++ closing)))
    | "(" =>
      if !calls then return left
      let args ← partAs .arguments (arguments deeper bound)
      accesses calls rounds (.group .call (left.as .callee :: args))
    | "\x60" =>
      let args ← partAs .arguments (template deeper bound)
      accesses calls rounds (.group .call (left.as .callee :: args))
    | _ => return left

def construct : Parse Node := do
  let word ← expect "new"
  if ← isAt "." then
    let dot ← expect "."
    let target ← part (shift .token)
    return .group .metaProperty (word ++ dot ++ target)
  let constructor ← partAs .constructor (do
    let head ← deeper .primary
    accesses deeper bound false bound head)
  let args ← if ← isAt "(" then partAs .arguments (arguments deeper bound) else pure []
  return .group .construct (word ++ constructor ++ args)

def unaryWords : List String := ["typeof", "void", "delete"]

def unarySymbols : List String := ["!", "~", "-", "+"]

def operand : Parse Node := do
  let t ← token
  if (t.kind == .symbol && unarySymbols.contains t.text)
      || (t.kind == .name && unaryWords.contains t.text) then
    let sign ← part (shift .token)
    let n ← part (deeper .operand)
    return .group .unary (sign ++ n)
  else if t.kind == .symbol && (t.text == "++" || t.text == "--") then
    let sign ← part (shift .token)
    let n ← part (deeper .operand)
    return .group .update (sign ++ n)
  else
    let (after, _) ← secondOnLine
    if t.kind == .name && t.text == "await" && (after.kind != .symbol
        || ["(", "[", "\x7b", "!", "-", "+", "~", "\x60", "/"].contains after.text)
        && after.kind != .stop && after.text != "in" && after.text != "instanceof"
        && after.text != "of" then
      let word ← expect "await"
      let n ← part (deeper .operand)
      return .group .awaitExpr (word ++ n)
    let head ← deeper .primary
    let n ← accesses deeper bound true bound head
    let u ← token
    if u.kind == .symbol && (u.text == "++" || u.text == "--") && !(← lineBreakBefore) then
      let sign ← part (shift .token)
      return .group .update (n :: sign)
    else return n

/-- The rank of a binary operator, the tightest highest, and whether it groups to the right. -/
def operatorRank? (t : Token) : Option (Nat × Bool) :=
  if t.kind == .symbol then
    match t.text with
    | "??" => some (1, false)
    | "||" => some (2, false)
    | "&&" => some (3, false)
    | "|" => some (4, false)
    | "^" => some (5, false)
    | "&" => some (6, false)
    | "==" | "!=" | "===" | "!==" => some (7, false)
    | "<" | ">" | "<=" | ">=" => some (8, false)
    | "<<" | ">>" | ">>>" => some (9, false)
    | "+" | "-" => some (10, false)
    | "*" | "/" | "%" => some (11, false)
    | "**" => some (12, true)
    | _ => none
  else if t.kind == .name && (t.text == "in" || t.text == "instanceof") then some (8, false)
  else none

/-- Takes the binary operators of rank `least` and above that follow `left`. -/
def operators (inAllowed : Bool) : (rounds : Nat) → (least : Nat) → Node → Parse Node
  | 0, _, _ => fail
  | rounds + 1, least, left => do
    let t ← token
    match operatorRank? t with
    | none => return left
    | some (rank, toRight) =>
      if rank < least || (t.kind == .name && t.text == "in" && !inAllowed) then return left
      let sign ← part (shift .token)
      let right ← part (do
        let n ← deeper .operand
        operators inAllowed rounds (if toRight then rank else rank + 1) n)
      operators inAllowed rounds least (.group .binary (left :: (sign ++ right)))

def augmentedSigns : List String :=
  ["+=", "-=", "*=", "/=", "%=", "**=", "<<=", ">>=", ">>>=", "&=", "|=", "^=", "&&=", "||=", "??="]

/-- The parameters of an arrow function, read as an expression in parentheses or as arguments. -/
def asParameters : Node → Node
  | .mk _ _ span children =>
    let flat := children.flatMap fun c => if c.is .sequence then c.children else [c]
    .mk (.construct .parameters) (some .parameters) span (Node.toPatterns flat)

def arrowBody (inAllowed : Bool) : Parse (List Node) := do
  let arrow ← expect "=>"
  let body ←
    if ← isAt "\x7b" then partAs .body (block deeper bound false)
    else partAs .body (deeper (.assignment inAllowed))
  return arrow ++ body

def asyncArrow? (inAllowed : Bool) : Parse (Option Node) := fun s =>
  let attempt : Parse Node := do
    let (after, onLine) ← secondOnLine
    if !(← isAt "async") || !onLine then fail
    else if after.kind == .name && after.text != "function" then
      let word ← expect "async"
      let param ← partAs .parameter identifier
      let body ← arrowBody deeper bound inAllowed
      return .group .arrow (word ++ param ++ body)
    else if after.text == "(" && after.kind == .symbol then
      let word ← expect "async"
      let params ← part (return asParameters (← parenthesized deeper bound))
      let body ← arrowBody deeper bound inAllowed
      return .group .arrow (word ++ params ++ body)
    else fail
  match attempt s with
  | some (n, s') => some (some n, s')
  | none => some (none, s)

def yieldExpr (inAllowed : Bool) : Parse Node := do
  let word ← expect "yield"
  let star ← option "*"
  let t ← token
  let bare := star.isEmpty && ((← lineBreakBefore) || t.kind == .stop
    || (t.kind == .symbol && [")", "]", "\x7d", ",", ";", ":", "=>", "="].contains t.text))
  let n ← if bare then pure [] else part (deeper (.assignment inAllowed))
  return .group .yieldExpr (word ++ star ++ n)

def assignment (inAllowed : Bool) : Parse Node := do
  if ← isAt "yield" then
    if (← second).text != "=>" then return ← yieldExpr deeper inAllowed
  match ← asyncArrow? deeper bound inAllowed with
  | some n => return n
  | none =>
    let head ← deeper .operand
    if ← isAt "=>" then
      if head.is .parenthesized then
        let body ← arrowBody deeper bound inAllowed
        return .group .arrow (asParameters head :: body)
      else
        let body ← arrowBody deeper bound inAllowed
        return .group .arrow (head.as .parameter :: body)
    let left ← operators deeper inAllowed bound 0 head
    let t ← token
    if t.kind != .symbol then return left
    if t.text == "?" then
      let mark ← expect "?"
      let consequence ← partAs .consequence (deeper (.assignment true))
      let colon ← expect ":"
      let alternative ← partAs .alternative (deeper (.assignment inAllowed))
      return .group .ternary (left.as .condition :: (mark ++ consequence ++ colon ++ alternative))
    else if t.text == "=" then
      let sign ← expect "="
      let right ← partAs .right (deeper (.assignment inAllowed))
      return .group .assignment ((Node.toPattern left).as .left :: (sign ++ right))
    else if augmentedSigns.contains t.text then
      let sign ← part (shift .token)
      let right ← partAs .right (deeper (.assignment inAllowed))
      return .group .augmentedAssignment (left.as .left :: (sign ++ right))
    else return left

end Parse

end UiWorkspace.Script
