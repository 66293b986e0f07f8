import UiWorkspace.Text.Span

/-! Patterns for relative paths. A star matches within one name, two stars across names.
Paths are matched byte by byte. -/
namespace UiWorkspace.Scan

inductive GlobToken where
  | byte (b : UInt8)
  | any
  | many
  /-- Two stars at the beginning: nothing, or any directories. -/
  | leading
  /-- Two stars between slashes: a slash, or directories between two. -/
  | between
  /-- Two stars behind the last slash: everything below. -/
  | trailing
  | oneOf (negated : Bool) (ranges : List (UInt8 × UInt8))
  | choice (branches : List (List GlobToken))
deriving Repr

namespace GlobToken

def slash : UInt8 := 47

def isLeading : GlobToken → Bool
  | leading => true
  | _ => false

def withinName : List UInt8 → List (List UInt8)
  | [] => [[]]
  | b :: bs => (b :: bs) :: if b == slash then [] else withinName bs

def behindSlashes : List UInt8 → List (List UInt8)
  | [] => []
  | b :: bs => if b == slash then bs :: behindSlashes bs else behindSlashes bs

def ends : List UInt8 → List (List UInt8)
  | [] => [[]]
  | b :: bs => (b :: bs) :: ends bs

def inSome (ranges : List (UInt8 × UInt8)) (b : UInt8) : Bool :=
  ranges.any fun r => r.1 ≤ b && b ≤ r.2

/-- Ends of one path are told apart by their lengths. -/
def distinct (rests : List (List UInt8)) : List (List UInt8) :=
  rests.eraseDupsBy fun a b => a.length == b.length

mutual

def rests : GlobToken → List UInt8 → List (List UInt8)
  | .byte b, path =>
    match path with
    | c :: cs => if b == c then [cs] else []
    | [] => []
  | .any, path =>
    match path with
    | c :: cs => if c == slash then [] else [cs]
    | [] => []
  | .many, path => withinName path
  | .leading, path => path :: behindSlashes path
  | .between, path =>
    match path with
    | c :: cs => if c == slash then cs :: behindSlashes cs else []
    | [] => []
  | .trailing, path =>
    match path with
    | c :: cs => if c == slash then ends cs else []
    | [] => []
  | .oneOf negated ranges, path =>
    match path with
    | c :: cs => if inSome ranges c != negated then [cs] else []
    | [] => []
  | .choice branches, path => restsOfChoice branches path

def restsOfAll : List GlobToken → List UInt8 → List (List UInt8)
  | [], path => [path]
  | t :: ts, path => distinct ((rests t path).flatMap fun rest => restsOfAll ts rest)

def restsOfChoice : List (List GlobToken) → List UInt8 → List (List UInt8)
  | [], _ => []
  | ts :: branches, path => restsOfAll ts path ++ restsOfChoice branches path

end

end GlobToken

abbrev Glob := List GlobToken

namespace Glob

/-- Whether a pattern matches a whole path. Two stars alone match everything. -/
def isMatch (g : Glob) (path : String) : Bool :=
  match g with
  | [.leading] => true
  | _ => (GlobToken.restsOfAll g path.toUTF8.toList).any List.isEmpty

/-- The pattern read so far, backwards, and the choices that are still open: what stood
before each, and its finished branches, both backwards. -/
structure Reader where
  tokens : List GlobToken
  choices : List (List GlobToken × List (List GlobToken))
  last? : Option Char

def bytesOf (c : Char) : List UInt8 := (String.ofList [c]).toUTF8.toList

def plain (c : Char) : List GlobToken := ((bytesOf c).map .byte).reverse

def Reader.add (r : Reader) (tokens : List GlobToken) (last : Char) : Reader :=
  { r with tokens := tokens ++ r.tokens, last? := some last }

/-- The ranges of bytes that a range of characters stands for: for characters of several
bytes, the bytes before and behind the dash make a range of their own. -/
def byteRanges (range : Char × Char) : List (UInt8 × UInt8) :=
  let single (b : UInt8) : UInt8 × UInt8 := (b, b)
  if range.1 == range.2 then (bytesOf range.1).map single
  else
    match (bytesOf range.1).reverse, bytesOf range.2 with
    | low :: before, high :: behind => before.map single ++ (low, high) :: behind.map single
    | _, _ => []

inductive ClassFault where
  | unclosed
  | backwards
deriving DecidableEq, Repr

/-- Reads the ranges of a class up to its bracket. `ranges` is backwards; `first` says that
a bracket or dash would still be an ordinary member, `open_` that a dash waits for the end
of its range. -/
def readRanges (ranges : List (Char × Char)) (first open_ : Bool) :
    List Char → Except ClassFault (List (Char × Char) × List Char)
  | [] => .error .unclosed
  | c :: cs =>
    if c == ']' && !first then
      .ok ((if open_ then ('-', '-') :: ranges else ranges).reverse, cs)
    else if c == '-' && !first && !open_ then readRanges ranges false true cs
    else if open_ then
      match ranges with
      | (low, _) :: others =>
        if c < low then .error .backwards else readRanges ((low, c) :: others) false false cs
      | [] => readRanges [(c, c)] false false cs
    else readRanges ((c, c) :: ranges) false false cs

def readClass (cs : List Char) : Except ClassFault (GlobToken × List Char) :=
  let negated := cs.head? == some '!' || cs.head? == some '^'
  (readRanges [] true false (if negated then cs.drop 1 else cs)).map fun p =>
    (.oneOf negated (p.1.flatMap byteRanges), p.2)

/-- Reads two stars. They count as one thing only where they stand alone between slashes
and ends; elsewhere each is a star of its own. -/
def readStars (r : Reader) (cs : List Char) : Reader × List Char :=
  let stars : Reader × List Char := (r.add [.many, .many] '*', cs)
  let next? := cs.head?
  if r.tokens.isEmpty then
    match next? with
    | none => (r.add [.leading] '*', [])
    | some '/' => (r.add [.leading] '/', cs.drop 1)
    | some _ => stars
  else if r.last? != some '/' then stars
  else
    let put (token : GlobToken) : List GlobToken :=
      match r.tokens with
      | .leading :: outer => .leading :: outer
      | .trailing :: outer => .trailing :: outer
      | _ :: outer => token :: outer
      | [] => [token]
    let inChoice := !r.choices.isEmpty
    if next? == none || (inChoice && (next? == some ',' || next? == some '\x7d')) then
      ({ r with tokens := put .trailing, last? := some '*' }, cs)
    else if next? == some '/' then ({ r with tokens := put .between, last? := some '/' }, cs.drop 1)
    else stars

/-- Reads a pattern. A backslash takes the next character as it is. In a lenient reading a
bracket that is never closed is an ordinary character. -/
def readFrom (lenient : Bool) : (fuel : Nat) → Reader → List Char → Option Glob
  | _, r, [] => if r.choices.isEmpty then some r.tokens.reverse else none
  | 0, _, _ => none
  | fuel + 1, r, c :: cs =>
    if c == '?' then readFrom lenient fuel (r.add [.any] c) cs
    else if c == '*' then
      match cs with
      | '*' :: rest =>
        let (r, rest) := readStars r rest
        readFrom lenient fuel r rest
      | _ => readFrom lenient fuel (r.add [.many] c) cs
    else if c == '[' then
      match readClass cs with
      | .ok (token, rest) => readFrom lenient fuel (r.add [token] ']') rest
      | .error .backwards => none
      | .error .unclosed =>
        if lenient then readFrom lenient fuel (r.add (plain c) c) cs else none
    else if c == '\x7b' then
      readFrom lenient fuel ⟨[], (r.tokens, []) :: r.choices, some c⟩ cs
    else if c == '\x7d' then
      match r.choices with
      | [] => none
      | (before, branches) :: outer =>
        let branches := (r.tokens.reverse :: branches).reverse.filter fun b => !b.isEmpty
        let tokens := if branches.isEmpty then before else .choice branches :: before
        readFrom lenient fuel ⟨tokens, outer, some c⟩ cs
    else if c == ',' && !r.choices.isEmpty then
      match r.choices with
      | [] => none
      | (before, branches) :: outer =>
        readFrom lenient fuel ⟨[], (before, r.tokens.reverse :: branches) :: outer, some c⟩ cs
    else if c == '\\' then
      match cs with
      | [] => none
      | escaped :: rest => readFrom lenient fuel (r.add (plain escaped) escaped) rest
    else readFrom lenient fuel (r.add (plain c) c) cs

def read? (lenient : Bool) (text : String) : Option Glob :=
  readFrom lenient text.toList.length ⟨[], [], none⟩ text.toList

end Glob

end UiWorkspace.Scan
