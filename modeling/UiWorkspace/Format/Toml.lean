import UiWorkspace.Format.Json

/-! TOML values and how they are written. -/
namespace UiWorkspace.Format

open UiWorkspace.Text

inductive TomlValue where
  | string (s : String)
  | integer (n : Int)
  /-- A number with a fraction or an exponent, or a date, as it was written. -/
  | other (text : String)
  | boolean (b : Bool)
  | array (items : List TomlValue)
  | table (entries : List (String × TomlValue))
deriving Repr

namespace TomlValue

def get? (v : TomlValue) (key : String) : Option TomlValue :=
  match v with
  | table entries => entries.lookup key
  | _ => none

mutual

/-- Lays one value over another: tables are merged key by key, anything else is replaced. -/
def overlay (lower : TomlValue) : TomlValue → TomlValue
  | .table upper =>
    match lower with
    | .table entries => .table (overlayEntries entries upper)
    | _ => .table upper
  | v => v

def overlayEntries (lower : List (String × TomlValue)) :
    List (String × TomlValue) → List (String × TomlValue)
  | [] => lower
  | (k, v) :: rest =>
    let merged := match lower.lookup k with
      | some w => overlay w v
      | none => v
    overlayEntries (Table.put k merged lower) rest

end

def needsEscape (c : Char) : Bool :=
  c != '\t' && c != '\n' && (c.toNat < 32 || c.toNat == 127)

def longestRun (c : Char) (s : List Char) : Nat :=
  (s.foldl (fun (best, run) d =>
    let run := if d == c then run + 1 else 0
    (max best run, run)) (0, 0)).1

def hexDigits (width n : Nat) : List Char :=
  (List.range width).reverse.map fun i => "0123456789ABCDEF".toList.getD (n / Nat.pow 16 i % 16) '0'

def escapeChar (lines : Bool) (c : Char) : List Char :=
  if c == '"' then ['\\', '"']
  else if c == '\\' then ['\\', '\\']
  else if c == '\x08' then ['\\', 'b']
  else if c == '\t' then ['\\', 't']
  else if c == '\n' then (if lines then ['\n'] else ['\\', 'n'])
  else if c == '\x0c' then ['\\', 'f']
  else if c == '\r' then ['\\', 'r']
  else if needsEscape c then ['\\', 'u'] ++ hexDigits 4 c.toNat
  else [c]

/-- A text in the plainest quotes that hold it: double quotes, single quotes, three
double or three single quotes without escapes, and only then with escapes. -/
def quote (s : String) : String :=
  let cs := s.toList
  let coded := cs.any needsEscape
  let slashed := cs.contains '\\'
  let lines := cs.contains '\n'
  let doubles := longestRun '"' cs
  let singles := longestRun '\'' cs
  let start := if lines then "\n" else ""
  if !coded && !slashed && doubles == 0 && !lines then "\"" ++ s ++ "\""
  else if !coded && singles == 0 && !lines then "'" ++ s ++ "'"
  else if !coded && !slashed && doubles ≤ 2 then "\"\"\"" ++ start ++ s ++ "\"\"\""
  else if !coded && singles ≤ 2 then "'''" ++ start ++ s ++ "'''"
  else if lines then "\"\"\"" ++ start ++ String.ofList (cs.flatMap (escapeChar true)) ++ "\"\"\""
  else "\"" ++ String.ofList (cs.flatMap (escapeChar false)) ++ "\""

mutual

def inline : TomlValue → String
  | .string s => quote s
  | .integer n => toString n
  | .other text => text
  | .boolean b => if b then "true" else "false"
  | .array [] => "[]"
  | .array [v] => "[" ++ inline v ++ "]"
  | .array (v :: w :: vs) => "[\n" ++ inlineItems (v :: w :: vs) ++ "]"
  | .table _ => "\x7b\x7d"

def inlineItems : List TomlValue → String
  | [] => ""
  | v :: vs => "    " ++ inline v ++ ",\n" ++ inlineItems vs

end

def isTable : TomlValue → Bool
  | table _ => true
  | _ => false

def plainLines (entries : List (String × TomlValue)) : String :=
  String.join ((entries.filter fun e => !isTable e.2).map fun e => e.1 ++ " = " ++ inline e.2 ++ "\n")

/-- A document of plain entries, followed by tables of plain entries. -/
def write (entries : List (String × TomlValue)) : String :=
  plainLines entries ++
    String.join (entries.map fun e =>
      match e.2 with
      | .table inner => "\n[" ++ e.1 ++ "]\n" ++ plainLines inner
      | _ => "")

end TomlValue

end UiWorkspace.Format
