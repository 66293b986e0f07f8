import UiWorkspace.Table
import UiWorkspace.Text.Pieces

/-! JSON: a strict reader and an indenting writer. A value keeps the order and the
repetitions of its keys; `field?` looks the last one up. -/
namespace UiWorkspace.Format

open UiWorkspace.Text

inductive JsonValue where
  | null
  | bool (b : Bool)
  /-- A number as it was written. -/
  | number (text : String)
  | string (s : String)
  | array (items : List JsonValue)
  | object (fields : List (String × JsonValue))
deriving Repr

namespace JsonValue

def isJsonBlank (c : Char) : Bool := c == ' ' || c == '\t' || c == '\n' || c == '\r'

def hexValue? (c : Char) : Option Nat :=
  if c.isDigit then some (c.toNat - 48)
  else if 'a' ≤ c ∧ c ≤ 'f' then some (c.toNat - 87)
  else if 'A' ≤ c ∧ c ≤ 'F' then some (c.toNat - 55)
  else none

def hexValues? (cs : List Char) : Option Nat :=
  cs.foldl (fun n? c => do
    let n ← n?
    let d ← hexValue? c
    some (n * 16 + d)) (some 0)

def escaped? (c : Char) : Option Char :=
  match c with
  | '"' => some '"'
  | '\\' => some '\\'
  | '/' => some '/'
  | 'b' => some '\x08'
  | 'f' => some '\x0c'
  | 'n' => some '\n'
  | 'r' => some '\r'
  | 't' => some '\t'
  | _ => none

def joined? (high low : Nat) : Option Char :=
  if 0xD800 ≤ high ∧ high < 0xDC00 ∧ 0xDC00 ≤ low ∧ low < 0xE000 then
    some (Char.ofNat (0x10000 + (high - 0xD800) * 0x400 + (low - 0xDC00)))
  else none

def single? (n : Nat) : Option Char :=
  if 0xD800 ≤ n ∧ n < 0xE000 then none else some (Char.ofNat n)

/-- The characters of a string behind its opening quote, and what follows the closing
one. Control characters and lone surrogates are refused. -/
def readString : List Char → Option (List Char × List Char)
  | '"' :: cs => some ([], cs)
  | '\\' :: 'u' :: a :: b :: c :: d :: '\\' :: 'u' :: e :: f :: g :: h :: cs =>
    match hexValues? [a, b, c, d], hexValues? [e, f, g, h] with
    | some high, some low =>
      match joined? high low with
      | some joined => (readString cs).map fun p => (joined :: p.1, p.2)
      | none =>
        match single? high with
        | some first =>
          (readString ('\\' :: 'u' :: e :: f :: g :: h :: cs)).map fun p => (first :: p.1, p.2)
        | none => none
    | some high, none =>
      match single? high with
      | some first =>
        (readString ('\\' :: 'u' :: e :: f :: g :: h :: cs)).map fun p => (first :: p.1, p.2)
      | none => none
    | none, _ => none
  | '\\' :: 'u' :: a :: b :: c :: d :: cs =>
    match (hexValues? [a, b, c, d]).bind single? with
    | some first => (readString cs).map fun p => (first :: p.1, p.2)
    | none => none
  | '\\' :: c :: cs =>
    match escaped? c with
    | some plain => (readString cs).map fun p => (plain :: p.1, p.2)
    | none => none
  | c :: cs =>
    if c == '\\' || c.toNat < 32 then none else (readString cs).map fun p => (c :: p.1, p.2)
  | [] => none

def readDigits? (cs : List Char) : Option (List Char × List Char) :=
  let digits := cs.takeWhile Char.isDigit
  if digits.isEmpty then none else some (digits, cs.dropWhile Char.isDigit)

/-- A number: no sign but a minus, no leading zeros, digits around every point. -/
def readNumber? (cs : List Char) : Option (List Char × List Char) := do
  let (sign, cs) := match cs with
    | '-' :: rest => (['-'], rest)
    | _ => ([], cs)
  let (whole, cs) ← readDigits? cs
  if whole.head? == some '0' && 1 < whole.length then none
  else
    let (fraction, cs) ←
      match cs with
      | '.' :: rest => (readDigits? rest).map fun p => ('.' :: p.1, p.2)
      | _ => some ([], cs)
    match cs with
    | e :: rest =>
      if e == 'e' || e == 'E' then
        let (mark, rest) := match rest with
          | s :: more => if s == '+' || s == '-' then ([s], more) else ([], rest)
          | [] => ([], rest)
        let (digits, rest) ← readDigits? rest
        some (sign ++ whole ++ fraction ++ e :: mark ++ digits, rest)
      else some (sign ++ whole ++ fraction, cs)
    | [] => some (sign ++ whole ++ fraction, cs)

mutual

/-- A value and what follows it. The first argument bounds the length of the reading. -/
def readValue : Nat → List Char → Option (JsonValue × List Char)
  | 0, _ => none
  | fuel + 1, cs =>
    match cs.dropWhile isJsonBlank with
    | '"' :: rest => (readString rest).map fun p => (.string (String.ofList p.1), p.2)
    | '[' :: rest =>
      match rest.dropWhile isJsonBlank with
      | ']' :: behind => some (.array [], behind)
      | _ => (readItems fuel rest).map fun p => (.array p.1, p.2)
    | '\x7b' :: rest =>
      match rest.dropWhile isJsonBlank with
      | '\x7d' :: behind => some (.object [], behind)
      | _ => (readFields fuel rest).map fun p => (.object p.1, p.2)
    | 't' :: 'r' :: 'u' :: 'e' :: rest => some (.bool true, rest)
    | 'f' :: 'a' :: 'l' :: 's' :: 'e' :: rest => some (.bool false, rest)
    | 'n' :: 'u' :: 'l' :: 'l' :: rest => some (.null, rest)
    | other => (readNumber? other).map fun p => (.number (String.ofList p.1), p.2)

def readItems : Nat → List Char → Option (List JsonValue × List Char)
  | 0, _ => none
  | fuel + 1, cs =>
    match readValue fuel cs with
    | none => none
    | some (item, rest) =>
      match rest.dropWhile isJsonBlank with
      | ',' :: more => (readItems fuel more).map fun p => (item :: p.1, p.2)
      | ']' :: behind => some ([item], behind)
      | _ => none

def readFields : Nat → List Char → Option (List (String × JsonValue) × List Char)
  | 0, _ => none
  | fuel + 1, cs =>
    match cs.dropWhile isJsonBlank with
    | '"' :: rest =>
      match readString rest with
      | none => none
      | some (key, rest) =>
        match rest.dropWhile isJsonBlank with
        | ':' :: rest =>
          match readValue fuel rest with
          | none => none
          | some (value, rest) =>
            match rest.dropWhile isJsonBlank with
            | ',' :: more =>
              (readFields fuel more).map fun p => ((String.ofList key, value) :: p.1, p.2)
            | '\x7d' :: behind => some ([(String.ofList key, value)], behind)
            | _ => none
        | _ => none
    | _ => none

end

def read? (text : String) : Option JsonValue := do
  let cs := text.toList
  let (value, rest) ← readValue (2 * cs.length + 2) cs
  if rest.all isJsonBlank then some value else none

def digitsValue (cs : List Char) : Nat :=
  (cs.filter Char.isDigit).foldl (fun n c => n * 10 + (c.toNat - 48)) 0

/-- The least number that double precision rounds to infinity. -/
def doubleLimit : Nat := Nat.pow 2 1024 - Nat.pow 2 970

def overflows (text : String) : Bool :=
  let isMark (c : Char) : Bool := c == 'e' || c == 'E'
  let mantissa := text.toList.takeWhile fun c => !isMark c
  let power := (text.toList.dropWhile fun c => !isMark c).drop 1
  let exponent := digitsValue power
  let fraction := ((mantissa.dropWhile fun c => c != '.').drop 1).length
  let digits := digitsValue mantissa
  if digits == 0 then false
  else if power.head? == some '-' then
    exponent < mantissa.length && doubleLimit * Nat.pow 10 (fraction + exponent) ≤ digits
  else
    mantissa.length + 2000 < exponent || doubleLimit * Nat.pow 10 fraction ≤ digits * Nat.pow 10 exponent

mutual

def fits : (depth : Nat) → JsonValue → Bool
  | depth, .array items => 0 < depth && fitAll (depth - 1) items
  | depth, .object fields => 0 < depth && fitFields (depth - 1) fields
  | _, .number text => !overflows text
  | _, _ => true

def fitAll (depth : Nat) : List JsonValue → Bool
  | [] => true
  | v :: vs => fits depth v && fitAll depth vs

def fitFields (depth : Nat) : List (String × JsonValue) → Bool
  | [] => true
  | (_, v) :: vs => fits depth v && fitFields depth vs

end

/-- The value of a document, which nests at most 127 deep. -/
def document? (text : String) : Option JsonValue := (read? text).filter (fits 127)

/-- The value under a key of an object, the last one if it is repeated. -/
def field? (v : JsonValue) (key : String) : Option JsonValue :=
  match v with
  | object fields => fields.reverse.lookup key
  | _ => none

def at? (v : JsonValue) : List String → Option JsonValue
  | [] => some v
  | key :: keys => (v.field? key).bind fun w => w.at? keys

def string? : JsonValue → Option String
  | string s => some s
  | _ => none

/-- The fields of an object sorted by key, of repeated keys the last. -/
def sortedFields : JsonValue → List (String × JsonValue)
  | object fields => fields.foldl (fun t f => Table.insertSorted Ord.compare f.1 f.2 t) []
  | _ => []

def hexText (n : Nat) : List Char :=
  let digit (d : Nat) : Char := "0123456789abcdef".toList.getD d '0'
  [digit (n / 16 % 16), digit (n % 16)]

def escapeChar (c : Char) : List Char :=
  if c == '"' then ['\\', '"']
  else if c == '\\' then ['\\', '\\']
  else if c == '\x08' then ['\\', 'b']
  else if c == '\x0c' then ['\\', 'f']
  else if c == '\n' then ['\\', 'n']
  else if c == '\r' then ['\\', 'r']
  else if c == '\t' then ['\\', 't']
  else if c.toNat < 32 then ['\\', 'u', '0', '0'] ++ hexText c.toNat
  else [c]

def quote (s : String) : String :=
  String.ofList ('"' :: (s.toList.flatMap escapeChar ++ ['"']))

def indent (depth : Nat) : String := String.ofList (List.replicate (2 * depth) ' ')

mutual

def pretty (depth : Nat) : JsonValue → String
  | .null => "null"
  | .bool b => if b then "true" else "false"
  | .number text => text
  | .string s => quote s
  | .array [] => "[]"
  | .array (v :: vs) =>
    "[\n" ++ indent (depth + 1) ++ pretty (depth + 1) v ++ prettyItems (depth + 1) vs
      ++ "\n" ++ indent depth ++ "]"
  | .object [] => "\x7b\x7d"
  | .object ((k, v) :: fields) =>
    "\x7b\n" ++ indent (depth + 1) ++ quote k ++ ": " ++ pretty (depth + 1) v
      ++ prettyFields (depth + 1) fields ++ "\n" ++ indent depth ++ "\x7d"

def prettyItems (depth : Nat) : List JsonValue → String
  | [] => ""
  | v :: vs => ",\n" ++ indent depth ++ pretty depth v ++ prettyItems depth vs

def prettyFields (depth : Nat) : List (String × JsonValue) → String
  | [] => ""
  | (k, v) :: fields =>
    ",\n" ++ indent depth ++ quote k ++ ": " ++ pretty depth v ++ prettyFields depth fields

end

def write (v : JsonValue) : String := v.pretty 0

end JsonValue

end UiWorkspace.Format
