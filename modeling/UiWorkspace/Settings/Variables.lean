import UiWorkspace.Settings.Basic
import UiWorkspace.Text.Pieces

/-! Settings from environment variables such as `ATLAS_FRAMEWORK__VERSION`, laid over
those of the file. A value is read as a flag, a number, a list in brackets, a table in
braces or a quoted text where it has that form, and as plain text otherwise. -/
namespace UiWorkspace.Settings

open UiWorkspace.Format
open UiWorkspace.Text

def isSeparator (c : Char) : Bool := ",\x7b\x7d[]".toList.contains c

def plainNumber? (cs : List Char) : Option TomlValue :=
  let digits := if cs.head? == some '+' || cs.head? == some '-' then cs.drop 1 else cs
  if digits.isEmpty || !digits.all Char.isDigit then none
  else
    let n : Int := JsonValue.digitsValue digits
    let signed := if cs.head? == some '-' then -n else n
    if -(Int.ofNat (Nat.pow 2 63)) ≤ signed ∧ signed < Int.ofNat (Nat.pow 2 64) then some (.integer signed) else none

def isFractional (cs : List Char) : Bool :=
  let unsigned := if cs.head? == some '+' || cs.head? == some '-' then cs.drop 1 else cs
  let whole := unsigned.takeWhile Char.isDigit
  match unsigned.drop whole.length with
  | '.' :: rest =>
    let fraction := rest.takeWhile Char.isDigit
    !(whole.isEmpty && fraction.isEmpty) && isExponent (rest.drop fraction.length)
  | _ => false
where
  isExponent : List Char → Bool
    | [] => true
    | c :: cs =>
      let digits := if cs.head? == some '+' || cs.head? == some '-' then cs.drop 1 else cs
      (c == 'e' || c == 'E') && !digits.isEmpty && digits.all Char.isDigit

/-- A word that is no flag and has no brackets around it. -/
def plainValue (cs : List Char) : TomlValue :=
  let cs := trimChars cs
  if isFractional cs then .other (String.ofList cs)
  else (plainNumber? cs).getD (.string (String.ofList cs))

def quotedValue? (cs : List Char) : Option (String × List Char) :=
  match cs with
  | '"' :: rest =>
    (TomlReader.basicString (rest.length + 1) rest).map fun p => (String.ofList p.1, p.2)
  | _ => none

def variableKey? (cs : List Char) : Option (String × List Char) :=
  if cs.head? == some '"' then quotedValue? cs
  else
    let key := cs.takeWhile TomlReader.isBare
    if key.isEmpty then none else some (String.ofList key, cs.drop key.length)

mutual

def variableValue : Nat → List Char → Option (TomlValue × List Char)
  | 0, _ => none
  | fuel + 1, cs =>
    let cs := cs.dropWhile isAsciiBlank
    let found : Option (TomlValue × List Char) :=
      match after? "true".toList cs, after? "false".toList cs, cs with
      | some rest, _, _ => some (.boolean true, rest)
      | _, some rest, _ => some (.boolean false, rest)
      | _, _, '[' :: rest => (variableItems fuel rest).map fun p => (.array p.1, p.2)
      | _, _, '\x7b' :: rest => (variableEntries fuel [] rest).map fun p => (.table p.1, p.2)
      | _, _, '"' :: _ => (quotedValue? cs).map fun p => (.string p.1, p.2)
      | _, _, '\'' :: c :: '\'' :: rest => some (.string (String.ofList [c]), rest)
      | _, _, '\'' :: _ => none
      | _, _, _ =>
        some (plainValue (cs.takeWhile fun c => !isSeparator c), cs.dropWhile fun c => !isSeparator c)
    found.map fun p => (p.1, p.2.dropWhile isAsciiBlank)

def variableItems : Nat → List Char → Option (List TomlValue × List Char)
  | 0, _ => none
  | fuel + 1, cs =>
    match cs with
    | ']' :: rest => some ([], rest)
    | _ =>
      match variableValue fuel cs with
      | some (v, ',' :: more) => (variableItems fuel more).map fun p => (v :: p.1, p.2)
      | some (v, ']' :: rest) => some ([v], rest)
      | _ => none

/-- The entries of a table up to its closing brace, which may stand right behind a comma;
of two entries with one key the later counts. -/
def variableEntries :
    Nat → List (String × TomlValue) → List Char → Option (List (String × TomlValue) × List Char)
  | 0, _, _ => none
  | fuel + 1, entries, cs =>
    match cs with
    | '\x7d' :: rest => some (entries, rest)
    | _ =>
      match variableKey? (cs.dropWhile isAsciiBlank) with
      | none => none
      | some (key, behind) =>
        match behind.dropWhile isAsciiBlank with
        | '=' :: rest =>
          match variableValue fuel rest with
          | some (v, ',' :: more) => variableEntries fuel (Table.put key v entries) more
          | some (v, '\x7d' :: rest) => some (Table.put key v entries, rest)
          | _ => none
        | _ => none

end

def ofVariable (text : String) : TomlValue :=
  let cs := text.toList
  match variableValue (2 * cs.length + 2) cs with
  | some (v, []) => v
  | _ => .string text

def nest : List String → TomlValue → TomlValue
  | [], v => v
  | key :: keys, v => .table [(key, nest keys v)]

def levels : List Char → List (List Char)
  | [] => [[]]
  | '_' :: '_' :: cs => [] :: levels cs
  | c :: cs =>
    match levels cs with
    | [] => [[c]]
    | p :: ps => (c :: p) :: ps

def variableLayer? (name value : String) : Option TomlValue := do
  let key ← stripLead? "ATLAS_" name.toUpper
  if key = "" then none
  else
    let keys := (levels key.toLower.toList).flatMap fun l => pieces '.' l
    some (nest (keys.map String.ofList) (ofVariable value))

def loadAll? (text? : Option String) (environment : List (String × String)) : Option Settings := do
  let lower ← fileLayer? text?
  let layers := environment.filterMap fun v => variableLayer? v.1 v.2
  let upper := layers.foldl (fun t l => TomlValue.overlay t l) (.table [])
  ofTable? (TomlValue.overlay lower upper)

end UiWorkspace.Settings
