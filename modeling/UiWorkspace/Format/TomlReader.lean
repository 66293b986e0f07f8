import UiWorkspace.Format.Toml
import UiWorkspace.Format.TomlDate

/-! Reading TOML documents. A table may be opened once, a key set once, and a table made
by dotted keys cannot be opened by a header. -/
namespace UiWorkspace.Format.TomlReader

open UiWorkspace.Text

/-- How a table came about. -/
inductive Origin where
  /-- As a part of the name of another table. -/
  | implied
  /-- By a header of its own. -/
  | opened
  /-- By dotted keys. -/
  | dotted
deriving DecidableEq

inductive Draft where
  | value (v : TomlValue)
  | table (origin : Origin) (entries : List (String × Draft))
  /-- An array of tables, the last one first. -/
  | tables (items : List (List (String × Draft)))

abbrev Entries := List (String × Draft)

mutual

def finished : Draft → TomlValue
  | .value v => v
  | .table _ entries => .table (finishedEntries entries)
  | .tables items => .array (finishedItems items).reverse

def finishedEntries : List (String × Draft) → List (String × TomlValue)
  | [] => []
  | (k, d) :: rest => (k, finished d) :: finishedEntries rest

def finishedItems : List (List (String × Draft)) → List TomlValue
  | [] => []
  | e :: rest => .table (finishedEntries e) :: finishedItems rest

end

/-- Changes the table that a header names, where the keys before the last may lead
through tables and through the last table of an array. -/
def openAt (make : Option Draft → Option Draft) : List String → Entries → Option Entries
  | [], _ => none
  | [key], entries => (make (entries.lookup key)).map fun d => Table.put key d entries
  | key :: keys, entries =>
    match entries.lookup key with
    | none => (openAt make keys []).map fun inner => Table.put key (.table .implied inner) entries
    | some (.table origin inner) =>
      (openAt make keys inner).map fun inner => Table.put key (.table origin inner) entries
    | some (.tables (last :: others)) =>
      (openAt make keys last).map fun last => Table.put key (.tables (last :: others)) entries
    | some _ => none

def openTable : Option Draft → Option Draft
  | none => some (.table .opened [])
  | some (.table .implied entries) => some (.table .opened entries)
  | some _ => none

def openItem : Option Draft → Option Draft
  | none => some (.tables [[]])
  | some (.tables items) => some (.tables ([] :: items))
  | some _ => none

def setKey (v : TomlValue) : List String → Entries → Option Entries
  | [], _ => none
  | [key], entries =>
    if Table.has key entries then none else some (entries ++ [(key, .value v)])
  | key :: keys, entries =>
    match entries.lookup key with
    | none => (setKey v keys []).map fun inner => entries ++ [(key, .table .dotted inner)]
    | some (.table .dotted inner) =>
      (setKey v keys inner).map fun inner => Table.put key (.table .dotted inner) entries
    | some _ => none

def setUnder (header : List String) (v : TomlValue) (keys : List String) (entries : Entries) :
    Option Entries :=
  if header.isEmpty then setKey v keys entries
  else
    openAt (fun d? => match d? with
      | some (.table origin inner) => (setKey v keys inner).map (.table origin)
      | some (.tables (last :: others)) => (setKey v keys last).map fun l => .tables (l :: others)
      | _ => none) header entries

def isGap (c : Char) : Bool := c == ' ' || c == '\t'

def isBare (c : Char) : Bool := c.isAlphanum || c == '_' || c == '-'

def isAllowed (c : Char) : Bool := c == '\t' || (31 < c.toNat && c.toNat != 127)

def skipGap (cs : List Char) : List Char := cs.dropWhile isGap

/-- Drops blanks, line ends and comments, as they may stand inside an array; `inComment`
tells whether a comment has begun. -/
def skipLines (inComment : Bool) : List Char → List Char
  | [] => []
  | '\n' :: cs => skipLines false cs
  | '\r' :: '\n' :: cs => skipLines false cs
  | c :: cs =>
    if inComment then if isAllowed c then skipLines true cs else c :: cs
    else if isGap c then skipLines false cs
    else if c == '#' then skipLines true cs
    else c :: cs

def skipBreaks : List Char → List Char
  | [] => []
  | '\n' :: cs => skipBreaks cs
  | '\r' :: '\n' :: cs => skipBreaks cs
  | c :: cs => if isGap c then skipBreaks cs else c :: cs

def escape? : Char → Option Char
  | 'b' => some '\x08'
  | 't' => some '\t'
  | 'n' => some '\n'
  | 'f' => some '\x0c'
  | 'r' => some '\r'
  | '"' => some '"'
  | '\\' => some '\\'
  | _ => none

def codePoint? (digits : List Char) : Option Char := do
  let n ← JsonValue.hexValues? digits
  if n < 0xD800 || (0xDFFF < n && n < 0x110000) then some (Char.ofNat n) else none

/-- What follows a backslash in double quotes: a character and the number of characters
that spell it. -/
def escapeAt? : List Char → Option (Char × Nat)
  | 'u' :: rest => if rest.length < 4 then none else (codePoint? (rest.take 4)).map fun c => (c, 5)
  | 'U' :: rest => if rest.length < 8 then none else (codePoint? (rest.take 8)).map fun c => (c, 9)
  | c :: _ => (escape? c).map fun d => (d, 1)
  | [] => none

def basicString : Nat → List Char → Option (List Char × List Char)
  | 0, _ => none
  | fuel + 1, cs =>
    match cs with
    | '"' :: rest => some ([], rest)
    | '\\' :: rest => do
      let (c, size) ← escapeAt? rest
      let (more, rest) ← basicString fuel (rest.drop size)
      some (c :: more, rest)
    | c :: rest =>
      if isAllowed c then (basicString fuel rest).map fun p => (c :: p.1, p.2) else none
    | [] => none

def isLineSplice (cs : List Char) : Bool :=
  match skipGap cs with
  | '\n' :: _ => true
  | '\r' :: '\n' :: _ => true
  | _ => false

/-- Quotes at the end of a text in triple quotes: those that belong to it, at most two,
and what follows the closing ones. -/
def closing? (q : Char) (cs : List Char) : Option (List Char × List Char) :=
  let run := min 5 (cs.takeWhile (· == q)).length
  if run < 3 then none else some (List.replicate (run - 3) q, cs.drop run)

def basicLines : Nat → List Char → Option (List Char × List Char)
  | 0, _ => none
  | fuel + 1, cs =>
    match closing? '"' cs with
    | some found => some found
    | none =>
      match cs with
      | '\\' :: rest =>
        if isLineSplice rest then
          basicLines fuel (skipBreaks rest)
        else do
          let (c, size) ← escapeAt? rest
          let (more, rest) ← basicLines fuel (rest.drop size)
          some (c :: more, rest)
      | '\r' :: '\n' :: rest => (basicLines fuel rest).map fun p => ('\n' :: p.1, p.2)
      | c :: rest =>
        if isAllowed c || c == '\n' then (basicLines fuel rest).map fun p => (c :: p.1, p.2) else none
      | [] => none

def literalLines : Nat → List Char → Option (List Char × List Char)
  | 0, _ => none
  | fuel + 1, cs =>
    match closing? '\'' cs with
    | some found => some found
    | none =>
      match cs with
      | '\r' :: '\n' :: rest => (literalLines fuel rest).map fun p => ('\n' :: p.1, p.2)
      | c :: rest =>
        if isAllowed c || c == '\n' then (literalLines fuel rest).map fun p => (c :: p.1, p.2) else none
      | [] => none

def literalString? (cs : List Char) : Option (List Char × List Char) :=
  let inner := cs.takeWhile fun c => c != '\'' && isAllowed c
  match cs.drop inner.length with
  | '\'' :: rest => some (inner, rest)
  | _ => none

def dropFirstLine : List Char → List Char
  | '\n' :: cs => cs
  | '\r' :: '\n' :: cs => cs
  | cs => cs

def quoted? (lines : Bool) (cs : List Char) : Option (String × List Char) :=
  let found :=
    match cs with
    | '"' :: '"' :: '"' :: rest =>
      if lines then basicLines (rest.length + 1) (dropFirstLine rest) else some ([], '"' :: rest)
    | '\'' :: '\'' :: '\'' :: rest =>
      if lines then literalLines (rest.length + 1) (dropFirstLine rest) else some ([], '\'' :: rest)
    | '"' :: rest => basicString (rest.length + 1) rest
    | '\'' :: rest => literalString? rest
    | _ => none
  found.map fun p => (String.ofList p.1, p.2)

def simpleKey? (cs : List Char) : Option (String × List Char) :=
  match cs with
  | c :: _ =>
    if c == '"' || c == '\'' then quoted? false cs
    else
      let bare := cs.takeWhile isBare
      if bare.isEmpty then none else some (String.ofList bare, cs.drop bare.length)
  | [] => none

def dottedKey : Nat → List Char → Option (List String × List Char)
  | 0, _ => none
  | fuel + 1, cs => do
    let (first, rest) ← simpleKey? (skipGap cs)
    match skipGap rest with
    | '.' :: more => do
      let (others, rest) ← dottedKey fuel more
      some (first :: others, rest)
    | rest => some ([first], rest)

def isDigits (ok : Char → Bool) (cs : List Char) : Bool :=
  (pieces '_' cs).all fun p => !p.isEmpty && p.all ok

def withoutBars (cs : List Char) : List Char := cs.filter fun c => c != '_'

def baseValue (base : Nat) (cs : List Char) : Nat :=
  (withoutBars cs).foldl (fun n c => n * base + (JsonValue.hexValue? c).getD 0) 0

def bounded? (n : Int) : Option TomlValue :=
  if -(Int.ofNat (Nat.pow 2 63)) ≤ n ∧ n < Int.ofNat (Nat.pow 2 63) then some (.integer n) else none

def isDecimal (cs : List Char) : Bool :=
  isDigits Char.isDigit cs && (cs.length == 1 || cs.head? != some '0')

def isFloat (cs : List Char) : Bool :=
  let unsigned := if cs.head? == some '+' || cs.head? == some '-' then cs.drop 1 else cs
  if unsigned == "inf".toList || unsigned == "nan".toList then true
  else
    let mantissa := unsigned.takeWhile fun c => c != 'e' && c != 'E'
    let power := unsigned.drop mantissa.length
    let whole := mantissa.takeWhile (· != '.')
    let fraction := mantissa.drop whole.length
    let exponent := power.drop 1
    let digits :=
      if exponent.head? == some '+' || exponent.head? == some '-' then exponent.drop 1 else exponent
    isDecimal whole
      && (fraction.isEmpty || isDigits Char.isDigit (fraction.drop 1))
      && (power.isEmpty || isDigits Char.isDigit digits)
      && !(fraction.isEmpty && power.isEmpty)

def word? (cs : List Char) : Option TomlValue :=
  match cs with
  | '0' :: 'x' :: ds => if isDigits Char.isAlphanum ds && (withoutBars ds).all (fun c => (JsonValue.hexValue? c).isSome)
      then bounded? (baseValue 16 ds) else none
  | '0' :: 'o' :: ds => if isDigits (fun c => '0' ≤ c && c ≤ '7') ds then bounded? (baseValue 8 ds) else none
  | '0' :: 'b' :: ds => if isDigits (fun c => c == '0' || c == '1') ds then bounded? (baseValue 2 ds) else none
  | _ =>
    if cs == "true".toList then some (.boolean true)
    else if cs == "false".toList then some (.boolean false)
    else
      let unsigned := if cs.head? == some '+' || cs.head? == some '-' then cs.drop 1 else cs
      if isDecimal unsigned then
        let n : Int := baseValue 10 unsigned
        bounded? (if cs.head? == some '-' then -n else n)
      else if isFloat cs || TomlDate.isMoment cs then some (.other (String.ofList cs))
      else none

def isWordChar (c : Char) : Bool := isBare c || c == '+' || c == '.' || c == ':'

/-- The bare word that begins here; a date may have a time behind one blank. -/
def takeWord (cs : List Char) : List Char × List Char :=
  let first := cs.takeWhile isWordChar
  let rest := cs.drop first.length
  match rest with
  | ' ' :: more =>
    let second := more.takeWhile isWordChar
    if TomlDate.isMoment first && second.head?.any Char.isDigit then (first ++ ' ' :: second, more.drop second.length)
    else (first, rest)
  | _ => (first, rest)

mutual

def value : Nat → List Char → Option (TomlValue × List Char)
  | 0, _ => none
  | fuel + 1, cs =>
    match cs with
    | '[' :: rest => (items fuel (skipLines false rest)).map fun p => (.array p.1, p.2)
    | '\x7b' :: rest =>
      match skipGap rest with
      | '\x7d' :: behind => some (.table [], behind)
      | inner => do
        let (entries, rest) ← inlineEntries fuel [] inner
        some (.table (finishedEntries entries), rest)
    | c :: _ =>
      if c == '"' || c == '\'' then (quoted? true cs).map fun p => (.string p.1, p.2)
      else
        let (w, rest) := takeWord cs
        (word? w).map fun v => (v, rest)
    | [] => none

def items : Nat → List Char → Option (List TomlValue × List Char)
  | 0, _ => none
  | fuel + 1, cs =>
    match cs with
    | ']' :: rest => some ([], rest)
    | _ =>
      match value fuel cs with
      | none => none
      | some (v, rest) =>
        match skipLines false rest with
        | ',' :: more =>
          (items fuel (skipLines false more)).map fun p => (v :: p.1, p.2)
        | ']' :: behind => some ([v], behind)
        | _ => none

def inlineEntries : Nat → Entries → List Char → Option (Entries × List Char)
  | 0, _, _ => none
  | fuel + 1, entries, cs =>
    match dottedKey (cs.length + 1) cs with
    | none => none
    | some (keys, rest) =>
      match skipGap rest with
      | '=' :: rest =>
        match value fuel (skipGap rest) with
        | none => none
        | some (v, rest) =>
          match setKey v keys entries with
          | none => none
          | some entries =>
            match skipGap rest with
            | ',' :: more => inlineEntries fuel entries more
            | '\x7d' :: behind => some (entries, behind)
            | _ => none
      | _ => none

end

def lineEnd? (cs : List Char) : Option (List Char) :=
  let rest := skipGap cs
  let rest := if rest.head? == some '#' then rest.dropWhile isAllowed else rest
  match rest with
  | [] => some []
  | '\n' :: more => some more
  | '\r' :: '\n' :: more => some more
  | _ => none

/-- Reads line by line; `header` names the table that keys go into. -/
def lines : Nat → List String → Entries → List Char → Option Entries
  | 0, _, _, _ => none
  | fuel + 1, header, entries, cs =>
    match skipGap cs with
    | [] => some entries
    | '[' :: '[' :: rest => do
      let (keys, rest) ← dottedKey (rest.length + 1) rest
      match skipGap rest with
      | ']' :: ']' :: rest => do
        let rest ← lineEnd? rest
        let entries ← openAt openItem keys entries
        lines fuel keys entries rest
      | _ => none
    | '[' :: rest => do
      let (keys, rest) ← dottedKey (rest.length + 1) rest
      match skipGap rest with
      | ']' :: rest => do
        let rest ← lineEnd? rest
        let entries ← openAt openTable keys entries
        lines fuel keys entries rest
      | _ => none
    | line =>
      match lineEnd? line with
      | some rest => lines fuel header entries rest
      | none => do
        let (keys, rest) ← dottedKey (line.length + 1) line
        match skipGap rest with
        | '=' :: rest => do
          let (v, rest) ← value (2 * rest.length + 2) (skipGap rest)
          let rest ← lineEnd? rest
          let entries ← setUnder header v keys entries
          lines fuel header entries rest
        | _ => none

/-- The table a document spells; a byte order mark may stand before it. -/
def read? (text : String) : Option TomlValue :=
  let cs := match text.toList with
    | '\uFEFF' :: rest => rest
    | cs => cs
  (lines (cs.length + 1) [] [] cs).map fun entries => .table (finishedEntries entries)

end UiWorkspace.Format.TomlReader
