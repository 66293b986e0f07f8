/-! Dates and times of day as TOML writes them: a date, a time, or a date and a time with
an optional offset behind it. -/
namespace UiWorkspace.Format.TomlDate

def field? (width low high : Nat) (cs : List Char) : Option (Nat × List Char) :=
  let digits := cs.take width
  let n := digits.foldl (fun n c => n * 10 + (c.toNat - '0'.toNat)) 0
  if digits.length = width && digits.all Char.isDigit && low ≤ n && n ≤ high then
    some (n, cs.drop width)
  else none

def mark? (mark : Char) : List Char → Option (List Char)
  | c :: cs => if c == mark then some cs else none
  | [] => none

def isLeapYear (year : Nat) : Bool := year % 4 == 0 && (year % 100 != 0 || year % 400 == 0)

def daysInMonth (year month : Nat) : Nat :=
  if month = 2 then if isLeapYear year then 29 else 28
  else if [4, 6, 9, 11].contains month then 30
  else 31

def date? (cs : List Char) : Option (List Char) := do
  let (year, cs) ← field? 4 0 9999 cs
  let (month, cs) ← field? 2 1 12 (← mark? '-' cs)
  let (_, cs) ← field? 2 1 (daysInMonth year month) (← mark? '-' cs)
  some cs

def fraction? (cs : List Char) : Option (List Char) :=
  match cs with
  | '.' :: rest => if rest.head?.any Char.isDigit then some (rest.dropWhile Char.isDigit) else none
  | _ => some cs

/-- What follows a time of day such as `07:32:00.5`; a minute may end in a leap second. -/
def time? (cs : List Char) : Option (List Char) := do
  let (_, cs) ← field? 2 0 23 cs
  let (_, cs) ← field? 2 0 59 (← mark? ':' cs)
  let (_, cs) ← field? 2 0 60 (← mark? ':' cs)
  fraction? cs

def offset? (cs : List Char) : Option (List Char) :=
  match cs with
  | c :: rest =>
    if c == 'Z' || c == 'z' then some rest
    else if c == '+' || c == '-' then do
      let (_, rest) ← field? 2 0 23 rest
      let (_, rest) ← field? 2 0 59 (← mark? ':' rest)
      some rest
    else none
  | [] => none

def isTimeWithOffset (cs : List Char) : Bool :=
  match time? cs with
  | some rest => rest.isEmpty || offset? rest == some []
  | none => false

/-- Whether a text is a date, a time of day, or both with a `T` or a blank between them. -/
def isMoment (cs : List Char) : Bool :=
  match date? cs with
  | some [] => true
  | some (c :: rest) => (c == 'T' || c == 't' || c == ' ') && isTimeWithOffset rest
  | none => time? cs == some []

end UiWorkspace.Format.TomlDate
