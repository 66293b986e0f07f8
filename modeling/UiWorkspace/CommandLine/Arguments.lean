import UiWorkspace.Text.Pieces

/-! The arguments of the command line. Options that hold for every command may stand before
or behind its name; behind two dashes there are no options any more. -/
namespace UiWorkspace.CommandLine

open UiWorkspace.Text

inductive Command where
  | init (force : Bool)
  | config
  | index (path? : Option String) (dryRun : Bool)
  | resolve (file : String) (offset : Nat)
  | definition (file : String) (offset : Nat)
  | members (className : String)
  | controller (file : String)
  | rename (file : String) (offset : Nat) (newName : String) (write : Bool)
  | clearCache
deriving DecidableEq, Repr

structure Invocation where
  config? : Option String
  root? : Option String
  command : Command
deriving DecidableEq, Repr

inductive Request where
  | run (invocation : Invocation)
  | help
  | version
  | refused
deriving DecidableEq, Repr

/-- An argument as read: an option with its value, a flag, or a word. -/
inductive Piece where
  | option (name value : String)
  | flag (name : String)
  | word (text : String)
deriving DecidableEq, Repr

structure Options where
  valued : List (Char × String)
  flags : List (Option Char × String)

def common : Options :=
  ⟨[('c', "config"), ('r', "root")], [(some 'v', "verbose"), (some 'h', "help")]⟩

def beforeCommand : Options := { common with flags := (some 'V', "version") :: common.flags }

def commandFlags : String → List (Option Char × String)
  | "init" => [(some 'f', "force")]
  | "index" => [(some 'p', "progress"), (none, "dry-run")]
  | "rename" => [(none, "write")]
  | _ => []

def afterCommand (name : String) : Options :=
  { common with flags := commandFlags name ++ common.flags }

def commandNames : List String :=
  ["init", "config", "index", "resolve", "definition", "members", "controller", "rename",
    "clear-cache"]

def isValue (s : String) : Bool := !startsWith "-" s || s == "-"

def readLetters (o : Options) : List Char → List String → Option (List Piece × List String)
  | [], rest => some ([], rest)
  | c :: cs, rest =>
    match o.valued.lookup c with
    | some name =>
      match cs, rest with
      | [], value :: rest => if isValue value then some ([.option name value], rest) else none
      | [], [] => none
      | '=' :: value, rest => some ([.option name (String.ofList value)], rest)
      | value, rest => some ([.option name (String.ofList value)], rest)
    | none =>
      match o.flags.lookup (some c) with
      | some name => (readLetters o cs rest).map fun p => (.flag name :: p.1, p.2)
      | none => none

def readName (o : Options) (text : String) (rest : List String) : Option (Piece × List String) :=
  match splitFirst? '=' text with
  | some (name, value) =>
    if o.valued.any fun v => v.2 == name then some (.option name value, rest) else none
  | none =>
    if o.valued.any fun v => v.2 == text then
      match rest with
      | value :: rest => if isValue value then some (.option text value, rest) else none
      | [] => none
    else if o.flags.any fun f => f.2 == text then some (.flag text, rest)
    else none

def readNext (o : Options) (arg : String) (rest : List String) : Option (List Piece × List String) :=
  match stripLead? "--" arg with
  | some name => (readName o name rest).map fun p => ([p.1], p.2)
  | none =>
    match stripLead? "-" arg with
    | some "" | none => some ([.word arg], rest)
    | some letters => readLetters o letters.toList rest

def readHead : (fuel : Nat) → List String → Option (List Piece × Option (String × List String))
  | _, [] => some ([], none)
  | 0, _ => none
  | fuel + 1, arg :: rest => do
    if arg = "--" then none
    else
      match ← readNext beforeCommand arg rest with
      | ([.word name], rest) => some ([], some (name, rest))
      | (pieces, rest) =>
        let (more, behind) ← readHead fuel rest
        some (pieces ++ more, behind)

def readTail (o : Options) : (fuel : Nat) → List String → Option (List Piece)
  | _, [] => some []
  | 0, _ => none
  | fuel + 1, arg :: rest => do
    if arg = "--" then some (rest.map .word)
    else
      let (pieces, rest) ← readNext o arg rest
      some (pieces ++ (← readTail o fuel rest))

def flagsOf (pieces : List Piece) : List String :=
  pieces.filterMap fun
    | .flag name => some name
    | _ => none

def wordsOf (pieces : List Piece) : List String :=
  pieces.filterMap fun
    | .word text => some text
    | _ => none

def valuesOf (name : String) (pieces : List Piece) : List String :=
  pieces.filterMap fun
    | .option n value => if n == name then some value else none
    | _ => none

/-- Nothing may be given twice on one side of the command's name, and no value is empty. -/
def isSingle (pieces : List Piece) : Bool :=
  (flagsOf pieces).eraseDups.length == (flagsOf pieces).length
    && ["config", "root"].all fun name =>
      (valuesOf name pieces).length ≤ 1 && !(valuesOf name pieces).contains ""

/-- A number with an optional plus that fits a machine word. -/
def offset? (text : String) : Option Nat := do
  let digits := ((stripLead? "+" text).getD text).toList
  if digits.isEmpty || !digits.all Char.isDigit then none
  else
    let n := digits.foldl (fun n c => n * 10 + (c.toNat - 48)) 0
    if n < Nat.pow 2 64 then some n else none

def file? (text : String) : Option String := if text = "" then none else some text

def command? (name : String) (flags words : List String) : Option Command :=
  match name, words with
  | "init", [] => some (.init (flags.contains "force"))
  | "config", [] => some .config
  | "index", [] => some (.index none (flags.contains "dry-run"))
  | "index", [path] => (file? path).map fun p => .index (some p) (flags.contains "dry-run")
  | "resolve", [file, offset] => do some (.resolve (← file? file) (← offset? offset))
  | "definition", [file, offset] => do some (.definition (← file? file) (← offset? offset))
  | "members", [className] => some (.members className)
  | "controller", [file] => (file? file).map .controller
  | "rename", [file, offset, newName] => do
    some (.rename (← file? file) (← offset? offset) newName (flags.contains "write"))
  | "clear-cache", [] => some .clearCache
  | _, _ => none

/-- What the arguments ask for. `root?` is the root the environment names; an option goes
before it, and one behind the command's name before one in front. -/
def parse (root? : Option String) (args : List String) : Request :=
  match readHead args.length args with
  | none => .refused
  | some (head, behind?) =>
    if (flagsOf head).contains "help" then .help
    else if (flagsOf head).contains "version" then .version
    else
      match behind? with
      | none => .refused
      | some (name, rest) =>
        if name == "help" then .help
        else if !commandNames.contains name then .refused
        else
          match readTail (afterCommand name) rest.length rest with
          | none => .refused
          | some tail =>
            if (flagsOf tail).contains "help" then .help
            else if !isSingle head || !isSingle tail || root? == some "" then .refused
            else
              match command? name (flagsOf tail) (wordsOf tail) with
              | none => .refused
              | some command =>
                let pick (option : String) : Option String :=
                  (valuesOf option tail ++ valuesOf option head).head?
                .run ⟨pick "config", (pick "root").orElse fun _ => root?, command⟩

end UiWorkspace.CommandLine
