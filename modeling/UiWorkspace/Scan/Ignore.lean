import UiWorkspace.Scan.Glob
import UiWorkspace.Text.Pieces

/-! Rules for files to be left out, one on a line. A rule without a slash inside holds at
any depth, one with a slash from the directory of its file on; a slash at the end confines
it to directories, and an exclamation mark takes files back in. -/
namespace UiWorkspace.Scan

open UiWorkspace.Text

structure IgnoreRule where
  glob : Glob
  /-- The rule takes what it matches back in. -/
  keeps : Bool
  onlyDirectories : Bool
deriving Repr

namespace IgnoreRule

/-- A line without the blanks at its end, unless the last one is escaped. -/
def trimEnd (line : List Char) : List Char :=
  if (before? ['\\', ' '] line).isSome then line else dropTrailing isBlank line

def anchor (rooted : Bool) (body : List Char) : List Char :=
  let stars := ['*', '*', '/']
  let free := !rooted && !body.contains '/' && body != ['*', '*']
  let body := if free then stars ++ body else body
  if (before? ['/', '*', '*'] body).isSome then body ++ ['/', '*'] else body

/-- The text of a rule behind its marks: whether it keeps, whether it is rooted, the rest. -/
def marks (line : List Char) : Bool × Bool × List Char :=
  match line with
  | '\\' :: c :: cs => if c == '!' || c == '#' then (false, false, c :: cs) else (false, false, line)
  | '!' :: '/' :: cs => (true, true, cs)
  | '!' :: cs => (true, false, cs)
  | '/' :: cs => (false, true, cs)
  | _ => (false, false, line)

def directoryMark (body : List Char) : Bool × List Char :=
  match before? ['/'] body with
  | none => (false, body)
  | some inner => (true, (before? ['\\'] inner).getD inner)

/-- The rule a line spells; comments, blank lines and broken patterns spell none. -/
def ofLine? (lenient : Bool) (line : String) : Option IgnoreRule := do
  if startsWith "#" line then none
  else
    let line := trimEnd line.toList
    if line.isEmpty then none
    else
      let (keeps, rooted, body) := marks line
      let (onlyDirectories, body) := directoryMark body
      let glob ← Glob.read? lenient (String.ofList (anchor rooted body))
      some ⟨glob, keeps, onlyDirectories⟩

def matchesPath (r : IgnoreRule) (path : String) (isDirectory : Bool) : Bool :=
  (!r.onlyDirectories || isDirectory) && r.glob.isMatch path

/-- What the rules say of a path: leave it out, keep it, or nothing. The last rule that
matches decides. -/
def verdict? (rules : List IgnoreRule) (path : String) (isDirectory : Bool) : Option Bool :=
  (rules.reverse.find? fun r => r.matchesPath path isDirectory).map fun r => !r.keeps

def ofText (text : String) : List IgnoreRule :=
  let text := (stripLead? "\ufeff" text).getD text
  (split '\n' text).filterMap fun line => ofLine? true ((stripTail? "\r" line).getD line)

def ofPatterns (patterns : List String) : List IgnoreRule :=
  patterns.filterMap fun p => (ofLine? false ("!" ++ p)).map fun r => { r with keeps := false }

end IgnoreRule

end UiWorkspace.Scan
