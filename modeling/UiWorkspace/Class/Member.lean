import UiWorkspace.Text.Span

/-! Methods and fields of a class. -/
namespace UiWorkspace

open UiWorkspace.Text

inductive MemberKind where
  | method
  | field
deriving DecidableEq, Repr

namespace MemberKind

def toText : MemberKind → String
  | method => "method"
  | field => "field"

def ofText? (s : String) : Option MemberKind :=
  if s = "method" then some method else if s = "field" then some field else none

def unknownMessage : String := "Unknown member kind"

end MemberKind

structure Member where
  name : String
  kind : MemberKind
  /-- The place of the name where the member is declared; framework members have none. -/
  declaration? : Option Span
  /-- The type the declaration alone gives. -/
  inferred? : Option String
  body? : Option Span
  value? : Option Span
  /-- The right sides of the assignments to the member, in source order. -/
  assignments : List Span
deriving DecidableEq, Repr

def Member.plain (name : String) (kind : MemberKind) (inferred? : Option String) : Member :=
  ⟨name, kind, none, inferred?, none, none, []⟩

end UiWorkspace
