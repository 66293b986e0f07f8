import UiWorkspace.FilePath
import UiWorkspace.Table
import UiWorkspace.Text.Span

/-! Text replacements. -/
namespace UiWorkspace

open UiWorkspace.Text

structure Edit where
  path : FilePath
  span : Span
  text : String
deriving Repr

structure Location where
  path : FilePath
  offset : Nat
deriving Repr

namespace Edit

def sameSite (e f : Edit) : Bool := e.path == f.path && e.span == f.span

/-- Keeps the first edit of each site. -/
def dedup : List Edit → List Edit := go []
where
  go (kept : List Edit) : List Edit → List Edit
    | [] => []
    | e :: es => if kept.any (sameSite e) then go kept es else e :: go (e :: kept) es

def groupByFile (edits : List Edit) : List (FilePath × List Edit) :=
  edits.foldl
    (fun groups e =>
      let mine := (groups.lookup e.path).getD []
      Table.insertSorted FilePath.compare e.path (mine ++ [e]) groups) []

/-- Makes one replacement; a range that selects nothing changes nothing. -/
def applyOne (text : String) (e : Edit) : String :=
  match e.span.slice text with
  | none => text
  | some _ =>
    (Span.mk 0 e.span.start).sliceD text ++ e.text
      ++ (Span.mk e.span.stop text.utf8ByteSize).sliceD text

theorem applyOne_append {before mid behind : String} {e : Edit}
    (hstart : before.utf8ByteSize = e.span.start)
    (hstop : before.utf8ByteSize + mid.utf8ByteSize = e.span.stop) :
    applyOne (before ++ mid ++ behind) e = before ++ e.text ++ behind := by
  have hmid : e.span.slice (before ++ mid ++ behind) = some mid :=
    Span.slice_eq_some_iff.2 ⟨before, behind, rfl, hstart, hstop⟩
  have hbefore : (Span.mk 0 e.span.start).slice (before ++ mid ++ behind) = some before :=
    Span.slice_eq_some_iff.2 ⟨"", mid ++ behind, by rw [String.empty_append, String.append_assoc],
      String.utf8ByteSize_empty, by rw [String.utf8ByteSize_empty, Nat.zero_add, hstart]⟩
  have hbehind : (Span.mk e.span.stop (before ++ mid ++ behind).utf8ByteSize).slice
      (before ++ mid ++ behind) = some behind :=
    Span.slice_eq_some_iff.2 ⟨before ++ mid, "", by rw [String.append_empty],
      by rw [String.utf8ByteSize_append, hstop], String.utf8ByteSize_append.symm⟩
  rw [applyOne, hmid, Span.sliceD, Span.sliceD, hbefore, hbehind]
  rfl

theorem applyOne_of_slice_eq_none {text : String} {e : Edit} (h : e.span.slice text = none) :
    applyOne text e = text := by
  rw [applyOne, h]

def insertByStart (e : Edit) : List Edit → List Edit
  | [] => [e]
  | f :: fs => if f.span.start < e.span.start then e :: f :: fs else f :: insertByStart e fs

/-- The edits from the last start to the first; edits with one start keep their order. -/
def backToFront (edits : List Edit) : List Edit :=
  edits.foldl (fun ordered e => insertByStart e ordered) []

/-- Applies the edits of one file, from back to front so that earlier ranges stay valid. -/
def apply (text : String) (edits : List Edit) : String := (backToFront edits).foldl applyOne text

end Edit

end UiWorkspace
