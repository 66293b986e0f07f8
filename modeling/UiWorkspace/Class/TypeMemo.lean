import UiWorkspace.Class.Member
import UiWorkspace.Table

/-! Types of members that were worked out before, each with the classes that were read
for it, so that a change of one class drops what was derived from it. -/
namespace UiWorkspace

structure MemoKey where
  className : String
  member : String
  kind : MemberKind
deriving DecidableEq, Repr

inductive MemoSlot where
  /-- Being worked out; whoever meets it again has come round in a circle. -/
  | inProgress
  /-- The type, if one was found, and the classes read for it. -/
  | done (value : Option String) (dependsOn : List String)
deriving DecidableEq, Repr

abbrev TypeMemo := List (MemoKey × MemoSlot)

namespace TypeMemo

def empty : TypeMemo := []

def begin (memo : TypeMemo) (key : MemoKey) : TypeMemo := Table.put key .inProgress memo

def finish (memo : TypeMemo) (key : MemoKey) (value : Option String) (dependsOn : List String) :
    TypeMemo :=
  Table.put key (.done value dependsOn) memo

def abandon (memo : TypeMemo) (key : MemoKey) : TypeMemo :=
  if memo.lookup key = some .inProgress then Table.erase key memo else memo

def survives (className : String) : MemoKey × MemoSlot → Bool
  | (key, .inProgress) => key.className != className
  | (key, .done _ dependsOn) => key.className != className && !dependsOn.contains className

/-- Drops the entries of a class and those derived from it. -/
def invalidate (memo : TypeMemo) (className : String) : TypeMemo :=
  memo.filter (survives className)

def invalidated (memo : TypeMemo) (className : String) : Nat :=
  memo.length - (memo.invalidate className).length

theorem lookup_begin (memo : TypeMemo) (key asked : MemoKey) :
    (memo.begin key).lookup asked = if asked = key then some .inProgress else memo.lookup asked := by
  rw [begin, Table.lookup_put]
  simp only [beq_iff_eq]

theorem lookup_finish (memo : TypeMemo) (key asked : MemoKey) (value : Option String)
    (dependsOn : List String) : (memo.finish key value dependsOn).lookup asked =
      if asked = key then some (.done value dependsOn) else memo.lookup asked := by
  rw [finish, Table.lookup_put]
  simp only [beq_iff_eq]

theorem lookup_abandon (memo : TypeMemo) (key asked : MemoKey) :
    (memo.abandon key).lookup asked =
      if asked = key ∧ memo.lookup key = some .inProgress then none else memo.lookup asked := by
  unfold abandon
  split
  next hmark => simp only [Table.lookup_erase, beq_iff_eq, hmark, and_true]
  next hmark => rw [if_neg fun h => hmark h.2]

theorem lookup_invalidate {memo : TypeMemo} (h : (memo.map Prod.fst).Nodup) (className : String)
    (key : MemoKey) : (memo.invalidate className).lookup key =
      (memo.lookup key).filter fun slot => survives className (key, slot) :=
  Table.lookup_filter _ h key

theorem survives_iff {className : String} {key : MemoKey} {slot : MemoSlot} :
    survives className (key, slot) = true ↔ key.className ≠ className ∧
      ∀ value dependsOn, slot = .done value dependsOn → className ∉ dependsOn := by
  cases slot with
  | inProgress => simp [survives]
  | done value dependsOn => simp [survives]

end TypeMemo

end UiWorkspace
