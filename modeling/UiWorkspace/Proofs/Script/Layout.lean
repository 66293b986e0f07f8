import Mathlib.Data.List.Basic
import UiWorkspace.Script.Parser.Basic

/-! Where names stand in a script. The marks of a tree are the ranges of the nodes that spell a
name, in source order; they are laid out between two offsets if they select text there and none
begins before the one in front of it ends. What a tree must not have, such as a comment with parts
of its own, leaves a mark that no layout admits. -/
namespace UiWorkspace.Script

open UiWorkspace.Text

/-- Names and strings; the contents of a string may name a property. -/
@[simp] def Kind.spells (kind : Kind) : Bool :=
  kind == identifier || kind == propertyName || kind == privateName || kind == string

/-- A node of such a kind has no mark of its own. -/
@[simp] def Kind.unmarked (kind : Kind) : Bool := !kind.spells && kind != member && kind != comment

theorem Kind.ne_comment {kind : Kind} (h : kind.unmarked) : kind ≠ .comment := by
  rintro rfl
  cases h

inductive Mark where
  | name (span : Span)
  /-- An access to something other than a name. -/
  | nameless
  /-- A comment that plays a role or has parts. -/
  | dressed

namespace Node

def isAccessName (n : Node) : Bool := n.is .propertyName || n.is .privateName

def isBare (n : Node) : Bool := n.role.isNone && n.children.isEmpty

def ownMarks (n : Node) : List Mark :=
  match n.label with
  | .construct kind =>
    if kind.spells then [.name n.span]
    else if kind == .member && !(n.part? .property).all isAccessName then [.nameless]
    else if kind == .comment && !n.isBare then [.dressed]
    else []
  | .token => []

/-- The marks of a node and of everything below it. -/
def marks (n : Node) : List Mark := n.preorder.flatMap ownMarks

theorem visitsAll_eq_flatMap (enter : Node → Bool) (ns : List Node) :
    visitsAll enter ns = ns.flatMap (visits enter) := by
  induction ns with
  | nil => rfl
  | cons n ns ih => rw [visitsAll, ih, List.flatMap_cons]

theorem visits_eq (enter : Node → Bool) (n : Node) :
    n.visits enter = n :: if enter n then n.children.flatMap (visits enter) else [] := by
  cases n with
  | mk label role span children => rw [visits, visitsAll_eq_flatMap]; rfl

theorem preorder_eq (n : Node) : n.preorder = n :: n.children.flatMap preorder :=
  visits_eq (fun _ => true) n

theorem marks_eq (n : Node) : n.marks = n.ownMarks ++ n.children.flatMap marks := by
  rw [marks, preorder_eq, List.flatMap_cons, List.flatMap_assoc]
  rfl

theorem children_sublist_marks (n : Node) : (n.children.flatMap marks).Sublist n.marks := by
  rw [marks_eq]
  exact List.sublist_append_right _ _

theorem marks_withRole {n : Node} (h : n.is .comment = false) (role : Option Role) :
    (n.withRole role).marks = n.marks := by
  obtain ⟨label, own, span, children⟩ := n
  rw [marks_eq, marks_eq]
  cases label with
  | token => rfl
  | construct kind =>
    have hkind : (kind == .comment) = false := by simpa [Node.is, Node.label] using h
    simp only [ownMarks, withRole, Node.label, hkind]
    rfl

@[simp] theorem marks_as {n : Node} (h : n.is .comment = false) (role : Role) : (n.as role).marks = n.marks :=
  marks_withRole h _

theorem marks_construct {kind : Kind} (h : kind.unmarked) (role : Option Role) (span : Span)
    (parts : List Node) : (mk (.construct kind) role span parts).marks = parts.flatMap marks := by
  rw [marks_eq]
  simp only [Kind.unmarked, Bool.and_eq_true, Bool.not_eq_true', bne_iff_ne] at h
  simp [-Kind.spells, ownMarks, children, label, h]

@[simp] theorem marks_group {kind : Kind} (h : kind.unmarked) (parts : List Node) :
    (group kind parts).marks = parts.flatMap marks := marks_construct h _ _ parts

@[simp] theorem marks_leaf {kind : Kind} (h : kind.unmarked) (span : Span) :
    (leaf kind span).marks = [] := marks_construct h _ _ []

@[simp] theorem marks_comment (span : Span) : (leaf .comment span).marks = [] := by
  rw [marks_eq]
  rfl

@[simp] theorem marks_token (role : Option Role) (span : Span) : (mk .token role span []).marks = [] := by
  rw [marks_eq]
  rfl

@[simp] theorem is_comment_group {kind : Kind} (h : kind ≠ .comment) (parts : List Node) :
    (group kind parts).is .comment = false := by
  simpa [group, Node.is, label] using h

@[simp] theorem is_comment_leaf {kind : Kind} (h : kind ≠ .comment) (span : Span) :
    (leaf kind span).is .comment = false := by
  simpa [leaf, Node.is, label] using h

@[simp] theorem is_comment_as (n : Node) (role : Role) : (n.as role).is .comment = n.is .comment := by
  cases n
  rfl

@[simp] theorem is_comment_toPattern (n : Node) : n.toPattern.is .comment = n.is .comment := by
  cases n
  unfold toPattern
  split <;> rfl

def property? (parts : List Node) : Option Node := parts.find? fun c => c.role == some .property

theorem property?_append (parts others : List Node) :
    property? (parts ++ others) = (property? parts).or (property? others) := List.find?_append

theorem property?_comments (comments : List (Span × Place)) :
    property? (comments.map fun c => leaf .comment c.1) = none := by
  rw [property?, List.find?_map, Option.map_eq_none_iff]
  exact List.find?_eq_none.2 fun c _ => Bool.false_ne_true

theorem marks_access {left : Node} (hleft : left.is .comment = false) {sign name : List Node}
    (hsign : property? sign = none) (hname : (property? name).all isAccessName) :
    (group .member (left.as .object :: (sign ++ name))).marks =
      left.marks ++ sign.flatMap marks ++ name.flatMap marks := by
  have hproperty : (group .member (left.as .object :: (sign ++ name))).part? .property = property? name := by
    change property? ([left.as .object] ++ (sign ++ name)) = _
    rw [property?_append, property?_append, hsign]
    cases left
    rfl
  rw [marks_eq, ownMarks, hproperty, hname]
  simp [group, children, label, hleft]

theorem marks_childless (label : Label) (span : Span) :
    (mk label none span []).marks.Sublist [.name span] := by
  rw [marks_eq]
  cases label with
  | token => simp [ownMarks, Node.label, children]
  | construct kind =>
    cases hspells : kind.spells <;>
      simp [-Kind.spells, ownMarks, Node.label, Node.span, children, part?, isBare, Node.role, hspells]

/-- Parts that get a role keep it from the comments among them. -/
@[simp] theorem flatMap_marks_named (ns : List Node) (role : Role) :
    (ns.map fun n => if n.is .comment then n else n.as role).flatMap marks = ns.flatMap marks := by
  rw [List.flatMap_map]
  refine List.flatMap_congr fun n _ => ?_
  split
  · rfl
  next h => exact marks_as (Bool.eq_false_iff.2 h) role

/-- A part with a role is no bare comment, and may get another. -/
@[simp] theorem flatMap_marks_renamed (ns : List Node) (role role' : Role) :
    (ns.map fun n => if n.role = some role then n.as role' else n).flatMap marks = ns.flatMap marks := by
  rw [List.flatMap_map]
  refine List.flatMap_congr fun n _ => ?_
  split
  next h =>
    obtain ⟨label, own, span, children⟩ := n
    obtain rfl : own = some role := h
    rw [marks_eq, marks_eq]
    rfl
  · rfl

mutual

@[simp] theorem marks_toPattern : ∀ n : Node, n.toPattern.marks = n.marks
  | mk label role span children => by
    have hchildren := flatMap_marks_toPatterns children
    unfold toPattern
    split <;> simp [marks_construct, hchildren]

@[simp] theorem flatMap_marks_toPatterns : ∀ ns : List Node,
    (toPatterns ns).flatMap marks = ns.flatMap marks
  | [] => rfl
  | n :: ns => by
    rw [toPatterns, List.flatMap_cons, List.flatMap_cons, marks_toPattern n, flatMap_marks_toPatterns ns]

end

theorem flatMap_marks_comments (comments : List (Span × Place)) :
    (comments.map fun c => leaf .comment c.1).flatMap marks = [] := by
  rw [List.flatMap_map]
  simp

end Node

def Place.IsIn (p : Place) (code : String) : Prop :=
  ∃ before, before ++ p.rest = code.toList ∧ byteLength before = p.offset

namespace Place

variable {code : String} {p q : Place}

theorem isIn_ofString (code : String) : (ofString code).IsIn code := ⟨[], rfl, rfl⟩

theorem IsIn.advance (h : p.IsIn code) (n : Nat) : (p.advance n).IsIn code := by
  obtain ⟨before, hrest, hoffset⟩ := h
  refine ⟨before ++ p.rest.take n, ?_, ?_⟩
  · rw [Place.advance, List.append_assoc, List.take_append_drop, hrest]
  · rw [Place.advance, byteLength_append, hoffset]

theorem le_advance (p : Place) (n : Nat) : p.offset ≤ (p.advance n).offset := Nat.le_add_right _ _

theorem IsIn.slice_isSome (hp : p.IsIn code) (hq : q.IsIn code) (h : p.offset ≤ q.offset) :
    ((Span.mk p.offset q.offset).slice code).isSome := by
  obtain ⟨before, hbefore, hstart⟩ := hp
  obtain ⟨upto, hupto, hstop⟩ := hq
  have hprefix : before <+: upto := by
    have hcode : before <+: code.toList := ⟨p.rest, hbefore⟩
    rcases List.prefix_or_prefix_of_prefix hcode ⟨q.rest, hupto⟩ with hle | ⟨more, hmore⟩
    · exact hle
    · -- The longer of the two would take more bytes.
      have hnil : more = [] := by
        cases more with
        | nil => rfl
        | cons c cs =>
          have := c.utf8Size_pos
          rw [← hmore, byteLength_append, byteLength] at hstart
          omega
      rw [hnil, List.append_nil] at hmore
      exact hmore ▸ List.prefix_rfl
  obtain ⟨mid, rfl⟩ := hprefix
  rw [Option.isSome_iff_exists]
  refine ⟨String.ofList mid, Span.slice_eq_some_iff.2 ⟨String.ofList before, String.ofList q.rest, ?_, ?_, ?_⟩⟩
  · apply String.toList_inj.1
    simp [← hupto]
  · rw [utf8ByteSize_ofList, hstart]
  · rw [utf8ByteSize_ofList, utf8ByteSize_ofList, ← byteLength_append, hstop]

end Place

/-- The marks are names that select text between the two offsets, one behind the other. -/
inductive InOrder (code : String) : Nat → List Mark → Nat → Prop
  | nil {lo hi : Nat} : lo ≤ hi → InOrder code lo [] hi
  | cons {lo hi : Nat} {r : Span} {marks : List Mark} : lo ≤ r.start → (r.slice code).isSome →
      InOrder code r.stop marks hi → InOrder code lo (.name r :: marks) hi

namespace InOrder

variable {code : String} {lo mid hi : Nat} {marks others : List Mark}

theorem le (h : InOrder code lo marks hi) : lo ≤ hi := by
  induction h with
  | nil h => exact h
  | cons hstart hslice _ ih => exact Nat.le_trans hstart (Nat.le_trans (Span.start_le_stop hslice) ih)

theorem of_le (h : InOrder code mid marks hi) (hlo : lo ≤ mid) : InOrder code lo marks hi := by
  cases h with
  | nil h => exact .nil (Nat.le_trans hlo h)
  | cons hstart hslice h => exact .cons (Nat.le_trans hlo hstart) hslice h

theorem append (h : InOrder code lo marks mid) (h' : InOrder code mid others hi) :
    InOrder code lo (marks ++ others) hi := by
  induction h with
  | nil hle => exact h'.of_le hle
  | cons hstart hslice _ ih => exact .cons hstart hslice (ih h')

theorem split (h : InOrder code lo (marks ++ others) hi) :
    ∃ mid, InOrder code lo marks mid ∧ InOrder code mid others hi := by
  induction marks generalizing lo with
  | nil => exact ⟨lo, .nil (Nat.le_refl lo), h⟩
  | cons m marks ih =>
    cases h with
    | cons hstart hslice h =>
      obtain ⟨mid, hfirst, hsecond⟩ := ih h
      exact ⟨mid, .cons hstart hslice hfirst, hsecond⟩

theorem sublist (h : InOrder code lo marks hi) (hsub : others.Sublist marks) :
    InOrder code lo others hi := by
  induction h generalizing others with
  | nil hle =>
    rw [List.sublist_nil.1 hsub]
    exact .nil hle
  | cons hstart hslice _ ih =>
    cases hsub with
    | cons _ hsub => exact (ih hsub).of_le (Nat.le_trans hstart (Span.start_le_stop hslice))
    | cons_cons _ hsub => exact .cons hstart hslice (ih hsub)

theorem exists_name (h : InOrder code lo marks hi) {m : Mark} (hm : m ∈ marks) :
    ∃ r, m = .name r ∧ (r.slice code).isSome ∧ lo ≤ r.start := by
  induction h with
  | nil => cases hm
  | cons hstart hslice _ ih =>
    rcases List.mem_cons.1 hm with rfl | hm
    · exact ⟨_, rfl, hslice, hstart⟩
    · obtain ⟨r, rfl, hr, hle⟩ := ih hm
      exact ⟨r, rfl, hr, Nat.le_trans hstart (Nat.le_trans (Span.start_le_stop hslice) hle)⟩

end InOrder

end UiWorkspace.Script
