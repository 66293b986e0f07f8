import UiWorkspace.Markup.Document
import UiWorkspace.Proofs.Text.Pieces

/-! Markup cut into pieces: the handler names that are found in it and what stands between them.
Whatever other names are put in their places, reading the text finds just these, so nothing that a
name is made of decides how the text around it is read. -/
namespace UiWorkspace.Markup

open UiWorkspace.Text

def isName (cs : List Char) : Bool :=
  !cs.isEmpty && cs.all isNameChar && !cs.head?.any Char.isDigit

structure HandlerName where
  chars : List Char
  isName_chars : isName chars = true

inductive Piece where
  | plain (cs : List Char)
  | handler (key : List Char) (name : HandlerName)

namespace Piece

def spelled (f : HandlerName → List Char) : Piece → List Char
  | plain cs => cs
  | handler _ name => f name

def renamed (f : HandlerName → HandlerName) : Piece → Piece
  | plain cs => plain cs
  | handler key name => handler key (f name)

end Piece

def spell (f : HandlerName → List Char) (ps : List Piece) : List Char := ps.flatMap (Piece.spelled f)

def textOf (ps : List Piece) : List Char := spell HandlerName.chars ps

def rename (f : HandlerName → HandlerName) (ps : List Piece) : List Piece := ps.map (Piece.renamed f)

def references : (pos : Nat) → List Piece → List HandlerReference
  | _, [] => []
  | pos, .plain cs :: ps => references (pos + byteLength cs) ps
  | pos, .handler key name :: ps =>
    let next := pos + byteLength name.chars
    ⟨String.ofList key, String.ofList name.chars, ⟨pos, next⟩⟩ :: references next ps

section Laws

variable (f : HandlerName → HandlerName) (ps qs : List Piece)

@[simp] theorem textOf_append : textOf (ps ++ qs) = textOf ps ++ textOf qs := List.flatMap_append

@[simp] theorem textOf_plain (cs : List Char) : textOf (.plain cs :: ps) = cs ++ textOf ps := rfl

@[simp] theorem textOf_handler (key : List Char) (name : HandlerName) :
    textOf (.handler key name :: ps) = name.chars ++ textOf ps := rfl

@[simp] theorem textOf_nil : textOf [] = [] := rfl

@[simp] theorem rename_append : rename f (ps ++ qs) = rename f ps ++ rename f qs := List.map_append

@[simp] theorem rename_plain (cs : List Char) : rename f (.plain cs :: ps) = .plain cs :: rename f ps := rfl

@[simp] theorem rename_handler (key : List Char) (name : HandlerName) :
    rename f (.handler key name :: ps) = .handler key (f name) :: rename f ps := rfl

@[simp] theorem rename_nil : rename f [] = [] := rfl

theorem rename_id : rename id ps = ps := by
  induction ps with
  | nil => rfl
  | cons p ps ih => cases p <;> simp [ih]

@[simp] theorem references_append (pos : Nat) :
    references pos (ps ++ qs) = references pos ps ++ references (pos + byteLength (textOf ps)) qs := by
  induction ps generalizing pos with
  | nil => simp [references, byteLength]
  | cons p ps ih =>
    cases p <;> simp [references, ih, Nat.add_assoc]

end Laws

theorem isNameChar_of_mem {name : HandlerName} {c : Char} (h : c ∈ name.chars) : isNameChar c = true := by
  have hname := name.isName_chars
  simp only [isName, Bool.and_eq_true, List.all_eq_true] at hname
  exact hname.1.2 c h

theorem HandlerName.exists_cons (name : HandlerName) : ∃ c cs, name.chars = c :: cs := by
  have hname := name.isName_chars
  simp only [isName, Bool.and_eq_true] at hname
  exact List.exists_cons_of_ne_nil (by simpa using hname.1.1)

theorem textOf_rename_eq_nil {f : HandlerName → HandlerName} {ps : List Piece} :
    textOf (rename f ps) = [] ↔ textOf ps = [] := by
  have hname : ∀ name : HandlerName, name.chars ≠ [] := fun name h => by
    obtain ⟨_, _, hcons⟩ := name.exists_cons
    rw [hcons] at h
    cases h
  induction ps with
  | nil => rfl
  | cons p ps ih => cases p <;> simp [ih, hname]

section OtherNames

variable {c : Char} (hc : isNameChar c = false) (f : HandlerName → HandlerName) (ps : List Piece)

include hc

theorem mem_textOf_rename : c ∈ textOf (rename f ps) ↔ c ∈ textOf ps := by
  have hnot : ∀ name : HandlerName, c ∉ name.chars := fun name hmem => by
    rw [isNameChar_of_mem hmem] at hc
    cases hc
  induction ps with
  | nil => rfl
  | cons p ps ih => cases p <;> simp [ih, hnot]

theorem head?_textOf_rename : (textOf (rename f ps)).head? = some c ↔ (textOf ps).head? = some c := by
  have hnot : ∀ (name : HandlerName) cs, (name.chars ++ cs).head? ≠ some c := by
    intro name cs h
    obtain ⟨d, ds, hname⟩ := name.exists_cons
    have hd : isNameChar d = true := isNameChar_of_mem (hname ▸ List.mem_cons_self)
    simp only [hname, List.cons_append, List.head?_cons, Option.some.injEq] at h
    rw [← h, hd] at hc
    cases hc
  induction ps with
  | nil => rfl
  | cons p ps ih =>
    cases p with
    | plain cs => cases cs <;> simp [ih]
    | handler key name => exact iff_of_false (hnot _ _) (hnot _ _)

theorem getLast?_textOf_rename :
    (textOf (rename f ps)).getLast? = some c ↔ (textOf ps).getLast? = some c := by
  have hnot : ∀ name : HandlerName, name.chars.getLast? ≠ some c := by
    intro name h
    rw [isNameChar_of_mem (List.mem_of_getLast? h)] at hc
    cases hc
  induction ps with
  | nil => rfl
  | cons p ps ih =>
    have hrest : (textOf (rename f ps)).getLast? = none ↔ (textOf ps).getLast? = none := by
      rw [List.getLast?_eq_none_iff, List.getLast?_eq_none_iff, textOf_rename_eq_nil]
    cases hlast : (textOf ps).getLast? with
    | none =>
      have hlast' := hrest.2 hlast
      cases p <;> simp [List.getLast?_append, hlast, hlast', hnot]
    | some d =>
      obtain ⟨d', hlast'⟩ : ∃ d', (textOf (rename f ps)).getLast? = some d' :=
        Option.ne_none_iff_exists'.1 fun h => by rw [hrest.1 h] at hlast; cases hlast
      rw [hlast, hlast'] at ih
      cases p <;> simpa [List.getLast?_append, hlast, hlast'] using ih

end OtherNames

/-- The text falls into pieces so that a reading finds just the handlers among them, whatever
names these have. -/
def Renamable (read : Nat → List Char → List HandlerReference) (cs : List Char) : Prop :=
  ∃ ps, textOf ps = cs ∧ ∀ f pos, read pos (textOf (rename f ps)) = references pos (rename f ps)

namespace Renamable

variable {read more : Nat → List Char → List HandlerReference} {cs : List Char}

theorem silent (h : ∀ pos, read pos cs = []) : Renamable read cs :=
  ⟨[.plain cs], by simp, fun f pos => by simp [references, h]⟩

theorem cons {c : Char} (h : ∀ pos rest, read pos (c :: rest) = more (pos + c.utf8Size) rest)
    (hrest : Renamable more cs) : Renamable read (c :: cs) := by
  obtain ⟨qs, rfl, hqs⟩ := hrest
  exact ⟨.plain [c] :: qs, rfl, fun f pos => by simp [references, byteLength, h, hqs]⟩

end Renamable

theorem isBlank_of_isNameChar {c : Char} (h : isNameChar c = true) : isBlank c = false := by
  have hranges : isNameChar c = (decide (c.val ≥ 'A'.val ∧ c.val ≤ 'Z'.val) ||
      decide (c.val ≥ 'a'.val) && decide (c.val ≤ 'z'.val) ||
      decide (c.val ≥ '0'.val) && decide (c.val ≤ '9'.val) || c == '_' || c == '$') := rfl
  simp only [hranges, Bool.or_eq_true, Bool.and_eq_true, decide_eq_true_eq, beq_iff_eq, UInt32.le_iff_toNat_le,
    ge_iff_le, Char.ext_iff, ← UInt32.toNat_inj] at h
  simp only [UInt32.reduceToNat, Char.reduceVal] at h
  have hval : c.toNat = c.val.toNat := rfl
  simp only [isBlank, inRanges, blankRanges, List.any_cons, List.any_nil, Bool.or_false,
    Bool.or_eq_false_iff, Bool.and_eq_false_iff, decide_eq_false_iff_not, hval]
  omega

theorem head?_of_isArguments {cs : List Char} (h : isArguments cs = true) (c : Char)
    (hc : cs.head? = some c) : isNameChar c = false := by
  cases cs with
  | nil => cases hc
  | cons d cs =>
    simp only [isArguments, List.isEmpty_cons, Bool.false_or, Bool.and_eq_true, beq_iff_eq,
      List.head?_cons, Option.some.injEq] at h hc
    rw [← hc, h.1]
    decide

theorem exists_of_handlerName? {cs lead name : List Char} (h : handlerName? cs = some (lead, name)) :
    ∃ arguments, cs = lead ++ name ++ arguments ∧ (lead = [] ∨ lead = ['.']) ∧ isName name = true ∧
      isArguments arguments = true := by
  unfold handlerName? at h
  dsimp only at h
  have hlead : cs = (if cs.head? == some '.' then ['.'] else []) ++
      cs.drop (if cs.head? == some '.' then ['.'] else []).length := by
    cases cs with
    | nil => simp
    | cons c cs => by_cases hc : c = '.' <;> simp [hc]
  have hdot : (if cs.head? == some '.' then ['.'] else []) = [] ∨
      (if cs.head? == some '.' then ['.'] else []) = ['.'] := by
    split <;> simp
  generalize (if cs.head? == some '.' then ['.'] else []) = found at *
  split at h
  · cases h
  next hname =>
    split at h
    next hargs =>
      cases h
      refine ⟨_, ?_, hdot, ?_, hargs⟩
      · rw [List.append_assoc, List.takeWhile_append_dropWhile]
        exact hlead
      · simp only [isName, List.all_takeWhile]
        simpa using hname
    next => cases h

theorem head?_of_isName {name : List Char} (h : isName name = true) (rest : List Char) :
    (name ++ rest).head? ≠ some '.' := by
  cases name with
  | nil => cases h
  | cons c name =>
    simp only [isName, List.all_cons, Bool.and_eq_true] at h
    rintro hdot
    obtain rfl : c = '.' := Option.some.inj hdot
    exact absurd h.1.2.1 (by decide)

theorem handlerName?_parts {lead name arguments : List Char} (hlead : lead = [] ∨ lead = ['.'])
    (hname : isName name = true) (hargs : isArguments arguments = true) :
    handlerName? (lead ++ name ++ arguments) = some (lead, name) := by
  have hfound : (if (lead ++ name ++ arguments).head? == some '.' then ['.'] else []) = lead := by
    rcases hlead with rfl | rfl
    · rw [List.nil_append, if_neg (by simpa using head?_of_isName hname arguments)]
    · rfl
  simp only [isName, Bool.and_eq_true, List.all_eq_true, Bool.not_eq_true'] at hname
  obtain ⟨⟨hne, hall⟩, hdigit⟩ := hname
  have hbehind := takeWhile_append_of_head hall (head?_of_isArguments hargs)
  unfold handlerName?
  dsimp only
  rw [hfound, List.append_assoc, List.drop_left, hbehind.1, hbehind.2]
  simp [hne, hdigit, hargs]

theorem handlerName?_eq_some_iff {cs lead name : List Char} :
    handlerName? cs = some (lead, name) ↔ ∃ arguments, cs = lead ++ name ++ arguments ∧
      (lead = [] ∨ lead = ['.']) ∧ isName name = true ∧ isArguments arguments = true := by
  refine ⟨exists_of_handlerName?, ?_⟩
  rintro ⟨arguments, rfl, hlead, hname, hargs⟩
  exact handlerName?_parts hlead hname hargs

def valueReferences (key : List Char) (pos : Nat) (cs : List Char) : List HandlerReference :=
  (Attribute.handler? ⟨String.ofList key, String.ofList cs, ⟨pos, pos + byteLength cs⟩⟩).toList

section Value

variable (name : HandlerName) {lead arguments : List Char} (hlead : lead = [] ∨ lead = ['.'])
  (hargs : isArguments arguments = true)

include hlead in
theorem isBlank_head (rest : List Char) (c : Char) (hc : (lead ++ name.chars ++ rest).head? = some c) :
    isBlank c = false := by
  obtain ⟨d, ds, hname⟩ := name.exists_cons
  have hd : isNameChar d = true := isNameChar_of_mem (hname ▸ List.mem_cons_self)
  rcases hlead with rfl | rfl
  · simp only [hname, List.nil_append, List.cons_append, List.head?_cons, Option.some.injEq] at hc
    rw [← hc, isBlank_of_isNameChar hd]
  · simp only [List.cons_append, List.head?_cons, Option.some.injEq] at hc
    rw [← hc]
    decide

include hargs in
theorem isBlank_getLast (c : Char) (hc : (lead ++ name.chars ++ arguments).getLast? = some c) :
    isBlank c = false := by
  obtain ⟨d, ds, hname⟩ := name.exists_cons
  by_cases hempty : arguments = []
  · rw [hempty, List.append_nil, List.getLast?_append, hname, List.getLast?_cons, Option.some_or] at hc
    have hmem : c ∈ name.chars := by
      rw [hname]
      exact List.mem_of_getLast? (List.getLast?_cons.trans hc)
    exact isBlank_of_isNameChar (isNameChar_of_mem hmem)
  · simp only [isArguments, List.isEmpty_iff, hempty, Bool.or_eq_true, false_or,
      Bool.and_eq_true, beq_iff_eq] at hargs
    rw [List.getLast?_append, hargs.2, Option.some_or, Option.some.injEq] at hc
    rw [← hc]
    decide

include hlead hargs in
theorem handlerSpan?_between {blanks trailing : List Char} (hblanks : ∀ c ∈ blanks, isBlank c = true)
    (htrailing : ∀ c ∈ trailing, isBlank c = true) :
    handlerSpan? (String.ofList (blanks ++ (lead ++ name.chars ++ arguments ++ trailing))) =
      some ⟨byteLength (blanks ++ lead), byteLength (blanks ++ lead) + byteLength name.chars⟩ := by
  have hfirst := isBlank_head name hlead (arguments ++ trailing)
  rw [← List.append_assoc] at hfirst
  have hblank := takeWhile_append_of_head hblanks hfirst
  have htrim : trimChars (blanks ++ (lead ++ name.chars ++ arguments ++ trailing)) =
      lead ++ name.chars ++ arguments := by
    rw [trimChars, hblank.2, dropTrailing_append htrailing (isBlank_getLast name hargs)]
  have hfound := handlerName?_parts hlead name.isName_chars hargs
  unfold handlerSpan?
  simp only [String.toList_ofList, htrim, hblank.1, hfound, Option.map_some, byteLength_append]

end Value

theorem renamable_value (key cs : List Char) : Renamable (valueReferences key) cs := by
  by_cases hkey : isStructural (String.ofList key) = true
  · exact .silent fun pos => by simp [valueReferences, Attribute.handler?, hkey]
  · cases hfound : handlerName? (trimChars cs) with
    | none =>
      exact .silent fun pos => by simp [valueReferences, Attribute.handler?, hkey, handlerSpan?, hfound]
    | some found =>
      obtain ⟨lead, name⟩ := found
      obtain ⟨arguments, htrimmed, hlead, hname, hargs⟩ := handlerName?_eq_some_iff.1 hfound
      obtain ⟨trailing, hrest, htrailing⟩ := exists_dropTrailing_append isBlank (cs.dropWhile isBlank)
      let blanks := cs.takeWhile isBlank
      have hblanks : ∀ c ∈ blanks, isBlank c = true := fun c hc => List.mem_takeWhile_imp hc
      have hcs : cs = blanks ++ (lead ++ name ++ arguments ++ trailing) := by
        rw [← htrimmed, trimChars, ← hrest, List.takeWhile_append_dropWhile]
      refine ⟨[.plain (blanks ++ lead), .handler key ⟨name, hname⟩, .plain (arguments ++ trailing)],
        ?_, fun f pos => ?_⟩
      · rw [hcs]
        simp
      · -- The value has the same form around the new name.
        simp only [rename_plain, rename_handler, rename_nil]
        generalize f ⟨name, hname⟩ = new
        have htext : textOf [.plain (blanks ++ lead), .handler key new, .plain (arguments ++ trailing)] =
            blanks ++ (lead ++ new.chars ++ arguments ++ trailing) := by simp
        have hspan := handlerSpan?_between new hlead hargs hblanks htrailing
        have hslice : Span.slice ⟨byteLength (blanks ++ lead),
            byteLength (blanks ++ lead) + byteLength new.chars⟩
              (String.ofList (blanks ++ (lead ++ new.chars ++ arguments ++ trailing))) =
            some (String.ofList new.chars) := by
          refine Span.slice_eq_some_iff.2 ⟨String.ofList (blanks ++ lead),
            String.ofList (arguments ++ trailing), ?_, utf8ByteSize_ofList _, ?_⟩
          · simp [String.append_assoc]
          · simp [utf8ByteSize_ofList]
        simp only [htext, references]
        generalize blanks ++ (lead ++ new.chars ++ arguments ++ trailing) = value at hspan hslice ⊢
        generalize byteLength (blanks ++ lead) = start at hspan hslice ⊢
        simp [valueReferences, Attribute.handler?, hkey, hspan, Span.sliceD, hslice, Span.shift,
          Nat.add_assoc]

end UiWorkspace.Markup
