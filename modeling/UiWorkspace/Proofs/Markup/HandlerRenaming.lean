import UiWorkspace.Proofs.Edit.Order
import UiWorkspace.Proofs.Markup.TagBounds
import UiWorkspace.Proofs.Text.Pieces

/-! Handlers renamed in markup: the text keeps its structure, and the renaming can be undone. -/
namespace UiWorkspace.Markup

open UiWorkspace.Text

/-- The edits that put `new` in the place of each handler named `old`. -/
def renamingEdits (path : FilePath) (old new : String) (refs : List HandlerReference) : List Edit :=
  (refs.filter fun r => r.name == old).map fun r => ⟨path, r.span, new⟩

theorem HandlerName.byteLength_pos (name : HandlerName) : 0 < byteLength name.chars := by
  obtain ⟨c, cs, hname⟩ := name.exists_cons
  exact Text.byteLength_pos (by simp [hname])

theorem start_of_mem_references {ps : List Piece} {pos : Nat} {r : HandlerReference}
    (h : r ∈ references pos ps) : pos ≤ r.span.start ∧ r.span.start < r.span.stop := by
  induction ps generalizing pos with
  | nil => cases h
  | cons p ps ih =>
    cases p with
    | plain cs =>
      have := ih h
      omega
    | handler key name =>
      have hpos := name.byteLength_pos
      simp only [references, List.mem_cons] at h
      rcases h with rfl | h
      · simp only
        omega
      · have := ih h
        omega

theorem pairwise_references (pos : Nat) (ps : List Piece) :
    (references pos ps).Pairwise fun r s => r.span.stop ≤ s.span.start := by
  induction ps generalizing pos with
  | nil => exact .nil
  | cons p ps ih =>
    cases p with
    | plain cs => exact ih _
    | handler key name => exact .cons (fun s hs => (start_of_mem_references hs).1) (ih _)

theorem slice_of_mem_references {before : List Char} {ps : List Piece} {r : HandlerReference}
    (h : r ∈ references (byteLength before) ps) :
    r.span.slice (String.ofList (before ++ textOf ps)) = some r.name := by
  induction ps generalizing before with
  | nil => cases h
  | cons p ps ih =>
    cases p with
    | plain cs =>
      rw [references, ← byteLength_append] at h
      rw [textOf_plain, ← List.append_assoc]
      exact ih h
    | handler key name =>
      rw [references, ← byteLength_append] at h
      rcases List.mem_cons.1 h with rfl | h
      · refine Span.slice_eq_some_iff.2 ⟨String.ofList before, String.ofList (textOf ps), ?_, ?_, ?_⟩
        · simp [String.append_assoc]
        · exact utf8ByteSize_ofList before
        · simp [utf8ByteSize_ofList]
      · rw [textOf_handler, ← List.append_assoc]
        exact ih h

theorem handlerReferences_placed (content : String) :
    (∀ r ∈ handlerReferences (tags content), r.span.slice content = some r.name) ∧
      (handlerReferences (tags content)).Pairwise fun r s => r.span.stop ≤ s.span.start := by
  obtain ⟨ps, hps, hread⟩ := renamable_document content.toList
  have hrefs : handlerReferences (tags content) = references 0 ps := by
    have := hread id 0
    rwa [rename_id, hps] at this
  have hcontent : content = String.ofList ([] ++ textOf ps) := by
    rw [List.nil_append, hps, String.ofList_toList]
  rw [hrefs]
  refine ⟨fun r hr => ?_, pairwise_references 0 ps⟩
  rw [hcontent]
  exact slice_of_mem_references hr

def respelled (old new : String) (name : HandlerName) : List Char :=
  if String.ofList name.chars = old then new.toList else name.chars

theorem foldr_renamingEdits (path : FilePath) (old new : String) (before : List Char) (ps : List Piece) :
    (renamingEdits path old new (references (byteLength before) ps)).foldr
        (fun e text => Edit.applyOne text e) (String.ofList (before ++ textOf ps)) =
      String.ofList (before ++ spell (respelled old new) ps) := by
  induction ps generalizing before with
  | nil => rfl
  | cons p ps ih =>
    cases p with
    | plain cs =>
      simpa [references, spell, Piece.spelled] using ih (before ++ cs)
    | handler key name =>
      have ih := ih (before ++ name.chars)
      rw [byteLength_append, List.append_assoc] at ih
      by_cases hold : String.ofList name.chars = old
      · have hedits : renamingEdits path old new (references (byteLength before) (.handler key name :: ps)) =
            ⟨path, ⟨byteLength before, byteLength before + byteLength name.chars⟩, new⟩ ::
              renamingEdits path old new (references (byteLength before + byteLength name.chars) ps) := by
          simp [renamingEdits, references, hold]
        rw [hedits, List.foldr_cons, textOf_handler, ih, String.ofList_append, String.ofList_append,
          Edit.applyOne_append (utf8ByteSize_ofList before) (by simp [utf8ByteSize_ofList])]
        simp [spell, Piece.spelled, respelled, hold, String.append_assoc]
      · simpa [renamingEdits, references, hold, spell, Piece.spelled, respelled] using ih

theorem apply_renamingEdits (path : FilePath) (old new : String) (ps : List Piece) :
    Edit.apply (String.ofList (textOf ps)) (renamingEdits path old new (references 0 ps)) =
      String.ofList (spell (respelled old new) ps) := by
  have hincreasing : (renamingEdits path old new (references 0 ps)).Pairwise
      fun e f => e.span.start < f.span.start := by
    refine List.pairwise_map.2 (.filter _ (.imp_of_mem ?_ (pairwise_references 0 ps)))
    intro r s hr _ hrs
    have := (start_of_mem_references hr).2
    simp only
    omega
  rw [Edit.apply_of_increasing hincreasing]
  exact foldr_renamingEdits path old new [] ps

def exchange (old : String) (new : HandlerName) (name : HandlerName) : HandlerName :=
  if String.ofList name.chars = old then new else name

theorem respelled_eq_exchange (old : String) (new name : HandlerName) :
    respelled old (String.ofList new.chars) name = (exchange old new name).chars := by
  unfold respelled exchange
  split <;> simp

theorem spell_respelled (old : String) (new : HandlerName) (ps : List Piece) :
    spell (respelled old (String.ofList new.chars)) ps = textOf (rename (exchange old new) ps) := by
  rw [funext (respelled_eq_exchange old new)]
  induction ps with
  | nil => rfl
  | cons p ps ih => cases p <;> simp_all [spell, Piece.spelled]

theorem spell_respelled_exchange {old : String} {new : HandlerName} {ps : List Piece} {pos : Nat}
    (h : ∀ r ∈ references pos ps, r.name ≠ String.ofList new.chars) :
    spell (respelled (String.ofList new.chars) old) (rename (exchange old new) ps) = textOf ps := by
  induction ps generalizing pos with
  | nil => rfl
  | cons p ps ih =>
    cases p with
    | plain cs => simpa [spell, Piece.spelled] using ih h
    | handler key name =>
      obtain ⟨hname, hrest⟩ := List.forall_mem_cons.1 h
      have hback : respelled (String.ofList new.chars) old (exchange old new name) = name.chars := by
        unfold respelled exchange
        by_cases hold : String.ofList name.chars = old
        · simp [← hold]
        · simp [hold, hname]
      simpa [spell, Piece.spelled, hback] using ih hrest

/-- Where an offset of the text is after the renaming: each renamed handler that ends there or
before has changed its length. -/
def offsetAfter (old new : String) (refs : List HandlerReference) (offset : Nat) : Nat :=
  let passed := refs.countP fun r => r.name == old && r.span.stop ≤ offset
  offset + passed * new.utf8ByteSize - passed * old.utf8ByteSize

def HandlerReference.renamed (old new : String) (refs : List HandlerReference) (r : HandlerReference) :
    HandlerReference where
  attributeName := r.attributeName
  name := if r.name = old then new else r.name
  span := ⟨offsetAfter old new refs r.span.start, offsetAfter old new refs r.span.stop⟩

/-- The handlers of `passed` end at `pos` or before, and their renaming moves `pos` to `pos'`. -/
structure Moves (old : String) (new : HandlerName) (passed : List HandlerReference)
    (pos pos' : Nat) : Prop where
  stop_le (r : HandlerReference) : r ∈ passed → r.span.stop ≤ pos
  moved : pos' + passed.countP (·.name == old) * old.utf8ByteSize =
    pos + passed.countP (·.name == old) * byteLength new.chars

namespace Moves

variable {old : String} {new : HandlerName} {passed : List HandlerReference} {pos pos' : Nat}

theorem plain (h : Moves old new passed pos pos') (n : Nat) :
    Moves old new passed (pos + n) (pos' + n) where
  stop_le r hr := Nat.le_add_right_of_le (h.stop_le r hr)
  moved := by
    have := h.moved
    omega

theorem handler (h : Moves old new passed pos pos') (key : String) (name : HandlerName) :
    Moves old new (passed ++ [⟨key, String.ofList name.chars, ⟨pos, pos + byteLength name.chars⟩⟩])
      (pos + byteLength name.chars) (pos' + byteLength (exchange old new name).chars) where
  stop_le r hr := by
    rcases List.mem_append.1 hr with hr | hr
    · exact Nat.le_add_right_of_le (h.stop_le r hr)
    · rw [List.mem_singleton.1 hr]
  moved := by
    have hmoved := h.moved
    rw [List.countP_append, List.countP_singleton]
    by_cases hold : String.ofList name.chars = old
    · have hsize : old.utf8ByteSize = byteLength name.chars := by rw [← hold, utf8ByteSize_ofList]
      rw [exchange, if_pos hold, if_pos (beq_iff_eq.2 hold), Nat.succ_mul, Nat.succ_mul]
      omega
    · rw [exchange, if_neg hold, if_neg (mt beq_iff_eq.1 hold), Nat.add_zero]
      omega

theorem offsetAfter_eq (h : Moves old new passed pos pos') (rest : List HandlerReference)
    (hrest : ∀ r ∈ rest, pos < r.span.stop) :
    offsetAfter old (String.ofList new.chars) (passed ++ rest) pos = pos' := by
  have hleft : passed.countP (fun r => r.name == old && r.span.stop ≤ pos) =
      passed.countP (·.name == old) :=
    List.countP_congr fun r hr => by simp [h.stop_le r hr]
  have hright : rest.countP (fun r => r.name == old && r.span.stop ≤ pos) = 0 :=
    List.countP_eq_zero.2 fun r hr => by simp [hrest r hr]
  simp only [offsetAfter, List.countP_append, hleft, hright, Nat.add_zero, utf8ByteSize_ofList,
    ← h.moved, Nat.add_sub_cancel]

end Moves

theorem lt_stop_of_mem_references {ps : List Piece} {pos : Nat} {r : HandlerReference}
    (h : r ∈ references pos ps) : pos < r.span.stop :=
  Nat.lt_of_le_of_lt (start_of_mem_references h).1 (start_of_mem_references h).2

theorem references_rename {old : String} {new : HandlerName} (ps : List Piece)
    (passed : List HandlerReference) {pos pos' : Nat} (h : Moves old new passed pos pos') :
    references pos' (rename (exchange old new) ps) = (references pos ps).map
      (HandlerReference.renamed old (String.ofList new.chars) (passed ++ references pos ps)) := by
  induction ps generalizing passed pos pos' with
  | nil => rfl
  | cons p ps ih =>
    cases p with
    | plain cs => exact ih passed (h.plain _)
    | handler key name =>
      have hnext := h.handler (String.ofList key) name
      -- The handler begins where those before it have moved its place, and ends where it has too.
      have hstart := h.offsetAfter_eq (references pos (.handler key name :: ps))
        fun _ => lt_stop_of_mem_references
      have hstop := hnext.offsetAfter_eq (references (pos + byteLength name.chars) ps)
        fun _ => lt_stop_of_mem_references
      have hrest := ih _ hnext
      rw [List.append_assoc, List.singleton_append] at hstop hrest
      rw [references] at hstart
      rw [rename_handler, references, references, hrest, List.map_cons, List.cons.injEq]
      refine ⟨?_, rfl⟩
      simp only [HandlerReference.renamed, hstart, hstop, exchange]
      split <;> rfl

/-- Markup with renamed handlers is read with the same handlers in the same places, these moved by
what the names before them have grown or shrunk; renaming back gives the old text. -/
theorem renamed_handlers_reread (path : FilePath) (content old new : String)
    (hnew : isName new.toList = true) :
    let refs := handlerReferences (tags content)
    let edited := Edit.apply content (renamingEdits path old new refs)
    handlerReferences (tags edited) = refs.map (HandlerReference.renamed old new refs) ∧
      ((∀ r ∈ refs, r.name ≠ new) →
        Edit.apply edited (renamingEdits path new old (handlerReferences (tags edited))) = content) := by
  -- Both names are put in the place of a handler among the pieces of the text.
  obtain ⟨ps, hps, hread⟩ := renamable_document content.toList
  obtain ⟨name, rfl⟩ : ∃ name : HandlerName, new = String.ofList name.chars :=
    ⟨⟨new.toList, hnew⟩, by simp⟩
  have hcontent : content = String.ofList (textOf ps) := by rw [hps, String.ofList_toList]
  have htags : ∀ cs, handlerReferences (tags (String.ofList cs)) = documentReferences 0 cs := fun cs => by
    rw [tags, String.toList_ofList, documentReferences]
  have hrefs : handlerReferences (tags content) = references 0 ps := by
    have := hread id 0
    rwa [rename_id, ← htags, ← hcontent] at this
  have hedited : Edit.apply content (renamingEdits path old (String.ofList name.chars) (references 0 ps)) =
      String.ofList (textOf (rename (exchange old name) ps)) := by
    rw [hcontent, apply_renamingEdits, spell_respelled]
  dsimp only
  rw [hrefs, hedited, htags, hread]
  refine ⟨references_rename ps [] ⟨by simp, by simp⟩, fun hunused => ?_⟩
  rw [apply_renamingEdits, spell_respelled_exchange hunused, ← hcontent]

/-- For the end of its first tag the handler `.old` is inside of single quotes, for the attributes it
is not; the last tag has no end. -/
def sampleMarkup : String :=
  "<A b'c=\"y\" press=\" .old \" d'e=\"old(1)\"/><!-- <B press=\"old\"> --><C tap=\"old\""

theorem renamed_handlers_reread_sample :
    isName "fire".toList = true ∧
      (handlerReferences (tags sampleMarkup)).map (·.name) = ["y", "old", "old"] ∧
      let edited := Edit.apply sampleMarkup
        (renamingEdits ⟨"/p/A.view.xml"⟩ "old" "fire" (handlerReferences (tags sampleMarkup)))
      (handlerReferences (tags edited)).map (·.name) = ["y", "fire", "fire"] ∧
        Edit.apply edited (renamingEdits ⟨"/p/A.view.xml"⟩ "fire" "old" (handlerReferences (tags edited))) =
          sampleMarkup := by
  have hname : isName "fire".toList = true := by decide
  have hrefs : (handlerReferences (tags sampleMarkup)).map (·.name) = ["y", "old", "old"] := by
    decide +kernel
  have hreread := renamed_handlers_reread ⟨"/p/A.view.xml"⟩ sampleMarkup "old" "fire" hname
  have hunused : ∀ r ∈ handlerReferences (tags sampleMarkup), r.name ≠ "fire" := by
    intro r hr
    have hmem : r.name ∈ ["y", "old", "old"] := hrefs ▸ List.mem_map_of_mem hr
    rintro heq
    rw [heq] at hmem
    exact absurd hmem (by decide)
  refine ⟨hname, hrefs, ?_, hreread.2 hunused⟩
  rw [hreread.1, List.map_map]
  calc (handlerReferences (tags sampleMarkup)).map _
      = ((handlerReferences (tags sampleMarkup)).map (·.name)).map fun n => if n = "old" then "fire" else n :=
        (List.map_map ..).symm
    _ = ["y", "fire", "fire"] := by rw [hrefs]; rfl

end UiWorkspace.Markup
