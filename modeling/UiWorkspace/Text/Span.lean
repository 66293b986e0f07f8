/-! Half-open byte ranges of a text. Offsets count UTF-8 bytes, so a range can end
inside a character; such a range selects nothing. `slice_eq_some_iff` says what a range
selects in terms of the texts before and behind it. -/
namespace UiWorkspace.Text

/-- The bytes from `start` up to, but not including, `stop`. -/
structure Span where
  start : Nat
  stop : Nat
deriving DecidableEq, Repr, Inhabited

namespace Span

def size (r : Span) : Nat := r.stop - r.start

def isEmpty (r : Span) : Bool := r.stop ≤ r.start

/-- Whether a cursor at `offset` touches the range: both ends count, so a cursor
right behind a name still touches it. -/
def touches (r : Span) (offset : Nat) : Bool := r.start ≤ offset && offset ≤ r.stop

def shift (n : Nat) (r : Span) : Span := ⟨n + r.start, n + r.stop⟩

def Apart (r q : Span) : Prop := r.stop ≤ q.start ∨ q.stop ≤ r.start

instance (r q : Span) : Decidable (r.Apart q) := inferInstanceAs (Decidable (_ ∨ _))

theorem Apart.symm {r q : Span} (h : r.Apart q) : q.Apart r := Or.symm h

/-- The text the range selects: nothing unless both ends lie in the text, in order,
and between characters. -/
def slice (r : Span) (text : String) : Option String :=
  match text.pos? ⟨r.start⟩, text.pos? ⟨r.stop⟩ with
  | some first, some last => if first ≤ last then some (text.extract first last) else none
  | _, _ => none

theorem pos?_eq_some_iff {text : String} {o : Nat} {p : text.Pos} :
    text.pos? ⟨o⟩ = some p ↔ p.offset = ⟨o⟩ := by
  change Option.map String.Pos.ofToSlice
    (if h : String.Pos.Raw.isValidForSlice text.toSlice ⟨o⟩ = true then
      some (text.toSlice.pos ⟨o⟩ (String.Pos.Raw.isValidForSlice_eq_true_iff.1 h)) else none)
        = some p ↔ _
  constructor
  · intro h
    split at h
    · rw [Option.map_some, Option.some.injEq] at h
      rw [← h]
      simp
    · simp at h
  · intro h
    have hv : String.Pos.Raw.isValidForSlice text.toSlice ⟨o⟩ = true := by
      rw [String.Pos.Raw.isValidForSlice_eq_true_iff, String.Pos.Raw.isValidForSlice_toSlice_iff, ← h]
      exact p.isValid
    rw [dif_pos hv, Option.map_some, Option.some.injEq]
    apply String.Pos.ext
    rw [h]
    simp

theorem slice_eq_some_iff_extract {r : Span} {text mid : String} :
    r.slice text = some mid ↔ ∃ first last : text.Pos, first.offset = ⟨r.start⟩ ∧
      last.offset = ⟨r.stop⟩ ∧ first ≤ last ∧ text.extract first last = mid := by
  constructor
  · intro h
    unfold slice at h
    split at h
    next first last hfirst hlast =>
      split at h
      next hle =>
        exact ⟨first, last, pos?_eq_some_iff.1 hfirst, pos?_eq_some_iff.1 hlast, hle,
          Option.some.inj h⟩
      next => cases h
    next => cases h
  · rintro ⟨first, last, hfirst, hlast, hle, hmid⟩
    unfold slice
    rw [pos?_eq_some_iff.2 hfirst, pos?_eq_some_iff.2 hlast, ← hmid]
    exact if_pos hle

theorem extract_eq_iff {text mid : String} {first last : text.Pos} :
    (first ≤ last ∧ text.extract first last = mid) ↔
      ∃ before behind, first.Splits before (mid ++ behind) ∧ last.Splits (before ++ mid) behind := by
  rw [← String.copy_slice_eq_iff_splits]
  constructor
  · rintro ⟨hle, hmid⟩
    exact ⟨hle, by rw [← String.extract_eq_copy_slice, hmid]⟩
  · rintro ⟨hle, hmid⟩
    exact ⟨hle, by rw [String.extract_eq_copy_slice _ _ hle, hmid]⟩

/-- A range selects what stands between a beginning and an end of the right sizes. -/
theorem slice_eq_some_iff {r : Span} {text mid : String} :
    r.slice text = some mid ↔
      ∃ before behind, text = before ++ mid ++ behind ∧ before.utf8ByteSize = r.start ∧
        before.utf8ByteSize + mid.utf8ByteSize = r.stop := by
  rw [slice_eq_some_iff_extract]
  constructor
  · rintro ⟨first, last, hfirst, hlast, hcut⟩
    obtain ⟨before, behind, hbefore, hupto⟩ := extract_eq_iff.1 hcut
    refine ⟨before, behind, hupto.eq_append, ?_, ?_⟩
    · exact congrArg String.Pos.Raw.byteIdx (hbefore.offset_eq_rawEndPos.symm.trans hfirst)
    · rw [← String.utf8ByteSize_append]
      exact congrArg String.Pos.Raw.byteIdx (hupto.offset_eq_rawEndPos.symm.trans hlast)
  · rintro ⟨before, behind, htext, hstart, hstop⟩
    have hbefore : text = before ++ (mid ++ behind) := by rw [htext, String.append_assoc]
    rw [← String.utf8ByteSize_append] at hstop
    refine ⟨String.Pos.ofEqAppend hbefore, String.Pos.ofEqAppend htext, ?_, ?_, extract_eq_iff.2 ?_⟩
    · exact congrArg String.Pos.Raw.mk hstart
    · exact congrArg String.Pos.Raw.mk hstop
    · exact ⟨before, behind, ⟨hbefore, rfl⟩, ⟨htext, rfl⟩⟩

theorem start_le_stop {r : Span} {text : String} (h : (r.slice text).isSome) : r.start ≤ r.stop := by
  obtain ⟨mid, hmid⟩ := Option.isSome_iff_exists.1 h
  obtain ⟨before, behind, -, hstart, hstop⟩ := slice_eq_some_iff.1 hmid
  omega

def sliceD (r : Span) (text : String) : String := (r.slice text).getD ""

end Span

def byteLength : List Char → Nat
  | [] => 0
  | c :: cs => c.utf8Size + byteLength cs

theorem utf8ByteSize_ofList (cs : List Char) : (String.ofList cs).utf8ByteSize = byteLength cs := by
  induction cs with
  | nil => rfl
  | cons c cs ih => simp [byteLength, ← ih]

@[simp] theorem byteLength_append (cs ds : List Char) :
    byteLength (cs ++ ds) = byteLength cs + byteLength ds := by
  induction cs with
  | nil => simp [byteLength]
  | cons c cs ih => simp [byteLength, ih, Nat.add_assoc]

end UiWorkspace.Text
