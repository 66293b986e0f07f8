import Mathlib.Data.List.MinMax
import Mathlib.Order.Nat
import UiWorkspace.Proofs.Edit.Order
import UiWorkspace.Proofs.Text.Pieces

/-! Edits outside of the text. Whether an edit selects anything is looked at when its turn comes, in
the text as the edits behind it have left it. So an edit outside of the text is passed over unless it
reaches over the beginning of one that is made before it, and then it depends on what that one has put
there: an edit inside of the text can put so much in its place that the edits which reach over its
beginning end in it. -/
namespace UiWorkspace.Edit

open UiWorkspace.Text

/-- The range of the edit selects a part of the text. -/
def isInside (text : String) (e : Edit) : Bool := (e.span.slice text).isSome

/-- The edit begins in the text, at its end or between two of its characters. -/
def beginsInside (text : String) (e : Edit) : Bool := ((Span.mk e.span.start e.span.start).slice text).isSome

/-- The edit begins in the text but does not end in it, and its end is behind the offset. -/
def EndsPast (text : String) (offset : Nat) (e : Edit) : Prop :=
  e.isInside text = false ∧ e.beginsInside text = true ∧ offset < e.span.stop

/-- The first edit, outside of the text, has the beginning of the second, inside of it, before its end. -/
def ReachesOver (text : String) (e f : Edit) : Prop :=
  f.isInside text = true ∧ e.EndsPast text f.span.start

def NoneReachesOver (text : String) (edits : List Edit) : Prop :=
  (backToFront edits).Pairwise fun f e => ¬ ReachesOver text e f

theorem slice_of_isInside_eq_false {text : String} {e : Edit} (h : e.isInside text = false) :
    e.span.slice text = none :=
  Option.isNone_iff_eq_none.1 (Option.isSome_eq_false_iff.1 h)

theorem exists_cut_of_isInside {text : String} {e : Edit} (h : e.isInside text = true) :
    ∃ before mid behind, text = before ++ mid ++ behind ∧ before.utf8ByteSize = e.span.start ∧
      before.utf8ByteSize + mid.utf8ByteSize = e.span.stop := by
  obtain ⟨mid, hmid⟩ := Option.isSome_iff_exists.1 h
  obtain ⟨before, behind, hcut⟩ := Span.slice_eq_some_iff.1 hmid
  exact ⟨before, mid, behind, hcut⟩

theorem beginsInside_iff {text : String} {e : Edit} :
    e.beginsInside text = true ↔
      ∃ before behind, text = before ++ behind ∧ before.utf8ByteSize = e.span.start := by
  unfold beginsInside
  rw [Option.isSome_iff_exists]
  simp only [Span.slice_eq_some_iff]
  constructor
  · rintro ⟨mid, before, behind, htext, hstart, -⟩
    exact ⟨before, mid ++ behind, htext.trans String.append_assoc, hstart⟩
  · rintro ⟨before, behind, htext, hstart⟩
    exact ⟨"", before, behind, by simp [htext], hstart, by simp [hstart]⟩

theorem beginsInside_of_isInside {text : String} {e : Edit} (h : e.isInside text = true) :
    e.beginsInside text = true := by
  obtain ⟨before, mid, behind, htext, hstart, -⟩ := exists_cut_of_isInside h
  exact beginsInside_iff.2 ⟨before, mid ++ behind, htext.trans String.append_assoc, hstart⟩

/-- The texts have their first `size` bytes in common, and these are whole characters. -/
def SameLead (size : Nat) (text other : String) : Prop :=
  ∃ lead rest rest', text = lead ++ rest ∧ other = lead ++ rest' ∧ lead.utf8ByteSize = size

namespace SameLead

variable {size : Nat} {text other : String}

theorem refl (text : String) : SameLead text.utf8ByteSize text text :=
  ⟨text, "", "", by simp, by simp, rfl⟩

theorem symm (h : SameLead size text other) : SameLead size other text := by
  obtain ⟨lead, rest, rest', htext, hother, hsize⟩ := h
  exact ⟨lead, rest', rest, hother, htext, hsize⟩

theorem slice_of_slice (h : SameLead size text other) {r : Span} (hstop : r.stop ≤ size) {mid : String}
    (hmid : r.slice text = some mid) : r.slice other = some mid := by
  obtain ⟨lead, rest, rest', rfl, rfl, rfl⟩ := h
  obtain ⟨before, behind, htext, hstart, hend⟩ := Span.slice_eq_some_iff.1 hmid
  obtain ⟨c, hlead, -⟩ := exists_append_of_size_le htext.symm (by simpa [hend] using hstop)
  exact Span.slice_eq_some_iff.2 ⟨before, c ++ rest', by simp [hlead, String.append_assoc], hstart, hend⟩

theorem slice_eq (h : SameLead size text other) {r : Span} (hstop : r.stop ≤ size) :
    r.slice other = r.slice text :=
  Option.ext fun _ => ⟨h.symm.slice_of_slice hstop, h.slice_of_slice hstop⟩

theorem beginsInside_eq (h : SameLead size text other) {e : Edit} (hstart : e.span.start ≤ size) :
    e.beginsInside other = e.beginsInside text :=
  congrArg Option.isSome (h.slice_eq hstart)

theorem shorten (h : SameLead size text other) {e : Edit} (hbegins : e.beginsInside text = true)
    (hstart : e.span.start ≤ size) : SameLead e.span.start text other := by
  obtain ⟨lead, rest, rest', rfl, rfl, rfl⟩ := h
  obtain ⟨before, behind, htext, hsize⟩ := beginsInside_iff.1 hbegins
  obtain ⟨c, hlead, -⟩ := exists_append_of_size_le htext.symm (by omega)
  exact ⟨before, c ++ rest, c ++ rest', by simp [hlead, String.append_assoc],
    by simp [hlead, String.append_assoc], hsize⟩

theorem applyOne {e : Edit} (h : SameLead e.span.start text other) :
    SameLead e.span.start text (applyOne other e) := by
  cases hslice : e.span.slice other with
  | none => rwa [applyOne_of_slice_eq_none hslice]
  | some mid =>
    obtain ⟨lead, rest, rest', htext, hother, hsize⟩ := h
    obtain ⟨before, behind, hcut, hstart, hstop⟩ := Span.slice_eq_some_iff.1 hslice
    obtain rfl : lead = before :=
      string_lead_unique (hother.symm.trans (hcut.trans String.append_assoc)) (hsize.trans hstart.symm)
    rw [hcut, applyOne_append hstart hstop]
    exact ⟨lead, rest, e.text ++ behind, htext, String.append_assoc, hsize⟩

end SameLead

/-- Behind an edit inside of the text, one outside of it selects nothing unless it reaches over the
beginning of the former. -/
theorem slice_eq_none_of_not_reachesOver {text other : String} {e f : Edit}
    (hlead : SameLead f.span.start text other) (hf : f.isInside text = true)
    (he : e.isInside text = false) (hle : e.span.start ≤ f.span.start) (h : ¬ ReachesOver text e f) :
    e.span.slice other = none := by
  by_cases hstop : e.span.stop ≤ f.span.start
  · rw [hlead.slice_eq hstop]
    exact slice_of_isInside_eq_false he
  · apply slice_of_isInside_eq_false
    rw [Bool.eq_false_iff]
    intro hinside
    have hbegins := beginsInside_of_isInside hinside
    rw [hlead.beginsInside_eq hle] at hbegins
    exact h ⟨hf, he, hbegins, Nat.lt_of_not_le hstop⟩

/-- The edits still to be made, where `size` bytes of the text have been left alone so far. -/
theorem foldl_filter_isInside {text other : String} {size : Nat} {es : List Edit} (hdesc : Descending es)
    (hspared : es.Pairwise fun f e => ¬ ReachesOver text e f) (hlead : SameLead size text other)
    (hstarts : ∀ e ∈ es, e.isInside text = true → e.span.start ≤ size)
    (houtside : ∀ e ∈ es, e.isInside text = false → e.span.slice other = none) :
    (es.filter (isInside text)).foldl applyOne other = es.foldl applyOne other := by
  induction es generalizing other size with
  | nil => rfl
  | cons f es ih =>
    obtain ⟨hf, hdesc⟩ := List.pairwise_cons.1 hdesc
    obtain ⟨hspare, hspared⟩ := List.pairwise_cons.1 hspared
    cases hinside : f.isInside text with
    | false =>
      have hskip : applyOne other f = other :=
        applyOne_of_slice_eq_none (houtside f List.mem_cons_self hinside)
      rw [List.filter_cons_of_neg (by simp [hinside]), List.foldl_cons, hskip]
      exact ih hdesc hspared hlead (fun e he => hstarts e (List.mem_cons_of_mem f he))
        fun e he => houtside e (List.mem_cons_of_mem f he)
    | true =>
      have hlead := (hlead.shorten (beginsInside_of_isInside hinside)
        (hstarts f List.mem_cons_self hinside)).applyOne
      rw [List.filter_cons_of_pos hinside, List.foldl_cons, List.foldl_cons]
      exact ih hdesc hspared hlead (fun e he _ => hf e he) fun e he hout =>
        slice_eq_none_of_not_reachesOver hlead hinside hout (hf e he) (hspare e he)

theorem start_le_of_isInside {text : String} {e : Edit} (h : e.isInside text = true) :
    e.span.start ≤ text.utf8ByteSize := by
  obtain ⟨before, mid, behind, rfl, hstart, -⟩ := exists_cut_of_isInside h
  simp only [String.utf8ByteSize_append]
  omega

theorem apply_filter_isInside {text : String} {edits : List Edit} (h : NoneReachesOver text edits) :
    apply text (edits.filter (isInside text)) = apply text edits := by
  rw [apply, apply, backToFront_filter]
  exact foldl_filter_isInside (descending_backToFront edits) h (.refl text)
    (fun _ _ => start_le_of_isInside) fun _ _ => slice_of_isInside_eq_false

def filler (size : Nat) : String := String.ofList (List.replicate size 'x')

@[simp] theorem utf8ByteSize_filler (size : Nat) : (filler size).utf8ByteSize = size := by
  rw [filler, utf8ByteSize_ofList]
  induction size with
  | zero => rfl
  | succ size ih =>
    rw [List.replicate_succ, byteLength, ih]
    exact Nat.add_comm 1 size

theorem filler_add (m n : Nat) : filler (m + n) = filler m ++ filler n := by
  rw [filler, List.replicate_add, String.ofList_append]
  rfl

/-- The text with filler behind its first `start` bytes. -/
def Grown (size start : Nat) (text other : String) : Prop :=
  ∃ lead rest rest', text = lead ++ rest ∧ other = lead ++ filler size ++ rest' ∧
    lead.utf8ByteSize = start

namespace Grown

variable {size start : Nat} {text other : String}

theorem sameLead (h : Grown size start text other) : SameLead start text other := by
  obtain ⟨lead, rest, rest', htext, hother, hstart⟩ := h
  exact ⟨lead, rest, filler size ++ rest', htext, hother.trans String.append_assoc, hstart⟩

theorem of_applyOne {f : Edit} (hlead : SameLead f.span.start text other)
    (hinside : f.isInside other = true) (htext : f.text = filler size) :
    Grown size f.span.start text (applyOne other f) := by
  obtain ⟨lead, rest, rest', hold, hother, hsize⟩ := hlead
  obtain ⟨before, mid, behind, hcut, hstart, hstop⟩ := exists_cut_of_isInside hinside
  obtain rfl : lead = before :=
    string_lead_unique (hother.symm.trans (hcut.trans String.append_assoc)) (hsize.trans hstart.symm)
  rw [hcut, applyOne_append hstart hstop, htext]
  exact ⟨lead, rest, behind, hold, rfl, hsize⟩

theorem isInside_of_lt (h : Grown size start text other) {e : Edit} (hbegins : e.beginsInside text = true)
    (hstart : e.span.start ≤ start) (hlt : start < e.span.stop) (hstop : e.span.stop ≤ size) :
    e.isInside other = true := by
  obtain ⟨lead, rest, rest', rfl, rfl, rfl⟩ := h
  obtain ⟨before, behind, htext, hbefore⟩ := beginsInside_iff.1 hbegins
  obtain ⟨c, hlead, -⟩ := exists_append_of_size_le htext.symm (by omega)
  have hsize : size = (e.span.stop - lead.utf8ByteSize) + (size - (e.span.stop - lead.utf8ByteSize)) := by
    omega
  refine Option.isSome_iff_exists.2 ⟨c ++ filler (e.span.stop - lead.utf8ByteSize),
    Span.slice_eq_some_iff.2 ⟨before, filler (size - (e.span.stop - lead.utf8ByteSize)) ++ rest',
      ?_, hbefore, ?_⟩⟩
  · rw [hsize, filler_add, hlead]
    simp [String.append_assoc]
  · rw [hlead] at hlt
    simp only [String.utf8ByteSize_append, utf8ByteSize_filler, hlead] at hlt ⊢
    omega

theorem isInside (h : Grown size start text other) {f : Edit} (hinside : f.isInside text = true)
    (hstart : f.span.start ≤ start) (hstop : f.span.stop ≤ size) : f.isInside other = true := by
  by_cases hle : f.span.stop ≤ start
  · exact (congrArg Option.isSome (h.sameLead.slice_eq hle)).trans hinside
  · exact h.isInside_of_lt (beginsInside_of_isInside hinside) hstart (Nat.lt_of_not_le hle) hstop

end Grown

theorem exists_size_applyOne (text : String) (e : Edit) : ∃ taken given, taken ≤ e.span.stop ∧
    given ≤ e.text.utf8ByteSize ∧
      (applyOne text e).utf8ByteSize + taken = text.utf8ByteSize + given := by
  cases hinside : e.isInside text with
  | false =>
    refine ⟨0, 0, Nat.zero_le _, Nat.zero_le _, ?_⟩
    rw [applyOne_of_slice_eq_none (slice_of_isInside_eq_false hinside)]
  | true =>
    obtain ⟨before, mid, behind, rfl, hstart, hstop⟩ := exists_cut_of_isInside hinside
    refine ⟨mid.utf8ByteSize, e.text.utf8ByteSize, by omega, Nat.le_refl _, ?_⟩
    rw [applyOne_append hstart hstop]
    simp only [String.utf8ByteSize_append]
    omega

theorem size_applyOne_le (text : String) (e : Edit) :
    (applyOne text e).utf8ByteSize ≤ text.utf8ByteSize + e.text.utf8ByteSize := by
  obtain ⟨taken, given, -, hgiven, hsize⟩ := exists_size_applyOne text e
  omega

theorem le_size_applyOne (text : String) (e : Edit) :
    text.utf8ByteSize ≤ (applyOne text e).utf8ByteSize + e.span.stop := by
  obtain ⟨taken, given, htaken, -, hsize⟩ := exists_size_applyOne text e
  omega

theorem size_foldl_le {bound : Nat} {es : List Edit} (h : ∀ e ∈ es, e.text.utf8ByteSize ≤ bound)
    (text : String) : (es.foldl applyOne text).utf8ByteSize ≤ text.utf8ByteSize + es.length * bound := by
  induction es generalizing text with
  | nil => simp
  | cons e es ih =>
    have hstep := size_applyOne_le text e
    have he := h e List.mem_cons_self
    have hrest := ih (fun f hf => h f (List.mem_cons_of_mem e hf)) (applyOne text e)
    rw [List.foldl_cons, List.length_cons, Nat.succ_mul]
    omega

theorem le_size_foldl {bound : Nat} {es : List Edit} (h : ∀ e ∈ es, e.span.stop ≤ bound)
    (text : String) : text.utf8ByteSize ≤ (es.foldl applyOne text).utf8ByteSize + es.length * bound := by
  induction es generalizing text with
  | nil => simp
  | cons e es ih =>
    have hstep := le_size_applyOne text e
    have he := h e List.mem_cons_self
    have hrest := ih (fun f hf => h f (List.mem_cons_of_mem e hf)) (applyOne text e)
    rw [List.foldl_cons, List.length_cons, Nat.succ_mul]
    omega

/-- The edits end within `size` bytes, those inside of the text put as much in their place, and all
others put a lot. -/
def Filling (text : String) (size lot : Nat) (es : List Edit) : Prop :=
  ∀ e ∈ es, e.span.stop ≤ size ∧ e.text = filler (if e.isInside text then size else lot)

def SomeReaches (text : String) (offset : Nat) (es : List Edit) : Prop :=
  (∃ e ∈ es, e.EndsPast text offset) ∨ ¬ es.Pairwise fun f e => ¬ ReachesOver text e f

section Reaching

variable {text : String} {offset : Nat} {g : Edit} {es : List Edit}

theorem someReaches_of_isInside (h : ¬ (g :: es).Pairwise fun f e => ¬ ReachesOver text e f)
    (hinside : g.isInside text = true) : SomeReaches text g.span.start es := by
  rw [List.pairwise_cons, not_and_or] at h
  refine h.imp_left fun h => ?_
  simpa [ReachesOver, hinside] using h

theorem not_pairwise_of_outside (h : ¬ (g :: es).Pairwise fun f e => ¬ ReachesOver text e f)
    (hout : g.isInside text = false) : ¬ es.Pairwise fun f e => ¬ ReachesOver text e f :=
  fun hes => h (List.pairwise_cons.2 ⟨fun e _ hreach => by simp [ReachesOver, hout] at hreach, hes⟩)

theorem SomeReaches.after_inside (h : SomeReaches text offset (g :: es))
    (hinside : g.isInside text = true) (hstart : g.span.start ≤ offset) :
    SomeReaches text g.span.start es := by
  rcases h with ⟨e, he, hout, hbegins, hlt⟩ | h
  · rcases List.mem_cons.1 he with rfl | he
    · rw [hinside] at hout
      cases hout
    · exact .inl ⟨e, he, hout, hbegins, Nat.lt_of_le_of_lt hstart hlt⟩
  · exact someReaches_of_isInside h hinside

theorem SomeReaches.after_outside (h : SomeReaches text offset (g :: es))
    (hout : g.isInside text = false) (hends : ¬ g.EndsPast text offset) : SomeReaches text offset es := by
  rcases h with ⟨e, he, hpast⟩ | h
  · rcases List.mem_cons.1 he with rfl | he
    · exact absurd hpast hends
    · exact .inl ⟨e, he, hpast⟩
  · exact .inr (not_pairwise_of_outside h hout)

end Reaching

theorem lot_le_of_isInside {text other : String} {size lot : Nat} {g : Edit} {es : List Edit}
    (hfill : Filling text size lot (g :: es)) (hout : g.isInside text = false)
    (hinside : g.isInside other = true) :
    lot ≤ ((g :: es).foldl applyOne other).utf8ByteSize + (g :: es).length * size := by
  obtain ⟨before, mid, behind, rfl, hstart, hstop⟩ := exists_cut_of_isInside hinside
  have hrest := le_size_foldl (fun e he => (hfill e (List.mem_cons_of_mem g he)).1)
    (applyOne (before ++ mid ++ behind) g)
  have htext := (hfill g List.mem_cons_self).2
  rw [applyOne_append hstart hstop, htext] at hrest
  simp only [hout, Bool.false_eq_true, if_false, String.utf8ByteSize_append, utf8ByteSize_filler] at hrest
  rw [List.foldl_cons, applyOne_append hstart hstop, htext, List.length_cons, Nat.succ_mul]
  simp only [hout, Bool.false_eq_true, if_false]
  omega

theorem lot_le_of_grown {text other : String} {size lot start : Nat} {es : List Edit}
    (hdesc : Descending es) (hfill : Filling text size lot es) (hgrown : Grown size start text other)
    (hstarts : ∀ e ∈ es, e.span.start ≤ start) (h : SomeReaches text start es) :
    lot ≤ (es.foldl applyOne other).utf8ByteSize + es.length * size := by
  induction es generalizing other start with
  | nil => simp [SomeReaches] at h
  | cons g es ih =>
    obtain ⟨hg, hdesc⟩ := List.pairwise_cons.1 hdesc
    have hfill' : Filling text size lot es := fun e he => hfill e (List.mem_cons_of_mem g he)
    obtain ⟨hstop, htext⟩ := hfill g List.mem_cons_self
    have hstart := hstarts g List.mem_cons_self
    cases hinside : g.isInside text with
    | true =>
      rw [hinside, if_pos rfl] at htext
      have hgrown := Grown.of_applyOne
        (hgrown.sameLead.shorten (beginsInside_of_isInside hinside) hstart)
        (hgrown.isInside hinside hstart hstop) htext
      have hrest := ih hdesc hfill' hgrown hg (h.after_inside hinside hstart)
      rw [List.foldl_cons, List.length_cons, Nat.succ_mul]
      omega
    | false =>
      cases hmade : g.isInside other with
      | true => exact lot_le_of_isInside hfill hinside hmade
      | false =>
        have hends : ¬ g.EndsPast text start := by
          rintro ⟨-, hbegins, hlt⟩
          rw [hgrown.isInside_of_lt hbegins hstart hlt hstop] at hmade
          cases hmade
        have hrest := ih hdesc hfill' hgrown (fun e he => hstarts e (List.mem_cons_of_mem g he))
          (h.after_outside hinside hends)
        rw [List.foldl_cons, applyOne_of_slice_eq_none (slice_of_isInside_eq_false hmade),
          List.length_cons, Nat.succ_mul]
        omega

theorem lot_le_of_reachesOver {text : String} {size lot : Nat} {es : List Edit} (hdesc : Descending es)
    (hfill : Filling text size lot es) (h : ¬ es.Pairwise fun f e => ¬ ReachesOver text e f) :
    lot ≤ (es.foldl applyOne text).utf8ByteSize + es.length * size := by
  induction es with
  | nil => simp at h
  | cons g es ih =>
    obtain ⟨hg, hdesc⟩ := List.pairwise_cons.1 hdesc
    have hfill' : Filling text size lot es := fun e he => hfill e (List.mem_cons_of_mem g he)
    rw [List.foldl_cons, List.length_cons, Nat.succ_mul]
    cases hinside : g.isInside text with
    | true =>
      have htext := (hfill g List.mem_cons_self).2
      rw [hinside, if_pos rfl] at htext
      have hgrown := Grown.of_applyOne ((SameLead.refl text).shorten (beginsInside_of_isInside hinside)
        (start_le_of_isInside hinside)) hinside htext
      have hrest := lot_le_of_grown hdesc hfill' hgrown hg (someReaches_of_isInside h hinside)
      omega
    | false =>
      have hrest := ih hdesc hfill' (not_pairwise_of_outside h hinside)
      rw [applyOne_of_slice_eq_none (slice_of_isInside_eq_false hinside)]
      omega

def withText (texts : Edit → String) (e : Edit) : Edit := { e with text := texts e }

theorem noneReachesOver_withText {text : String} {edits : List Edit} {texts : Edit → String} :
    NoneReachesOver text (edits.map (withText texts)) ↔ NoneReachesOver text edits := by
  unfold NoneReachesOver
  rw [backToFront_map (withText texts) (fun _ => rfl), List.pairwise_map]
  rfl

theorem filter_withText (text : String) (texts : Edit → String) (edits : List Edit) :
    (edits.map (withText texts)).filter (isInside text) =
      (edits.filter (isInside text)).map (withText texts) :=
  List.filter_map

/-- The edits outside of the text can be left out, whatever the edits put, just if none of them reaches
over the beginning of an edit inside of the text that is made before it. -/
theorem edits_outside_left_out_iff (text : String) (edits : List Edit) :
    (∀ texts : Edit → String, apply text ((edits.filter (isInside text)).map (withText texts)) =
      apply text (edits.map (withText texts))) ↔ NoneReachesOver text edits := by
  constructor
  · intro h
    by_contra hreach
    -- The edits inside of the text put what is longer than any edit reaches, the others so much
    -- that it cannot be lost again.
    let size := (edits.map fun e => e.span.stop).foldr max ⊥
    let lot := text.utf8ByteSize + edits.length * size + edits.length * size + 1
    let texts (e : Edit) : String := filler (if e.isInside text then size else lot)
    have hstop : ∀ e ∈ edits, e.span.stop ≤ size := fun e he =>
      List.le_max_of_le (List.mem_map_of_mem he) (Nat.le_refl _)
    have hperm := perm_backToFront (edits.map (withText texts))
    have hfill : Filling text size lot (backToFront (edits.map (withText texts))) := by
      intro e' he'
      obtain ⟨e, he, rfl⟩ := List.mem_map.1 (hperm.mem_iff.1 he')
      exact ⟨hstop e he, rfl⟩
    have hmore := lot_le_of_reachesOver (descending_backToFront _) hfill
      (mt noneReachesOver_withText.1 hreach)
    have hshort : ∀ e ∈ backToFront ((edits.filter (isInside text)).map (withText texts)),
        e.text.utf8ByteSize ≤ size := by
      intro e' he'
      obtain ⟨e, he, rfl⟩ := List.mem_map.1 ((perm_backToFront _).mem_iff.1 he')
      simp [withText, texts, (List.mem_filter.1 he).2]
    have hless := size_foldl_le hshort text
    rw [(perm_backToFront _).length_eq, List.length_map] at hmore hless
    have hkept := Nat.mul_le_mul_right size (List.length_filter_le (isInside text) edits)
    have hsame := congrArg String.utf8ByteSize (h texts)
    simp only [apply] at hsame
    omega
  · intro h texts
    rw [← filter_withText]
    exact apply_filter_isInside (noneReachesOver_withText.2 h)

/-- The second edit ends outside of `abc`, but not behind what the first one has put there. -/
example :
    apply "abc" [⟨⟨"/f.js"⟩, ⟨1, 2⟩, "onClick"⟩, ⟨⟨"/f.js"⟩, ⟨0, 6⟩, "x"⟩] = "xckc" ∧
      apply "abc" [⟨⟨"/f.js"⟩, ⟨1, 2⟩, "onClick"⟩] = "aonClickc" := by
  decide +kernel

end UiWorkspace.Edit
