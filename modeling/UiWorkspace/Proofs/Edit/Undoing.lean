import Mathlib.Algebra.GroupWithZero.Nat
import UiWorkspace.Proofs.Edit.Order
import UiWorkspace.Proofs.Text.Pieces

/-! A name put in the place of another at several places of a text, and the old name put back at the
places where the new one has come to stand. -/
namespace UiWorkspace.Edit

open UiWorkspace.Text

/-- The edits that put a name in the place of each range. -/
def putting (path : FilePath) (name : String) (ranges : List Span) : List Edit :=
  ranges.map fun r => ⟨path, r, name⟩

theorem putting_cons (path : FilePath) (name : String) (r : Span) (ranges : List Span) :
    putting path name (r :: ranges) = ⟨path, r, name⟩ :: putting path name ranges :=
  rfl

def addedBy (es : List Edit) : Nat := (es.map fun e => e.text.utf8ByteSize).sum

def removedBy (es : List Edit) : Nat := (es.map fun e => e.span.size).sum

/-- Where the text of an edit stands once all are made: the edits that start earlier have moved it by
what they have added and removed. -/
def placeAfter (edits : List Edit) (e : Edit) : Span :=
  let earlier := edits.filter fun f => f.span.start < e.span.start
  let start := e.span.start + addedBy earlier - removedBy earlier
  ⟨start, start + e.text.utf8ByteSize⟩

theorem placeAfter_perm {edits edits' : List Edit} (h : edits.Perm edits') :
    placeAfter edits = placeAfter edits' := by
  funext e
  have hearlier := h.filter fun f => f.span.start < e.span.start
  simp only [placeAfter, addedBy, removedBy, (hearlier.map _).sum_nat]

def spaced (name behind : String) : List String → String
  | [] => behind
  | gap :: gaps => gap ++ name ++ spaced name behind gaps

def sites (name : String) (pos : Nat) : List String → List Span
  | [] => []
  | gap :: gaps =>
    ⟨pos + gap.utf8ByteSize, pos + gap.utf8ByteSize + name.utf8ByteSize⟩ ::
      sites name (pos + gap.utf8ByteSize + name.utf8ByteSize) gaps

theorem sites_at_size (before name gap : String) (gaps : List String) :
    sites name before.utf8ByteSize (gap :: gaps) =
      ⟨(before ++ gap).utf8ByteSize, (before ++ gap ++ name).utf8ByteSize⟩ ::
        sites name (before ++ gap ++ name).utf8ByteSize gaps := by
  simp only [sites, String.utf8ByteSize_append]

theorem start_of_mem_sites {name : String} {pos : Nat} {gaps : List String} {r : Span}
    (h : r ∈ sites name pos gaps) : pos ≤ r.start ∧ r.stop = r.start + name.utf8ByteSize := by
  induction gaps generalizing pos with
  | nil => cases h
  | cons gap gaps ih =>
    rcases List.mem_cons.1 h with rfl | h
    · exact ⟨Nat.le_add_right _ _, rfl⟩
    · have := ih h
      omega

theorem sites_ascending (name : String) (pos : Nat) (gaps : List String) :
    (sites name pos gaps).Pairwise fun r s => r.start ≤ s.start := by
  induction gaps generalizing pos with
  | nil => exact .nil
  | cons gap gaps ih =>
    refine List.pairwise_cons.2 ⟨fun s hs => ?_, ih _⟩
    have := (start_of_mem_sites hs).1
    simp only
    omega

theorem slice_of_mem_sites {before name behind : String} {gaps : List String} {r : Span}
    (h : r ∈ sites name before.utf8ByteSize gaps) :
    r.slice (before ++ spaced name behind gaps) = some name := by
  induction gaps generalizing before with
  | nil => cases h
  | cons gap gaps ih =>
    rw [sites_at_size] at h
    rw [spaced, ← String.append_assoc, ← String.append_assoc]
    rcases List.mem_cons.1 h with rfl | h
    · exact Span.slice_eq_some_iff.2
        ⟨before ++ gap, spaced name behind gaps, rfl, rfl, String.utf8ByteSize_append.symm⟩
    · exact ih h

theorem foldr_putting_sites (path : FilePath) (before old new behind : String) (gaps : List String) :
    (putting path new (sites old before.utf8ByteSize gaps)).foldr (fun e text => applyOne text e)
        (before ++ spaced old behind gaps) = before ++ spaced new behind gaps := by
  induction gaps generalizing before with
  | nil => rfl
  | cons gap gaps ih =>
    rw [sites_at_size, spaced, spaced, putting_cons, List.foldr_cons, ← String.append_assoc,
      ← String.append_assoc, ih, applyOne_append rfl String.utf8ByteSize_append.symm]
    simp only [String.append_assoc]

theorem apply_putting {path : FilePath} {old new behind : String} {gaps : List String}
    {ranges : List Span} (hperm : ranges.Perm (sites old 0 gaps)) :
    apply (spaced old behind gaps) (putting path new ranges) = spaced new behind gaps := by
  have hedits : (putting path new ranges).Perm (putting path new (sites old 0 gaps)) := hperm.map _
  rw [apply_eq_foldr hedits (List.pairwise_map.2 (sites_ascending old 0 gaps))]
  · simpa using foldr_putting_sites path "" old new behind gaps
  · intro e he f hf hstart
    obtain ⟨r, hr, rfl⟩ := List.mem_map.1 he
    obtain ⟨s, hs, rfl⟩ := List.mem_map.1 hf
    have hrstop := (start_of_mem_sites (hperm.mem_iff.1 hr)).2
    have hsstop := (start_of_mem_sites (hperm.mem_iff.1 hs)).2
    obtain ⟨start, stop⟩ := r
    obtain ⟨start', stop'⟩ := s
    simp only at hstart hrstop hsstop
    rw [hstart, hrstop, hsstop, hstart]

theorem earlier_eq {done es : List Edit} {e : Edit}
    (h : (done ++ e :: es).Pairwise fun e f => e.span.start < f.span.start) :
    (done ++ e :: es).filter (fun f => f.span.start < e.span.start) = done := by
  obtain ⟨-, hrest, hdone⟩ := List.pairwise_append.1 h
  have hlater := (List.pairwise_cons.1 hrest).1
  rw [List.filter_append, List.filter_cons_of_neg (by simp),
    List.filter_eq_self.2 fun f hf => decide_eq_true (hdone f hf e List.mem_cons_self),
    List.filter_eq_nil_iff.2 fun f hf => by simpa using Nat.le_of_lt (hlater f hf), List.append_nil]

theorem map_placeAfter_sites {path : FilePath} {old new : String} {gaps : List String} {done : List Edit}
    {pos pos' : Nat}
    (h : (done ++ putting path new (sites old pos gaps)).Pairwise fun e f => e.span.start < f.span.start)
    (hmoved : pos' + removedBy done = pos + addedBy done) :
    (putting path new (sites old pos gaps)).map
      (placeAfter (done ++ putting path new (sites old pos gaps))) = sites new pos' gaps := by
  induction gaps generalizing done pos pos' with
  | nil => rfl
  | cons gap gaps ih =>
    simp only [sites, putting_cons, List.map_cons] at h ⊢
    generalize he : (⟨path, ⟨pos + gap.utf8ByteSize, pos + gap.utf8ByteSize + old.utf8ByteSize⟩, new⟩ : Edit)
      = e at h ⊢
    have hplace : placeAfter (done ++ e :: putting path new
        (sites old (pos + gap.utf8ByteSize + old.utf8ByteSize) gaps)) e =
          ⟨pos' + gap.utf8ByteSize, pos' + gap.utf8ByteSize + new.utf8ByteSize⟩ := by
      have hstart : e.span.start + addedBy done - removedBy done = pos' + gap.utf8ByteSize := by
        rw [← he]
        simp only
        omega
      simp only [placeAfter, earlier_eq h, hstart]
      rw [← he]
    have hadded : addedBy (done ++ [e]) = addedBy done + new.utf8ByteSize := by
      simp [addedBy, ← he]
    have hremoved : removedBy (done ++ [e]) = removedBy done + old.utf8ByteSize := by
      simp [removedBy, Span.size, ← he]
    rw [← List.singleton_append, ← List.append_assoc] at h
    have hnext : pos' + gap.utf8ByteSize + new.utf8ByteSize + removedBy (done ++ [e]) =
        pos + gap.utf8ByteSize + old.utf8ByteSize + addedBy (done ++ [e]) := by
      omega
    have hrest := ih h hnext
    rw [List.append_assoc, List.singleton_append] at hrest
    rw [hplace, hrest]

theorem exists_gaps {before rest name : String} {ranges : List Span}
    (hslice : ∀ r ∈ ranges, r.slice (before ++ rest) = some name)
    (hlead : ∀ r ∈ ranges, before.utf8ByteSize ≤ r.start)
    (happart : ranges.Pairwise fun r s => r.stop ≤ s.start) :
    ∃ gaps behind, rest = spaced name behind gaps ∧ ranges = sites name before.utf8ByteSize gaps := by
  induction ranges generalizing before rest with
  | nil => exact ⟨[], rest, rfl, rfl⟩
  | cons r ranges ih =>
    obtain ⟨hr, happart⟩ := List.pairwise_cons.1 happart
    obtain ⟨lead, behind, htext, hstart, hstop⟩ := Span.slice_eq_some_iff.1 (hslice r List.mem_cons_self)
    obtain ⟨gap, rfl, rfl⟩ := exists_append_of_size_le (htext.trans String.append_assoc)
      (by simpa only [hstart] using hlead r List.mem_cons_self)
    rw [← String.utf8ByteSize_append] at hstop
    have hslice' : ∀ s ∈ ranges, s.slice (before ++ gap ++ name ++ behind) = some name := fun s hs => by
      rw [← htext]
      exact hslice s (List.mem_cons_of_mem r hs)
    have hlead' : ∀ s ∈ ranges, (before ++ gap ++ name).utf8ByteSize ≤ s.start := fun s hs => by
      rw [hstop]
      exact hr s hs
    obtain ⟨gaps, last, rfl, rfl⟩ := ih hslice' hlead' happart
    refine ⟨gap :: gaps, last, by rw [spaced, String.append_assoc], ?_⟩
    rw [sites_at_size, hstart, hstop]

theorem exists_gaps_of_apart {text name : String} {ranges : List Span}
    (hslice : ∀ r ∈ ranges, r.slice text = some name) (hapart : ranges.Pairwise Span.Apart)
    (hstarts : (ranges.map Span.start).Nodup) :
    ∃ gaps behind, text = spaced name behind gaps ∧ ranges.Perm (sites name 0 gaps) ∧
      (sites name 0 gaps).Pairwise fun r s => r.start < s.start := by
  have hperm := List.mergeSort_perm ranges fun r s => r.start ≤ s.start
  have hascending : (ranges.mergeSort fun r s => r.start ≤ s.start).Pairwise fun r s => r.start ≤ s.start := by
    refine (List.pairwise_mergeSort (fun r s t hrs hst => ?_) (fun r s => ?_) ranges).imp of_decide_eq_true
    · simp only [decide_eq_true_eq] at hrs hst ⊢
      exact Nat.le_trans hrs hst
    · simpa using Nat.le_total r.start s.start
  generalize ranges.mergeSort (fun r s => r.start ≤ s.start) = sorted at hperm hascending
  have hslice : ∀ r ∈ sorted, r.slice text = some name := fun r hr => hslice r (hperm.mem_iff.1 hr)
  have hlt : sorted.Pairwise fun r s => r.start < s.start :=
    (hascending.and (List.pairwise_map.1 ((hperm.map _).nodup_iff.2 hstarts))).imp
      fun h => Nat.lt_of_le_of_ne h.1 h.2
  have hnext : sorted.Pairwise fun r s => r.stop ≤ s.start := by
    refine (hlt.and ((hperm.symm.pairwise_iff Span.Apart.symm).1 hapart)).imp_of_mem ?_
    rintro r s - hs ⟨hlt, hstop | hstop⟩
    · exact hstop
    · have := Span.start_le_stop (Option.isSome_of_eq_some (hslice s hs))
      omega
  rw [← String.empty_append (s := text)] at hslice
  obtain ⟨gaps, behind, htext, rfl⟩ := exists_gaps hslice (by simp) hnext
  exact ⟨gaps, behind, htext, hperm.symm, hlt⟩

/-- Where a name has been put in the place of another, it stands at the places of the edits, each moved
by the edits that start earlier, and the old name put back there gives the text again. -/
theorem edits_undone (path : FilePath) {text old : String} (new : String) {ranges : List Span}
    (hslice : ∀ r ∈ ranges, r.slice text = some old) (hapart : ranges.Pairwise Span.Apart)
    (hstarts : (ranges.map Span.start).Nodup) :
    let edits := putting path new ranges
    let edited := apply text edits
    let places := edits.map (placeAfter edits)
    (∀ r ∈ places, r.slice edited = some new) ∧ apply edited (putting path old places) = text := by
  obtain ⟨gaps, behind, rfl, hperm, hlt⟩ := exists_gaps_of_apart hslice hapart hstarts
  have hedits : (putting path new ranges).Perm (putting path new (sites old 0 gaps)) := hperm.map _
  have hplaces : ((putting path new ranges).map (placeAfter (putting path new ranges))).Perm
      (sites new 0 gaps) := by
    have hstrict : (([] : List Edit) ++ putting path new (sites old 0 gaps)).Pairwise fun e f =>
        e.span.start < f.span.start := List.pairwise_map.2 hlt
    have hzero : 0 + removedBy [] = 0 + addedBy [] := rfl
    have hmoved := map_placeAfter_sites hstrict hzero
    rw [List.nil_append] at hmoved
    rw [placeAfter_perm hedits, ← hmoved]
    exact hedits.map _
  dsimp only
  rw [apply_putting hperm]
  refine ⟨fun r hr => ?_, apply_putting hplaces⟩
  have hnew : r.slice ("" ++ spaced new behind gaps) = some new :=
    slice_of_mem_sites (hplaces.mem_iff.1 hr)
  rwa [String.empty_append] at hnew

def sampleRanges : List Span := [⟨11, 14⟩, ⟨3, 6⟩]

theorem edits_undone_sample :
    (∀ r ∈ sampleRanges, r.slice "é(old, é old)" = some "old") ∧ sampleRanges.Pairwise Span.Apart ∧
      (sampleRanges.map Span.start).Nodup ∧
      let edits := putting ⟨"/f.js"⟩ "größe" sampleRanges
      apply "é(old, é old)" edits = "é(größe, é größe)" ∧
        edits.map (placeAfter edits) = [⟨15, 22⟩, ⟨3, 10⟩] ∧
        (∀ r ∈ [Span.mk 15 22, ⟨3, 10⟩], r.slice "é(größe, é größe)" = some "größe") ∧
        apply "é(größe, é größe)" (putting ⟨"/f.js"⟩ "old" [⟨15, 22⟩, ⟨3, 10⟩]) = "é(old, é old)" := by
  have hslice : ∀ r ∈ sampleRanges, r.slice "é(old, é old)" = some "old" := by decide +kernel
  have hapart : sampleRanges.Pairwise Span.Apart := by decide
  have hstarts : (sampleRanges.map Span.start).Nodup := by decide
  have hedited : apply "é(old, é old)" (putting ⟨"/f.js"⟩ "größe" sampleRanges) = "é(größe, é größe)" := by
    decide +kernel
  have hplaces : (putting ⟨"/f.js"⟩ "größe" sampleRanges).map
      (placeAfter (putting ⟨"/f.js"⟩ "größe" sampleRanges)) = [⟨15, 22⟩, ⟨3, 10⟩] := by decide +kernel
  have hsample := edits_undone ⟨"/f.js"⟩ "größe" hslice hapart hstarts
  dsimp only at hsample
  rw [hedited, hplaces] at hsample
  exact ⟨hslice, hapart, hstarts, hedited, hplaces, hsample⟩

end UiWorkspace.Edit
