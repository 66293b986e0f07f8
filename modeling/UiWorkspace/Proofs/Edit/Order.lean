import Mathlib.Data.List.Induction
import Mathlib.Data.List.Nodup
import Mathlib.Data.List.Perm.Basic
import UiWorkspace.Edit

/-! The order in which edits are made: sorted by their starts, the last start first. Edits with the
same start keep their order, so that leaving edits out, or giving them other texts, does not disturb
the others. -/
namespace UiWorkspace.Edit

def Descending (es : List Edit) : Prop := es.Pairwise fun f e => e.span.start ≤ f.span.start

theorem backToFront_concat (es : List Edit) (e : Edit) :
    backToFront (es ++ [e]) = insertByStart e (backToFront es) := by
  simp [backToFront]

theorem perm_insertByStart (e : Edit) (es : List Edit) : (insertByStart e es).Perm (e :: es) := by
  induction es with
  | nil => exact .refl _
  | cons f es ih =>
    unfold insertByStart
    split
    · exact .refl _
    · exact (ih.cons f).trans (.swap e f es)

theorem perm_backToFront (es : List Edit) : (backToFront es).Perm es := by
  induction es using List.reverseRecOn with
  | nil => exact .refl _
  | append_singleton es e ih =>
    rw [backToFront_concat]
    exact (perm_insertByStart e _).trans ((ih.cons e).trans (List.perm_append_singleton e es).symm)

theorem mem_insertByStart {e f : Edit} {es : List Edit} : f ∈ insertByStart e es ↔ f = e ∨ f ∈ es :=
  (perm_insertByStart e es).mem_iff.trans List.mem_cons

theorem Descending.insertByStart {es : List Edit} (h : Descending es) (e : Edit) :
    Descending (insertByStart e es) := by
  induction es with
  | nil => exact List.pairwise_singleton _ e
  | cons f es ih =>
    obtain ⟨hf, hes⟩ := List.pairwise_cons.1 h
    unfold Edit.insertByStart
    split
    next hlt =>
      refine List.pairwise_cons.2 ⟨fun g hg => ?_, h⟩
      rcases List.mem_cons.1 hg with rfl | hg
      · omega
      · have := hf g hg
        omega
    next hle =>
      refine List.pairwise_cons.2 ⟨fun g hg => ?_, ih hes⟩
      rcases mem_insertByStart.1 hg with rfl | hg
      · omega
      · exact hf g hg

theorem descending_backToFront (es : List Edit) : Descending (backToFront es) := by
  induction es using List.reverseRecOn with
  | nil => exact .nil
  | append_singleton es e ih =>
    rw [backToFront_concat]
    exact ih.insertByStart e

theorem insertByStart_of_lt {e : Edit} {es : List Edit} (h : ∀ f ∈ es, f.span.start < e.span.start) :
    insertByStart e es = e :: es := by
  cases es with
  | nil => rfl
  | cons f es => simp [insertByStart, h f List.mem_cons_self]

theorem insertByStart_of_le {e f : Edit} (h : e.span.start ≤ f.span.start) (es : List Edit) :
    insertByStart e (f :: es) = f :: insertByStart e es :=
  if_neg (Nat.not_lt.2 h)

theorem Descending.filter_insertByStart {es : List Edit} (h : Descending es) (keep : Edit → Bool)
    (e : Edit) : (Edit.insertByStart e es).filter keep =
      if keep e then Edit.insertByStart e (es.filter keep) else es.filter keep := by
  induction es with
  | nil => cases hkeep : keep e <;> simp [Edit.insertByStart, hkeep]
  | cons f es ih =>
    obtain ⟨hf, hes⟩ := List.pairwise_cons.1 h
    by_cases hlt : f.span.start < e.span.start
    · -- All of the list starts earlier than the new edit, and so does what is kept of it.
      have hearlier : ∀ g ∈ f :: es, g.span.start < e.span.start := by
        intro g hg
        rcases List.mem_cons.1 hg with rfl | hg
        · exact hlt
        · exact Nat.lt_of_le_of_lt (hf g hg) hlt
      rw [insertByStart_of_lt hearlier,
        insertByStart_of_lt fun g hg => hearlier g (List.mem_filter.1 hg).1, List.filter_cons]
    · have hle := Nat.le_of_not_lt hlt
      rw [insertByStart_of_le hle, List.filter_cons, List.filter_cons, ih hes]
      cases keep e <;> cases keep f <;> simp [insertByStart_of_le hle]

theorem backToFront_filter (keep : Edit → Bool) (es : List Edit) :
    backToFront (es.filter keep) = (backToFront es).filter keep := by
  induction es using List.reverseRecOn with
  | nil => rfl
  | append_singleton es e ih =>
    rw [backToFront_concat, (descending_backToFront es).filter_insertByStart, ← ih, List.filter_append]
    cases hkeep : keep e <;> simp [hkeep, backToFront_concat]

theorem backToFront_map (change : Edit → Edit) (h : ∀ e, (change e).span = e.span) (es : List Edit) :
    backToFront (es.map change) = (backToFront es).map change := by
  have hinsert : ∀ (e : Edit) (es : List Edit),
      insertByStart (change e) (es.map change) = (insertByStart e es).map change := by
    intro e es
    induction es with
    | nil => rfl
    | cons f es ih =>
      simp only [List.map_cons, insertByStart, h, ih]
      split <;> rfl
  induction es using List.reverseRecOn with
  | nil => rfl
  | append_singleton es e ih =>
    rw [List.map_append, List.map_singleton, backToFront_concat, backToFront_concat, ih, hinsert]

/-- Where edits with the same start are the same, any order of the list leads to the same. -/
theorem backToFront_eq_reverse {es sorted : List Edit} (hperm : es.Perm sorted)
    (hsorted : sorted.Pairwise fun e f => e.span.start ≤ f.span.start)
    (hsame : ∀ e ∈ es, ∀ f ∈ es, e.span.start = f.span.start → e = f) :
    backToFront es = sorted.reverse := by
  have hes := perm_backToFront es
  refine (hes.trans (hperm.trans sorted.reverse_perm.symm)).eq_of_pairwise (fun e f he hf hfe hef => ?_)
    (descending_backToFront es) (List.pairwise_reverse.2 hsorted)
  have hf : f ∈ es := hperm.mem_iff.2 (List.mem_reverse.1 hf)
  exact hsame e (hes.mem_iff.1 he) f hf (Nat.le_antisymm hef hfe)

theorem backToFront_perm {es es' : List Edit} (hperm : es.Perm es')
    (hsame : ∀ e ∈ es, ∀ f ∈ es, e.span.start = f.span.start → e = f) :
    backToFront es = backToFront es' := by
  have hsorted : es.Perm (backToFront es').reverse :=
    hperm.trans ((perm_backToFront es').symm.trans (List.reverse_perm _).symm)
  rw [backToFront_eq_reverse hsorted (List.pairwise_reverse.2 (descending_backToFront es')) hsame,
    List.reverse_reverse]

theorem apply_eq_foldr {es sorted : List Edit} (hperm : es.Perm sorted)
    (hsorted : sorted.Pairwise fun e f => e.span.start ≤ f.span.start)
    (hsame : ∀ e ∈ es, ∀ f ∈ es, e.span.start = f.span.start → e = f) (text : String) :
    apply text es = sorted.foldr (fun e text => applyOne text e) text := by
  rw [apply, backToFront_eq_reverse hperm hsorted hsame, List.foldl_reverse]

theorem eq_of_start_eq {es : List Edit} (h : (es.map fun e => e.span.start).Nodup) :
    ∀ e ∈ es, ∀ f ∈ es, e.span.start = f.span.start → e = f :=
  fun _ he _ hf => List.inj_on_of_nodup_map h he hf

theorem apply_of_increasing {es : List Edit} (h : es.Pairwise fun e f => e.span.start < f.span.start)
    (text : String) : apply text es = es.foldr (fun e text => applyOne text e) text :=
  apply_eq_foldr (.refl es) (h.imp Nat.le_of_lt)
    (eq_of_start_eq (List.pairwise_map.2 (h.imp Nat.ne_of_lt))) text

end UiWorkspace.Edit
