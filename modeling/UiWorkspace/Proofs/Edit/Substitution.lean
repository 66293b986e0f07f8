import UiWorkspace.Proofs.Edit.Outside

/-! Edits that do not overlap. Made one after the other, each in the text that the ones behind it have
left, they come to the same as all of them made at their places in the text as it was. -/
namespace UiWorkspace.Edit

open UiWorkspace.Text

/-- What the edit that begins at the offset puts there. -/
def putAt (edits : List Edit) (pos : Nat) : List Char :=
  match edits.find? fun e => e.span.start == pos with
  | some e => e.text.toList
  | none => []

def isReplaced (edits : List Edit) (pos : Nat) : Bool :=
  edits.any fun e => e.span.start ≤ pos && pos < e.span.stop

/-- What becomes of the characters that stand from the offset on. -/
def replaced (edits : List Edit) (pos : Nat) : List Char → List Char
  | [] => putAt edits pos
  | c :: cs =>
    putAt edits pos ++ (if isReplaced edits pos then [] else [c]) ++
      replaced edits (pos + c.utf8Size) cs

/-- The text with each edit that selects a part of it made at its place, and no other. -/
def simultaneously (text : String) (edits : List Edit) : String :=
  String.ofList (replaced (edits.filter (isInside text)) 0 text.toList)

section Characters

variable {e : Edit} {es : List Edit} {pos : Nat} {cs rest : List Char}

theorem putAt_cons (e : Edit) (es : List Edit) (pos : Nat) :
    putAt (e :: es) pos = if e.span.start = pos then e.text.toList else putAt es pos := by
  by_cases hstart : e.span.start = pos <;> simp [putAt, hstart]

theorem putAt_of_lt (h : ∀ e ∈ es, pos < e.span.start) : putAt es pos = [] := by
  have hnone : es.find? (fun e => e.span.start == pos) = none :=
    List.find?_eq_none.2 fun e he heq => Nat.ne_of_gt (h e he) (beq_iff_eq.1 heq)
  rw [putAt, hnone]

theorem isReplaced_cons (e : Edit) (es : List Edit) (pos : Nat) :
    isReplaced (e :: es) pos = ((e.span.start ≤ pos && pos < e.span.stop) || isReplaced es pos) :=
  List.any_cons

theorem isReplaced_of_lt (h : ∀ e ∈ es, pos < e.span.start) : isReplaced es pos = false := by
  refine List.any_eq_false.2 fun e he => ?_
  have := h e he
  simp only [Bool.and_eq_true, decide_eq_true_eq]
  omega

theorem replaced_nil (pos : Nat) (cs : List Char) : replaced [] pos cs = cs := by
  induction cs generalizing pos with
  | nil => rfl
  | cons c cs ih => simp [replaced, putAt, isReplaced, ih]

theorem replaced_append (h : ∀ e ∈ es, pos + byteLength cs ≤ e.span.start) (rest : List Char) :
    replaced es pos (cs ++ rest) = cs ++ replaced es (pos + byteLength cs) rest := by
  induction cs generalizing pos with
  | nil => rfl
  | cons c cs ih =>
    have hpos := c.utf8Size_pos
    rw [byteLength, ← Nat.add_assoc] at h
    have hlt : ∀ e ∈ es, pos < e.span.start := fun e he => by
      have := h e he
      omega
    rw [List.cons_append, replaced, putAt_of_lt hlt, isReplaced_of_lt hlt, ih h, byteLength,
      Nat.add_assoc]
    rfl

theorem replaced_cons_of_le (hstart : e.span.start < pos) (hstop : e.span.stop ≤ pos) (cs : List Char) :
    replaced (e :: es) pos cs = replaced es pos cs := by
  induction cs generalizing pos with
  | nil => rw [replaced, replaced, putAt_cons, if_neg (Nat.ne_of_lt hstart)]
  | cons c cs ih =>
    have hreplaced : isReplaced (e :: es) pos = isReplaced es pos := by
      simp [isReplaced_cons, Nat.not_lt.2 hstop]
    rw [replaced, replaced, putAt_cons, if_neg (Nat.ne_of_lt hstart), hreplaced,
      ih (by omega) (by omega)]

theorem replaced_cons_of_lt (hes : ∀ f ∈ es, e.span.stop ≤ f.span.start) (hstart : e.span.start < pos)
    (hstop : pos + byteLength cs = e.span.stop) (rest : List Char) :
    replaced (e :: es) pos (cs ++ rest) = replaced es e.span.stop rest := by
  induction cs generalizing pos with
  | nil =>
    obtain rfl : pos = e.span.stop := hstop
    exact replaced_cons_of_le hstart (Nat.le_refl _) rest
  | cons c cs ih =>
    have hpos := c.utf8Size_pos
    rw [byteLength, ← Nat.add_assoc] at hstop
    have hput : putAt (e :: es) pos = [] := by
      rw [putAt_cons, if_neg (Nat.ne_of_lt hstart)]
      exact putAt_of_lt fun f hf => by
        have := hes f hf
        omega
    have hreplaced : isReplaced (e :: es) pos = true := by
      rw [isReplaced_cons, Bool.or_eq_true, Bool.and_eq_true, decide_eq_true_eq, decide_eq_true_eq]
      omega
    rw [List.cons_append, replaced, hput, hreplaced, ih (by omega) hstop]
    rfl

theorem replaced_cons_self {mid : List Char}
    (hes : ∀ f ∈ es, e.span.start < f.span.start ∧ e.span.stop ≤ f.span.start)
    (hstop : e.span.start + byteLength mid = e.span.stop) (rest : List Char) :
    replaced (e :: es) e.span.start (mid ++ rest) = e.text.toList ++ replaced es e.span.stop rest := by
  have hput : putAt (e :: es) e.span.start = e.text.toList := by rw [putAt_cons, if_pos rfl]
  have hother := isReplaced_of_lt fun f hf => (hes f hf).1
  cases mid with
  | cons c mid =>
    have hpos := c.utf8Size_pos
    rw [byteLength, ← Nat.add_assoc] at hstop
    have hreplaced : isReplaced (e :: es) e.span.start = true := by
      rw [isReplaced_cons, Bool.or_eq_true, Bool.and_eq_true, decide_eq_true_eq, decide_eq_true_eq]
      omega
    rw [List.cons_append, replaced, hput, hreplaced,
      replaced_cons_of_lt (fun f hf => (hes f hf).2) (by omega) hstop]
    simp
  | nil =>
    -- Nothing is taken away: the character behind the edit, if there is one, stays.
    have hempty : e.span.stop = e.span.start := hstop.symm
    have hnone := putAt_of_lt fun f hf => (hes f hf).1
    rw [hempty]
    cases rest with
    | nil => rw [List.nil_append, replaced, replaced, hput, hnone, List.append_nil]
    | cons c rest =>
      have hpos := c.utf8Size_pos
      have hreplaced : isReplaced (e :: es) e.span.start = false := by
        simp [isReplaced_cons, hother, hempty]
      rw [List.nil_append, replaced, replaced, hput, hreplaced, hnone, hother,
        replaced_cons_of_le (by omega) (by omega)]
      simp

end Characters

theorem replaced_perm {es es' : List Edit} (hperm : es.Perm es')
    (hsame : ∀ e ∈ es, ∀ f ∈ es, e.span.start = f.span.start → e = f) (pos : Nat) (cs : List Char) :
    replaced es pos cs = replaced es' pos cs := by
  have hput : putAt es = putAt es' := by
    funext pos
    unfold putAt
    cases hes : es.find? fun e => e.span.start == pos with
    | none =>
      have hnone : es'.find? (fun e => e.span.start == pos) = none :=
        List.find?_eq_none.2 fun e he => List.find?_eq_none.1 hes e (hperm.mem_iff.2 he)
      rw [hnone]
    | some e =>
      have he := List.mem_of_find?_eq_some hes
      have hpos := List.find?_some hes
      have hfound : (es'.find? fun e => e.span.start == pos).isSome :=
        List.find?_isSome.2 ⟨e, hperm.mem_iff.1 he, hpos⟩
      obtain ⟨f, hf⟩ := Option.isSome_iff_exists.1 hfound
      have hfpos := List.find?_some hf
      rw [hf, hsame e he f (hperm.mem_iff.2 (List.mem_of_find?_eq_some hf))
        ((beq_iff_eq.1 hpos).trans (beq_iff_eq.1 hfpos).symm)]
  have hreplaced : isReplaced es = isReplaced es' := funext fun pos => hperm.any_eq
  induction cs generalizing pos with
  | nil => rw [replaced, replaced, hput]
  | cons c cs ih => rw [replaced, replaced, hput, hreplaced, ih]

/-- The edits begin one after the other, each where the ones before it have ended. -/
def Successive (es : List Edit) : Prop :=
  es.Pairwise fun e f => e.span.start < f.span.start ∧ e.span.stop ≤ f.span.start

theorem successive_reverse {edits : List Edit} (hstarts : (edits.map fun e => e.span.start).Nodup)
    (hends : ∀ e ∈ edits, ∀ f ∈ edits, e.span.start < f.span.start → e.span.stop ≤ f.span.start) :
    Successive (backToFront edits).reverse := by
  have hperm := perm_backToFront edits
  have hne : (backToFront edits).Pairwise fun f e => f.span.start ≠ e.span.start :=
    List.pairwise_map.1 ((hperm.map _).nodup_iff.2 hstarts)
  refine List.pairwise_reverse.2 (((descending_backToFront edits).and hne).imp_of_mem ?_)
  intro f e hf he h
  have hlt : e.span.start < f.span.start := Nat.lt_of_le_of_ne h.1 h.2.symm
  exact ⟨hlt, hends e (hperm.mem_iff.1 he) f (hperm.mem_iff.1 hf) hlt⟩

theorem Successive.noneReachesOver {edits : List Edit} (h : Successive (backToFront edits).reverse)
    (text : String) : NoneReachesOver text edits := by
  refine (List.pairwise_reverse.1 h).imp ?_
  rintro f e ⟨-, hends⟩ ⟨-, -, -, hlt⟩
  exact Nat.not_lt.2 hends hlt

theorem Successive.foldr_applyOne {es : List Edit} {text : String} (h : Successive es)
    (hinside : ∀ e ∈ es, e.isInside text = true) :
    es.foldr (fun e text => applyOne text e) text = String.ofList (replaced es 0 text.toList) := by
  induction es with
  | nil =>
    rw [replaced_nil, String.ofList_toList]
    rfl
  | cons e es ih =>
    obtain ⟨hes, h⟩ := List.pairwise_cons.1 h
    obtain ⟨before, mid, behind, rfl, hstart, hstop⟩ :=
      exists_cut_of_isInside (hinside e List.mem_cons_self)
    rw [← String.ofList_toList (s := before), utf8ByteSize_ofList] at hstart hstop
    rw [← String.ofList_toList (s := mid), utf8ByteSize_ofList] at hstop
    -- The other edits leave all that stands before the end of this one.
    have hrest : replaced es 0 (before ++ mid ++ behind).toList =
        (before ++ mid).toList ++ replaced es e.span.stop behind.toList := by
      rw [String.toList_append, replaced_append]
      · simp [hstop]
      · intro f hf
        have := (hes f hf).2
        simp only [String.toList_append, byteLength_append]
        omega
    have hself : replaced (e :: es) 0 (before ++ mid ++ behind).toList =
        before.toList ++ (e.text.toList ++ replaced es e.span.stop behind.toList) := by
      rw [String.append_assoc, String.toList_append, replaced_append, Nat.zero_add, hstart,
        String.toList_append, replaced_cons_self hes (by omega)]
      intro f hf
      rcases List.mem_cons.1 hf with rfl | hf
      · omega
      · have := (hes f hf).1
        omega
    rw [List.foldr_cons, ih h fun f hf => hinside f (List.mem_cons_of_mem e hf), hrest, hself,
      String.ofList_append, String.ofList_append, String.ofList_append, String.ofList_toList,
      String.ofList_toList, String.ofList_toList, applyOne_append, String.append_assoc]
    · rw [← hstart, ← utf8ByteSize_ofList, String.ofList_toList]
    · rw [← hstop, ← utf8ByteSize_ofList, ← utf8ByteSize_ofList, String.ofList_toList,
        String.ofList_toList]

theorem apply_eq_replaced {text : String} {edits : List Edit}
    (hstarts : (edits.map fun e => e.span.start).Nodup)
    (hends : ∀ e ∈ edits, ∀ f ∈ edits, e.span.start < f.span.start → e.span.stop ≤ f.span.start)
    (hinside : ∀ e ∈ edits, e.isInside text = true) :
    apply text edits = String.ofList (replaced edits 0 text.toList) := by
  have hperm : edits.Perm (backToFront edits).reverse :=
    (perm_backToFront edits).symm.trans (List.reverse_perm _).symm
  have hinside' : ∀ e ∈ (backToFront edits).reverse, e.isInside text = true :=
    fun e he => hinside e (hperm.mem_iff.2 he)
  calc apply text edits
      = (backToFront edits).reverse.foldr (fun e text => applyOne text e) text := by
        rw [apply, List.foldr_reverse]
    _ = String.ofList (replaced (backToFront edits).reverse 0 text.toList) :=
        (successive_reverse hstarts hends).foldr_applyOne hinside'
    _ = String.ofList (replaced edits 0 text.toList) := by
        rw [replaced_perm hperm (eq_of_start_eq hstarts)]

/-- Edits with different starts, each of which ends before the later ones start, come to one text in
whatever order they are listed: the text with all of them made at their places. -/
theorem apply_simultaneous (text : String) {edits : List Edit}
    (hstarts : (edits.map fun e => e.span.start).Nodup)
    (hends : ∀ e ∈ edits, ∀ f ∈ edits, e.span.start < f.span.start → e.span.stop ≤ f.span.start) :
    apply text edits = simultaneously text edits ∧
      ∀ edits', edits'.Perm edits → apply text edits' = apply text edits := by
  constructor
  · have hmem : ∀ {e}, e ∈ edits.filter (isInside text) → e ∈ edits := List.mem_of_mem_filter
    have hstarts' : ((edits.filter (isInside text)).map fun e => e.span.start).Nodup :=
      hstarts.sublist (List.filter_sublist.map _)
    rw [← apply_filter_isInside ((successive_reverse hstarts hends).noneReachesOver text)]
    exact apply_eq_replaced hstarts' (fun e he f hf => hends e (hmem he) f (hmem hf))
      fun e he => (List.mem_filter.1 he).2
  · intro edits' hperm
    rw [apply, apply, backToFront_perm hperm.symm (eq_of_start_eq hstarts)]

/-- A replacement behind a character of two bytes, an edit that ends within that character, a deletion,
an insertion and an edit that ends before it begins. -/
def sampleEdits : List Edit :=
  [⟨⟨"/f.js"⟩, ⟨4, 6⟩, "vität"⟩, ⟨⟨"/f.js"⟩, ⟨2, 3⟩, "i"⟩, ⟨⟨"/f.js"⟩, ⟨0, 1⟩, ""⟩,
    ⟨⟨"/f.js"⟩, ⟨1, 1⟩, "N"⟩, ⟨⟨"/f.js"⟩, ⟨9, 5⟩, "x"⟩]

theorem apply_simultaneous_sample :
    (sampleEdits.map fun e => e.span.start).Nodup ∧
      (∀ e ∈ sampleEdits, ∀ f ∈ sampleEdits, e.span.start < f.span.start → e.span.stop ≤ f.span.start) ∧
      apply "naïve" sampleEdits = "Naïvität" ∧ apply "naïve" sampleEdits.reverse = "Naïvität" := by
  have hstarts : (sampleEdits.map fun e => e.span.start).Nodup := by decide
  have hends : ∀ e ∈ sampleEdits, ∀ f ∈ sampleEdits,
      e.span.start < f.span.start → e.span.stop ≤ f.span.start := by decide
  have hsample := apply_simultaneous "naïve" hstarts hends
  have hresult : simultaneously "naïve" sampleEdits = "Naïvität" := by decide +kernel
  refine ⟨hstarts, hends, hsample.1.trans hresult, ?_⟩
  rw [hsample.2 _ (List.reverse_perm sampleEdits), hsample.1, hresult]

end UiWorkspace.Edit
