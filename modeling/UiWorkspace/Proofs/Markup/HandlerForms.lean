import UiWorkspace.Proofs.Markup.HandlerRenaming
import UiWorkspace.Proofs.Markup.TagGeometry

/-! Values that name a handler, and the places of the names. A value has a handler name exactly if it has
the form of one; names in different values are kept apart by the quotes around these, so that no offset
touches two of them. -/
namespace UiWorkspace.Markup

open UiWorkspace.Text

def startsIdentifier (c : Char) : Bool := c.isAlpha || c == '_' || c == '$'

/-- `[A-Za-z_$][A-Za-z0-9_$]*` -/
def IsIdentifier : List Char → Prop
  | [] => False
  | first :: rest =>
    startsIdentifier first = true ∧ ∀ c ∈ rest, startsIdentifier c = true ∨ c.isDigit = true

/-- A value cut into the parts of a handler: between blanks there stand perhaps a dot, then a name, then
perhaps arguments in parentheses. -/
structure HandlerForm (value : List Char) where
  blanks : List Char
  dot : List Char
  name : List Char
  arguments : List Char
  trailing : List Char
  value_eq : value = blanks ++ (dot ++ name ++ arguments ++ trailing)
  isBlank_blanks : ∀ c ∈ blanks, isBlank c = true
  optional_dot : dot = [] ∨ dot = ['.']
  isIdentifier_name : IsIdentifier name
  parenthesized_arguments : arguments = [] ∨ ∃ inner, arguments = '(' :: (inner ++ [')'])
  isBlank_trailing : ∀ c ∈ trailing, isBlank c = true

def HandlerForm.nameSpan {value : List Char} (form : HandlerForm value) : Span :=
  ⟨byteLength (form.blanks ++ form.dot), byteLength (form.blanks ++ form.dot ++ form.name)⟩

theorem not_isDigit_of_isAlpha {c : Char} (h : c.isAlpha = true) : c.isDigit = false := by
  refine Bool.eq_false_iff.2 fun hdigit => ?_
  have hnine : c.val ≤ 57 := of_decide_eq_true (Bool.and_eq_true_iff.1 hdigit).2
  have hletter : 65 ≤ c.val := by
    rcases Bool.or_eq_true_iff.1 h with hupper | hlower
    · exact (of_decide_eq_true hupper).1
    · exact UInt32.le_trans (by decide) (of_decide_eq_true (Bool.and_eq_true_iff.1 hlower).1)
  exact absurd (UInt32.le_trans hletter hnine) (by decide)

theorem startsIdentifier_iff {c : Char} :
    startsIdentifier c = true ↔ isNameChar c = true ∧ c.isDigit = false := by
  have hsigns : c = '_' ∨ c = '$' → c.isDigit = false := by
    rintro (rfl | rfl) <;> rfl
  have hletter := @not_isDigit_of_isAlpha c
  simp only [startsIdentifier, isNameChar, Char.isAlphanum, Bool.or_eq_true, beq_iff_eq]
  cases hdigit : c.isDigit with
  | false => simp
  | true => simp_all

theorem isNameChar_iff {c : Char} : isNameChar c = true ↔ startsIdentifier c = true ∨ c.isDigit = true := by
  simp only [startsIdentifier, isNameChar, Char.isAlphanum, Bool.or_eq_true]
  tauto

theorem isName_iff_isIdentifier {cs : List Char} : isName cs = true ↔ IsIdentifier cs := by
  cases cs with
  | nil => simp [isName, IsIdentifier]
  | cons first rest =>
    have hrest : (∀ c ∈ rest, startsIdentifier c = true ∨ c.isDigit = true) ↔
        ∀ c ∈ rest, isNameChar c = true := by
      simp only [isNameChar_iff]
    rw [IsIdentifier, hrest, startsIdentifier_iff]
    simp only [isName, List.isEmpty_cons, List.all_cons, List.head?_cons, Option.any_some, Bool.not_false,
      Bool.true_and, Bool.and_eq_true, Bool.not_eq_true', List.all_eq_true]
    exact and_right_comm

theorem isArguments_iff {cs : List Char} :
    isArguments cs = true ↔ cs = [] ∨ ∃ inner, cs = '(' :: (inner ++ [')']) := by
  simp only [isArguments, Bool.or_eq_true, List.isEmpty_iff, Bool.and_eq_true, beq_iff_eq]
  refine or_congr_right ⟨?_, ?_⟩
  · rintro ⟨hfirst, hlast⟩
    obtain ⟨rest, rfl⟩ := List.head?_eq_some_iff.1 hfirst
    -- The parenthesis at the beginning is not the one at the end.
    cases rest with
    | nil => cases hlast
    | cons c rest =>
      rw [List.getLast?_cons_cons] at hlast
      obtain ⟨inner, hinner⟩ := List.getLast?_eq_some_iff.1 hlast
      exact ⟨inner, by rw [hinner]⟩
  · rintro ⟨inner, rfl⟩
    rw [← List.cons_append]
    exact ⟨rfl, List.getLast?_concat⟩

theorem exists_form_of_handlerSpan? {value : String} {r : Span} (h : handlerSpan? value = some r) :
    ∃ form : HandlerForm value.toList, form.nameSpan = r := by
  obtain ⟨⟨dot, name⟩, hfound, rfl⟩ := Option.map_eq_some_iff.1 h
  obtain ⟨arguments, htrimmed, hdot, hname, harguments⟩ := handlerName?_eq_some_iff.1 hfound
  obtain ⟨trailing, hrest, htrailing⟩ :=
    exists_dropTrailing_append isBlank (value.toList.dropWhile isBlank)
  refine ⟨{ blanks := value.toList.takeWhile isBlank, dot, name, arguments, trailing
            value_eq := ?_
            isBlank_blanks := fun c hc => List.mem_takeWhile_imp hc
            optional_dot := hdot
            isIdentifier_name := isName_iff_isIdentifier.1 hname
            parenthesized_arguments := isArguments_iff.1 harguments
            isBlank_trailing := htrailing }, ?_⟩
  · rw [← htrimmed, trimChars, ← hrest, List.takeWhile_append_dropWhile]
  · simp only [HandlerForm.nameSpan, byteLength_append]

theorem HandlerForm.handlerSpan?_eq {value : String} (form : HandlerForm value.toList) :
    handlerSpan? value = some form.nameSpan := by
  have hspan := handlerSpan?_between ⟨form.name, isName_iff_isIdentifier.2 form.isIdentifier_name⟩
    form.optional_dot (isArguments_iff.2 form.parenthesized_arguments) form.isBlank_blanks
    form.isBlank_trailing
  rw [← form.value_eq, String.ofList_toList] at hspan
  rw [hspan, nameSpan, byteLength_append (form.blanks ++ form.dot)]

/-- A value has a handler name exactly if it has the form of a handler, and the place that is found is that
of the name. -/
theorem handlerSpan?_eq_some_iff {value : String} {r : Span} :
    handlerSpan? value = some r ↔ ∃ form : HandlerForm value.toList, form.nameSpan = r := by
  constructor
  · exact exists_form_of_handlerSpan?
  · rintro ⟨form, rfl⟩
    exact form.handlerSpan?_eq

/-- Offsets count the bytes of the value as it is written, a wide blank in front included. -/
example : handlerSpan? "\u00a0.onPress($event)" = some ⟨3, 10⟩ ∧ handlerSpan? "onPress é" = none := by
  decide +kernel

theorem HandlerForm.slice_nameSpan {value : String} (form : HandlerForm value.toList) :
    form.nameSpan.slice value = some (String.ofList form.name) := by
  refine Span.slice_eq_some_iff.2 ⟨String.ofList (form.blanks ++ form.dot),
    String.ofList (form.arguments ++ form.trailing), ?_, utf8ByteSize_ofList _, ?_⟩
  · apply String.toList_inj.1
    exact form.value_eq.trans (by simp)
  · simp [utf8ByteSize_ofList, nameSpan, Nat.add_assoc]

theorem HandlerForm.stop_nameSpan_le {value : String} (form : HandlerForm value.toList) :
    form.nameSpan.stop ≤ value.utf8ByteSize := by
  obtain ⟨before, behind, hvalue, hstart, hstop⟩ := Span.slice_eq_some_iff.1 form.slice_nameSpan
  have hsize := congrArg String.utf8ByteSize hvalue
  simp only [String.utf8ByteSize_append] at hsize
  omega

/-- The name stands in the value of the attribute, which is not a structural one. -/
structure HandlerReference.IsIn (r : HandlerReference) (a : Attribute) : Prop where
  attributeName_eq : r.attributeName = a.name
  isStructural_name : isStructural a.name = false
  start_le : a.valueSpan.start ≤ r.span.start
  le_stop : r.span.stop ≤ a.valueSpan.stop

theorem isIn_of_handler? {a : Attribute} {tag : Span} {content : String} (ha : a.IsPlaced tag content)
    {r : HandlerReference} (h : a.handler? = some r) :
    r.IsIn a ∧ IsIdentifier r.name.toList := by
  rw [Attribute.handler?, Option.ite_none_left_eq_some] at h
  obtain ⟨hstructural, h⟩ := h
  obtain ⟨place, hplace, ⟨⟩⟩ := Option.bind_eq_some_iff.1 h
  obtain ⟨form, rfl⟩ := exists_form_of_handlerSpan? hplace
  obtain ⟨before, behind, -, hstart, hstop⟩ := Span.slice_eq_some_iff.1 ha.slice_value
  have hwithin := form.stop_nameSpan_le
  refine ⟨⟨rfl, Bool.not_eq_true _ ▸ hstructural, ?_, ?_⟩, ?_⟩
  · exact Nat.le_add_right _ _
  · simp only [Span.shift]
    omega
  · rw [Span.sliceD, form.slice_nameSpan, Option.getD_some, String.toList_ofList]
    exact form.isIdentifier_name

theorem exists_attribute_of_mem {content : String} {r : HandlerReference}
    (h : r ∈ handlerReferences (tags content)) : ∃ t ∈ tags content, t.isClosing = false ∧
      ∃ a ∈ t.attributes, a.IsPlaced t.span content ∧ a.handler? = some r := by
  obtain ⟨t, ht, hr⟩ := List.mem_flatMap.1 h
  obtain ⟨ht, hopening⟩ := List.mem_filter.1 ht
  obtain ⟨a, ha, hr⟩ := List.mem_filterMap.1 hr
  have hplaced := ((standInOrder_tagsIn 0 content.toList).1 t ht).isPlaced
  exact ⟨t, ht, Bool.not_eq_true' _ ▸ hopening, a, ha, hplaced.attributes a ha, hr⟩

/-- A quote stands between any two of the names. -/
theorem pairwise_handlerReferences (content : String) :
    (handlerReferences (tags content)).Pairwise fun r s => r.span.stop < s.span.start := by
  obtain ⟨hstand, horder⟩ := standInOrder_tagsIn 0 content.toList
  refine List.pairwise_flatMap.2 ⟨fun t ht => ?_, ?_⟩
  · have hplaced := (hstand t (List.mem_of_mem_filter ht)).isPlaced
    refine List.pairwise_filterMap.2 (hplaced.inOrder.imp_of_mem ?_)
    intro a b ha hb hab r hr s hs
    have hleft := (isIn_of_handler? (hplaced.attributes a ha) hr).1.le_stop
    have hright := (isIn_of_handler? (hplaced.attributes b hb) hs).1.start_le
    omega
  · refine (horder.filter _).imp_of_mem ?_
    intro t u ht hu htu r hr s hs
    obtain ⟨a, ha, hr⟩ := List.mem_filterMap.1 hr
    obtain ⟨b, hb, hs⟩ := List.mem_filterMap.1 hs
    have hplacedA := (hstand t (List.mem_of_mem_filter ht)).isPlaced.attributes a ha
    have hplacedB := (hstand u (List.mem_of_mem_filter hu)).isPlaced.attributes b hb
    have hleft := (isIn_of_handler? hplacedA hr).1.le_stop
    have hright := (isIn_of_handler? hplacedB hs).1.start_le
    have hends := hplacedA.ends
    have hbegins := hplacedB.begins
    omega

theorem touches_iff {r : Span} {offset : Nat} :
    r.touches offset = true ↔ r.start ≤ offset ∧ offset ≤ r.stop := by
  simp only [Span.touches, Bool.and_eq_true, decide_eq_true_eq]

theorem filter_touches (content : String) (offset : Nat) :
    let touching := (handlerReferences (tags content)).filter fun r => r.span.touches offset
    touching = [] ∨ ∃ r, touching = [r] := by
  intro touching
  have hgaps : touching.Pairwise fun r s => r.span.stop < s.span.start :=
    (pairwise_handlerReferences content).filter _
  have htouches : ∀ r ∈ touching, r.span.start ≤ offset ∧ offset ≤ r.span.stop :=
    fun r hr => touches_iff.1 (List.mem_filter.1 hr).2
  cases hcase : touching with
  | nil => exact .inl rfl
  | cons r rest =>
    rw [hcase] at hgaps htouches
    have hrest : rest = [] := by
      refine List.eq_nil_iff_forall_not_mem.2 fun s hs => ?_
      have hgap := (List.pairwise_cons.1 hgaps).1 s hs
      have hleft := (htouches r List.mem_cons_self).2
      have hright := (htouches s (List.mem_cons_of_mem r hs)).1
      omega
    exact .inr ⟨r, by rw [hrest]⟩

/-- Each handler reference is an identifier in a value of an opening tag. An offset touches at most one of
them, so that a search from the offset can find no other. -/
theorem handlerReferences_unambiguous (content : String) :
    let refs := handlerReferences (tags content)
    (∀ r ∈ refs, (∃ t ∈ tags content, t.isClosing = false ∧ ∃ a ∈ t.attributes, r.IsIn a) ∧
      r.span.slice content = some r.name ∧ IsIdentifier r.name.toList) ∧
    ∀ offset, (refs.filter fun r => r.span.touches offset).length ≤ 1 ∧
      ∀ r, (refs.find? fun r => r.span.touches offset) = some r ↔
        r ∈ refs ∧ r.span.touches offset = true := by
  intro refs
  refine ⟨fun r hr => ?_, fun offset => ?_⟩
  · obtain ⟨t, ht, hopening, a, ha, hplaced, hfound⟩ := exists_attribute_of_mem hr
    obtain ⟨hin, hname⟩ := isIn_of_handler? hplaced hfound
    exact ⟨⟨t, ht, hopening, a, ha, hin⟩, (handlerReferences_placed content).1 r hr, hname⟩
  · have hfind : (refs.find? fun r => r.span.touches offset) =
        (refs.filter fun r => r.span.touches offset).head? := List.head?_filter.symm
    have hmem : ∀ r, r ∈ refs ∧ r.span.touches offset = true ↔
        r ∈ refs.filter fun r => r.span.touches offset := fun r => by rw [List.mem_filter]
    simp only [hfind, hmem]
    rcases filter_touches content offset with hnone | ⟨only, hone⟩
    · simp only [refs, hnone]
      exact ⟨Nat.zero_le _, fun r => iff_of_false nofun List.not_mem_nil⟩
    · simp only [refs, hone, List.head?_cons, Option.some.injEq, List.mem_singleton]
      exact ⟨Nat.le_refl 1, fun r => eq_comm⟩

end UiWorkspace.Markup
