import UiWorkspace.Proofs.Markup.TagBounds

/-! Tags that are written down. A written tag is well formed by its type: its names hold no character
that ends them, and no value holds the quote it stands in. Reading a text of such tags gives them
back, whatever the values and the text between the tags are. -/
namespace UiWorkspace.Markup

open UiWorkspace.Text

def isDelimiter (c : Char) : Bool := c == '<' || c == '>' || isQuote c

def isElementNameChar (c : Char) : Bool := isTagNameChar c && !isDelimiter c

def isAttributeNameChar (c : Char) : Bool := !(isAsciiBlank c || c == '=' || isDelimiter c)

structure Blanks where
  chars : List Char
  isAsciiBlank_chars : chars.all isAsciiBlank = true

structure WrittenAttribute where
  lead : Blanks
  name : List Char
  /-- Blanks on both sides of the equals sign. -/
  before : Blanks
  behind : Blanks
  quote : Char
  value : List Char
  lead_ne_nil : lead.chars ≠ []
  name_ne_nil : name ≠ []
  isAttributeNameChar_name : name.all isAttributeNameChar = true
  isQuote_quote : isQuote quote = true
  quote_not_mem_value : quote ∉ value

inductive TagForm where
  | opening (attributes : List WrittenAttribute)
  | selfClosing (attributes : List WrittenAttribute)
  | closing

structure WrittenTag where
  form : TagForm
  name : List Char
  trailing : Blanks
  name_ne_nil : name ≠ []
  isElementNameChar_name : name.all isElementNameChar = true
  head?_name : name.head? ≠ some '!' ∧ name.head? ≠ some '?'

structure PlainText where
  chars : List Char
  opener_not_mem : '<' ∉ chars

namespace WrittenAttribute

variable (a : WrittenAttribute)

def opening : List Char :=
  a.lead.chars ++ a.name ++ a.before.chars ++ '=' :: (a.behind.chars ++ [a.quote])

def chars : List Char := a.opening ++ a.value ++ [a.quote]

def placed (pos : Nat) : Attribute :=
  let start := pos + byteLength a.opening
  ⟨String.ofList a.name, String.ofList a.value, ⟨start, start + byteLength a.value⟩⟩

end WrittenAttribute

def placedAttributes : Nat → List WrittenAttribute → List Attribute
  | _, [] => []
  | pos, a :: as => a.placed pos :: placedAttributes (pos + byteLength a.chars) as

def TagForm.attributes : TagForm → List WrittenAttribute
  | opening as => as
  | selfClosing as => as
  | closing => []

def TagForm.isClosing : TagForm → Bool
  | closing => true
  | _ => false

def TagForm.isSelfClosing : TagForm → Bool
  | selfClosing _ => true
  | _ => false

namespace WrittenTag

variable (t : WrittenTag)

def body : List Char := t.name ++ (t.form.attributes.flatMap WrittenAttribute.chars ++ t.trailing.chars)

def inner : List Char :=
  match t.form with
  | .opening _ => t.body
  | .selfClosing _ => t.body ++ ['/']
  | .closing => '/' :: t.body

def chars : List Char := '<' :: (t.inner ++ ['>'])

def placed (pos : Nat) : Tag where
  text := String.ofList t.chars
  span := ⟨pos, pos + byteLength t.chars⟩
  name := String.ofList t.name
  attributes := placedAttributes (pos + byteLength ('<' :: t.name)) t.form.attributes
  isClosing := t.form.isClosing
  isSelfClosing := t.form.isSelfClosing

end WrittenTag

/-- Tags with the text before each of them, and the text behind the last. -/
def written (parts : List (PlainText × WrittenTag)) (tail : PlainText) : List Char :=
  parts.flatMap (fun part => part.1.chars ++ part.2.chars) ++ tail.chars

def placedTags : Nat → List (PlainText × WrittenTag) → List Tag
  | _, [] => []
  | pos, (text, tag) :: parts =>
    let begin := pos + byteLength text.chars
    tag.placed begin :: placedTags (begin + byteLength tag.chars) parts

theorem attributesIn_blanks (mode : AttributeMode)
    (hmode : ∀ pos c cs, isAsciiBlank c = true →
      attributesIn mode pos (c :: cs) = attributesIn mode (pos + c.utf8Size) cs)
    (blanks : Blanks) (pos : Nat) (rest : List Char) :
    attributesIn mode pos (blanks.chars ++ rest) = attributesIn mode (pos + byteLength blanks.chars) rest := by
  obtain ⟨cs, hcs⟩ := blanks
  induction cs generalizing pos with
  | nil => rfl
  | cons c cs ih =>
    rw [List.all_cons, Bool.and_eq_true] at hcs
    rw [List.cons_append, hmode _ _ _ hcs.1, ih _ hcs.2, byteLength, Nat.add_assoc]

theorem attributesIn_gap_blanks (blanks : Blanks) (pos : Nat) (rest : List Char) :
    attributesIn .gap pos (blanks.chars ++ rest) = attributesIn .gap (pos + byteLength blanks.chars) rest :=
  attributesIn_blanks .gap (fun pos c cs hc => by rw [attributesIn, if_pos hc]) blanks pos rest

def isKeyChar (c : Char) : Bool := !(isAsciiBlank c || c == '=')

theorem isKeyChar_iff {c : Char} :
    isKeyChar c = true ↔ isAsciiBlank c = false ∧ (c == '=') = false := by
  simp [isKeyChar]

theorem isAttributeNameChar_iff {c : Char} :
    isAttributeNameChar c = true ↔ isKeyChar c = true ∧ isDelimiter c = false := by
  simp [isAttributeNameChar, isKeyChar]

theorem attributesIn_name {name : List Char} (hname : ∀ c ∈ name, isKeyChar c = true) (pos : Nat)
    (seen rest : List Char) : attributesIn (.name seen) pos (name ++ rest) =
      attributesIn (.name (name.reverse ++ seen)) (pos + byteLength name) rest := by
  induction name generalizing pos seen with
  | nil => rfl
  | cons c name ih =>
    obtain ⟨hc, hname⟩ := List.forall_mem_cons.1 hname
    obtain ⟨hblank, hsign⟩ := isKeyChar_iff.1 hc
    simp [attributesIn, hblank, hsign, ih hname, byteLength, Nat.add_assoc]

theorem attributesIn_gap_name {name : List Char} (hne : name ≠ []) (hname : ∀ c ∈ name, isKeyChar c = true)
    (pos : Nat) (rest : List Char) : attributesIn .gap pos (name ++ rest) =
      attributesIn (.name name.reverse) (pos + byteLength name) rest := by
  obtain ⟨c, name, rfl⟩ := List.exists_cons_of_ne_nil hne
  obtain ⟨hc, hname⟩ := List.forall_mem_cons.1 hname
  obtain ⟨hblank, hsign⟩ := isKeyChar_iff.1 hc
  simp [attributesIn, hblank, hsign, attributesIn_name hname, byteLength, Nat.add_assoc]

theorem WrittenAttribute.isKeyChar_name (a : WrittenAttribute) : ∀ c ∈ a.name, isKeyChar c = true :=
  fun c hc => (isAttributeNameChar_iff.1 (List.all_eq_true.1 a.isAttributeNameChar_name c hc)).1

theorem attributesIn_sign (seen : List Char) (blanks : Blanks) (pos : Nat) (rest : List Char) :
    attributesIn (.name seen) pos (blanks.chars ++ '=' :: rest) =
      attributesIn (.opening seen.reverse) (pos + byteLength blanks.chars + '='.utf8Size) rest := by
  obtain ⟨cs, hcs⟩ := blanks
  cases cs with
  | nil => simp [attributesIn, byteLength, isAsciiBlank]
  | cons c cs =>
    rw [List.all_cons, Bool.and_eq_true] at hcs
    have hsign := attributesIn_blanks (.sign seen.reverse)
      (fun pos c cs hc => by rw [attributesIn, if_pos hc]) ⟨cs, hcs.2⟩ (pos + c.utf8Size) ('=' :: rest)
    rw [List.cons_append, attributesIn, if_pos hcs.1, hsign]
    simp [attributesIn, byteLength, isAsciiBlank, Nat.add_assoc]

theorem isAsciiBlank_of_isQuote {c : Char} (h : isQuote c = true) : isAsciiBlank c = false := by
  simp only [isQuote, Bool.or_eq_true, beq_iff_eq] at h
  rcases h with rfl | rfl <;> decide

theorem WrittenAttribute.attributesIn (a : WrittenAttribute) (pos : Nat) (rest : List Char) :
    attributesIn .gap pos (a.chars ++ rest) =
      a.placed pos :: attributesIn .gap (pos + byteLength a.chars) rest := by
  have hopening : ∀ pos cs, Markup.attributesIn (.opening a.name) pos (a.behind.chars ++ cs) =
      Markup.attributesIn (.opening a.name) (pos + byteLength a.behind.chars) cs := fun pos cs =>
    attributesIn_blanks (.opening a.name) (fun pos c cs hc => by rw [Markup.attributesIn, if_pos hc])
      a.behind pos cs
  have hquote : ∀ pos cs, Markup.attributesIn (.opening a.name) pos (a.quote :: cs) =
      Markup.attributesIn (.value a.name a.quote (pos + a.quote.utf8Size) []) (pos + a.quote.utf8Size) cs := by
    intro pos cs
    simp [Markup.attributesIn, isAsciiBlank_of_isQuote a.isQuote_quote, a.isQuote_quote]
  simp only [chars, opening, List.append_assoc, List.cons_append, List.nil_append, attributesIn_gap_blanks,
    attributesIn_gap_name a.name_ne_nil a.isKeyChar_name, attributesIn_sign, List.reverse_reverse,
    hopening, hquote, attributesIn_value a.quote_not_mem_value]
  simp [a.name_ne_nil, placed, opening, byteLength, Nat.add_assoc]

theorem attributesIn_written (as : List WrittenAttribute) (trailing : Blanks) (pos : Nat) :
    attributesIn .gap pos (as.flatMap WrittenAttribute.chars ++ trailing.chars) = placedAttributes pos as := by
  induction as generalizing pos with
  | nil =>
    have hend := attributesIn_gap_blanks trailing pos []
    rw [List.append_nil] at hend
    rw [List.flatMap_nil, List.nil_append, hend, attributesIn]
    rfl
  | cons a as ih => rw [List.flatMap_cons, List.append_assoc, a.attributesIn, ih, placedAttributes]

theorem isElementNameChar_iff {c : Char} :
    isElementNameChar c = true ↔ isTagNameChar c = true ∧ isDelimiter c = false := by
  simp [isElementNameChar]

theorem isTagNameChar_of_isAsciiBlank {c : Char} (h : isAsciiBlank c = true) : isTagNameChar c = false := by
  simp only [isAsciiBlank, Bool.or_eq_true, beq_iff_eq] at h
  rcases h with (((rfl | rfl) | rfl) | rfl) | rfl <;> decide

theorem Blanks.isAsciiBlank_head (blanks : Blanks) {c : Char} (h : blanks.chars.head? = some c) :
    isAsciiBlank c = true :=
  List.all_eq_true.1 blanks.isAsciiBlank_chars c (List.mem_of_head? h)

theorem isTagNameChar_head {as : List WrittenAttribute} {trailing : Blanks} {c : Char}
    (h : (as.flatMap WrittenAttribute.chars ++ trailing.chars).head? = some c) : isTagNameChar c = false := by
  refine isTagNameChar_of_isAsciiBlank ?_
  cases as with
  | nil => exact trailing.isAsciiBlank_head h
  | cons a as =>
    refine a.lead.isAsciiBlank_head ?_
    obtain ⟨d, ds, hlead⟩ := List.exists_cons_of_ne_nil a.lead_ne_nil
    simpa [WrittenAttribute.chars, WrittenAttribute.opening, hlead] using h

namespace WrittenTag

variable (t : WrittenTag)

theorem body_split : t.body.takeWhile isTagNameChar = t.name ∧ t.body.dropWhile isTagNameChar =
    t.form.attributes.flatMap WrittenAttribute.chars ++ t.trailing.chars := by
  refine takeWhile_append_of_head (fun c hc => ?_) fun c hc => isTagNameChar_head hc
  exact (isElementNameChar_iff.1 (List.all_eq_true.1 t.isElementNameChar_name c hc)).1

theorem exists_body : ∃ c cs, t.body = c :: cs ∧ c ≠ '/' ∧ c ≠ '!' ∧ c ≠ '?' := by
  obtain ⟨c, cs, hname⟩ := List.exists_cons_of_ne_nil t.name_ne_nil
  have hhead := t.head?_name
  have hchars := t.isElementNameChar_name
  rw [hname, List.all_cons, Bool.and_eq_true] at hchars
  refine ⟨c, _, by rw [body, hname, List.cons_append], ?_, ?_, ?_⟩
  · rintro rfl
    exact absurd hchars.1 (by decide)
  · rintro rfl
    exact hhead.1 (by rw [hname, List.head?_cons])
  · rintro rfl
    exact hhead.2 (by rw [hname, List.head?_cons])

theorem getLast?_append_ne {c : Char} {cs ds : List Char} (hcs : cs.getLast? ≠ some c)
    (hds : ds.getLast? ≠ some c) : (cs ++ ds).getLast? ≠ some c := by
  rw [List.getLast?_append, ne_eq, Option.or_eq_some_iff]
  rintro (h | ⟨-, h⟩)
  · exact hds h
  · exact hcs h

theorem getLast?_body_ne : t.body.getLast? ≠ some '/' := by
  have hname : t.name.getLast? ≠ some '/' := fun h =>
    absurd (List.all_eq_true.1 t.isElementNameChar_name '/' (List.mem_of_getLast? h)) (by decide)
  have hattributes : (t.form.attributes.flatMap WrittenAttribute.chars).getLast? ≠ some '/' := by
    induction t.form.attributes with
    | nil => nofun
    | cons a as ih =>
      refine getLast?_append_ne ?_ ih
      rw [WrittenAttribute.chars, List.getLast?_concat, ne_eq, Option.some.injEq]
      intro h
      exact absurd (h ▸ a.isQuote_quote) (by decide)
  have htrailing : t.trailing.chars.getLast? ≠ some '/' := fun h =>
    absurd (List.all_eq_true.1 t.trailing.isAsciiBlank_chars '/' (List.mem_of_getLast? h)) (by decide)
  exact getLast?_append_ne hname (getLast?_append_ne hattributes htrailing)

theorem byteLength_chars : byteLength t.chars = byteLength t.inner + 2 := by
  have hopener : '<'.utf8Size = 1 := rfl
  have hcloser : '>'.utf8Size = 1 := rfl
  simp only [chars, byteLength, byteLength_append, hopener, hcloser]
  omega

theorem ofInner?_inner (begin : Nat) : Tag.ofInner? begin t.inner = some (t.placed begin) := by
  have hclosing : (t.inner.head? == some '/') = t.form.isClosing := by
    obtain ⟨c, cs, hcons, hc, -⟩ := t.exists_body
    unfold inner TagForm.isClosing
    cases t.form <;> simp [hcons, hc]
  have hselfClosing : (!t.form.isClosing && t.inner.getLast? == some '/') = t.form.isSelfClosing := by
    have hlast := t.getLast?_body_ne
    unfold inner TagForm.isClosing TagForm.isSelfClosing
    cases t.form with
    | opening as => simpa using hlast
    | selfClosing as => simp
    | closing => simp
  have hbody : (if t.form.isClosing then t.inner.drop 1
      else if t.form.isSelfClosing then t.inner.dropLast else t.inner) = t.body := by
    unfold inner TagForm.isClosing TagForm.isSelfClosing
    cases t.form <;> simp
  have hattributes : (if t.form.isClosing then []
      else attributesIn .gap ((if t.form.isClosing then begin + 2 else begin + 1) + byteLength t.name)
        (t.form.attributes.flatMap WrittenAttribute.chars ++ t.trailing.chars)) =
      placedAttributes (begin + byteLength ('<' :: t.name)) t.form.attributes := by
    have hstart : begin + 1 + byteLength t.name = begin + byteLength ('<' :: t.name) := Nat.add_assoc ..
    rw [attributesIn_written, ← hstart]
    cases t.form <;> rfl
  have hsize : begin + byteLength t.inner + 2 = begin + byteLength t.chars := by
    rw [t.byteLength_chars, Nat.add_assoc]
  have hchar : (fun c => !(isBlank c || c == '/')) = isTagNameChar := rfl
  unfold Tag.ofInner?
  simp only [hclosing, hselfClosing, hbody, hchar, t.body_split]
  rw [if_neg (by simpa using t.name_ne_nil), hattributes, hsize]
  rfl

end WrittenTag

theorem quoteAfter_unquoted {cs : List Char} (h : ∀ c ∈ cs, isDelimiter c = false) :
    quoteAfter none cs = some none := by
  induction cs with
  | nil => rfl
  | cons c cs ih =>
    have hc := h c List.mem_cons_self
    simp only [isDelimiter, Bool.or_eq_false_iff] at hc
    have hnext : quoteBehind none c = some none := by simp [quoteBehind, hc]
    rw [quoteAfter_cons, hnext, Option.bind_some, ih fun d hd => h d (List.mem_cons_of_mem c hd)]

theorem quoteAfter_value {quote : Char} {value : List Char} (h : quote ∉ value) :
    quoteAfter (some quote) value = some (some quote) := by
  induction value with
  | nil => rfl
  | cons c value ih =>
    obtain ⟨hc, hvalue⟩ := not_or.1 (mt List.mem_cons.2 h)
    have hnext : quoteBehind (some quote) c = some (some quote) := by
      simp [quoteBehind, Ne.symm hc]
    rw [quoteAfter_cons, hnext, Option.bind_some, ih hvalue]

theorem Blanks.quoteAfter_chars (blanks : Blanks) : quoteAfter none blanks.chars = some none := by
  refine quoteAfter_unquoted fun c hmem => ?_
  have hc := List.all_eq_true.1 blanks.isAsciiBlank_chars c hmem
  simp only [isAsciiBlank, Bool.or_eq_true, beq_iff_eq] at hc
  rcases hc with (((rfl | rfl) | rfl) | rfl) | rfl <;> decide

theorem WrittenAttribute.quoteAfter_chars (a : WrittenAttribute) : quoteAfter none a.chars = some none := by
  have hname : quoteAfter none a.name = some none := quoteAfter_unquoted fun c hc =>
    (isAttributeNameChar_iff.1 (List.all_eq_true.1 a.isAttributeNameChar_name c hc)).2
  have hsign : quoteBehind none '=' = some none := rfl
  have hopened : quoteBehind none a.quote = some (some a.quote) := by
    have hquote := a.isQuote_quote
    have hbracket : a.quote ≠ '>' ∧ a.quote ≠ '<' := by
      constructor <;>
      · intro h
        rw [h] at hquote
        cases hquote
    simp [quoteBehind, hquote, hbracket]
  have hclosed : quoteBehind (some a.quote) a.quote = some none := by simp [quoteBehind]
  have hend : ∀ quote, quoteAfter quote [] = some quote := fun _ => rfl
  simp only [chars, opening, quoteAfter_append, quoteAfter_cons, Blanks.quoteAfter_chars, hname, hsign, hopened,
    quoteAfter_value a.quote_not_mem_value, hclosed, hend, Option.bind_some]

theorem quoteAfter_attributes (as : List WrittenAttribute) :
    quoteAfter none (as.flatMap WrittenAttribute.chars) = some none := by
  induction as with
  | nil => rfl
  | cons a as ih => rw [List.flatMap_cons, quoteAfter_append, a.quoteAfter_chars, Option.bind_some, ih]

namespace WrittenTag

variable (t : WrittenTag)

theorem isTagText_inner : IsTagText t.inner := by
  have hname : quoteAfter none t.name = some none := quoteAfter_unquoted fun c hc =>
    (isElementNameChar_iff.1 (List.all_eq_true.1 t.isElementNameChar_name c hc)).2
  have hbody : quoteAfter none t.body = some none := by
    simp only [body, quoteAfter_append, hname, quoteAfter_attributes, Blanks.quoteAfter_chars,
      Option.bind_some]
  obtain ⟨c, cs, hcons, -, hmark, hquery⟩ := t.exists_body
  unfold IsTagText inner
  cases t.form with
  | opening as => exact ⟨hbody, by simp [hcons, hmark], by simp [hcons, hquery]⟩
  | selfClosing as =>
    refine ⟨?_, by simp [hcons, hmark], by simp [hcons, hquery]⟩
    rw [quoteAfter_append, hbody]
    rfl
  | closing =>
    have hnext : quoteBehind none '/' = some none := rfl
    refine ⟨?_, by simp, by simp⟩
    rw [quoteAfter_cons, hnext, Option.bind_some, hbody]

theorem tagsIn_chars (pos : Nat) (rest : List Char) :
    tagsIn .text pos (t.chars ++ rest) = t.placed pos :: tagsIn .text (pos + byteLength t.chars) rest := by
  have hsize : pos + byteLength t.inner + 2 = pos + byteLength t.chars := by
    rw [t.byteLength_chars, Nat.add_assoc]
  have hchars : t.chars ++ rest = '<' :: (t.inner ++ '>' :: rest) := by simp [chars]
  rw [hchars, t.isTagText_inner.tagsIn, t.ofInner?_inner, hsize]
  rfl

end WrittenTag

theorem PlainText.tagsIn_chars (text : PlainText) (pos : Nat) (rest : List Char) :
    tagsIn .text pos (text.chars ++ rest) = tagsIn .text (pos + byteLength text.chars) rest := by
  obtain ⟨cs, hcs⟩ := text
  induction cs generalizing pos with
  | nil => rfl
  | cons c cs ih =>
    obtain ⟨hc, hcs⟩ := not_or.1 (mt List.mem_cons.2 hcs)
    rw [List.cons_append, tagsIn_text_cons (Ne.symm hc), ih _ hcs, byteLength, Nat.add_assoc]

theorem tagsIn_written (parts : List (PlainText × WrittenTag)) (tail : PlainText) (pos : Nat) :
    tagsIn .text pos (written parts tail) = placedTags pos parts := by
  induction parts generalizing pos with
  | nil =>
    have hend := tail.tagsIn_chars pos []
    rwa [List.append_nil, tagsIn_nil] at hend
  | cons part parts ih =>
    obtain ⟨text, tag⟩ := part
    have hwritten : written ((text, tag) :: parts) tail = text.chars ++ (tag.chars ++ written parts tail) := by
      simp [written]
    rw [hwritten, text.tagsIn_chars, tag.tagsIn_chars, ih, placedTags]

/-- Whatever tags are written, with whatever text around them, just these are read, each with its name,
its attributes and its form, and at the place where it is written. -/
theorem tags_written (parts : List (PlainText × WrittenTag)) (tail : PlainText) :
    tags (String.ofList (written parts tail)) = placedTags 0 parts := by
  rw [tags, String.toList_ofList, tagsIn_written]

-- Brackets, the other quote and a line break in a value.
example :
    let noBlanks : Blanks := ⟨[], rfl⟩
    let value : WrittenAttribute :=
      { lead := ⟨[' '], rfl⟩, name := ['a'], before := noBlanks, behind := ⟨[' '], rfl⟩, quote := '"',
        value := ['<', '/', '>', '\n', '\'', '='], lead_ne_nil := by decide, name_ne_nil := by decide,
        isAttributeNameChar_name := rfl, isQuote_quote := rfl, quote_not_mem_value := by decide }
    let tag : WrittenTag :=
      { form := .selfClosing [value], name := ['m', ':', 'é'], trailing := noBlanks, name_ne_nil := by decide,
        isElementNameChar_name := by decide, head?_name := by decide }
    String.ofList (written [(⟨['>', ' '], by decide⟩, tag)] ⟨[], by decide⟩) =
      "> <m:é a= \"</>\n'=\"/>" := rfl

end UiWorkspace.Markup
