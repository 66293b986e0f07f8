import UiWorkspace.Proofs.Markup.AttributeOffsets
import UiWorkspace.Proofs.Markup.Sections

/-! Reading by offsets. The tags of a content are found by looking at its bytes and cutting it at offsets.
No cut is ever out of bounds or inside a character, and the tags are those of the reading character by
character, each at its place. -/
namespace UiWorkspace.Markup

open UiWorkspace.Text

def find? (part : List Char) (text : String) : Option Nat :=
  (around? part text.toList).map fun found => byteLength found.1

def tagWith? (content text : String) (span inner : Span) (closing selfClosing : Bool) :
    Option (Option Tag) := do
  let body ← inner.slice content
  let nameSize := byteLength (body.toList.takeWhile fun c => !(isBlank c || c == '/'))
  let name ← ((Span.mk 0 nameSize).slice body).map trim
  if name.isEmpty then return none
  let attributes ← if closing then some [] else
    attributesBetween? content inner.stop (inner.stop + 1) (inner.start + nameSize)
  return some ⟨text, span, name, attributes, closing, selfClosing⟩

def isSelfClosing? (closing : Bool) (text : String) : Option Bool :=
  if !closing && 3 ≤ text.utf8ByteSize then
    ((Span.mk 0 (text.utf8ByteSize - 1)).slice text).map (endsWith "/")
  else some false

def tagBetween? (content : String) (begin stop : Nat) : Option (Option Tag) := do
  let text ← (Span.mk begin stop).slice content
  let closing := startsWith "</" text
  let selfClosing ← isSelfClosing? closing text
  let inner := Span.mk (if closing then begin + 2 else begin + 1) (if selfClosing then stop - 2 else stop - 1)
  tagWith? content text ⟨begin, stop⟩ inner closing selfClosing

def tagEnd? : (quote : Option Char) → (place : Nat) → List UInt8 → Option Nat
  | _, _, [] => none
  | quote, place, b :: bs =>
    match quoteBehind quote (Char.ofUInt8 b) with
    | some next => tagEnd? next (place + 1) bs
    | none => if Char.ofUInt8 b == '>' then some (place + 1) else none

def tagsAt? (content : String) (next : Nat → Option (List Tag)) (begin : Nat) : Option (List Tag) := do
  let rest ← (Span.mk begin content.utf8ByteSize).slice content
  match marker? rest.toList with
  | some m =>
    match find? m.closer rest with
    | none => return []
    | some size => next (begin + size + byteLength m.closer)
  | none =>
    match tagEnd? none (begin + 1) ((bytes content).drop (begin + 1)) with
    | none => return []
    | some stop => return (← tagBetween? content begin stop).toList ++ (← next stop)

def tagsFrom? (content : String) : (rounds place : Nat) → Option (List Tag)
  | 0, _ => none
  | rounds + 1, place => do
    let ahead ← (Span.mk place content.utf8ByteSize).slice content
    match find? ['<'] ahead with
    | none => return []
    | some distance => tagsAt? content (tagsFrom? content rounds) (place + distance)

def tagsByOffsets? (content : String) : Option (List Tag) :=
  tagsFrom? content (content.utf8ByteSize + 1) 0

theorem tagWith?_eq {content : String} {inner : Span} {body : List Char}
    (h : IsBetween content inner.start inner.stop body) (text : String) (span : Span)
    (closing selfClosing : Bool) : tagWith? content text span inner closing selfClosing =
      some (let name := body.takeWhile fun c => !(isBlank c || c == '/')
        if name.isEmpty then none
        else
          let behind := body.dropWhile fun c => !(isBlank c || c == '/')
          some ⟨text, span, String.ofList name,
            if closing then [] else attributesIn .gap (inner.start + byteLength name) behind,
            closing, selfClosing⟩) := by
  have hbody : inner.slice content = some (String.ofList body) := h.slice
  have hparts : body.takeWhile (fun c => !(isBlank c || c == '/')) ++
      body.dropWhile (fun c => !(isBlank c || c == '/')) = body := List.takeWhile_append_dropWhile
  have hunblank : ∀ c ∈ body.takeWhile (fun c => !(isBlank c || c == '/')), isBlank c = false := by
    intro c hc
    have := List.mem_takeWhile_imp hc
    simp_all
  simp only [tagWith?, hbody, Option.bind_eq_bind, Option.bind_some, String.toList_ofList]
  generalize body.takeWhile (fun c => !(isBlank c || c == '/')) = name at hparts hunblank
  generalize body.dropWhile (fun c => !(isBlank c || c == '/')) = behind at hparts
  subst hparts
  have hname := (isBetween_ofList (name ++ behind)).before.slice
  rw [Nat.zero_add] at hname
  have htrim : trim (String.ofList name) = String.ofList name := by
    rw [trim, String.toList_ofList, trimChars_of_not_isBlank hunblank]
  have hempty : (String.ofList name).isEmpty = name.isEmpty := by
    cases name <;> simp
  have hattributes :
      attributesBetween? content inner.stop (inner.stop + 1) (inner.start + byteLength name) =
        some (attributesIn .gap (inner.start + byteLength name) behind) := by
    have hstop := h.behind.stop_eq
    exact (attributeRounds _ behind).attributesBetween? h.behind (by omega)
  rw [hname, Option.map_some, htrim, Option.bind_some, hempty, hattributes]
  cases name.isEmpty <;> cases closing <;> rfl

theorem startsWith_closing (inner : List Char) :
    startsWith "</" (String.ofList ('<' :: (inner ++ ['>']))) = (inner.head? == some '/') := by
  rw [startsWith, String.toList_ofList, String.toList_ofList]
  cases inner with
  | nil => rfl
  | cons c inner =>
    by_cases hc : '/' = c
    · subst hc
      rfl
    · simp [after?, hc, Ne.symm hc]

theorem endsWith_selfClosing (cs : List Char) :
    endsWith "/" (String.ofList cs) = (cs.getLast? == some '/') := by
  rw [Bool.eq_iff_iff, beq_iff_eq, endsWith, String.toList_ofList, String.toList_ofList,
    Option.isSome_iff_exists, List.getLast?_eq_some_iff]
  exact exists_congr fun front => before?_eq_some_iff

theorem isSelfClosing?_eq (inner : List Char) (closing : Bool) :
    isSelfClosing? closing (String.ofList ('<' :: (inner ++ ['>']))) =
      some (!closing && inner.getLast? == some '/') := by
  have hsize : (String.ofList ('<' :: (inner ++ ['>']))).utf8ByteSize = byteLength inner + 2 := by
    rw [utf8ByteSize_ofList, byteLength_bracketed]
  have hfront := (isBetween_ofList ('<' :: inner ++ ['>'])).before
  have hstop : 0 + byteLength ('<' :: inner) = byteLength inner + 2 - 1 := by
    simp only [byteLength, show '<'.utf8Size = 1 from rfl]
    omega
  rw [hstop, List.cons_append] at hfront
  rw [isSelfClosing?, hsize, hfront.slice, Option.map_some, endsWith_selfClosing]
  cases inner with
  | nil => cases closing <;> rfl
  | cons c inner =>
    have hpos := byteLength_pos (List.cons_ne_nil c inner)
    have hlarge : decide (3 ≤ byteLength (c :: inner) + 2) = true := decide_eq_true (by omega)
    rw [hlarge, List.getLast?_cons_cons]
    cases closing <;> rfl

theorem tagBetween?_eq {content : String} {begin stop : Nat} {inner : List Char}
    (h : IsBetween content begin stop ('<' :: (inner ++ ['>']))) :
    tagBetween? content begin stop = some (Tag.ofInner? begin inner) := by
  have hstop : stop = begin + byteLength inner + 2 := by
    rw [h.stop_eq, byteLength_bracketed, Nat.add_assoc]
  have hinner : IsBetween content (begin + 1) (stop - 1) inner := by
    have hbefore := h.behind_cons.before
    have hend : begin + '<'.utf8Size + byteLength inner = stop - 1 := by
      simp only [hstop, show '<'.utf8Size = 1 from rfl]
      omega
    rwa [hend] at hbefore
  rw [tagBetween?]
  simp only [h.slice, Option.bind_eq_bind, Option.bind_some, startsWith_closing, isSelfClosing?_eq]
  by_cases hclosing : inner.head? = some '/'
  · obtain ⟨body, rfl⟩ := List.head?_eq_some_iff.1 hclosing
    have hbody := hinner.behind_cons
    rw [show '/'.utf8Size = 1 from rfl] at hbody
    refine (tagWith?_eq (by simpa using hbody) _ _ _ _).trans ?_
    simp [Tag.ofInner?, hstop]
  · have hclosing : (inner.head? == some '/') = false := beq_eq_false_iff_ne.2 hclosing
    by_cases hself : inner.getLast? = some '/'
    · obtain ⟨body, hslash⟩ := List.getLast?_eq_some_iff.1 hself
      have hbody : IsBetween content (begin + 1) (begin + 1 + byteLength body) body :=
        (hslash ▸ hinner).before
      have hend : begin + 1 + byteLength body = stop - 2 := by
        rw [hstop, hslash, byteLength_append, show byteLength ['/'] = 1 from rfl]
        omega
      have hdrop : inner.dropLast = body := by rw [hslash, List.dropLast_concat]
      rw [hend] at hbody
      refine (tagWith?_eq (by simpa [hclosing, hself] using hbody) _ _ _ _).trans ?_
      simp [Tag.ofInner?, hclosing, hself, hstop, hdrop]
    · have hself : (inner.getLast? == some '/') = false := beq_eq_false_iff_ne.2 hself
      refine (tagWith?_eq (by simpa [hclosing, hself] using hinner) _ _ _ _).trans ?_
      simp [Tag.ofInner?, hclosing, hself, hstop]

theorem quoteBehind_of_not_ascii {quote : Option Char} (hquote : IsQuoteOrNone quote) {c : Char}
    (hc : isAscii c = false) : quoteBehind quote c = some quote := by
  cases quote with
  | none => simp (disch := decide) [quoteBehind, isQuote, beq_of_not_ascii hc]
  | some quote => simp [quoteBehind, beq_of_not_ascii hc (isAscii_of_isQuote (hquote quote rfl))]

theorem tagEnd?_passed {quote : Option Char} {passed : List UInt8}
    (h : ∀ b ∈ passed, quoteBehind quote (Char.ofUInt8 b) = some quote) (place : Nat) (bs : List UInt8) :
    tagEnd? quote place (passed ++ bs) = tagEnd? quote (place + passed.length) bs := by
  induction passed generalizing place with
  | nil => rfl
  | cons b passed ih =>
    have hrest := ih (fun d hd => h d (List.mem_cons_of_mem b hd)) (place + 1)
    rw [List.cons_append, tagEnd?, h b List.mem_cons_self, List.length_cons, Nat.add_comm passed.length,
      ← Nat.add_assoc, ← hrest]

theorem tagEnd?_char {quote next : Option Char} (hquote : IsQuoteOrNone quote) {c : Char}
    (h : quoteBehind quote c = some next) (place : Nat) (bs : List UInt8) :
    tagEnd? quote place (String.utf8EncodeChar c ++ bs) = tagEnd? next (place + c.utf8Size) bs := by
  rw [← String.length_utf8EncodeChar]
  rcases utf8EncodeChar_cases c with ⟨-, b, hbytes, rfl⟩ | ⟨hc, hbytes⟩
  · rw [hbytes, List.singleton_append, tagEnd?, h]
    rfl
  · obtain rfl : quote = next := Option.some.inj ((quoteBehind_of_not_ascii hquote hc).symm.trans h)
    exact tagEnd?_passed (fun b hb => quoteBehind_of_not_ascii hquote (hbytes b hb)) place bs

theorem tagEnd?_utf8 {quote : Option Char} (hquote : IsQuoteOrNone quote) (place : Nat) (cs : List Char) :
    (tagEnd? quote place (utf8 cs) = none ∧ ∀ begin seen pos, tagsIn (.tag begin quote seen) pos cs = []) ∨
      ∃ inner rest, cs = inner ++ '>' :: rest ∧ quoteAfter quote inner = some none ∧
        tagEnd? quote place (utf8 cs) = some (place + byteLength inner + 1) := by
  induction cs generalizing quote place with
  | nil => exact .inl ⟨rfl, fun begin seen pos => tagsIn_nil _ _⟩
  | cons c cs ih =>
    cases hnext : quoteBehind quote c with
    | none =>
      obtain ⟨rfl, rfl | rfl⟩ := eq_bracket_of_quoteBehind hnext
      · exact .inr ⟨[], cs, rfl, rfl, rfl⟩
      · exact .inl ⟨rfl, fun begin seen pos => by simp [tagsIn]⟩
    | some next =>
      rw [utf8_cons, tagEnd?_char hquote hnext]
      refine (ih (hquote.behind hnext) (place + c.utf8Size)).imp ?_ ?_
      · rintro ⟨hend, hsilent⟩
        exact ⟨hend, fun begin seen pos => by rw [tagsIn_tag_cons hnext, hsilent]⟩
      · rintro ⟨inner, rest, rfl, hinner, hend⟩
        refine ⟨c :: inner, rest, rfl, Option.bind_eq_some_iff.2 ⟨next, hnext, hinner⟩, ?_⟩
        rw [hend, byteLength, Nat.add_assoc place]

theorem tagsIn_lead {before : List Char} (h : '<' ∉ before) (pos : Nat) (cs : List Char) :
    tagsIn .text pos (before ++ cs) = tagsIn .text (pos + byteLength before) cs := by
  induction before generalizing pos with
  | nil => rfl
  | cons c before ih =>
    obtain ⟨hc, hbefore⟩ := not_or.1 (mt List.mem_cons.2 h)
    rw [List.cons_append, tagsIn_text_cons (Ne.symm hc), ih hbefore, byteLength, Nat.add_assoc]

theorem around?_singleton {d : Char} {cs before behind : List Char}
    (h : around? [d] cs = some (before, behind)) : cs = before ++ d :: behind ∧ d ∉ before := by
  obtain ⟨hcut, hfirst⟩ := around?_eq_some_iff.1 h
  refine ⟨by simpa using hcut, fun hmem => ?_⟩
  obtain ⟨x, y, rfl⟩ := List.append_of_mem hmem
  have hle := hfirst x (y ++ [d] ++ behind) (by simp [hcut])
  simp only [List.length_append, List.length_cons] at hle
  omega

section Contents

variable {content : String} {place : Nat} {cs behind : List Char}

theorem tagsAt?_eq {next : Nat → Option (List Tag)}
    (h : IsBetween content place content.utf8ByteSize ('<' :: behind))
    (hnext : ∀ later rest, IsBetween content later content.utf8ByteSize rest → place < later →
      next later = some (tagsIn .text later rest)) :
    tagsAt? content next place = some (tagsIn .text place ('<' :: behind)) := by
  simp only [tagsAt?, h.slice, Option.bind_eq_bind, Option.bind_some, String.toList_ofList, find?]
  cases hmarker : marker? ('<' :: behind) with
  | some m =>
    rw [tagsIn_marker hmarker, tagsPast]
    cases haround : around? m.closer ('<' :: behind) with
    | none => simp only [haround]; rfl
    | some found =>
      obtain ⟨inner, rest⟩ := found
      have hcut := (around?_eq_some_iff.1 haround).1
      have hcloser := byteLength_pos (closer_ne_nil m (mem_markers_of_marker? hmarker).1)
      rw [hcut, List.append_assoc] at h
      simp only [haround]
      exact hnext _ rest h.behind.behind (by omega)
  | none =>
    obtain ⟨hmark, hquery⟩ := head?_of_unmarked hmarker
    have hbytes := h.behind_cons.drop_bytes
    rw [show '<'.utf8Size = 1 from rfl] at hbytes
    simp only [hbytes]
    have hunquoted : IsQuoteOrNone none := by
      rintro quote ⟨⟩
    rcases tagEnd?_utf8 hunquoted (place + 1) behind with
      ⟨hend, hsilent⟩ | ⟨inner, rest, rfl, hinner, hend⟩
    · rw [hend, tagsIn_opening hmark hquery, hsilent]
      rfl
    · obtain ⟨htag, hrest⟩ := isBetween_bracketed h
      have hstop : place + 1 + byteLength inner + 1 = place + byteLength inner + 2 := by omega
      rw [hend, hstop, (isTagText_of_closed hinner hmark hquery).tagsIn]
      simp only [tagBetween?_eq htag, hnext _ rest hrest (by omega), Option.bind_some]
      rfl

theorem tagsFrom?_eq (h : IsBetween content place content.utf8ByteSize cs) {rounds : Nat}
    (hrounds : byteLength cs < rounds) : tagsFrom? content rounds place = some (tagsIn .text place cs) := by
  induction rounds generalizing place cs with
  | zero => exact absurd hrounds (Nat.not_lt_zero _)
  | succ rounds ih =>
    simp only [tagsFrom?, h.slice, Option.bind_eq_bind, Option.bind_some, find?, String.toList_ofList]
    cases hless : around? ['<'] cs with
    | none =>
      have hnot : '<' ∉ cs := by
        intro hmem
        obtain ⟨x, y, hxy⟩ := List.append_of_mem hmem
        exact around?_eq_none_iff.1 hless x y (by simpa using hxy)
      have hlead := tagsIn_lead hnot place []
      rw [List.append_nil, tagsIn_nil] at hlead
      rw [hlead]
      rfl
    | some found =>
      obtain ⟨before, behind⟩ := found
      obtain ⟨rfl, hbefore⟩ := around?_singleton hless
      rw [tagsIn_lead hbefore]
      refine tagsAt?_eq h.behind fun later rest hrest hlater => ih hrest ?_
      have hsize := h.stop_eq.symm.trans hrest.stop_eq
      omega

end Contents

/-- Reading by offsets never fails, and the tags it finds stand one behind the other, each at its place. -/
theorem tagsByOffsets_placed (content : String) : tagsByOffsets? content = some (tags content) ∧
    (tags content).Pairwise (fun t u => t.span.stop ≤ u.span.start) ∧
      ∀ t ∈ tags content, t.IsPlaced content := by
  have hwhole := isBetween_whole content
  have hsize := hwhole.stop_eq
  obtain ⟨hstand, horder⟩ := standInOrder_tagsIn 0 content.toList
  exact ⟨tagsFrom?_eq hwhole (by omega), horder, fun t ht => (hstand t ht).isPlaced⟩

end UiWorkspace.Markup
