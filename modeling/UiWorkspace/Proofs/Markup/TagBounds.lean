import UiWorkspace.Proofs.Markup.Rereading

/-! Where tags begin and end. What is quoted, commented or set apart in a document is decided by
characters that stand in no name, so the tags of a document stay in place when handlers get other
names. -/
namespace UiWorkspace.Markup

open UiWorkspace.Text

/-- The quote that is open behind a character of a tag; the brackets end the tag. -/
def quoteBehind (quote : Option Char) (c : Char) : Option (Option Char) :=
  match quote with
  | some quote => some (if c == quote then none else some quote)
  | none => if c == '>' || c == '<' then none else some (if isQuote c then some c else none)

def quoteAfter (quote : Option Char) (cs : List Char) : Option (Option Char) := cs.foldlM quoteBehind quote

@[simp] theorem quoteAfter_cons (quote : Option Char) (c : Char) (cs : List Char) :
    quoteAfter quote (c :: cs) = (quoteBehind quote c).bind fun next => quoteAfter next cs :=
  List.foldlM_cons

@[simp] theorem quoteAfter_append (quote : Option Char) (cs ds : List Char) :
    quoteAfter quote (cs ++ ds) = (quoteAfter quote cs).bind fun next => quoteAfter next ds :=
  List.foldlM_append

def IsQuoteOrNone (quote : Option Char) : Prop := ∀ c ∈ quote, isQuote c = true

theorem IsQuoteOrNone.behind {quote found : Option Char} {c : Char} (hquote : IsQuoteOrNone quote)
    (h : quoteBehind quote c = some found) : IsQuoteOrNone found := by
  cases quote with
  | none =>
    simp only [quoteBehind, Option.ite_none_left_eq_some, Option.some.injEq] at h
    rw [← h.2]
    split
    next hc => simpa [IsQuoteOrNone] using hc
    next => simp [IsQuoteOrNone]
  | some quote =>
    simp only [quoteBehind, Option.some.injEq] at h
    rw [← h]
    split
    · simp [IsQuoteOrNone]
    · exact hquote

theorem IsQuoteOrNone.after {quote found : Option Char} {cs : List Char} (hquote : IsQuoteOrNone quote)
    (h : quoteAfter quote cs = some found) : IsQuoteOrNone found := by
  induction cs generalizing quote with
  | nil =>
    cases h
    exact hquote
  | cons c cs ih =>
    obtain ⟨next, hnext, hfound⟩ := Option.bind_eq_some_iff.1 h
    exact ih (hquote.behind hnext) hfound

theorem quoteBehind_of_isNameChar {quote : Option Char} (hquote : IsQuoteOrNone quote) {c : Char}
    (hc : isNameChar c = true) : quoteBehind quote c = some quote := by
  have hne : ∀ d, isNameChar d = false → (c == d) = false := by
    intro d hd
    rw [beq_eq_false_iff_ne]
    rintro rfl
    rw [hc] at hd
    cases hd
  cases quote with
  | none => rw [quoteBehind, isQuote, hne _ rfl, hne _ rfl, hne _ rfl, hne _ rfl]; rfl
  | some quote => rw [quoteBehind, hne quote (isNameChar_of_isQuote (hquote quote rfl))]; rfl

theorem quoteAfter_name (name : HandlerName) {quote : Option Char} (hquote : IsQuoteOrNone quote) :
    quoteAfter quote name.chars = some quote := by
  have hchars : ∀ c ∈ name.chars, isNameChar c = true := fun c hc => isNameChar_of_mem hc
  generalize name.chars = cs at hchars
  unfold quoteAfter
  induction cs with
  | nil => rfl
  | cons c cs ih =>
    rw [List.foldlM_cons, quoteBehind_of_isNameChar hquote (hchars c List.mem_cons_self)]
    exact ih fun c hc => hchars c (List.mem_cons_of_mem _ hc)

theorem quoteAfter_rename (f : HandlerName → HandlerName) (ps : List Piece) {quote : Option Char}
    (hquote : IsQuoteOrNone quote) :
    quoteAfter quote (textOf (rename f ps)) = quoteAfter quote (textOf ps) := by
  induction ps generalizing quote with
  | nil => rfl
  | cons p ps ih =>
    cases p with
    | plain cs =>
      simp only [rename_plain, textOf_plain, quoteAfter_append]
      cases hfound : quoteAfter quote cs with
      | none => rfl
      | some found => exact ih (hquote.after hfound)
    | handler key name =>
      simp only [rename_handler, textOf_handler, quoteAfter_append, quoteAfter_name _ hquote]
      exact ih hquote

theorem tagsIn_tag_cons {quote next : Option Char} {c : Char} (h : quoteBehind quote c = some next)
    (begin pos : Nat) (seen cs : List Char) : tagsIn (.tag begin quote seen) pos (c :: cs) =
      tagsIn (.tag begin next (c :: seen)) (pos + c.utf8Size) cs := by
  cases quote with
  | none =>
    simp only [quoteBehind, Option.ite_none_left_eq_some, Option.some.injEq, Bool.or_eq_true,
      not_or, Bool.not_eq_true] at h
    simp [tagsIn, h]
  | some quote =>
    simp only [quoteBehind, Option.some.injEq] at h
    simp only [tagsIn, h]

theorem tagsIn_closed {inner : List Char} {quote : Option Char} (h : quoteAfter quote inner = some none)
    (begin pos : Nat) (seen rest : List Char) :
    tagsIn (.tag begin quote seen) pos (inner ++ '>' :: rest) =
      (Tag.ofInner? begin (seen.reverse ++ inner)).toList ++
        tagsIn .text (pos + byteLength inner + 1) rest := by
  induction inner generalizing quote pos seen with
  | nil =>
    cases h
    simp [tagsIn, byteLength]
  | cons c inner ih =>
    obtain ⟨next, hnext, hinner⟩ := Option.bind_eq_some_iff.1 h
    simp [tagsIn_tag_cons hnext, ih hinner, byteLength, Nat.add_assoc]

/-- Only a bracket outside of quotes ends a tag. -/
theorem eq_bracket_of_quoteBehind {quote : Option Char} {c : Char} (h : quoteBehind quote c = none) :
    quote = none ∧ (c = '>' ∨ c = '<') := by
  cases quote with
  | some quote => cases h
  | none =>
    simp only [quoteBehind, ite_eq_left_iff, reduceCtorEq, imp_false, not_not, Bool.or_eq_true,
      beq_iff_eq] at h
    exact ⟨rfl, h⟩

theorem exists_end_of_tag (quote : Option Char) (cs : List Char) :
    (∃ inner rest, cs = inner ++ '>' :: rest ∧ quoteAfter quote inner = some none) ∨
      ∀ begin seen pos, tagsIn (.tag begin quote seen) pos cs = [] := by
  induction cs generalizing quote with
  | nil => exact .inr fun begin seen pos => tagsIn_nil _ _
  | cons c cs ih =>
    cases hnext : quoteBehind quote c with
    | none =>
      obtain ⟨rfl, rfl | rfl⟩ := eq_bracket_of_quoteBehind hnext
      · exact .inl ⟨[], cs, rfl, rfl⟩
      · exact .inr fun begin seen pos => by simp [tagsIn]
    | some next =>
      refine (ih next).imp ?_ fun hsilent begin seen pos => by rw [tagsIn_tag_cons hnext, hsilent]
      rintro ⟨inner, rest, rfl, hinner⟩
      exact ⟨c :: inner, rest, rfl, Option.bind_eq_some_iff.2 ⟨next, hnext, hinner⟩⟩

/-- What can stand between `<` and `>` in a tag. -/
def IsTagText (inner : List Char) : Prop :=
  quoteAfter none inner = some none ∧ inner.head? ≠ some '!' ∧ inner.head? ≠ some '?'

theorem isTagText_of_closed {inner rest : List Char} (hinner : quoteAfter none inner = some none)
    (hmark : (inner ++ '>' :: rest).head? ≠ some '!') (hquery : (inner ++ '>' :: rest).head? ≠ some '?') :
    IsTagText inner := by
  have hhead : ∀ c, (inner ++ '>' :: rest).head? ≠ some c → inner.head? ≠ some c := by
    intro c hc
    cases inner <;> simp_all
  exact ⟨hinner, hhead _ hmark, hhead _ hquery⟩

theorem IsTagText.rename {ps : List Piece} (h : IsTagText (textOf ps)) (f : HandlerName → HandlerName) :
    IsTagText (textOf (rename f ps)) :=
  ⟨(quoteAfter_rename f ps (by simp [IsQuoteOrNone])).trans h.1,
    mt (head?_textOf_rename (by decide) f ps).1 h.2.1, mt (head?_textOf_rename (by decide) f ps).1 h.2.2⟩

theorem IsTagText.tagsIn {inner : List Char} (h : IsTagText inner) (pos : Nat) (rest : List Char) :
    tagsIn .text pos ('<' :: (inner ++ '>' :: rest)) = (Tag.ofInner? pos inner).toList ++
      tagsIn .text (pos + byteLength inner + 2) rest := by
  have hhead : ∀ c cs, inner ++ '>' :: rest = c :: cs → c ≠ '!' ∧ c ≠ '?' := by
    intro c cs hcons
    cases inner with
    | nil =>
      cases hcons
      decide
    | cons d inner =>
      cases hcons
      simpa [IsTagText] using h.2
  rw [Markup.tagsIn, tagsIn_closed h.1]
  · simp [Nat.add_assoc, Nat.add_comm 1]
  · exact fun cs hcons => (hhead _ cs hcons).1 rfl
  · exact fun cs hcons => (hhead _ cs hcons).2 rfl

theorem tagsIn_text_cons {c : Char} (hc : c ≠ '<') (pos : Nat) (cs : List Char) :
    tagsIn .text pos (c :: cs) = tagsIn .text (pos + c.utf8Size) cs := by
  simp [tagsIn, hc]

def leadOf (cs : List Char) : List Char := cs.takeWhile (· != '<')

theorem leadOf_append (cs xs ys : List Char) : leadOf (cs ++ '<' :: xs) = leadOf (cs ++ '<' :: ys) := by
  induction cs with
  | nil => rfl
  | cons c cs ih => by_cases hc : c = '<' <;> simp_all [leadOf]

theorem after?_isSome_leadOf {lead : List Char} (hlead : '<' ∉ lead) (cs : List Char) :
    (after? lead (leadOf cs)).isSome = (after? lead cs).isSome := by
  induction lead generalizing cs with
  | nil => rfl
  | cons l lead ih =>
    obtain ⟨hl, hlead⟩ := not_or.1 (mt List.mem_cons.2 hlead)
    cases cs with
    | nil => rfl
    | cons c cs =>
      by_cases hc : c = '<'
      · simp [leadOf, after?, hc, Ne.symm hl]
      · by_cases hlc : l = c <;> simp_all [leadOf, after?]

theorem after?_isSome_congr {lead cs ds : List Char} (hlead : '<' ∉ lead) (h : leadOf cs = leadOf ds) :
    (after? lead cs).isSome = (after? lead ds).isSome := by
  rw [← after?_isSome_leadOf hlead, h, after?_isSome_leadOf hlead]

/-- Reading outside of tags finds none, or passes over some text to the first one. -/
def FindsTag (mode : ScanMode) (cs : List Char) : Prop :=
  (∀ pos, tagsIn mode pos cs = []) ∨ ∃ lead inner rest, cs = lead ++ '<' :: (inner ++ '>' :: rest) ∧
    IsTagText inner ∧ ∀ pos inner xs, IsTagText inner →
      tagsIn mode pos (lead ++ '<' :: (inner ++ '>' :: xs)) = (Tag.ofInner? (pos + byteLength lead) inner).toList ++
        tagsIn .text (pos + byteLength lead + byteLength inner + 2) xs

theorem FindsTag.append {mode mode' : ScanMode} {cs : List Char} (h : FindsTag mode' cs) (skipped : List Char)
    (hstep : ∀ pos ds, leadOf ds = leadOf cs →
      tagsIn mode pos (skipped ++ ds) = tagsIn mode' (pos + byteLength skipped) ds) :
    FindsTag mode (skipped ++ cs) := by
  refine h.imp (fun hsilent pos => by rw [hstep pos cs rfl, hsilent]) ?_
  rintro ⟨lead, inner, rest, rfl, hinner, hread⟩
  refine ⟨skipped ++ lead, inner, rest, by simp, hinner, fun pos inner xs hinner => ?_⟩
  rw [List.append_assoc, hstep pos _ (leadOf_append lead _ _), hread _ _ _ hinner, byteLength_append,
    Nat.add_assoc pos]

theorem tagsIn_opening {cs : List Char} (hmark : cs.head? ≠ some '!') (hquery : cs.head? ≠ some '?')
    (pos : Nat) : tagsIn .text pos ('<' :: cs) = tagsIn (.tag pos none []) (pos + 1) cs := by
  rw [tagsIn]
  · rintro ds rfl
    exact hmark rfl
  · rintro ds rfl
    exact hquery rfl

theorem exists_tag_of_opening {cs : List Char} (hmark : cs.head? ≠ some '!') (hquery : cs.head? ≠ some '?') :
    (∃ inner rest, cs = inner ++ '>' :: rest ∧ IsTagText inner) ∨
      ∀ pos, tagsIn .text pos ('<' :: cs) = [] := by
  rcases exists_end_of_tag none cs with ⟨inner, rest, rfl, hinner⟩ | hsilent
  · exact .inl ⟨inner, rest, rfl, isTagText_of_closed hinner hmark hquery⟩
  · exact .inr fun pos => by rw [tagsIn_opening hmark hquery, hsilent]

theorem findsTag_of_opening {cs : List Char} (hmark : cs.head? ≠ some '!') (hquery : cs.head? ≠ some '?') :
    FindsTag .text ('<' :: cs) := by
  rcases exists_tag_of_opening hmark hquery with ⟨inner, rest, rfl, hinner⟩ | hsilent
  · exact .inr ⟨[], inner, rest, rfl, hinner, fun pos inner xs h => h.tagsIn pos xs⟩
  · exact .inl hsilent

theorem tagsIn_comment_closer (pos : Nat) (cs : List Char) :
    tagsIn .comment pos (['-', '-', '>'] ++ cs) = tagsIn .text (pos + byteLength ['-', '-', '>']) cs := by
  simp only [List.cons_append, List.nil_append, tagsIn]
  rfl

theorem tagsIn_characterData_closer (pos : Nat) (cs : List Char) : tagsIn .characterData pos
    ([']', ']', '>'] ++ cs) = tagsIn .text (pos + byteLength [']', ']', '>']) cs := by
  simp only [List.cons_append, List.nil_append, tagsIn]
  rfl

theorem tagsIn_declaration_closer (pos : Nat) (cs : List Char) :
    tagsIn .declaration pos (['>'] ++ cs) = tagsIn .text (pos + byteLength ['>']) cs := by
  simp only [List.cons_append, List.nil_append, tagsIn, BEq.rfl, if_true]
  rfl

theorem tagsIn_comment_cons {c : Char} {cs : List Char}
    (h : (after? ['-', '-', '>'] (c :: cs)).isSome = false) (pos : Nat) :
    tagsIn .comment pos (c :: cs) = tagsIn .comment (pos + c.utf8Size) cs := by
  rw [tagsIn]
  rintro ds rfl rfl
  cases h

theorem tagsIn_characterData_cons {c : Char} {cs : List Char}
    (h : (after? [']', ']', '>'] (c :: cs)).isSome = false) (pos : Nat) :
    tagsIn .characterData pos (c :: cs) = tagsIn .characterData (pos + c.utf8Size) cs := by
  rw [tagsIn]
  rintro ds rfl rfl
  cases h

theorem tagsIn_declaration_cons {c : Char} {cs : List Char} (h : (after? ['>'] (c :: cs)).isSome = false)
    (pos : Nat) : tagsIn .declaration pos (c :: cs) = tagsIn .declaration (pos + c.utf8Size) cs := by
  have hc : (c == '>') = false := by
    rw [beq_eq_false_iff_ne]
    rintro rfl
    cases h
  rw [tagsIn, hc]
  rfl

theorem FindsTag.ended {mode : ScanMode} (closer : List Char) (hcloser : '<' ∉ closer)
    (hclosed : ∀ pos ds, tagsIn mode pos (closer ++ ds) = tagsIn .text (pos + byteLength closer) ds)
    (hpassed : ∀ pos c ds, (after? closer (c :: ds)).isSome = false →
      tagsIn mode pos (c :: ds) = tagsIn mode (pos + c.utf8Size) ds)
    {c : Char} {cs : List Char} (hmode : FindsTag mode cs)
    (htext : ∀ rest, c :: cs = closer ++ rest → FindsTag .text rest) : FindsTag mode (c :: cs) := by
  cases hfound : (after? closer (c :: cs)).isSome with
  | true =>
    obtain ⟨rest, hrest⟩ := Option.isSome_iff_exists.1 hfound
    have hcs := after?_eq_some_iff.1 hrest
    rw [hcs]
    exact (htext rest hcs).append closer fun pos ds _ => hclosed pos ds
  | false =>
    refine hmode.append [c] fun pos ds hds => hpassed pos c ds ?_
    rw [← hfound]
    refine after?_isSome_congr hcloser ?_
    simp only [leadOf, List.takeWhile_cons] at hds ⊢
    rw [hds]

theorem findsTag_of_mark {cs : List Char} (hcomment : FindsTag .comment cs)
    (hdata : FindsTag .characterData cs) (hdeclaration : FindsTag .declaration cs) :
    FindsTag .text ('<' :: '!' :: cs) := by
  have hsize : byteLength ['<', '!'] = 2 := rfl
  cases hdashes : (after? ['-', '-'] cs).isSome with
  | true =>
    refine hcomment.append ['<', '!'] fun pos ds hds => ?_
    rw [← after?_isSome_congr (by decide) hds] at hdashes
    simp [tagsIn, hdashes, hsize]
  | false =>
    cases hbracket : (after? "[CDATA[".toList cs).isSome with
    | true =>
      refine hdata.append ['<', '!'] fun pos ds hds => ?_
      rw [← after?_isSome_congr (by decide) hds] at hdashes hbracket
      simp only [List.cons_append, List.nil_append, tagsIn, hdashes, hbracket, hsize, if_true,
        Bool.false_eq_true, if_false]
    | false =>
      refine hdeclaration.append ['<', '!'] fun pos ds hds => ?_
      rw [← after?_isSome_congr (by decide) hds] at hdashes hbracket
      simp only [List.cons_append, List.nil_append, tagsIn, hdashes, hbracket, hsize,
        Bool.false_eq_true, if_false]

theorem findsTag (cs : List Char) : FindsTag .text cs ∧ FindsTag .comment cs ∧ FindsTag .characterData cs ∧
    FindsTag .declaration cs := by
  induction hsize : cs.length using Nat.strongRecOn generalizing cs with
  | _ size ih =>
    cases cs with
    | nil => exact ⟨.inl (tagsIn_nil _), .inl (tagsIn_nil _), .inl (tagsIn_nil _), .inl (tagsIn_nil _)⟩
    | cons c cs =>
      have ih : ∀ ds : List Char, ds.length < (c :: cs).length → FindsTag .text ds ∧ FindsTag .comment ds ∧
          FindsTag .characterData ds ∧ FindsTag .declaration ds :=
        fun ds hds => ih ds.length (hsize ▸ hds) ds rfl
      have hclosed : ∀ closer rest, closer ≠ [] → c :: cs = closer ++ rest → FindsTag .text rest := by
        intro closer rest hne hcs
        refine (ih rest ?_).1
        have := List.length_pos_iff.2 hne
        simp only [hcs, List.length_append]
        omega
      obtain ⟨htext, hcomment, hdata, hdeclaration⟩ := ih cs (by simp)
      refine ⟨?_, ?_, ?_, ?_⟩
      · by_cases hc : c = '<'
        · subst hc
          cases cs with
          | nil => exact findsTag_of_opening (by simp) (by simp)
          | cons d ds =>
            obtain ⟨-, hcomment', hdata', hdeclaration'⟩ := ih ds (by simp only [List.length_cons]; omega)
            by_cases hmark : d = '!'
            · subst hmark
              exact findsTag_of_mark hcomment' hdata' hdeclaration'
            · by_cases hquery : d = '?'
              · subst hquery
                refine hdeclaration'.append ['<', '?'] fun pos xs _ => ?_
                rw [List.cons_append, List.cons_append, List.nil_append, tagsIn]
                rfl
              · exact findsTag_of_opening (by simpa using hmark) (by simpa using hquery)
        · exact htext.append [c] fun pos ds _ => tagsIn_text_cons hc pos ds
      · exact hcomment.ended ['-', '-', '>'] (by decide) tagsIn_comment_closer
          (fun pos c ds h => tagsIn_comment_cons h pos) fun rest => hclosed _ rest (by simp)
      · exact hdata.ended [']', ']', '>'] (by decide) tagsIn_characterData_closer
          (fun pos c ds h => tagsIn_characterData_cons h pos) fun rest => hclosed _ rest (by simp)
      · exact hdeclaration.ended ['>'] (by decide) tagsIn_declaration_closer
          (fun pos c ds h => tagsIn_declaration_cons h pos) fun rest => hclosed _ rest (by simp)

/-- Tag by tag: no tag is read in a text, or it falls into what is passed over to the first tag, this
tag and a text behind it, and any other tag in this place is read as well. -/
@[elab_as_elim]
theorem tagwise_induction {motive : List Char → Prop}
    (silent : ∀ cs, (∀ pos, tagsIn .text pos cs = []) → motive cs)
    (tag : ∀ lead inner rest, IsTagText inner →
      (∀ pos inner xs, IsTagText inner → tagsIn .text pos (lead ++ '<' :: (inner ++ '>' :: xs)) =
        (Tag.ofInner? (pos + byteLength lead) inner).toList ++
          tagsIn .text (pos + byteLength lead + byteLength inner + 2) xs) →
      motive rest → motive (lead ++ '<' :: (inner ++ '>' :: rest)))
    (cs : List Char) : motive cs := by
  induction hsize : cs.length using Nat.strongRecOn generalizing cs with
  | _ size ih =>
    rcases (findsTag cs).1 with hsilent | ⟨lead, inner, rest, rfl, hinner, hread⟩
    · exact silent cs hsilent
    · refine tag lead inner rest hinner hread (ih rest.length ?_ rest rfl)
      simp only [← hsize, List.length_append, List.length_cons]
      omega

theorem handlerReferences_append (ts us : List Tag) :
    handlerReferences (ts ++ us) = handlerReferences ts ++ handlerReferences us := by
  simp [handlerReferences]

def documentReferences (pos : Nat) (cs : List Char) : List HandlerReference :=
  handlerReferences (tagsIn .text pos cs)

/-- A document falls into pieces: what stands before its first tag, the tag, and the document behind. -/
theorem renamable_document (cs : List Char) : Renamable documentReferences cs := by
  induction cs using tagwise_induction with
  | silent cs hsilent => exact .silent fun pos => by rw [documentReferences, hsilent]; rfl
  | tag lead inner rest hinner hread ih =>
    obtain ⟨ps, rfl, hps⟩ := exists_pieces_of_inner inner
    obtain ⟨qs, rfl, hqs⟩ := ih
    refine ⟨.plain (lead ++ ['<']) :: ps ++ .plain ['>'] :: qs, by simp, fun f pos => ?_⟩
    let behind := pos + byteLength lead + byteLength (textOf (rename f ps)) + 2
    calc documentReferences pos (textOf (rename f (.plain (lead ++ ['<']) :: ps ++ .plain ['>'] :: qs)))
        = documentReferences pos (lead ++ '<' :: (textOf (rename f ps) ++ '>' :: textOf (rename f qs))) := by
          simp
      _ = tagReferences (pos + byteLength lead) (textOf (rename f ps)) ++
            documentReferences behind (textOf (rename f qs)) := by
          rw [documentReferences, hread pos _ _ (hinner.rename f), handlerReferences_append]
          rfl
      _ = references (pos + byteLength lead + 1) (rename f ps) ++ references behind (rename f qs) := by
          rw [hps, hqs]
      _ = references pos (rename f (.plain (lead ++ ['<']) :: ps ++ .plain ['>'] :: qs)) := by
          have hopen : pos + (byteLength lead + '<'.utf8Size) = pos + byteLength lead + 1 := rfl
          have hbehind : pos + byteLength lead + 1 + byteLength (textOf (rename f ps)) + '>'.utf8Size = behind := by
            show _ + 1 = _
            omega
          simp [references, byteLength, hopen, hbehind]

end UiWorkspace.Markup
