import UiWorkspace.Proofs.Markup.Pieces

/-! Reading markup whose handlers have got other names. The scan for the end of a tag and the
reading of its attributes need not agree on what is quoted; a name is neutral for both. -/
namespace UiWorkspace.Markup

open UiWorkspace.Text

theorem attributesIn_value {key value : List Char} {quote : Char} (h : quote ∉ value) (start pos : Nat)
    (seen rest : List Char) :
    attributesIn (.value key quote start seen) pos (value ++ quote :: rest) =
      (if key.isEmpty then []
        else [⟨String.ofList key, String.ofList (seen.reverse ++ value), ⟨start, pos + byteLength value⟩⟩])
        ++ attributesIn .gap (pos + byteLength value + quote.utf8Size) rest := by
  induction value generalizing pos seen with
  | nil => cases key <;> simp [attributesIn, byteLength]
  | cons c value ih =>
    obtain ⟨hc, hvalue⟩ := not_or.1 (mt List.mem_cons.2 h)
    simp [attributesIn, Ne.symm hc, ih hvalue, byteLength, Nat.add_assoc]

theorem attributesIn_unclosed {quote : Char} {cs : List Char} (h : quote ∉ cs) (key : List Char)
    (start pos : Nat) (seen : List Char) : attributesIn (.value key quote start seen) pos cs = [] := by
  induction cs generalizing pos seen with
  | nil => simp [attributesIn]
  | cons c cs ih =>
    obtain ⟨hc, hcs⟩ := not_or.1 (mt List.mem_cons.2 h)
    simp [attributesIn, Ne.symm hc, ih hcs]

def attributeReferences (mode : AttributeMode) (pos : Nat) (cs : List Char) : List HandlerReference :=
  (attributesIn mode pos cs).filterMap Attribute.handler?

theorem isNameChar_of_isQuote {c : Char} (h : isQuote c = true) : isNameChar c = false := by
  simp only [isQuote, Bool.or_eq_true, beq_iff_eq] at h
  rcases h with rfl | rfl <;> decide

theorem filterMap_cons_toList {α β : Type} (f : α → Option β) (a : α) (as : List α) :
    (a :: as).filterMap f = (f a).toList ++ as.filterMap f := by
  cases h : f a <;> simp [h]

theorem renamable_value_and_rest (key : List Char) {quote : Char} (hquote : isQuote quote = true)
    {cs : List Char}
    (hgap : ∀ rest, rest.length < cs.length → Renamable (attributeReferences .gap) rest) :
    Renamable (fun pos cs => attributeReferences (.value key quote pos []) pos cs) cs := by
  by_cases hclosed : quote ∈ cs
  · obtain ⟨value, rest, rfl, hvalue⟩ := List.eq_append_cons_of_mem hclosed
    obtain ⟨qs, rfl, hqs⟩ := hgap rest (by simp; omega)
    cases hkey : key.isEmpty with
    | true =>
      refine ⟨.plain (value ++ [quote]) :: qs, by simp, fun f pos => Eq.trans ?_ (hqs f _)⟩
      simp [attributeReferences, attributesIn_value hvalue, hkey, byteLength, Nat.add_assoc]
    | false =>
      obtain ⟨ps, rfl, hps⟩ := renamable_value key value
      refine ⟨ps ++ .plain [quote] :: qs, by simp, fun f pos => ?_⟩
      have hnot : quote ∉ textOf (rename f ps) :=
        mt (mem_textOf_rename (isNameChar_of_isQuote hquote) f ps).1 hvalue
      simp only [rename_append, rename_plain, textOf_append, textOf_plain, references_append, references,
        List.singleton_append, ← hps, ← hqs]
      simp [attributeReferences, attributesIn_value hnot, hkey, valueReferences, byteLength,
        Nat.add_assoc, filterMap_cons_toList]
  · exact .silent fun pos => by simp [attributeReferences, attributesIn_unclosed hclosed]

theorem renamable_attributes (cs : List Char) :
    Renamable (attributeReferences .gap) cs ∧
      (∀ seen, Renamable (attributeReferences (.name seen)) cs) ∧
      (∀ key, Renamable (attributeReferences (.sign key)) cs) ∧
      ∀ key, Renamable (attributeReferences (.opening key)) cs := by
  induction hsize : cs.length using Nat.strongRecOn generalizing cs with
  | _ size ih =>
    cases cs with
    | nil =>
      have hnil : ∀ mode, Renamable (attributeReferences mode) [] := fun mode =>
        .silent fun pos => by simp [attributeReferences, attributesIn]
      exact ⟨hnil _, fun _ => hnil _, fun _ => hnil _, fun _ => hnil _⟩
    | cons c cs =>
      obtain ⟨hgap, hname, hsign, hopening⟩ := ih cs.length (by simp [← hsize]) cs rfl
      -- Each mode goes on to one that depends on the character only.
      have hstep : ∀ mode mode', Renamable (attributeReferences mode') cs →
          (∀ pos rest, attributesIn mode pos (c :: rest) = attributesIn mode' (pos + c.utf8Size) rest) →
          Renamable (attributeReferences mode) (c :: cs) := fun mode mode' hrest hread =>
        .cons (fun pos rest => by simp [attributeReferences, hread]) hrest
      have hopening' : ∀ key, Renamable (attributeReferences (.opening key)) (c :: cs) := by
        intro key
        cases hblank : isAsciiBlank c with
        | true => exact hstep _ _ (hopening key) fun _ _ => by simp [attributesIn, hblank]
        | false =>
          cases hquote : isQuote c with
          | false => exact .silent fun pos => by simp [attributeReferences, attributesIn, hblank, hquote]
          | true =>
            refine .cons (fun pos rest => ?_) (renamable_value_and_rest key hquote fun rest hrest => ?_)
            · simp [attributeReferences, attributesIn, hblank, hquote]
            · exact (ih rest.length (by simp [← hsize]; omega) rest rfl).1
      cases hblank : isAsciiBlank c with
      | true =>
        exact ⟨hstep _ _ hgap fun _ _ => by simp [attributesIn, hblank],
          fun seen => hstep _ _ (hsign seen.reverse) fun _ _ => by simp [attributesIn, hblank],
          fun key => hstep _ _ (hsign key) fun _ _ => by simp [attributesIn, hblank], hopening'⟩
      | false =>
        cases heq : c == '=' with
        | true =>
          exact ⟨hstep _ _ (hopening []) fun _ _ => by simp [attributesIn, hblank, heq],
            fun seen => hstep _ _ (hopening seen.reverse) fun _ _ => by simp [attributesIn, hblank, heq],
            fun key => hstep _ _ (hopening key) fun _ _ => by simp [attributesIn, hblank, heq], hopening'⟩
        | false =>
          exact ⟨hstep _ _ (hname [c]) fun _ _ => by simp [attributesIn, hblank, heq],
            fun seen => hstep _ _ (hname (c :: seen)) fun _ _ => by simp [attributesIn, hblank, heq],
            fun key => hstep _ _ (hname [c]) fun _ _ => by simp [attributesIn, hblank, heq], hopening'⟩

def tagReferences (begin : Nat) (inner : List Char) : List HandlerReference :=
  handlerReferences (Tag.ofInner? begin inner).toList

def isTagNameChar (c : Char) : Bool := !(isBlank c || c == '/')

theorem isTagNameChar_of_isNameChar {c : Char} (h : isNameChar c = true) : isTagNameChar c = true := by
  have hslash : c ≠ '/' := by
    rintro rfl
    cases h
  simp [isTagNameChar, isBlank_of_isNameChar h, hslash]

theorem isTagNameChar_ne_slash {c : Char} (h : isTagNameChar c = true) : c ≠ '/' := by
  rintro rfl
  cases h

theorem tagReferences_closing {inner : List Char} (h : inner.head? = some '/') (begin : Nat) :
    tagReferences begin inner = [] := by
  unfold tagReferences Tag.ofInner?
  simp only [h, beq_self_eq_true, if_true]
  split <;> simp [handlerReferences]

theorem tagReferences_opening {body tail : List Char} (h : (body ++ tail).head? ≠ some '/')
    (htail : tail = ['/'] ∨ tail = [] ∧ body.getLast? ≠ some '/') (begin : Nat) :
    tagReferences begin (body ++ tail) =
      if body.takeWhile isTagNameChar = [] then []
      else attributeReferences .gap (begin + 1 + byteLength (body.takeWhile isTagNameChar))
        (body.dropWhile isTagNameChar) := by
  have hbody : (if (body ++ tail).getLast? == some '/' then (body ++ tail).dropLast
      else body ++ tail) = body := by
    rcases htail with rfl | ⟨rfl, hlast⟩
    · simp
    · rw [List.append_nil, if_neg (by simpa using hlast)]
  have hhead : ((body ++ tail).head? == some '/') = false := by simpa using h
  have hchar : (fun c => !(isBlank c || c == '/')) = isTagNameChar := rfl
  generalize body ++ tail = inner at hhead hbody
  unfold tagReferences Tag.ofInner?
  simp only [hhead, Bool.not_false, Bool.true_and, Bool.false_eq_true, if_false, hbody, hchar,
    List.isEmpty_iff]
  split
  · rfl
  · simp [handlerReferences, attributeReferences]

theorem tagReferences_named {name rest tail : List Char} (hname : name ≠ [])
    (hchars : ∀ c ∈ name, isTagNameChar c = true)
    (hrest : ∀ c, rest.head? = some c → isTagNameChar c = false)
    (htail : tail = ['/'] ∨ tail = [] ∧ (name ++ rest).getLast? ≠ some '/') (begin : Nat) :
    tagReferences begin (name ++ rest ++ tail) =
      attributeReferences .gap (begin + 1 + byteLength name) rest := by
  have hopening : (name ++ rest ++ tail).head? ≠ some '/' := by
    obtain ⟨c, cs, rfl⟩ := List.exists_cons_of_ne_nil hname
    simpa using isTagNameChar_ne_slash (hchars c List.mem_cons_self)
  obtain ⟨htake, hdrop⟩ := takeWhile_append_of_head hchars hrest
  rw [tagReferences_opening hopening htail, htake, hdrop, if_neg hname]

theorem exists_body_tail (inner : List Char) : ∃ body tail, inner = body ++ tail ∧
    (tail = ['/'] ∨ tail = [] ∧ body.getLast? ≠ some '/') := by
  by_cases hlast : inner.getLast? = some '/'
  · obtain ⟨body, rfl⟩ := List.getLast?_eq_some_iff.1 hlast
    exact ⟨body, ['/'], rfl, .inl rfl⟩
  · exact ⟨inner, [], (List.append_nil _).symm, .inr ⟨rfl, hlast⟩⟩

theorem not_isTagNameChar_of_rename {ps : List Piece}
    (h : ∀ c, (textOf ps).head? = some c → isTagNameChar c = false) (f : HandlerName → HandlerName)
    (c : Char) (hc : (textOf (rename f ps)).head? = some c) : isTagNameChar c = false := by
  cases hfirst : (textOf ps).head? with
  | none =>
    rw [List.head?_eq_none_iff] at hfirst
    rw [textOf_rename_eq_nil.2 hfirst] at hc
    cases hc
  | some d =>
    have hd : isNameChar d = false :=
      Bool.eq_false_iff.2 (mt isTagNameChar_of_isNameChar (Bool.eq_false_iff.1 (h d hfirst)))
    rw [(head?_textOf_rename hd f ps).2 hfirst] at hc
    rw [← Option.some.inj hc]
    exact h d hfirst

/-- A tag without its brackets falls into pieces: its name, and behind it the attributes. -/
theorem exists_pieces_of_inner (inner : List Char) : ∃ ps, textOf ps = inner ∧
    ∀ f begin, tagReferences begin (textOf (rename f ps)) = references (begin + 1) (rename f ps) := by
  have hsilent : (∀ begin, tagReferences begin inner = []) → ∃ ps, textOf ps = inner ∧
      ∀ f begin, tagReferences begin (textOf (rename f ps)) = references (begin + 1) (rename f ps) :=
    fun h => ⟨[.plain inner], by simp, fun f begin => by simp [references, h]⟩
  by_cases hclosing : inner.head? = some '/'
  · exact hsilent (tagReferences_closing hclosing)
  obtain ⟨body, tail, rfl, htail⟩ := exists_body_tail inner
  by_cases hname : body.takeWhile isTagNameChar = []
  · exact hsilent fun begin => by rw [tagReferences_opening hclosing htail, if_pos hname]
  obtain ⟨qs, hqs, hread⟩ := (renamable_attributes (body.dropWhile isTagNameChar)).1
  have hbody : body = body.takeWhile isTagNameChar ++ textOf qs := by
    rw [hqs, List.takeWhile_append_dropWhile]
  have hchars : ∀ c ∈ body.takeWhile isTagNameChar, isTagNameChar c = true :=
    fun c hc => List.mem_takeWhile_imp hc
  have hbehind : ∀ c, (textOf qs).head? = some c → isTagNameChar c = false := by
    intro c hc
    have hnot := List.head?_dropWhile_not isTagNameChar body
    rw [← hqs, hc] at hnot
    exact hnot
  generalize body.takeWhile isTagNameChar = name at hname hbody hchars
  subst hbody
  refine ⟨.plain name :: qs ++ [.plain tail], by simp, fun f begin => ?_⟩
  have htail' : tail = ['/'] ∨ tail = [] ∧ (name ++ textOf (rename f qs)).getLast? ≠ some '/' :=
    htail.imp_right fun h => ⟨h.1, mt (getLast?_textOf_rename (by decide) f (.plain name :: qs)).1 h.2⟩
  have htext : textOf (rename f (.plain name :: qs ++ [.plain tail])) =
      name ++ textOf (rename f qs) ++ tail := by simp
  rw [htext, tagReferences_named hname hchars (not_isTagNameChar_of_rename hbehind f) htail', hread]
  simp [references]

end UiWorkspace.Markup
