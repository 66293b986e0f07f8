import UiWorkspace.Proofs.Markup.Continuation
import UiWorkspace.Proofs.Markup.TagGeometry

/-! Commented-out markup. A content is divided into text, comments, character data, declarations and
tags; what is inside of comments and character data is not read. The dashes that open a comment also
count as those of its end, so a comment that begins with `>` or `->` is over there for the reader. -/
namespace UiWorkspace.Markup

open UiWorkspace.Text

inductive SectionKind where
  | comment
  | characterData
  | declaration
  | tag
deriving DecidableEq, Repr

/-- Where tags do not count. -/
def SectionKind.isHidden : SectionKind → Bool
  | .comment | .characterData => true
  | .declaration | .tag => false

structure Marker where
  kind : SectionKind
  opener : List Char
  closer : List Char
deriving DecidableEq, Repr

def markers : List Marker :=
  [⟨.comment, ['<', '!', '-', '-'], ['-', '-', '>']⟩,
    ⟨.characterData, '<' :: '!' :: "[CDATA[".toList, [']', ']', '>']⟩,
    ⟨.declaration, ['<', '?'], ['>']⟩, ⟨.declaration, ['<', '!'], ['>']⟩]

def marker? (cs : List Char) : Option Marker := markers.find? fun m => (after? m.opener cs).isSome

structure Section where
  kind : SectionKind
  span : Span
  inner : List Char
deriving DecidableEq, Repr

/-- Whether the end of the comment shares dashes with its beginning. -/
def startsAbruptly (inner : List Char) : Bool :=
  inner.head? == some '>' || inner.take 2 == ['-', '>']

def Section.isAbrupt (s : Section) : Bool := s.kind == .comment && startsAbruptly s.inner

/-- The sections of a text that begins at some offset. A marked section ends with the first closer
behind its opener, or with the text. -/
inductive IsDivided : Nat → List Char → List Section → Prop
  | ended {pos : Nat} : IsDivided pos [] []
  | text {pos : Nat} {c : Char} {cs : List Char} {sections : List Section} : c ≠ '<' →
      IsDivided (pos + c.utf8Size) cs sections → IsDivided pos (c :: cs) sections
  | stray {pos : Nat} {cs : List Char} {sections : List Section} : marker? ('<' :: cs) = none →
      (∀ inner rest, IsTagText inner → cs ≠ inner ++ '>' :: rest) →
      IsDivided (pos + 1) cs sections → IsDivided pos ('<' :: cs) sections
  | closed {pos stop : Nat} {m : Marker} {behind inner rest : List Char} {sections : List Section} :
      marker? (m.opener ++ behind) = some m → around? m.closer behind = some (inner, rest) →
      stop = pos + byteLength m.opener + byteLength inner + byteLength m.closer →
      IsDivided stop rest sections →
      IsDivided pos (m.opener ++ behind) (⟨m.kind, ⟨pos, stop⟩, inner⟩ :: sections)
  | unclosed {pos : Nat} {m : Marker} {behind : List Char} : marker? (m.opener ++ behind) = some m →
      around? m.closer behind = none → IsDivided pos (m.opener ++ behind)
        [⟨m.kind, ⟨pos, pos + byteLength m.opener + byteLength behind⟩, behind⟩]
  | tag {pos stop : Nat} {inner rest : List Char} {sections : List Section} : IsTagText inner →
      stop = pos + byteLength inner + 2 → IsDivided stop rest sections →
      IsDivided pos ('<' :: (inner ++ '>' :: rest)) (⟨.tag, ⟨pos, stop⟩, inner⟩ :: sections)

theorem mem_markers_of_marker? {cs : List Char} {m : Marker} (h : marker? cs = some m) :
    m ∈ markers ∧ ∃ behind, cs = m.opener ++ behind := by
  rw [marker?] at h
  have hfits : (after? m.opener cs).isSome = true := by simpa only using List.find?_some h
  obtain ⟨behind, hbehind⟩ := Option.isSome_iff_exists.1 hfits
  exact ⟨List.mem_of_find?_eq_some h, behind, after?_eq_some_iff.1 hbehind⟩

theorem length_opener_pos : ∀ m ∈ markers, 0 < m.opener.length := by decide

theorem closer_ne_nil : ∀ m ∈ markers, m.closer ≠ [] := by decide

theorem exists_isDivided (pos : Nat) (cs : List Char) : ∃ sections, IsDivided pos cs sections := by
  induction hsize : cs.length using Nat.strongRecOn generalizing pos cs with
  | _ size ih =>
    have ih : ∀ pos ds, ds.length < cs.length → ∃ sections, IsDivided pos ds sections :=
      fun pos ds hds => ih ds.length (hsize ▸ hds) pos ds rfl
    cases hmarker : marker? cs with
    | some m =>
      obtain ⟨hmem, behind, rfl⟩ := mem_markers_of_marker? hmarker
      cases haround : around? m.closer behind with
      | none => exact ⟨_, .unclosed hmarker haround⟩
      | some found =>
        obtain ⟨inner, rest⟩ := found
        have hopener := length_opener_pos m hmem
        have hcut := (around?_eq_some_iff.1 haround).1
        obtain ⟨sections, hsections⟩ := ih
          (pos + byteLength m.opener + byteLength inner + byteLength m.closer) rest (by
            simp only [hcut, List.length_append]
            omega)
        exact ⟨_, .closed hmarker haround rfl hsections⟩
    | none =>
      cases cs with
      | nil => exact ⟨[], .ended⟩
      | cons c cs =>
        by_cases hc : c = '<'
        · subst hc
          by_cases htag : ∃ inner rest, IsTagText inner ∧ cs = inner ++ '>' :: rest
          · obtain ⟨inner, rest, hinner, rfl⟩ := htag
            obtain ⟨sections, hsections⟩ := ih (pos + byteLength inner + 2) rest (by simp; omega)
            exact ⟨_, .tag hinner rfl hsections⟩
          · obtain ⟨sections, hsections⟩ := ih (pos + 1) cs (by simp)
            exact ⟨sections, .stray hmarker (fun inner rest hinner hcs =>
              htag ⟨inner, rest, hinner, hcs⟩) hsections⟩
        · obtain ⟨sections, hsections⟩ := ih (pos + c.utf8Size) cs (by simp)
          exact ⟨sections, .text hc hsections⟩

theorem IsDivided.le_start {pos : Nat} {cs : List Char} {sections : List Section}
    (h : IsDivided pos cs sections) : ∀ s ∈ sections, pos ≤ s.span.start := by
  induction h with
  | ended => exact fun s hs => absurd hs List.not_mem_nil
  | text _ _ ih => exact fun s hs => Nat.le_of_add_right_le (ih s hs)
  | stray _ _ _ ih => exact fun s hs => Nat.le_of_add_right_le (ih s hs)
  | closed _ _ hstop _ ih =>
    intro s hs
    rcases List.mem_cons.1 hs with rfl | hs
    · exact Nat.le_refl _
    · have := ih s hs
      omega
  | unclosed =>
    intro s hs
    rw [List.mem_singleton.1 hs]
  | tag _ hstop _ ih =>
    intro s hs
    rcases List.mem_cons.1 hs with rfl | hs
    · exact Nat.le_refl _
    · have := ih s hs
      omega

def tagsPast (closer : List Char) (pos : Nat) (cs : List Char) : List Tag :=
  match around? closer cs with
  | none => []
  | some (inner, rest) => tagsIn .text (pos + byteLength inner + byteLength closer) rest

theorem tagsPast_cons {closer : List Char} {c : Char} {cs : List Char}
    (h : (after? closer (c :: cs)).isSome = false) (pos : Nat) :
    tagsPast closer pos (c :: cs) = tagsPast closer (pos + c.utf8Size) cs := by
  rw [tagsPast, tagsPast, around?_cons h]
  cases around? closer cs with
  | none => rfl
  | some found => simp [byteLength, Nat.add_assoc]

theorem tagsIn_eq_tagsPast {mode : ScanMode} {closer : List Char} (hcloser : closer ≠ [])
    (hclosed : ∀ pos ds, tagsIn mode pos (closer ++ ds) = tagsIn .text (pos + byteLength closer) ds)
    (hpassed : ∀ pos c ds, (after? closer (c :: ds)).isSome = false →
      tagsIn mode pos (c :: ds) = tagsIn mode (pos + c.utf8Size) ds) (pos : Nat) (cs : List Char) :
    tagsIn mode pos cs = tagsPast closer pos cs := by
  induction cs generalizing pos with
  | nil =>
    obtain ⟨c, closer, rfl⟩ := List.exists_cons_of_ne_nil hcloser
    rw [tagsIn_nil]
    rfl
  | cons c cs ih =>
    cases hhere : (after? closer (c :: cs)).isSome with
    | true =>
      obtain ⟨rest, hrest⟩ := Option.isSome_iff_exists.1 hhere
      rw [after?_eq_some_iff.1 hrest, hclosed, tagsPast, around?_append_self hcloser]
      rfl
    | false => rw [hpassed pos c cs hhere, tagsPast_cons hhere, ih]

theorem tagsIn_comment (pos : Nat) (cs : List Char) :
    tagsIn .comment pos cs = tagsPast ['-', '-', '>'] pos cs :=
  tagsIn_eq_tagsPast (by decide) tagsIn_comment_closer (fun pos _ _ h => tagsIn_comment_cons h pos) pos cs

theorem tagsIn_characterData (pos : Nat) (cs : List Char) :
    tagsIn .characterData pos cs = tagsPast [']', ']', '>'] pos cs :=
  tagsIn_eq_tagsPast (by decide) tagsIn_characterData_closer
    (fun pos _ _ h => tagsIn_characterData_cons h pos) pos cs

theorem tagsIn_declaration (pos : Nat) (cs : List Char) :
    tagsIn .declaration pos cs = tagsPast ['>'] pos cs :=
  tagsIn_eq_tagsPast (by decide) tagsIn_declaration_closer
    (fun pos _ _ h => tagsIn_declaration_cons h pos) pos cs

theorem tagsPast_append {closer : List Char} {first : Char} (hfirst : closer.head? = some first)
    (skipped : List Char) (h : first ∉ skipped) (pos : Nat) (cs : List Char) :
    tagsPast closer pos (skipped ++ cs) = tagsPast closer (pos + byteLength skipped) cs := by
  obtain ⟨closer, rfl⟩ := List.head?_eq_some_iff.1 hfirst
  induction skipped generalizing pos with
  | nil => rfl
  | cons c skipped ih =>
    obtain ⟨hc, hskipped⟩ := not_or.1 (mt List.mem_cons.2 h)
    have hhere : (after? (first :: closer) (c :: (skipped ++ cs))).isSome = false := by
      simp [after?, hc]
    rw [List.cons_append, tagsPast_cons hhere, ih hskipped, byteLength, Nat.add_assoc]

theorem marker?_marked (cs : List Char) : marker? ('<' :: '!' :: cs) =
    if (after? ['-', '-'] cs).isSome then some ⟨.comment, ['<', '!', '-', '-'], ['-', '-', '>']⟩
    else if (after? "[CDATA[".toList cs).isSome then
      some ⟨.characterData, '<' :: '!' :: "[CDATA[".toList, [']', ']', '>']⟩
    else some ⟨.declaration, ['<', '!'], ['>']⟩ := by
  have hfits : ∀ opener : List Char, after? ('<' :: '!' :: opener) ('<' :: '!' :: cs) = after? opener cs :=
    fun _ => rfl
  rw [marker?, markers, List.find?_cons, List.find?_cons, hfits, hfits]
  cases (after? ['-', '-'] cs).isSome with
  | true => rfl
  | false => cases (after? "[CDATA[".toList cs).isSome <;> rfl

theorem head?_of_unmarked {cs : List Char} (h : marker? ('<' :: cs) = none) :
    cs.head? ≠ some '!' ∧ cs.head? ≠ some '?' := by
  constructor <;> intro hhead <;> obtain ⟨ds, rfl⟩ := List.head?_eq_some_iff.1 hhead
  · rw [marker?_marked] at h
    split at h
    · cases h
    · split at h <;> cases h
  · cases h

theorem tagsIn_marker {cs : List Char} {m : Marker} (h : marker? cs = some m) (pos : Nat) :
    tagsIn .text pos cs = tagsPast m.closer pos cs := by
  obtain ⟨hmem, behind, hcs⟩ := mem_markers_of_marker? h
  have hopener : ∃ c ds, cs = '<' :: c :: ds ∧ (c = '!' ∨ c = '?') := by
    simp only [markers, List.mem_cons, List.not_mem_nil, or_false] at hmem
    rcases hmem with rfl | rfl | rfl | rfl <;> exact ⟨_, _, hcs, by decide⟩
  obtain ⟨c, ds, rfl, rfl | rfl⟩ := hopener
  · rw [marker?_marked] at h
    rw [tagsIn_marked, markedMode]
    split at h
    next hdashes =>
      obtain rfl := Option.some.inj h
      rw [if_pos hdashes, tagsIn_comment]
      exact (tagsPast_append rfl ['<', '!'] (by decide) pos ds).symm
    next hdashes =>
      split at h
      next hbracket =>
        obtain rfl := Option.some.inj h
        rw [if_neg hdashes, if_pos hbracket, tagsIn_characterData]
        exact (tagsPast_append rfl ['<', '!'] (by decide) pos ds).symm
      next hbracket =>
        obtain rfl := Option.some.inj h
        rw [if_neg hdashes, if_neg hbracket, tagsIn_declaration]
        exact (tagsPast_append rfl ['<', '!'] (by decide) pos ds).symm
  · have hquery : marker? ('<' :: '?' :: ds) = some ⟨.declaration, ['<', '?'], ['>']⟩ := rfl
    obtain rfl := Option.some.inj (hquery.symm.trans h)
    rw [tagsIn, tagsIn_declaration]
    exact (tagsPast_append rfl ['<', '?'] (by decide) pos ds).symm

theorem startsAbruptly_append (inner rest : List Char) :
    startsAbruptly (inner ++ (['-', '-', '>'] ++ rest)) = startsAbruptly inner := by
  match inner with
  | [] => rfl
  | [c] => simp [startsAbruptly]
  | c :: d :: inner => rfl

theorem tagsPast_comment {behind : List Char} (hproper : startsAbruptly behind = false) (pos : Nat) :
    tagsPast ['-', '-', '>'] pos ('<' :: '!' :: '-' :: '-' :: behind) =
      tagsPast ['-', '-', '>'] (pos + 4) behind := by
  obtain ⟨hgreater, hdash⟩ := Bool.or_eq_false_iff.1 hproper
  have hfirst : (after? ['-', '-', '>'] ('-' :: '-' :: behind)).isSome = false := by
    refine after?_isSome_eq_false fun rest hrest => ?_
    obtain rfl : behind = '>' :: rest := by simpa using hrest
    cases hgreater
  have hsecond : (after? ['-', '-', '>'] ('-' :: behind)).isSome = false := by
    refine after?_isSome_eq_false fun rest hrest => ?_
    obtain rfl : behind = '-' :: '>' :: rest := by simpa using hrest
    cases hdash
  calc tagsPast ['-', '-', '>'] pos ('<' :: '!' :: '-' :: '-' :: behind)
      = tagsPast ['-', '-', '>'] (pos + 2) ('-' :: '-' :: behind) :=
        tagsPast_append rfl ['<', '!'] (by decide) pos _
    _ = tagsPast ['-', '-', '>'] (pos + 3) ('-' :: behind) := tagsPast_cons hfirst _
    _ = tagsPast ['-', '-', '>'] (pos + 4) behind := tagsPast_cons hsecond _

/-- Reading goes on behind the end of a section, unless it is an abrupt comment. -/
theorem tagsPast_opener {m : Marker} (hmem : m ∈ markers) {behind : List Char}
    (hproper : (m.kind == .comment && startsAbruptly behind) = false) (pos : Nat) :
    tagsPast m.closer pos (m.opener ++ behind) =
      tagsPast m.closer (pos + byteLength m.opener) behind := by
  simp only [markers, List.mem_cons, List.not_mem_nil, or_false] at hmem
  rcases hmem with rfl | rfl | rfl | rfl
  · exact tagsPast_comment hproper pos
  · exact tagsPast_append rfl _ (by decide) pos behind
  · exact tagsPast_append rfl _ (by decide) pos behind
  · exact tagsPast_append rfl _ (by decide) pos behind

theorem tagsIn_stray {cs : List Char} (hmarker : marker? ('<' :: cs) = none)
    (hstray : ∀ inner rest, IsTagText inner → cs ≠ inner ++ '>' :: rest) (pos : Nat) :
    tagsIn .text pos ('<' :: cs) = [] := by
  obtain ⟨hmark, hquery⟩ := head?_of_unmarked hmarker
  rcases exists_tag_of_opening hmark hquery with ⟨inner, rest, hcs, hinner⟩ | hsilent
  · exact absurd hcs (hstray inner rest hinner)
  · exact hsilent pos

theorem closer_of_comment : ∀ m ∈ markers, m.kind = .comment → m.closer = ['-', '-', '>'] := by decide

theorem Marker.startsAbruptly_inner {m : Marker} (hmem : m ∈ markers) {behind inner rest : List Char}
    (haround : around? m.closer behind = some (inner, rest)) :
    (m.kind == .comment && startsAbruptly behind) = (m.kind == .comment && startsAbruptly inner) := by
  cases hkind : m.kind == .comment with
  | false => rfl
  | true =>
    have hcut := (around?_eq_some_iff.1 haround).1
    rw [closer_of_comment m hmem (beq_iff_eq.1 hkind), List.append_assoc] at hcut
    rw [hcut, startsAbruptly_append]

theorem isAbrupt_eq_false {first s : Section} {sections : List Section}
    (hproper : ∀ a ∈ first :: sections, a.isAbrupt = true → s.span.start < a.span.start)
    (hle : first.span.start ≤ s.span.start) : first.isAbrupt = false :=
  eq_false_of_ne_true fun habrupt => absurd (hproper first List.mem_cons_self habrupt) (Nat.not_lt.2 hle)

/-- No tag lies in a comment or in character data, unless there is an abrupt comment before it. -/
theorem IsDivided.apart {pos : Nat} {cs : List Char} {sections : List Section}
    (h : IsDivided pos cs sections) : ∀ t ∈ tagsIn .text pos cs, ∀ s ∈ sections,
      s.kind.isHidden = true → (∀ a ∈ sections, a.isAbrupt = true → s.span.start < a.span.start) →
      t.span.Apart s.span := by
  induction h with
  | ended => exact fun t _ s hs => absurd hs List.not_mem_nil
  | text hc _ ih =>
    rw [tagsIn_text_cons hc]
    exact ih
  | stray hmarker hstray =>
    rw [tagsIn_stray hmarker hstray]
    exact fun t ht => absurd ht List.not_mem_nil
  | @closed pos stop m behind inner rest sections hmarker haround hstop hrest ih =>
    intro t ht s hs hhidden hproper
    have hmem := (mem_markers_of_marker? hmarker).1
    have hle := (IsDivided.closed hmarker haround hstop hrest).le_start s hs
    have hwhole : (m.kind == .comment && startsAbruptly behind) = false := by
      rw [m.startsAbruptly_inner hmem haround]
      exact isAbrupt_eq_false hproper hle
    rw [tagsIn_marker hmarker, tagsPast_opener hmem hwhole, tagsPast, haround] at ht
    simp only [← hstop] at ht
    rcases List.mem_cons.1 hs with rfl | hs
    · exact .inr ((standInOrder_tagsIn _ _).1 t ht).le_start.1
    · exact ih t ht s hs hhidden fun a ha => hproper a (List.mem_cons_of_mem _ ha)
  | @unclosed pos m behind hmarker haround =>
    intro t ht s hs hhidden hproper
    have hmem := (mem_markers_of_marker? hmarker).1
    have hle := (IsDivided.unclosed hmarker haround).le_start s hs
    have hwhole : (m.kind == .comment && startsAbruptly behind) = false := isAbrupt_eq_false hproper hle
    rw [tagsIn_marker hmarker, tagsPast_opener hmem hwhole, tagsPast, haround] at ht
    cases ht
  | @tag pos stop inner rest sections hinner hstop hrest ih =>
    intro t ht s hs hhidden hproper
    rw [hinner.tagsIn, ← hstop] at ht
    rcases List.mem_cons.1 hs with rfl | hs
    · cases hhidden
    · rcases List.mem_append.1 ht with ht | ht
      · left
        rw [(span_of_ofInner? (Option.mem_toList.1 ht)).1]
        exact hstop ▸ hrest.le_start s hs
      · exact ih t ht s hs hhidden fun a ha => hproper a (List.mem_cons_of_mem _ ha)

theorem tagsIn_abrupt (pos : Nat) (rest : List Char) :
    tagsIn .text pos ("<!-->".toList ++ rest) = tagsIn .text (pos + 5) rest ∧
      tagsIn .text pos ("<!--->".toList ++ rest) = tagsIn .text (pos + 6) rest := by
  constructor
  · exact (tagsIn_marked pos ('-' :: '-' :: '>' :: rest)).trans (tagsIn_comment_closer (pos + 2) rest)
  · calc tagsIn .text pos ("<!--->".toList ++ rest)
        = tagsIn .comment (pos + 2) ('-' :: '-' :: '-' :: '>' :: rest) := tagsIn_marked pos _
      _ = tagsIn .comment (pos + 3) ('-' :: '-' :: '>' :: rest) := tagsIn_comment_cons rfl (pos + 2)
      _ = tagsIn .text (pos + 6) rest := tagsIn_comment_closer (pos + 3) rest

/-- Every content is divided, and no tag of it lies in a comment or in character data that no abrupt
comment comes before. -/
theorem tags_outside_comments (content : String) : (∃ sections, IsDivided 0 content.toList sections) ∧
    ∀ sections, IsDivided 0 content.toList sections → ∀ t ∈ tags content, ∀ s ∈ sections,
      s.kind.isHidden = true → (∀ a ∈ sections, a.isAbrupt = true → s.span.start < a.span.start) →
      t.span.Apart s.span :=
  ⟨exists_isDivided 0 content.toList, fun _ hdivided => hdivided.apart⟩

theorem tags_outside_comments_mixed : ∃ sections,
    IsDivided 0 "<!-- <a/> --><b/><!--><c/>-->".toList sections ∧
      ∃ s ∈ sections, s.kind = .comment ∧ s.span = ⟨0, 13⟩ ∧
        ∀ t ∈ tags "<!-- <a/> --><b/><!--><c/>-->", t.span.Apart s.span := by
  have hdivided : IsDivided 0 "<!-- <a/> --><b/><!--><c/>-->".toList
      [⟨.comment, ⟨0, 13⟩, " <a/> ".toList⟩, ⟨.tag, ⟨13, 17⟩, "b/".toList⟩,
        ⟨.comment, ⟨17, 29⟩, "><c/>".toList⟩] :=
    @IsDivided.closed 0 13 ⟨.comment, "<!--".toList, "-->".toList⟩ " <a/> --><b/><!--><c/>-->".toList
      " <a/> ".toList "<b/><!--><c/>-->".toList _ (by decide) (by decide) rfl
      (@IsDivided.tag 13 17 "b/".toList "<!--><c/>-->".toList _ (by unfold IsTagText; decide) rfl
        (@IsDivided.closed 17 29 ⟨.comment, "<!--".toList, "-->".toList⟩ "><c/>-->".toList
          "><c/>".toList [] [] (by decide) (by decide) rfl .ended))
  refine ⟨_, hdivided, _, List.mem_cons_self, rfl, rfl, fun t ht => ?_⟩
  exact (tags_outside_comments _).2 _ hdivided t ht _ List.mem_cons_self rfl (by decide)

end UiWorkspace.Markup
