import UiWorkspace.Proofs.Markup.TagBounds

/-! Markup that goes on. What stands behind a text changes none of the tags read in it, and where
nothing is left open it is read by itself, its places moved behind the text. -/
namespace UiWorkspace.Markup

open UiWorkspace.Text

def Attribute.shift (n : Nat) (a : Attribute) : Attribute := { a with valueSpan := a.valueSpan.shift n }

def Tag.shift (n : Nat) (t : Tag) : Tag :=
  { t with span := t.span.shift n, attributes := t.attributes.map (Attribute.shift n) }

def AttributeMode.shift (n : Nat) : AttributeMode → AttributeMode
  | .value key quote start seen => .value key quote (n + start) seen
  | mode => mode

def ScanMode.shift (n : Nat) : ScanMode → ScanMode
  | .tag begin quote seen => .tag (n + begin) quote seen
  | mode => mode

theorem attributesIn_shift (n : Nat) (mode : AttributeMode) (pos : Nat) (cs : List Char) :
    attributesIn (mode.shift n) (n + pos) cs = (attributesIn mode pos cs).map (Attribute.shift n) := by
  fun_induction attributesIn mode pos cs <;>
    simp_all +zetaDelta [attributesIn, AttributeMode.shift, Nat.add_assoc, Attribute.shift, Span.shift]

theorem Tag.ofInner?_shift (n begin : Nat) (inner : List Char) :
    Tag.ofInner? (n + begin) inner = (Tag.ofInner? begin inner).map (Tag.shift n) := by
  have hattributes : ∀ start cs, (attributesIn .gap start cs).map (Attribute.shift n) =
      attributesIn .gap (n + start) cs := fun start cs => (attributesIn_shift n .gap start cs).symm
  unfold Tag.ofInner?
  cases inner.head? == some '/' with
  | true =>
    simp only [if_true]
    split
    · rfl
    · simp only [Option.map_some, Tag.shift, Span.shift, List.map_nil, Nat.add_assoc]
  | false =>
    simp only [Bool.false_eq_true, if_false]
    generalize (!false && inner.getLast? == some '/') = selfClosing
    generalize (if selfClosing = true then inner.dropLast else inner) = body
    split
    · rfl
    · simp only [Option.map_some, Tag.shift, Span.shift, hattributes, Nat.add_assoc]

theorem tagsIn_shift (n : Nat) (mode : ScanMode) (pos : Nat) (cs : List Char) :
    tagsIn (mode.shift n) (n + pos) cs = (tagsIn mode pos cs).map (Tag.shift n) := by
  fun_induction tagsIn mode pos cs <;>
    simp_all [tagsIn, ScanMode.shift, Nat.add_assoc, Tag.ofInner?_shift, Option.toList_map]

/-- What is open where a text ends, if it is read to its end. -/
inductive Ending where
  /-- Nothing, and no `<` is left. -/
  | outside
  | inComment
  | inCharacterData
  | inDeclaration
  | inTag
  /-- A tag is broken by another `<`, and reading ends there. -/
  | brokenTag
deriving DecidableEq, Repr

def ScanMode.quote : ScanMode → Option Char
  | .tag _ quote _ => quote
  | _ => none

def ScanMode.ending : ScanMode → Ending
  | .text => .outside
  | .comment => .inComment
  | .characterData => .inCharacterData
  | .declaration => .inDeclaration
  | .tag .. => .inTag

/-- How the reading of the tags in `cs` comes to its end. -/
def endingIn : ScanMode → Nat → List Char → Ending
  | mode, _, [] => mode.ending
  | .text, pos, '<' :: '!' :: cs =>
    if (after? ['-', '-'] cs).isSome then endingIn .comment (pos + 2) cs
    else if (after? "[CDATA[".toList cs).isSome then endingIn .characterData (pos + 2) cs
    else endingIn .declaration (pos + 2) cs
  | .text, pos, '<' :: '?' :: cs => endingIn .declaration (pos + 2) cs
  | .text, pos, '<' :: cs => endingIn (.tag pos none []) (pos + 1) cs
  | .text, pos, c :: cs => endingIn .text (pos + c.utf8Size) cs
  | .comment, pos, '-' :: '-' :: '>' :: cs => endingIn .text (pos + 3) cs
  | .comment, pos, c :: cs => endingIn .comment (pos + c.utf8Size) cs
  | .characterData, pos, ']' :: ']' :: '>' :: cs => endingIn .text (pos + 3) cs
  | .characterData, pos, c :: cs => endingIn .characterData (pos + c.utf8Size) cs
  | .declaration, pos, c :: cs =>
    if c == '>' then endingIn .text (pos + 1) cs
    else endingIn .declaration (pos + c.utf8Size) cs
  | .tag begin (some quote) seen, pos, c :: cs =>
    endingIn (.tag begin (if c == quote then none else some quote) (c :: seen)) (pos + c.utf8Size) cs
  | .tag begin none seen, pos, c :: cs =>
    if c == '>' then endingIn .text (pos + 1) cs
    else if c == '<' then .brokenTag
    else endingIn (.tag begin (if isQuote c then some c else none) (c :: seen)) (pos + c.utf8Size) cs

def ending (content : String) : Ending := endingIn .text 0 content.toList

theorem mem_of_endingIn {mode : ScanMode} {pos : Nat} {cs : List Char}
    (h : endingIn mode pos cs = .outside) (hmode : mode.ending ≠ .outside) : '>' ∈ cs := by
  fun_induction endingIn mode pos cs <;> simp_all [ScanMode.ending]

/-- Whether a text begins with `lead` is settled by its beginning up to a character that cannot
stand in `lead` except at the end. -/
theorem after?_isSome_append {lead cs : List Char} {c : Char} (hc : c ∈ cs) (hlead : c ∉ lead.dropLast)
    (ds : List Char) : (after? lead (cs ++ ds)).isSome = (after? lead cs).isSome := by
  induction lead generalizing cs with
  | nil => rfl
  | cons l lead ih =>
    cases cs with
    | nil => cases hc
    | cons d cs =>
      rw [List.cons_append, after?, after?]
      split
      next hld =>
        cases lead with
        | nil => rfl
        | cons l' lead =>
          rw [List.dropLast_cons_cons, List.mem_cons, not_or] at hlead
          refine ih ((List.mem_cons.1 hc).resolve_left ?_) hlead.2
          rw [← beq_iff_eq.1 hld]
          exact hlead.1
      next => rfl

theorem after?_isSome_eq_false {lead cs : List Char} (h : ∀ rest, cs ≠ lead ++ rest) :
    (after? lead cs).isSome = false := by
  cases hfound : after? lead cs with
  | none => rfl
  | some rest => exact absurd (after?_eq_some_iff.1 hfound) (h rest)

theorem leadOf_append_of_head {ds : List Char} (hds : ds.head? = some '<') (cs : List Char) :
    leadOf (cs ++ ds) = leadOf cs := by
  obtain ⟨ds, rfl⟩ := List.head?_eq_some_iff.1 hds
  induction cs with
  | nil => rfl
  | cons c cs ih => by_cases hc : c = '<' <;> simp_all [leadOf]

/-- What is read of a text that comes behind one with this ending. -/
def Ending.tagsBehind (e : Ending) (pos : Nat) (ds : List Char) : List Tag :=
  if e = .outside then tagsIn .text pos ds else []

/-- What is read from some place on, with the text behind or without it. -/
def IsTail (behind cs ds : List Char) : Prop := behind = cs ∨ behind = cs ++ ds

theorem IsTail.cons {behind cs ds : List Char} (h : IsTail behind cs ds) (c : Char) :
    IsTail (c :: behind) (c :: cs) ds := h.imp (congrArg _) (congrArg _)

theorem tagsIn_append_step {mode mode' : ScanMode} {pos : Nat} (found : List Tag) (taken : List Char)
    {rest ds : List Char} {e : Ending}
    (hstep : ∀ behind, IsTail behind rest ds → tagsIn mode pos (taken ++ behind) =
      found ++ tagsIn mode' (pos + byteLength taken) behind)
    (hrest : tagsIn mode' (pos + byteLength taken) (rest ++ ds) =
      tagsIn mode' (pos + byteLength taken) rest ++
        e.tagsBehind (pos + byteLength taken + byteLength rest) ds) :
    tagsIn mode pos (taken ++ rest ++ ds) =
      tagsIn mode pos (taken ++ rest) ++ e.tagsBehind (pos + byteLength (taken ++ rest)) ds := by
  rw [List.append_assoc, hstep _ (.inr rfl), hstep _ (.inl rfl), hrest, byteLength_append,
    List.append_assoc, Nat.add_assoc]

/-- A tag that is not read where something is left open. -/
def probe : List Char := ['<', 'a', '>']

theorem tagsIn_probe {mode : ScanMode} (hquote : IsQuoteOrNone mode.quote) (pos : Nat) :
    tagsIn mode pos probe = mode.ending.tagsBehind pos probe := by
  cases mode with
  | tag begin quote seen =>
    cases quote with
    | none => simp [probe, tagsIn, ScanMode.ending, Ending.tagsBehind]
    | some quote =>
      have hne : ∀ c, isQuote c = false → (c == quote) = false := by
        intro c hc
        rw [beq_eq_false_iff_ne]
        rintro rfl
        rw [hquote c rfl] at hc
        cases hc
      simp only [probe, tagsIn, hne '<' rfl, hne 'a' rfl, Bool.false_eq_true, if_false,
        ScanMode.ending, Ending.tagsBehind, reduceCtorEq]
  | _ => simp [probe, tagsIn, ScanMode.ending, Ending.tagsBehind]

/-- What is open is settled by the `>` that closes it, or by the probe. -/
theorem closed_or_probe {mode : ScanMode} {pos : Nat} {cs ds : List Char}
    (hds : endingIn mode pos cs = .outside ∨ ds = probe) (hmode : mode.ending ≠ .outside) :
    '>' ∈ cs ∨ ds = probe :=
  hds.imp_left (mem_of_endingIn · hmode)

theorem IsTail.after?_isSome {behind cs ds lead : List Char} (h : IsTail behind cs ds)
    (hclosed : '>' ∈ cs ∨ ds = probe) (hlead : '>' ∉ lead.dropLast) (hopener : '<' ∉ lead) :
    (after? lead behind).isSome = (after? lead cs).isSome := by
  rcases h with rfl | rfl
  · rfl
  · rcases hclosed with hclosed | rfl
    · exact after?_isSome_append hclosed hlead ds
    · exact after?_isSome_congr hopener (leadOf_append_of_head rfl cs)

def markedMode (cs : List Char) : ScanMode :=
  if (after? ['-', '-'] cs).isSome then .comment
  else if (after? "[CDATA[".toList cs).isSome then .characterData
  else .declaration

theorem tagsIn_marked (pos : Nat) (cs : List Char) :
    tagsIn .text pos ('<' :: '!' :: cs) = tagsIn (markedMode cs) (pos + 2) cs := by
  rw [tagsIn, markedMode]
  split
  · rfl
  · split <;> rfl

theorem IsTail.markedMode {behind cs ds : List Char} (h : IsTail behind cs ds)
    (hclosed : '>' ∈ cs ∨ ds = probe) : markedMode behind = markedMode cs := by
  rw [Markup.markedMode, Markup.markedMode, h.after?_isSome hclosed (by decide) (by decide),
    h.after?_isSome hclosed (by decide) (by decide)]

theorem tagsIn_append_marked {mode : ScanMode} {pos : Nat} {cs ds : List Char} {e : Ending}
    (hmode : markedMode cs = mode) (hclosed : '>' ∈ cs ∨ ds = probe)
    (hrest : tagsIn mode (pos + 2) (cs ++ ds) =
      tagsIn mode (pos + 2) cs ++ e.tagsBehind (pos + 2 + byteLength cs) ds) :
    tagsIn .text pos ('<' :: '!' :: cs ++ ds) =
      tagsIn .text pos ('<' :: '!' :: cs) ++ e.tagsBehind (pos + byteLength ('<' :: '!' :: cs)) ds := by
  refine tagsIn_append_step [] ['<', '!'] (fun behind hbehind => ?_) hrest
  rw [← hmode, ← hbehind.markedMode hclosed]
  exact tagsIn_marked pos behind

theorem IsTail.not_ahead {behind cs ds closer : List Char} {c : Char} (h : IsTail behind cs ds)
    (hclosed : '>' ∈ cs ∨ ds = probe) (hlead : '>' ∉ closer.dropLast) (hopener : '<' ∉ closer)
    (hopen : ∀ rest, c :: cs ≠ closer ++ rest) : (after? closer (c :: behind)).isSome = false := by
  rw [(h.cons c).after?_isSome (hclosed.imp_left (List.mem_cons_of_mem c)) hlead hopener]
  exact after?_isSome_eq_false hopen

theorem IsTail.head?_ne {behind cs ds : List Char} (h : IsTail behind cs ds) {d : Char} (hd : d ≠ '<')
    (hcs : ∀ rest, cs ≠ d :: rest) (hds : cs = [] → ds = probe) : behind.head? ≠ some d := by
  intro hfirst
  obtain ⟨rest, rfl⟩ := List.head?_eq_some_iff.1 hfirst
  cases cs with
  | nil =>
    rcases h with h | h
    · cases h
    · rw [hds rfl] at h
      exact hd (List.cons.inj h).1
  | cons c cs =>
    have hc : d = c := by
      rcases h with h | h <;> exact (List.cons.inj h).1
    exact hcs cs (hc ▸ rfl)

/-- Where nothing is left open, what comes behind is read by itself. -/
theorem tagsIn_append {mode : ScanMode} (hquote : IsQuoteOrNone mode.quote) {pos : Nat} {cs ds : List Char}
    (hds : endingIn mode pos cs = .outside ∨ ds = probe) :
    tagsIn mode pos (cs ++ ds) =
      tagsIn mode pos cs ++ (endingIn mode pos cs).tagsBehind (pos + byteLength cs) ds := by
  have hunquoted : IsQuoteOrNone none := by
    rintro quote ⟨⟩
  -- Each step takes the same characters with the text behind as without it.
  fun_induction endingIn mode pos cs with
  | case1 mode pos =>
    rw [tagsIn_nil]
    rcases hds with hended | rfl
    · cases mode with
      | text => rfl
      | _ => cases hended
    · exact tagsIn_probe hquote pos
  | case2 pos cs hdashes ih =>
    exact tagsIn_append_marked (if_pos hdashes) (closed_or_probe hds (by decide)) (ih hunquoted hds)
  | case3 pos cs hdashes hbracket ih =>
    exact tagsIn_append_marked ((if_neg hdashes).trans (if_pos hbracket))
      (closed_or_probe hds (by decide)) (ih hunquoted hds)
  | case4 pos cs hdashes hbracket ih =>
    exact tagsIn_append_marked ((if_neg hdashes).trans (if_neg hbracket))
      (closed_or_probe hds (by decide)) (ih hunquoted hds)
  | case5 pos cs ih =>
    refine tagsIn_append_step [] ['<', '?'] (fun behind _ => ?_) (ih hunquoted hds)
    simp only [List.cons_append, List.nil_append, tagsIn]
    rfl
  | case6 pos cs hmark hquery ih =>
    refine tagsIn_append_step [] ['<'] (fun behind hbehind => ?_) (ih hunquoted hds)
    have hprobe : cs = [] → ds = probe := by
      rintro rfl
      rcases hds with hended | hprobe
      · cases hended
      · exact hprobe
    exact tagsIn_opening (hbehind.head?_ne (by decide) hmark hprobe)
      (hbehind.head?_ne (by decide) hquery hprobe) pos
  | case7 pos c cs _ _ hc ih =>
    exact tagsIn_append_step [] [c] (fun behind _ => tagsIn_text_cons hc pos behind) (ih hunquoted hds)
  | case8 pos cs ih =>
    refine tagsIn_append_step [] ['-', '-', '>'] (fun behind _ => ?_) (ih hunquoted hds)
    simp only [List.cons_append, List.nil_append, tagsIn]
    rfl
  | case9 pos c cs hopen ih =>
    refine tagsIn_append_step [] [c] (fun behind hbehind => tagsIn_comment_cons ?_ pos) (ih hunquoted hds)
    refine hbehind.not_ahead (closed_or_probe hds (by decide)) (by decide) (by decide) ?_
    exact fun rest hrest => (List.cons.inj hrest).elim (hopen rest)
  | case10 pos cs ih =>
    refine tagsIn_append_step [] [']', ']', '>'] (fun behind _ => ?_) (ih hunquoted hds)
    simp only [List.cons_append, List.nil_append, tagsIn]
    rfl
  | case11 pos c cs hopen ih =>
    refine tagsIn_append_step [] [c] (fun behind hbehind => tagsIn_characterData_cons ?_ pos)
      (ih hunquoted hds)
    refine hbehind.not_ahead (closed_or_probe hds (by decide)) (by decide) (by decide) ?_
    exact fun rest hrest => (List.cons.inj hrest).elim (hopen rest)
  | case12 pos c cs hc ih =>
    obtain rfl := beq_iff_eq.1 hc
    refine tagsIn_append_step [] ['>'] (fun behind _ => ?_) (ih hunquoted hds)
    simp only [List.singleton_append, tagsIn, hc, if_true]
    rfl
  | case13 pos c cs hc ih =>
    refine tagsIn_append_step [] [c] (fun behind _ => ?_) (ih hunquoted hds)
    simp only [List.singleton_append, tagsIn, hc]
    rfl
  | case14 begin quote seen pos c cs ih =>
    refine tagsIn_append_step [] [c] (fun behind _ => ?_) (ih (hquote.behind rfl) hds)
    rw [List.singleton_append, tagsIn]
    rfl
  | case15 begin seen pos c cs hc ih =>
    obtain rfl := beq_iff_eq.1 hc
    refine tagsIn_append_step (Tag.ofInner? begin seen.reverse).toList ['>'] (fun behind _ => ?_)
      (ih hunquoted hds)
    rw [List.singleton_append, tagsIn, if_pos hc]
    rfl
  | case16 begin seen pos c cs hgreater hless =>
    rcases hds with hended | rfl
    · cases hended
    · rw [List.cons_append, tagsIn, tagsIn, if_neg hgreater, if_pos hless, if_neg hgreater, if_pos hless]
      rfl
  | case17 begin seen pos c cs hgreater hless ih =>
    have hbehind : quoteBehind none c = some (if isQuote c then some c else none) := by
      simp [quoteBehind, hgreater, hless]
    refine tagsIn_append_step [] [c] (fun behind _ => ?_) (ih (hquote.behind hbehind) hds)
    rw [List.singleton_append, tagsIn, if_neg hgreater, if_neg hless]
    rfl

theorem tagsIn_prefix (pos : Nat) (cs ds : List Char) :
    tagsIn .text pos cs <+: tagsIn .text pos (cs ++ ds) := by
  induction cs using tagwise_induction generalizing pos with
  | silent cs hsilent =>
    rw [hsilent pos]
    exact List.nil_prefix
  | tag lead inner rest hinner hread ih =>
    rw [List.append_assoc, List.cons_append, List.append_assoc, List.cons_append,
      hread pos inner _ hinner, hread pos inner _ hinner, List.prefix_append_right_inj]
    exact ih _

theorem tags_string_append (content more : String) :
    tags (content ++ more) = tagsIn .text 0 (content.toList ++ more.toList) := by
  rw [tags, String.toList_append]

/-- A text that goes on only adds tags at the end. What comes behind is read by itself exactly where
reading came to its end outside of comments, declarations and tags; the tags of a text that leaves
something open may be lost, but never those before. -/
theorem tags_append (content : String) :
    (∀ more, tags content <+: tags (content ++ more)) ∧
      (ending content = .outside ↔ ∀ more, tags (content ++ more) =
        tags content ++ (tags more).map (Tag.shift content.utf8ByteSize)) := by
  have hunquoted : IsQuoteOrNone ScanMode.text.quote := nofun
  have hbehind : ∀ more : String, tagsIn .text (0 + byteLength content.toList) more.toList =
      (tags more).map (Tag.shift content.utf8ByteSize) := by
    intro more
    have hsize : content.utf8ByteSize = byteLength content.toList := by
      rw [← utf8ByteSize_ofList, String.ofList_toList]
    rw [hsize, Nat.zero_add]
    exact tagsIn_shift (byteLength content.toList) .text 0 more.toList
  refine ⟨fun more => ?_, fun h more => ?_, fun h => ?_⟩
  · rw [tags_string_append]
    exact tagsIn_prefix 0 content.toList more.toList
  · rw [tags_string_append, tagsIn_append hunquoted (.inl h), ← hbehind]
    exact congrArg _ (if_pos h)
  · by_contra hopen
    have hprobe := h (String.ofList probe)
    have hlost : tags (content ++ String.ofList probe) = tags content ++ [] := by
      rw [tags_string_append, String.toList_ofList, tagsIn_append hunquoted (.inr rfl)]
      exact congrArg _ (if_neg hopen)
    rw [hlost, List.append_cancel_left_eq] at hprobe
    have hnone : tags (String.ofList probe) = [] := List.map_eq_nil_iff.1 hprobe.symm
    exact absurd hnone (by decide)

end UiWorkspace.Markup
