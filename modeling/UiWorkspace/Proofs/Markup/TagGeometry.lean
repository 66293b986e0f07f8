import UiWorkspace.Proofs.Markup.AttributeRounds
import UiWorkspace.Proofs.Text.Bytes

/-! Where tags stand. Each tag of a document is the text at its place, from `<` to `>`; the values of its
attributes stand inside it between their quotes, and neither tags nor values overlap. -/
namespace UiWorkspace.Markup

open UiWorkspace.Text

theorem byteLength_bracketed (inner : List Char) :
    byteLength ('<' :: (inner ++ ['>'])) = byteLength inner + 2 := by
  simp only [byteLength, byteLength_append, show '<'.utf8Size = 1 from rfl, show '>'.utf8Size = 1 from rfl]
  omega

theorem span_of_ofInner? {begin : Nat} {inner : List Char} {t : Tag}
    (h : Tag.ofInner? begin inner = some t) : t.span = ⟨begin, begin + byteLength inner + 2⟩ ∧
      t.text = String.ofList ('<' :: (inner ++ ['>'])) := by
  simp only [Tag.ofInner?, Option.ite_none_left_eq_some, Option.some.injEq] at h
  rw [← h.2]
  exact ⟨rfl, rfl⟩

def Tag.StandsIn (t : Tag) (pos : Nat) (cs : List Char) : Prop :=
  ∃ lead inner rest, cs = lead ++ '<' :: (inner ++ '>' :: rest) ∧
    Tag.ofInner? (pos + byteLength lead) inner = some t

theorem Tag.StandsIn.behind {t : Tag} {pos : Nat} {lead cs : List Char}
    (h : t.StandsIn (pos + byteLength lead) cs) : t.StandsIn pos (lead ++ cs) := by
  obtain ⟨lead', inner, rest, rfl, htag⟩ := h
  exact ⟨lead ++ lead', inner, rest, by simp, by rwa [byteLength_append, ← Nat.add_assoc]⟩

theorem Tag.StandsIn.le_start {t : Tag} {pos : Nat} {cs : List Char} (h : t.StandsIn pos cs) :
    pos ≤ t.span.start ∧ t.span.start < t.span.stop := by
  obtain ⟨lead, inner, rest, -, htag⟩ := h
  rw [(span_of_ofInner? htag).1]
  constructor <;> simp only <;> omega

/-- Tags one behind the other, each read where it stands. -/
def StandInOrder (pos : Nat) (cs : List Char) (ts : List Tag) : Prop :=
  (∀ t ∈ ts, t.StandsIn pos cs) ∧ ts.Pairwise fun t u => t.span.stop ≤ u.span.start

theorem standInOrder_tagsIn (pos : Nat) (cs : List Char) : StandInOrder pos cs (tagsIn .text pos cs) := by
  induction cs using tagwise_induction generalizing pos with
  | silent cs hsilent =>
    rw [hsilent pos]
    exact ⟨fun t ht => absurd ht List.not_mem_nil, .nil⟩
  | tag lead inner rest hinner hread ih =>
    obtain ⟨hrest, horder⟩ := ih (pos + byteLength lead + byteLength inner + 2)
    have hpos : pos + byteLength lead + byteLength inner + 2 =
        pos + byteLength (lead ++ '<' :: (inner ++ ['>'])) := by
      rw [byteLength_append, byteLength_bracketed]
      omega
    rw [hread pos inner rest hinner]
    constructor
    · intro t ht
      rcases List.mem_append.1 ht with ht | ht
      · exact ⟨lead, inner, rest, rfl, Option.mem_toList.1 ht⟩
      · have hbehind := hrest t ht
        rw [hpos] at hbehind
        simpa using hbehind.behind
    · refine List.pairwise_append.2 ⟨?_, horder, fun t ht u hu => ?_⟩
      · cases Tag.ofInner? (pos + byteLength lead) inner <;> simp
      · rw [(span_of_ofInner? (Option.mem_toList.1 ht)).1]
        exact (hrest u hu).le_start.1

theorem attributes_standIn {begin : Nat} {inner : List Char} {t : Tag}
    (h : Tag.ofInner? begin inner = some t) : (∀ a ∈ t.attributes, a.StandsIn (begin + 1) inner) ∧
      t.attributes.Pairwise fun a b => a.valueSpan.stop < b.valueSpan.start := by
  have hattributes := attributes_ofInner? begin inner
  rw [h, Option.toList_some, List.flatMap_singleton] at hattributes
  rcases hattributes with hnone | ⟨name, behind, tail, rfl, hread⟩
  · rw [hnone]
    exact ⟨fun a ha => absurd ha List.not_mem_nil, .nil⟩
  · have hrounds := attributeRounds (begin + 1 + byteLength name) behind
    rw [hread]
    refine ⟨fun a ha => ?_, hrounds.pairwise⟩
    obtain ⟨lead, quote, value, rest, hquote, hvalue, hbehind, hplace⟩ :=
      (hrounds.standsIn a ha).behind
    exact ⟨lead, quote, value, rest ++ tail, hquote, hvalue, by rw [hbehind]; simp, hplace⟩

/-- The place of a value in a tag: the text there is the value, between two of the same quote. -/
structure Attribute.IsPlaced (a : Attribute) (tag : Span) (content : String) : Prop where
  begins : tag.start < a.valueSpan.start
  start_le_stop : a.valueSpan.start ≤ a.valueSpan.stop
  ends : a.valueSpan.stop < tag.stop
  slice_value : a.valueSpan.slice content = some a.value
  quoted : ∃ quote, isQuote quote = true ∧ quote ∉ a.value.toList ∧
    (Span.mk (a.valueSpan.start - 1) a.valueSpan.start).slice content = some (String.singleton quote) ∧
    (Span.mk a.valueSpan.stop (a.valueSpan.stop + 1)).slice content = some (String.singleton quote)

/-- The place of a tag: the text there is the tag, from bracket to bracket, with its values in it. -/
structure Tag.IsPlaced (t : Tag) (content : String) : Prop where
  slice_text : t.span.slice content = some t.text
  startsWith_text : startsWith "<" t.text = true
  endsWith_text : endsWith ">" t.text = true
  attributes : ∀ a ∈ t.attributes, a.IsPlaced t.span content
  inOrder : t.attributes.Pairwise fun a b => a.valueSpan.stop < b.valueSpan.start

theorem Attribute.StandsIn.isPlaced {a : Attribute} {content : String} {tag : Span} {stop : Nat}
    {inner : List Char}
    (hinner : IsBetween content (tag.start + 1) stop inner) (hstop : stop < tag.stop)
    (h : a.StandsIn (tag.start + 1) inner) : a.IsPlaced tag content := by
  obtain ⟨lead, quote, value, rest, hquote, hvalue, rfl, htext, hstart, hend⟩ := h
  have hsize : quote.utf8Size = 1 := utf8Size_of_isQuote hquote
  have hopening :
      IsBetween content (a.valueSpan.start - 1) stop ([quote] ++ (value ++ ([quote] ++ rest))) := by
    rw [hstart]
    exact hinner.behind
  have hbehind := hopening.behind
  have hone : byteLength [quote] = 1 := by rw [byteLength, hsize]; rfl
  have hpos : a.valueSpan.start - 1 + 1 = a.valueSpan.start := by omega
  have hspan : a.valueSpan.start + byteLength value = a.valueSpan.stop := by omega
  rw [hone, hpos] at hbehind
  have hclosing := hbehind.behind
  rw [hspan] at hclosing
  exact {
    begins := by omega
    start_le_stop := by omega
    ends := by
      have hlt := hclosing.exists_byte.1
      omega
    slice_value := by
      have hslice := hbehind.before.slice
      rwa [hspan, ← htext] at hslice
    quoted := by
      have hleft := hopening.before.slice
      have hright := hclosing.before.slice
      rw [hone, hpos] at hleft
      rw [hone] at hright
      exact ⟨quote, hquote, by rwa [htext, String.toList_ofList], hleft, hright⟩ }

theorem isBetween_bracketed {content : String} {begin stop : Nat} {inner rest : List Char}
    (h : IsBetween content begin stop ('<' :: (inner ++ '>' :: rest))) :
    IsBetween content begin (begin + byteLength inner + 2) ('<' :: (inner ++ ['>'])) ∧
      IsBetween content (begin + byteLength inner + 2) stop rest := by
  have hparts : '<' :: (inner ++ '>' :: rest) = '<' :: (inner ++ ['>']) ++ rest := by simp
  rw [hparts] at h
  rw [Nat.add_assoc, ← byteLength_bracketed]
  exact ⟨h.before, h.behind⟩

theorem Tag.StandsIn.isPlaced {t : Tag} {content : String} (h : t.StandsIn 0 content.toList) :
    t.IsPlaced content := by
  obtain ⟨lead, inner, rest, hcontent, htag⟩ := h
  rw [Nat.zero_add] at htag
  obtain ⟨hspan, htext⟩ := span_of_ofInner? htag
  obtain ⟨hattributes, horder⟩ := attributes_standIn htag
  have hwhole := isBetween_whole content
  rw [hcontent] at hwhole
  have htagged := hwhole.behind
  rw [Nat.zero_add] at htagged
  exact {
    slice_text := by
      rw [hspan, htext]
      exact (isBetween_bracketed htagged).1.slice
    startsWith_text := by
      have hcons : t.text = "<" ++ String.ofList (inner ++ ['>']) := by
        simp [htext]
      rw [hcons]
      exact startsWith_append _ _
    endsWith_text := by
      have hconcat : t.text = String.ofList ('<' :: inner) ++ ">" := by
        simp [htext, String.append_assoc]
      rw [hconcat]
      exact endsWith_append _ _
    attributes := fun a ha => by
      rw [hspan]
      refine (hattributes a ha).isPlaced htagged.behind_cons.before ?_
      simp only [show '<'.utf8Size = 1 from rfl]
      omega
    inOrder := horder }

end UiWorkspace.Markup
