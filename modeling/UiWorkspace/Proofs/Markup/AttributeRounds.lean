import UiWorkspace.Proofs.Markup.AssignedNames

/-! Attributes round by round. A round passes over blanks and a name, and over a quoted value if an
equals sign follows. Where the values stand, each between its quotes and one behind the other, is read
off the rounds. -/
namespace UiWorkspace.Markup

open UiWorkspace.Text

def Stops (p : Char → Bool) (cs : List Char) : Prop := ∀ c, cs.head? = some c → p c = false

theorem stops_dropWhile (p : Char → Bool) (cs : List Char) : Stops p (cs.dropWhile p) := by
  intro c hc
  have hnot := List.head?_dropWhile_not p cs
  rw [hc] at hnot
  exact hnot

@[simp] theorem stops_nil (p : Char → Bool) : Stops p [] := nofun

@[simp] theorem stops_cons {p : Char → Bool} {c : Char} {cs : List Char} :
    Stops p (c :: cs) ↔ p c = false := by
  simp [Stops]

/-- Blanks, a name and blanks, each as far as it goes. The name may be missing. -/
structure IsKeyPart (blanks name gap rest : List Char) : Prop where
  allBlank_blanks : AllBlank blanks
  stops_blanks : Stops isAsciiBlank (name ++ (gap ++ rest))
  isKeyChar_name : ∀ c ∈ name, isKeyChar c = true
  stops_name : Stops isKeyChar (gap ++ rest)
  allBlank_gap : AllBlank gap
  stops_gap : Stops isAsciiBlank rest

theorem exists_stops (p : Char → Bool) (cs : List Char) :
    ∃ lead rest, cs = lead ++ rest ∧ (∀ c ∈ lead, p c = true) ∧ Stops p rest :=
  ⟨cs.takeWhile p, cs.dropWhile p, List.takeWhile_append_dropWhile.symm,
    fun _ hc => List.mem_takeWhile_imp hc, stops_dropWhile p cs⟩

theorem exists_isKeyPart (cs : List Char) : ∃ blanks name gap rest,
    cs = blanks ++ (name ++ (gap ++ rest)) ∧ IsKeyPart blanks name gap rest := by
  obtain ⟨blanks, behindBlanks, rfl, hblanks, hstopsBlanks⟩ := exists_stops isAsciiBlank cs
  obtain ⟨name, behindName, rfl, hname, hstopsName⟩ := exists_stops isKeyChar behindBlanks
  obtain ⟨gap, rest, rfl, hgap, hstopsGap⟩ := exists_stops isAsciiBlank behindName
  exact ⟨blanks, name, gap, rest, rfl, hblanks, hstopsBlanks, hname, hstopsName, hgap, hstopsGap⟩

theorem IsKeyPart.of_unnamed {blanks gap rest : List Char} (h : IsKeyPart blanks [] gap rest) :
    gap = [] ∧ (rest = [] ∨ rest.head? = some '=') := by
  have hgap : gap = [] := by
    cases gap with
    | nil => rfl
    | cons c gap =>
      have hblank := h.allBlank_gap c List.mem_cons_self
      rw [h.stops_blanks c rfl] at hblank
      cases hblank
  subst hgap
  refine ⟨rfl, ?_⟩
  cases rest with
  | nil => exact .inl rfl
  | cons c rest =>
    right
    by_contra hsign
    have hkey : isKeyChar c = true := isKeyChar_iff.2 ⟨h.stops_gap c rfl, by simpa using hsign⟩
    rw [h.stops_name c rfl] at hkey
    cases hkey

theorem attributesIn_allBlank (mode : AttributeMode)
    (hmode : ∀ pos c cs, isAsciiBlank c = true →
      attributesIn mode pos (c :: cs) = attributesIn mode (pos + c.utf8Size) cs)
    {blanks : List Char} (hblanks : AllBlank blanks) (pos : Nat) (rest : List Char) :
    attributesIn mode pos (blanks ++ rest) = attributesIn mode (pos + byteLength blanks) rest :=
  attributesIn_blanks mode hmode ⟨blanks, List.all_eq_true.2 hblanks⟩ pos rest

theorem attributesIn_sign_eq_gap {rest : List Char} (hblank : Stops isAsciiBlank rest)
    (hsign : rest.head? ≠ some '=') (name : List Char) (pos : Nat) :
    attributesIn (.sign name) pos rest = attributesIn .gap pos rest := by
  cases rest with
  | nil => simp only [attributesIn]
  | cons c rest =>
    have hsign : (c == '=') = false := by simpa using hsign
    have hblank : isAsciiBlank c = false := stops_cons.1 hblank
    simp [attributesIn, hblank, hsign]

theorem attributesIn_sign_eq_opening (name : List Char) (pos : Nat) (rest : List Char) :
    attributesIn (.sign name) pos ('=' :: rest) = attributesIn (.opening name) (pos + 1) rest := by
  simp [attributesIn, isAsciiBlank]
  rfl

namespace IsKeyPart

variable {blanks name gap rest : List Char} (h : IsKeyPart blanks name gap rest) (pos : Nat)

include h

theorem attributesIn_gap (seen : List Char) (hrest : rest ≠ [] ∨ gap ≠ []) :
    attributesIn (.name seen) pos (gap ++ rest) =
      attributesIn (.sign seen.reverse) (pos + byteLength gap) rest := by
  cases gap with
  | cons c gap =>
    have hc := h.allBlank_gap c List.mem_cons_self
    have hgap : AllBlank gap := fun d hd => h.allBlank_gap d (List.mem_cons_of_mem c hd)
    have hsign := attributesIn_allBlank (.sign seen.reverse)
      (fun pos c cs hc => by rw [Markup.attributesIn, if_pos hc]) hgap (pos + c.utf8Size) rest
    rw [List.cons_append, Markup.attributesIn, if_pos hc, hsign, byteLength, Nat.add_assoc]
  | nil =>
    obtain ⟨c, rest, rfl⟩ := List.exists_cons_of_ne_nil (hrest.resolve_right fun hgap => hgap rfl)
    have hblank := stops_cons.1 h.stops_gap
    have hkey := stops_cons.1 h.stops_name
    have hc : (c == '=') = true := by simpa [isKeyChar, hblank] using hkey
    obtain rfl := beq_iff_eq.1 hc
    simp [Markup.attributesIn, isAsciiBlank, byteLength]

theorem attributesIn_eq_sign (hname : name ≠ []) :
    attributesIn .gap pos (blanks ++ (name ++ (gap ++ rest))) =
      attributesIn (.sign name) (pos + byteLength (blanks ++ (name ++ gap))) rest := by
  have hskip := attributesIn_allBlank .gap (fun pos c cs hc => by rw [Markup.attributesIn, if_pos hc])
    h.allBlank_blanks pos (name ++ (gap ++ rest))
  rw [hskip, attributesIn_gap_name hname h.isKeyChar_name]
  by_cases hrest : rest ≠ [] ∨ gap ≠ []
  · rw [h.attributesIn_gap _ _ hrest, List.reverse_reverse]
    simp [Nat.add_assoc]
  · obtain ⟨rfl, rfl⟩ : rest = [] ∧ gap = [] := by
      simpa only [not_or, not_not] using hrest
    simp only [List.append_nil, Markup.attributesIn]

theorem attributesIn_valueless (hname : name ≠ []) (hsign : rest.head? ≠ some '=') :
    attributesIn .gap pos (blanks ++ (name ++ (gap ++ rest))) =
      attributesIn .gap (pos + byteLength (blanks ++ (name ++ gap))) rest := by
  rw [h.attributesIn_eq_sign pos hname, attributesIn_sign_eq_gap h.stops_gap hsign]

end IsKeyPart

theorem IsKeyPart.attributesIn_signed {blanks name gap rest : List Char}
    (h : IsKeyPart blanks name gap ('=' :: rest)) (pos : Nat) :
    attributesIn .gap pos (blanks ++ (name ++ (gap ++ '=' :: rest))) =
      attributesIn (.opening name) (pos + byteLength (blanks ++ (name ++ gap)) + 1) rest := by
  by_cases hname : name = []
  · subst hname
    obtain ⟨rfl, -⟩ := h.of_unnamed
    have hskip := attributesIn_allBlank .gap (fun pos c cs hc => by rw [attributesIn, if_pos hc])
      h.allBlank_blanks pos ('=' :: rest)
    simp only [List.nil_append, List.append_nil, hskip]
    simp [attributesIn, isAsciiBlank]
    rfl
  · rw [h.attributesIn_eq_sign pos hname, attributesIn_sign_eq_opening]

/-- The attributes that are read round by round in a text which begins at some offset. -/
inductive AttributeRounds : Nat → List Char → List Attribute → Prop
  | ended {pos : Nat} {blanks : List Char} : AllBlank blanks → AttributeRounds pos blanks []
  | valueless {pos : Nat} {blanks name gap rest : List Char} {attributes : List Attribute} :
      IsKeyPart blanks name gap rest → name ≠ [] → rest.head? ≠ some '=' →
      AttributeRounds (pos + byteLength (blanks ++ (name ++ gap))) rest attributes →
      AttributeRounds pos (blanks ++ (name ++ (gap ++ rest))) attributes
  | unquoted {pos : Nat} {blanks name gap behind rest : List Char} :
      IsKeyPart blanks name gap ('=' :: (behind ++ rest)) → AllBlank behind →
      Stops isAsciiBlank rest → Stops isQuote rest →
      AttributeRounds pos (blanks ++ (name ++ (gap ++ '=' :: (behind ++ rest)))) []
  | unclosed {pos : Nat} {blanks name gap behind rest : List Char} {quote : Char} :
      IsKeyPart blanks name gap ('=' :: (behind ++ quote :: rest)) → AllBlank behind →
      isQuote quote = true → quote ∉ rest →
      AttributeRounds pos (blanks ++ (name ++ (gap ++ '=' :: (behind ++ quote :: rest)))) []
  | valued {pos start : Nat} {blanks name gap behind value rest : List Char} {quote : Char}
      {attributes : List Attribute} :
      IsKeyPart blanks name gap ('=' :: (behind ++ quote :: (value ++ quote :: rest))) →
      AllBlank behind → isQuote quote = true → quote ∉ value →
      start = pos + byteLength (blanks ++ openedBy name gap behind quote) →
      AttributeRounds (start + byteLength value + 1) rest attributes →
      AttributeRounds pos
        (blanks ++ (name ++ (gap ++ '=' :: (behind ++ quote :: (value ++ quote :: rest)))))
        ((if name.isEmpty then []
          else [⟨String.ofList name, String.ofList value, ⟨start, start + byteLength value⟩⟩]) ++ attributes)

theorem utf8Size_of_isQuote {c : Char} (h : isQuote c = true) : c.utf8Size = 1 := by
  simp only [isQuote, Bool.or_eq_true, beq_iff_eq] at h
  rcases h with rfl | rfl <;> rfl

theorem attributesIn_opening_blanks (name : List Char) {blanks : List Char} (h : AllBlank blanks)
    (pos : Nat) (rest : List Char) : attributesIn (.opening name) pos (blanks ++ rest) =
      attributesIn (.opening name) (pos + byteLength blanks) rest :=
  attributesIn_allBlank _ (fun pos c cs hc => by rw [attributesIn, if_pos hc]) h pos rest

theorem attributesIn_opening_quote (name : List Char) {quote : Char} (h : isQuote quote = true)
    (pos : Nat) (rest : List Char) : attributesIn (.opening name) pos (quote :: rest) =
      attributesIn (.value name quote (pos + 1) []) (pos + 1) rest := by
  simp [attributesIn, isAsciiBlank_of_isQuote h, h, utf8Size_of_isQuote h]

theorem attributeRounds_unnamed {blanks gap rest : List Char} (hkey : IsKeyPart blanks [] gap rest)
    (hsign : rest.head? ≠ some '=') (pos : Nat) : AttributeRounds pos (blanks ++ (gap ++ rest))
      (attributesIn .gap pos (blanks ++ (gap ++ rest))) := by
  obtain ⟨rfl, hrest⟩ := hkey.of_unnamed
  obtain rfl := hrest.resolve_right hsign
  have hskip := attributesIn_allBlank .gap (fun pos c cs hc => by rw [attributesIn, if_pos hc])
    hkey.allBlank_blanks pos []
  simp only [List.append_nil] at hskip
  rw [List.append_nil, List.append_nil, hskip, attributesIn]
  exact .ended hkey.allBlank_blanks

theorem attributeRounds_signed {blanks name gap rest : List Char}
    (hkey : IsKeyPart blanks name gap ('=' :: rest)) (pos : Nat)
    (hshorter : ∀ next cs, cs.length < rest.length → AttributeRounds next cs (attributesIn .gap next cs)) :
    AttributeRounds pos (blanks ++ (name ++ (gap ++ '=' :: rest)))
      (attributesIn .gap pos (blanks ++ (name ++ (gap ++ '=' :: rest)))) := by
  obtain ⟨behind, opened, rfl, hbehind, hstops⟩ := exists_stops isAsciiBlank rest
  rw [hkey.attributesIn_signed, attributesIn_opening_blanks _ hbehind]
  cases opened with
  | nil =>
    rw [attributesIn]
    exact .unquoted hkey hbehind hstops (stops_nil _)
  | cons quote opened =>
    cases hquote : isQuote quote with
    | false =>
      rw [attributesIn, stops_cons.1 hstops, hquote]
      exact .unquoted hkey hbehind hstops (stops_cons.2 hquote)
    | true =>
      rw [attributesIn_opening_quote _ hquote]
      by_cases hclosed : quote ∈ opened
      · obtain ⟨value, rest, rfl, hvalue⟩ := List.eq_append_cons_of_mem hclosed
        rw [attributesIn_value hvalue, utf8Size_of_isQuote hquote]
        refine .valued hkey hbehind hquote hvalue ?_ (hshorter _ rest ?_)
        · simp only [openedBy, byteLength_append, byteLength, utf8Size_of_isQuote hquote,
            show '='.utf8Size = 1 from rfl]
          omega
        · simp only [List.length_append, List.length_cons]
          omega
      · rw [attributesIn_unclosed hclosed]
        exact .unclosed hkey hbehind hquote hclosed

theorem attributeRounds (pos : Nat) (cs : List Char) : AttributeRounds pos cs (attributesIn .gap pos cs) := by
  induction hsize : cs.length using Nat.strongRecOn generalizing pos cs with
  | _ size ih =>
    obtain ⟨blanks, name, gap, rest, rfl, hkey⟩ := exists_isKeyPart cs
    by_cases hsign : rest.head? = some '='
    · obtain ⟨rest, rfl⟩ := List.head?_eq_some_iff.1 hsign
      refine attributeRounds_signed hkey pos fun next cs hshorter => ih cs.length ?_ next cs rfl
      simp only [← hsize, List.length_append, List.length_cons]
      omega
    · by_cases hname : name = []
      · subst hname
        exact attributeRounds_unnamed hkey hsign pos
      · rw [hkey.attributesIn_valueless pos hname hsign]
        refine .valueless hkey hname hsign (ih rest.length ?_ _ rest rfl)
        have := List.length_pos_iff.2 hname
        simp only [← hsize, List.length_append]
        omega

def Attribute.StandsIn (a : Attribute) (pos : Nat) (cs : List Char) : Prop :=
  ∃ lead quote value rest, isQuote quote = true ∧ quote ∉ value ∧
    cs = lead ++ quote :: (value ++ quote :: rest) ∧ a.value = String.ofList value ∧
    a.valueSpan.start = pos + byteLength lead + 1 ∧
    a.valueSpan.stop = pos + byteLength lead + 1 + byteLength value

theorem Attribute.StandsIn.behind {a : Attribute} {pos : Nat} {lead cs : List Char}
    (h : a.StandsIn (pos + byteLength lead) cs) : a.StandsIn pos (lead ++ cs) := by
  obtain ⟨lead', quote, value, rest, hquote, hvalue, rfl, htext, hstart, hstop⟩ := h
  exact ⟨lead ++ lead', quote, value, rest, hquote, hvalue, by simp, htext,
    by rw [hstart, byteLength_append, Nat.add_assoc pos],
    by rw [hstop, byteLength_append, Nat.add_assoc pos]⟩

namespace AttributeRounds

variable {pos : Nat} {cs : List Char} {attributes : List Attribute}

theorem standsIn (h : AttributeRounds pos cs attributes) : ∀ a ∈ attributes, a.StandsIn pos cs := by
  induction h with
  | ended => exact fun a ha => absurd ha List.not_mem_nil
  | unquoted => exact fun a ha => absurd ha List.not_mem_nil
  | unclosed => exact fun a ha => absurd ha List.not_mem_nil
  | @valueless pos blanks name gap rest attributes _ _ _ _ ih =>
    intro a ha
    have hbehind := (ih a ha).behind
    simpa using hbehind
  | @valued pos start blanks name gap behind value rest quote attributes _ _ hquote hvalue hstart _ ih =>
    intro a ha
    have hsize : byteLength (blanks ++ openedBy name gap behind quote) =
        byteLength (blanks ++ (name ++ (gap ++ '=' :: behind))) + 1 := by
      simp only [openedBy, byteLength_append, byteLength, utf8Size_of_isQuote hquote]
      omega
    rcases List.mem_append.1 ha with ha | ha
    · have ha : a = ⟨String.ofList name, String.ofList value, ⟨start, start + byteLength value⟩⟩ := by
        split at ha
        · cases ha
        · exact List.mem_singleton.1 ha
      rw [ha]
      refine ⟨blanks ++ (name ++ (gap ++ '=' :: behind)), quote, value, rest, hquote, hvalue, by simp,
        rfl, ?_, ?_⟩ <;>
      · simp only [hstart, hsize]
        omega
    · have hpos : start + byteLength value + 1 =
          pos + byteLength (blanks ++ openedBy name gap behind quote ++ (value ++ [quote])) := by
        rw [byteLength_append, byteLength_append value, hstart]
        simp only [byteLength, utf8Size_of_isQuote hquote]
        omega
      have hplaced := ih a ha
      rw [hpos] at hplaced
      have hbehind := hplaced.behind
      simpa [openedBy] using hbehind

theorem le_start (h : AttributeRounds pos cs attributes) {a : Attribute} (ha : a ∈ attributes) :
    pos < a.valueSpan.start := by
  obtain ⟨lead, _, _, _, _, _, _, _, hstart, _⟩ := h.standsIn a ha
  omega

theorem pairwise (h : AttributeRounds pos cs attributes) :
    attributes.Pairwise fun a b => a.valueSpan.stop < b.valueSpan.start := by
  induction h with
  | ended => exact .nil
  | unquoted => exact .nil
  | unclosed => exact .nil
  | valueless _ _ _ _ ih => exact ih
  | valued _ _ _ _ _ hrest ih =>
    split
    · exact ih
    · refine .cons (fun b hb => ?_) ih
      have := hrest.le_start hb
      simp only
      omega

end AttributeRounds

end UiWorkspace.Markup
