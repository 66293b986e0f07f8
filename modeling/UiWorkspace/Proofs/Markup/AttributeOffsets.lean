import UiWorkspace.Proofs.Markup.TagGeometry
import UiWorkspace.Proofs.Text.Bytes

/-! Attributes read by offsets. The bytes of a content are looked at one by one, and names and values are
cut out of it where they begin and end. Every look and every cut succeeds, and the attributes are those
that are read character by character. -/
namespace UiWorkspace.Markup

open UiWorkspace.Text

def attributesOpened? (content : String) (stop : Nat) (next : Nat → Option (List Attribute))
    (name : String) (opening : Nat) : Option (List Attribute) := do
  if !(← holdsAt? (bytes content) isQuote stop opening) then return []
  let quote ← (bytes content)[opening]?
  let inside ← bytesBetween? (bytes content) (opening + 1) stop
  match inside.idxOf? quote with
  | none => return []
  | some size =>
    let valueSpan := Span.mk (opening + 1) (opening + 1 + size)
    let found ← if name.isEmpty then some [] else
      (valueSpan.slice content).map fun value => [⟨name, value, valueSpan⟩]
    return found ++ (← next (valueSpan.stop + 1))

def attributesBehind? (content : String) (stop : Nat) (next : Nat → Option (List Attribute))
    (name : String) (sign : Nat) : Option (List Attribute) := do
  if !(← holdsAt? (bytes content) (· == '=') stop sign) then next sign
  else attributesOpened? content stop next name (← skip? (bytes content) isAsciiBlank stop (sign + 1))

/-- The attributes between two offsets. There is no answer when a cut or a look fails, or when the
rounds run out. -/
def attributesBetween? (content : String) (stop : Nat) : (rounds place : Nat) → Option (List Attribute)
  | 0, _ => none
  | rounds + 1, place => do
    let nameStart ← skip? (bytes content) isAsciiBlank stop place
    if stop ≤ nameStart then return []
    let nameStop ← skip? (bytes content) isKeyChar stop nameStart
    let name ← (Span.mk nameStart nameStop).slice content
    let sign ← skip? (bytes content) isAsciiBlank stop nameStop
    attributesBehind? content stop (attributesBetween? content stop rounds) name sign

theorem isAsciiTest_isAsciiBlank : IsAsciiTest isAsciiBlank := by
  intro c d hc hd
  simp (disch := decide) only [isAsciiBlank, beq_of_not_ascii hc, beq_of_not_ascii hd]

theorem isAsciiTest_isKeyChar : IsAsciiTest isKeyChar := by
  intro c d hc hd
  simp (disch := decide) only [isKeyChar, isAsciiTest_isAsciiBlank c d hc hd, beq_of_not_ascii hc,
    beq_of_not_ascii hd]

theorem isAsciiTest_isQuote : IsAsciiTest isQuote := by
  intro c d hc hd
  simp (disch := decide) only [isQuote, beq_of_not_ascii hc, beq_of_not_ascii hd]

section Attributes

variable {content : String} {behind opened : List Char} {start stop : Nat}
  {next : Nat → Option (List Attribute)}

theorem attributesBehind?_valueless {rest : List Char} (h : IsBetween content start stop rest)
    (hsign : rest.head? ≠ some '=') (name : String) :
    attributesBehind? content stop next name start = next start := by
  have hlook := h.holdsAt? (isAsciiTest_beq (d := '=') (by decide))
  have hholds : rest.head?.any (· == '=') = false := by
    cases rest with
    | nil => rfl
    | cons c rest => simpa using hsign
  rw [hholds] at hlook
  simp [attributesBehind?, hlook]

theorem attributesBehind?_signed (h : IsBetween content start stop ('=' :: (behind ++ opened)))
    (hbehind : AllBlank behind) (hopened : Stops isAsciiBlank opened) (name : String) :
    attributesBehind? content stop next name start =
      attributesOpened? content stop next name (start + 1 + byteLength behind) := by
  have hlook := h.holdsAt? (isAsciiTest_beq (d := '=') (by decide))
  have hskip := h.behind_cons.skip? isAsciiTest_isAsciiBlank hbehind hopened
  rw [show '='.utf8Size = 1 from rfl] at hskip
  simp [attributesBehind?, hlook, hskip]

theorem attributesOpened?_unquoted (h : IsBetween content start stop opened)
    (hopened : Stops isQuote opened) (name : String) : attributesOpened? content stop next name start = some [] := by
  have hlook := h.holdsAt? isAsciiTest_isQuote
  have hholds : opened.head?.any isQuote = false := by
    cases opened with
    | nil => rfl
    | cons c opened => exact stops_cons.1 hopened
  rw [hholds] at hlook
  simp [attributesOpened?, hlook]

theorem isAscii_of_isQuote {c : Char} (h : isQuote c = true) : isAscii c = true := by
  simp only [isQuote, Bool.or_eq_true, beq_iff_eq] at h
  rcases h with rfl | rfl <;> decide

theorem attributesOpened?_quote {quote : Char} {inside : List Char} (next : Nat → Option (List Attribute))
    (hquote : isQuote quote = true) (h : IsBetween content start stop (quote :: inside)) :
    ∃ b, (∀ cs, b ∈ utf8 cs ↔ quote ∈ cs) ∧ utf8 [quote] = [b] ∧ ∀ name : String,
      attributesOpened? content stop next name start =
        match (utf8 inside).idxOf? b with
        | none => some []
        | some size => do
          let valueSpan := Span.mk (start + 1) (start + 1 + size)
          let found ← if name.isEmpty then some [] else
            (valueSpan.slice content).map fun value => [⟨name, value, valueSpan⟩]
          return found ++ (← next (valueSpan.stop + 1)) := by
  obtain ⟨b, hb, hmem⟩ := exists_byte_of_isAscii (isAscii_of_isQuote hquote)
  have hlook := h.holdsAt? isAsciiTest_isQuote
  rw [List.head?_cons, Option.any_some, hquote] at hlook
  obtain ⟨-, b', hb', hbyte⟩ := h.exists_byte
  obtain rfl : b' = b := List.mem_singleton.1 (hb ▸ hb')
  have hinside := h.behind_cons.bytesBetween?
  rw [utf8Size_of_isQuote hquote] at hinside
  refine ⟨b', hmem, by rw [utf8, List.flatMap_singleton, hb], fun name => ?_⟩
  simp only [attributesOpened?, hlook, hbyte, hinside]
  rfl

theorem attributesOpened?_unclosed {quote : Char} {inside : List Char} (hquote : isQuote quote = true)
    (h : IsBetween content start stop (quote :: inside)) (hinside : quote ∉ inside) (name : String) :
    attributesOpened? content stop next name start = some [] := by
  obtain ⟨b, hmem, -, hread⟩ := attributesOpened?_quote next hquote h
  rw [hread, List.idxOf?_eq_none_iff.2 (mt (hmem inside).1 hinside)]

theorem attributesOpened?_valued {quote : Char} {value rest : List Char} (hquote : isQuote quote = true)
    (h : IsBetween content start stop (quote :: (value ++ quote :: rest))) (hvalue : quote ∉ value)
    (name : String) : attributesOpened? content stop next name start =
      (next (start + 1 + byteLength value + 1)).map fun more =>
        (if name.isEmpty then []
          else [⟨name, String.ofList value, ⟨start + 1, start + 1 + byteLength value⟩⟩]) ++ more := by
  obtain ⟨b, hmem, hb, hread⟩ := attributesOpened?_quote next hquote h
  have hfound : (utf8 (value ++ quote :: rest)).idxOf? b = some (byteLength value) := by
    have hbytes : utf8 (value ++ quote :: rest) = utf8 value ++ b :: utf8 rest := by
      rw [utf8_append, ← List.singleton_append, utf8_append, hb, List.singleton_append]
    have hnot : (utf8 value).findIdx? (· == b) = none :=
      List.idxOf?_eq_none_iff.2 (mt (hmem value).1 hvalue)
    rw [hbytes, List.idxOf?, List.findIdx?_append, hnot, List.findIdx?_cons, beq_self_eq_true]
    simp
  have hslice := h.behind_cons.before.slice
  rw [utf8Size_of_isQuote hquote] at hslice
  rw [hread, hfound]
  simp only [hslice]
  cases name.isEmpty <;> cases next (start + 1 + byteLength value + 1) <;> rfl

theorem attributesBetween?_succ {blanks name gap rest : List Char} (hkey : IsKeyPart blanks name gap rest)
    (h : IsBetween content start stop (blanks ++ (name ++ (gap ++ rest))))
    (hgoes : name ++ (gap ++ rest) ≠ []) (rounds : Nat) : attributesBetween? content stop (rounds + 1) start =
      attributesBehind? content stop (attributesBetween? content stop rounds) (String.ofList name)
        (start + byteLength blanks + byteLength name + byteLength gap) := by
  have hblanks := h.skip? isAsciiTest_isAsciiBlank hkey.allBlank_blanks hkey.stops_blanks
  have hname := h.behind.skip? isAsciiTest_isKeyChar hkey.isKeyChar_name hkey.stops_name
  have hgap := h.behind.behind.skip? isAsciiTest_isAsciiBlank hkey.allBlank_gap hkey.stops_gap
  have hslice := h.behind.before.slice
  have hnot : ¬stop ≤ start + byteLength blanks := by
    have hpos := byteLength_pos hgoes
    have hstop := h.behind.stop_eq
    omega
  rw [attributesBetween?]
  simp only [hblanks, hname, hslice, hgap, hnot, Option.bind_eq_bind, Option.bind_some, if_false]

theorem attributesBetween?_signed {blanks name gap : List Char}
    (hkey : IsKeyPart blanks name gap ('=' :: (behind ++ opened))) (hbehind : AllBlank behind)
    (hopened : Stops isAsciiBlank opened)
    (h : IsBetween content start stop (blanks ++ (name ++ (gap ++ '=' :: (behind ++ opened)))))
    (rounds : Nat) : ∃ place, place = start + byteLength (blanks ++ (name ++ (gap ++ '=' :: behind))) ∧
      IsBetween content place stop opened ∧ attributesBetween? content stop (rounds + 1) start =
        attributesOpened? content stop (attributesBetween? content stop rounds) (String.ofList name)
          place := by
  have hsign := h.behind.behind.behind
  refine ⟨_, ?_, hsign.behind_cons.behind, ?_⟩
  · simp only [byteLength_append, byteLength]
    omega
  · rw [attributesBetween?_succ hkey h (by simp), attributesBehind?_signed hsign hbehind hopened]
    rfl

theorem attributesBetween?_blanks {blanks : List Char} (hblanks : AllBlank blanks)
    (h : IsBetween content start stop blanks) (rounds : Nat) :
    attributesBetween? content stop (rounds + 1) start = some [] := by
  have hend : IsBetween content start stop (blanks ++ []) := by rwa [List.append_nil]
  have hskip := hend.skip? isAsciiTest_isAsciiBlank hblanks (stops_nil _)
  have hle : stop ≤ start + byteLength blanks := Nat.le_of_eq h.stop_eq
  rw [attributesBetween?]
  simp [hskip, hle]

end Attributes

theorem AttributeRounds.attributesBetween? {start : Nat} {cs : List Char} {attributes : List Attribute}
    (h : AttributeRounds start cs attributes) {content : String} {stop rounds : Nat}
    (hplace : IsBetween content start stop cs) (hrounds : byteLength cs < rounds) :
    attributesBetween? content stop rounds start = some attributes := by
  induction h generalizing rounds with
  | ended hblanks =>
    obtain ⟨rounds, rfl⟩ := Nat.exists_eq_add_one_of_ne_zero (Nat.ne_zero_of_lt hrounds)
    exact attributesBetween?_blanks hblanks hplace rounds
  | @valueless start blanks name gap rest attributes hkey hname hsign _ ih =>
    obtain ⟨rounds, rfl⟩ := Nat.exists_eq_add_one_of_ne_zero (Nat.ne_zero_of_lt hrounds)
    have hsize := byteLength_pos hname
    simp only [byteLength_append, ← Nat.add_assoc] at hrounds ih
    have hrest := hplace.behind.behind.behind
    rw [attributesBetween?_succ hkey hplace (by simp [hname]), attributesBehind?_valueless hrest hsign]
    exact ih hrest (by omega)
  | @unquoted start blanks name gap behind rest hkey hbehind hblank hquote =>
    obtain ⟨rounds, rfl⟩ := Nat.exists_eq_add_one_of_ne_zero (Nat.ne_zero_of_lt hrounds)
    obtain ⟨place, -, hopened, hread⟩ := attributesBetween?_signed hkey hbehind hblank hplace rounds
    rw [hread, attributesOpened?_unquoted hopened hquote]
  | @unclosed start blanks name gap behind rest quote hkey hbehind hquote hclosed =>
    obtain ⟨rounds, rfl⟩ := Nat.exists_eq_add_one_of_ne_zero (Nat.ne_zero_of_lt hrounds)
    obtain ⟨place, -, hopened, hread⟩ := attributesBetween?_signed hkey hbehind
      (stops_cons.2 (isAsciiBlank_of_isQuote hquote)) hplace rounds
    rw [hread, attributesOpened?_unclosed hquote hopened hclosed]
  | @valued start begin blanks name gap behind value rest quote attributes hkey hbehind hquote hvalue
      hstart _ ih =>
    obtain ⟨rounds, rfl⟩ := Nat.exists_eq_add_one_of_ne_zero (Nat.ne_zero_of_lt hrounds)
    have hsize := utf8Size_of_isQuote hquote
    obtain ⟨place, hbegin, hopened, hread⟩ := attributesBetween?_signed hkey hbehind
      (stops_cons.2 (isAsciiBlank_of_isQuote hquote)) hplace rounds
    obtain rfl : begin = place + 1 := by
      simp only [hstart, hbegin, openedBy, byteLength_append, byteLength, hsize]
      omega
    have hrest := hopened.behind_cons.behind.behind_cons
    rw [hsize] at hrest
    simp only [byteLength_append, byteLength] at hrounds
    rw [hread, attributesOpened?_valued hquote hopened hvalue, ih hrest (by omega), Option.map_some]
    cases name <;> simp

end UiWorkspace.Markup
