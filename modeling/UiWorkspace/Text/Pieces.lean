/-! Cutting a text at a separator, at a fixed beginning or end or at blanks, and putting pieces
together again. Two notions of blank occur in the formats read here: the Unicode property
`White_Space`, and the five ASCII blanks that separate the attributes of a tag. -/
namespace UiWorkspace.Text

/-- The code points with the Unicode property `White_Space`, as closed intervals. -/
def blankRanges : List (Nat × Nat) :=
  [(0x9, 0xD), (0x20, 0x20), (0x85, 0x85), (0xA0, 0xA0), (0x1680, 0x1680),
   (0x2000, 0x200A), (0x2028, 0x2029), (0x202F, 0x202F), (0x205F, 0x205F),
   (0x3000, 0x3000)]

def inRanges (ranges : List (Nat × Nat)) (n : Nat) : Bool :=
  ranges.any fun r => r.1 ≤ n && n ≤ r.2

def isBlank (c : Char) : Bool := inRanges blankRanges c.toNat

def isAsciiBlank (c : Char) : Bool :=
  c == ' ' || c == '\t' || c == '\n' || c == '\x0c' || c == '\r'

def dropTrailing {α : Type} (p : α → Bool) (xs : List α) : List α :=
  (xs.reverse.dropWhile p).reverse

def trimChars (cs : List Char) : List Char :=
  dropTrailing isBlank (cs.dropWhile isBlank)

def trim (s : String) : String := String.ofList (trimChars s.toList)

def compact (s : String) : String :=
  String.ofList (s.toList.filter fun c => !isBlank c)

/-- The pieces between the occurrences of `sep`; a text without `sep` is one piece. -/
def pieces {α : Type} [BEq α] (sep : α) : List α → List (List α)
  | [] => [[]]
  | c :: cs =>
    if c == sep then [] :: pieces sep cs
    else match pieces sep cs with
      | [] => [[c]]
      | p :: ps => (c :: p) :: ps

theorem pieces_ne_nil {α : Type} [BEq α] (sep : α) (cs : List α) : pieces sep cs ≠ [] := by
  induction cs with
  | nil => simp [pieces]
  | cons c cs ih =>
    unfold pieces
    split
    · simp
    · split <;> simp

theorem pieces_of_not_mem {α : Type} [BEq α] [LawfulBEq α] {sep : α} {cs : List α} (h : sep ∉ cs) :
    pieces sep cs = [cs] := by
  induction cs with
  | nil => rfl
  | cons c cs ih =>
    obtain ⟨hc, hcs⟩ := not_or.1 (mt List.mem_cons.2 h)
    simp [pieces, Ne.symm hc, ih hcs]

theorem exists_pieces_append {α : Type} [BEq α] [LawfulBEq α] {sep : α} {tail : List α}
    (h : sep ∉ tail) (front : List α) :
    ∃ before last, pieces sep front = before ++ [last] ∧
      pieces sep (front ++ tail) = before ++ [last ++ tail] := by
  induction front with
  | nil => exact ⟨[], [], rfl, pieces_of_not_mem h⟩
  | cons c front ih =>
    obtain ⟨before, last, hfront, hboth⟩ := ih
    rw [List.cons_append, pieces, pieces, hfront, hboth]
    split
    · exact ⟨[] :: before, last, rfl, rfl⟩
    · cases before with
      | nil => exact ⟨[], c :: last, rfl, rfl⟩
      | cons b before => exact ⟨(c :: b) :: before, last, rfl, rfl⟩

def split (sep : Char) (s : String) : List String :=
  (pieces sep s.toList).map String.ofList

def join (sep : String) (parts : List String) : String := sep.intercalate parts

def replaceChar (old new : Char) (s : String) : String :=
  String.ofList (s.toList.map fun c => if c == old then new else c)

def after? {α : Type} [BEq α] : (lead cs : List α) → Option (List α)
  | [], cs => some cs
  | _ :: _, [] => none
  | l :: ls, c :: cs => if l == c then after? ls cs else none

def before? {α : Type} [BEq α] (tail cs : List α) : Option (List α) :=
  (after? tail.reverse cs.reverse).map List.reverse

def startsWith (lead s : String) : Bool := (after? lead.toList s.toList).isSome

def endsWith (tail s : String) : Bool := (before? tail.toList s.toList).isSome

def occursIn {α : Type} [BEq α] (part : List α) : List α → Bool
  | [] => part.isEmpty
  | c :: cs => (after? part (c :: cs)).isSome || occursIn part cs

def contains (part s : String) : Bool := occursIn part.toList s.toList

def stripLead? (lead s : String) : Option String :=
  (after? lead.toList s.toList).map String.ofList

def stripTail? (tail s : String) : Option String :=
  (before? tail.toList s.toList).map String.ofList

theorem after?_eq_some_iff {α : Type} [BEq α] [LawfulBEq α] {lead cs rest : List α} :
    after? lead cs = some rest ↔ cs = lead ++ rest := by
  induction lead generalizing cs with
  | nil => simp [after?]
  | cons l lead ih =>
    cases cs with
    | nil => simp [after?]
    | cons c cs =>
      by_cases h : l = c
      · simp [after?, h, ih]
      · simp [after?, h, Ne.symm h]

theorem length_after?_lt {α : Type} [BEq α] {lead cs rest : List α} (hlead : lead ≠ [])
    (h : after? lead cs = some rest) : rest.length < cs.length := by
  induction lead generalizing cs with
  | nil => exact absurd rfl hlead
  | cons l ls ih =>
    cases cs with
    | nil => simp [after?] at h
    | cons c cs =>
      simp only [after?] at h
      split at h
      · cases ls with
        | nil =>
          simp only [after?, Option.some.injEq] at h
          subst h
          simp
        | cons l' ls =>
          have := ih (by simp) h
          simp only [List.length_cons]
          omega
      · simp at h

def dropLeads {α : Type} [BEq α] (lead : List α) (hlead : lead ≠ []) (cs : List α) : List α :=
  match _h : after? lead cs with
  | none => cs
  | some rest => dropLeads lead hlead rest
termination_by cs.length
decreasing_by exact length_after?_lt hlead _h

def dropTails {α : Type} [BEq α] (tail : List α) (htail : tail ≠ []) (cs : List α) : List α :=
  (dropLeads tail.reverse (by simpa using htail) cs.reverse).reverse

def splitFirst? (sep : Char) (s : String) : Option (String × String) :=
  let cs := s.toList
  match cs.dropWhile (· != sep) with
  | [] => none
  | _ :: rest => some (String.ofList (cs.takeWhile (· != sep)), String.ofList rest)

end UiWorkspace.Text
