import UiWorkspace.Markup.Document
import UiWorkspace.Proofs.Markup.WrittenTags
import UiWorkspace.Proofs.Text.Pieces

/-! Assignments in a text and the search for them. The search takes the first one and goes on behind it,
so that among assignments which stand one behind the other it finds each, unless it finds something
else. -/
namespace UiWorkspace.Markup

open UiWorkspace.Text

theorem isBlank_of_isQuote {c : Char} (h : isQuote c = true) : isBlank c = false := by
  simp only [isQuote, Bool.or_eq_true, beq_iff_eq] at h
  rcases h with rfl | rfl <;> decide

def openedBy (name before behind : List Char) (quote : Char) : List Char :=
  name ++ (before ++ '=' :: (behind ++ [quote]))

/-- An assignment to a key, as the search takes it; in a tag the blanks and the quotes are narrower. -/
structure Assignment where
  before : List Char
  behind : List Char
  quote : Char
  value : List Char
  closer : Char
  isBlank_before : ∀ c ∈ before, isBlank c = true
  isBlank_behind : ∀ c ∈ behind, isBlank c = true
  isQuote_quote : isQuote quote = true
  value_ne_nil : value ≠ []
  isQuote_value : ∀ c ∈ value, isQuote c = false
  isQuote_closer : isQuote closer = true

namespace Assignment

variable (key : List Char) (a : Assignment)

def opening : List Char := openedBy key a.before a.behind a.quote

def chars : List Char := a.opening key ++ (a.value ++ [a.closer])

def placed (pos : Nat) : Attribute :=
  let start := pos + byteLength (a.opening key)
  ⟨String.ofList key, String.ofList a.value, ⟨start, start + byteLength a.value⟩⟩

theorem assignedAt?_chars (rest : List Char) :
    assignedAt? key (a.chars key ++ rest) = some (a.value, (a.chars key).length) := by
  have hkey : after? key (a.chars key ++ rest) =
      some (a.before ++ '=' :: (a.behind ++ a.quote :: (a.value ++ a.closer :: rest))) := by
    rw [after?_eq_some_iff]
    simp [chars, opening, openedBy]
  have hsign : (a.before ++ '=' :: (a.behind ++ a.quote :: (a.value ++ a.closer :: rest))).dropWhile isBlank =
      '=' :: (a.behind ++ a.quote :: (a.value ++ a.closer :: rest)) := by
    rw [List.dropWhile_append_of_pos a.isBlank_before]
    rfl
  have hquote : (a.behind ++ a.quote :: (a.value ++ a.closer :: rest)).dropWhile isBlank =
      a.quote :: (a.value ++ a.closer :: rest) := by
    rw [List.dropWhile_append_of_pos a.isBlank_behind, List.dropWhile_cons,
      isBlank_of_isQuote a.isQuote_quote]
    rfl
  have hvalue : (a.value ++ a.closer :: rest).takeWhile (fun c => !isQuote c) = a.value ∧
      (a.value ++ a.closer :: rest).dropWhile (fun c => !isQuote c) = a.closer :: rest := by
    refine takeWhile_append_of_head (fun c hc => ?_) fun c hc => ?_
    · rw [a.isQuote_value c hc, Bool.not_false]
    · cases hc
      rw [a.isQuote_closer, Bool.not_true]
  have hsize : (a.chars key ++ rest).length - rest.length = (a.chars key).length := by
    rw [List.length_append, Nat.add_sub_cancel]
  unfold assignedAt?
  rw [hkey]
  simp only [hsign, hquote, hvalue, hsize, a.isQuote_quote, List.isEmpty_eq_false_iff.2 a.value_ne_nil]
  rfl

theorem exists_of_assignedAt? {key cs value : List Char} {size : Nat}
    (h : assignedAt? key cs = some (value, size)) :
    ∃ a : Assignment, ∃ rest, cs = a.chars key ++ rest := by
  unfold assignedAt? at h
  split at h
  · cases h
  next afterKey hkey =>
    split at h
    next afterSign hsign =>
      split at h
      next quote inside hquote =>
        dsimp only at h
        split at h
        next closer rest hvalue =>
          split at h
          next hgood =>
            rw [Bool.and_eq_true] at hgood
            have hcloser := List.head?_dropWhile_not (fun c => !isQuote c) inside
            rw [hvalue] at hcloser
            rw [after?_eq_some_iff] at hkey
            refine ⟨⟨afterKey.takeWhile isBlank, afterSign.takeWhile isBlank, quote,
              inside.takeWhile fun c => !isQuote c, closer, fun c => List.mem_takeWhile_imp,
              fun c => List.mem_takeWhile_imp, hgood.1, by simpa using hgood.2,
              fun c hc => by simpa using List.mem_takeWhile_imp hc, by simpa using hcloser⟩, rest, ?_⟩
            have hinside := List.takeWhile_append_dropWhile (p := fun c => !isQuote c) (l := inside)
            have hafterSign := List.takeWhile_append_dropWhile (p := isBlank) (l := afterSign)
            have hafterKey := List.takeWhile_append_dropWhile (p := isBlank) (l := afterKey)
            rw [hvalue] at hinside
            rw [hquote] at hafterSign
            rw [hsign] at hafterKey
            simp only [chars, opening, openedBy, List.append_assoc, List.cons_append, List.nil_append, hinside,
              hafterSign, hafterKey, hkey]
          next => cases h
        next => cases h
      next => cases h
    next => cases h

end Assignment

def assignmentsIn (key : List Char) : (skip pos : Nat) → List Char → List Attribute
  | _, _, [] => []
  | skip + 1, pos, c :: cs => assignmentsIn key skip (pos + c.utf8Size) cs
  | 0, pos, c :: cs =>
    match assignedAt? key (c :: cs) with
    | some (value, size) =>
      let stop := pos + byteLength ((c :: cs).take (size - 1))
      ⟨String.ofList key, String.ofList value, ⟨stop - byteLength value, stop⟩⟩ ::
        assignmentsIn key (size - 1) (pos + c.utf8Size) cs
    | none => assignmentsIn key 0 (pos + c.utf8Size) cs

theorem map_value_assignmentsIn (key : List Char) (skip pos : Nat) (cs : List Char) :
    (assignmentsIn key skip pos cs).map (fun a => a.value.toList) = assignedIn key skip cs := by
  fun_induction assignmentsIn key skip pos cs <;> simp_all [assignedIn]

theorem assignmentsIn_skip (key : List Char) (pos : Nat) (skipped rest : List Char) :
    assignmentsIn key skipped.length pos (skipped ++ rest) =
      assignmentsIn key 0 (pos + byteLength skipped) rest := by
  induction skipped generalizing pos with
  | nil => rfl
  | cons c skipped ih => rw [List.length_cons, List.cons_append, assignmentsIn, ih, byteLength, Nat.add_assoc]

theorem assignmentsIn_chars (key : List Char) (a : Assignment) (pos : Nat) (rest : List Char) :
    assignmentsIn key 0 pos (a.chars key ++ rest) =
      a.placed key pos :: assignmentsIn key 0 (pos + byteLength (a.chars key)) rest := by
  have htaken := a.assignedAt?_chars key rest
  have hopened : (a.chars key ++ rest).take ((a.chars key).length - 1) = a.opening key ++ a.value := by
    have hchars : a.chars key = (a.opening key ++ a.value) ++ [a.closer] := (List.append_assoc ..).symm
    rw [hchars, List.length_append, List.length_singleton, Nat.add_sub_cancel, List.append_assoc,
      List.take_left]
  have hstart : pos + byteLength (a.opening key ++ a.value) - byteLength a.value =
      pos + byteLength (a.opening key) := by
    rw [byteLength_append]
    omega
  obtain ⟨c, cs, hchars⟩ := List.exists_cons_of_ne_nil (show a.chars key ≠ [] by simp [Assignment.chars])
  rw [hchars, List.cons_append] at htaken hopened ⊢
  rw [assignmentsIn, htaken]
  dsimp only
  rw [hopened, hstart, List.length_cons, Nat.add_sub_cancel, assignmentsIn_skip, byteLength_append,
    ← Nat.add_assoc, Nat.add_assoc pos c.utf8Size]
  rfl

theorem assignmentsIn_cons (key : List Char) (pos : Nat) (c : Char) (cs : List Char) :
    assignmentsIn key 0 pos (c :: cs) = assignmentsIn key 0 (pos + c.utf8Size) cs ∨
      ∃ a : Assignment, ∃ rest, c :: cs = a.chars key ++ rest := by
  cases htaken : assignedAt? key (c :: cs) with
  | none => exact .inl (by rw [assignmentsIn, htaken])
  | some found => exact .inr (Assignment.exists_of_assignedAt? htaken)

theorem le_start_of_mem {key : List Char} {pos : Nat} {cs : List Char} {found : Attribute}
    (h : found ∈ assignmentsIn key 0 pos cs) : pos ≤ found.valueSpan.start := by
  induction hsize : cs.length using Nat.strongRecOn generalizing pos cs with
  | _ size ih =>
    cases cs with
    | nil =>
      rw [assignmentsIn] at h
      cases h
    | cons c cs =>
      rcases assignmentsIn_cons key pos c cs with hpassed | ⟨a, rest, hchars⟩
      · rw [hpassed] at h
        have := ih cs.length (by simp [← hsize]) h rfl
        omega
      · rw [hchars, assignmentsIn_chars] at h
        rcases List.mem_cons.1 h with rfl | h
        · exact Nat.le_add_right _ _
        · have hless : rest.length < size := by
            rw [← hsize, hchars, Assignment.chars]
            simp
            omega
          have := ih rest.length hless h rfl
          omega

def IsKey (key : List Char) : Prop := ∃ c, key.getLast? = some c ∧ isBlank c = false

/-- Where the value stands settles where the assignment begins. -/
theorem begin_unique {key : List Char} (hkey : IsKey key) {a b : Assignment} {lead cs ds : List Char}
    (h : a.chars key ++ cs = lead ++ (b.chars key ++ ds))
    (hsize : byteLength (a.opening key) = byteLength (lead ++ b.opening key)) : lead = [] := by
  have hopening : a.opening key = lead ++ b.opening key := by
    simp only [Assignment.chars, List.append_assoc] at h
    rw [← List.append_assoc lead] at h
    exact lead_unique h hsize
  obtain ⟨c, hlast, hc⟩ := hkey
  have hsign : ∀ a : Assignment, '=' ∉ a.behind ++ [a.quote] := by
    intro a hmem
    rcases List.mem_append.1 hmem with hmem | hmem
    · exact absurd (a.isBlank_behind _ hmem) (by decide)
    · have hquote := a.isQuote_quote
      rw [← List.mem_singleton.1 hmem] at hquote
      exact absurd hquote (by decide)
  have hnames : key ++ a.before = (lead ++ key) ++ b.before := by
    simp only [Assignment.opening, openedBy, ← List.append_assoc _ _ ('=' :: _)] at hopening
    rw [List.append_assoc]
    exact ((append_cons_inj (hsign a) (hsign b)).1 hopening).1
  have htrimmed := congrArg (dropTrailing isBlank) hnames
  rw [dropTrailing_append a.isBlank_before (by simp [hlast, hc]),
    dropTrailing_append b.isBlank_before (by simp [hlast, hc])] at htrimmed
  exact List.self_eq_append_left.1 htrimmed

/-- The attributes are assignments that stand one behind the other in the text. -/
inductive SpelledIn (key : List Char) : (pos : Nat) → List Char → List Attribute → Prop
  | nil (pos : Nat) (cs : List Char) : SpelledIn key pos cs []
  | cons (pos : Nat) (lead : List Char) (a : Assignment) {rest : List Char} {attributes : List Attribute} :
      SpelledIn key (pos + byteLength (lead ++ a.chars key)) rest attributes →
      SpelledIn key pos (lead ++ (a.chars key ++ rest))
        (a.placed key (pos + byteLength lead) :: attributes)

namespace SpelledIn

variable {key : List Char} {pos : Nat} {cs ds : List Char} {as bs : List Attribute}

theorem behind {lead : List Char} (h : SpelledIn key (pos + byteLength lead) cs as) :
    SpelledIn key pos (lead ++ cs) as := by
  cases h with
  | nil => exact .nil _ _
  | cons _ lead' a hrest =>
    have := SpelledIn.cons pos (lead ++ lead') a (by simpa [Nat.add_assoc] using hrest)
    simpa [Nat.add_assoc] using this

theorem append (h : SpelledIn key pos cs as) (hbehind : SpelledIn key (pos + byteLength cs) ds bs) :
    SpelledIn key pos (cs ++ ds) (as ++ bs) := by
  induction h with
  | nil => exact hbehind.behind
  | cons pos lead a hrest ih =>
    have := SpelledIn.cons pos lead a (ih (by simpa [Nat.add_assoc] using hbehind))
    simpa using this

theorem exists_lead (h : SpelledIn key pos cs as) {found : Attribute} (hfound : found ∈ as) :
    ∃ lead rest, ∃ a : Assignment, cs = lead ++ (a.chars key ++ rest) ∧
      found = a.placed key (pos + byteLength lead) := by
  induction h with
  | nil => cases hfound
  | cons pos lead a hrest ih =>
    rcases List.mem_cons.1 hfound with rfl | hfound
    · exact ⟨lead, _, a, rfl, rfl⟩
    · obtain ⟨further, rest, b, rfl, rfl⟩ := ih hfound
      exact ⟨lead ++ a.chars key ++ further, rest, b, by simp, by simp [Nat.add_assoc]⟩

end SpelledIn

/-- Nothing is taken before the first of the attributes, as each value has its own beginning. -/
theorem assignmentsIn_passes {key : List Char} (hkey : IsKey key) {pos : Nat} {c : Char} {cs : List Char}
    {attributes : List Attribute} (h : SpelledIn key (pos + c.utf8Size) cs attributes)
    (honly : assignmentsIn key 0 pos (c :: cs) ⊆ attributes) :
    assignmentsIn key 0 pos (c :: cs) = assignmentsIn key 0 (pos + c.utf8Size) cs := by
  rcases assignmentsIn_cons key pos c cs with hpassed | ⟨a, rest, hchars⟩
  · exact hpassed
  · rw [hchars, assignmentsIn_chars] at honly
    obtain ⟨lead, behind, b, rfl, hsame⟩ := h.exists_lead (honly List.mem_cons_self)
    have hstart := congrArg (fun found => found.valueSpan.start) hsame
    simp only [Assignment.placed] at hstart
    have hsize : byteLength (a.opening key) = byteLength ((c :: lead) ++ b.opening key) := by
      rw [byteLength_append, byteLength]
      omega
    exact absurd (begin_unique hkey hchars.symm hsize) (List.cons_ne_nil c lead)

theorem assignmentsIn_lead {key : List Char} (hkey : IsKey key) {pos : Nat} {lead cs : List Char}
    {attributes : List Attribute} (h : SpelledIn key (pos + byteLength lead) cs attributes)
    (honly : assignmentsIn key 0 pos (lead ++ cs) ⊆ attributes) :
    assignmentsIn key 0 pos (lead ++ cs) = assignmentsIn key 0 (pos + byteLength lead) cs := by
  induction lead generalizing pos with
  | nil => rfl
  | cons c lead ih =>
    rw [byteLength, ← Nat.add_assoc] at h ⊢
    have hpassed := assignmentsIn_passes hkey h.behind honly
    rw [List.cons_append, hpassed] at honly ⊢
    exact ih h honly

theorem assignmentsIn_eq {key : List Char} (hkey : IsKey key) {pos : Nat} {cs : List Char}
    {attributes : List Attribute} (h : SpelledIn key pos cs attributes)
    (honly : assignmentsIn key 0 pos cs ⊆ attributes) : assignmentsIn key 0 pos cs = attributes := by
  induction h with
  | nil => exact List.subset_nil.1 honly
  | @cons pos lead a rest attributes hrest ih =>
    rw [byteLength_append, ← Nat.add_assoc] at hrest ih
    have hfirst : SpelledIn key (pos + byteLength lead) (a.chars key ++ rest)
        (a.placed key (pos + byteLength lead) :: attributes) :=
      .cons (pos + byteLength lead) [] a hrest
    have hpassed := assignmentsIn_lead hkey hfirst honly
    rw [hpassed, assignmentsIn_chars] at honly ⊢
    refine congrArg _ (ih fun found hfound => ?_)
    rcases List.mem_cons.1 (honly (List.mem_cons_of_mem _ hfound)) with rfl | hmem
    · -- The first value stands before all that is found behind it.
      have hbehind := le_start_of_mem hfound
      have hvalue := byteLength_pos a.value_ne_nil
      simp only [Assignment.placed, Assignment.chars, byteLength_append] at hbehind
      omega
    · exact hmem

end UiWorkspace.Markup
