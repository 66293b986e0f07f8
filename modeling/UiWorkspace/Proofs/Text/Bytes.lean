import Mathlib.Data.List.Basic
import UiWorkspace.Proofs.Text.Pieces

/-! Texts byte by byte. A byte is looked at as the character of its number: an ASCII character is one
such byte, and every byte of another character is beyond ASCII. What is looked at or cut out between two
offsets is told from the characters that stand there. -/
namespace UiWorkspace.Text

def utf8 (cs : List Char) : List UInt8 := cs.flatMap String.utf8EncodeChar

def bytes (content : String) : List UInt8 := content.toByteArray.data.toList

theorem bytes_eq_utf8 (content : String) : bytes content = utf8 content.toList := by
  have hbytes := String.toByteArray_ofList (l := content.toList)
  rw [String.ofList_toList] at hbytes
  rw [bytes, hbytes, List.utf8Encode, List.toList_data_toByteArray, utf8]

@[simp] theorem utf8_cons (c : Char) (cs : List Char) :
    utf8 (c :: cs) = String.utf8EncodeChar c ++ utf8 cs :=
  List.flatMap_cons

@[simp] theorem utf8_append (cs ds : List Char) : utf8 (cs ++ ds) = utf8 cs ++ utf8 ds :=
  List.flatMap_append

@[simp] theorem length_utf8 (cs : List Char) : (utf8 cs).length = byteLength cs := by
  induction cs with
  | nil => rfl
  | cons c cs ih => rw [utf8_cons, List.length_append, String.length_utf8EncodeChar, ih, byteLength]

def isAscii (c : Char) : Bool := c.val ≤ 127

theorem val_ofUInt8 (b : UInt8) : (Char.ofUInt8 b).val = b.toUInt32 := rfl

theorem utf8EncodeChar_cases (c : Char) :
    (isAscii c = true ∧ ∃ b, String.utf8EncodeChar c = [b] ∧ Char.ofUInt8 b = c) ∨
      (isAscii c = false ∧ ∀ b ∈ String.utf8EncodeChar c, isAscii (Char.ofUInt8 b) = false) := by
  by_cases hc : c.val ≤ 127
  · refine .inl ⟨decide_eq_true hc, c.val.toUInt8,
      String.utf8EncodeChar_eq_singleton (Char.utf8Size_eq_one_iff.2 hc), Char.ext ?_⟩
    have hsize : c.val.toNat ≤ 127 := UInt32.le_iff_toNat_le.1 hc
    refine UInt32.toNat_inj.1 ?_
    rw [val_ofUInt8, UInt8.toNat_toUInt32, UInt32.toNat_toUInt8]
    omega
  · have hsize : 127 < c.val.toNat := by
      have hlarge := UInt32.le_iff_toNat_le.not.1 hc
      exact Nat.not_le.1 hlarge
    refine .inr ⟨decide_eq_false hc, fun b hb => decide_eq_false ?_⟩
    have hhigh : 127 < b.toNat := by
      simp only [String.utf8EncodeChar, if_neg (Nat.not_le.2 hsize)] at hb
      split at hb
      · rcases List.mem_pair.1 hb with rfl | rfl <;> rw [UInt8.toNat_ofNat'] <;> omega
      · split at hb <;>
        · simp only [List.mem_cons, List.not_mem_nil, or_false] at hb
          rcases hb with rfl | rfl | rfl | rfl <;> rw [UInt8.toNat_ofNat'] <;> omega
    rw [UInt32.le_iff_toNat_le, val_ofUInt8, UInt8.toNat_toUInt32]
    exact Nat.not_le.2 hhigh

/-- What is told of a character is the same for all characters beyond ASCII. -/
def IsAsciiTest {β : Type} (test : Char → β) : Prop :=
  ∀ c d, isAscii c = false → isAscii d = false → test c = test d

theorem IsAsciiTest.byte {β : Type} {test : Char → β} (h : IsAsciiTest test) {c : Char} {b : UInt8}
    (hb : b ∈ String.utf8EncodeChar c) : test (Char.ofUInt8 b) = test c := by
  rcases utf8EncodeChar_cases c with ⟨-, b', hc, rfl⟩ | ⟨hc, hbytes⟩
  · rw [hc] at hb
    rw [List.mem_singleton.1 hb]
  · exact h _ _ (hbytes b hb) hc

theorem beq_of_not_ascii {c d : Char} (hc : isAscii c = false) (hd : isAscii d = true) :
    (c == d) = false := by
  rw [beq_eq_false_iff_ne]
  rintro rfl
  rw [hd] at hc
  cases hc

theorem isAsciiTest_beq {d : Char} (hd : isAscii d = true) : IsAsciiTest (· == d) := by
  intro c c' hc hc'
  simp only [beq_of_not_ascii hc hd, beq_of_not_ascii hc' hd]

theorem exists_utf8_cons (c : Char) (cs : List Char) :
    ∃ b bs, utf8 (c :: cs) = b :: bs ∧ b ∈ String.utf8EncodeChar c := by
  cases hc : String.utf8EncodeChar c with
  | nil =>
    have hsize := String.length_utf8EncodeChar c
    rw [hc] at hsize
    exact absurd hsize (Nat.ne_of_lt c.utf8Size_pos)
  | cons b bs => exact ⟨b, bs ++ utf8 cs, by rw [utf8_cons, hc, List.cons_append], List.mem_cons_self⟩

theorem exists_byte_of_isAscii {d : Char} (hd : isAscii d = true) :
    ∃ b, String.utf8EncodeChar d = [b] ∧ ∀ cs, b ∈ utf8 cs ↔ d ∈ cs := by
  rcases utf8EncodeChar_cases d with ⟨-, b, hbytes, hb⟩ | ⟨hnot, -⟩
  · refine ⟨b, hbytes, fun cs => ⟨fun hmem => ?_, fun hmem => ?_⟩⟩
    · obtain ⟨c, hc, hbc⟩ := List.mem_flatMap.1 hmem
      have htest : (Char.ofUInt8 b == d) = (c == d) := (isAsciiTest_beq hd).byte hbc
      rw [hb, beq_self_eq_true] at htest
      rwa [← beq_iff_eq.1 htest.symm]
    · exact List.mem_flatMap.2 ⟨d, hmem, hbytes ▸ List.mem_singleton_self b⟩
  · rw [hd] at hnot
    cases hnot

/-- Whether the byte at this place, if it comes before `stop`, is of some kind. There is no answer
where there is no byte. -/
def holdsAt? (bs : List UInt8) (p : Char → Bool) (stop place : Nat) : Option Bool :=
  if stop ≤ place then some false else bs[place]?.map fun b => p (Char.ofUInt8 b)

def skip? (bs : List UInt8) (p : Char → Bool) (stop place : Nat) : Option Nat :=
  if place < stop then
    match bs[place]? with
    | none => none
    | some b => if p (Char.ofUInt8 b) then skip? bs p stop (place + 1) else some place
  else some place
termination_by stop - place

def bytesBetween? (bs : List UInt8) (start stop : Nat) : Option (List UInt8) :=
  if start ≤ stop ∧ stop ≤ bs.length then some ((bs.drop start).take (stop - start)) else none

theorem skip?_of_mem {p : Char → Bool} {stop : Nat} {front run back : List UInt8}
    (hrun : ∀ b ∈ run, p (Char.ofUInt8 b) = true) (hstop : front.length + run.length ≤ stop)
    (hback : stop = front.length + run.length ∨
      ∃ b rest, back = b :: rest ∧ p (Char.ofUInt8 b) = false) :
    skip? (front ++ (run ++ back)) p stop front.length = some (front.length + run.length) := by
  induction run generalizing front with
  | nil =>
    rw [skip?]
    rcases hback with hback | ⟨b, rest, rfl, hb⟩
    · rw [if_neg (by simp [hback])]
      rfl
    · simp [hb]
  | cons b run ih =>
    have hb := hrun b List.mem_cons_self
    have hlength : (front ++ [b]).length = front.length + 1 := by simp
    have hrest : skip? (front ++ [b] ++ (run ++ back)) p stop (front ++ [b]).length =
        some ((front ++ [b]).length + run.length) := by
      refine ih (fun d hd => hrun d (List.mem_cons_of_mem b hd)) ?_ ?_
      · simp only [List.length_append, List.length_cons, List.length_nil] at hstop ⊢
        omega
      · refine hback.imp_left fun hback => ?_
        simp only [List.length_append, List.length_cons, List.length_nil] at hback ⊢
        omega
    rw [hlength, List.append_assoc, List.singleton_append] at hrest
    have hlt : front.length < stop := by
      simp only [List.length_cons] at hstop
      omega
    rw [skip?, if_pos hlt]
    simp only [List.cons_append, List.getElem?_append_right (Nat.le_refl _), Nat.sub_self,
      List.getElem?_cons_zero, hb, if_true]
    rw [hrest, List.length_cons, Nat.add_assoc, Nat.add_comm 1]

theorem bytesBetween?_append (front run back : List UInt8) :
    bytesBetween? (front ++ (run ++ back)) front.length (front.length + run.length) = some run := by
  have hinside : front.length ≤ front.length + run.length ∧
      front.length + run.length ≤ (front ++ (run ++ back)).length := by
    simp only [List.length_append]
    omega
  rw [bytesBetween?, if_pos hinside, List.drop_left, Nat.add_sub_cancel_left, List.take_left]

def IsBetween (content : String) (start stop : Nat) (cs : List Char) : Prop :=
  ∃ front tail, content.toList = front ++ (cs ++ tail) ∧ start = byteLength front ∧
    stop = start + byteLength cs

theorem isBetween_whole (content : String) : IsBetween content 0 content.utf8ByteSize content.toList := by
  refine ⟨[], [], by simp, rfl, ?_⟩
  rw [← utf8ByteSize_ofList, String.ofList_toList, Nat.zero_add]

theorem isBetween_ofList (cs : List Char) : IsBetween (String.ofList cs) 0 (byteLength cs) cs :=
  ⟨[], [], by simp, rfl, (Nat.zero_add _).symm⟩

namespace IsBetween

variable {content : String} {start stop : Nat} {c : Char} {cs run rest : List Char}

theorem stop_eq (h : IsBetween content start stop cs) : stop = start + byteLength cs := by
  obtain ⟨front, tail, -, -, hstop⟩ := h
  exact hstop

theorem behind (h : IsBetween content start stop (run ++ rest)) :
    IsBetween content (start + byteLength run) stop rest := by
  obtain ⟨front, tail, hcontent, rfl, rfl⟩ := h
  refine ⟨front ++ run, tail, by simp [hcontent], (byteLength_append _ _).symm, ?_⟩
  rw [byteLength_append, Nat.add_assoc]

theorem behind_cons (h : IsBetween content start stop (c :: rest)) :
    IsBetween content (start + c.utf8Size) stop rest := by
  have hsplit : IsBetween content start stop ([c] ++ rest) := h
  exact hsplit.behind

theorem before (h : IsBetween content start stop (run ++ rest)) :
    IsBetween content start (start + byteLength run) run := by
  obtain ⟨front, tail, hcontent, hstart, -⟩ := h
  exact ⟨front, rest ++ tail, by simp [hcontent], hstart, rfl⟩

theorem slice (h : IsBetween content start stop cs) :
    (Span.mk start stop).slice content = some (String.ofList cs) := by
  obtain ⟨front, tail, hcontent, hstart, hstop⟩ := h
  refine Span.slice_eq_some_iff.2 ⟨String.ofList front, String.ofList tail, ?_, ?_, ?_⟩
  · simp [← String.toList_inj, hcontent]
  · rw [utf8ByteSize_ofList, hstart]
  · rw [utf8ByteSize_ofList, utf8ByteSize_ofList, hstop, hstart]

theorem exists_bytes (h : IsBetween content start stop cs) : ∃ front back,
    bytes content = front ++ (utf8 cs ++ back) ∧ start = front.length ∧
      stop = front.length + (utf8 cs).length := by
  obtain ⟨front, tail, hcontent, rfl, rfl⟩ := h
  refine ⟨utf8 front, utf8 tail, ?_, (length_utf8 _).symm, ?_⟩
  · rw [bytes_eq_utf8, hcontent, utf8_append, utf8_append]
  · rw [length_utf8, length_utf8]

theorem exists_byte (h : IsBetween content start stop (c :: cs)) :
    start < stop ∧ ∃ b ∈ String.utf8EncodeChar c, (bytes content)[start]? = some b := by
  obtain ⟨front, back, hbytes, rfl, rfl⟩ := h.exists_bytes
  obtain ⟨b, bs, hbs, hb⟩ := exists_utf8_cons c cs
  rw [hbs] at hbytes ⊢
  refine ⟨by simp, b, hb, ?_⟩
  rw [hbytes, List.getElem?_append_right (Nat.le_refl _), Nat.sub_self, List.cons_append,
    List.getElem?_cons_zero]

theorem bytesBetween? (h : IsBetween content start stop cs) :
    Text.bytesBetween? (bytes content) start stop = some (utf8 cs) := by
  obtain ⟨front, back, hbytes, rfl, rfl⟩ := h.exists_bytes
  rw [hbytes]
  exact bytesBetween?_append _ _ _

theorem drop_bytes (h : IsBetween content start content.utf8ByteSize cs) :
    (bytes content).drop start = utf8 cs := by
  obtain ⟨front, back, hbytes, rfl, hstop⟩ := h.exists_bytes
  have hsize : (bytes content).length = content.utf8ByteSize := by
    rw [bytes_eq_utf8, length_utf8, ← utf8ByteSize_ofList, String.ofList_toList]
  have hback : back = [] := by
    rw [hbytes, List.length_append, List.length_append] at hsize
    exact List.length_eq_zero_iff.1 (by omega)
  rw [hbytes, hback, List.append_nil, List.drop_left]

variable {p : Char → Bool} (hp : IsAsciiTest p)

include hp

theorem holdsAt? (h : IsBetween content start stop cs) :
    Text.holdsAt? (bytes content) p stop start = some (cs.head?.any p) := by
  cases cs with
  | nil => exact if_pos (Nat.le_of_eq h.stop_eq)
  | cons c cs =>
    obtain ⟨hlt, b, hb, hbyte⟩ := h.exists_byte
    rw [Text.holdsAt?, if_neg (Nat.not_le.2 hlt), hbyte, Option.map_some, hp.byte hb]
    rfl

theorem skip? (h : IsBetween content start stop (run ++ rest)) (hrun : ∀ c ∈ run, p c = true)
    (hrest : ∀ c, rest.head? = some c → p c = false) :
    Text.skip? (bytes content) p stop start = some (start + byteLength run) := by
  obtain ⟨front, back, hbytes, rfl, hstop⟩ := h.exists_bytes
  rw [utf8_append, List.append_assoc] at hbytes
  rw [utf8_append, List.length_append] at hstop
  rw [hbytes, ← length_utf8 run]
  refine skip?_of_mem (fun b hb => ?_) (by omega) ?_
  · obtain ⟨c, hc, hbc⟩ := List.mem_flatMap.1 hb
    rw [hp.byte hbc, hrun c hc]
  · cases rest with
    | nil => exact .inl hstop
    | cons c rest =>
      obtain ⟨b, bs, hbs, hb⟩ := exists_utf8_cons c rest
      exact .inr ⟨b, bs ++ back, by rw [hbs, List.cons_append], by rw [hp.byte hb, hrest c rfl]⟩

end IsBetween

end UiWorkspace.Text
