import Mathlib.Data.List.Basic
import Mathlib.Data.List.Induction
import UiWorkspace.FilePath
import UiWorkspace.Proofs.Text.Pieces

/-! The order of paths, their file names and parents, and the names put behind them. The order is linear
on the components, so that paths which sort alike are the same. -/
namespace UiWorkspace.FilePath

open Std

theorem beq_iff {p q : FilePath} : (p == q) = true ↔ p.components = q.components :=
  beq_iff_eq (a := p.components)

theorem beq_self (p : FilePath) : (p == p) = true := beq_iff.2 rfl

theorem beq_comm (p q : FilePath) : (p == q) = (q == p) := by
  rw [Bool.eq_iff_iff, beq_iff, beq_iff]
  exact eq_comm

theorem beq_congr_left {p q : FilePath} (h : (p == q) = true) (r : FilePath) :
    (p == r) = (q == r) := by
  rw [Bool.eq_iff_iff, beq_iff, beq_iff, beq_iff.1 h]

namespace Component

def label : Component → String
  | name s => s
  | _ => ""

theorem compare_eq_compareLex :
    compare = compareLex (compareOn Component.rank) (compareOn Component.label) := by
  funext a b
  cases a <;> cases b <;> rfl

instance : TransCmp compare := by
  rw [compare_eq_compareLex]
  infer_instance

theorem eq_of_compare {a b : Component} (h : compare a b = .eq) : a = b := by
  rw [compare_eq_compareLex, compareLex_eq_eq] at h
  obtain ⟨hrank, hlabel⟩ := h
  have hrank : a.rank = b.rank := LawfulEqOrd.eq_of_compare hrank
  have hlabel : a.label = b.label := LawfulEqOrd.eq_of_compare hlabel
  cases a <;> cases b <;> simp_all [rank, label]

instance : LawfulEqCmp compare where
  eq_of_compare := eq_of_compare

end Component

theorem compareComponents_eq : compareComponents = List.compareLex Component.compare := by
  funext as bs
  induction as generalizing bs with
  | nil => cases bs <;> rfl
  | cons a as ih =>
    cases bs with
    | nil => rfl
    | cons b bs => rw [compareComponents, ih, List.compareLex_cons_cons]

instance : TransCmp compareComponents := by
  rw [compareComponents_eq]
  infer_instance

instance : TransCmp compare where
  eq_swap {_ _} := @OrientedCmp.eq_swap _ compareComponents _ _ _
  isLE_trans {_ _ _} := @TransCmp.isLE_trans _ compareComponents _ _ _ _

theorem compare_eq_iff {p q : FilePath} : compare p q = .eq ↔ p.components = q.components := by
  unfold compare
  rw [compareComponents_eq]
  exact LawfulEqCmp.compare_eq_iff_eq

theorem component?_of_length {piece : String} (h : 2 < piece.length) (leading : Bool) :
    component? leading piece = some (.name piece) := by
  have hne : ∀ s : String, s.length ≤ 2 → piece ≠ s := by
    rintro s hs rfl
    omega
  unfold component?
  rw [if_neg (hne "" (by decide)), if_neg (hne "." (by decide)), if_neg (hne ".." (by decide))]

theorem exists_slots {p : FilePath} {before : List String} {piece : String}
    (hsplit : Text.split '/' p.text = before ++ [piece]) (h : 2 < piece.length) :
    ∃ above, p.slots = above ++ [(piece, some (.name piece))] := by
  unfold slots
  rw [hsplit]
  cases before with
  | nil => exact ⟨[], by simp [component?_of_length h]⟩
  | cons first before =>
    refine ⟨(first, component? (!p.isAbsolute) first) ::
      before.map fun piece => (piece, component? false piece), ?_⟩
    simp [component?_of_length h]

theorem fileName?_append (tail : String) (hslash : '/' ∉ tail.toList) (hlength : 2 < tail.length)
    (front : String) : ∃ lead, (FilePath.mk (front ++ tail)).fileName? = some (lead ++ tail) := by
  obtain ⟨before, ds, -, hbefore⟩ := Text.exists_pieces_append hslash front.toList
  refine ⟨String.ofList ds, ?_⟩
  have hsplit : Text.split '/' (front ++ tail) =
      before.map String.ofList ++ [String.ofList ds ++ tail] := by
    unfold Text.split
    rw [String.toList_append, hbefore]
    simp
  have hlong : 2 < (String.ofList ds ++ tail).length := by
    rw [String.length_append]
    omega
  obtain ⟨above, habove⟩ : ∃ above, (FilePath.mk (front ++ tail)).slots = _ := exists_slots hsplit hlong
  have hlast : (FilePath.mk (front ++ tail)).components.getLast? =
      some (.name (String.ofList ds ++ tail)) := by
    unfold components
    rw [habove]
    split <;> simp [List.getLast?_cons]
  rw [fileName?, hlast]

theorem exists_text_push (p : FilePath) (s : String) : ∃ front, (p.push s).text = front ++ s := by
  unfold push
  split
  · exact ⟨"", String.empty_append.symm⟩
  · split
    · exact ⟨p.text, rfl⟩
    · exact ⟨p.text ++ "/", rfl⟩

theorem components_of_split {p : FilePath} {first : String} {rest : List String}
    (h : Text.split '/' p.text = first :: rest) :
    p.components = (if p.isAbsolute then [.root] else []) ++
      ((component? (!p.isAbsolute) first).toList ++ rest.filterMap (component? false)) := by
  have hrest : (rest.map fun piece => (piece, component? false piece)).filterMap Prod.snd =
      rest.filterMap (component? false) := List.filterMap_map
  unfold components slots
  rw [h]
  simp only [List.filterMap_cons, hrest]
  cases component? (!p.isAbsolute) first <;> split <;> rfl

/-- Further pieces behind those of a path are further components. What stands after the common
pieces of the path itself may only be pieces that say nothing. -/
theorem components_extend {p q : FilePath} {first : String} {rest tail more : List String}
    (habsolute : q.isAbsolute = p.isAbsolute) (hp : Text.split '/' p.text = first :: (rest ++ tail))
    (htail : tail.filterMap (component? false) = [])
    (hq : Text.split '/' q.text = first :: (rest ++ more)) :
    q.components = p.components ++ more.filterMap (component? false) := by
  rw [components_of_split hp, components_of_split hq, habsolute, List.filterMap_append,
    List.filterMap_append, htail, List.append_nil]
  simp only [List.append_assoc]

theorem isAbsolute_append {s : String} (h : s ≠ "") (t : String) :
    (FilePath.mk (s ++ t)).isAbsolute = (FilePath.mk s).isAbsolute := by
  unfold isAbsolute Text.startsWith
  rw [String.toList_append]
  cases hs : s.toList with
  | nil => exact absurd (String.toList_eq_nil_iff.1 hs) h
  | cons c cs =>
    simp only [String.reduceToList, List.cons_append, Text.after?]
    split <;> rfl

/-- Pieces between slashes that do not stay and do not go up. -/
def IsPlain (pieces : List String) : Prop := ∀ piece ∈ pieces, piece ≠ "." ∧ piece ≠ ".."

def namesIn (s : String) : List String := (Text.split '/' s).filter (· != "")

theorem filterMap_component? {pieces : List String} (h : IsPlain pieces) :
    pieces.filterMap (component? false) = (pieces.filter (· != "")).map .name := by
  induction pieces with
  | nil => rfl
  | cons piece pieces ih =>
    obtain ⟨hdot, hup⟩ := h piece List.mem_cons_self
    have hrest := ih fun q hq => h q (List.mem_cons_of_mem piece hq)
    by_cases hempty : piece = ""
    · simp [component?, hempty, hrest]
    · simp [component?, hempty, hdot, hup, hrest]

theorem component?_of_ne_dot {piece : String} (h : piece ≠ ".") (leading : Bool) :
    component? leading piece = component? false piece := by
  unfold component?
  rw [if_neg h, if_neg h]

theorem components_of_plain {s : String} (hrelative : Text.startsWith "/" s = false)
    (hplain : IsPlain (Text.split '/' s)) :
    (FilePath.mk s).components = (Text.split '/' s).filterMap (component? false) := by
  obtain ⟨first, rest, hsplit⟩ := List.exists_cons_of_ne_nil (Text.split_ne_nil '/' s)
  have hfirst := (hplain first (hsplit ▸ List.mem_cons_self)).1
  have habsolute : (FilePath.mk s).isAbsolute = false := hrelative
  rw [components_of_split hsplit, habsolute, hsplit, component?_of_ne_dot hfirst]
  cases hcomponent : component? false first <;> simp [hcomponent]

theorem split_push {p : FilePath} (hne : p.text ≠ "") {s : String}
    (hrelative : Text.startsWith "/" s = false) :
    ∃ first rest tail, Text.split '/' p.text = first :: (rest ++ tail) ∧
      tail.filterMap (component? false) = [] ∧
      Text.split '/' (p.push s).text = first :: (rest ++ Text.split '/' s) := by
  have hpush : p.push s = if Text.endsWith "/" p.text then ⟨p.text ++ s⟩ else ⟨p.text ++ "/" ++ s⟩ := by
    simp [push, hrelative, hne]
  rw [hpush]
  split
  next hslash =>
    obtain ⟨base, hbase⟩ := Option.isSome_iff_exists.1 hslash
    rw [Text.before?_eq_some_iff] at hbase
    obtain ⟨first, rest, hsplit⟩ := List.exists_cons_of_ne_nil (Text.split_ne_nil '/' (String.ofList base))
    have hp : Text.split '/' p.text = Text.split '/' (String.ofList base) ++ Text.split '/' "" :=
      Text.split_eq_append (by simpa using hbase)
    have hq : Text.split '/' (p.text ++ s) = Text.split '/' (String.ofList base) ++ Text.split '/' s :=
      Text.split_eq_append (by simp [hbase])
    rw [hsplit] at hp hq
    exact ⟨first, rest, [""], hp, rfl, hq⟩
  next =>
    obtain ⟨first, rest, hsplit⟩ := List.exists_cons_of_ne_nil (Text.split_ne_nil '/' p.text)
    have hq : Text.split '/' (p.text ++ "/" ++ s) = Text.split '/' p.text ++ Text.split '/' s :=
      Text.split_eq_append (by simp)
    rw [hsplit] at hq
    exact ⟨first, rest, [], by rw [hsplit, List.append_nil], rfl, hq⟩

theorem isAbsolute_push {p : FilePath} (hne : p.text ≠ "") {s : String}
    (hrelative : Text.startsWith "/" s = false) : (p.push s).isAbsolute = p.isAbsolute := by
  have hempty : decide (p.text = "") = false := decide_eq_false hne
  rw [push, hrelative, if_neg Bool.false_ne_true, hempty, Bool.false_or]
  split
  · exact isAbsolute_append hne s
  · rw [String.append_assoc]
    exact isAbsolute_append hne _

theorem components_push (p : FilePath) {s : String} (hrelative : Text.startsWith "/" s = false)
    (hplain : IsPlain (Text.split '/' s)) :
    (p.push s).components = p.components ++ (namesIn s).map .name := by
  rw [namesIn, ← filterMap_component? hplain]
  by_cases hempty : p.text = ""
  · obtain rfl : p = ⟨""⟩ := congrArg FilePath.mk hempty
    have hpush : push ⟨""⟩ s = ⟨s⟩ := by simp [push, hrelative]
    rw [hpush, components_of_plain hrelative hplain]
    rfl
  · obtain ⟨first, rest, tail, hp, htail, hq⟩ := split_push hempty hrelative
    exact components_extend (isAbsolute_push hempty hrelative) hp htail hq

theorem dropWhile_slots (slots : List (String × Option Component)) :
    (slots.filterMap Prod.snd = [] ∧ slots.reverse.dropWhile (fun s => s.2.isNone) = []) ∨
      ∃ above piece c blank, slots = above ++ (piece, some c) :: blank ∧ blank.filterMap Prod.snd = [] ∧
        slots.reverse.dropWhile (fun s => s.2.isNone) = (piece, some c) :: above.reverse := by
  induction slots using List.reverseRecOn with
  | nil => exact .inl ⟨rfl, rfl⟩
  | append_singleton slots slot ih =>
    obtain ⟨piece, component⟩ := slot
    rw [List.reverse_concat]
    cases component with
    | some c => exact .inr ⟨slots, piece, c, [], rfl, rfl, rfl⟩
    | none =>
      rcases ih with ⟨hnone, hdrop⟩ | ⟨above, last, c, blank, rfl, hblank, hdrop⟩
      · exact .inl ⟨by simpa using hnone, hdrop⟩
      · exact .inr ⟨above, last, c, blank ++ [(piece, none)], by simp, by simpa using hblank, hdrop⟩

theorem isAbsolute_of_split {p : FilePath} {first : String} {rest : List String}
    (h : Text.split '/' p.text = first :: rest) : p.isAbsolute = (first == "" && !rest.isEmpty) := by
  unfold isAbsolute Text.startsWith
  unfold Text.split at h
  cases htext : p.text.toList with
  | nil =>
    rw [htext] at h
    cases h
    rfl
  | cons c cs =>
    rw [htext, Text.pieces] at h
    by_cases hc : c = '/'
    · subst hc
      cases hcs : Text.pieces '/' cs with
      | nil => exact absurd hcs (Text.pieces_ne_nil '/' cs)
      | cons piece pieces =>
        rw [if_pos (beq_self_eq_true _), hcs] at h
        cases h
        simp [Text.after?]
    · have hslash : (c == '/') = false := beq_false_of_ne hc
      obtain ⟨piece, hfirst⟩ : ∃ piece, first = String.ofList (c :: piece) := by
        rw [hslash, if_neg Bool.false_ne_true] at h
        split at h
        · exact ⟨[], (List.cons.inj h).1.symm⟩
        next piece _ _ => exact ⟨piece, (List.cons.inj h).1.symm⟩
      have hne : (first == "") = false := by
        rw [hfirst, beq_eq_false_iff_ne, ne_eq, ← String.toList_inj, String.toList_ofList]
        exact List.cons_ne_nil c piece
      simp [Text.after?, Ne.symm hc, hne]

theorem slots_of_split {p : FilePath} {first : String} {rest : List String}
    (h : Text.split '/' p.text = first :: rest) :
    p.slots = (first, component? (!p.isAbsolute) first) ::
      rest.map fun piece => (piece, component? false piece) := by
  unfold slots
  rw [h]

/-- A path cut behind some of its pieces has the first components of the path, unless only the empty
piece before its first slash is left. -/
theorem components_cut {p : FilePath} {first : String} {front back : List String}
    (h : Text.split '/' p.text = first :: (front ++ back)) (hfront : first = "" → front ≠ []) :
    p.components = (FilePath.mk (Text.join "/" (first :: front))).components ++
      back.filterMap (component? false) := by
  have hcut : Text.split '/' (Text.join "/" (first :: front)) = first :: (front ++ []) := by
    rw [List.append_nil]
    exact Text.split_join_of_split (List.cons_ne_nil first front) h
  refine components_extend ?_ hcut rfl h
  have hjoined : (FilePath.mk (Text.join "/" (first :: front))).isAbsolute =
      (first == "" && !(front ++ []).isEmpty) := isAbsolute_of_split hcut
  rw [isAbsolute_of_split h, hjoined, List.append_nil]
  by_cases hfirst : first = ""
  · obtain ⟨piece, front, rfl⟩ := List.exists_cons_of_ne_nil (hfront hfirst)
    rfl
  · rw [beq_false_of_ne hfirst, Bool.false_and, Bool.false_and]

theorem components_of_slots {p : FilePath} {kept more : List (String × Option Component)} {piece : String}
    {c : Component} (h : p.slots = kept ++ (piece, some c) :: more) :
    p.components = (FilePath.mk (Text.join "/" ((kept ++ [(piece, some c)]).map Prod.fst))).components ++
      more.filterMap Prod.snd := by
  obtain ⟨first, rest, hsplit⟩ := List.exists_cons_of_ne_nil (Text.split_ne_nil '/' p.text)
  rw [slots_of_split hsplit] at h
  obtain ⟨front, hkept, hempty, back, rfl, rfl⟩ : ∃ front,
      (kept ++ [(piece, some c)]).map Prod.fst = first :: front ∧ (first = "" → front ≠ []) ∧
      ∃ back, rest = front ++ back ∧ more = back.map fun piece => (piece, component? false piece) := by
    cases kept with
    | nil =>
      obtain ⟨hslot, hmore⟩ := List.cons.inj h
      obtain ⟨rfl, hcomponent⟩ := Prod.mk.inj hslot
      refine ⟨[], rfl, ?_, rest, rfl, hmore.symm⟩
      rintro rfl
      cases hcomponent
    | cons slot kept =>
      obtain ⟨rfl, hmore⟩ := List.cons.inj h
      obtain ⟨front, behind, rfl, hfront, hbehind⟩ := List.map_eq_append_iff.1 hmore
      obtain ⟨last, back, rfl, hlast, hback⟩ := List.map_eq_cons_iff.1 hbehind
      obtain ⟨rfl, -⟩ := Prod.mk.inj hlast
      refine ⟨front ++ [last], ?_, fun _ => ?_, back, by simp, hback.symm⟩
      · simp [← hfront, Function.comp_def]
      · exact List.append_ne_nil_of_right_ne_nil _ (List.cons_ne_nil _ _)
  rw [hkept, components_cut hsplit hempty, List.filterMap_map]
  rfl

theorem exists_parent {p : FilePath} {name : String} (h : p.fileName? = some name) :
    ∃ q, p.parent? = some q ∧ p.components = q.components ++ [.name name] := by
  have hlast : p.components.getLast? = some (.name name) := by
    unfold fileName? at h
    split at h
    next n hn => rw [hn, Option.some.inj h]
    next => cases h
  rcases dropWhile_slots p.slots with ⟨hnone, -⟩ | ⟨above, piece, c, blank, hslots, hblank, hdrop⟩
  · unfold components at hlast
    rw [hnone] at hlast
    split at hlast <;> cases hlast
  have hbody : p.slots.filterMap Prod.snd = above.filterMap Prod.snd ++ [c] := by
    rw [hslots, List.filterMap_append, List.filterMap_cons, hblank]
  obtain rfl : c = .name name := by
    unfold components at hlast
    rw [hbody] at hlast
    split at hlast <;> simpa [List.getLast?_cons] using hlast
  rcases dropWhile_slots above with ⟨hnone, hdropAbove⟩ |
    ⟨kept, last, c, between, rfl, hbetween, hdropAbove⟩
  · refine ⟨⟨if p.isAbsolute then "/" else ""⟩, ?_, ?_⟩
    · unfold parent?
      rw [hdrop]
      simp only [hdropAbove]
    · unfold components
      rw [hbody, hnone]
      cases p.isAbsolute <;> rfl
  · refine ⟨⟨Text.join "/" ((kept ++ [(last, some c)]).map Prod.fst)⟩, ?_, ?_⟩
    · unfold parent?
      rw [hdrop]
      simp only [hdropAbove]
      simp
    · rw [List.append_assoc, List.cons_append] at hslots
      rw [components_of_slots hslots, List.filterMap_append, hbetween, List.filterMap_cons, hblank]
      rfl

end UiWorkspace.FilePath
