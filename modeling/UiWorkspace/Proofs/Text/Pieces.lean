import Mathlib.Data.List.TakeWhile
import UiWorkspace.Text.Pieces
import UiWorkspace.Text.Span

/-! How pieces go together: the pieces of a text with a separator in it are those around the
separator, joined pieces are cut where they were joined, and a text has at most one rest beside a
fixed beginning or end and one beginning of a given size. -/
namespace UiWorkspace.Text

section Lists

variable {α : Type} [BEq α] [LawfulBEq α] {sep : α}

theorem pieces_append_cons (sep : α) (front back : List α) :
    pieces sep (front ++ sep :: back) = pieces sep front ++ pieces sep back := by
  induction front with
  | nil => simp [pieces]
  | cons c front ih =>
    rw [List.cons_append, pieces, pieces, ih]
    split
    · rfl
    · cases hfront : pieces sep front with
      | nil => exact absurd hfront (pieces_ne_nil sep front)
      | cons p ps => rfl

theorem not_mem_of_mem_pieces {cs piece : List α} (h : piece ∈ pieces sep cs) : sep ∉ piece := by
  induction cs generalizing piece with
  | nil =>
    rw [List.mem_singleton.1 h]
    exact List.not_mem_nil
  | cons c cs ih =>
    rw [pieces] at h
    split at h
    · rcases List.mem_cons.1 h with rfl | h
      · exact List.not_mem_nil
      · exact ih h
    next hc =>
      cases hcs : pieces sep cs with
      | nil => exact absurd hcs (pieces_ne_nil sep cs)
      | cons p ps =>
        rw [hcs] at h ih
        rcases List.mem_cons.1 h with rfl | h
        · intro hmem
          rcases List.mem_cons.1 hmem with rfl | hmem
          · exact hc (beq_self_eq_true _)
          · exact ih List.mem_cons_self hmem
        · exact ih (List.mem_cons_of_mem p h)

omit [LawfulBEq α] in
theorem mem_of_mem_pieces {cs piece : List α} {c : α} (hpiece : piece ∈ pieces sep cs)
    (hc : c ∈ piece) : c ∈ cs := by
  induction cs generalizing piece with
  | nil =>
    rw [List.mem_singleton.1 hpiece] at hc
    cases hc
  | cons d cs ih =>
    rw [pieces] at hpiece
    split at hpiece
    · rcases List.mem_cons.1 hpiece with rfl | hpiece
      · cases hc
      · exact List.mem_cons_of_mem d (ih hpiece hc)
    · cases hcs : pieces sep cs with
      | nil => exact absurd hcs (pieces_ne_nil sep cs)
      | cons p ps =>
        rw [hcs] at hpiece ih
        rcases List.mem_cons.1 hpiece with rfl | hpiece
        · rcases List.mem_cons.1 hc with rfl | hc
          · exact List.mem_cons_self
          · exact List.mem_cons_of_mem d (ih List.mem_cons_self hc)
        · exact List.mem_cons_of_mem d (ih (List.mem_cons_of_mem p hpiece) hc)

theorem exists_mem_pieces {cs : List α} {c : α} (hc : c ∈ cs) (hne : c ≠ sep) :
    ∃ piece ∈ pieces sep cs, c ∈ piece := by
  induction cs with
  | nil => cases hc
  | cons d cs ih =>
    rw [pieces]
    rcases List.mem_cons.1 hc with rfl | hc
    · rw [if_neg (mt beq_iff_eq.1 hne)]
      cases hcs : pieces sep cs with
      | nil => exact absurd hcs (pieces_ne_nil sep cs)
      | cons p ps => exact ⟨c :: p, List.mem_cons_self, List.mem_cons_self⟩
    · obtain ⟨piece, hpiece, hc⟩ := ih hc
      split
      · exact ⟨piece, List.mem_cons_of_mem _ hpiece, hc⟩
      · cases hcs : pieces sep cs with
        | nil => exact absurd hcs (pieces_ne_nil sep cs)
        | cons p ps =>
          rcases List.mem_cons.1 (hcs ▸ hpiece) with rfl | hpiece
          · exact ⟨d :: piece, List.mem_cons_self, List.mem_cons_of_mem d hc⟩
          · exact ⟨piece, List.mem_cons_of_mem _ hpiece, hc⟩

theorem pieces_intercalate {parts : List (List α)} (hne : parts ≠ []) (h : ∀ p ∈ parts, sep ∉ p) :
    pieces sep ([sep].intercalate parts) = parts := by
  induction parts with
  | nil => exact absurd rfl hne
  | cons p parts ih =>
    have hp := pieces_of_not_mem (h p List.mem_cons_self)
    cases parts with
    | nil => rw [List.intercalate_singleton, hp]
    | cons q parts =>
      rw [List.intercalate_cons_cons, List.append_assoc, List.singleton_append, pieces_append_cons,
        hp, ih (List.cons_ne_nil q parts) fun r hr => h r (List.mem_cons_of_mem p hr),
        List.singleton_append]

theorem append_cons_inj {a b s t : List α} (hs : sep ∉ s) (ht : sep ∉ t) :
    a ++ sep :: s = b ++ sep :: t ↔ a = b ∧ s = t := by
  constructor
  · intro h
    have hpieces := congrArg (fun cs => (pieces sep cs).getLast?) h
    simp only [pieces_append_cons, pieces_of_not_mem hs, pieces_of_not_mem ht,
      List.getLast?_concat, Option.some.injEq] at hpieces
    rw [hpieces] at h
    exact ⟨List.append_cancel_right h, hpieces⟩
  · rintro ⟨rfl, rfl⟩
    rfl

omit [BEq α] [LawfulBEq α] in
theorem exists_of_append_cons_eq {front rest kept dropped : List α}
    (h : front ++ sep :: rest = kept ++ dropped) (hsep : sep ∉ dropped) :
    ∃ rest', kept = front ++ sep :: rest' := by
  rcases List.append_eq_append_iff.1 h with ⟨between, hkept, hrest⟩ | ⟨between, -, hdropped⟩
  · cases between with
    | nil =>
      have hdropped : dropped = sep :: rest := hrest.symm
      exact (hsep (hdropped ▸ List.mem_cons_self)).elim
    | cons c between => exact ⟨between, by rw [hkept, (List.cons.inj hrest).1]⟩
  · exact (hsep (hdropped ▸ List.mem_append_right between List.mem_cons_self)).elim

theorem before?_eq_some_iff {tail cs front : List α} :
    before? tail cs = some front ↔ cs = front ++ tail := by
  rw [before?, Option.map_eq_some_iff]
  constructor
  · rintro ⟨rest, hrest, rfl⟩
    rw [after?_eq_some_iff] at hrest
    rw [← List.reverse_reverse cs, hrest, List.reverse_append, List.reverse_reverse]
  · rintro rfl
    exact ⟨front.reverse, after?_eq_some_iff.2 List.reverse_append, List.reverse_reverse front⟩

end Lists

/-- What stands before the first occurrence of `part`, and what stands behind it. -/
def around? {α : Type} [BEq α] (part : List α) : List α → Option (List α × List α)
  | [] => if part.isEmpty then some ([], []) else none
  | c :: cs =>
    match after? part (c :: cs) with
    | some behind => some ([], behind)
    | none => (around? part cs).map fun found => (c :: found.1, found.2)

section Around

variable {α : Type} [BEq α] [LawfulBEq α] {part cs before behind : List α}

theorem around?_append_self (hpart : part ≠ []) (behind : List α) :
    around? part (part ++ behind) = some ([], behind) := by
  obtain ⟨c, part, rfl⟩ := List.exists_cons_of_ne_nil hpart
  rw [List.cons_append, around?, ← List.cons_append, after?_eq_some_iff.2 rfl]

omit [LawfulBEq α] in
theorem around?_cons {c : α} (h : (after? part (c :: cs)).isSome = false) :
    around? part (c :: cs) = (around? part cs).map fun found => (c :: found.1, found.2) := by
  cases hhere : after? part (c :: cs) with
  | some rest =>
    rw [hhere] at h
    cases h
  | none => rw [around?, hhere]

theorem around?_eq_none_iff : around? part cs = none ↔ ∀ x y, cs ≠ x ++ part ++ y := by
  induction cs with
  | nil =>
    cases part with
    | nil => exact iff_of_false (by simp [around?]) fun h => h [] [] rfl
    | cons p part => exact iff_of_true rfl (by simp)
  | cons c cs ih =>
    cases hhere : after? part (c :: cs) with
    | some rest =>
      have hcs := after?_eq_some_iff.1 hhere
      exact iff_of_false (by simp [around?, hhere]) fun h => h [] rest (by simpa using hcs)
    | none =>
      rw [around?, hhere, Option.map_eq_none_iff, ih]
      constructor
      · intro h x y hxy
        cases x with
        | nil =>
          rw [after?_eq_some_iff.2 (by simpa using hxy)] at hhere
          cases hhere
        | cons d x => exact h x y (List.cons.inj hxy).2
      · exact fun h x y hxy => h (c :: x) y (by simp [hxy])

theorem around?_cut (h : around? part cs = some (before, behind)) :
    cs = before ++ part ++ behind ∧ ∀ x y, cs = x ++ part ++ y → before.length ≤ x.length := by
  induction cs generalizing before with
  | nil =>
    cases part with
    | nil =>
      cases h
      simp
    | cons p part => cases h
  | cons c cs ih =>
    cases hhere : after? part (c :: cs) with
    | some rest =>
      rw [around?, hhere] at h
      cases h
      exact ⟨by simpa using after?_eq_some_iff.1 hhere, by simp⟩
    | none =>
      rw [around?, hhere] at h
      obtain ⟨⟨rest, behind'⟩, hrest, hfound⟩ := Option.map_eq_some_iff.1 h
      obtain ⟨rfl, rfl⟩ := Prod.mk.inj hfound
      obtain ⟨hcut, hfirst⟩ := ih hrest
      refine ⟨by simp [hcut], fun x y hxy => ?_⟩
      cases x with
      | nil =>
        rw [after?_eq_some_iff.2 (by simpa using hxy)] at hhere
        cases hhere
      | cons d x => exact Nat.succ_le_succ (hfirst x y (List.cons.inj hxy).2)

theorem around?_eq_some_iff : around? part cs = some (before, behind) ↔
    cs = before ++ part ++ behind ∧ ∀ x y, cs = x ++ part ++ y → before.length ≤ x.length := by
  refine ⟨around?_cut, fun ⟨hcut, hfirst⟩ => ?_⟩
  cases hfound : around? part cs with
  | none => exact absurd hcut (around?_eq_none_iff.1 hfound before behind)
  | some found =>
    obtain ⟨front, rest⟩ := found
    obtain ⟨hcut', hfirst'⟩ := around?_cut hfound
    have hlength := Nat.le_antisymm (hfirst' before behind hcut) (hfirst front rest hcut')
    rw [hcut', List.append_assoc, List.append_assoc] at hcut
    obtain ⟨rfl, hrest⟩ := List.append_inj hcut hlength
    rw [List.append_cancel_left hrest]

end Around

section Tails

variable {α : Type} [BEq α] {lead tail cs rest : List α}

theorem dropLeads_of_none (hlead : lead ≠ []) (h : after? lead cs = none) :
    dropLeads lead hlead cs = cs := by
  rw [dropLeads.eq_def]
  split
  · rfl
  next hrest => simp [h] at hrest

theorem dropLeads_of_some (hlead : lead ≠ []) (h : after? lead cs = some rest) :
    dropLeads lead hlead cs = dropLeads lead hlead rest := by
  rw [dropLeads.eq_def]
  split
  next hnone => simp [h] at hnone
  next hrest => rw [Option.some.inj (hrest.symm.trans h)]

variable [LawfulBEq α]

theorem exists_dropLeads_append (hlead : lead ≠ []) (cs : List α) :
    ∃ dropped, cs = dropped ++ dropLeads lead hlead cs ∧ ∀ c ∈ dropped, c ∈ lead := by
  induction cs using dropLeads.induct lead hlead with
  | case1 cs hnone => exact ⟨[], by rw [dropLeads_of_none hlead hnone, List.nil_append], nofun⟩
  | case2 cs rest hrest ih =>
    obtain ⟨dropped, hcut, hdropped⟩ := ih
    refine ⟨lead ++ dropped, ?_, fun c hc => (List.mem_append.1 hc).elim id (hdropped c)⟩
    rw [dropLeads_of_some hlead hrest, List.append_assoc, ← hcut]
    exact after?_eq_some_iff.1 hrest

variable (htail : tail ≠ [])

theorem exists_dropTails_append (cs : List α) :
    ∃ dropped, cs = dropTails tail htail cs ++ dropped ∧ ∀ c ∈ dropped, c ∈ tail := by
  have hreverse : tail.reverse ≠ [] := mt List.reverse_eq_nil_iff.1 htail
  obtain ⟨dropped, hcut, hdropped⟩ := exists_dropLeads_append hreverse cs.reverse
  refine ⟨dropped.reverse, ?_, by simpa using hdropped⟩
  rw [dropTails, ← List.reverse_append, ← hcut, List.reverse_reverse]

theorem dropTails_append (cs : List α) :
    dropTails tail htail (cs ++ tail) = dropTails tail htail cs := by
  rw [dropTails, List.reverse_append, dropLeads_of_some _ (after?_eq_some_iff.2 rfl), dropTails]

theorem dropTails_of_no_end (h : ∀ front, cs ≠ front ++ tail) : dropTails tail htail cs = cs := by
  have hnone : after? tail.reverse cs.reverse = none := by
    refine Option.eq_none_iff_forall_ne_some.2 fun rest hrest => h rest.reverse ?_
    rw [← List.reverse_inj, List.reverse_append, List.reverse_reverse]
    exact after?_eq_some_iff.1 hrest
  rw [dropTails, dropLeads_of_none _ hnone, List.reverse_reverse]

end Tails

theorem split_ne_nil (sep : Char) (s : String) : split sep s ≠ [] :=
  mt List.map_eq_nil_iff.1 (pieces_ne_nil sep s.toList)

theorem split_eq_append {sep : Char} {s a b : String} (h : s.toList = a.toList ++ sep :: b.toList) :
    split sep s = split sep a ++ split sep b := by
  rw [split, h, pieces_append_cons, List.map_append]
  rfl

theorem not_mem_of_mem_split {sep : Char} {s piece : String} (h : piece ∈ split sep s) :
    sep ∉ piece.toList := by
  obtain ⟨cs, hcs, rfl⟩ := List.mem_map.1 h
  rw [String.toList_ofList]
  exact not_mem_of_mem_pieces hcs

theorem mem_of_mem_split {sep c : Char} {s piece : String} (hpiece : piece ∈ split sep s)
    (hc : c ∈ piece.toList) : c ∈ s.toList := by
  obtain ⟨cs, hcs, rfl⟩ := List.mem_map.1 hpiece
  rw [String.toList_ofList] at hc
  exact mem_of_mem_pieces hcs hc

theorem split_of_not_mem {sep : Char} {s : String} (h : sep ∉ s.toList) : split sep s = [s] := by
  rw [split, pieces_of_not_mem h, List.map_singleton, String.ofList_toList]

theorem split_join {sep : Char} {parts : List String} (hne : parts ≠ [])
    (h : ∀ p ∈ parts, sep ∉ p.toList) : split sep (join (String.singleton sep) parts) = parts := by
  have hmap : (parts.map String.toList).map String.ofList = parts := by
    rw [List.map_map]
    exact (List.map_congr_left fun p _ => String.ofList_toList).trans (List.map_id parts)
  rw [split, join, String.toList_intercalate, String.toList_singleton,
    pieces_intercalate (mt List.map_eq_nil_iff.1 hne) (by simpa using h), hmap]

theorem split_join_of_split {sep : Char} {s : String} {front back : List String} (hne : front ≠ [])
    (h : split sep s = front ++ back) : split sep (join (String.singleton sep) front) = front := by
  refine split_join hne fun piece hpiece => not_mem_of_mem_split (s := s) ?_
  rw [h]
  exact List.mem_append_left back hpiece

theorem forall_mem_of_split {sep : Char} {s : String} {p : Char → Prop} (hsep : p sep)
    (h : ∀ piece ∈ split sep s, ∀ c ∈ piece.toList, p c) : ∀ c ∈ s.toList, p c := by
  intro c hc
  by_cases hcsep : c = sep
  · exact hcsep ▸ hsep
  · obtain ⟨piece, hpiece, hc⟩ := exists_mem_pieces hc hcsep
    refine h (String.ofList piece) (List.mem_map_of_mem hpiece) c ?_
    rwa [String.toList_ofList]

theorem replaceChar_append (old new : Char) (s t : String) :
    replaceChar old new (s ++ t) = replaceChar old new s ++ replaceChar old new t := by
  simp [replaceChar]

theorem replaceChar_of_not_mem {old : Char} {s : String} (h : old ∉ s.toList) (new : Char) :
    replaceChar old new s = s := by
  have hsame : (s.toList.map fun c => if c == old then new else c) = s.toList := by
    refine (List.map_congr_left fun c hc => ?_).trans (List.map_id s.toList)
    have hne : c ≠ old := fun hold => h (hold ▸ hc)
    rw [if_neg (mt beq_iff_eq.1 hne), id]
  rw [replaceChar, hsame, String.ofList_toList]

theorem replaceChar_join {old : Char} {parts : List String} (h : ∀ p ∈ parts, old ∉ p.toList)
    (new : Char) : replaceChar old new (join (String.singleton old) parts) =
      join (String.singleton new) parts := by
  induction parts with
  | nil => rfl
  | cons p parts ih =>
    have hp := replaceChar_of_not_mem (h p List.mem_cons_self) new
    cases parts with
    | nil => rw [join, join, String.intercalate_singleton, String.intercalate_singleton, hp]
    | cons q parts =>
      have hsep : replaceChar old new (String.singleton old) = String.singleton new := by
        rw [replaceChar, String.toList_singleton, List.map_singleton, if_pos (beq_self_eq_true old)]
        rfl
      have hparts := ih fun r hr => h r (List.mem_cons_of_mem p hr)
      rw [join, join] at hparts
      rw [join, join, String.intercalate_cons_cons, String.intercalate_cons_cons,
        replaceChar_append, replaceChar_append, hp, hsep, hparts]

theorem contains_singleton {c : Char} {s : String} :
    contains (String.singleton c) s = true ↔ c ∈ s.toList := by
  rw [contains, String.toList_singleton]
  induction s.toList with
  | nil => exact iff_of_false Bool.false_ne_true List.not_mem_nil
  | cons d cs ih =>
    rw [occursIn, Bool.or_eq_true, ih, List.mem_cons]
    refine or_congr_left ?_
    rw [Option.isSome_iff_exists]
    simp only [after?_eq_some_iff, List.singleton_append, List.cons.injEq, exists_and_left,
      exists_eq', and_true]
    exact eq_comm

theorem stripLead?_eq_some_iff {lead s rest : String} :
    stripLead? lead s = some rest ↔ s = lead ++ rest := by
  rw [stripLead?, Option.map_eq_some_iff, ← String.toList_inj, String.toList_append]
  constructor
  · rintro ⟨cs, hcs, rfl⟩
    rw [String.toList_ofList]
    exact after?_eq_some_iff.1 hcs
  · intro h
    exact ⟨rest.toList, after?_eq_some_iff.2 h, String.ofList_toList⟩

theorem stripTail?_eq_some_iff {tail s front : String} :
    stripTail? tail s = some front ↔ s = front ++ tail := by
  rw [stripTail?, Option.map_eq_some_iff, ← String.toList_inj, String.toList_append]
  constructor
  · rintro ⟨cs, hcs, rfl⟩
    rw [String.toList_ofList]
    exact before?_eq_some_iff.1 hcs
  · intro h
    exact ⟨front.toList, before?_eq_some_iff.2 h, String.ofList_toList⟩

theorem startsWith_append (lead rest : String) : startsWith lead (lead ++ rest) = true :=
  Option.isSome_iff_exists.2 ⟨rest.toList, after?_eq_some_iff.2 String.toList_append⟩

theorem endsWith_append (front tail : String) : endsWith tail (front ++ tail) = true :=
  Option.isSome_iff_exists.2 ⟨front.toList, before?_eq_some_iff.2 String.toList_append⟩

theorem byteLength_pos {cs : List Char} (h : cs ≠ []) : 0 < byteLength cs := by
  obtain ⟨c, cs, rfl⟩ := List.exists_cons_of_ne_nil h
  have := c.utf8Size_pos
  simp only [byteLength]
  omega

theorem lead_unique {a b cs ds : List Char} (h : a ++ cs = b ++ ds)
    (hsize : byteLength a = byteLength b) : a = b := by
  induction a generalizing b with
  | nil =>
    cases b with
    | nil => rfl
    | cons d b => exact absurd hsize (Nat.ne_of_lt (byteLength_pos (List.cons_ne_nil d b)))
  | cons c a ih =>
    cases b with
    | nil => exact absurd hsize (Nat.ne_of_gt (byteLength_pos (List.cons_ne_nil c a)))
    | cons d b =>
      obtain ⟨hc, hrest⟩ := List.cons.inj h
      subst hc
      rw [ih hrest (Nat.add_left_cancel hsize)]

theorem string_lead_unique {a b s t : String} (h : a ++ s = b ++ t)
    (hsize : a.utf8ByteSize = b.utf8ByteSize) : a = b := by
  rw [← String.toList_inj, String.toList_append, String.toList_append] at h
  rw [← String.ofList_toList (s := a), ← String.ofList_toList (s := b), utf8ByteSize_ofList,
    utf8ByteSize_ofList] at hsize
  exact String.toList_inj.1 (lead_unique h hsize)

theorem exists_append_of_size_le {a b s t : String} (h : a ++ s = b ++ t)
    (hsize : a.utf8ByteSize ≤ b.utf8ByteSize) : ∃ c, b = a ++ c ∧ s = c ++ t := by
  rw [← String.toList_inj, String.toList_append, String.toList_append, List.append_eq_append_iff] at h
  rcases h with ⟨c, hb, hs⟩ | ⟨c, ha, ht⟩
  · exact ⟨String.ofList c, by simp [← String.toList_inj, hb], by simp [← String.toList_inj, hs]⟩
  · have ha : a = b ++ String.ofList c := by simp [← String.toList_inj, ha]
    have hc : String.ofList c = "" := by
      rw [← String.utf8ByteSize_eq_zero_iff]
      rw [ha, String.utf8ByteSize_append] at hsize
      omega
    have ht : t = String.ofList c ++ s := by simp [← String.toList_inj, ht]
    rw [hc] at ha ht
    exact ⟨"", by simp [ha], by simp [ht]⟩

theorem takeWhile_append_of_head {p : Char → Bool} {cs ds : List Char} (hcs : ∀ c ∈ cs, p c = true)
    (hds : ∀ d, ds.head? = some d → p d = false) :
    (cs ++ ds).takeWhile p = cs ∧ (cs ++ ds).dropWhile p = ds := by
  rw [List.takeWhile_append_of_pos hcs, List.dropWhile_append_of_pos hcs]
  cases ds with
  | nil => simp
  | cons d ds => simp [hds d rfl]

theorem dropTrailing_append {p : Char → Bool} {cs ds : List Char} (hds : ∀ d ∈ ds, p d = true)
    (hcs : ∀ c, cs.getLast? = some c → p c = false) : dropTrailing p (cs ++ ds) = cs := by
  have hds : ∀ d ∈ ds.reverse, p d = true := by simpa using hds
  have hcs : ∀ c, cs.reverse.head? = some c → p c = false := by simpa using hcs
  rw [dropTrailing, List.reverse_append, (takeWhile_append_of_head hds hcs).2, List.reverse_reverse]

theorem exists_dropTrailing_append (p : Char → Bool) (cs : List Char) :
    ∃ ds, cs = dropTrailing p cs ++ ds ∧ ∀ d ∈ ds, p d = true := by
  refine ⟨(cs.reverse.takeWhile p).reverse, ?_, fun d hd => ?_⟩
  · unfold dropTrailing
    rw [← List.reverse_append, List.takeWhile_append_dropWhile, List.reverse_reverse]
  · exact List.mem_takeWhile_imp (List.mem_reverse.1 hd)

theorem trimChars_of_not_isBlank {cs : List Char} (h : ∀ c ∈ cs, isBlank c = false) : trimChars cs = cs := by
  have hhead : ∀ c, cs.head? = some c → isBlank c = false := fun c hc => h c (List.mem_of_mem_head? hc)
  have hlast : ∀ c, cs.getLast? = some c → isBlank c = false := fun c hc => h c (List.mem_of_getLast? hc)
  have hnone : ∀ c ∈ ([] : List Char), isBlank c = true := fun c hc => absurd hc List.not_mem_nil
  have hfront := (takeWhile_append_of_head hnone hhead).2
  have hback := dropTrailing_append hnone hlast
  rw [List.nil_append] at hfront
  rw [List.append_nil] at hback
  rw [trimChars, hfront, hback]

theorem exists_trimChars_append {cs : List Char} (h : ∀ c, cs.head? = some c → isBlank c = false) :
    ∃ ds, cs = trimChars cs ++ ds ∧ ∀ d ∈ ds, isBlank d = true := by
  have hnone : ∀ c ∈ ([] : List Char), isBlank c = true := fun c hc => absurd hc List.not_mem_nil
  have hfront : cs.dropWhile isBlank = cs := (takeWhile_append_of_head hnone h).2
  rw [trimChars, hfront]
  exact exists_dropTrailing_append isBlank cs

end UiWorkspace.Text
