import UiWorkspace.Format.Json

/-! What is written is read back. The reader is followed through the text of the writer, string by
string and value by value; numbers are left out, as their texts are kept as they were written. -/
namespace UiWorkspace.Format.JsonValue

open UiWorkspace.Text

theorem hexValues?_hexText : ∀ n < 32, hexValues? ('0' :: '0' :: hexText n) = some n := by decide

theorem joined?_of_lt {high low : Nat} (h : high < 0xD800) : joined? high low = none :=
  if_neg fun hjoined => Nat.not_le.2 h hjoined.1

theorem single?_of_lt {n : Nat} (h : n < 0xD800) : single? n = some (Char.ofNat n) :=
  if_neg fun hsurrogate => Nat.not_le.2 h hsurrogate.1

theorem readString_unit {a b c d : Char} {n : Nat} (hvalue : hexValues? [a, b, c, d] = some n)
    (h : n < 0xD800) (cs : List Char) :
    readString ('\\' :: 'u' :: a :: b :: c :: d :: cs) =
      (readString cs).map fun p => (Char.ofNat n :: p.1, p.2) := by
  -- The reader looks at the next unit, too, in case the two are surrogates.
  by_cases hnext : ∃ e f g i more, cs = '\\' :: 'u' :: e :: f :: g :: i :: more
  · obtain ⟨e, f, g, i, more, rfl⟩ := hnext
    rw [readString, hvalue]
    cases hexValues? [e, f, g, i] with
    | none => simp only [single?_of_lt h]
    | some low => simp only [joined?_of_lt h, single?_of_lt h]
  · rw [readString, hvalue, Option.bind_some, single?_of_lt h]
    rintro e f g i more rfl
    exact hnext ⟨e, f, g, i, more, rfl⟩

theorem readString_short {e c : Char} (h : escaped? e = some c) (cs : List Char) :
    readString ('\\' :: e :: cs) = (readString cs).map fun p => (c :: p.1, p.2) := by
  have hunit : e ≠ 'u' := by
    rintro rfl
    cases h
  rw [readString, h]
  · exact fun _ _ _ _ _ _ _ _ _ he => absurd he hunit
  · exact fun _ _ _ _ _ he => absurd he hunit

theorem readString_plain {c : Char} (hquote : c ≠ '"') (hescape : c ≠ '\\') (h : 32 ≤ c.toNat)
    (cs : List Char) : readString (c :: cs) = (readString cs).map fun p => (c :: p.1, p.2) := by
  rw [readString]
  · simp [hescape, Nat.not_lt.2 h]
  · exact hquote
  · exact fun _ _ _ _ _ _ _ _ _ he => absurd he hescape
  · exact fun _ _ _ _ _ he => absurd he hescape
  · exact fun _ _ he => absurd he hescape

theorem escapeChar_cases (c : Char) :
    (∃ e, escapeChar c = ['\\', e] ∧ escaped? e = some c) ∨
      (c.toNat < 32 ∧ escapeChar c = '\\' :: 'u' :: '0' :: '0' :: hexText c.toNat) ∨
      (c ≠ '"' ∧ c ≠ '\\' ∧ 32 ≤ c.toNat ∧ escapeChar c = [c]) := by
  by_cases hquote : c = '"'
  · exact .inl ⟨'"', by simp [escapeChar, hquote], by rw [hquote]; rfl⟩
  by_cases hescape : c = '\\'
  · exact .inl ⟨'\\', by simp [escapeChar, hescape], by rw [hescape]; rfl⟩
  unfold escapeChar
  rw [if_neg (by simpa using hquote), if_neg (by simpa using hescape)]
  iterate 5
    split
    next h => exact .inl ⟨_, rfl, by rw [beq_iff_eq.1 h]; rfl⟩
  split
  next h => exact .inr (.inl ⟨h, rfl⟩)
  next h => exact .inr (.inr ⟨hquote, hescape, Nat.not_lt.1 h, rfl⟩)

theorem readString_escapeChar (c : Char) (cs : List Char) :
    readString (escapeChar c ++ cs) = (readString cs).map fun p => (c :: p.1, p.2) := by
  rcases escapeChar_cases c with ⟨e, hwritten, hshort⟩ | ⟨hcontrol, hwritten⟩ |
    ⟨hquote, hescape, hlarge, hwritten⟩
  · rw [hwritten]
    exact readString_short hshort cs
  · rw [hwritten, hexText]
    have hvalue := readString_unit (hexValues?_hexText c.toNat hcontrol) (by omega) cs
    rwa [Char.ofNat_toNat] at hvalue
  · rw [hwritten]
    exact readString_plain hquote hescape hlarge cs

theorem readString_quoted (s rest : List Char) :
    readString (s.flatMap escapeChar ++ '"' :: rest) = some (s, rest) := by
  induction s with
  | nil => simp [readString]
  | cons c s ih => rw [List.flatMap_cons, List.append_assoc, readString_escapeChar, ih, Option.map_some]

inductive NumberFree : JsonValue → Prop
  | null : NumberFree null
  | bool (b : Bool) : NumberFree (bool b)
  | string (s : String) : NumberFree (string s)
  | array {items : List JsonValue} : (∀ v ∈ items, NumberFree v) → NumberFree (array items)
  | object {fields : List (String × JsonValue)} :
      (∀ f ∈ fields, NumberFree f.2) → NumberFree (object fields)

def Blanks (cs : List Char) : Prop := ∀ c ∈ cs, isJsonBlank c = true

theorem dropWhile_mark {c : Char} (hc : isJsonBlank c = false) (cs : List Char) :
    (c :: cs).dropWhile isJsonBlank = c :: cs :=
  List.dropWhile_cons_of_neg (Bool.eq_false_iff.1 hc)

theorem dropWhile_blanks {blank : List Char} (hblank : Blanks blank) {c : Char} (hc : isJsonBlank c = false)
    (cs : List Char) : (blank ++ c :: cs).dropWhile isJsonBlank = c :: cs := by
  rw [List.dropWhile_append_of_pos hblank, dropWhile_mark hc]

theorem blanks_indent (depth : Nat) : Blanks (indent depth).toList := by
  intro c hc
  rw [indent, String.toList_ofList] at hc
  rw [List.eq_of_mem_replicate hc]
  rfl

theorem blanks_line (depth : Nat) : Blanks ('\n' :: (indent depth).toList) :=
  List.forall_mem_cons.2 ⟨rfl, blanks_indent depth⟩

theorem toList_quote (s : String) : (quote s).toList = '"' :: (s.toList.flatMap escapeChar ++ ['"']) := by
  rw [quote, String.toList_ofList]

theorem toList_pretty_array (depth : Nat) (v : JsonValue) (vs : List JsonValue) :
    (pretty depth (array (v :: vs))).toList = '[' :: (('\n' :: (indent (depth + 1)).toList) ++
      ((pretty (depth + 1) v).toList ++ ((prettyItems (depth + 1) vs).toList ++
        (('\n' :: (indent depth).toList) ++ [']'])))) := by
  simp [pretty]

theorem toList_prettyItems_cons (depth : Nat) (v : JsonValue) (vs : List JsonValue) :
    (prettyItems depth (v :: vs)).toList = ',' :: (('\n' :: (indent depth).toList) ++
      ((pretty depth v).toList ++ (prettyItems depth vs).toList)) := by
  simp [prettyItems]

theorem toList_pretty_object (depth : Nat) (k : String) (v : JsonValue)
    (fields : List (String × JsonValue)) :
    (pretty depth (object ((k, v) :: fields))).toList = '\x7b' :: (('\n' :: (indent (depth + 1)).toList) ++
      ((quote k).toList ++ ([':', ' '] ++ ((pretty (depth + 1) v).toList ++
        ((prettyFields (depth + 1) fields).toList ++ (('\n' :: (indent depth).toList) ++ ['\x7d'])))))) := by
  simp [pretty]

theorem toList_prettyFields_cons (depth : Nat) (k : String) (v : JsonValue)
    (fields : List (String × JsonValue)) :
    (prettyFields depth ((k, v) :: fields)).toList = ',' :: (('\n' :: (indent depth).toList) ++
      ((quote k).toList ++ ([':', ' '] ++ ((pretty depth v).toList ++
        (prettyFields depth fields).toList)))) := by
  simp [prettyFields]

theorem pretty_head {v : JsonValue} (h : v.NumberFree) (depth : Nat) :
    ∃ c cs, (pretty depth v).toList = c :: cs ∧ isJsonBlank c = false ∧ c ≠ ']' := by
  cases h with
  | null => exact ⟨'n', ['u', 'l', 'l'], by simp [pretty], rfl, by decide⟩
  | bool b =>
    cases b with
    | false => exact ⟨'f', ['a', 'l', 's', 'e'], by simp [pretty], rfl, by decide⟩
    | true => exact ⟨'t', ['r', 'u', 'e'], by simp [pretty], rfl, by decide⟩
  | string s => exact ⟨_, _, toList_quote s, rfl, by decide⟩
  | @array items _ =>
    cases items with
    | nil => exact ⟨'[', [']'], by simp [pretty], rfl, by decide⟩
    | cons v vs => exact ⟨_, _, toList_pretty_array depth v vs, rfl, by decide⟩
  | @object fields _ =>
    cases fields with
    | nil => exact ⟨'\x7b', ['\x7d'], by simp [pretty], rfl, by decide⟩
    | cons f fields => exact ⟨_, _, toList_pretty_object depth f.1 f.2 fields, rfl, by decide⟩

theorem readString_quote (s : String) (rest : List Char) :
    readString ((s.toList.flatMap escapeChar ++ ['"']) ++ rest) = some (s.toList, rest) := by
  rw [List.append_assoc]
  exact readString_quoted s.toList rest

/-- The value is read where its text stands, and what follows it is left. -/
def Reads (v : JsonValue) : Prop :=
  ∀ (depth fuel : Nat) (blank rest : List Char), Blanks blank →
    2 * (pretty depth v).toList.length ≤ fuel →
    readValue fuel (blank ++ ((pretty depth v).toList ++ rest)) = some (v, rest)

theorem readItems_step {v : JsonValue} (h : Reads v) {depth fuel : Nat} {blank : List Char}
    (hblank : Blanks blank) (hfuel : 2 * (pretty depth v).toList.length ≤ fuel) (cs : List Char) :
    readItems (fuel + 1) (blank ++ ((pretty depth v).toList ++ cs)) =
      match cs.dropWhile isJsonBlank with
      | ',' :: more => (readItems fuel more).map fun p => (v :: p.1, p.2)
      | ']' :: behind => some ([v], behind)
      | _ => none := by
  rewrite [readItems, h _ _ _ _ hblank hfuel]
  rfl

theorem readItems_pretty {v : JsonValue} {vs : List JsonValue} (h : ∀ item ∈ v :: vs, Reads item)
    {depth fuel : Nat} {blank tail rest : List Char} (hblank : Blanks blank)
    (htail : tail.dropWhile isJsonBlank = ']' :: rest)
    (hfuel : 2 * ((pretty depth v).toList.length + (prettyItems depth vs).toList.length) < fuel) :
    readItems fuel (blank ++ ((pretty depth v).toList ++ ((prettyItems depth vs).toList ++ tail))) =
      some (v :: vs, rest) := by
  induction vs generalizing v fuel blank with
  | nil =>
    obtain ⟨hfirst, -⟩ := List.forall_mem_cons.1 h
    cases fuel with
    | zero => omega
    | succ fuel =>
      rw [readItems_step hfirst hblank (by omega)]
      simp only [prettyItems, String.toList_empty, List.nil_append, htail]
  | cons next vs ih =>
    obtain ⟨hfirst, hothers⟩ := List.forall_mem_cons.1 h
    cases fuel with
    | zero => omega
    | succ fuel =>
      rw [toList_prettyItems_cons] at hfuel ⊢
      simp only [List.length_cons, List.length_append] at hfuel
      have hless : 2 * ((pretty depth next).toList.length + (prettyItems depth vs).toList.length) < fuel := by
        omega
      have hread := ih hothers (blanks_line depth) hless
      rw [readItems_step hfirst hblank (by omega)]
      simp only [List.cons_append, List.append_assoc] at hread ⊢
      simp only [dropWhile_mark (c := ',') rfl, hread, Option.map_some]

theorem readFields_step {k : String} {v : JsonValue} (h : Reads v) {depth fuel : Nat} {blank : List Char}
    (hblank : Blanks blank) (hfuel : 2 * (pretty depth v).toList.length ≤ fuel) (cs : List Char) :
    readFields (fuel + 1) (blank ++ ((quote k).toList ++ ([':', ' '] ++ ((pretty depth v).toList ++ cs)))) =
      match cs.dropWhile isJsonBlank with
      | ',' :: more => (readFields fuel more).map fun p => ((k, v) :: p.1, p.2)
      | '\x7d' :: behind => some ([(k, v)], behind)
      | _ => none := by
  have hvalue : ∀ rest, readValue fuel (' ' :: ((pretty depth v).toList ++ rest)) = some (v, rest) :=
    fun rest => h depth fuel [' '] rest (List.forall_mem_singleton.2 rfl) hfuel
  rw [readFields, toList_quote, List.cons_append, dropWhile_blanks hblank rfl]
  simp only [readString_quote, List.cons_append, List.nil_append, dropWhile_mark (c := ':') rfl]
  rewrite [hvalue, String.ofList_toList]
  rfl

theorem readFields_pretty {k : String} {v : JsonValue} {fields : List (String × JsonValue)}
    (h : ∀ f ∈ (k, v) :: fields, Reads f.2) {depth fuel : Nat} {blank tail rest : List Char}
    (hblank : Blanks blank) (htail : tail.dropWhile isJsonBlank = '\x7d' :: rest)
    (hfuel : 2 * ((pretty depth v).toList.length + (prettyFields depth fields).toList.length) < fuel) :
    readFields fuel (blank ++ ((quote k).toList ++ ([':', ' '] ++ ((pretty depth v).toList ++
      ((prettyFields depth fields).toList ++ tail))))) = some ((k, v) :: fields, rest) := by
  induction fields generalizing k v fuel blank with
  | nil =>
    obtain ⟨hfirst, -⟩ := List.forall_mem_cons.1 h
    cases fuel with
    | zero => omega
    | succ fuel =>
      rw [readFields_step hfirst hblank (by dsimp only; omega)]
      simp only [prettyFields, String.toList_empty, List.nil_append, htail]
  | cons next fields ih =>
    obtain ⟨hfirst, hothers⟩ := List.forall_mem_cons.1 h
    cases fuel with
    | zero => omega
    | succ fuel =>
      obtain ⟨key, w⟩ := next
      rw [toList_prettyFields_cons] at hfuel ⊢
      simp only [List.length_cons, List.length_append] at hfuel
      have hless : 2 * ((pretty depth w).toList.length + (prettyFields depth fields).toList.length) < fuel := by
        omega
      have hread := ih hothers (blanks_line depth) hless
      rw [readFields_step hfirst hblank (by dsimp only; omega)]
      simp only [List.cons_append, List.append_assoc] at hread ⊢
      simp only [dropWhile_mark (c := ',') rfl, hread, Option.map_some]

theorem dropWhile_closing {mark : Char} (hmark : isJsonBlank mark = false) (depth : Nat) (rest : List Char) :
    ((('\n' :: (indent depth).toList) ++ [mark]) ++ rest).dropWhile isJsonBlank = mark :: rest := by
  rw [List.append_assoc]
  exact dropWhile_blanks (blanks_line depth) hmark rest

theorem readValue_items {fuel : Nat} {c : Char} {cs rest : List Char} (hc : c ≠ ']')
    (hrest : rest.dropWhile isJsonBlank = c :: cs) :
    readValue (fuel + 1) ('[' :: rest) = (readItems fuel rest).map fun p => (array p.1, p.2) := by
  rw [readValue, dropWhile_mark rfl]
  simp only [hrest]
  split
  next heq => exact absurd (List.cons.inj heq).1 hc
  next => rfl

theorem readValue_fields {fuel : Nat} {c : Char} {cs rest : List Char} (hc : c ≠ '\x7d')
    (hrest : rest.dropWhile isJsonBlank = c :: cs) :
    readValue (fuel + 1) ('\x7b' :: rest) = (readFields fuel rest).map fun p => (object p.1, p.2) := by
  rw [readValue, dropWhile_mark rfl]
  simp only [hrest]
  split
  next heq => exact absurd (List.cons.inj heq).1 hc
  next => rfl

theorem reads_of_start {v : JsonValue} (h : v.NumberFree)
    (hstart : ∀ (depth fuel : Nat) (rest : List Char), 2 * (pretty depth v).toList.length ≤ fuel + 1 →
      readValue (fuel + 1) ((pretty depth v).toList ++ rest) = some (v, rest)) : Reads v := by
  intro depth fuel blank rest hblank hfuel
  obtain ⟨c, cs, hhead, hc, -⟩ := pretty_head h depth
  cases fuel with
  | zero =>
    rw [hhead, List.length_cons] at hfuel
    omega
  | succ fuel =>
    rw [← hstart depth fuel rest hfuel, hhead, List.cons_append, readValue, readValue,
      dropWhile_blanks hblank hc, dropWhile_mark hc]

theorem reads_array {items : List JsonValue} (hitems : ∀ v ∈ items, v.NumberFree)
    (h : ∀ v ∈ items, Reads v) : Reads (array items) := by
  refine reads_of_start (.array hitems) fun depth fuel rest hfuel => ?_
  cases items with
  | nil => simp [pretty, readValue, isJsonBlank]
  | cons v vs =>
    obtain ⟨c, cs, hhead, hblank, hc⟩ := pretty_head (hitems v List.mem_cons_self) (depth + 1)
    have hfirst : ∀ more, (('\n' :: (indent (depth + 1)).toList) ++
        ((pretty (depth + 1) v).toList ++ more)).dropWhile isJsonBlank = c :: (cs ++ more) := by
      intro more
      rw [hhead]
      exact dropWhile_blanks (blanks_line (depth + 1)) hblank _
    rw [toList_pretty_array] at hfuel ⊢
    simp only [List.length_cons, List.length_append] at hfuel
    have hless : 2 * ((pretty (depth + 1) v).toList.length +
        (prettyItems (depth + 1) vs).toList.length) < fuel := by omega
    have hclosed := dropWhile_closing (show isJsonBlank ']' = false from rfl) depth rest
    have hread := readItems_pretty h (blanks_line (depth + 1)) hclosed hless
    rw [List.cons_append]
    simp only [List.append_assoc] at hread ⊢
    rw [readValue_items hc (hfirst _), hread, Option.map_some]

theorem reads_object {fields : List (String × JsonValue)} (hfields : ∀ f ∈ fields, f.2.NumberFree)
    (h : ∀ f ∈ fields, Reads f.2) : Reads (object fields) := by
  refine reads_of_start (.object hfields) fun depth fuel rest hfuel => ?_
  cases fields with
  | nil => simp [pretty, readValue, isJsonBlank]
  | cons f fields =>
    obtain ⟨k, v⟩ := f
    have hfirst : ∀ more, (('\n' :: (indent (depth + 1)).toList) ++
        ((quote k).toList ++ more)).dropWhile isJsonBlank =
          '"' :: (k.toList.flatMap escapeChar ++ ['"'] ++ more) := by
      intro more
      rw [toList_quote]
      exact dropWhile_blanks (blanks_line (depth + 1)) rfl _
    rw [toList_pretty_object] at hfuel ⊢
    simp only [List.length_cons, List.length_append] at hfuel
    have hless : 2 * ((pretty (depth + 1) v).toList.length +
        (prettyFields (depth + 1) fields).toList.length) < fuel := by omega
    have hclosed := dropWhile_closing (show isJsonBlank '\x7d' = false from rfl) depth rest
    have hread := readFields_pretty h (blanks_line (depth + 1)) hclosed hless
    rw [List.cons_append]
    simp only [List.append_assoc] at hread ⊢
    rw [readValue_fields (by decide) (hfirst _), hread, Option.map_some]

theorem NumberFree.reads {v : JsonValue} (h : v.NumberFree) : Reads v := by
  induction h with
  | null => exact reads_of_start .null fun depth fuel rest _ => by simp [pretty, readValue, isJsonBlank]
  | bool b =>
    refine reads_of_start (.bool b) fun depth fuel rest _ => ?_
    cases b <;> simp [pretty, readValue, isJsonBlank]
  | string s =>
    refine reads_of_start (.string s) fun depth fuel rest _ => ?_
    rw [pretty, toList_quote, List.cons_append, readValue, dropWhile_mark rfl]
    simp only [readString_quote, Option.map_some, String.ofList_toList]
  | array hitems ih => exact reads_array hitems ih
  | object hfields ih => exact reads_object hfields ih

/-- What the writer writes of a value without numbers is read back. -/
theorem read?_write {v : JsonValue} (h : v.NumberFree) : read? v.write = some v := by
  have hread : readValue (2 * v.write.toList.length + 2) v.write.toList = some (v, []) := by
    have hreads := h.reads 0 (2 * v.write.toList.length + 2) [] [] (fun _ hc => absurd hc List.not_mem_nil)
      (Nat.le_add_right _ 2)
    rw [List.nil_append, List.append_nil] at hreads
    exact hreads
  unfold read?
  dsimp only
  rw [hread]
  rfl

end UiWorkspace.Format.JsonValue
