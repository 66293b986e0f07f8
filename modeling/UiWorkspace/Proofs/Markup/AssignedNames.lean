import UiWorkspace.Proofs.Markup.Assignments

/-! Names that a document assigns. They are searched in its plain text, while the tags assign them as
attributes; where the search finds nothing but attributes, the two ways to read them agree. -/
namespace UiWorkspace.Markup

open UiWorkspace.Text

def named (key : List Char) (attributes : List Attribute) : List Attribute :=
  attributes.filter fun a => a.name == String.ofList key

theorem named_append (key : List Char) (as bs : List Attribute) :
    named key (as ++ bs) = named key as ++ named key bs :=
  List.filter_append ..

def WellQuoted (key : List Char) (attributes : List Attribute) : Prop :=
  ∀ a ∈ named key attributes, a.value ≠ "" ∧ ∀ c ∈ a.value.toList, isQuote c = false

def AllBlank (cs : List Char) : Prop := ∀ c ∈ cs, isAsciiBlank c = true

theorem AllBlank.concat {cs : List Char} (h : AllBlank cs) {c : Char} (hc : isAsciiBlank c = true) :
    AllBlank (cs ++ [c]) :=
  List.forall_mem_append.2 ⟨h, List.forall_mem_singleton.2 hc⟩

theorem allBlank_nil : AllBlank [] := fun _ hc => absurd hc List.not_mem_nil

/-- What has been read from offset `pos` on when the reading of attributes is in some mode. -/
inductive HasRead (pos : Nat) : AttributeMode → List Char → Prop
  | gap (read : List Char) : HasRead pos .gap read
  | name (lead seen : List Char) : HasRead pos (.name seen) (lead ++ seen.reverse)
  | sign (lead name before : List Char) : AllBlank before →
      HasRead pos (.sign name) (lead ++ (name ++ before))
  | opening (lead name before behind : List Char) : AllBlank before → AllBlank behind →
      HasRead pos (.opening name) (lead ++ (name ++ (before ++ '=' :: behind)))
  | value (lead name before behind : List Char) (quote : Char) (seen : List Char) :
      AllBlank before → AllBlank behind → isQuote quote = true →
      HasRead pos (.value name quote (pos + byteLength (lead ++ openedBy name before behind quote)) seen)
        (lead ++ openedBy name before behind quote ++ seen.reverse)

theorem isBlank_of_isAsciiBlank {c : Char} (h : isAsciiBlank c = true) : isBlank c = true := by
  simp only [isAsciiBlank, Bool.or_eq_true, beq_iff_eq] at h
  rcases h with (((rfl | rfl) | rfl) | rfl) | rfl <;> decide

inductive Closes (pos : Nat) : List Char → Attribute → Prop
  | intro (lead name before behind value : List Char) (quote : Char) :
      AllBlank before → AllBlank behind → isQuote quote = true →
      Closes pos (lead ++ openedBy name before behind quote ++ value ++ [quote])
        ⟨String.ofList name, String.ofList value,
          ⟨pos + byteLength (lead ++ openedBy name before behind quote),
            pos + byteLength (lead ++ openedBy name before behind quote ++ value)⟩⟩

inductive Steps (pos : Nat) (mode : AttributeMode) (read : List Char) (c : Char) (cs : List Char) : Prop
  | further (next : AttributeMode) : HasRead pos next (read ++ [c]) →
      attributesIn mode (pos + byteLength read) (c :: cs) =
        attributesIn next (pos + byteLength read + c.utf8Size) cs →
      Steps pos mode read c cs
  | ended : attributesIn mode (pos + byteLength read) (c :: cs) = [] → Steps pos mode read c cs
  | closed (found : Attribute) : Closes pos (read ++ [c]) found →
      attributesIn mode (pos + byteLength read) (c :: cs) =
        [found] ++ attributesIn .gap (pos + byteLength read + c.utf8Size) cs →
      Steps pos mode read c cs

theorem steps_gap (pos : Nat) (read : List Char) (c : Char) (cs : List Char) : Steps pos .gap read c cs := by
  cases hblank : isAsciiBlank c with
  | true => exact .further _ (.gap _) (by simp [attributesIn, hblank])
  | false =>
    cases hsign : c == '=' with
    | true =>
      obtain rfl := beq_iff_eq.1 hsign
      exact .further _ (.opening read [] [] [] allBlank_nil allBlank_nil) (by simp [attributesIn, hblank])
    | false => exact .further _ (.name read [c]) (by simp [attributesIn, hblank, hsign])

theorem steps_name (pos : Nat) (lead seen : List Char) (c : Char) (cs : List Char) :
    Steps pos (.name seen) (lead ++ seen.reverse) c cs := by
  cases hblank : isAsciiBlank c with
  | true =>
    refine .further (.sign seen.reverse) ?_ (by simp [attributesIn, hblank])
    rw [List.append_assoc]
    exact .sign lead seen.reverse [c] (allBlank_nil.concat hblank)
  | false =>
    cases hsign : c == '=' with
    | true =>
      obtain rfl := beq_iff_eq.1 hsign
      refine .further (.opening seen.reverse) ?_ (by simp [attributesIn, hblank])
      rw [List.append_assoc]
      exact .opening lead seen.reverse [] [] allBlank_nil allBlank_nil
    | false =>
      refine .further (.name (c :: seen)) ?_ (by simp [attributesIn, hblank, hsign])
      rw [List.append_assoc, ← List.reverse_cons]
      exact .name lead (c :: seen)

theorem steps_sign (pos : Nat) (lead name : List Char) {before : List Char} (hbefore : AllBlank before)
    (c : Char) (cs : List Char) : Steps pos (.sign name) (lead ++ (name ++ before)) c cs := by
  cases hblank : isAsciiBlank c with
  | true =>
    refine .further (.sign name) ?_ (by simp [attributesIn, hblank])
    rw [List.append_assoc, List.append_assoc]
    exact .sign lead name (before ++ [c]) (hbefore.concat hblank)
  | false =>
    cases hsign : c == '=' with
    | true =>
      obtain rfl := beq_iff_eq.1 hsign
      refine .further (.opening name) ?_ (by simp [attributesIn, hblank])
      rw [List.append_assoc, List.append_assoc]
      exact .opening lead name before [] hbefore allBlank_nil
    | false => exact .further _ (.name _ [c]) (by simp [attributesIn, hblank, hsign])

theorem steps_opening (pos : Nat) (lead name : List Char) {before behind : List Char}
    (hbefore : AllBlank before) (hbehind : AllBlank behind) (c : Char) (cs : List Char) :
    Steps pos (.opening name) (lead ++ (name ++ (before ++ '=' :: behind))) c cs := by
  cases hblank : isAsciiBlank c with
  | true =>
    refine .further (.opening name) ?_ (by simp [attributesIn, hblank])
    simp only [List.append_assoc, List.cons_append]
    exact .opening lead name before (behind ++ [c]) hbefore (hbehind.concat hblank)
  | false =>
    cases hquote : isQuote c with
    | true =>
      have hopened : lead ++ (name ++ (before ++ '=' :: behind)) ++ [c] =
          lead ++ openedBy name before behind c ++ [].reverse := by
        simp [openedBy]
      refine .further (.value name c (pos + byteLength (lead ++ openedBy name before behind c)) []) ?_ ?_
      · rw [hopened]
        exact .value lead name before behind c [] hbefore hbehind hquote
      · simp [openedBy, attributesIn, hblank, hquote, byteLength, Nat.add_assoc]
    | false => exact .ended (by simp [attributesIn, hblank, hquote])

theorem steps_value (pos : Nat) (lead name : List Char) {before behind : List Char} {quote : Char}
    (seen : List Char) (hbefore : AllBlank before) (hbehind : AllBlank behind) (hquote : isQuote quote = true)
    (c : Char) (cs : List Char) :
    Steps pos (.value name quote (pos + byteLength (lead ++ openedBy name before behind quote)) seen)
      (lead ++ openedBy name before behind quote ++ seen.reverse) c cs := by
  cases hclosed : c == quote with
  | false =>
    refine .further _ ?_ (by rw [attributesIn, hclosed]; rfl)
    rw [List.append_assoc, ← List.reverse_cons]
    exact .value lead name before behind quote (c :: seen) hbefore hbehind hquote
  | true =>
    obtain rfl := beq_iff_eq.1 hclosed
    by_cases hname : name = []
    · exact .further .gap (.gap _) (by simp [attributesIn, hname])
    · exact .closed _ (.intro lead name before behind seen.reverse c hbefore hbehind hquote)
        (by simp [attributesIn, hname])

theorem HasRead.steps {pos : Nat} {mode : AttributeMode} {read : List Char} (h : HasRead pos mode read)
    (c : Char) (cs : List Char) : Steps pos mode read c cs := by
  cases h with
  | gap => exact steps_gap pos read c cs
  | name lead seen => exact steps_name pos lead seen c cs
  | sign lead name before hbefore => exact steps_sign pos lead name hbefore c cs
  | opening lead name before behind hbefore hbehind => exact steps_opening pos lead name hbefore hbehind c cs
  | value lead name before behind quote seen hbefore hbehind hquote =>
    exact steps_value pos lead name seen hbefore hbehind hquote c cs

theorem Closes.spelledIn {key : List Char} {pos : Nat} {read cs : List Char} {found : Attribute}
    {attributes : List Attribute} (h : Closes pos read found) (hquoted : WellQuoted key [found])
    (hrest : SpelledIn key (pos + byteLength read) cs attributes) :
    SpelledIn key pos (read ++ cs) (named key [found] ++ attributes) := by
  cases h with
  | intro lead name before behind value quote hbefore hbehind hquote =>
    by_cases hname : name = key
    · subst hname
      have hnamed : ∀ span, named name [⟨String.ofList name, String.ofList value, span⟩] =
          [⟨String.ofList name, String.ofList value, span⟩] := by simp [named]
      obtain ⟨hne, hvalue⟩ := hquoted _ (by rw [hnamed]; exact List.mem_cons_self)
      let a : Assignment := {
        before := before
        behind := behind
        quote := quote
        value := value
        closer := quote
        isBlank_before := fun c hc => isBlank_of_isAsciiBlank (hbefore c hc)
        isBlank_behind := fun c hc => isBlank_of_isAsciiBlank (hbehind c hc)
        isQuote_quote := hquote
        value_ne_nil := by simpa using hne
        isQuote_value := by simpa using hvalue
        isQuote_closer := hquote }
      have hchars : lead ++ openedBy name before behind quote ++ value ++ [quote] = lead ++ a.chars name := by
        simp [Assignment.chars, Assignment.opening, a]
      rw [hchars] at hrest ⊢
      rw [hnamed, List.append_assoc]
      simpa [Assignment.placed, Assignment.opening, a, Nat.add_assoc] using SpelledIn.cons pos lead a hrest
    · have hother : String.ofList name ≠ String.ofList key := fun h => hname (String.ofList_injective h)
      have hnamed : ∀ span, named key [⟨String.ofList name, String.ofList value, span⟩] = [] := by
        simp [named, hother]
      rw [hnamed]
      exact hrest.behind

theorem spelledIn_attributesIn (key : List Char) {mode : AttributeMode} {pos : Nat} {read cs : List Char}
    (hread : HasRead pos mode read)
    (hquoted : WellQuoted key (attributesIn mode (pos + byteLength read) cs)) :
    SpelledIn key pos (read ++ cs) (named key (attributesIn mode (pos + byteLength read) cs)) := by
  induction cs generalizing mode pos read with
  | nil =>
    rw [attributesIn]
    exact .nil _ _
  | cons c cs ih =>
    have hpos : pos + byteLength read + c.utf8Size = pos + byteLength (read ++ [c]) := by
      simp [byteLength, Nat.add_assoc]
    rw [List.append_cons]
    cases hread.steps c cs with
    | further next hnext hstep =>
      rw [hstep, hpos] at hquoted ⊢
      exact ih hnext hquoted
    | ended hstep =>
      rw [hstep]
      exact .nil _ _
    | closed found hfound hstep =>
      rw [hstep, hpos] at hquoted ⊢
      rw [WellQuoted, named_append, List.forall_mem_append] at hquoted
      rw [named_append]
      exact hfound.spelledIn hquoted.1 (ih (.gap []) hquoted.2)

theorem attributes_ofInner? (begin : Nat) (inner : List Char) :
    (Tag.ofInner? begin inner).toList.flatMap Tag.attributes = [] ∨
      ∃ name behind tail, inner = name ++ behind ++ tail ∧
        (Tag.ofInner? begin inner).toList.flatMap Tag.attributes =
          attributesIn .gap (begin + 1 + byteLength name) behind := by
  unfold Tag.ofInner?
  cases hclosing : inner.head? == some '/' with
  | true =>
    left
    simp only [if_true]
    split <;> rfl
  | false =>
    obtain ⟨body, tail, hbody, hinner⟩ : ∃ body tail,
        (if (!false && inner.getLast? == some '/') = true then inner.dropLast else inner) = body ∧
          inner = body ++ tail := by
      split
      next hslash =>
        have hlast : inner.getLast? = some '/' := by simpa using hslash
        obtain ⟨body, rfl⟩ := List.getLast?_eq_some_iff.1 hlast
        exact ⟨_, ['/'], rfl, by rw [List.dropLast_concat]⟩
      next => exact ⟨inner, [], rfl, (List.append_nil inner).symm⟩
    simp only [Bool.false_eq_true, if_false, hbody]
    split
    · exact .inl rfl
    · refine .inr ⟨body.takeWhile fun c => !(isBlank c || c == '/'),
        body.dropWhile fun c => !(isBlank c || c == '/'), tail, ?_, List.flatMap_singleton ..⟩
      rw [List.takeWhile_append_dropWhile, hinner]

theorem spelledIn_ofInner? (key : List Char) {begin : Nat} {inner : List Char}
    (hquoted : WellQuoted key ((Tag.ofInner? begin inner).toList.flatMap Tag.attributes)) :
    SpelledIn key (begin + 1) inner (named key ((Tag.ofInner? begin inner).toList.flatMap Tag.attributes)) := by
  rcases attributes_ofInner? begin inner with hnone | ⟨name, behind, tail, hinner, hread⟩
  · rw [hnone]
    exact .nil _ _
  · rw [hread] at hquoted ⊢
    rw [hinner, ← List.append_nil (named key _)]
    exact (spelledIn_attributesIn key (.gap name) hquoted).append (.nil _ _)

theorem spelledIn_tagsIn (key : List Char) {pos : Nat} {cs : List Char}
    (hquoted : WellQuoted key ((tagsIn .text pos cs).flatMap Tag.attributes)) :
    SpelledIn key pos cs (named key ((tagsIn .text pos cs).flatMap Tag.attributes)) := by
  induction cs using tagwise_induction generalizing pos with
  | silent cs hsilent =>
    rw [hsilent pos]
    exact .nil _ _
  | tag lead inner rest hinner hread ih =>
    rw [hread pos inner rest hinner, List.flatMap_append] at hquoted ⊢
    rw [WellQuoted, named_append, List.forall_mem_append] at hquoted
    rw [named_append, List.append_cons]
    have htag := spelledIn_ofInner? key hquoted.1
    have hrest := ih hquoted.2
    have hopen : pos + byteLength lead + 1 = pos + byteLength (lead ++ ['<']) := by
      rw [byteLength_append]
      rfl
    have hsize : byteLength ['>'] = 1 := rfl
    have hclosed : pos + byteLength lead + byteLength inner + 2 =
        pos + byteLength (lead ++ ['<']) + byteLength inner + byteLength ['>'] := by omega
    rw [hopen] at htag
    rw [hclosed] at hrest ⊢
    have hbehind := hrest.behind
    exact (htag.append hbehind).behind

/-- What the search finds in a text, each with the place of its value. -/
def assignments (key content : String) : List Attribute := assignmentsIn key.toList 0 0 content.toList

def attributesNamed (key content : String) : List Attribute :=
  ((tags content).flatMap Tag.attributes).filter fun a => a.name == key

theorem named_tags (key content : String) :
    named key.toList ((tags content).flatMap Tag.attributes) = attributesNamed key content := by
  rw [named, String.ofList_toList]
  rfl

theorem assigned_eq (key content : String) :
    assigned key content = (assignments key content).map fun a => trim a.value := by
  rw [assigned, ← map_value_assignmentsIn key.toList 0 0, List.map_map]
  rfl

/-- The search finds the attributes of a name if it finds nothing else. -/
theorem assignments_eq_iff {key : String} (hkey : IsKey key.toList) {content : String}
    (hquoted : ∀ a ∈ attributesNamed key content,
      a.value ≠ "" ∧ ∀ c ∈ a.value.toList, isQuote c = false) :
    assignments key content = attributesNamed key content ↔
      assignments key content ⊆ attributesNamed key content := by
  refine ⟨fun h => h ▸ List.Subset.refl _, fun honly => ?_⟩
  rw [← named_tags] at hquoted honly ⊢
  exact assignmentsIn_eq hkey (spelledIn_tagsIn key.toList hquoted) honly

theorem findSome?_attribute? (key content : String) :
    (tags content).findSome? (fun t => t.attribute? key) =
      ((attributesNamed key content).map Attribute.value).head? := by
  rw [attributesNamed, List.head?_map, List.head?_filter, List.find?_flatMap, List.map_findSome?]
  rfl

theorem foldl_contains (names : List String) :
    names.foldl (fun names name => if names.contains name then names else names ++ [name]) [] =
      names.eraseDups := by
  have hloop : ∀ found : List String,
      names.foldl (fun names name => if names.contains name then names else names ++ [name]) found.reverse =
        List.eraseDupsBy.loop (· == ·) names found := by
    induction names with
    | nil => exact fun found => rfl
    | cons name names ih =>
      intro found
      have hknown : found.reverse.contains name = found.any fun a => name == a := by
        rw [List.contains_reverse, List.contains_eq_any_beq]
      rw [List.foldl_cons, hknown, List.eraseDupsBy.loop]
      cases found.any fun a => name == a with
      | true => exact ih found
      | false => simpa using ih (name :: found)
  exact hloop []

/-- A document whose text assigns a name in its tags only names what the tags name: the fragments, each
where it appears first, and the controller of a view. -/
theorem names_agree_with_tags (path : FilePath) (kind : DocumentKind) (content : String)
    (hquoted : ∀ key ∈ ["controllerName", "fragmentName"], ∀ a ∈ attributesNamed key content,
      a.value ≠ "" ∧ ∀ c ∈ a.value.toList, isQuote c = false) :
    (assignments "fragmentName" content ⊆ attributesNamed "fragmentName" content →
      (Document.new path kind content).fragments =
        ((attributesNamed "fragmentName" content).map fun a => trim a.value).eraseDups) ∧
    (assignments "controllerName" content ⊆ attributesNamed "controllerName" content →
      (Document.new path .view content).controller? =
        ((tags content).findSome? fun t => t.attribute? "controllerName").map trim) := by
  have hagree : ∀ key ∈ ["controllerName", "fragmentName"], IsKey key.toList →
      assignments key content ⊆ attributesNamed key content →
      assigned key content = (attributesNamed key content).map fun a => trim a.value :=
    fun key hmem hkey honly =>
      (assigned_eq key content).trans (congrArg _ ((assignments_eq_iff hkey (hquoted key hmem)).2 honly))
  constructor
  · intro honly
    have hnames := hagree "fragmentName" (by simp) ⟨'e', by decide, by decide⟩ honly
    exact (foldl_contains _).trans (congrArg List.eraseDups hnames)
  · intro honly
    have hnames := hagree "controllerName" (by simp) ⟨'e', by decide, by decide⟩ honly
    refine (congrArg List.head? hnames).trans ?_
    rw [findSome?_attribute?, List.head?_map, List.head?_map, Option.map_map]
    rfl

/-- A view that includes one fragment twice, with a comment and text between its tags. -/
def namingView : String :=
  "<!-- v --><View controllerName = \"C \"><Fragment fragmentName='F'/>f<Fragment fragmentName=\" F\"/></View>"

theorem names_agree_with_tags_sample :
    (Document.new ⟨"/p/C.view.xml"⟩ .view namingView).fragments = ["F"] ∧
      (Document.new ⟨"/p/C.view.xml"⟩ .view namingView).controller? = some "C" := by
  have hcontroller : attributesNamed "controllerName" namingView = [⟨"controllerName", "C ", ⟨34, 36⟩⟩] := by
    decide +kernel
  have hfragment : attributesNamed "fragmentName" namingView =
      [⟨"fragmentName", "F", ⟨62, 63⟩⟩, ⟨"fragmentName", " F", ⟨91, 93⟩⟩] := by
    decide +kernel
  have hquoted : ∀ key ∈ ["controllerName", "fragmentName"], ∀ a ∈ attributesNamed key namingView,
      a.value ≠ "" ∧ ∀ c ∈ a.value.toList, isQuote c = false := by
    simp [hcontroller, hfragment, isQuote]
  obtain ⟨hfragments, hview⟩ := names_agree_with_tags ⟨"/p/C.view.xml"⟩ .view namingView hquoted
  rw [hfragment] at hfragments
  rw [hfragments (by decide +kernel), hview (by decide +kernel)]
  decide +kernel

end UiWorkspace.Markup
