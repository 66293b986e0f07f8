import Mathlib.Data.List.Nodup
import UiWorkspace.Proofs.Script.CommentedClass
import UiWorkspace.Proofs.Script.TreeLayout

/-! The table of the members of a class. Entries of its object and assignments to properties of `this` make
one table, in which a name stands once: an entry comes in by its first key of the name, an assignment goes
to the member that has the name of the property, which becomes a field if no entry has declared it. -/
namespace UiWorkspace.Script

open UiWorkspace.Text

section Entries

variable {code : String} {aliases : List (String × String)}

def ComesFrom (code : String) (entries : List Node) (m : Member) : Prop :=
  ∃ entry ∈ entries, ∃ r, entryName? code entry = some (m.name, r) ∧ m.declaration? = some r ∧
    m.assignments = []

theorem ComesFrom.cons {entry : Node} {entries : List Node} {m : Member} (h : ComesFrom code entries m) :
    ComesFrom code (entry :: entries) m := by
  obtain ⟨e, he, hname⟩ := h
  exact ⟨e, List.mem_cons_of_mem entry he, hname⟩

def addDeclared (found : List Member) : Option Member → List Member
  | some m => if found.any fun f => f.name == m.name then found else found ++ [m]
  | none => found

theorem declaredMembers_cons (previous? : Option Node) (found : List Member) (entry : Node)
    (entries : List Node) : declaredMembers code aliases previous? found (entry :: entries) =
      declaredMembers code aliases (some entry) (addDeclared found
        (declaredMember? entry (previous?.bind fun p => docText? p code) code aliases)) entries := rfl

theorem mem_addDeclared {found : List Member} {m? : Option Member} {m : Member}
    (h : m ∈ addDeclared found m?) : m ∈ found ∨ m? = some m := by
  unfold addDeclared at h
  split at h
  · split at h
    · exact .inl h
    · exact (List.mem_append.1 h).imp_right fun h => by rw [List.mem_singleton.1 h]
  · exact .inl h

theorem nodup_addDeclared {found : List Member} (h : (found.map Member.name).Nodup) (m? : Option Member) :
    ((addDeclared found m?).map Member.name).Nodup := by
  unfold addDeclared
  split
  next m =>
    split
    · exact h
    next hnew =>
      rw [List.map_append, List.map_singleton, ← List.concat_eq_append]
      refine h.concat fun hmem => hnew ?_
      obtain ⟨f, hf, hname⟩ := List.mem_map.1 hmem
      exact List.any_eq_true.2 ⟨f, hf, beq_iff_eq.2 hname⟩
  next => exact h

theorem declaredMembers_spec {entries : List Node} {previous? : Option Node} {found : List Member}
    (hfound : (found.map Member.name).Nodup) :
    ((declaredMembers code aliases previous? found entries).map Member.name).Nodup ∧
      ∀ m ∈ declaredMembers code aliases previous? found entries, m ∈ found ∨ ComesFrom code entries m := by
  induction entries generalizing previous? found with
  | nil => exact ⟨hfound, fun m hm => .inl hm⟩
  | cons entry entries ih =>
    rw [declaredMembers_cons]
    obtain ⟨hnodup, hmem⟩ := ih (nodup_addDeclared hfound _)
    refine ⟨hnodup, fun m hm => ?_⟩
    rcases hmem m hm with hadded | hrest
    · refine (mem_addDeclared hadded).imp_right fun hdeclared => ?_
      exact ⟨entry, List.mem_cons_self, entryName?_of_declaredMember hdeclared⟩
    · exact .inr hrest.cons

end Entries

def thisAssignments (n : Node) : List (Node × Node) := n.preorder.filterMap thisAssignment?

def assignedTo (code name : String) (assigned : List (Node × Node)) : List (Node × Node) :=
  assigned.filter fun a => a.1.text code == name

section Note

variable {name : String} {property right : Span} {members : List Member}

theorem map_name_noteAssignment (name : String) (property right : Span) (members : List Member) :
    (noteAssignment name property right members).map Member.name =
      if name ∈ members.map Member.name then members.map Member.name
      else members.map Member.name ++ [name] := by
  induction members with
  | nil => rfl
  | cons m members ih =>
    rw [noteAssignment]
    by_cases hname : m.name = name
    · simp [hname]
    · rw [if_neg (by simpa using hname), List.map_cons, ih]
      simp only [List.map_cons, List.mem_cons, Ne.symm hname, false_or]
      split <;> rfl

theorem subset_noteAssignment :
    members.map Member.name ⊆ (noteAssignment name property right members).map Member.name := by
  rw [map_name_noteAssignment]
  split
  · exact List.Subset.refl _
  · exact List.subset_append_left _ _

theorem mem_name_noteAssignment :
    name ∈ (noteAssignment name property right members).map Member.name := by
  rw [map_name_noteAssignment]
  split
  next hold => exact hold
  next => exact List.mem_append_right _ List.mem_cons_self

theorem mem_noteAssignment (hnodup : (members.map Member.name).Nodup) {m : Member}
    (hm : m ∈ noteAssignment name property right members) :
    (∃ m₀ ∈ members, m₀.name = name ∧ m = { m₀ with assignments := m₀.assignments ++ [right] }) ∨
      (m ∈ members ∧ m.name ≠ name) ∨
      (name ∉ members.map Member.name ∧ m = ⟨name, .field, some property, none, none, none, [right]⟩) := by
  induction members with
  | nil => exact .inr (.inr ⟨List.not_mem_nil, List.mem_singleton.1 hm⟩)
  | cons first rest ih =>
    rw [List.map_cons, List.nodup_cons] at hnodup
    rw [noteAssignment] at hm
    by_cases hname : first.name = name
    · rw [if_pos (by simpa using hname)] at hm
      rcases List.mem_cons.1 hm with rfl | hm
      · exact .inl ⟨first, List.mem_cons_self, hname, rfl⟩
      · refine .inr (.inl ⟨List.mem_cons_of_mem first hm, fun hm' => hnodup.1 ?_⟩)
        exact List.mem_map.2 ⟨m, hm, hm'.trans hname.symm⟩
    · rw [if_neg (by simpa using hname)] at hm
      rcases List.mem_cons.1 hm with rfl | hm
      · exact .inr (.inl ⟨List.mem_cons_self, hname⟩)
      · rcases ih hnodup.2 hm with ⟨m₀, hm₀, h⟩ | ⟨hm, hother⟩ | ⟨hnew, h⟩
        · exact .inl ⟨m₀, List.mem_cons_of_mem first hm₀, h⟩
        · exact .inr (.inl ⟨List.mem_cons_of_mem first hm, hother⟩)
        · refine .inr (.inr ⟨?_, h⟩)
          rw [List.map_cons, List.mem_cons, not_or]
          exact ⟨Ne.symm hname, hnew⟩

end Note

/-- The members that come of declared ones and of assignments: each name once, each assignment with the
member of its name, and a member that is not declared is a field, declared where it is assigned first. -/
structure IsTable (code : String) (declared : List Member) (assigned : List (Node × Node))
    (members : List Member) : Prop where
  nodup : (members.map Member.name).Nodup
  kept : ∀ d ∈ declared, d.name ∈ members.map Member.name
  listed : ∀ a ∈ assigned, a.1.text code ∈ members.map Member.name
  assignments : ∀ m ∈ members, m.assignments = (assignedTo code m.name assigned).map fun a => a.2.span
  origin : ∀ m ∈ members, (∃ d ∈ declared, d.name = m.name ∧ d.declaration? = m.declaration?) ∨
    m.name ∉ declared.map Member.name ∧ m.kind = .field ∧
      ∃ first, (assignedTo code m.name assigned).head? = some first ∧
        m.declaration? = some first.1.span

namespace IsTable

variable {code : String} {declared members : List Member} {assigned : List (Node × Node)}

theorem ofDeclared (hnodup : (declared.map Member.name).Nodup) (h : ∀ d ∈ declared, d.assignments = []) :
    IsTable code declared [] declared where
  nodup := hnodup
  kept _ hd := List.mem_map_of_mem hd
  listed _ ha := absurd ha List.not_mem_nil
  assignments := h
  origin m hm := .inl ⟨m, hm, rfl, rfl⟩

theorem assignedTo_concat_self {a : Node × Node} {name : String} (h : a.1.text code = name) :
    assignedTo code name (assigned ++ [a]) = assignedTo code name assigned ++ [a] := by
  simp [assignedTo, List.filter_append, h]

theorem assignedTo_concat_of_ne {a : Node × Node} {name : String} (h : name ≠ a.1.text code) :
    assignedTo code name (assigned ++ [a]) = assignedTo code name assigned := by
  simp [assignedTo, List.filter_append, Ne.symm h]

theorem assignedTo_eq_nil (h : IsTable code declared assigned members) {name : String}
    (hnew : name ∉ members.map Member.name) : assignedTo code name assigned = [] := by
  refine List.filter_eq_nil_iff.2 fun a ha hname => hnew ?_
  rw [← beq_iff_eq.1 hname]
  exact h.listed a ha

theorem note (h : IsTable code declared assigned members) (a : Node × Node) :
    IsTable code declared (assigned ++ [a])
      (noteAssignment (a.1.text code) a.1.span a.2.span members) where
  nodup := by
    rw [map_name_noteAssignment]
    split
    · exact h.nodup
    next hnew =>
      rw [← List.concat_eq_append]
      exact h.nodup.concat hnew
  kept d hd := subset_noteAssignment (h.kept d hd)
  listed b hb := by
    rcases List.mem_append.1 hb with hb | hb
    · exact subset_noteAssignment (h.listed b hb)
    · rw [List.mem_singleton.1 hb]
      exact mem_name_noteAssignment
  assignments m hm := by
    rcases mem_noteAssignment h.nodup hm with ⟨m₀, hm₀, hname, rfl⟩ | ⟨hm, hother⟩ | ⟨hnew, rfl⟩
    · rw [assignedTo_concat_self hname.symm, List.map_append, ← h.assignments m₀ hm₀]
      rfl
    · rw [assignedTo_concat_of_ne hother, h.assignments m hm]
    · rw [assignedTo_concat_self rfl, h.assignedTo_eq_nil hnew]
      rfl
  origin m hm := by
    rcases mem_noteAssignment h.nodup hm with ⟨m₀, hm₀, hname, rfl⟩ | ⟨hm, hother⟩ | ⟨hnew, rfl⟩
    · refine (h.origin m₀ hm₀).imp id fun ⟨hnot, hkind, first, hfirst, hplace⟩ => ?_
      refine ⟨hnot, hkind, first, ?_, hplace⟩
      rw [assignedTo_concat_self hname.symm, List.head?_append, hfirst]
      rfl
    · rw [assignedTo_concat_of_ne hother]
      exact h.origin m hm
    · refine .inr ⟨fun hdeclared => hnew ?_, rfl, a, ?_, rfl⟩
      · obtain ⟨d, hd, hname⟩ := List.mem_map.1 hdeclared
        have hkept := h.kept d hd
        rwa [hname] at hkept
      · rw [assignedTo_concat_self rfl, h.assignedTo_eq_nil hnew]
        rfl

theorem noteAll (h : IsTable code declared assigned members) (later : List (Node × Node)) :
    IsTable code declared (assigned ++ later)
      (later.foldl (fun members a => noteAssignment (a.1.text code) a.1.span a.2.span members) members) := by
  induction later generalizing assigned members with
  | nil => rwa [List.append_nil]
  | cons a later ih =>
    have hrest := ih (h.note a)
    rwa [List.append_assoc] at hrest

theorem exists_noted (h : IsTable code declared assigned members)
    (hapart : assigned.Pairwise fun a b => a.2.span ≠ b.2.span) {a : Node × Node} (ha : a ∈ assigned) :
    ∃ m ∈ members, m.name = a.1.text code ∧ m.assignments.count a.2.span = 1 ∧
      ∀ other ∈ members, a.2.span ∈ other.assignments → other = m := by
  have hspans : (assigned.map fun a => a.2.span).Nodup := List.pairwise_map.2 hapart
  obtain ⟨m, hm, hname⟩ := List.mem_map.1 (h.listed a ha)
  refine ⟨m, hm, hname, ?_, fun other hother hnoted => ?_⟩
  · rw [h.assignments m hm]
    have hmem : a ∈ assignedTo code m.name assigned :=
      List.mem_filter.2 ⟨ha, beq_iff_eq.2 hname.symm⟩
    exact List.count_eq_one_of_mem (hspans.sublist (List.filter_sublist.map _))
      (List.mem_map.2 ⟨a, hmem, rfl⟩)
  · rw [h.assignments other hother] at hnoted
    obtain ⟨b, hb, hspan⟩ := List.mem_map.1 hnoted
    obtain ⟨hb, hother'⟩ := List.mem_filter.1 hb
    obtain rfl : b = a := List.inj_on_of_nodup_map hspans hb ha hspan
    exact List.inj_on_of_nodup_map h.nodup hother hm ((beq_iff_eq.1 hother').symm.trans hname.symm)

end IsTable

/-- A syntax tree over a text: its nodes have ranges of the text and are laid out in it, and the two sides
of an assignment stand around its equals sign. -/
structure IsScriptTree (code : String) (root : Node) : Prop where
  slice {n : Node} : n.IsIn root → (n.span.slice code).isSome
  laidOut : root.IsLaidOut
  sides {n left right : Node} : n.IsIn root → n.is .assignment = true → n.part? .left = some left →
    n.part? .right = some right → left.span.stop < right.span.start ∧ right.span.start < right.span.stop

instance (code : String) (root : Node) : Decidable (IsScriptTree code root) :=
  decidable_of_iff ((∀ n ∈ root.preorder, (n.span.slice code).isSome = true) ∧ root.IsLaidOut ∧
      ∀ n ∈ root.preorder, n.is .assignment = true → ∀ left ∈ n.part? .left, ∀ right ∈ n.part? .right,
        left.span.stop < right.span.start ∧ right.span.start < right.span.stop)
    ⟨fun h => ⟨h.1 _, h.2.1, fun hn hassigns hleft hright => h.2.2 _ hn hassigns _ hleft _ hright⟩,
      fun h => ⟨fun _ => h.slice, h.laidOut, fun _ hn hassigns _ hleft _ => h.sides hn hassigns hleft⟩⟩

namespace IsScriptTree

variable {code : String} {root : Node}

theorem below (h : IsScriptTree code root) {n : Node} (hn : n.IsIn root) : IsScriptTree code n where
  slice hm := h.slice (hm.trans_node hn)
  laidOut := h.laidOut.of_isIn hn
  sides hm := h.sides (hm.trans_node hn)

theorem slice_text (h : IsScriptTree code root) {n : Node} (hn : n.IsIn root) :
    n.span.slice code = some (n.text code) := by
  obtain ⟨text, htext⟩ := Option.isSome_iff_exists.1 (h.slice hn)
  rw [Node.text, Span.sliceD, htext, Option.getD_some]

theorem slice_keyName (h : IsScriptTree code root) {key : Node} (hkey : key.IsIn root) {name : String}
    {r : Span} (hname : keyName? key code = some (name, r)) : r.slice code = some name := by
  unfold keyName? at hname
  split at hname
  · cases hname
    exact h.slice_text hkey
  · unfold Node.stringContents? at hname
    split at hname
    · obtain ⟨text, htext, ⟨⟩⟩ := Option.map_eq_some_iff.1 hname
      exact htext
    · cases hname

theorem slice_entryName (h : IsScriptTree code root) {entry : Node} (hentry : entry.IsIn root)
    {name : String} {r : Span} (hname : entryName? code entry = some (name, r)) :
    r.slice code = some name := by
  obtain ⟨key, hkey, hname⟩ := exists_key_of_entryName? hentry hname
  exact h.slice_keyName hkey hname

theorem slice_property (h : IsScriptTree code root) {a : Node × Node} (ha : a ∈ thisAssignments root) :
    a.1.span.slice code = some (a.1.text code) := by
  obtain ⟨n, hn, hassigns⟩ := List.mem_filterMap.1 ha
  obtain ⟨-, -, left, object, hleft, -, -, -, hproperty⟩ := thisAssignment?_eq_some_iff.1 hassigns
  exact h.slice_text ((Node.IsIn.part? hn hleft).part? hproperty)

theorem pairwise_right (h : IsScriptTree code root) :
    (thisAssignments root).Pairwise fun a b => a.2.span ≠ b.2.span := by
  refine List.pairwise_filterMap.2 ((Node.pairwise_preorder h.laidOut).imp_of_mem ?_)
  intro m d hm hd hmd a ha b hb hspan
  obtain ⟨-, hright, -⟩ := thisAssignment?_eq_some_iff.1 ha
  obtain ⟨hassigns, hright', left, -, hleft, -⟩ := thisAssignment?_eq_some_iff.1 hb
  have hsides := h.sides hd hassigns hleft hright'
  have hlaid := h.laidOut.of_isIn hm
  -- The later assignment begins before its right side does, which takes some room.
  have hbegin := ((h.laidOut.of_isIn hd).within ((Node.IsIn.refl d).part? hleft)).1
  have hwidth := (h.laidOut.of_isIn (Node.IsIn.part? hd hleft)).start_le_stop
  have hend := ((h.laidOut.of_isIn hd).within ((Node.IsIn.refl d).part? hright')).2
  rw [← hspan] at hsides hend
  rcases hmd with ⟨c, hc, hdc⟩ | hbehind
  · have hwithin := (h.laidOut.of_isIn (Node.IsIn.child hm hc)).within hdc
    by_cases hsame : c = a.2
    · rw [hsame] at hwithin
      omega
    · have hapart := hlaid.apart_children hc (List.mem_of_find?_eq_some hright) hsame
      unfold Span.Apart at hapart
      omega
  · have hstop := (hlaid.within ((Node.IsIn.refl m).part? hright)).2
    omega

end IsScriptTree

section Class

variable {code : String} {root : Node}

theorem declared_of_entries (code : String) (aliases : List (String × String)) (entries : List Node) :
    ((declaredMembers code aliases none [] entries).map Member.name).Nodup ∧
      ∀ m ∈ declaredMembers code aliases none [] entries, ComesFrom code entries m := by
  obtain ⟨hnodup, hmem⟩ : _ ∧ ∀ m ∈ declaredMembers code aliases none [] entries, _ :=
    declaredMembers_spec List.nodup_nil
  exact ⟨hnodup, fun m hm => (hmem m hm).resolve_left List.not_mem_nil⟩

theorem isTable_membersOf (code : String) (aliases : List (String × String)) (body : Node) :
    IsTable code (declaredMembers code aliases none [] body.namedChildren) (thisAssignments body)
      (membersOf body code aliases) := by
  obtain ⟨hnodup, hentries⟩ := declared_of_entries code aliases body.namedChildren
  refine (IsTable.ofDeclared hnodup fun d hd => ?_).noteAll (thisAssignments body)
  obtain ⟨_, _, _, _, _, hassignments⟩ := hentries d hd
  exact hassignments

/-- A member is declared by an entry of its name, or else where it is assigned first. -/
theorem origin_of_mem_membersOf {aliases : List (String × String)} {body : Node} {m : Member}
    (h : m ∈ membersOf body code aliases) :
    (∃ entry ∈ body.namedChildren, ∃ r, entryName? code entry = some (m.name, r) ∧
        m.declaration? = some r) ∨
      m.kind = .field ∧ ∃ first, (assignedTo code m.name (thisAssignments body)).head? = some first ∧
        m.declaration? = some first.1.span := by
  refine ((isTable_membersOf code aliases body).origin m h).imp ?_ fun h => h.2
  rintro ⟨d, hd, hname, hplace⟩
  obtain ⟨entry, hentry, r, hentryName, hdeclaration, -⟩ :=
    (declared_of_entries code aliases body.namedChildren).2 d hd
  exact ⟨entry, hentry, r, hname ▸ hentryName, hplace ▸ hdeclaration⟩

theorem slice_declaration {aliases : List (String × String)} {body : Node} (h : IsScriptTree code body)
    {m : Member} (hm : m ∈ membersOf body code aliases) :
    ∃ r, m.declaration? = some r ∧ r.slice code = some m.name := by
  rcases origin_of_mem_membersOf hm with
    ⟨entry, hentry, r, hname, hdeclaration⟩ | ⟨-, first, hfirst, hdeclaration⟩
  · exact ⟨r, hdeclaration, h.slice_entryName ((Node.IsIn.refl body).named hentry) hname⟩
  · obtain ⟨hassigned, hname⟩ := List.mem_filter.1 (List.mem_of_head? hfirst)
    refine ⟨first.1.span, hdeclaration, ?_⟩
    rw [h.slice_property hassigned, beq_iff_eq.1 hname]

/-- The members of a class have different names, and each is declared where the script has its name. What
the body assigns to a property of `this` is noted once, in source order, with the member of that name and
no other; a member without an entry of its own is a field, declared at the first such property. -/
theorem members_of_classOfTree (h : IsScriptTree code root) (module : String) :
    let members := (classOfTree module code root).members
    (members.map Member.name).Nodup ∧
      (∀ m ∈ members, ∃ r, m.declaration? = some r ∧ r.slice code = some m.name) ∧
      ∀ body ∈ classBody? root code,
        (∀ n property right, n.IsIn body → AssignsThis n property right →
          ∃ m ∈ members, m.name = property.text code ∧ m.assignments.count right.span = 1 ∧
            ∀ other ∈ members, right.span ∈ other.assignments → other = m) ∧
        (∀ m ∈ members,
          m.assignments = (assignedTo code m.name (thisAssignments body)).map fun a => a.2.span) ∧
        ∀ m ∈ members, (∀ entry ∈ body.namedChildren, ∀ r, entryName? code entry ≠ some (m.name, r)) →
          m.kind = .field ∧ ∃ first,
            (assignedTo code m.name (thisAssignments body)).head? = some first ∧
              m.declaration? = some first.1.span := by
  rw [classOfTree_eq]
  dsimp only
  generalize aliasTable (moduleImports root code module) = aliases
  cases hbody : classBody? root code with
  | none => exact ⟨List.nodup_nil, fun m hm => absurd hm List.not_mem_nil, nofun⟩
  | some body =>
    have htree := h.below (isIn_of_classBody hbody)
    have htable := isTable_membersOf code aliases body
    refine ⟨htable.nodup, fun m hm => slice_declaration htree hm, ?_⟩
    rintro _ ⟨⟩
    refine ⟨fun n property right hn hassigns => ?_, htable.assignments, fun m hm hown => ?_⟩
    · exact htable.exists_noted htree.pairwise_right
        (List.mem_filterMap.2 ⟨n, hn, thisAssignment?_eq_some_iff.2 hassigns⟩)
    · refine (origin_of_mem_membersOf hm).resolve_left ?_
      rintro ⟨entry, hentry, r, hname, -⟩
      exact hown entry hentry r hname

/-- Two entries of one name, one with quotes, and assignments in each other and in functions. -/
def tableScript : String :=
  "sap.ui.define([],function(A)\x7breturn A.extend(\"C\",\x7b\"a\":0,a:1,f()\x7bthis.x=this.a=2;(()=>this.x=3)();\x7d\x7d)\x7d)"

theorem members_of_classOfTree_sample : IsScriptTree tableScript (parse tableScript) ∧
    (classOfTree "C" tableScript (parse tableScript)).members.map Member.name = ["a", "f", "x"] ∧
    ∀ m ∈ (classOfTree "C" tableScript (parse tableScript)).members, m.name = "x" →
      m.kind = .field ∧ m.assignments = [⟨71, 79⟩, ⟨92, 93⟩] := by
  have hrun : IsScriptTree tableScript (parse tableScript) ∧
      (classOfTree "C" tableScript (parse tableScript)).members.map Member.name = ["a", "f", "x"] ∧
      (classBody? (parse tableScript) tableScript).map (fun body =>
        (assignedTo tableScript "x" (thisAssignments body)).map fun a => a.2.span) =
          some [⟨71, 79⟩, ⟨92, 93⟩] ∧
      (classBody? (parse tableScript) tableScript).all (fun body =>
        body.namedChildren.all fun entry => (entryName? tableScript entry).all (·.1 != "x")) = true := by
    decide +kernel
  obtain ⟨htree, hnames, hspans, hentries⟩ := hrun
  refine ⟨htree, hnames, fun m hm hname => ?_⟩
  obtain ⟨body, hbody, hspans⟩ := Option.map_eq_some_iff.1 hspans
  rw [hbody, Option.all_some, List.all_eq_true] at hentries
  obtain ⟨-, -, hclass⟩ := members_of_classOfTree htree "C"
  obtain ⟨-, hassignments, hfields⟩ := hclass body hbody
  refine ⟨(hfields m hm fun entry hentry r hown => ?_).1, ?_⟩
  · have hother := hentries entry hentry
    rw [hown, hname] at hother
    exact absurd hother (by simp)
  · rw [hassignments m hm, hname, hspans]

end Class

end UiWorkspace.Script
