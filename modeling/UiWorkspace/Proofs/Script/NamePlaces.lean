import Mathlib.Data.List.Pairwise
import UiWorkspace.Proofs.Script.Parser.Statement
import UiWorkspace.Class.Definition

/-! Where a script names the members of its class. A member is declared where its name stands as
the key of an entry or behind `this`, and such places, like those of accesses, never overlap. -/
namespace UiWorkspace.Script

open UiWorkspace.Text

namespace Node

variable {root n m : Node}

def IsIn (n root : Node) : Prop := n ∈ root.preorder

theorem IsIn.refl (n : Node) : n.IsIn n := by
  rw [IsIn, preorder_eq]
  exact List.mem_cons_self

theorem isIn_iff : n.IsIn root ↔ n = root ∨ ∃ c ∈ root.children, n.IsIn c := by
  rw [IsIn, preorder_eq, List.mem_cons, List.mem_flatMap]
  rfl

mutual

theorem IsIn.trans_node (hn : n.IsIn m) : ∀ {root : Node}, m.IsIn root → n.IsIn root
  | mk label role span children, h => by
    rcases isIn_iff.1 h with rfl | hchild
    · exact hn
    · exact isIn_iff.2 (.inr (IsIn.trans_children hn hchild))

theorem IsIn.trans_children (hn : n.IsIn m) : ∀ {ns : List Node}, (∃ c ∈ ns, m.IsIn c) → ∃ c ∈ ns, n.IsIn c
  | [], h => by simp at h
  | c :: cs, h => by
    rw [List.exists_mem_cons_iff] at h ⊢
    exact h.imp (IsIn.trans_node hn) (IsIn.trans_children hn)

end

theorem IsIn.child (h : n.IsIn root) {c : Node} (hc : c ∈ n.children) : c.IsIn root :=
  (isIn_iff.2 (.inr ⟨c, hc, IsIn.refl c⟩)).trans_node h

theorem IsIn.part? (h : n.IsIn root) {role : Role} {c : Node} (hc : n.part? role = some c) :
    c.IsIn root :=
  h.child (List.mem_of_find?_eq_some hc)

theorem IsIn.named (h : n.IsIn root) {c : Node} (hc : c ∈ n.namedChildren) : c.IsIn root :=
  h.child (List.mem_filter.1 hc).1

mutual

theorem isIn_of_mem_visits (enter : Node → Bool) : ∀ {root : Node}, n ∈ root.visits enter → n.IsIn root
  | mk label role span children, h => by
    rw [visits_eq, List.mem_cons] at h
    refine isIn_iff.2 (h.imp id fun h => ?_)
    split at h
    · exact isIn_of_mem_visits_children enter (List.mem_flatMap.1 h)
    · cases h

theorem isIn_of_mem_visits_children (enter : Node → Bool) : ∀ {ns : List Node},
    (∃ c ∈ ns, n ∈ c.visits enter) → ∃ c ∈ ns, n.IsIn c
  | [], h => by simp at h
  | c :: cs, h => by
    rw [List.exists_mem_cons_iff] at h ⊢
    exact h.imp (isIn_of_mem_visits enter) (isIn_of_mem_visits_children enter)

end

theorem IsIn.visits (h : n.IsIn root) {enter : Node → Bool} {c : Node} (hc : c ∈ n.visits enter) :
    c.IsIn root :=
  (isIn_of_mem_visits enter hc).trans_node h

theorem IsIn.preorder (h : n.IsIn root) {c : Node} (hc : c ∈ n.preorder) : c.IsIn root := h.visits hc

def spells (n : Node) : Bool :=
  match n.label with
  | .construct kind => kind.spells
  | .token => false

theorem spells_of_is {kind : Kind} (h : n.is kind) (hkind : kind.spells) : n.spells := by
  rw [Node.is, beq_iff_eq] at h
  rw [spells, h]
  exact hkind

theorem IsAccessName.spells (h : n.isAccessName) : n.spells := by
  rcases Bool.or_eq_true_iff.1 h with h | h
  · exact spells_of_is h rfl
  · exact spells_of_is h rfl

theorem is_eq_false {kind other : Kind} (h : n.is kind) (hne : kind ≠ other) : n.is other = false := by
  rw [Node.is, beq_iff_eq] at h
  rw [Node.is, h, beq_eq_false_iff_ne]
  rintro ⟨⟩
  exact hne rfl

theorem ownMarks_of_spells (h : n.spells) : n.ownMarks = [.name n.span] := by
  cases hlabel : n.label with
  | construct kind =>
    rw [spells, hlabel] at h
    rw [ownMarks, hlabel]
    exact if_pos h
  | token =>
    rw [spells, hlabel] at h
    cases h

end Node

/-- The nodes that spell a name select text, none of it twice, accesses end in such a node, and comments
stand by themselves. -/
structure WellPlaced (code : String) (root : Node) : Prop where
  slice {n : Node} : n.IsIn root → n.spells → (n.span.slice code).isSome
  apart {m n : Node} : m.IsIn root → n.IsIn root → m.spells → n.spells → m ≠ n →
    m.span.Apart n.span
  access {n property : Node} : n.IsIn root → n.is .member → n.part? .property = some property →
    property.isAccessName
  bare {n : Node} : n.IsIn root → n.is .comment → n.role = none ∧ n.children = []

theorem InOrder.pairwise {code : String} {lo hi : Nat} {ns : List Node}
    (h : InOrder code lo (ns.flatMap Node.ownMarks) hi) :
    (ns.filter Node.spells).Pairwise fun m n => m.span.stop ≤ n.span.start := by
  induction ns generalizing lo with
  | nil => exact .nil
  | cons n ns ih =>
    rw [List.flatMap_cons] at h
    rw [List.filter_cons]
    split
    next hspells =>
      rw [Node.ownMarks_of_spells hspells] at h
      cases h with
      | cons _ _ hrest =>
        refine List.pairwise_cons.2 ⟨fun m hm => ?_, ih hrest⟩
        obtain ⟨hm, hspells⟩ := List.mem_filter.1 hm
        have hmark : Mark.name m.span ∈ ns.flatMap Node.ownMarks :=
          List.mem_flatMap.2 ⟨m, hm, by simp [Node.ownMarks_of_spells hspells]⟩
        obtain ⟨_, ⟨⟩, -, hle⟩ := hrest.exists_name hmark
        exact hle
    next =>
      obtain ⟨_, -, hrest⟩ := h.split
      exact ih hrest

theorem InOrder.wellPlaced {code : String} {lo hi : Nat} {root : Node}
    (h : InOrder code lo root.marks hi) : WellPlaced code root where
  slice {n} hn hspells := by
    have hmark : Mark.name n.span ∈ root.marks :=
      List.mem_flatMap.2 ⟨n, hn, by simp [Node.ownMarks_of_spells hspells]⟩
    obtain ⟨_, ⟨⟩, hslice, -⟩ := h.exists_name hmark
    exact hslice
  apart {m n} hm hn hmspells hnspells hne := by
    have hboth : (root.preorder.filter Node.spells).Pairwise fun m n => m.span.Apart n.span :=
      (InOrder.pairwise h).imp .inl
    have : Std.Symm fun m n : Node => m.span.Apart n.span := ⟨fun _ _ => Span.Apart.symm⟩
    exact hboth.forall (List.mem_filter.2 ⟨hm, hmspells⟩)
      (List.mem_filter.2 ⟨hn, hnspells⟩) hne
  access {n property} hn hmember hproperty := by
    -- An access to anything else would leave a mark that is no name.
    by_contra hother
    have hmark : Mark.nameless ∈ root.marks := by
      refine List.mem_flatMap.2 ⟨n, hn, ?_⟩
      rw [Node.is, beq_iff_eq] at hmember
      simp [Node.ownMarks, hmember, hproperty, hother]
    obtain ⟨_, ⟨⟩, -⟩ := h.exists_name hmark
  bare {n} hn hcomment := by
    have hbare : n.isBare := by
      by_contra hdressed
      have hmark : Mark.dressed ∈ root.marks := by
        refine List.mem_flatMap.2 ⟨n, hn, ?_⟩
        rw [Node.is, beq_iff_eq] at hcomment
        simp [Node.ownMarks, hcomment, hdressed]
      obtain ⟨_, ⟨⟩, -⟩ := h.exists_name hmark
    rwa [Node.isBare, Bool.and_eq_true, Option.isNone_iff_eq_none, List.isEmpty_iff] at hbare

theorem wellPlaced_parse (code : String) : WellPlaced code (parse code) :=
  let ⟨_, h⟩ := inOrder_parse code
  h.wellPlaced

/-- The range of the name that a node spells: a string spells it between its quotes. -/
def Node.nameSpan (n : Node) : Span :=
  if n.is .string then ⟨n.span.start + 1, n.span.stop - 1⟩ else n.span

theorem Node.nameSpan_within (n : Node) :
    n.span.start ≤ n.nameSpan.start ∧ n.nameSpan.stop ≤ n.span.stop := by
  unfold nameSpan
  split
  · exact ⟨Nat.le_succ _, Nat.sub_le _ _⟩
  · exact ⟨Nat.le_refl _, Nat.le_refl _⟩

def NamedAt (code : String) (root : Node) (name : String) (r : Span) : Prop :=
  ∃ n : Node, n.IsIn root ∧ n.spells ∧ r = n.nameSpan ∧ r.slice code = some name

namespace WellPlaced

variable {code : String} {root : Node}

theorem namedAt_span (W : WellPlaced code root) {n : Node} (hn : n.IsIn root) (hspells : n.spells)
    (hstring : n.is .string = false) : NamedAt code root (n.text code) n.span := by
  refine ⟨n, hn, hspells, by simp [Node.nameSpan, hstring], ?_⟩
  obtain ⟨text, htext⟩ := Option.isSome_iff_exists.1 (W.slice hn hspells)
  rw [Node.text, Span.sliceD, htext, Option.getD_some]

theorem apart_of_namedAt (W : WellPlaced code root) {name other : String} {r q : Span}
    (hr : NamedAt code root name r) (hq : NamedAt code root other q) (hne : r ≠ q) :
    r.Apart q := by
  obtain ⟨m, hm, hmspells, rfl, -⟩ := hr
  obtain ⟨n, hn, hnspells, rfl, -⟩ := hq
  have hspans := W.apart hm hn hmspells hnspells (by rintro rfl; exact hne rfl)
  have hmwithin := m.nameSpan_within
  have hnwithin := n.nameSpan_within
  unfold Span.Apart at *
  omega

theorem namedAt_key (W : WellPlaced code root) {key : Node} (hkey : key.IsIn root) {name : String}
    {r : Span} (h : keyName? key code = some (name, r)) : NamedAt code root name r := by
  unfold keyName? at h
  split at h
  next hname =>
    cases h
    rcases Bool.or_eq_true_iff.1 hname with hname | hname
    · exact W.namedAt_span hkey (Node.spells_of_is hname rfl) (Node.is_eq_false hname (by decide))
    · exact W.namedAt_span hkey (Node.spells_of_is hname rfl) (Node.is_eq_false hname (by decide))
  next =>
    unfold Node.stringContents? at h
    split at h
    next hstring =>
      have hstring := (Bool.and_eq_true_iff.1 hstring).1
      obtain ⟨text, htext, ⟨⟩⟩ := Option.map_eq_some_iff.1 h
      exact ⟨key, hkey, Node.spells_of_is hstring rfl, by rw [Node.nameSpan, if_pos hstring], htext⟩
    next => cases h

theorem namedAt_access (W : WellPlaced code root) {n property : Node} (hn : n.IsIn root)
    (hmember : n.is .member) (hproperty : n.part? .property = some property) :
    NamedAt code root (property.text code) property.span := by
  have hname := W.access hn hmember hproperty
  refine W.namedAt_span (hn.part? hproperty) (Node.IsAccessName.spells hname) ?_
  rcases Bool.or_eq_true_iff.1 hname with hname | hname
  · exact Node.is_eq_false hname (by decide)
  · exact Node.is_eq_false hname (by decide)

end WellPlaced

/-- The key by which an entry of an object declares a member. -/
def memberKey? (entry : Node) : Option Node :=
  if entry.is .pair then if (entry.part? .value).isSome then entry.part? .key else none
  else if entry.is .methodDef then entry.part? .name
  else none

def entryName? (code : String) (entry : Node) : Option (String × Span) :=
  (memberKey? entry).bind fun key => keyName? key code

theorem entryName?_of_declaredMember {code : String} {aliases : List (String × String)} {entry : Node}
    {doc? : Option String} {m : Member} (h : declaredMember? entry doc? code aliases = some m) :
    ∃ r, entryName? code entry = some (m.name, r) ∧ m.declaration? = some r ∧ m.assignments = [] := by
  unfold declaredMember? at h
  dsimp only at h
  split at h
  next hpair =>
    obtain ⟨key, hkey, h⟩ := Option.bind_eq_some_iff.1 h
    obtain ⟨value, hvalue, h⟩ := Option.bind_eq_some_iff.1 h
    obtain ⟨⟨name, r⟩, hname, h⟩ := Option.bind_eq_some_iff.1 h
    have hentry : entryName? code entry = some (name, r) := by
      rw [entryName?, memberKey?, if_pos hpair, hvalue, Option.isSome_some, if_pos rfl, hkey,
        Option.bind_some, hname]
    split at h
    · cases h
      exact ⟨r, hentry, rfl, rfl⟩
    · cases h
      exact ⟨r, hentry, rfl, rfl⟩
  next hpair =>
    split at h
    next hmethod =>
      obtain ⟨key, hkey, h⟩ := Option.bind_eq_some_iff.1 h
      obtain ⟨⟨name, r⟩, hname, ⟨⟩⟩ := Option.bind_eq_some_iff.1 h
      refine ⟨r, ?_, rfl, rfl⟩
      rw [entryName?, memberKey?, if_neg hpair, if_pos hmethod, hkey, Option.bind_some, hname]
    next => cases h

theorem exists_key_of_entryName? {code : String} {entry root : Node} (hentry : entry.IsIn root)
    {name : String} {r : Span} (h : entryName? code entry = some (name, r)) :
    ∃ key, key.IsIn root ∧ keyName? key code = some (name, r) := by
  obtain ⟨key, hkey, hname⟩ := Option.bind_eq_some_iff.1 h
  refine ⟨key, ?_, hname⟩
  unfold memberKey? at hkey
  split at hkey
  · split at hkey
    · exact hentry.part? hkey
    · cases hkey
  · split at hkey
    · exact hentry.part? hkey
    · cases hkey

def AssignsThis (n property right : Node) : Prop :=
  n.is .assignment = true ∧ n.part? .right = some right ∧ ∃ left object, n.part? .left = some left ∧
    left.is .member = true ∧ left.part? .object = some object ∧ object.is .this = true ∧
    left.part? .property = some property

theorem thisAssignment?_eq_some_iff {n property right : Node} :
    thisAssignment? n = some (property, right) ↔ AssignsThis n property right := by
  unfold thisAssignment? AssignsThis
  cases n.is .assignment with
  | false => simp
  | true =>
    simp only [Bool.not_true, Bool.false_eq_true, if_false, true_and, Option.bind_eq_bind,
      Option.bind_eq_some_iff]
    constructor
    · rintro ⟨left, hleft, right, hright, object, hobject, h⟩
      split at h
      next hthis =>
        obtain ⟨property, hproperty, ⟨⟩⟩ := Option.bind_eq_some_iff.1 h
        obtain ⟨hmember, hthis⟩ := Bool.and_eq_true_iff.1 hthis
        exact ⟨hright, left, object, hleft, hmember, hobject, hthis, hproperty⟩
      next => cases h
    · rintro ⟨hright, left, object, hleft, hmember, hobject, hthis, hproperty⟩
      refine ⟨left, hleft, right, hright, object, hobject, ?_⟩
      rw [hmember, hthis, Bool.and_self, if_pos rfl, hproperty]
      rfl

/-- The member is declared where the tree has its name. -/
def DeclaredIn (code : String) (root : Node) (m : Member) : Prop :=
  ∀ r, m.declaration? = some r → NamedAt code root m.name r

section

variable {code : String} {root : Node} (W : WellPlaced code root)

include W

theorem declaredIn_entry {entry : Node} (hentry : entry.IsIn root) {doc? : Option String}
    {aliases : List (String × String)} {m : Member}
    (h : declaredMember? entry doc? code aliases = some m) : DeclaredIn code root m := by
  obtain ⟨r, hname, hdeclaration, -⟩ := entryName?_of_declaredMember h
  obtain ⟨key, hkey, hname⟩ := exists_key_of_entryName? hentry hname
  rw [DeclaredIn, hdeclaration]
  rintro _ ⟨⟩
  exact W.namedAt_key hkey hname

theorem declaredIn_declaredMembers {aliases : List (String × String)} {entries : List Node}
    (hentries : ∀ e ∈ entries, e.IsIn root) {previous? : Option Node} {found : List Member}
    (hfound : ∀ m ∈ found, DeclaredIn code root m) :
    ∀ m ∈ declaredMembers code aliases previous? found entries, DeclaredIn code root m := by
  induction entries generalizing previous? found with
  | nil => exact hfound
  | cons entry entries ih =>
    refine ih (fun e he => hentries e (List.mem_cons_of_mem entry he)) ?_
    split
    next m hm =>
      split
      · exact hfound
      · intro m' hm'
        rcases List.mem_append.1 hm' with hm' | hm'
        · exact hfound m' hm'
        · rw [List.mem_singleton.1 hm']
          exact declaredIn_entry W (hentries entry List.mem_cons_self) hm
    next => exact hfound

omit W in
theorem declaredIn_noteAssignment {name : String} {property right : Span}
    (hproperty : NamedAt code root name property) {members : List Member}
    (hmembers : ∀ m ∈ members, DeclaredIn code root m) :
    ∀ m ∈ noteAssignment name property right members, DeclaredIn code root m := by
  induction members with
  | nil =>
    intro m hm
    rw [List.mem_singleton.1 hm]
    rintro _ ⟨⟩
    exact hproperty
  | cons first rest ih =>
    obtain ⟨hfirst, hrest⟩ := List.forall_mem_cons.1 hmembers
    unfold noteAssignment
    split
    · exact List.forall_mem_cons.2 ⟨hfirst, hrest⟩
    · exact List.forall_mem_cons.2 ⟨hfirst, ih hrest⟩

theorem declaredIn_withAssignments {body : Node} (hbody : body.IsIn root) {members : List Member}
    (hmembers : ∀ m ∈ members, DeclaredIn code root m) :
    ∀ m ∈ withAssignments body code members, DeclaredIn code root m := by
  have hassigned : ∀ a ∈ body.preorder.filterMap thisAssignment?,
      NamedAt code root (a.1.text code) a.1.span := by
    intro a ha
    obtain ⟨n, hn, hassigns⟩ := List.mem_filterMap.1 ha
    obtain ⟨-, -, left, object, hleft, hmember, -, -, hproperty⟩ := thisAssignment?_eq_some_iff.1 hassigns
    exact W.namedAt_access ((hbody.preorder hn).part? hleft) hmember hproperty
  unfold withAssignments
  generalize body.preorder.filterMap thisAssignment? = assigned at hassigned
  induction assigned generalizing members with
  | nil => exact hmembers
  | cons a assigned ih =>
    obtain ⟨ha, hassigned⟩ := List.forall_mem_cons.1 hassigned
    exact ih (declaredIn_noteAssignment ha hmembers) hassigned

end

theorem isIn_of_extendCall {scope root : Node} (hscope : scope.IsIn root) {code : String}
    {extend : ExtendCall} (h : extendCall? scope code = some extend) {body : Node}
    (hbody : extend.body? = some body) : body.IsIn root := by
  obtain ⟨n, hn, h⟩ := List.exists_of_findSome?_eq_some h
  have hn := hscope.preorder hn
  unfold ExtendCall.of? at h
  split at h
  · cases h
  · obtain ⟨callee, -, h⟩ := Option.bind_eq_some_iff.1 h
    split at h
    · cases h
    · obtain ⟨property, -, h⟩ := Option.bind_eq_some_iff.1 h
      obtain ⟨parent, -, h⟩ := Option.bind_eq_some_iff.1 h
      obtain ⟨args, hargs, h⟩ := Option.bind_eq_some_iff.1 h
      split at h
      · cases h
      · obtain ⟨first, -, h⟩ := Option.bind_eq_some_iff.1 h
        obtain ⟨⟨name, _⟩, -, ⟨⟩⟩ := Option.bind_eq_some_iff.1 h
        have hmem := List.mem_of_getElem? (Option.filter_eq_some_iff.1 hbody).1
        exact (hn.part? hargs).named hmem

theorem isIn_of_returnedObject {factory root : Node} (hfactory : factory.IsIn root) {code : String}
    {body : Node} (h : returnedObject? factory code = some body) : body.IsIn root := by
  obtain ⟨n, hn, h⟩ := List.exists_of_findSome?_eq_some h
  split at h
  · cases h
    unfold Node.returned at hn
    split at hn
    · cases hn
    next block hblock =>
      have hblock := hfactory.part? hblock
      split at hn
      · rw [List.mem_singleton.1 hn]
        exact hblock
      · obtain ⟨statement, hstatement, hn⟩ := List.mem_filterMap.1 hn
        split at hn
        · exact (hblock.visits hstatement).named (List.mem_of_head? hn)
        · cases hn
  · split at h
    · unfold declaredObject? at h
      obtain ⟨block, hblock, h⟩ := Option.bind_eq_some_iff.1 h
      obtain ⟨d, hd, h⟩ := List.exists_of_findSome?_eq_some h
      split at h
      · obtain ⟨h, -⟩ := Option.filter_eq_some_iff.1 h
        exact ((hfactory.part? hblock).visits hd).part? h
      · cases h
    · cases h

theorem isIn_of_moduleParts {call root : Node} (hcall : call.IsIn root) {code module : String}
    {factory : Node} (h : (moduleParts call code module).2 = some factory) : factory.IsIn root := by
  unfold moduleParts at h
  split at h
  · cases h
  next args hargs =>
    dsimp only at h
    have hfactory : args.namedChildren.find? Node.isFunction = some factory := by
      split at h
      · exact h
      · exact h
    exact (hcall.part? hargs).named (List.mem_of_find?_eq_some hfactory)

theorem isIn_getD {factory? : Option Node} {root : Node} (h : ∀ f, factory? = some f → f.IsIn root) :
    (factory?.getD root).IsIn root := by
  cases factory? with
  | none => exact .refl root
  | some factory => exact h factory rfl

/-- Every member of the class of a script is declared where the script has its name. -/
theorem declaredIn_classOfTree {code : String} {root : Node} (W : WellPlaced code root) (module : String) :
    ∀ m ∈ (classOfTree module code root).members, DeclaredIn code root m := by
  unfold classOfTree
  dsimp only
  split
  next body hbody =>
    have hbody : body.IsIn root := by
      cases hcall : defineCall? root code with
      | none =>
        rw [hcall] at hbody
        split at hbody
        next extend hextend => exact isIn_of_extendCall (.refl root) hextend hbody
        next => cases hbody
      | some call =>
        rw [hcall] at hbody
        have hfactory : ∀ factory, (moduleParts call code module).2 = some factory → factory.IsIn root :=
          fun factory h => isIn_of_moduleParts (List.mem_of_find?_eq_some hcall) h
        split at hbody
        next extend hextend => exact isIn_of_extendCall (isIn_getD hfactory) hextend hbody
        next =>
          obtain ⟨factory, hfound, hbody⟩ := Option.bind_eq_some_iff.1 hbody
          exact isIn_of_returnedObject (hfactory factory hfound) hbody
    refine declaredIn_withAssignments W hbody (declaredIn_declaredMembers W (fun e he => hbody.named he) ?_)
    exact List.forall_mem_nil _
  next => exact List.forall_mem_nil _

end UiWorkspace.Script
