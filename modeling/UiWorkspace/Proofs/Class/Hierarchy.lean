import Mathlib.Data.List.Chain
import UiWorkspace.Class.Hierarchy
import UiWorkspace.Proofs.Query

/-! Walks along the parents of a class. The search for a member and the listing of the ancestors
pass the same classes in the same order; the search ends at the first of them that declares the
member. Both hold for any table of classes, also where parents form a circle, have no class or
never end. -/
namespace UiWorkspace.Hierarchy

/-- Classes by name, each under its own. -/
structure ClassTable where
  class? : String → Option ClassDefinition
  name_eq {name : String} {c : ClassDefinition} : class? name = some c → c.name = name

namespace ClassTable

def ofList (classes : List ClassDefinition) : ClassTable where
  class? name := classes.find? fun c => c.name == name
  name_eq {name c} h := by
    have hname := List.find?_some h
    exact beq_iff_eq.1 hname

variable (t : ClassTable)

def load (name : String) : StateM (List String) (Option ClassDefinition) := fun asked =>
  (t.class? name, asked ++ [name])

theorem load_run (name : String) (asked : List String) :
    t.load name asked = (t.class? name, asked ++ [name]) := rfl

def above? (rootClass name : String) : Option String :=
  if name = rootClass then none else (t.class? name).bind ClassDefinition.parent?

/-- Up to `count` classes from `name` upwards, as long as none of them has been passed. -/
def line (rootClass : String) : (count : Nat) → (passed : List String) → String → List String
  | 0, _, _ => []
  | count + 1, passed, name =>
    if name ∈ passed then []
    else
      name :: match t.above? rootClass name with
        | some parent => line rootClass count (passed ++ [name]) parent
        | none => []

variable {t} {rootClass : String}

theorem above?_eq_none {name : String} (h : (t.class? name).bind ClassDefinition.parent? = none) :
    t.above? rootClass name = none := by
  unfold above?
  split
  · rfl
  · exact h

theorem line_of_passed {count : Nat} {passed : List String} {name : String} (h : name ∈ passed) :
    t.line rootClass count passed name = [] := by
  cases count with
  | zero => rfl
  | succ count => rw [line, if_pos h]

theorem line_last {count : Nat} {passed : List String} {name : String} (h : name ∉ passed)
    (habove : t.above? rootClass name = none) :
    t.line rootClass (count + 1) passed name = [name] := by
  rw [line, if_neg h, habove]

theorem line_cons {count : Nat} {passed : List String} {name parent : String} (h : name ∉ passed)
    (habove : t.above? rootClass name = some parent) :
    t.line rootClass (count + 1) passed name =
      name :: t.line rootClass count (passed ++ [name]) parent := by
  rw [line, if_neg h, habove]

theorem length_line_le (count : Nat) (passed : List String) (name : String) :
    (t.line rootClass count passed name).length ≤ count := by
  induction count generalizing passed name with
  | zero => exact Nat.le_refl 0
  | succ count ih =>
    by_cases hname : name ∈ passed
    · rw [line_of_passed hname]
      exact Nat.zero_le _
    · cases habove : t.above? rootClass name with
      | none =>
        rw [line_last hname habove]
        exact Nat.succ_le_succ (Nat.zero_le count)
      | some parent =>
        rw [line_cons hname habove]
        exact Nat.succ_le_succ (ih _ parent)

theorem not_passed_of_mem_line {count : Nat} {passed : List String} {name other : String}
    (h : other ∈ t.line rootClass count passed name) : other ∉ passed := by
  induction count generalizing passed name with
  | zero => cases h
  | succ count ih =>
    by_cases hname : name ∈ passed
    · rw [line_of_passed hname] at h
      cases h
    · cases habove : t.above? rootClass name with
      | none =>
        rw [line_last hname habove, List.mem_singleton] at h
        exact h ▸ hname
      | some parent =>
        rw [line_cons hname habove, List.mem_cons] at h
        rcases h with rfl | h
        · exact hname
        · exact fun hpassed => ih h (List.mem_append_left _ hpassed)

theorem nodup_line (count : Nat) (passed : List String) (name : String) :
    (t.line rootClass count passed name).Nodup := by
  induction count generalizing passed name with
  | zero => exact List.nodup_nil
  | succ count ih =>
    by_cases hname : name ∈ passed
    · rw [line_of_passed hname]
      exact List.nodup_nil
    · cases habove : t.above? rootClass name with
      | none =>
        rw [line_last hname habove]
        exact List.pairwise_singleton _ name
      | some parent =>
        rw [line_cons hname habove]
        refine List.nodup_cons.2 ⟨fun h => ?_, ih _ parent⟩
        exact not_passed_of_mem_line h (List.mem_append_right _ List.mem_cons_self)

theorem head?_line {count : Nat} {passed : List String} {name first : String}
    (h : (t.line rootClass count passed name).head? = some first) : first = name := by
  cases count with
  | zero => cases h
  | succ count =>
    unfold line at h
    split at h
    · cases h
    · exact (Option.some.inj h).symm

theorem isChain_line (count : Nat) (passed : List String) (name : String) :
    (t.line rootClass count passed name).IsChain fun below parent =>
      t.above? rootClass below = some parent := by
  induction count generalizing passed name with
  | zero => exact List.IsChain.nil
  | succ count ih =>
    by_cases hname : name ∈ passed
    · rw [line_of_passed hname]
      exact List.IsChain.nil
    · cases habove : t.above? rootClass name with
      | none =>
        rw [line_last hname habove]
        exact List.IsChain.singleton name
      | some parent =>
        rw [line_cons hname habove]
        refine List.isChain_cons.2 ⟨fun first hfirst => ?_, ih _ parent⟩
        rw [head?_line hfirst, habove]

theorem mem_of_last_of_line {count : Nat} {passed : List String} {name last parent : String}
    (hlast : (t.line rootClass count passed name).getLast? = some last)
    (hshort : (t.line rootClass count passed name).length < count)
    (hparent : t.above? rootClass last = some parent) :
    parent ∈ passed ++ t.line rootClass count passed name := by
  induction count generalizing passed name with
  | zero => exact absurd hshort (Nat.not_lt_zero _)
  | succ count ih =>
    by_cases hname : name ∈ passed
    · rw [line_of_passed hname] at hlast
      cases hlast
    · cases habove : t.above? rootClass name with
      | none =>
        rw [line_last hname habove, List.getLast?_singleton, Option.some.injEq] at hlast
        rw [hlast, hparent] at habove
        cases habove
      | some next =>
        rw [line_cons hname habove] at hlast hshort ⊢
        rw [List.append_cons]
        cases hrest : t.line rootClass count (passed ++ [name]) next with
        | nil =>
          -- Nothing is listed from the parent on although there is room for it: it has been passed.
          rw [hrest] at hlast hshort
          rw [List.getLast?_singleton, Option.some.injEq] at hlast
          rw [hlast, hparent, Option.some.injEq] at habove
          obtain ⟨room, rfl⟩ : ∃ room, count = room + 1 := ⟨count - 1, by simp at hshort; omega⟩
          rw [habove, List.append_nil]
          by_contra hnew
          unfold line at hrest
          rw [if_neg hnew] at hrest
          cases hrest
        | cons first rest =>
          rw [hrest, List.getLast?_cons_cons] at hlast
          have hin := ih (hrest ▸ hlast) (Nat.lt_of_succ_lt_succ hshort)
          rw [hrest] at hin
          exact hin

theorem ancestorsFrom_fst (count : Nat) (chain : List String) (name : String) (asked : List String) :
    (ancestorsFrom t.load rootClass count chain name asked).1 =
      chain ++ t.line rootClass count chain name := by
  induction count generalizing chain name asked with
  | zero => exact (List.append_nil chain).symm
  | succ count ih =>
    unfold ancestorsFrom
    by_cases hname : name ∈ chain
    · rw [if_pos (List.contains_iff_mem.2 hname), line_of_passed hname, List.append_nil]
      rfl
    · rw [if_neg (by rwa [List.contains_iff_mem])]
      by_cases hroot : name = rootClass
      · rw [line_last hname (if_pos hroot), if_pos (beq_iff_eq.2 hroot)]
        rfl
      · have habove : t.above? rootClass name = (t.class? name).bind ClassDefinition.parent? :=
          if_neg hroot
        rw [if_neg (by rwa [beq_iff_eq]), bind_run, load_run]
        cases hclass : t.class? name with
        | none =>
          rw [hclass] at habove
          rw [line_last hname habove]
          rfl
        | some c =>
          rw [hclass, Option.bind_some] at habove
          dsimp only
          cases hparent : c.parent? with
          | none =>
            rw [line_last hname (habove.trans hparent)]
            rfl
          | some parent =>
            rw [line_cons hname (habove.trans hparent)]
            exact (ih _ parent _).trans (List.append_assoc _ _ _)

/-- The class has the member as its first of that name at the position. -/
def IsFirst (c : ClassDefinition) (member : String) (index : Nat) : Prop :=
  (∃ m, c.members[index]? = some m ∧ m.name = member) ∧
    ∀ earlier m, earlier < index → c.members[earlier]? = some m → m.name ≠ member

variable (t) in
def Declares (member name : String) : Prop :=
  ∃ c, t.class? name = some c ∧ ∃ m ∈ c.members, m.name = member

variable (t) in
/-- What the walk for a member comes to along a line of classes: it passes all of them if none
declares the member, and else those up to the first one that does. -/
def Ends (member : String) (line : List String) (found? : Option (ClassDefinition × Nat))
    (passed : List String) : Prop :=
  (found? = none ∧ passed = line ∧ ∀ name ∈ line, ¬ t.Declares member name) ∨
    ∃ before c after index, line = before ++ c.name :: after ∧ passed = before ++ [c.name] ∧
      found? = some (c, index) ∧ t.class? c.name = some c ∧ IsFirst c member index ∧
      ∀ name ∈ before, ¬ t.Declares member name

theorem Ends.cons {member name : String} {line : List String} {found? : Option (ClassDefinition × Nat)}
    {passed : List String} (h : t.Ends member line found? passed) (hname : ¬ t.Declares member name) :
    t.Ends member (name :: line) found? (name :: passed) := by
  rcases h with ⟨rfl, rfl, hall⟩ | ⟨before, c, after, index, rfl, rfl, rfl, hclass, hfirst, hbefore⟩
  · exact .inl ⟨rfl, rfl, List.forall_mem_cons.2 ⟨hname, hall⟩⟩
  · exact .inr ⟨name :: before, c, after, index, rfl, rfl, rfl, hclass, hfirst,
      List.forall_mem_cons.2 ⟨hname, hbefore⟩⟩

theorem isFirst_of_findIdx? {c : ClassDefinition} {member : String} {index : Nat}
    (h : (c.members.findIdx? fun f => f.name == member) = some index) : IsFirst c member index := by
  obtain ⟨hlt, hname, hearlier⟩ := List.findIdx?_eq_some_iff_getElem.1 h
  refine ⟨⟨c.members[index], List.getElem?_eq_getElem hlt, beq_iff_eq.1 hname⟩, ?_⟩
  intro earlier m hless hm hsame
  obtain ⟨hin, rfl⟩ := List.getElem?_eq_some_iff.1 hm
  exact hearlier earlier hless (beq_iff_eq.2 hsame)

theorem not_declares_of_findIdx? {c : ClassDefinition} {member name : String}
    (hclass : t.class? name = some c)
    (h : (c.members.findIdx? fun f => f.name == member) = none) : ¬ t.Declares member name := by
  rintro ⟨c', hclass', m, hm, hname⟩
  rw [hclass, Option.some.injEq] at hclass'
  subst hclass'
  have hother := List.findIdx?_eq_none_iff.1 h m hm
  rw [hname, beq_self_eq_true] at hother
  cases hother

theorem not_declares_of_class?_eq_none {member name : String} (hclass : t.class? name = none) :
    ¬ t.Declares member name := by
  rintro ⟨c, hc, -⟩
  rw [hclass] at hc
  cases hc

theorem ends_last {member name : String} {count : Nat} {visited : List String} (hname : name ∉ visited)
    (habove : t.above? rootClass name = none) (hnot : ¬ t.Declares member name) :
    t.Ends member (t.line rootClass (count + 1) visited name) none [name] := by
  rw [line_last hname habove]
  exact .inl ⟨rfl, rfl, List.forall_mem_singleton.2 hnot⟩

theorem ends_found {member name : String} {count index : Nat} {visited : List String}
    {c : ClassDefinition} (hname : name ∉ visited) (hclass : t.class? name = some c)
    (hindex : (c.members.findIdx? fun f => f.name == member) = some index) :
    t.Ends member (t.line rootClass (count + 1) visited name) (some (c, index)) [name] := by
  obtain rfl : c.name = name := t.name_eq hclass
  obtain ⟨after, hline⟩ : ∃ after, t.line rootClass (count + 1) visited c.name = c.name :: after := by
    rw [line, if_neg hname]
    exact ⟨_, rfl⟩
  exact .inr ⟨[], c, after, index, hline, rfl, rfl, hclass, isFirst_of_findIdx? hindex, nofun⟩

variable (t) in
/-- From any class on, the walk goes along the line and asks for each class once. -/
def GoesAlong (rootClass member : String) (count : Nat)
    (walk : List String → String → StateM (List String) Walk) : Prop :=
  ∀ visited name asked, ∃ found? passed,
    walk visited name asked = (⟨found?, visited ++ passed⟩, asked ++ passed) ∧
      t.Ends member (t.line rootClass count visited name) found? passed

theorem goesAlong_findThrough {member : String} {count : Nat}
    {goOn : List String → String → StateM (List String) Walk}
    (hgoOn : t.GoesAlong rootClass member count goOn) :
    t.GoesAlong rootClass member (count + 1) (findThrough t.load rootClass member goOn) := by
  intro visited name asked
  unfold findThrough
  by_cases hname : name ∈ visited
  · refine ⟨none, [], ?_, .inl ⟨rfl, (line_of_passed hname).symm, ?_⟩⟩
    · rw [if_pos (List.contains_iff_mem.2 hname), List.append_nil, List.append_nil]
      rfl
    · rw [line_of_passed hname]
      exact nofun
  · rw [if_neg (by rwa [List.contains_iff_mem]), bind_run, load_run]
    cases hclass : t.class? name with
    | none =>
      exact ⟨none, [name], rfl, ends_last hname (above?_eq_none (by rw [hclass]; rfl))
        (not_declares_of_class?_eq_none hclass)⟩
    | some c =>
      dsimp only
      cases hindex : c.members.findIdx? fun f => f.name == member with
      | some index => exact ⟨some (c, index), [name], rfl, ends_found hname hclass hindex⟩
      | none =>
        have hnot := not_declares_of_findIdx? hclass hindex
        cases hparent : c.parent? with
        | none =>
          exact ⟨none, [name], rfl,
            ends_last hname (above?_eq_none (by rw [hclass, Option.bind_some, hparent])) hnot⟩
        | some parent =>
          dsimp only
          by_cases hroot : name = rootClass
          · refine ⟨none, [name], ?_, ends_last hname (if_pos hroot) hnot⟩
            rw [if_pos (beq_iff_eq.2 hroot)]
            rfl
          · have habove : t.above? rootClass name = some parent := by
              rw [above?, if_neg hroot, hclass, Option.bind_some, hparent]
            obtain ⟨found?, passed, hrun, hends⟩ := hgoOn (visited ++ [name]) parent (asked ++ [name])
            refine ⟨found?, name :: passed, ?_, ?_⟩
            · rw [if_neg (by rwa [beq_iff_eq]), hrun, List.append_assoc, List.append_assoc]
              rfl
            · rw [line_cons hname habove]
              exact hends.cons hnot

theorem goesAlong_findFrom (member : String) (hops : Nat) :
    t.GoesAlong rootClass member (hops + 1) (findFrom t.load rootClass member hops) := by
  induction hops with
  | zero =>
    refine goesAlong_findThrough fun visited name asked => ⟨none, [], ?_, .inl ⟨rfl, rfl, nofun⟩⟩
    rw [List.append_nil, List.append_nil]
    rfl
  | succ hops ih => exact goesAlong_findThrough ih

variable (t)

def ancestors (limits : Limits) (name : String) : List String :=
  (Hierarchy.ancestors t.load limits name []).1

/-- The walk to the nearest class that declares the member, and the names asked for on the way. -/
def search (limits : Limits) (name member : String) : Walk × List String :=
  findMember t.load limits name member []

def inherits (limits : Limits) (name ancestor : String) : Bool :=
  (isSubclassOf t.load limits name ancestor []).1

theorem ancestors_eq (limits : Limits) (name : String) :
    t.ancestors limits name = t.line limits.rootClass (limits.maxHops + 1) [] name :=
  ancestorsFrom_fst _ [] name []

theorem inherits_iff (limits : Limits) (name ancestor : String) :
    t.inherits limits name ancestor = true ↔ ancestor ∈ t.ancestors limits name :=
  List.contains_iff_mem

/-- A list of classes that begins with `name`, in which each class is followed by its parent and none
stands twice. It is as long as the limits and the classes allow. -/
structure IsLineage (limits : Limits) (name : String) (chain : List String) : Prop where
  first : chain.head? = some name
  nodup : chain.Nodup
  bounded : chain.length ≤ limits.maxHops + 1
  parents : chain.IsChain fun below parent =>
    below ≠ limits.rootClass ∧ ∃ c, t.class? below = some c ∧ c.parent? = some parent
  complete {last parent : String} {c : ClassDefinition} : chain.getLast? = some last →
    last ≠ limits.rootClass → t.class? last = some c → c.parent? = some parent →
    chain.length = limits.maxHops + 1 ∨ parent ∈ chain

variable {t}

theorem above?_eq_some_iff {name parent : String} : t.above? rootClass name = some parent ↔
    name ≠ rootClass ∧ ∃ c, t.class? name = some c ∧ c.parent? = some parent := by
  unfold above?
  split
  next hroot => exact iff_of_false nofun fun h => h.1 hroot
  next hroot => rw [Option.bind_eq_some_iff, and_iff_right hroot]

theorem isLineage_ancestors (limits : Limits) (name : String) :
    t.IsLineage limits name (t.ancestors limits name) where
  first := by
    rw [ancestors_eq, line, if_neg List.not_mem_nil]
    rfl
  nodup := by
    rw [ancestors_eq]
    exact nodup_line _ _ _
  bounded := by
    rw [ancestors_eq]
    exact length_line_le _ _ _
  parents := by
    rw [ancestors_eq]
    exact (isChain_line _ _ _).imp fun _ _ h => above?_eq_some_iff.1 h
  complete {last parent c} hlast hroot hclass hparent := by
    rw [ancestors_eq] at hlast ⊢
    rcases Nat.lt_or_eq_of_le (t.length_line_le (limits.maxHops + 1) [] name) with hshort | hfull
    · exact .inr (mem_of_last_of_line hlast hshort
        (above?_eq_some_iff.2 ⟨hroot, c, hclass, hparent⟩))
    · exact .inl hfull

/-- The search for a member agrees with the listing of the ancestors. It finds the member in the first
class listed that declares it, at the first place there, and visits the classes up to that one; if no
class listed declares it, it visits them all. It asks for each class it visits once, in this order, and
the class in which it finds the member is one that the first class inherits from. -/
theorem search_goes_along_ancestors (t : ClassTable) (limits : Limits) (name member : String) :
    t.IsLineage limits name (t.ancestors limits name) ∧
    t.Ends member (t.ancestors limits name) (t.search limits name member).1.found?
      (t.search limits name member).1.visited ∧
    (t.search limits name member).2 = (t.search limits name member).1.visited ∧
    ∀ c index, (t.search limits name member).1.found? = some (c, index) →
      t.inherits limits name c.name = true := by
  obtain ⟨found?, passed, hrun, hends⟩ :=
    (goesAlong_findFrom member limits.maxHops : t.GoesAlong limits.rootClass member _ _) [] name []
  have hsearch : t.search limits name member = (⟨found?, passed⟩, passed) := hrun
  rw [← ancestors_eq] at hends
  rw [hsearch]
  refine ⟨isLineage_ancestors limits name, hends, rfl, fun c index hfound => ?_⟩
  rw [inherits_iff]
  rcases hends with ⟨hnone, -⟩ | ⟨before, c', after, index', hline, -, hsome, -⟩
  · cases hnone.symm.trans hfound
  · cases hsome.symm.trans hfound
    rw [hline]
    exact List.mem_append_right before List.mem_cons_self

def sampleCircle : ClassTable :=
  .ofList [⟨"A", some "B", [], [], none⟩, ⟨"B", some "C", [.plain "m" .method none], [], none⟩,
    ⟨"C", some "A", [.plain "m" .method none], [], none⟩]

theorem search_goes_along_ancestors_sample :
    sampleCircle.ancestors ⟨5, "Root"⟩ "A" = ["A", "B", "C"] ∧
      (sampleCircle.search ⟨5, "Root"⟩ "A" "m").2 = ["A", "B"] ∧
      ((sampleCircle.search ⟨5, "Root"⟩ "A" "m").1.found?.map fun f => (f.1.name, f.2)) = some ("B", 0) ∧
      sampleCircle.inherits ⟨5, "Root"⟩ "A" "B" = true := by
  obtain ⟨-, -, hasked, hinherits⟩ := search_goes_along_ancestors sampleCircle ⟨5, "Root"⟩ "A" "m"
  have hvisited : (sampleCircle.search ⟨5, "Root"⟩ "A" "m").1.visited = ["A", "B"] := by decide
  have hfound : (sampleCircle.search ⟨5, "Root"⟩ "A" "m").1.found? =
      some (⟨"B", some "C", [.plain "m" .method none], [], none⟩, 0) := rfl
  refine ⟨by decide, hasked.trans hvisited, ?_, hinherits _ _ hfound⟩
  rw [hfound]
  rfl

end ClassTable

end UiWorkspace.Hierarchy
