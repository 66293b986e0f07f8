import UiWorkspace.Proofs.Workspace.HandlerMemo

/-! Handlers and the markup that a rename edits. Both are found in the same documents by the same walks
along the parents of the controllers; they differ in what they take the member for. -/
namespace UiWorkspace.Workspace

open UiWorkspace.Markup

/-- The walk to the nearest class that declares a member, as it goes however much has been read. -/
def walk (w : Workspace) (name member : String) : Hierarchy.Walk :=
  Hierarchy.findMember (m := Id) w.classNamed? w.limits name member

theorem findThrough_fst {base : Workspace} {rootClass member : String}
    {goOn : List String → String → Query Hierarchy.Walk} {goOn' : List String → String → Id Hierarchy.Walk}
    (hgoOn : ∀ visited name {w}, Learned base w → (goOn visited name w).1 = goOn' visited name)
    (visited : List String) (name : String) {w : Workspace} (h : Learned base w) :
    (Hierarchy.findThrough class? rootClass member goOn visited name w).1 =
      Hierarchy.findThrough (m := Id) base.classNamed? rootClass member goOn' visited name := by
  have hafter := h.trans (Learned.class? name w)
  unfold Hierarchy.findThrough
  split
  · rfl
  · rw [bind_run, class?_fst, h.classNamed?]
    cases base.classNamed? name with
    | none => rfl
    | some c =>
      dsimp only [bind]
      cases c.members.findIdx? fun f => f.name == member with
      | some index => rfl
      | none =>
        cases c.parent? with
        | none => rfl
        | some parent =>
          dsimp only
          cases name == rootClass with
          | true => rfl
          | false => exact hgoOn _ parent hafter

theorem findMember_fst {base w : Workspace} (h : Learned base w) (name member : String) :
    (findMember name member w).1 = base.walk name member := by
  have hfrom : ∀ rootClass hops visited name {w}, Learned base w →
      (Hierarchy.findFrom class? rootClass member hops visited name w).1 =
        Hierarchy.findFrom (m := Id) base.classNamed? rootClass member hops visited name := by
    intro rootClass hops
    induction hops with
    | zero => exact @findThrough_fst _ _ _ _ (fun visited _ => pure ⟨none, visited⟩) fun _ _ _ _ => rfl
    | succ hops ih => exact findThrough_fst ih
  have hlimits : w.limits = base.limits := by
    unfold limits
    rw [h.settings]
  unfold walk Hierarchy.findMember
  rw [← hlimits]
  exact hfrom _ _ [] name h

def WalkFinds (w : Workspace) (member : String) (walk : Hierarchy.Walk) : Prop :=
  ∀ c index, walk.found? = some (c, index) → (∃ asked, w.classNamed? asked = some c) ∧
    (c.members.findIdx? fun f => f.name == member) = some index

theorem walkFinds_through (w : Workspace) {rootClass member : String}
    {goOn : List String → String → Id Hierarchy.Walk}
    (hgoOn : ∀ visited name, w.WalkFinds member (goOn visited name)) (visited : List String) (name : String) :
    w.WalkFinds member
      (Hierarchy.findThrough (m := Id) w.classNamed? rootClass member goOn visited name) := by
  have hnone : ∀ visited, w.WalkFinds member ⟨none, visited⟩ := fun _ _ _ => nofun
  unfold Hierarchy.findThrough
  split
  · exact hnone _
  · cases hclass : w.classNamed? name with
    | none => exact hnone _
    | some c =>
      dsimp only [bind]
      cases hindex : c.members.findIdx? fun f => f.name == member with
      | some index =>
        intro c' index' hfound
        cases hfound
        exact ⟨⟨name, hclass⟩, hindex⟩
      | none =>
        cases c.parent? with
        | none => exact hnone _
        | some parent =>
          dsimp only
          split
          · exact hnone _
          · exact hgoOn _ parent

theorem walkFinds_walk (w : Workspace) (name member : String) : w.WalkFinds member (w.walk name member) := by
  have hfrom : ∀ rootClass hops visited name, w.WalkFinds member
      (Hierarchy.findFrom (m := Id) w.classNamed? rootClass member hops visited name) := by
    intro rootClass hops
    induction hops with
    | zero => exact walkFinds_through w fun _ _ _ _ => nofun
    | succ hops ih => exact walkFinds_through w ih
  exact hfrom _ _ [] name

theorem found?_walk_self {w : Workspace} {name member : String} {c : ClassDefinition} {index : Nat}
    (hclass : w.classNamed? name = some c)
    (hindex : (c.members.findIdx? fun f => f.name == member) = some index) :
    (w.walk name member).found? = some (c, index) := by
  have hthrough : ∀ rootClass goOn, (Hierarchy.findThrough (m := Id) w.classNamed? rootClass member goOn
      [] name).found? = some (c, index) := by
    intro rootClass goOn
    unfold Hierarchy.findThrough
    rw [hclass]
    dsimp only [bind]
    rw [hindex]
    rfl
  unfold walk Hierarchy.findMember
  cases w.limits.maxHops with
  | zero => exact hthrough _ _
  | succ hops => exact hthrough _ _

def reachesMember (w : Workspace) (className name controller : String) : Bool :=
  (w.walk controller name).found?.any fun f => f.1.name == className

def callsMethod (w : Workspace) (className name controller : String) : Bool :=
  (foundMember? (w.walk controller name)).any fun f =>
    f.2.kind == .method && (controller == className || f.1.name == className)

def Binds (d : Document) (name : String) : Prop := name ∈ d.handlers.map HandlerReference.name

theorem bindsMethodOf_fst {base w : Workspace} (h : Learned base w) (controller name className : String) :
    (bindsMethodOf controller name className w).1 = base.callsMethod className name controller := by
  unfold bindsMethodOf callsMethod
  rw [bind_run, findMember_fst h]
  cases foundMember? (base.walk controller name) <;> rfl

theorem mem_addHandlers {base : Workspace} (className controller : String) {name : String}
    (names : List String) (found : List String) {w : Workspace} (h : Learned base w) :
    name ∈ (addHandlers className controller found names w).1 ↔
      name ∈ found ∨ name ∈ names ∧ base.callsMethod className name controller = true := by
  induction names generalizing found w with
  | nil => simp [addHandlers, pure_run]
  | cons first names ih =>
    -- What becomes of the first name is settled before the rest is looked at.
    rw [List.mem_cons, or_and_right, ← or_assoc]
    unfold addHandlers
    split
    next hfound =>
      have hmem : first ∈ found := List.contains_iff_mem.1 hfound
      rw [ih _ h]
      exact or_congr_left (or_iff_left_of_imp fun hname => hname.1 ▸ hmem).symm
    next =>
      have hafter := ((Learned.stable base).scriptsAlike.bindsMethodOf controller first className).keeps h
      rw [bind_run, bindsMethodOf_fst h]
      cases hcalls : base.callsMethod className first controller with
      | true =>
        rw [if_pos rfl, ih _ hafter, List.mem_append, List.mem_singleton]
        exact or_congr_left (or_congr_right ⟨fun hname => ⟨hname, hname ▸ hcalls⟩, And.left⟩)
      | false =>
        rw [if_neg Bool.false_ne_true, ih _ hafter]
        refine or_congr_left (or_iff_left ?_).symm
        rintro ⟨rfl, hname⟩
        exact Bool.false_ne_true (hcalls.symm.trans hname)

theorem mem_handlersIn {base : Workspace} (className : String) {name : String}
    (entries : List (String × Document)) (found : List String) {w : Workspace} (h : Learned base w) :
    name ∈ (handlersIn className found entries w).1 ↔ name ∈ found ∨
      ∃ entry ∈ entries, Binds entry.2 name ∧ base.callsMethod className name entry.1 = true := by
  induction entries generalizing found w with
  | nil => simp [handlersIn, pure_run]
  | cons entry rest ih =>
    obtain ⟨controller, d⟩ := entry
    have hexamined := (Learned.stable base).examine w d h
    have hadded := ((Learned.stable base).scriptsAlike.addHandlers className controller found
      (d.handlers.map HandlerReference.name)).keeps hexamined
    unfold handlersIn
    rw [bind_run, bind_run, ih _ hadded, mem_addHandlers _ _ _ _ hexamined, List.exists_mem_cons_iff, or_assoc]
    rfl

theorem handlerEditsIn_ne_nil {base : Workspace} (className newName : String) {name : String}
    (entries : List (String × Document)) {w : Workspace} (h : Learned base w) :
    (handlerEditsIn className name newName entries w).1 ≠ [] ↔
      ∃ entry ∈ entries, Binds entry.2 name ∧ base.reachesMember className name entry.1 = true := by
  induction entries generalizing w with
  | nil => simp [handlerEditsIn, pure_run]
  | cons entry rest ih =>
    obtain ⟨controller, d⟩ := entry
    have hexamined := (Learned.stable base).examine w d h
    have hbinds : Binds d name ↔ d.handlers.filter (fun r => r.name == name) ≠ [] := by
      unfold Binds
      simp [List.filter_eq_nil_iff]
    unfold handlerEditsIn
    rw [bind_run, List.exists_mem_cons_iff]
    dsimp only
    split
    next hnone =>
      rw [ih hexamined, hbinds, List.isEmpty_iff.1 hnone]
      simp
    next hsome =>
      have hfound := ((Learned.stable base).scriptsAlike.findMember controller name).keeps hexamined
      rw [List.isEmpty_iff] at hsome
      rw [bind_run, bind_run, findMember_fst hexamined, pure_run, ne_eq, List.append_eq_nil_iff, not_and_or,
        ← ne_eq, ← ne_eq, ih hfound, hbinds]
      refine or_congr_left ?_
      unfold reachesMember
      split
      next hreaches => simp [hreaches, hsome]
      next hreaches => simp [hreaches]

section Declared

variable {w : Workspace} (hfiled : w.FiledByName) {className name : String} {c : ClassDefinition}
  {member : Member} (hclass : w.classNamed? className = some c) (hmember : c.member? name = some member)

include hfiled hclass hmember

theorem foundMember?_of_reaches {controller : String}
    (h : w.reachesMember className name controller = true) :
    foundMember? (w.walk controller name) = some (c, member) := by
  obtain ⟨⟨k, index⟩, hfound, hname⟩ := (Option.any_eq_true _ _).1 h
  obtain ⟨⟨asked, hasked⟩, hindex⟩ := w.walkFinds_walk controller name k index hfound
  rw [beq_iff_eq, hfiled.classNamed?_name hasked] at hname
  rw [hname, hclass, Option.some.injEq] at hasked
  subst hasked
  have hat : c.members[index]? = some member := by
    rw [ClassDefinition.member?, List.find?_eq_bind_findIdx?_getElem?, hindex] at hmember
    exact hmember
  simp [foundMember?, hfound, hat]

theorem reaches_of_self : w.reachesMember className name className = true := by
  rw [ClassDefinition.member?, List.find?_eq_bind_findIdx?_getElem?] at hmember
  obtain ⟨index, hindex, -⟩ := Option.bind_eq_some_iff.1 hmember
  rw [reachesMember, found?_walk_self hclass hindex]
  exact beq_iff_eq.2 (hfiled.classNamed?_name hclass)

/-- The names that call a method of the class are those that reach it, if it is a method. -/
theorem callsMethod_iff (controller : String) : w.callsMethod className name controller = true ↔
    member.kind = .method ∧ w.reachesMember className name controller = true := by
  constructor
  · intro h
    have hreaches : w.reachesMember className name controller = true := by
      obtain ⟨⟨k, m⟩, hfound, hcalls⟩ := (Option.any_eq_true _ _).1 h
      simp only [Bool.and_eq_true, Bool.or_eq_true, beq_iff_eq] at hcalls
      rcases hcalls.2 with rfl | hname
      · exact reaches_of_self hfiled hclass hmember
      · obtain ⟨⟨k', index⟩, hwalk, hat⟩ := Option.bind_eq_some_iff.1 hfound
        obtain ⟨m', -, heq⟩ := Option.bind_eq_some_iff.1 hat
        cases heq
        rw [reachesMember, hwalk]
        exact beq_iff_eq.2 hname
    rw [callsMethod, foundMember?_of_reaches hfiled hclass hmember hreaches] at h
    simp only [Option.any_some, Bool.and_eq_true, beq_iff_eq] at h
    exact ⟨h.1, hreaches⟩
  · rintro ⟨hkind, hreaches⟩
    rw [callsMethod, foundMember?_of_reaches hfiled hclass hmember hreaches]
    simp [hkind, hfiled.classNamed?_name hclass]

end Declared

theorem eventHandlers_fst {w : Workspace} {className : String}
    (hmemo : ∀ found, w.handlers.lookup className = some found → found = w.handlersNow className) :
    (eventHandlers className w).1 = (findHandlers className w).1 := by
  cases hlookup : w.handlers.lookup className with
  | none => rw [eventHandlers_of_none hlookup]
  | some found => rw [eventHandlers_of_some hlookup, hmemo found hlookup, handlersNow_eq]

/-- A member that a class declares itself is one of its event handlers exactly if it is a method and
renaming it edits markup. What is remembered of the handlers must not be outdated. -/
theorem handler_iff_method_edited {w : Workspace} (hw : Reachable w) {className name : String}
    {c : ClassDefinition} {member : Member} (hclass : (class? className w).1 = some c)
    (hmember : c.member? name = some member)
    (hmemo : ∀ found, w.handlers.lookup className = some found → found = w.handlersNow className)
    (newName : String) :
    name ∈ (eventHandlers className w).1 ↔
      member.kind = .method ∧ (handlerEdits className name newName w).1 ≠ [] := by
  rw [class?_fst] at hclass
  have hlearned : Learned w (controlledDocuments w).2 :=
    (Learned.stable w).congruence.controlledDocuments.keeps (.refl w)
  have hedits : (handlerEdits className name newName w).1 ≠ [] ↔ ∃ entry ∈ (controlledDocuments w).1,
      Binds entry.2 name ∧ w.reachesMember className name entry.1 = true :=
    handlerEditsIn_ne_nil className newName _ hlearned
  have hhandlers : name ∈ (findHandlers className w).1 ↔ ∃ entry ∈ (controlledDocuments w).1,
      Binds entry.2 name ∧ w.callsMethod className name entry.1 = true :=
    (mem_handlersIn className _ [] hlearned).trans (or_iff_right List.not_mem_nil)
  rw [eventHandlers_fst hmemo, hhandlers, hedits]
  simp only [callsMethod_iff hw.orderly.filed hclass hmember]
  constructor
  · rintro ⟨entry, hentry, hbinds, hkind, hreaches⟩
    exact ⟨hkind, entry, hentry, hbinds, hreaches⟩
  · rintro ⟨hkind, entry, hentry, hbinds, hreaches⟩
    exact ⟨entry, hentry, hbinds, hkind, hreaches⟩

/-- The method is declared by a class that is not known yet, and bound in the view of another. -/
theorem handler_iff_method_edited_sample :
    "on" ∈ (eventHandlers "App.B" sampleInherited).1 ∧
      (handlerEdits "App.B" "on" "off" sampleInherited).1 ≠ [] := by
  have hnone : sampleInherited.handlers = [] := by decide +kernel
  have hdeclared : ((class? "App.B" sampleInherited).1.bind fun c => c.member? "on").isSome = true := by
    decide +kernel
  have hbound : "on" ∈ (eventHandlers "App.B" sampleInherited).1 := by decide +kernel
  obtain ⟨member, hmember⟩ := Option.isSome_iff_exists.1 hdeclared
  obtain ⟨c, hclass, hmember⟩ := Option.bind_eq_some_iff.1 hmember
  have hmemo : ∀ found, sampleInherited.handlers.lookup "App.B" = some found →
      found = sampleInherited.handlersNow "App.B" := by
    rw [hnone]
    exact fun _ => nofun
  exact ⟨hbound, ((handler_iff_method_edited sampleInherited_reachable hclass hmember hmemo "off").1 hbound).2⟩

end UiWorkspace.Workspace
