import UiWorkspace.Proofs.Workspace.BoundMembers
import UiWorkspace.Proofs.Workspace.RenameEdits

/-! Definitions and renamings. Both are about the member that a place in a file refers to, and have an
answer where a script of the project declares it. -/
namespace UiWorkspace.Workspace

/-- The class that declares the member a place in a file refers to, with the member. -/
def referent? (w : Workspace) (path : FilePath) (offset : Nat) : Option (ClassDefinition × Member) :=
  (referenceAt? path offset w).1.bind fun reference => foundMember? (w.walk reference.1 reference.2)

section Answers

variable (w : Workspace) (path : FilePath) (offset : Nat)

theorem learned_referenceAt? : Learned w (referenceAt? path offset w).2 :=
  ((Learned.indistinguishable w).referenceAt? path offset).keeps (.refl w)

theorem definitionAt?_fst : (definitionAt? path offset w).1 =
    (w.referent? path offset).bind fun found => found.2.declaration?.bind fun span =>
      found.1.path?.map fun declaring => ⟨declaring, span.start⟩ := by
  have hlearned := learned_referenceAt? w path offset
  unfold definitionAt? referent?
  rw [bind_run]
  cases (referenceAt? path offset w).1 with
  | none => rfl
  | some reference =>
    dsimp only
    rw [bind_run, findMember_fst hlearned, pure_run, Option.bind_some]

theorem prepareRename_fst : (prepareRename path offset w).1 =
    match (w.referent? path offset).bind fun found => targetOf? found.1 found.2 with
    | some target => .ok target
    | none => .error (.nothingToRename path offset) := by
  have hlearned := learned_referenceAt? w path offset
  unfold prepareRename referent?
  rw [bind_run, subjectAt_run]
  cases (referenceAt? path offset w).1 with
  | none => rfl
  | some reference =>
    dsimp only [subjectOf, Option.elim]
    rw [bind_run, findMember_fst hlearned, Option.bind_some]
    cases (foundMember? (w.walk reference.1 reference.2)).bind fun found => targetOf? found.1 found.2 <;> rfl

end Answers

/-- The class that the target names declares the member at the target's range of its script, and the
name of the member stands there. -/
structure RenameTarget.IsDeclaredIn (target : RenameTarget) (c : ClassDefinition) : Prop where
  class_name : c.name = target.className
  member : ∃ m, c.member? target.member = some m ∧ m.declaration? = some target.span
  text : ∃ source, c.source? = some source ∧ source.path = target.path ∧
    target.span.slice source.text = some target.member

variable {w : Workspace} {path : FilePath} {offset : Nat} {target : RenameTarget}

theorem prepareRename_eq_ok_iff : (prepareRename path offset w).1 = .ok target ↔
    ∃ c m, w.referent? path offset = some (c, m) ∧ targetOf? c m = some target := by
  rw [prepareRename_fst]
  have hbind : (∃ c m, w.referent? path offset = some (c, m) ∧ targetOf? c m = some target) ↔
      ((w.referent? path offset).bind fun found => targetOf? found.1 found.2) = some target := by
    rw [Option.bind_eq_some_iff, Prod.exists]
  rw [hbind]
  split
  next found hfound => rw [hfound, Except.ok.injEq, Option.some.injEq]
  next hnone => rw [hnone]; exact iff_of_false nofun nofun

theorem place_eq_some_iff {c : ClassDefinition} {m : Member} {location : Location} :
    (m.declaration?.bind fun span => c.path?.map fun declaring => (⟨declaring, span.start⟩ : Location)) =
      some location ↔
    ∃ target, targetOf? c m = some target ∧ location = ⟨target.path, target.span.start⟩ := by
  unfold targetOf?
  cases m.declaration? <;> cases c.path? <;> simp [bind, eq_comm]

theorem MadeOfScripts.classNamed? (h : MadeOfScripts w) {name : String} {c : ClassDefinition}
    (hc : w.classNamed? name = some c) : MadeOfScript c := by
  rcases Option.or_eq_some_iff.1 hc with hknown | ⟨-, hmade⟩
  · exact h name c hknown
  · exact madeOfScript_of_makes hmade

theorem classNamed?_of_referent? (hfiled : w.FiledByName) {c : ClassDefinition} {m : Member}
    (h : w.referent? path offset = some (c, m)) :
    w.classNamed? c.name = some c ∧ c.member? m.name = some m := by
  obtain ⟨⟨className, name⟩, -, hfound⟩ := Option.bind_eq_some_iff.1 h
  obtain ⟨⟨c', index⟩, hwalk, hat⟩ := Option.bind_eq_some_iff.1 hfound
  obtain ⟨m', hm, hat⟩ := Option.bind_eq_some_iff.1 hat
  cases hat
  obtain ⟨⟨asked, hasked⟩, hindex⟩ := w.walkFinds_walk className name c index hwalk
  have hmember : c.member? name = some m := by
    rw [ClassDefinition.member?, List.find?_eq_bind_findIdx?_getElem?, hindex]
    exact hm
  have hname : m.name = name := by simpa using List.find?_some hmember
  rw [hfiled.classNamed?_name hasked, hname]
  exact ⟨hasked, hmember⟩

theorem isDeclaredIn_of_targetOf? {c : ClassDefinition} {m : Member} (hmade : MadeOfScript c)
    (hmember : c.member? m.name = some m) (htarget : targetOf? c m = some target) :
    target.IsDeclaredIn c := by
  obtain ⟨source, span, hsource, hspan, rfl⟩ := exists_source_of_targetOf? htarget
  have hm : m ∈ c.members.filter fun f => f.name == m.name :=
    List.mem_filter.2 ⟨List.mem_of_find?_eq_some hmember, beq_self_eq_true _⟩
  have hplace : span ∈ (KeptText.script c source).places m.name :=
    List.mem_append_left _ (List.mem_filterMap.2 ⟨m, hm, hspan⟩)
  obtain ⟨_, _, _, _, hslice⟩ := KeptText.namedAt_of_mem_places hmade hsource hplace
  exact ⟨rfl, ⟨m, hmember, hspan⟩, ⟨source, hsource, rfl, hslice⟩⟩

/-- From one state, a place in a file has a definition if and only if the member it refers to can be
renamed; it is where the renaming finds the member declared, and the class found under the target's
name declares it there. -/
theorem definition_is_rename_target (hw : Reachable w) (path : FilePath) (offset : Nat) :
    (∀ location, (definitionAt? path offset w).1 = some location ↔
      ∃ target, (prepareRename path offset w).1 = .ok target ∧
        location = ⟨target.path, target.span.start⟩) ∧
      ∀ target, (prepareRename path offset w).1 = .ok target →
        ∃ c, (class? target.className w).1 = some c ∧ target.IsDeclaredIn c := by
  refine ⟨fun location => ?_, fun target htarget => ?_⟩
  · rw [definitionAt?_fst, Option.bind_eq_some_iff]
    simp only [place_eq_some_iff, prepareRename_eq_ok_iff]
    constructor
    · rintro ⟨⟨c, m⟩, hreferent, target, htarget, hlocation⟩
      exact ⟨target, ⟨c, m, hreferent, htarget⟩, hlocation⟩
    · rintro ⟨target, ⟨c, m, hreferent, htarget⟩, hlocation⟩
      exact ⟨(c, m), hreferent, target, htarget, hlocation⟩
  · obtain ⟨c, m, hreferent, htarget⟩ := prepareRename_eq_ok_iff.1 htarget
    obtain ⟨hclass, hmember⟩ := classNamed?_of_referent? hw.orderly.filed hreferent
    have hdeclared := isDeclaredIn_of_targetOf? (hw.madeOfScripts.classNamed? hclass) hmember htarget
    refine ⟨c, ?_, hdeclared⟩
    rw [class?_fst, ← hdeclared.class_name]
    exact hclass

theorem definition_is_rename_target_sample :
    ∃ target, (prepareRename ⟨"/app/C.view.xml"⟩ 37 sampleNamed).1 = .ok target ∧
      (definitionAt? ⟨"/app/C.view.xml"⟩ 37 sampleNamed).1 = some ⟨target.path, target.span.start⟩ ∧
      target.span = ⟨28, 30⟩ ∧
      ∃ c, (class? target.className sampleNamed).1 = some c ∧ target.IsDeclaredIn c := by
  have hspan : ((prepareRename ⟨"/app/C.view.xml"⟩ 37 sampleNamed).1.toOption.map RenameTarget.span) =
      some ⟨28, 30⟩ := by
    decide +kernel
  have hreachable := sampleNamed_reachable
  generalize sampleNamed = w at *
  obtain ⟨hlocation, hdeclared⟩ := definition_is_rename_target hreachable ⟨"/app/C.view.xml"⟩ 37
  cases hprepared : (prepareRename ⟨"/app/C.view.xml"⟩ 37 w).1 with
  | error _ =>
    rw [hprepared] at hspan
    cases hspan
  | ok target =>
    rw [hprepared] at hspan
    exact ⟨target, rfl, (hlocation _).2 ⟨target, hprepared, rfl⟩, Option.some.inj hspan,
      hdeclared target hprepared⟩

end UiWorkspace.Workspace
