import Mathlib.Data.List.Basic
import UiWorkspace.Proofs.Typing.Lockstep
import UiWorkspace.Workspace.Rename

/-! States that no request can tell apart: neither one about types nor one about the member at
a place in a file, its definition or its new name. -/
namespace UiWorkspace.Workspace

open UiWorkspace.Markup
open UiWorkspace.Script

structure TypesAlike (Q : Workspace → Workspace → Prop) : Prop extends ScriptsAlike Q where
  typeOfMember (kind : MemberKind) (className name : String) :
    Respects Q (typeOfMember kind className name)
  nodeType (c : ClassDefinition) (n : Node) : Respects Q (nodeType c n)
  chainIn (c : ClassDefinition) (chain : Chain) (offset : Nat) :
    Respects Q (resolving fun settings => Typing.chainTypeIn settings c chain offset)

structure Indistinguishable (Q : Workspace → Workspace → Prop) : Prop extends
    Congruence Q, TypesAlike Q

section

variable {Q : Workspace → Workspace → Prop} (htypes : ∀ w v, Q w v → w.types = v.types)
  (hset : ∀ w v types, Q w v → Q { w with types := types } { v with types := types })

include htypes hset

theorem ScriptsAlike.typesAlike (C : ScriptsAlike Q) : TypesAlike Q := by
  have hlookalike : Typing.Lookalike Q fun _ => True :=
    { settings := C.settings
      types := htypes _ _
      setTypes := fun types h => hset _ _ types h
      class? := fun name _ => C.class? name
      control := fun controller id _ => C.controlClass? controller id }
  refine ⟨C, fun kind className name => ?_, fun c n => ?_, fun c chain offset => ?_⟩
  · exact Typing.respects_resolving hlookalike fun L settings =>
      Typing.lockstep_memberType L _ settings.maxResolutionDepth kind className name
  · exact Typing.respects_resolving hlookalike fun L settings =>
      Typing.lockstep_nodeType L ⟨settings.maxInheritanceHops, settings.rootClass⟩
        settings.maxResolutionDepth c n
  · exact Typing.respects_resolving hlookalike fun L settings =>
      Typing.lockstep_chainType L ⟨settings.maxInheritanceHops, settings.rootClass⟩
        settings.maxResolutionDepth c chain offset

theorem Congruence.indistinguishable (C : Congruence Q) : Indistinguishable Q :=
  let T := C.toScriptsAlike.typesAlike htypes hset
  ⟨C, T.typeOfMember, T.nodeType, T.chainIn⟩

end

section Subjects

variable (path : FilePath) (offset : Nat)

def subjectOf (reference? : Option (String × String)) : Except WorkspaceError (String × String) :=
  reference?.elim (.error (.nothingToRename path offset)) .ok

theorem scriptSubject_run (w : Workspace) : scriptSubject path offset w =
    (subjectOf path offset (scriptReference? path offset w).1, (scriptReference? path offset w).2) := by
  unfold scriptSubject scriptReference?
  rw [bind_run, bind_run]
  cases (classAt? path w).1 with
  | none => rfl
  | some c =>
    dsimp only [declaredAt?]
    cases c.members.find? fun m => m.declaration?.any fun span => span.touches offset with
    | some m => rfl
    | none =>
      dsimp only
      rw [bind_run, bind_run]
      cases (accessAt? c.name offset (classAt? path w).2).1 <;> rfl

theorem markupSubject_run (w : Workspace) : markupSubject path offset w =
    (subjectOf path offset (markupReference? path offset w).1, (markupReference? path offset w).2) := by
  unfold markupSubject markupReference?
  rw [bind_run, bind_run]
  cases (document? path w).1 with
  | none => rfl
  | some d =>
    dsimp only
    rw [bind_run, bind_run]
    cases d.handlers.find? fun r => r.span.touches offset with
    | none => rfl
    | some reference =>
      dsimp only
      rw [bind_run, bind_run]
      cases (controllerOf? d (examine d (document? path w).2).2).1 <;> rfl

/-- A renaming and the search for a definition find the same class and name at a place, and read the
same files for it. -/
theorem subjectAt_run (w : Workspace) : subjectAt path offset w =
    (subjectOf path offset (referenceAt? path offset w).1, (referenceAt? path offset w).2) := by
  unfold subjectAt referenceAt?
  cases FileRole.ofPath path with
  | script => exact scriptSubject_run path offset w
  | markup kind => exact markupSubject_run path offset w
  | manifest => rfl
  | other => rfl

theorem respects_subjectAt {Q : Workspace → Workspace → Prop} {path : FilePath} {offset : Nat}
    (h : Respects Q (referenceAt? path offset)) : Respects Q (subjectAt path offset) := by
  intro w v hwv
  obtain ⟨hanswer, hleft⟩ := h w v hwv
  rw [subjectAt_run, subjectAt_run, hanswer]
  exact ⟨rfl, hleft⟩

end Subjects

namespace TypesAlike

variable {Q : Workspace → Workspace → Prop} (C : TypesAlike Q)

include C

theorem memberType (className name : String) : Respects Q (memberType className name) := by
  apply (C.findMember className name).bind
  intro walk
  split
  · exact .ret none
  · split
    · exact .ret none
    · exact C.typeOfMember _ className name

theorem typeAt (className : String) (offset : Nat) : Respects Q (typeAt className offset) := by
  apply (C.class? className).bind
  intro found?
  split
  · exact .ret none
  · split
    · exact C.nodeType _ _
    · exact .ret none

theorem chainType (className : String) (chain : Chain) (offset : Nat) :
    Respects Q (chainType className chain offset) := by
  apply (C.class? className).bind
  intro found?
  split
  · exact .ret none
  · exact C.chainIn _ chain offset

theorem memberAccess? (c : ClassDefinition) (access : Node) : Respects Q (memberAccess? c access) := by
  unfold Workspace.memberAccess?
  split
  · apply (C.nodeType c _).bind
    intro type?
    split
    · exact .ret none
    · exact (C.findMember _ _).bind fun _ => .ret _
  · exact .ret none

theorem accessAt? (className : String) (offset : Nat) : Respects Q (accessAt? className offset) := by
  apply (C.class? className).bind
  intro found?
  split
  · exact .ret none
  · split
    · exact C.memberAccess? _ _
    · exact .ret none

theorem scriptReference? (path : FilePath) (offset : Nat) :
    Respects Q (scriptReference? path offset) := by
  apply (C.classAt? path).bind
  intro found?
  split
  · exact .ret none
  · split
    · exact .ret _
    · exact (C.accessAt? _ offset).bind fun _ => .ret _

theorem referenceAt?_script {path : FilePath} (hpath : FileRole.ofPath path = .script) (offset : Nat) :
    Respects Q (referenceAt? path offset) := by
  unfold Workspace.referenceAt?
  rw [hpath]
  exact C.scriptReference? path offset

theorem definitionAt?_of_reference {path : FilePath} {offset : Nat}
    (hreference : Respects Q (referenceAt? path offset)) :
    Respects Q (definitionAt? path offset) := by
  apply hreference.bind
  intro reference?
  split
  · exact .ret none
  · exact (C.findMember _ _).bind fun _ => .ret _

theorem prepareRename_of_reference {path : FilePath} {offset : Nat}
    (hreference : Respects Q (referenceAt? path offset)) :
    Respects Q (prepareRename path offset) := by
  apply (respects_subjectAt hreference).bind
  intro subject
  split
  · exact .ret _
  · apply (C.findMember _ _).bind
    intro walk
    dsimp only
    split <;> exact .ret _

end TypesAlike

namespace Indistinguishable

variable {Q : Workspace → Workspace → Prop} (C : Indistinguishable Q)

include C

theorem memberInfos (className : String) (handlers : List String) (members : List Member) :
    Respects Q (memberInfos className handlers members) := by
  induction members with
  | nil => exact .ret []
  | cons m ms ih =>
    apply (C.typeOfMember m.kind className m.name).bind
    intro type?
    exact ih.bind fun _ => .ret _

theorem membersOf? (className : String) : Respects Q (membersOf? className) := by
  apply (C.class? className).bind
  intro found?
  split
  · exact .ret none
  next c =>
    split
    · apply (C.eventHandlers className).bind
      intro handlers
      exact (C.memberInfos className handlers c.members).bind fun _ => .ret _
    · exact (Respects.ret []).bind fun handlers =>
        (C.memberInfos className handlers c.members).bind fun _ => .ret _

theorem markupReference? (path : FilePath) (offset : Nat) :
    Respects Q (markupReference? path offset) := by
  apply (C.document? path).bind
  intro found?
  split
  · exact .ret none
  next d =>
    apply (C.examine d).bind
    intro _
    split
    · exact .ret none
    · exact (C.controllerOf? d).bind fun _ => .ret _

theorem referenceAt? (path : FilePath) (offset : Nat) : Respects Q (referenceAt? path offset) := by
  unfold Workspace.referenceAt?
  split
  · exact C.markupReference? path offset
  · exact C.scriptReference? path offset
  · exact .ret none
  · exact .ret none

theorem definitionAt? (path : FilePath) (offset : Nat) : Respects Q (definitionAt? path offset) :=
  C.definitionAt?_of_reference (C.referenceAt? path offset)

theorem controllerAt? (path : FilePath) : Respects Q (controllerAt? path) := by
  apply (C.document? path).bind
  intro found?
  split
  · exact C.controllerOf? _
  · exact .ret none

theorem prepareRename (path : FilePath) (offset : Nat) : Respects Q (prepareRename path offset) :=
  C.prepareRename_of_reference (C.referenceAt? path offset)

theorem accessEdits (target : RenameTarget) (newName : String) (c : ClassDefinition)
    (path : FilePath) (accesses : List Node) :
    Respects Q (accessEdits target newName c path accesses) := by
  induction accesses with
  | nil => exact .ret []
  | cons n ns ih =>
    apply (C.memberAccess? c n).bind
    intro access?
    apply ih.bind
    intro rest
    split <;> exact .ret _

theorem scriptEdits (target : RenameTarget) (newName : String) (classes : List ClassDefinition) :
    Respects Q (scriptEdits target newName classes) := by
  induction classes with
  | nil => exact .ret []
  | cons c cs ih =>
    unfold Workspace.scriptEdits
    split
    · exact ih
    · apply (C.accessEdits target newName c _ _).bind
      intro edits
      exact ih.bind fun _ => .ret _

theorem rename (target : RenameTarget) (newName : String) : Respects Q (rename target newName) := by
  apply Respects.get_bind
  · intro w v h
    have hknown : w.projectClassNames.filterMap (fun name => w.classes.lookup name) =
        v.projectClassNames.filterMap fun name => v.classes.lookup name := by
      rw [C.names h]
      exact List.filterMap_congr fun name hname => C.known h hname
    simp only [hknown]
  · intro w
    apply (C.scriptEdits target newName _).bind
    intro inScripts
    exact (C.handlerEdits _ _ newName).bind fun _ => .ret _

end Indistinguishable

end UiWorkspace.Workspace
