import UiWorkspace.Proofs.Workspace.Classes
import UiWorkspace.Proofs.Workspace.Requests
import UiWorkspace.Scan.Run

/-! The states that a workspace can get into, and what holds in all of them: classes are filed
under their names and documents stand in the order of their paths. -/
namespace UiWorkspace.Workspace

open UiWorkspace.Markup
open UiWorkspace.Script

/-- What a workspace can be asked. -/
inductive Request where
  | lookUp (className : String)
  | document (path : FilePath)
  | fragment (name : String)
  | member (className name : String)
  | controller (path : FilePath)
  | documentsOf (controller : String)
  | control (controller id : String)
  | handlers (className : String)
  | handlerEdits (className name newName : String)
  | typeOf (kind : MemberKind) (className name : String)
  | memberType (className name : String)
  | typeAt (className : String) (offset : Nat)
  | chainType (className : String) (chain : Chain) (offset : Nat)
  | access (className : String) (offset : Nat)
  | members (className : String)
  | definition (path : FilePath) (offset : Nat)
  | prepareRename (path : FilePath) (offset : Nat)
  | rename (target : RenameTarget) (newName : String)

def Request.leave (w : Workspace) : Request → Workspace
  | lookUp className => (Workspace.class? className w).2
  | document path => (Workspace.document? path w).2
  | fragment name => (Workspace.fragmentNamed? name w).2
  | member className name => (Workspace.findMember className name w).2
  | controller path => (Workspace.controllerAt? path w).2
  | documentsOf owner => (Workspace.documentsOfController owner w).2
  | control owner id => (Workspace.controlClass? owner id w).2
  | handlers className => (Workspace.eventHandlers className w).2
  | handlerEdits className name newName => (Workspace.handlerEdits className name newName w).2
  | typeOf kind className name => (Workspace.typeOfMember kind className name w).2
  | memberType className name => (Workspace.memberType className name w).2
  | typeAt className offset => (Workspace.typeAt className offset w).2
  | chainType className chain offset => (Workspace.chainType className chain offset w).2
  | access className offset => (Workspace.accessAt? className offset w).2
  | members className => (Workspace.membersOf? className w).2
  | definition path offset => (Workspace.definitionAt? path offset w).2
  | prepareRename path offset => (Workspace.prepareRename path offset w).2
  | rename target newName => (Workspace.rename target newName w).2

/-- The states between two dealings with a workspace. Files may change at any time. -/
inductive Reachable : Workspace → Prop
  | opened (settings : Settings) (source : Source) (metadata? : Option String)
      (cache : Catalog.CacheFiles) : Reachable (new settings source metadata? cache)
  | filesChanged {w : Workspace} (source : Source) : Reachable w → Reachable { w with source := source }
  | scanned {w : Workspace} (stopAfter? : Option Nat) (roots : List FilePath) :
      Reachable w → Reachable (Scan.scan stopAfter? roots w).2
  | notified {w : Workspace} (event : Event) : Reachable w → Reachable (handle event w).2
  | asked {w : Workspace} (request : Request) : Reachable w → Reachable (request.leave w)

theorem Indistinguishable.leave {I : Workspace → Prop} (C : Indistinguishable (Kept I))
    {w : Workspace} (hw : I w) (request : Request) : I (request.leave w) := by
  cases request with
  | lookUp className => exact (C.class? className).keeps hw
  | document path => exact (C.document? path).keeps hw
  | fragment name => exact (C.fragmentNamed? name).keeps hw
  | member className name => exact (C.findMember className name).keeps hw
  | controller path => exact (C.controllerAt? path).keeps hw
  | documentsOf controller => exact (C.documentsOfController controller).keeps hw
  | control controller id => exact (C.controlClass? controller id).keeps hw
  | handlers className => exact (C.eventHandlers className).keeps hw
  | handlerEdits className name newName => exact (C.handlerEdits className name newName).keeps hw
  | typeOf kind className name => exact (C.typeOfMember kind className name).keeps hw
  | memberType className name => exact (C.memberType className name).keeps hw
  | typeAt className offset => exact (C.typeAt className offset).keeps hw
  | chainType className chain offset => exact (C.chainType className chain offset).keeps hw
  | access className offset => exact (C.accessAt? className offset).keeps hw
  | members className => exact (C.membersOf? className).keeps hw
  | definition path offset => exact (C.definitionAt? path offset).keeps hw
  | prepareRename path offset => exact (C.prepareRename path offset).keeps hw
  | rename target newName => exact (C.rename target newName).keeps hw

theorem Stable.indistinguishable {I : Workspace → Prop} (S : Stable I)
    (hset : ∀ w types, I w → I { w with types := types }) : Indistinguishable (Kept I) :=
  S.congruence.indistinguishable (fun _ _ h => h.1 ▸ rfl) fun w _ types h =>
    ⟨h.1 ▸ rfl, hset w types h.2⟩

theorem known_or_new (classes : List (String × ClassDefinition)) (name : String) (path : FilePath)
    (text : String) : (∃ c, classes.lookup name = some c ∧ isMadeOf c path text = true) ∨
      ∀ c, classes.lookup name = some c → isMadeOf c path text = false := by
  by_cases hknown : ∃ c, classes.lookup name = some c ∧ isMadeOf c path text = true
  · exact .inl hknown
  · exact .inr fun c hc => Bool.eq_false_iff.2 fun hmade => hknown ⟨c, hc, hmade⟩

theorem setScript_known {name : String} {path : FilePath} {text : String} {w : Workspace}
    {c : ClassDefinition} (hc : w.classes.lookup name = some c) (hmade : isMadeOf c path text = true) :
    setScript name path text w = ((c, false), w) := by
  unfold setScript
  rw [bind_run, get_run]
  dsimp only
  rw [hc, Option.filter_some, if_pos hmade]
  rfl

theorem setScript_new {name : String} {path : FilePath} {text : String} {w : Workspace}
    (hnew : ∀ c, w.classes.lookup name = some c → isMadeOf c path text = false) :
    setScript name path text w = ((ClassDefinition.ofScript name path text, true),
      Workspace.putClass { w with builds := w.builds + 1 } (ClassDefinition.ofScript name path text)) := by
  have hfilter : ((w.classes.lookup name).filter fun c => isMadeOf c path text) = none :=
    Option.filter_eq_none_iff.2 fun c hc => by rw [hnew c hc]; exact Bool.false_ne_true
  unfold setScript
  rw [bind_run, get_run]
  dsimp only
  rw [hfilter]
  rfl

theorem setScript_run (name : String) (path : FilePath) (text : String) (w : Workspace) :
    (∃ c, w.classes.lookup name = some c ∧ setScript name path text w = ((c, false), w)) ∨
      ∃ builds, setScript name path text w = ((ClassDefinition.ofScript name path text, true),
        Workspace.putClass { w with builds := builds } (ClassDefinition.ofScript name path text)) := by
  rcases known_or_new w.classes name path text with ⟨c, hc, hmade⟩ | hnew
  · exact .inl ⟨c, hc, setScript_known hc hmade⟩
  · exact .inr ⟨w.builds + 1, setScript_new hnew⟩

theorem applyContent_script {path : FilePath} (hpath : FileRole.ofPath path = .script)
    (content? : Option String) : applyContent path content? = applyScript path content? := by
  unfold applyContent
  rw [hpath]

theorem applyContent_markup {path : FilePath} {kind : DocumentKind}
    (hpath : FileRole.ofPath path = .markup kind) (content? : Option String) (w : Workspace) :
    applyContent path content? w = (.ok (), (applyMarkup path content? w).2) := by
  unfold applyContent
  rw [hpath]
  rfl

theorem read_of_textOr {w : Workspace} {path : FilePath} {text : String}
    (h : w.textOr path none = .ok text) : w.source.read path = .ok text := by
  unfold textOr readFile at h
  cases hread : w.source.read path with
  | error fault =>
    rw [hread] at h
    cases h
  | ok content =>
    rw [hread] at h
    cases h
    rfl

section

variable {w : Workspace} {path : FilePath} {name text : String} {content? : Option String}

theorem applyScript_known (hname : w.className? path = some name)
    (htext : w.textOr path content? = .ok text) {c : ClassDefinition}
    (hc : w.classes.lookup name = some c) (hmade : isMadeOf c path text = true) :
    applyScript path content? w = (.ok (), w) := by
  unfold applyScript
  simp only [bind_run, get_run, hname, htext, setScript_known hc hmade]
  rfl

theorem applyScript_new (hname : w.className? path = some name)
    (htext : w.textOr path content? = .ok text)
    (hnew : ∀ c, w.classes.lookup name = some c → isMadeOf c path text = false) :
    applyScript path content? w = (.ok (), (Workspace.putClass { w with builds := w.builds + 1 }
      (ClassDefinition.ofScript name path text)).forgetDerived name) := by
  unfold applyScript
  simp only [bind_run, get_run, hname, htext, setScript_new hnew]
  rfl

theorem applyScript_run (hname : w.className? path = some name) (content? : Option String) :
    (∃ fault, w.textOr path content? = .error fault ∧
        applyScript path content? w = (.error fault, w)) ∨
      (∃ c, w.classes.lookup name = some c) ∧ applyScript path content? w = (.ok (), w) ∨
      ∃ text builds, w.textOr path content? = .ok text ∧ applyScript path content? w =
        (.ok (), (Workspace.putClass { w with builds := builds }
          (ClassDefinition.ofScript name path text)).forgetDerived name) := by
  cases htext : w.textOr path content? with
  | error fault =>
    refine .inl ⟨fault, rfl, ?_⟩
    unfold applyScript
    simp only [bind_run, get_run, hname, htext]
    rfl
  | ok text =>
    rcases known_or_new w.classes name path text with ⟨c, hc, hmade⟩ | hnew
    · exact .inr (.inl ⟨⟨c, hc⟩, applyScript_known hname htext hc hmade⟩)
    · exact .inr (.inr ⟨text, w.builds + 1, rfl, applyScript_new hname htext hnew⟩)

end

theorem applyScript_state (path : FilePath) (content? : Option String) (w : Workspace) :
    (applyScript path content? w).2 = w ∨ ∃ name text builds, w.className? path = some name ∧
      w.textOr path content? = .ok text ∧ (applyScript path content? w).2 =
        (Workspace.putClass { w with builds := builds }
          (ClassDefinition.ofScript name path text)).forgetDerived name := by
  cases hname : w.className? path with
  | none =>
    left
    unfold applyScript
    simp only [bind_run, get_run, hname]
    rfl
  | some name =>
    rcases applyScript_run hname content? with ⟨_, _, hrun⟩ | ⟨_, hrun⟩ | ⟨text, builds, htext, hrun⟩
    · exact .inl (by rw [hrun])
    · exact .inl (by rw [hrun])
    · exact .inr ⟨name, text, builds, rfl, htext, by rw [hrun]⟩

theorem invalidated_sublist (controllers : List String) (memo : TypeMemo) :
    (controllers.foldl TypeMemo.invalidate memo).Sublist memo := by
  induction controllers generalizing memo with
  | nil => exact List.Sublist.refl memo
  | cons controller controllers ih => exact (ih _).trans List.filter_sublist

theorem SearchAlike.keptController {Q : Workspace → Workspace → Prop}
    (C : SearchAlike (fun _ => True) Q) (path : FilePath) : Respects Q (keptController path) := by
  apply Respects.get_bind
  · intro w v h
    unfold cachedDocument?
    rw [C.documents h]
  · intro w
    split
    · exact (C.controllerOf? fun _ _ => trivial).bind fun _ => .ret _
    · exact .ret _

theorem applyMarkup_run {path : FilePath} {content? : Option String} {w u v : Workspace} {d : Document}
    {before after : List String} (hbefore : keptController path w = (before, u))
    (hfound : (match content? with
      | some text => setDocument path text
      | none => loadDocument path) u = (some d, u.putDocument d))
    (hafter : keptController path (u.putDocument d) = (after, v)) :
    (applyMarkup path content? w).2 = v.markupChanged (before ++ after) := by
  unfold applyMarkup
  rw [bind_run, hbefore]
  cases content? with
  | some text =>
    simp only [bind_run, hfound, Option.isNone_some, Bool.false_eq_true, if_false, hafter]
    rfl
  | none =>
    simp only [bind_run, hfound, Option.isNone_some, Bool.false_eq_true, if_false, hafter]
    rfl

/-- An invariant that no step of a change of markup breaks, as long as the source has the markup. -/
structure AdmitsMarkup (I : Workspace → Prop) : Prop where
  probe (w : Workspace) (path : FilePath) : I w → I { w with probes := path :: w.probes }
  load (w : Workspace) (path : FilePath) : I w → I (w.keeping (w.stored? path))
  dropDocument (w : Workspace) (path : FilePath) : I w → I (w.dropDocument path)
  markupChanged (w : Workspace) (controllers : List String) : I w → I (w.markupChanged controllers)

namespace AdmitsMarkup

variable {I : Workspace → Prop} (S : AdmitsMarkup I)

include S

theorem keptController (path : FilePath) : Respects (Kept I) (keptController path) :=
  have halike : ControllersAlike (Kept I) := .kept S.probe fun w d h _ hstored => by
    have hload := S.load w d.path h
    rw [hstored] at hload
    exact hload
  halike.searchAlike.keptController path

theorem loadDocument (path : FilePath) : Respects (Kept I) (loadDocument path) :=
  .kept fun w h => by
    rw [loadDocument_run]
    exact S.load w path h

theorem loadDocuments (paths : List FilePath) : Respects (Kept I) (loadDocuments paths) := by
  induction paths with
  | nil => exact .ret _
  | cons path paths ih => exact ((S.loadDocument path).bind fun _ => .ret _).bind fun _ => ih

theorem applyMarkup (path : FilePath) (content? : Option String)
    (hgiven : ∀ text, content? = some text → Respects (Kept I) (setDocument path text)) :
    Respects (Kept I) (applyMarkup path content?) := by
  apply (S.keptController path).bind
  intro before
  -- What comes after the document is the same whether it was given or loaded.
  have hrest : ∀ found? : Option Document, Respects (Kept I) (do
      if found?.isNone then modify (Workspace.dropDocument · path)
      let after ← Workspace.keptController path
      modify (Workspace.markupChanged · (before ++ after))) := by
    intro found?
    have hafter : Respects (Kept I) (do
        let after ← Workspace.keptController path
        modify (Workspace.markupChanged · (before ++ after))) :=
      (S.keptController path).bind fun _ => .kept fun w h => S.markupChanged w _ h
    split
    · exact Respects.bind (.kept fun w h => S.dropDocument w path h) fun _ => hafter
    · exact hafter
  cases content? with
  | some text => exact (hgiven text rfl).bind hrest
  | none => exact (S.loadDocument path).bind hrest

theorem forgetMarkup (path : FilePath) : Respects (Kept I) (do
    let before ← Workspace.keptController path
    modify fun w => (w.dropDocument path).markupChanged before) :=
  (S.keptController path).bind fun _ => .kept fun w h =>
    S.markupChanged _ _ (S.dropDocument w path h)

end AdmitsMarkup

/-- A notice that a file has new content or is gone. -/
inductive Concerns (path : FilePath) : Event → Prop
  | changed (content : String) : Concerns path (.changed path content)
  | opened (content : String) : Concerns path (.opened path content)
  | created : Concerns path (.created path)
  | deleted : Concerns path (.deleted path)

/-- `u` knows the same classes as `w` and has no types that `w` has not. -/
structure SameModels (w u : Workspace) : Prop where
  settings : u.settings = w.settings
  source : u.source = w.source
  manifests : u.manifests = w.manifests
  catalog : u.catalog = w.catalog
  classes : u.classes = w.classes
  types : u.types ⊆ w.types

namespace SameModels

variable {w u : Workspace}

theorem refl (w : Workspace) : SameModels w w := ⟨rfl, rfl, rfl, rfl, rfl, List.Subset.refl _⟩

theorem classNamed? (h : SameModels w u) (name : String) : w.classNamed? name = u.classNamed? name :=
  classNamed?_congr h.source.symm h.manifests.symm h.catalog.symm (h.classes ▸ rfl)

theorem keeping (h : SameModels w u) (found? : Option Document) : SameModels w (u.keeping found?) :=
  of_keeping h (fun _ => ⟨h.settings, h.source, h.manifests, h.catalog, h.classes, h.types⟩) found?

theorem admitsMarkup (w : Workspace) : AdmitsMarkup (SameModels w) where
  probe _ _ h := ⟨h.settings, h.source, h.manifests, h.catalog, h.classes, h.types⟩
  load _ _ h := h.keeping _
  dropDocument _ _ h := ⟨h.settings, h.source, h.manifests, h.catalog, h.classes, h.types⟩
  markupChanged _ _ h := ⟨h.settings, h.source, h.manifests, h.catalog, h.classes,
    fun _ hentry => h.types ((invalidated_sublist _ _).subset hentry)⟩

theorem handle {path : FilePath} {kind : DocumentKind} (hpath : FileRole.ofPath path = .markup kind)
    {event : Event} (hevent : Concerns path event) (w : Workspace) :
    SameModels w (handle event w).2 := by
  have happly : ∀ content?, SameModels w (applyContent path content? w).2 := by
    intro content?
    rw [applyContent_markup hpath]
    refine ((admitsMarkup w).applyMarkup path content? fun text _ => .kept fun u h => ?_).keeps (refl w)
    rw [setDocument_run]
    exact h.keeping _
  cases hevent with
  | changed content => exact happly _
  | opened content => exact happly _
  | created => exact happly _
  | deleted =>
    change SameModels w (forget path w).2
    unfold forget
    rw [hpath]
    exact ((admitsMarkup w).forgetMarkup path).keeps (refl w)

end SameModels

/-- An invariant that no step of taking any file in breaks, as long as the source has it. -/
structure Admits (I : Workspace → Prop) : Prop extends AdmitsMarkup I where
  addManifest (w : Workspace) (manifest : Manifest) : I w → I (w.addManifest manifest)
  removeManifest (w : Workspace) (path : FilePath) : I w → I (w.removeManifest path)
  resetModels (w : Workspace) : I w → I w.resetModels
  putBuilt (w : Workspace) (name : String) (path : FilePath) (text : String) (builds : Nat) : I w →
    I (Workspace.putClass { w with builds := builds } (ClassDefinition.ofScript name path text))
  forgetDerived (w : Workspace) (className : String) : I w → I (w.forgetDerived className)

namespace Admits

variable {I : Workspace → Prop} (S : Admits I)

include S

theorem registerManifest (path : FilePath) (text : String) :
    Respects (Kept I) (registerManifest path text) := by
  unfold Workspace.registerManifest
  split
  · exact Respects.bind (.kept fun w h => S.addManifest w _ h) fun _ => .ret _
  · exact Respects.bind (.kept fun w h => S.removeManifest w path h) fun _ => .ret _

theorem setScript (name : String) (path : FilePath) (text : String) :
    Respects (Kept I) (setScript name path text) :=
  .kept fun w h => by
    rcases setScript_run name path text w with ⟨_, _, hrun⟩ | ⟨builds, hrun⟩
    · rw [hrun]
      exact h
    · rw [hrun]
      exact S.putBuilt w name path text builds h

theorem applyManifest (path : FilePath) (content? : Option String) :
    Respects (Kept I) (applyManifest path content?) := by
  apply Respects.get_kept
  intro w
  split
  · exact .ret _
  · apply ((S.registerManifest path _).bind fun _ => .ret _).bind
    intro _
    exact Respects.bind (.kept fun w h => S.resetModels w h) fun _ => .ret _

theorem applyScript (path : FilePath) (content? : Option String) :
    Respects (Kept I) (applyScript path content?) := by
  apply Respects.get_kept
  intro w
  split
  · exact .ret _
  next name _ =>
    apply Respects.get_kept
    intro w
    split
    · exact .ret _
    next text _ =>
      apply (S.setScript name path text).bind
      rintro ⟨_, rebuilt⟩
      cases rebuilt with
      | true => exact Respects.bind (.kept fun w h => S.forgetDerived w name h) fun _ => .ret _
      | false => exact .ret _

theorem applyContent (path : FilePath) (content? : Option String)
    (hgiven : ∀ text, content? = some text → Respects (Kept I) (setDocument path text)) :
    Respects (Kept I) (applyContent path content?) := by
  unfold Workspace.applyContent
  split
  · exact S.applyManifest path content?
  · exact (S.applyMarkup path content? hgiven).bind fun _ => .ret _
  · exact S.applyScript path content?
  · exact .ret _

end Admits

/-- An invariant that nothing that can happen to a workspace breaks. -/
structure Upheld (I : Workspace → Prop) : Prop extends Admits I where
  requests : Indistinguishable (Kept I)
  putDocument (w : Workspace) (d : Document) : I w → I (w.putDocument d)
  removeClass (w : Workspace) (name : String) : I w → I (w.removeClass name)
  clearCaches (w : Workspace) : I w → I (clearCaches w).2
  setSource (w : Workspace) (source : Source) : I w → I { w with source := source }

namespace Upheld

variable {I : Workspace → Prop} (U : Upheld I)

include U

theorem keeping {w : Workspace} (h : I w) (found? : Option Document) : I (w.keeping found?) :=
  of_keeping h (fun d => U.putDocument w d h) found?

theorem leave {w : Workspace} (h : I w) (request : Request) : I (request.leave w) :=
  U.requests.leave h request

theorem applyContent (path : FilePath) (content? : Option String) :
    Respects (Kept I) (applyContent path content?) :=
  U.toAdmits.applyContent path content? fun text _ => .kept fun w h => by
    rw [setDocument_run]
    exact U.keeping h _

theorem forget (path : FilePath) : Respects (Kept I) (forget path) := by
  unfold Workspace.forget
  split
  · exact .kept fun w h => U.resetModels _ (U.removeManifest w path h)
  · exact U.forgetMarkup path
  · apply Respects.get_kept
    intro w
    split
    next name _ => exact .kept fun w h => U.forgetDerived _ name (U.removeClass w name h)
    next => exact .ret _
  · exact .ret _

theorem handle (event : Event) : Respects (Kept I) (handle event) := by
  cases event with
  | changed path content => exact U.applyContent path _
  | opened path content => exact U.applyContent path _
  | created path => exact U.applyContent path _
  | deleted path => exact (U.forget path).bind fun _ => .ret _
  | renamed source target => exact (U.forget source).bind fun _ => U.applyContent target _
  | configurationChanged => exact Respects.bind (.kept U.clearCaches) fun _ => .ret _

theorem indexFile (phase : Scan.Phase) (path : FilePath) :
    Respects (Kept I) (Scan.indexFile phase path) := by
  have hdocument : Respects (Kept I) (Scan.indexDocument path) := by
    apply (U.loadDocument path).bind
    intro found?
    split <;> exact .ret _
  cases phase with
  | manifests =>
    have hload : Respects (Kept I) (loadManifest path) := by
      apply Respects.get_kept
      intro w
      split
      · exact U.registerManifest path _
      · exact .ret _
    apply hload.bind
    intro result
    split <;> exact .ret _
  | fragments => exact hdocument
  | views => exact hdocument
  | scripts =>
    apply Respects.get_kept
    intro w
    split
    · exact .ret _
    · apply Respects.get_kept
      intro w
      split
      · exact .ret _
      · exact ((U.setScript _ path _).bind fun _ => .ret _).bind fun _ => .ret _

theorem runFiles (stopAfter? : Option Nat) (phase : Scan.Phase) (course : Scan.Course)
    (paths : List FilePath) : Respects (Kept I) (Scan.runFiles stopAfter? phase course paths) := by
  induction paths generalizing course with
  | nil => exact .ret _
  | cons path paths ih =>
    unfold Scan.runFiles
    split
    · exact .ret _
    · exact (U.indexFile phase path).bind fun _ => ih _

theorem runPhases (stopAfter? : Option Nat) (course : Scan.Course)
    (phases : List (Scan.Phase × List FilePath)) :
    Respects (Kept I) (Scan.runPhases stopAfter? course phases) := by
  induction phases generalizing course with
  | nil => exact .ret _
  | cons entry rest ih =>
    obtain ⟨phase, paths⟩ := entry
    apply (U.runFiles stopAfter? phase _ paths).bind
    intro course
    split
    · exact .ret _
    · split
      · exact Respects.bind (.kept fun w h => U.resetModels w h) fun _ => ih course
      · exact ih course

/-- What holds of every workspace that is just open holds in every state that a workspace gets
into. -/
theorem holds (hnew : ∀ settings source metadata? cache, I (new settings source metadata? cache))
    {w : Workspace} (hw : Reachable w) : I w := by
  induction hw with
  | opened settings source metadata? cache => exact hnew settings source metadata? cache
  | filesChanged source _ ih => exact U.setSource _ source ih
  | scanned stopAfter? roots _ ih =>
    refine Respects.keeps ?_ ih
    apply Respects.get_kept
    intro w
    exact (U.runPhases stopAfter? _ _).bind fun _ => .ret _
  | notified event _ ih => exact (U.handle event).keeps ih
  | asked request _ ih => exact U.leave ih request

end Upheld

/-- An invariant of the known classes and the kept documents that none of the ways in which these
come and go breaks. -/
structure Lasting (I : Workspace → Prop) : Prop where
  congr {w v : Workspace} : I w → v.classes = w.classes → v.documents = w.documents → I v
  putClass (w : Workspace) (c : ClassDefinition) : MadeOfScript c → I w → I (w.putClass c)
  removeClass (w : Workspace) (name : String) : I w → I (w.removeClass name)
  clearClasses (w : Workspace) : I w → I w.clearClasses
  putDocument (w : Workspace) (d : Document) : I w → I (w.putDocument d)
  dropDocument (w : Workspace) (path : FilePath) : I w → I (w.dropDocument path)
  clearDocuments (w : Workspace) : I w → I w.clearDocuments

namespace Lasting

variable {I : Workspace → Prop} (L : Lasting I)

include L

theorem stable : Stable I where
  probe _ _ h := L.congr h rfl rfl
  examine _ d h := of_examine (fun _ => L.congr h rfl rfl) d
  putDocument w d h _ _ := L.putDocument w d h
  setHandlers _ _ h := L.congr h rfl rfl
  class? w name h := by
    obtain ⟨probes, builds, hrun⟩ := class?_run name w
    rw [hrun]
    unfold classesWith
    split
    next c _ hmade => exact L.congr (L.putClass w c (madeOfScript_of_makes hmade) h) rfl rfl
    next => exact L.congr h rfl rfl

theorem admits : Admits I where
  probe := L.stable.probe
  load w _ h := of_keeping h (fun d => L.putDocument w d h) _
  dropDocument := L.dropDocument
  markupChanged _ _ h := L.congr h rfl rfl
  addManifest _ _ h := L.congr h rfl rfl
  removeManifest _ _ h := L.congr h rfl rfl
  resetModels w h := L.congr (L.clearClasses w h) rfl rfl
  putBuilt w name path text _ h :=
    L.congr (L.putClass w _ (madeOfScript_ofScript name path text) h) rfl rfl
  forgetDerived _ _ h := L.congr h rfl rfl

theorem clearCaches : Respects (Kept I) clearCaches := by
  apply Respects.bind (.kept fun w h => L.admits.resetModels w h)
  intro _
  apply Respects.get_kept
  intro w
  apply Respects.bind (.kept fun w h => L.clearDocuments w h)
  intro _
  apply (L.admits.loadDocuments _).bind
  intro _
  exact .kept fun w h => L.congr h rfl rfl

theorem upheld : Upheld I where
  toAdmits := L.admits
  requests := L.stable.indistinguishable fun _ _ h => L.congr h rfl rfl
  putDocument := L.putDocument
  removeClass := L.removeClass
  clearCaches _ h := L.clearCaches.keeps h
  setSource _ _ h := L.congr h rfl rfl

theorem holds (hempty : ∀ w : Workspace, w.classes = [] → w.documents = [] → I w) {w : Workspace}
    (hw : Reachable w) : I w :=
  L.upheld.holds (fun _ _ _ _ => hempty _ rfl rfl) hw

end Lasting

structure Orderly (w : Workspace) : Prop where
  filed : w.FiledByName
  sorted : SortedByPath w.documents

theorem FiledByName.putClass {w : Workspace} (h : w.FiledByName) (c : ClassDefinition) :
    (w.putClass c).FiledByName := by
  intro name c' hc
  rcases lookup_putClass hc with ⟨hname, rfl⟩ | hc
  · exact hname.symm
  · exact h name c' hc

theorem FiledByName.removeClass {w : Workspace} (h : w.FiledByName) (removed : String) :
    (w.removeClass removed).FiledByName := by
  intro name c hc
  exact h name c (lookup_removeClass hc)

theorem Orderly.lasting : Lasting Orderly where
  congr h hclasses hdocuments := ⟨fun name c hc => h.filed name c (hclasses ▸ hc), hdocuments ▸ h.sorted⟩
  putClass _ c _ h := ⟨h.filed.putClass c, h.sorted⟩
  removeClass _ name h := ⟨h.filed.removeClass name, h.sorted⟩
  clearClasses _ h := ⟨nofun, h.sorted⟩
  putDocument _ d h := ⟨h.filed, h.sorted.insertDocument d⟩
  dropDocument _ _ h := ⟨h.filed, h.sorted.filter _⟩
  clearDocuments _ h := ⟨h.filed, List.Pairwise.nil⟩

theorem Reachable.orderly {w : Workspace} (h : Reachable w) : Orderly w :=
  Orderly.lasting.holds (fun _ hclasses hdocuments =>
    ⟨fun _ _ hc => by simp [hclasses] at hc, hdocuments ▸ List.Pairwise.nil⟩) h

theorem Learned.setTypes {base w : Workspace} (h : Learned base w) (types : TypeMemo) :
    Learned base { w with types := types } :=
  ⟨h.settings, h.source, h.manifests, h.catalog, h.classes, h.documents, h.kept, h.loaded⟩

theorem Learned.indistinguishable (base : Workspace) : Indistinguishable (Kept (Learned base)) :=
  (Learned.stable base).indistinguishable fun _ types h => h.setTypes types

end UiWorkspace.Workspace
