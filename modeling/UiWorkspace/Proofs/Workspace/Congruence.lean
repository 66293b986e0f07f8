import Mathlib.Data.List.Find
import UiWorkspace.Proofs.Workspace.Classes
import UiWorkspace.Workspace.Controls
import UiWorkspace.Workspace.Handlers

/-! States that the queries about classes, controllers, controls and handlers cannot tell
apart. A relation has to respect only the few ways in which queries read the state and keep
what they read; every query then respects it. -/
namespace UiWorkspace.Workspace

open UiWorkspace.Markup

/-- Related states hold the same files, manifests and documents, and stay related when the same
document is read in both. -/
structure ReadsAlike (Q : Workspace → Workspace → Prop) : Prop where
  source {w v : Workspace} : Q w v → w.source = v.source
  manifests {w v : Workspace} : Q w v → w.manifests = v.manifests
  documents {w v : Workspace} : Q w v → w.documents = v.documents
  probe {w v : Workspace} (path : FilePath) : Q w v →
    Q { w with probes := path :: w.probes } { v with probes := path :: v.probes }
  putDocument {w v : Workspace} (d : Document) : Q w v → w.cachedDocument? d.path = none →
    w.stored? d.path = some d → Q (w.putDocument d) (v.putDocument d)

structure ControllersAlike (Q : Workspace → Workspace → Prop) : Prop extends ReadsAlike Q where
  names {w v : Workspace} : Q w v → w.projectClassNames = v.projectClassNames
  known {w v : Workspace} {name : String} : Q w v → name ∈ v.projectClassNames →
    w.classes.lookup name = v.classes.lookup name

structure ControlsAlike (Q : Workspace → Workspace → Prop) : Prop extends ReadsAlike Q where
  examine (d : Document) : Respects Q (examine d)
  class? (name : String) : Respects Q (class? name)

structure MembersAlike (Q : Workspace → Workspace → Prop) : Prop where
  settings {w v : Workspace} : Q w v → w.settings = v.settings
  examine (d : Document) : Respects Q (examine d)
  class? (name : String) : Respects Q (class? name)

structure ScriptsAlike (Q : Workspace → Workspace → Prop) : Prop extends
    ControlsAlike Q, MembersAlike Q

/-- Related states agree on all that is worked out from files but the types. -/
structure Congruence (Q : Workspace → Workspace → Prop) : Prop extends
    ControllersAlike Q, ScriptsAlike Q where
  eventHandlers (className : String) : Respects Q (eventHandlers className)

/-- As far as only documents of the given `names` are looked for, related states have the same
controllers. -/
structure SearchAlike (names : String → Prop) (Q : Workspace → Workspace → Prop) : Prop where
  manifests {w v : Workspace} : Q w v → w.manifests = v.manifests
  documents {w v : Workspace} : Q w v → w.documents = v.documents
  extendedController? (extensions : List (Manifest × ViewExtension)) :
    Respects Q (extendedController? extensions)
  mentioningClass? {w v : Workspace} {name : String} : Q w v → names name →
    w.mentioningClass? name = v.mentioningClass? name
  named {w v : Workspace} {d : Document} {name : String} : Q w v → d ∈ w.fragments →
    w.className? d.path = some name → names name

variable {Q : Workspace → Workspace → Prop}

theorem Respects.extendedController?
    (hheld : ∀ {w v : Workspace}, Q w v → ∀ name, w.heldPath? name .view = v.heldPath? name .view)
    (hsource : ∀ name, Respects Q (Workspace.sourcePath? name .view))
    (hview : ∀ {w v : Workspace} {name : String} {path : FilePath}, Q w v →
      w.heldPath? name .view = some path → (Workspace.document? path w).1 = (Workspace.document? path v).1 ∧
        Q (Workspace.document? path w).2 (Workspace.document? path v).2)
    (extensions : List (Manifest × ViewExtension)) :
    Respects Q (Workspace.extendedController? extensions) := by
  induction extensions with
  | nil => exact .ret none
  | cons entry rest ih =>
    obtain ⟨manifest, extension⟩ := entry
    intro w v h
    have hsearched := (hsource extension.view w v h).2
    obtain ⟨probes, hw⟩ := sourcePath?_run extension.view .view w
    obtain ⟨probes', hv⟩ := sourcePath?_run extension.view .view v
    rw [hw, hv] at hsearched
    unfold Workspace.extendedController?
    simp only [bind_run, hw, hv, ← hheld h]
    cases hpath : w.heldPath? extension.view .view with
    | none =>
      refine Respects.bind (.ret none) (fun view? => ?_) _ _ hsearched
      split
      · exact .ret _
      · exact ih
    | some path =>
      obtain ⟨hsame, hread⟩ := hview hsearched hpath
      dsimp only at hsame hread ⊢
      rw [bind_run, bind_run, hsame]
      refine (?_ : Respects Q _) _ _ hread
      split
      · exact .ret _
      · exact ih

namespace ReadsAlike

variable (C : ReadsAlike Q)

include C

theorem candidate? {w v : Workspace} (h : Q w v) : w.candidate? = v.candidate? :=
  candidate?_congr (C.manifests h)

theorem className? {w v : Workspace} (h : Q w v) : w.className? = v.className? :=
  className?_congr (C.manifests h)

theorem cachedDocument? {w v : Workspace} (h : Q w v) : w.cachedDocument? = v.cachedDocument? := by
  funext path
  unfold Workspace.cachedDocument?
  rw [C.documents h]

theorem firstHeld? (paths : List FilePath) : Respects Q (firstHeld? paths) := by
  induction paths with
  | nil => exact .ret none
  | cons path paths ih =>
    unfold Workspace.firstHeld?
    apply Respects.bind (.modify fun w v h => C.probe path h)
    intro _
    apply Respects.get_bind
    · intro w v h
      rw [C.source h]
    · intro w
      split
      · exact .ret _
      · exact ih

theorem sourcePath? (className : String) (kind : SourceKind) :
    Respects Q (sourcePath? className kind) := by
  apply Respects.get_bind
  · intro w v h
    rw [C.candidate? h]
  · intro w
    exact C.firstHeld? _

theorem document? (path : FilePath) : Respects Q (document? path) := by
  intro w v h
  have hstored : w.stored? path = v.stored? path := by
    unfold stored?
    rw [C.source h]
  rw [document?_run, document?_run, hstored, C.cachedDocument? h]
  cases hkept : v.cachedDocument? path with
  | some d => exact ⟨rfl, h⟩
  | none =>
    cases hfound : v.stored? path with
    | none => exact ⟨rfl, h⟩
    | some d =>
      have hpath := stored?_path hfound
      refine ⟨rfl, C.putDocument d h ?_ ?_⟩
      · rw [C.cachedDocument? h, hpath, hkept]
      · rw [hpath, hstored, hfound]

theorem fragmentNamed? (name : String) : Respects Q (fragmentNamed? name) := by
  apply Respects.get_bind
  · intro w v h
    rw [C.candidate? h, C.cachedDocument? h]
  · intro w
    split
    · exact .ret _
    · apply Respects.bind (C.sourcePath? name .fragment)
      intro path?
      cases path? with
      | none => exact .ret none
      | some path => exact C.document? path

theorem extendedController? (extensions : List (Manifest × ViewExtension)) :
    Respects Q (extendedController? extensions) := by
  refine .extendedController? (fun h name => ?_) (fun name => C.sourcePath? name .view)
    (fun h _ => C.document? _ _ _ h) extensions
  unfold heldPath?
  rw [C.candidate? h, C.source h]

theorem fragmentsNamed (names : List String) : Respects Q (fragmentsNamed names) := by
  induction names with
  | nil => exact .ret []
  | cons name names ih =>
    apply (C.fragmentNamed? name).bind
    intro found?
    exact ih.bind fun _ => .ret _

end ReadsAlike

namespace SearchAlike

variable {names : String → Prop} (C : SearchAlike names Q)

theorem firstController? {search : String → List String → Query (Option String × List String)}
    {fragments : List String} (hsearch : ∀ name ∈ fragments, ∀ visited, Respects Q (search name visited))
    (visited : List String) : Respects Q (firstController? search fragments visited) := by
  induction fragments generalizing visited with
  | nil => exact .ret _
  | cons name fragments ih =>
    unfold Workspace.firstController?
    apply Respects.bind (hsearch name List.mem_cons_self visited)
    intro result
    split
    · exact .ret _
    · exact ih (fun name hname => hsearch name (List.mem_cons_of_mem _ hname)) _

include C

theorem searchController? (visits : Nat) {fragment : String} (hfragment : names fragment)
    (visited : List String) : Respects Q (searchController? visits fragment visited) := by
  induction visits generalizing fragment visited with
  | zero => exact .ret _
  | succ visits ih =>
    unfold Workspace.searchController?
    split
    · exact .ret _
    · apply Respects.get_related
      · intro w v h
        unfold includingController? includingFragments views fragments
        rw [C.documents h, className?_congr (C.manifests h)]
      · intro w v h
        -- The fragments to go on with are in the state, so their names are among the given ones.
        have hincluding : ∀ name ∈ w.includingFragments fragment, names name := by
          intro name hname
          obtain ⟨d, hd, hpath⟩ := List.mem_filterMap.1 hname
          exact C.named h (List.mem_filter.1 hd).1 hpath
        split
        · exact .ret _
        · apply Respects.bind (firstController? (fun name hname => ih (hincluding name hname)) _)
          intro result
          split
          · exact .ret _
          · apply Respects.get_bind
            · intro w v h
              rw [C.mentioningClass? h hfragment]
            · intro w
              split
              · exact .ret _
              · apply Respects.get_bind
                · intro w v h
                  unfold extensionsWith
                  rw [C.manifests h]
                · intro w
                  exact (C.extendedController? _).bind fun _ => .ret _

theorem controllerOf? {d : Document}
    (hd : ∀ {w v : Workspace} {name : String}, Q w v → w.className? d.path = some name → names name) :
    Respects Q (controllerOf? d) := by
  unfold Workspace.controllerOf?
  split
  · exact .ret _
  · apply Respects.get_related
    · intro w v h
      rw [className?_congr (C.manifests h)]
    · intro w v h
      cases hname : w.className? d.path with
      | none => exact .ret none
      | some name =>
        apply Respects.bind _ fun _ => .ret _
        apply Respects.get_bind
        · intro w v h
          unfold fragments
          rw [C.documents h]
        · intro u
          exact C.searchController? _ (hd h hname) _

theorem withController {ds : List Document}
    (hds : ∀ d ∈ ds, ∀ {w v : Workspace} {name : String}, Q w v → w.className? d.path = some name →
      names name) : Respects Q (withController ds) := by
  induction ds with
  | nil => exact .ret []
  | cons d ds ih =>
    unfold Workspace.withController
    apply (C.controllerOf? (hds d List.mem_cons_self)).bind
    intro controller?
    apply (ih fun d hd => hds d (List.mem_cons_of_mem _ hd)).bind
    intro rest
    split <;> exact .ret _

end SearchAlike

namespace ControllersAlike

variable (C : ControllersAlike Q)

include C

theorem searchAlike : SearchAlike (fun _ => True) Q where
  manifests := C.manifests
  documents := C.documents
  extendedController? := C.extendedController?
  mentioningClass? h _ := by
    unfold Workspace.mentioningClass?
    rw [C.names h]
    apply List.find?_congr
    intro c hc
    rw [C.known h hc]
  named _ _ _ := trivial

theorem controllerOf? (d : Document) : Respects Q (controllerOf? d) :=
  C.searchAlike.controllerOf? fun _ _ => trivial

theorem controlledDocuments : Respects Q controlledDocuments := by
  apply Respects.get_bind
  · intro w v h
    rw [C.documents h]
  · intro w
    exact C.searchAlike.withController fun _ _ _ _ _ _ _ => trivial

theorem documentsOfController (controller : String) :
    Respects Q (documentsOfController controller) :=
  C.controlledDocuments.bind fun _ => .ret _

end ControllersAlike

namespace ControlsAlike

variable (C : ControlsAlike Q)

include C

theorem controlRoots (controller : String) : Respects Q (controlRoots controller) := by
  apply Respects.get_bind
  · intro w v h
    unfold viewsOfController views
    rw [C.documents h]
  · intro w
    apply (C.class? controller).bind
    intro found?
    split
    · exact .ret _
    · apply Respects.get_bind
      · intro w v h
        unfold fragments
        rw [C.documents h, C.className? h]
      · intro w
        exact .ret _

theorem searchControl? (id : String) (rounds : Nat) (seen : List FilePath) (queue : List Document) :
    Respects Q (searchControl? id rounds seen queue) := by
  induction rounds generalizing seen queue with
  | zero => exact .ret none
  | succ rounds ih =>
    unfold Workspace.searchControl?
    split
    · exact .ret none
    · apply (C.examine _).bind
      intro _
      split
      · exact .ret _
      · exact (C.fragmentsNamed _).bind fun included => ih _ _

theorem controlClass? (controller id : String) : Respects Q (controlClass? controller id) := by
  apply (C.controlRoots controller).bind
  intro roots
  apply Respects.get_bind
  · intro w v h
    unfold searchRounds
    rw [C.documents h, C.source h]
  · intro w
    exact C.searchControl? id _ _ _

end ControlsAlike

namespace ScriptsAlike

variable (C : ScriptsAlike Q)

include C

theorem classAt? (path : FilePath) : Respects Q (classAt? path) := by
  apply Respects.get_bind
  · intro w v h
    rw [C.className? h]
  · intro w
    cases w.className? path with
    | none => exact .ret none
    | some name => exact (C.class? name).bind fun _ => .ret _

end ScriptsAlike

namespace MembersAlike

variable (C : MembersAlike Q)

include C

omit C in
theorem findThrough {load : String → Query (Option ClassDefinition)}
    (hload : ∀ name, Respects Q (load name)) (rootClass member : String)
    {goOn : List String → String → Query Hierarchy.Walk}
    (hgoOn : ∀ visited name, Respects Q (goOn visited name)) (visited : List String)
    (name : String) : Respects Q (Hierarchy.findThrough load rootClass member goOn visited name) := by
  unfold Hierarchy.findThrough
  split
  · exact .ret _
  · apply Respects.bind (hload name)
    intro found?
    cases found? with
    | none => exact .ret _
    | some c =>
      dsimp only
      split
      · exact .ret _
      · split
        · split
          · exact .ret _
          · exact hgoOn _ _
        · exact .ret _

theorem findMember (name member : String) : Respects Q (findMember name member) := by
  have hfrom : ∀ rootClass hops visited name,
      Respects Q (Hierarchy.findFrom Workspace.class? rootClass member hops visited name) := by
    intro rootClass hops
    induction hops with
    | zero => exact findThrough C.class? rootClass member fun _ _ => .ret _
    | succ hops ih => exact findThrough C.class? rootClass member ih
  apply Respects.get_bind
  · intro w v h
    unfold limits
    rw [C.settings h]
  · intro w
    exact hfrom _ _ _ name

theorem bindsMethodOf (controller name className : String) :
    Respects Q (bindsMethodOf controller name className) := by
  apply (C.findMember controller name).bind
  intro walk
  split <;> exact .ret _

theorem addHandlers (className controller : String) (found names : List String) :
    Respects Q (addHandlers className controller found names) := by
  induction names generalizing found with
  | nil => exact .ret found
  | cons name names ih =>
    unfold Workspace.addHandlers
    split
    · exact ih found
    · apply (C.bindsMethodOf controller name className).bind
      intro binds
      cases binds with
      | true => exact ih _
      | false => exact ih found

theorem handlersIn (className : String) (found : List String) (entries : List (String × Document)) :
    Respects Q (handlersIn className found entries) := by
  induction entries generalizing found with
  | nil => exact .ret found
  | cons entry rest ih =>
    obtain ⟨controller, d⟩ := entry
    apply (C.examine d).bind
    intro _
    exact (C.addHandlers className controller found _).bind fun found => ih found

theorem handlerEditsIn (declaring name newName : String) (entries : List (String × Document)) :
    Respects Q (handlerEditsIn declaring name newName entries) := by
  induction entries with
  | nil => exact .ret []
  | cons entry rest ih =>
    obtain ⟨controller, d⟩ := entry
    apply (C.examine d).bind
    intro _
    dsimp only
    split
    · exact ih
    · apply (C.findMember controller name).bind
      intro walk
      exact ih.bind fun _ => .ret _

end MembersAlike

theorem Congruence.handlerEdits (C : Congruence Q) (declaring name newName : String) :
    Respects Q (handlerEdits declaring name newName) :=
  C.controlledDocuments.bind fun entries => C.handlerEditsIn declaring name newName entries

theorem Congruence.of_handlers (C : ControllersAlike Q) (S : ScriptsAlike Q)
    (hsame : ∀ {w v}, Q w v → w.handlers = v.handlers)
    (hset : ∀ {w v} handlers, Q w v → Q { w with handlers := handlers } { v with handlers := handlers }) :
    Congruence Q where
  toControllersAlike := C
  examine := S.examine
  class? := S.class?
  settings := S.settings
  eventHandlers className := by
    apply Respects.get_bind
    · intro w v h
      rw [hsame h]
    · intro w
      split
      · exact .ret _
      · apply C.controlledDocuments.bind
        intro entries
        apply (S.handlersIn className [] entries).bind
        intro found
        refine Respects.bind (.modify fun w v h => ?_) fun _ => .ret found
        rw [hsame h]
        exact hset _ h

section

variable {I : Workspace → Prop}
  (hprobe : ∀ w path, I w → I { w with probes := path :: w.probes })
  (hput : ∀ w d, I w → w.cachedDocument? d.path = none → w.stored? d.path = some d →
    I (w.putDocument d))

include hprobe hput

theorem ReadsAlike.kept : ReadsAlike (Kept I) where
  source h := h.1 ▸ rfl
  manifests h := h.1 ▸ rfl
  documents h := h.1 ▸ rfl
  probe path h := ⟨h.1 ▸ rfl, hprobe _ path h.2⟩
  putDocument d h hnone hstored := ⟨h.1 ▸ rfl, hput _ d h.2 hnone hstored⟩

theorem ControllersAlike.kept : ControllersAlike (Kept I) where
  toReadsAlike := .kept hprobe hput
  names h := h.1 ▸ rfl
  known h _ := h.1 ▸ rfl

theorem ControlsAlike.kept (hexamine : ∀ w d, I w → I (Workspace.examine d w).2)
    (hclass : ∀ w name, I w → I (Workspace.class? name w).2) : ControlsAlike (Kept I) where
  toReadsAlike := .kept hprobe hput
  examine d := .kept fun w => hexamine w d
  class? name := .kept fun w => hclass w name

end

theorem SearchAlike.kept {I : Workspace → Prop}
    (hprobes : ∀ w probes, I w → I { w with probes := probes })
    (hview : ∀ w name path, I w → w.heldPath? name .view = some path →
      I (Workspace.document? path w).2) : SearchAlike (fun _ => True) (Kept I) where
  manifests h := h.1 ▸ rfl
  documents h := h.1 ▸ rfl
  extendedController? := by
    refine .extendedController? (fun h _ => h.1 ▸ rfl) (fun name => .kept fun w h => ?_) ?_
    · obtain ⟨probes, hrun⟩ := sourcePath?_run name .view w
      rw [hrun]
      exact hprobes w probes h
    · rintro w _ name path ⟨rfl, h⟩ hheld
      exact ⟨rfl, rfl, hview w name path h hheld⟩
  mentioningClass? h _ := h.1 ▸ rfl
  named _ _ _ := trivial

/-- An invariant that what a query reads does not break. -/
structure Steady (I : Workspace → Prop) : Prop where
  probe (w : Workspace) (path : FilePath) : I w → I { w with probes := path :: w.probes }
  examine (w : Workspace) (d : Document) : I w → I (examine d w).2
  putDocument (w : Workspace) (d : Document) : I w → w.cachedDocument? d.path = none →
    w.stored? d.path = some d → I (w.putDocument d)
  class? (w : Workspace) (name : String) : I w → I (class? name w).2

structure Stable (I : Workspace → Prop) : Prop extends Steady I where
  setHandlers (w : Workspace) (handlers : List (String × List String)) : I w →
    I { w with handlers := handlers }

section

variable {I : Workspace → Prop}

theorem Steady.controllersAlike (S : Steady I) : ControllersAlike (Kept I) :=
  .kept S.probe S.putDocument

theorem Steady.scriptsAlike (S : Steady I) : ScriptsAlike (Kept I) :=
  ⟨.kept S.probe S.putDocument S.examine S.class?, fun h => h.1 ▸ rfl⟩

theorem Stable.congruence (S : Stable I) : Congruence (Kept I) :=
  .of_handlers S.controllersAlike S.scriptsAlike (fun h => h.1 ▸ rfl)
    fun handlers h => ⟨h.1 ▸ rfl, S.setHandlers _ handlers h.2⟩

end

theorem Learned.stable (base : Workspace) : Stable (Learned base) where
  probe _ _ h := ⟨h.settings, h.source, h.manifests, h.catalog, h.classes, h.documents, h.kept, h.loaded⟩
  examine _ d h := of_examine (fun _ =>
    ⟨h.settings, h.source, h.manifests, h.catalog, h.classes, h.documents, h.kept, h.loaded⟩) d
  putDocument _ _ h hnone hstored := h.putDocument hnone hstored
  setHandlers _ _ h := ⟨h.settings, h.source, h.manifests, h.catalog, h.classes, h.documents, h.kept, h.loaded⟩
  class? w name h := h.trans (Learned.class? name w)

theorem Learned.fragmentNamed? (name : String) (w : Workspace) :
    Learned w (Workspace.fragmentNamed? name w).2 :=
  ((Learned.stable w).congruence.fragmentNamed? name).keeps (Learned.refl w)

theorem Learned.controlClass? (controller id : String) (w : Workspace) :
    Learned w (Workspace.controlClass? controller id w).2 :=
  ((Learned.stable w).congruence.controlClass? controller id).keeps (Learned.refl w)

/-- The states hold the same files, manifests and documents, and a name leads to the same class
in both, whether it is known there or not. -/
structure SameView (w v : Workspace) : Prop where
  source : w.source = v.source
  manifests : w.manifests = v.manifests
  catalog : w.catalog = v.catalog
  documents : w.documents = v.documents
  classes (name : String) : w.classNamed? name = v.classNamed? name

namespace SameView

variable {w v : Workspace}

theorem examine (h : SameView w v) (d : Document) :
    SameView (Workspace.examine d w).2 (Workspace.examine d v).2 := by
  obtain ⟨_, hw⟩ := examine_run d w
  obtain ⟨_, hv⟩ := examine_run d v
  rw [hw, hv]
  exact ⟨h.source, h.manifests, h.catalog, h.documents, h.classes⟩

theorem class? (h : SameView w v) (name : String) :
    (Workspace.class? name w).1 = (Workspace.class? name v).1 ∧
      SameView (Workspace.class? name w).2 (Workspace.class? name v).2 := by
  have hw := Learned.class? name w
  have hv := Learned.class? name v
  refine ⟨by rw [class?_fst, class?_fst, h.classes], ?_, ?_, ?_, ?_, fun asked => ?_⟩
  · rw [hw.source, hv.source, h.source]
  · rw [hw.manifests, hv.manifests, h.manifests]
  · rw [hw.catalog, hv.catalog, h.catalog]
  · obtain ⟨_, _, hw⟩ := class?_run name w
    obtain ⟨_, _, hv⟩ := class?_run name v
    rw [hw, hv]
    exact h.documents
  · rw [hw.classNamed?, hv.classNamed?, h.classes]

theorem controlsAlike : ControlsAlike SameView where
  source h := h.source
  manifests h := h.manifests
  documents h := h.documents
  probe _ h := ⟨h.source, h.manifests, h.catalog, h.documents, h.classes⟩
  putDocument d h _ _ :=
    ⟨h.source, h.manifests, h.catalog, congrArg (insertDocument d) h.documents, h.classes⟩
  examine d _ _ h := ⟨rfl, h.examine d⟩
  class? name _ _ h := h.class? name

end SameView

theorem Learned.sameView {w v : Workspace} (h : Learned w v) (hdocuments : v.documents = w.documents) :
    SameView v w :=
  ⟨h.source, h.manifests, h.catalog, hdocuments, h.classNamed?⟩

end UiWorkspace.Workspace
