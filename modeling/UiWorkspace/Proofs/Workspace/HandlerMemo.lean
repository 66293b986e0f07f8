import UiWorkspace.Proofs.Workspace.Reachable

/-! The remembered handlers. A notice forgets them; what a request reads on the way is not noticed. -/
namespace UiWorkspace.Workspace

open UiWorkspace.Markup

theorem ofPath?_eq_view {path : FilePath} {front : String} (h : path.text = front ++ ".view.xml") :
    DocumentKind.ofPath? path = some .view := by
  obtain ⟨lead, hname⟩ := FilePath.fileName?_append ".view.xml" (by decide) (by decide) front
  have hpath : path = ⟨front ++ ".view.xml"⟩ := by rw [← h]
  have hview := Text.endsWith_append lead ".view.xml"
  have hfragment : Text.endsWith ".fragment.xml" (lead ++ ".view.xml") = false := by
    simp [Text.endsWith, Text.before?, Text.after?]
  simp [DocumentKind.ofPath?, hpath, hname, hview, hfragment]

theorem ofPath?_of_heldPath? {w : Workspace} {name : String} {path : FilePath}
    (h : w.heldPath? name .view = some path) : DocumentKind.ofPath? path = some .view := by
  obtain ⟨ending, hending, hpath⟩ := List.mem_filterMap.1 (List.mem_of_find?_eq_some h)
  obtain rfl : ending = ".view.xml" := List.mem_singleton.1 hending
  obtain ⟨front, hfront⟩ := exists_text_of_candidate? hpath
  exact ofPath?_eq_view hfront

theorem kind_of_stored? {w : Workspace} {path : FilePath} {d : Document} {kind : DocumentKind}
    (h : w.stored? path = some d) (hpath : DocumentKind.ofPath? path = some kind) : d.kind = kind := by
  unfold stored? at h
  split at h
  · rw [Document.ofPath?, hpath, Option.map_some, Option.some.injEq] at h
    rw [← h]
    rfl
  · cases h

def mentioners (w : Workspace) (name : String) : List String :=
  w.projectNames.filter fun c =>
    ((w.classes.lookup c).bind ClassDefinition.source?).any fun s => mentions s.text name

theorem mem_mentioners {w : Workspace} {name c : String} :
    c ∈ w.mentioners name ↔ ∃ k s, w.classes.lookup c = some k ∧ k.source? = some s ∧
      mentions s.text name = true := by
  constructor
  · intro h
    obtain ⟨s, hs, hmentions⟩ := (Option.any_eq_true _ _).1 (List.mem_filter.1 h).2
    obtain ⟨k, hk, hs⟩ := Option.bind_eq_some_iff.1 hs
    exact ⟨k, s, hk, hs, hmentions⟩
  · rintro ⟨k, s, hk, hs, hmentions⟩
    have hname := mem_projectNames_of_lookup hk (by rw [ClassDefinition.isProject, hs]; rfl)
    exact List.mem_filter.2 ⟨hname, by simp [hk, hs, hmentions]⟩

theorem mentioningClass?_congr {w v : Workspace} {name : String}
    (h : ∀ c, c ∈ w.mentioners name ↔ c ∈ v.mentioners name) :
    w.mentioningClass? name = v.mentioningClass? name := by
  let sorted (u : Workspace) : List String := u.projectClassNames.filter fun c =>
    ((u.classes.lookup c).bind ClassDefinition.source?).any fun s => mentions s.text name
  have hfirst : ∀ u : Workspace, u.mentioningClass? name = (sorted u).head? := fun u =>
    (List.head?_filter ..).symm
  have hmem : ∀ (u : Workspace) c, c ∈ u.mentioners name ↔ c ∈ sorted u := fun u c =>
    ((List.mergeSort_perm u.projectNames _).filter _).mem_iff.symm
  have hw : (sorted w).Pairwise (· ≤ ·) := (pairwise_projectClassNames w).filter _
  have hv : (sorted v).Pairwise (· ≤ ·) := (pairwise_projectClassNames v).filter _
  simp only [hmem] at h
  rw [hfirst, hfirst]
  generalize sorted w = cs at h hw
  generalize sorted v = ds at h hv
  cases cs with
  | nil =>
    cases ds with
    | nil => rfl
    | cons d ds => cases (h d).2 List.mem_cons_self
  | cons c cs =>
    cases ds with
    | nil => cases (h c).1 List.mem_cons_self
    | cons d ds =>
      have hle : ∀ {a : String} {as : List String}, (a :: as).Pairwise (· ≤ ·) → ∀ b ∈ a :: as, a ≤ b := by
        intro a as has b hb
        rcases List.mem_cons.1 hb with rfl | hb
        · exact String.le_refl _
        · exact (List.pairwise_cons.1 has).1 b hb
      simp only [List.head?_cons, Option.some.injEq]
      exact String.le_antisymm (hle hw d ((h d).2 List.mem_cons_self)) (hle hv c ((h c).1 List.mem_cons_self))

theorem Learned.mentioners {w v : Workspace} (h : Learned w v) {name c : String}
    (hc : c ∈ w.mentioners name) : c ∈ v.mentioners name := by
  obtain ⟨k, s, hk, hs⟩ := mem_mentioners.1 hc
  refine mem_mentioners.2 ⟨k, s, ?_, hs⟩
  rcases h.classes c with hsame | ⟨hnone, -⟩
  · rw [hsame, hk]
  · rw [hnone] at hk
    cases hk

def IsDocumentName (w : Workspace) (name : String) : Prop :=
  ∃ d ∈ w.documents, w.className? d.path = some name

/-- The states have the same markup, and the same classes mention the documents that were kept in
the beginning. -/
structure SameSearch (base w v : Workspace) : Prop where
  manifests : w.manifests = base.manifests ∧ v.manifests = base.manifests
  documents : w.documents = v.documents
  held (name : String) : w.heldPath? name .view = v.heldPath? name .view
  stored {path : FilePath} : DocumentKind.ofPath? path = some .view → w.stored? path = v.stored? path
  mentioned {name : String} : base.IsDocumentName name →
    ∀ c, c ∈ w.mentioners name ↔ c ∈ v.mentioners name
  named {d : Document} {name : String} : d ∈ w.fragments → w.className? d.path = some name →
    base.IsDocumentName name

namespace SameSearch

variable {base : Workspace}

theorem putView {w v : Workspace} (h : SameSearch base w v) {d : Document} (hd : d.kind = .view) :
    SameSearch base (w.putDocument d) (v.putDocument d) where
  manifests := h.manifests
  documents := congrArg (insertDocument d) h.documents
  held := h.held
  stored := h.stored
  mentioned := h.mentioned
  named {e name} he hname := by
    obtain ⟨he, hkind⟩ := List.mem_filter.1 he
    rcases mem_insertDocument he with rfl | he
    · rw [hd] at hkind
      cases hkind
    · exact h.named (List.mem_filter.2 ⟨he, hkind⟩) hname

theorem document? {path : FilePath} (hpath : DocumentKind.ofPath? path = some .view) :
    Respects (SameSearch base) (document? path) := by
  intro w v h
  have hcached : w.cachedDocument? path = v.cachedDocument? path := by
    unfold cachedDocument?
    rw [h.documents]
  rw [document?_run, document?_run, hcached, h.stored hpath]
  cases v.cachedDocument? path with
  | some d => exact ⟨rfl, h⟩
  | none =>
    cases hstored : v.stored? path with
    | none => exact ⟨rfl, h⟩
    | some d => exact ⟨rfl, h.putView (kind_of_stored? hstored hpath)⟩

theorem extendedController? (extensions : List (Manifest × ViewExtension)) :
    Respects (SameSearch base) (extendedController? extensions) := by
  refine .extendedController? (fun h => h.held) (fun name w v h => ?_)
    (fun h hheld => document? (ofPath?_of_heldPath? hheld) _ _ h) extensions
  obtain ⟨probes, hw⟩ := sourcePath?_run name .view w
  obtain ⟨probes', hv⟩ := sourcePath?_run name .view v
  rw [hw, hv]
  exact ⟨h.held name, h.manifests, h.documents, h.held, h.stored, h.mentioned, h.named⟩

theorem searchAlike : SearchAlike base.IsDocumentName (SameSearch base) where
  manifests h := h.manifests.1.trans h.manifests.2.symm
  documents h := h.documents
  extendedController? := extendedController?
  mentioningClass? h hname := mentioningClass?_congr (h.mentioned hname)
  named h := h.named

end SameSearch

/-- The states differ in nothing that handlers are worked out from. A class that has become known
matters only if it mentions a kept document. -/
structure Unnoticed (w v : Workspace) : Prop where
  settings : v.settings = w.settings
  manifests : v.manifests = w.manifests
  documents : v.documents = w.documents
  held (name : String) : v.heldPath? name .view = w.heldPath? name .view
  stored {path : FilePath} : DocumentKind.ofPath? path = some .view → v.stored? path = w.stored? path
  classes (name : String) : v.classNamed? name = w.classNamed? name
  mentioned {d : Document} {name : String} : d ∈ w.documents → w.className? d.path = some name →
    ∀ c, c ∈ v.mentioners name ↔ c ∈ w.mentioners name

/-- The handlers of a class as they are worked out if none are remembered. -/
def handlersNow (w : Workspace) (className : String) : List String :=
  (eventHandlers className { w with handlers := [] }).1

def findHandlers (className : String) : Query (List String) := do
  handlersIn className [] (← controlledDocuments)

theorem eventHandlers_of_some {w : Workspace} {className : String} {found : List String}
    (h : w.handlers.lookup className = some found) : eventHandlers className w = (found, w) := by
  unfold eventHandlers
  rw [bind_run, get_run]
  simp only [h]
  rfl

theorem eventHandlers_of_none {w : Workspace} {className : String}
    (h : w.handlers.lookup className = none) :
    eventHandlers className w = ((findHandlers className w).1,
      { (findHandlers className w).2 with
        handlers := Table.put className (findHandlers className w).1 (findHandlers className w).2.handlers }) := by
  unfold eventHandlers
  rw [bind_run, get_run]
  simp only [h]
  rfl

structure SameMembers (w v : Workspace) : Prop where
  settings : w.settings = v.settings
  classes (name : String) : w.classNamed? name = v.classNamed? name

namespace SameMembers

variable {w v : Workspace}

theorem learned (h : SameMembers w v) {w' v' : Workspace} (hw : Learned w w') (hv : Learned v v') :
    SameMembers w' v' :=
  ⟨hw.settings.trans (h.settings.trans hv.settings.symm), fun name => by
    rw [hw.classNamed?, hv.classNamed?, h.classes]⟩

theorem membersAlike : MembersAlike SameMembers where
  settings h := h.settings
  examine d w v h := ⟨rfl, h.learned ((Learned.stable w).examine w d (.refl w))
    ((Learned.stable v).examine v d (.refl v))⟩
  class? name w v h := ⟨by rw [class?_fst, class?_fst, h.classes],
    h.learned (Learned.class? name w) (Learned.class? name v)⟩

end SameMembers

theorem Unnoticed.findHandlers {w v : Workspace} (h : Unnoticed w v) (className : String) :
    (findHandlers className v).1 = (findHandlers className w).1 := by
  have hsearch : SameSearch w v w :=
    { manifests := ⟨h.manifests, rfl⟩
      documents := h.documents
      held := h.held
      stored := h.stored
      mentioned := fun ⟨_, hd, hname⟩ => h.mentioned hd hname
      named := fun hd hname => ⟨_, h.documents ▸ (List.mem_filter.1 hd).1,
        className?_congr h.manifests ▸ hname⟩ }
  have hmembers : SameMembers v w := ⟨h.settings, h.classes⟩
  have hlearned : ∀ u : Workspace, Learned u (controlledDocuments u).2 := fun u =>
    (Learned.stable u).congruence.controlledDocuments.keeps (.refl u)
  have hcontrolled : (controlledDocuments v).1 = (controlledDocuments w).1 := by
    have hsame : controlledDocuments v = withController w.documents v := by
      rw [← h.documents]
      rfl
    rw [hsame]
    refine (SameSearch.searchAlike.withController (fun d hd {u _ name} hu hname => ?_) v w hsearch).1
    exact ⟨d, hd, className?_congr hu.manifests.1 ▸ hname⟩
  unfold Workspace.findHandlers
  rw [bind_run, bind_run, hcontrolled]
  exact (SameMembers.membersAlike.handlersIn className [] _ _ _ (hmembers.learned (hlearned v) (hlearned w))).1

theorem handlersNow_eq (w : Workspace) (className : String) :
    w.handlersNow className = (findHandlers className w).1 := by
  have hunnoticed : Unnoticed w { w with handlers := [] } :=
    ⟨rfl, rfl, rfl, fun _ => rfl, fun _ => rfl, fun _ => rfl, fun _ _ _ => Iff.rfl⟩
  have hnone : ({ w with handlers := [] } : Workspace).handlers.lookup className = none := rfl
  rw [handlersNow, eventHandlers_of_none hnone, hunnoticed.findHandlers]

theorem Unnoticed.handlersNow {w v : Workspace} (h : Unnoticed w v) (className : String) :
    v.handlersNow className = w.handlersNow className := by
  rw [handlersNow_eq, handlersNow_eq, h.findHandlers]

theorem Learned.unnoticed {w v : Workspace} (h : Learned w v) (hdocuments : v.documents = w.documents)
    (hmentioned : ∀ {d name}, d ∈ w.documents → w.className? d.path = some name →
      ∀ c ∈ v.mentioners name, c ∈ w.mentioners name) : Unnoticed w v where
  settings := h.settings
  manifests := h.manifests
  documents := hdocuments
  held name := by
    unfold heldPath?
    rw [candidate?_congr h.manifests, h.source]
  stored _ := h.stored? _
  classes := h.classNamed?
  mentioned hd hname c := ⟨hmentioned hd hname c, h.mentioners⟩

theorem Unnoticed.before {w u v : Workspace} (h : Unnoticed w v) (hu : Learned w u) (hv : Learned u v) :
    Unnoticed w u :=
  hu.unnoticed (hu.documents_eq hv h.documents) fun hd hname c hc =>
    (h.mentioned hd hname c).1 (hv.mentioners hc)

/-- `w` has been read from `base`, and what is remembered in it is right unless it was noticed. -/
structure Watched (base w : Workspace) : Prop where
  learned : Learned base w
  right : Unnoticed base w → ∀ className found, w.handlers.lookup className = some found →
    found = base.handlersNow className

namespace Watched

variable {base w : Workspace}

theorem step (h : Watched base w) {v : Workspace} (hv : Learned w v) (hhandlers : v.handlers = w.handlers) :
    Watched base v :=
  ⟨h.learned.trans hv, fun hquiet => hhandlers ▸ h.right (hquiet.before h.learned hv)⟩

theorem steady : Steady (Watched base) where
  probe w path h := h.step ((Learned.stable w).probe w path (.refl w)) rfl
  examine w d h := by
    refine h.step ((Learned.stable w).examine w d (.refl w)) ?_
    obtain ⟨_, hrun⟩ := examine_run d w
    rw [hrun]
  putDocument w _ h hnone hstored := h.step ((Learned.refl w).putDocument hnone hstored) rfl
  class? w name h := by
    refine h.step (Learned.class? name w) ?_
    obtain ⟨_, _, hrun⟩ := class?_run name w
    rw [hrun]

end Watched

theorem Learned.eventHandlers (className : String) (w : Workspace) :
    Learned w (Workspace.eventHandlers className w).2 :=
  ((Learned.stable w).congruence.eventHandlers className).keeps (.refl w)

theorem handlers_findHandlers (className : String) (w : Workspace) :
    (findHandlers className w).2.handlers = w.handlers := by
  have hsteady : Steady fun u => u.handlers = w.handlers :=
    { probe := fun _ _ h => h
      examine := fun u d h => by
        obtain ⟨_, hrun⟩ := examine_run d u
        rw [hrun]
        exact h
      putDocument := fun _ _ h _ _ => h
      class? := fun u name h => by
        obtain ⟨_, _, hrun⟩ := class?_run name u
        rw [hrun]
        exact h }
  have hfind := hsteady.controllersAlike.controlledDocuments.bind fun entries =>
    hsteady.scriptsAlike.handlersIn className [] entries
  exact hfind.keeps rfl

namespace Watched

variable {base : Workspace}

theorem eventHandlers (className : String) : Respects (Kept (Watched base)) (eventHandlers className) := by
  apply Respects.kept
  intro w h
  cases hlookup : w.handlers.lookup className with
  | some found =>
    rw [eventHandlers_of_some hlookup]
    exact h
  | none =>
    have hlearned := Learned.eventHandlers className w
    refine ⟨h.learned.trans hlearned, fun hquiet => ?_⟩
    have hbefore := hquiet.before h.learned hlearned
    intro asked found hfound
    rw [eventHandlers_of_none hlookup] at hfound
    simp only [handlers_findHandlers, Table.lookup_put] at hfound
    split at hfound
    next hasked =>
      cases hfound
      rw [beq_iff_eq] at hasked
      rw [hasked, ← hbefore.handlersNow, handlersNow_eq]
    next => exact h.right hbefore asked found hfound

theorem indistinguishable : Indistinguishable (Kept (Watched base)) := by
  have hcongruence : Congruence (Kept (Watched base)) :=
    { toControllersAlike := steady.controllersAlike
      examine := steady.scriptsAlike.examine
      class? := steady.scriptsAlike.class?
      settings := steady.scriptsAlike.settings
      eventHandlers := eventHandlers }
  exact hcongruence.indistinguishable (fun _ _ h => h.1 ▸ rfl) fun w _ types h =>
    ⟨h.1 ▸ rfl, h.2.step ((Learned.refl w).setTypes types) rfl⟩

end Watched

/-- Every remembered entry is what working it out now would give. -/
def Coherent (w : Workspace) : Prop :=
  ∀ className found, w.handlers.lookup className = some found → found = w.handlersNow className

theorem Coherent.of_nil {w : Workspace} (h : w.handlers = []) : Coherent w := by
  intro className found hfound
  rw [h] at hfound
  cases hfound

theorem Coherent.unnoticed {w v : Workspace} (h : Coherent w) (hquiet : Unnoticed w v)
    (hhandlers : v.handlers = w.handlers) : Coherent v := by
  intro className found hfound
  rw [hquiet.handlersNow]
  exact h className found (hhandlers ▸ hfound)

theorem Coherent.leave {w : Workspace} (h : Coherent w) {request : Request}
    (hquiet : Unnoticed w (request.leave w)) : Coherent (request.leave w) := by
  have hwatched := Watched.indistinguishable.leave ⟨.refl w, fun _ => h⟩ request
  intro className found hfound
  rw [hquiet.handlersNow]
  exact hwatched.right hquiet className found hfound

def ForgetsHandlers {α : Type} (q : Query α) : Prop := ∀ w, (q w).2.handlers = [] ∨ (q w).2 = w

namespace ForgetsHandlers

variable {α β : Type}

theorem ret (a : α) : ForgetsHandlers (pure a) := fun _ => .inr rfl

theorem bind {q : Query α} {f : α → Query β} (hq : ForgetsHandlers q) (hf : ∀ a, ForgetsHandlers (f a)) :
    ForgetsHandlers (q >>= f) := by
  intro w
  rw [bind_run]
  rcases hf (q w).1 (q w).2 with hnone | hsame
  · exact .inl hnone
  · rw [hsame]
    exact hq w

theorem get_bind {f : Workspace → Query β} (hf : ∀ w, ForgetsHandlers (f w)) :
    ForgetsHandlers (get >>= f) := fun w => hf w w

theorem applyScript (path : FilePath) (content? : Option String) :
    ForgetsHandlers (applyScript path content?) := by
  intro w
  rcases applyScript_state path content? w with hsame | ⟨_, _, _, _, _, hput⟩
  · exact .inr hsame
  · exact .inl (by rw [hput]; rfl)

theorem applyContent (path : FilePath) (content? : Option String) :
    ForgetsHandlers (applyContent path content?) := by
  unfold Workspace.applyContent
  split
  · apply get_bind
    intro w
    split
    · exact ret _
    · exact fun _ => .inl rfl
  · refine bind (fun w => .inl ?_) fun _ => ret _
    unfold applyMarkup
    cases content? <;> simp only [bind_run] <;> split <;> rfl
  · exact applyScript path content?
  · exact ret _

theorem forget (path : FilePath) : ForgetsHandlers (forget path) := by
  unfold Workspace.forget
  split
  · exact fun _ => .inl rfl
  · exact fun _ => .inl rfl
  · apply get_bind
    intro w
    split
    · exact fun _ => .inl rfl
    · exact ret _
  · exact ret _

theorem clearCaches : ForgetsHandlers clearCaches := by
  have hload : ∀ paths (w : Workspace), (loadDocuments paths w).2.handlers = w.handlers := by
    intro paths
    induction paths with
    | nil => exact fun _ => rfl
    | cons path paths ih =>
      intro w
      refine (ih (loadDocument path w).2).trans ?_
      rw [loadDocument_run]
      cases w.stored? path <;> rfl
  exact fun w => .inl (hload _ w.resetModels.clearDocuments)

theorem handle (event : Event) : ForgetsHandlers (handle event) := by
  cases event with
  | changed path content => exact applyContent path _
  | opened path content => exact applyContent path _
  | created path => exact applyContent path _
  | deleted path => exact (forget path).bind fun _ => ret _
  | renamed source target => exact (forget source).bind fun _ => applyContent target none
  | configurationChanged => exact clearCaches.bind fun _ => ret _

end ForgetsHandlers

/-- Dealings in which nothing is left unnoticed: they begin with no handlers remembered, a request
reads nothing that changes the handlers, and when files have changed a notice follows that forgets
the handlers or the change does not matter for them. -/
inductive QuietRun : Workspace → Prop
  | begun {w : Workspace} : Reachable w → w.handlers = [] → QuietRun w
  | notified {w : Workspace} (source : Source) (event : Event) : QuietRun w →
      (handle event { w with source := source }).2.handlers = [] ∨ Unnoticed w { w with source := source } →
      QuietRun (handle event { w with source := source }).2
  | asked {w : Workspace} (request : Request) : QuietRun w → Unnoticed w (request.leave w) →
      QuietRun (request.leave w)

/-- In a run without anything unnoticed, every remembered entry is right. -/
theorem remembered_handlers_coherent {w : Workspace} (h : QuietRun w) : Coherent w := by
  induction h with
  | begun _ hnone => exact .of_nil hnone
  | @notified w source event _ hnotice ih =>
    rcases ForgetsHandlers.handle event { w with source := source } with hnone | hsame
    · exact .of_nil hnone
    · rcases hnotice with hnone | hquiet
      · exact .of_nil hnone
      · rw [hsame]
        exact ih.unnoticed hquiet rfl
  | asked request _ hquiet ih => exact ih.leave hquiet

/-- A controller with a view; the method that the view binds is inherited from a class that is not
known yet. -/
def sampleInherited : Workspace :=
  let files : List (FilePath × String) :=
    [(⟨"/app/C.js"⟩, "sap.ui.define([\"App/B\"], function (B) \x7b return B.extend(\"App.C\", \x7b\x7d); \x7d);"),
      (⟨"/app/B.js"⟩, "return B.extend(\"App.B\", \x7b on: function () \x7b\x7d \x7d);"),
      (⟨"/app/C.view.xml"⟩, "<View controllerName=\"App.C\" press=\".on\"/>")]
  let w := new { Settings.builtIn with cacheEnabled := false } (.memory files) none []
  let w := (handle (.changed ⟨"/app/manifest.json"⟩ "\x7b\"sap.app\":\x7b\"id\":\"App\"\x7d\x7d") w).2
  let w := (handle (.created ⟨"/app/C.js"⟩) w).2
  (handle (.created ⟨"/app/C.view.xml"⟩) w).2

def sampleHandlers : Workspace := Request.leave sampleInherited (.handlers "App.C")

theorem sampleInherited_reachable : Reachable sampleInherited := by
  unfold sampleInherited
  exact .notified _ (.notified _ (.notified _ (.opened _ _ _ _)))

theorem remembered_handlers_coherent_sample :
    QuietRun sampleHandlers ∧ sampleInherited.projectNames = ["App.C"] ∧
      sampleHandlers.projectNames = ["App.C", "App.B"] ∧
      sampleHandlers.handlers = [("App.C", ["on"])] ∧ ["on"] = sampleHandlers.handlersNow "App.C" := by
  have hbefore : sampleInherited.handlers = [] ∧ sampleInherited.projectNames = ["App.C"] ∧
      sampleInherited.documents.map (fun d => sampleInherited.className? d.path) = [some "App.C"] ∧
      sampleInherited.mentioners "App.C" = ["App.C"] := by decide +kernel
  have hafter : sampleHandlers.projectNames = ["App.C", "App.B"] ∧
      sampleHandlers.handlers = [("App.C", ["on"])] ∧ sampleHandlers.documents.length = 1 ∧
      sampleHandlers.mentioners "App.C" = ["App.C"] := by decide +kernel
  have hreachable := sampleInherited_reachable
  unfold sampleHandlers at *
  -- From here on only the facts count, not what the sample is made of.
  generalize sampleInherited = w at *
  obtain ⟨hnone, hnames, hdocuments, hmentioners⟩ := hbefore
  obtain ⟨hnames', hhandlers, hlength, hmentioners'⟩ := hafter
  have hlearned : Learned w (Request.leave w (.handlers "App.C")) := Learned.eventHandlers "App.C" w
  have hsame : (Request.leave w (.handlers "App.C")).documents = w.documents := by
    rcases hlearned.documents with hsame | hmore
    · exact hsame
    · have := congrArg List.length hdocuments
      simp only [List.length_map, List.length_singleton] at this
      omega
  have hquiet : Unnoticed w (Request.leave w (.handlers "App.C")) := by
    refine hlearned.unnoticed hsame fun {d name} hd hname c hc => ?_
    have hmem : some name ∈ [some "App.C"] := by
      rw [← hdocuments, ← hname]
      exact List.mem_map_of_mem hd
    obtain rfl : name = "App.C" := by simpa using hmem
    rw [hmentioners'] at hc
    rw [hmentioners]
    exact hc
  have hrun : QuietRun (Request.leave w (.handlers "App.C")) := .asked _ (.begun hreachable hnone) hquiet
  refine ⟨hrun, hnames, hnames', hhandlers, remembered_handlers_coherent hrun "App.C" ["on"] ?_⟩
  rw [hhandlers]
  rfl

end UiWorkspace.Workspace
