import UiWorkspace.Proofs.Typing.MemoSoundness
import UiWorkspace.Proofs.Workspace.SharedMarkup

/-! Remembered types along runs of requests and changes of scripts. A request leaves the memo
sound for the classes it found, and a change of one class drops every entry that was derived from
it, so that the rest stays sound for the changed classes. -/
namespace UiWorkspace.Workspace

open UiWorkspace.Typing

/-- A state read from `base` on, whose memo is sound as long as no document has been read. -/
structure Faithful (base w : Workspace) : Prop where
  learned : Learned base w
  memo : w.documents = base.documents → SoundMemo (lookups base) [] w.types

theorem Faithful.stable (base : Workspace) : Stable (Faithful base) where
  probe w path h := ⟨(Learned.stable base).probe w path h.learned, h.memo⟩
  examine w d h := by
    refine ⟨(Learned.stable base).examine w d h.learned, ?_⟩
    obtain ⟨_, hrun⟩ := examine_run d w
    rw [hrun]
    exact h.memo
  putDocument w d h hnone hstored := by
    refine ⟨h.learned.putDocument hnone hstored, fun hdocuments => ?_⟩
    have hlength : (w.putDocument d).documents.length = w.documents.length + 1 :=
      length_insertDocument hnone
    rw [hdocuments] at hlength
    rcases h.learned.documents with hsame | hmore
    · rw [hsame] at hlength
      omega
    · omega
  setHandlers w handlers h := ⟨(Learned.stable base).setHandlers w handlers h.learned, h.memo⟩
  class? w name h := by
    refine ⟨h.learned.trans (Learned.class? name w), ?_⟩
    obtain ⟨_, _, hrun⟩ := class?_run name w
    rw [hrun]
    exact h.memo

theorem faithful_resolving {base : Workspace} {α : Type} {work : Settings → Resolve α}
    {y : Nat → Tracked α} (hwork : Tracks base (fun _ => True) (work base.settings) y) :
    Respects (Kept (Faithful base)) (resolving work) := by
  apply Respects.kept
  intro w h
  have hsettings := h.learned.settings
  have hlearned := hwork.learned (p := ⟨w, []⟩) h.learned
  unfold resolving
  rw [hsettings]
  refine ⟨h.learned.trans hlearned, fun hend => ?_⟩
  have hdocuments := h.learned.documents_eq hlearned hend
  exact (hwork.accounted ⟨h.learned, hdocuments, h.memo hdocuments, rfl⟩ hend).sync.memo

theorem Faithful.indistinguishable {base : Workspace} (hbase : base.FiledByName) :
    Indistinguishable (Kept (Faithful base)) where
  toCongruence := (Faithful.stable base).congruence
  typeOfMember kind className name :=
    faithful_resolving (tracks_memberType hbase base.settings.maxResolutionDepth kind className name)
  nodeType c n := faithful_resolving (tracks_nodeType hbase base.settings.maxResolutionDepth c n)
  chainIn c chain offset :=
    faithful_resolving (tracks_chainType hbase base.settings.maxResolutionDepth c chain offset)

theorem Learned.lookups_eq {w v : Workspace} (h : Learned w v) (hdocuments : v.documents = w.documents) :
    lookups v = lookups w := by
  have hview := h.sameView hdocuments
  have hcontrol : (fun controller id => (Workspace.controlClass? controller id v).1) =
      fun controller id => (Workspace.controlClass? controller id w).1 := by
    funext controller id
    exact (SameView.controlsAlike.controlClass? controller id v w hview).1
  unfold lookups limits
  rw [hcontrol, h.settings, funext h.classNamed?]

theorem soundMemo_leave {w : Workspace} (hfiled : w.FiledByName)
    (hmemo : SoundMemo (lookups w) [] w.types) (request : Request)
    (hdocuments : (request.leave w).documents = w.documents) :
    SoundMemo (lookups (request.leave w)) [] (request.leave w).types := by
  have hleave := (Faithful.indistinguishable hfiled).leave ⟨Learned.refl w, fun _ => hmemo⟩ request
  rw [hleave.learned.lookups_eq hdocuments]
  exact hleave.memo hdocuments

/-- `u` is `w` with another definition of one class, or none, and without what was derived from
it; unless nothing was different about the class. -/
structure Redefines (name : String) (w u : Workspace) : Prop where
  settings : u.settings = w.settings
  manifests : u.manifests = w.manifests
  documents : u.documents = w.documents
  stored (path : FilePath) : u.stored? path = w.stored? path
  others {other : String} : other ≠ name → u.classNamed? other = w.classNamed? other
  types : u.types = w.types.invalidate name ∨
    u.types = w.types ∧ u.classNamed? name = w.classNamed? name

namespace Redefines

variable {name : String} {w u : Workspace}

theorem control_eq (h : Redefines name w u) (hsorted : SortedByPath w.documents) {controller : String}
    (hclass : u.classNamed? controller = w.classNamed? controller) (id : String) :
    (controlClass? controller id w).1 = (controlClass? controller id u).1 := by
  have hmarkup : SameMarkup (fun _ => False) w u :=
    { manifests := h.manifests.symm
      stored := fun path => (h.stored path).symm
      sorted := hsorted
      sorted' := h.documents ▸ hsorted
      kept := fun _ => by unfold cachedDocument?; rw [h.documents] }
  exact (controlClass?_same hmarkup hclass.symm (fun _ _ => not_false) (fun _ _ => not_false) id).1

theorem agreeOff (h : Redefines name w u) (hsorted : SortedByPath w.documents) :
    Lookups.AgreeOff name (lookups w) (lookups u) where
  limits := by
    unfold lookups limits
    rw [h.settings]
  class? hother := (h.others hother).symm
  control? id hother := h.control_eq hsorted (h.others hother) id

theorem soundMemo (h : Redefines name w u) (hsorted : SortedByPath w.documents)
    (hmemo : SoundMemo (lookups w) [] w.types) : SoundMemo (lookups u) [] u.types := by
  rcases h.types with htypes | ⟨htypes, hclass⟩
  · rw [htypes]
    exact SoundMemo.invalidate (h.agreeOff hsorted) hmemo
  · have hclasses : ∀ other, u.classNamed? other = w.classNamed? other := by
      intro other
      by_cases hother : other = name
      · rw [hother, hclass]
      · exact h.others hother
    have hlookups : lookups u = lookups w := by
      have hcontrol : (fun controller id => (controlClass? controller id u).1) =
          fun controller id => (controlClass? controller id w).1 := by
        funext controller id
        exact (h.control_eq hsorted (hclasses controller) id).symm
      unfold lookups limits
      rw [hcontrol, h.settings, funext hclasses]
    rw [htypes, hlookups]
    exact hmemo

end Redefines

/-- The files change in a script of one class only: views and fragments read as before, and every
other name leads to the class it led to. -/
structure ScriptChange (w : Workspace) (path : FilePath) (name : String) (source : Source) : Prop where
  role : FileRole.ofPath path = .script
  className : w.className? path = some name
  markup (p : FilePath) : Workspace.stored? { w with source := source } p = w.stored? p
  others {other : String} : other ≠ name →
    Workspace.classNamed? { w with source := source } other = w.classNamed? other

theorem ScriptChange.redefines_applied {w : Workspace} {path : FilePath} {name : String}
    {source : Source} (h : ScriptChange w path name source) {content? : Option String}
    (hok : (applyContent path content? { w with source := source }).1 = .ok ()) :
    Redefines name w (applyContent path content? { w with source := source }).2 := by
  rw [applyContent_script h.role] at hok ⊢
  have hname : Workspace.className? { w with source := source } path = some name := h.className
  rcases applyScript_run hname content? with
    ⟨fault, _, hrun⟩ | ⟨⟨c, hc⟩, hrun⟩ | ⟨text, builds, _, hrun⟩
  · have hfault := congrArg Prod.fst hrun
    rw [hok] at hfault
    cases hfault
  · rw [hrun]
    refine ⟨rfl, rfl, rfl, h.markup, h.others, .inr ⟨rfl, ?_⟩⟩
    have hc : w.classes.lookup name = some c := hc
    unfold classNamed?
    simp only [hc, Option.some_or]
  · rw [hrun]
    refine ⟨rfl, rfl, rfl, h.markup, @fun other hother => ?_, .inl rfl⟩
    have hlookup : (Table.put name (ClassDefinition.ofScript name path text) w.classes).lookup other =
        w.classes.lookup other := by
      exact Table.lookup_put_of_ne hother
    rw [← h.others hother]
    refine classNamed?_congr ?_ ?_ ?_ hlookup <;> rfl

theorem ScriptChange.redefines_forgotten {w : Workspace} {path : FilePath} {name : String}
    {source : Source} (h : ScriptChange w path name source) :
    Redefines name w (forget path { w with source := source }).2 := by
  have hname : Workspace.className? { w with source := source } path = some name := h.className
  unfold forget
  rw [h.role]
  simp only [bind_run, get_run, hname]
  refine ⟨rfl, rfl, rfl, h.markup, @fun other hother => ?_, .inl rfl⟩
  have hlookup : (Table.erase name w.classes).lookup other = w.classes.lookup other := by
    exact Table.lookup_erase_of_ne hother
  rw [← h.others hother]
  refine classNamed?_congr ?_ ?_ ?_ hlookup <;> rfl

/-- One step of a run: a request that reads no document, or a script that is taken in or
forgotten after the files changed in it. -/
inductive EditStep : Workspace → Workspace → Prop
  | asked {w : Workspace} (request : Request) : (request.leave w).documents = w.documents →
      EditStep w (request.leave w)
  | applied {w : Workspace} {path : FilePath} {name : String} {source : Source}
      (content? : Option String) : ScriptChange w path name source →
      (applyContent path content? { w with source := source }).1 = .ok () →
      EditStep w (applyContent path content? { w with source := source }).2
  | forgotten {w : Workspace} {path : FilePath} {name : String} {source : Source} :
      ScriptChange w path name source → EditStep w (forget path { w with source := source }).2

theorem ScriptChange.written {w : Workspace} {path : FilePath} {name : String}
    (hrole : FileRole.ofPath path = .script) (hname : w.className? path = some name) (text : String) :
    ScriptChange w path name w.source ∧
      (applyContent path (some text) { w with source := w.source }).1 = .ok () := by
  refine ⟨⟨hrole, hname, fun _ => rfl, fun _ => rfl⟩, ?_⟩
  rw [applyContent_script hrole]
  rcases applyScript_run hname (some text) with ⟨_, hfault, _⟩ | ⟨_, hrun⟩ | ⟨_, _, _, hrun⟩
  · cases hfault
  · rw [hrun]
  · rw [hrun]

theorem EditStep.written {w : Workspace} {path : FilePath} {name : String}
    (hrole : FileRole.ofPath path = .script) (hname : w.className? path = some name) (text : String) :
    EditStep w (handle (.changed path text) w).2 :=
  let ⟨hchange, hok⟩ := ScriptChange.written hrole hname text
  .applied (some text) hchange hok

theorem Redefines.written {w : Workspace} {path : FilePath} {name : String}
    (hrole : FileRole.ofPath path = .script) (hname : w.className? path = some name) (text : String) :
    Redefines name w (handle (.changed path text) w).2 :=
  let ⟨hchange, hok⟩ := ScriptChange.written hrole hname text
  hchange.redefines_applied hok

inductive EditRun (start : Workspace) : Workspace → Prop
  | start : EditRun start start
  | step {w v : Workspace} : EditRun start w → EditStep w v → EditRun start v

theorem EditStep.orderly {w v : Workspace} (h : EditStep w v) (hw : Orderly w) : Orderly v := by
  cases h with
  | asked request _ => exact Orderly.lasting.upheld.leave hw request
  | applied content? _ _ => exact (Orderly.lasting.upheld.applyContent _ content?).keeps ⟨hw.filed, hw.sorted⟩
  | forgotten _ => exact (Orderly.lasting.upheld.forget _).keeps ⟨hw.filed, hw.sorted⟩

theorem EditStep.soundMemo {w v : Workspace} (h : EditStep w v) (hw : Orderly w)
    (hmemo : SoundMemo (lookups w) [] w.types) : SoundMemo (lookups v) [] v.types := by
  cases h with
  | asked request hdocuments => exact soundMemo_leave hw.filed hmemo request hdocuments
  | applied content? hchange hok => exact (hchange.redefines_applied hok).soundMemo hw.sorted hmemo
  | forgotten hchange => exact hchange.redefines_forgotten.soundMemo hw.sorted hmemo

theorem EditRun.soundMemo {start w : Workspace} (hrun : EditRun start w) (hstart : Orderly start)
    (hempty : start.types = TypeMemo.empty) : Orderly w ∧ SoundMemo (lookups w) [] w.types := by
  induction hrun with
  | start =>
    rw [hempty]
    exact ⟨hstart, SoundMemo.empty _⟩
  | step _ hstep ih => exact ⟨hstep.orderly ih.1, hstep.soundMemo ih.1 ih.2⟩

/-- At every point of a run, a remembered type is the one that the rules give on the classes as
they are, without a memo and without a limit to the depth, unless a member is needed for its own
type. -/
theorem remembered_type_evaluates {start w : Workspace} (hstart : Reachable start)
    (hempty : start.types = TypeMemo.empty) (hrun : EditRun start w) {key : MemoKey}
    {type? : Option String} {dependsOn : List String}
    (hdone : w.types.lookup key = some (.done type? dependsOn))
    (hfree : ¬ (lookups w).Reenters key) : (lookups w).Evaluates key type? := by
  obtain ⟨_, hmemo⟩ := hrun.soundMemo hstart.orderly hempty
  obtain ⟨enough, hcomes⟩ := hmemo.sound key type? dependsOn hdone []
  refine ⟨enough, fun depth hdepth => ?_⟩
  rcases (hcomes depth hdepth).1 with hvalue | hreentered
  · exact (lookups w).evaluate?_of_trace hvalue
  · exact absurd ⟨depth, hreentered⟩ hfree

def sampleStart : Workspace :=
  (handle (.changed ⟨"/app/manifest.json"⟩ "\x7b\"sap.app\":\x7b\"id\":\"App\"\x7d\x7d")
    (new { Settings.builtIn with cacheEnabled := false } (.memory []) none [])).2

def makerScript (type : String) : String :=
  "X.extend('App.B', \x7bb() \x7breturn new " ++ type ++ "()\x7d\x7d)"

def callerScript : String :=
  "X.extend('App.C', \x7ba() \x7breturn new App.B().b()\x7d\x7d)"

def sampleMade (type : String) (w : Workspace) : Workspace :=
  (handle (.changed ⟨"/app/B.js"⟩ (makerScript type)) w).2

def sampleCalled (w : Workspace) : Workspace := (handle (.changed ⟨"/app/C.js"⟩ callerScript) w).2

def sampleAsked (w : Workspace) : Workspace := Request.leave w (.typeOf .method "App.C" "a")

/-- Two classes, a method of one of which returns what a method of the other makes. -/
def sampleClasses : Workspace := sampleCalled (sampleMade "u.A" sampleStart)

theorem sampleStart_reachable : Reachable sampleStart := by
  unfold sampleStart
  exact .notified _ (.opened _ _ _ _)

theorem sampleStart_types : sampleStart.types = TypeMemo.empty := by
  have hempty : sampleStart.types.isEmpty = true := by decide +kernel
  exact List.isEmpty_iff.1 hempty

theorem sampleClasses_reachable : Reachable sampleClasses :=
  .notified _ (.notified _ sampleStart_reachable)

theorem EditStep.sampleMade {w : Workspace} (hname : w.className? ⟨"/app/B.js"⟩ = some "App.B")
    (type : String) : EditStep w (sampleMade type w) :=
  .written (by decide) hname _

theorem EditStep.sampleCalled {w : Workspace} (hname : w.className? ⟨"/app/C.js"⟩ = some "App.C") :
    EditStep w (sampleCalled w) :=
  .written (by decide) hname _

theorem EditStep.sampleAsked {w : Workspace}
    (hempty : w.documents.isEmpty = true ∧ (sampleAsked w).documents.isEmpty = true) :
    EditStep w (sampleAsked w) := by
  refine .asked _ ?_
  rw [List.isEmpty_iff.1 hempty.1]
  exact List.isEmpty_iff.1 hempty.2

/-- The method is asked about, the other class makes something else, and the method is asked about
again. -/
theorem remembered_type_evaluates_sample :
    (sampleAsked (sampleMade "u.D" (sampleAsked sampleClasses))).types.lookup ⟨"App.C", "a", .method⟩ =
        some (.done (some "u.D") ["App.B", "App.C"]) ∧
      (lookups (sampleAsked (sampleMade "u.D" (sampleAsked sampleClasses)))).Evaluates ⟨"App.C", "a", .method⟩
        (some "u.D") := by
  have hstart : sampleStart.className? ⟨"/app/B.js"⟩ = some "App.B" ∧
      (sampleMade "u.A" sampleStart).className? ⟨"/app/C.js"⟩ = some "App.C" := by decide +kernel
  -- All of it is decided at once: each decision would read the classes anew.
  have hasked : (sampleAsked sampleClasses).className? ⟨"/app/B.js"⟩ = some "App.B" ∧
      (sampleClasses.documents.isEmpty = true ∧ (sampleAsked sampleClasses).documents.isEmpty = true) ∧
      ((sampleMade "u.D" (sampleAsked sampleClasses)).documents.isEmpty = true ∧
        (sampleAsked (sampleMade "u.D" (sampleAsked sampleClasses))).documents.isEmpty = true) ∧
      (sampleAsked (sampleMade "u.D" (sampleAsked sampleClasses))).types.lookup ⟨"App.C", "a", .method⟩ =
        some (.done (some "u.D") ["App.B", "App.C"]) ∧
      ((lookups (sampleAsked (sampleMade "u.D" (sampleAsked sampleClasses)))).trace 2 ⟨"App.C", "a", .method⟩
        []).ending.isValue = true := by
    decide +kernel
  obtain ⟨hname, hfirst, hsecond, hdone, hvalue⟩ := hasked
  have hclasses : EditRun sampleStart sampleClasses :=
    (EditRun.start.step (.sampleMade hstart.1 "u.A")).step (.sampleCalled hstart.2)
  have hrun := ((hclasses.step (.sampleAsked hfirst)).step (.sampleMade hname "u.D")).step (.sampleAsked hsecond)
  exact ⟨hdone, remembered_type_evaluates sampleStart_reachable sampleStart_types hrun hdone
    (Lookups.not_reenters_of_value hvalue)⟩

end UiWorkspace.Workspace
