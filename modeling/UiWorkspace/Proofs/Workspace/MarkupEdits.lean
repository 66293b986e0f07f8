import UiWorkspace.Proofs.Typing.EditRuns
import UiWorkspace.Proofs.Workspace.Writes

/-! Changes of markup. Of the types remembered before a view or fragment changes, those are kept
that were not derived from the controllers found for it. A kept type can only be outdated if some
other class that was read for it reaches a document that changed. -/
namespace UiWorkspace.Workspace

open UiWorkspace.Markup
open UiWorkspace.Typing

/-- The type of a member, worked out from an empty memo. -/
def recomputed (w : Workspace) (key : MemoKey) : Option String :=
  (typeOfMember key.kind key.className key.member { w with types := TypeMemo.empty }).1

def typeWork {m : Type → Type} [Monad m] (settings : Settings)
    (s : Hierarchy.Limits → Surroundings m) (key : MemoKey) : m (Option String) :=
  let s := s ⟨settings.maxInheritanceHops, settings.rootClass⟩
  Typing.memberType s (Typing.nodeType (Typing.chainType s settings.maxResolutionDepth)) key.kind
    key.className key.member

/-- The classes that are looked up for the type of a member. -/
def readsFor (w : Workspace) (key : MemoKey) : List String :=
  (typeWork w.settings Logged.surroundings key [] ⟨{ w with types := TypeMemo.empty }, []⟩).1.2

theorem recomputed_eq (w : Workspace) (key : MemoKey) :
    w.recomputed key =
      (typeWork w.settings surroundings key ⟨{ w with types := TypeMemo.empty }, []⟩).1 := rfl

theorem lockstep_typeWork {Q : Workspace → Workspace → Prop} {Safe : String → Prop}
    (L : Lookalike Q Safe) (settings : Settings) (key : MemoKey) :
    Lockstep Q Safe (fun _ => True) (typeWork settings Logged.surroundings key)
      (typeWork settings surroundings key) :=
  lockstep_memberType L _ settings.maxResolutionDepth key.kind key.className key.member

def isCurrent (w : Workspace) : MemoKey × MemoSlot → Bool
  | (key, .done type? _) => w.recomputed key == type?
  | (_, .inProgress) => true

/-- Every remembered type is the one that would be worked out now. -/
def UpToDate (w : Workspace) : Prop := ∀ entry ∈ w.types, w.isCurrent entry = true

instance (w : Workspace) : Decidable w.UpToDate :=
  inferInstanceAs (Decidable (∀ entry ∈ w.types, w.isCurrent entry = true))

/-- The class reaches only documents that are the same in both states. -/
def Untouched (w w' : Workspace) (className : String) : Prop :=
  ∀ path, Reaches w className path ∨ Reaches w' className path →
    w.cachedDocument? path = w'.cachedDocument? path

/-- States read from two others on, the first from `w` and the second from `w'`, in step. -/
structure Parallel (w w' u v : Workspace) : Prop where
  left : Learned w u
  right : Learned w' v
  types : u.types = v.types
  markup : SameMarkup (fun path => w.cachedDocument? path ≠ w'.cachedDocument? path) u v

theorem Untouched.same {w w' : Workspace} {className : String} (h : Untouched w w' className) :
    (∀ path, Reaches w className path → ¬ w.cachedDocument? path ≠ w'.cachedDocument? path) ∧
      ∀ path, Reaches w' className path → ¬ w.cachedDocument? path ≠ w'.cachedDocument? path :=
  ⟨fun path hpath => not_not_intro (h path (.inl hpath)),
    fun path hpath => not_not_intro (h path (.inr hpath))⟩

def SameClass (w w' : Workspace) (name : String) : Prop :=
  w.classNamed? name = w'.classNamed? name ∧ Untouched w w' name

theorem lookalike_parallel {w w' : Workspace} (hsettings : w.settings = w'.settings) :
    Lookalike (Parallel w w') (SameClass w w') where
  settings h := h.left.settings.trans (hsettings.trans h.right.settings.symm)
  types h := h.types
  setTypes types h := ⟨h.left.setTypes types, h.right.setTypes types, rfl, h.markup.manifests,
    h.markup.stored, h.markup.sorted, h.markup.sorted', h.markup.kept⟩
  class? name hsame u v h := by
    refine ⟨?_, h.left.trans (Learned.class? name u), h.right.trans (Learned.class? name v), ?_,
      h.markup.class? name⟩
    · rw [class?_fst, class?_fst, h.left.classNamed?, h.right.classNamed?, hsame.1]
    · obtain ⟨_, _, hu⟩ := class?_run name u
      obtain ⟨_, _, hv⟩ := class?_run name v
      rw [hu, hv]
      exact h.types
  control controller id hsame u v h := by
    have hclass : u.classNamed? controller = v.classNamed? controller := by
      rw [h.left.classNamed?, h.right.classNamed?, hsame.1]
    obtain ⟨hvalue, hmarkup⟩ := controlClass?_same h.markup hclass
      (fun path hpath => hsame.2.same.1 path (h.left.reaches hpath))
      (fun path hpath => hsame.2.same.2 path (h.right.reaches hpath)) id
    refine ⟨hvalue, h.left.trans (Learned.controlClass? controller id u),
      h.right.trans (Learned.controlClass? controller id v), ?_, hmarkup⟩
    rw [controlClass?_types, controlClass?_types]
    exact h.types

theorem recomputed_same {w w' : Workspace} (hmodels : SameModels w w')
    (hsorted : SortedByPath w.documents) (hsorted' : SortedByPath w'.documents) {key : MemoKey}
    (hreads : ∀ className ∈ w.readsFor key, Untouched w w' className) :
    w.recomputed key = w'.recomputed key := by
  let start : Progress := ⟨{ w with types := TypeMemo.empty }, []⟩
  let start' : Progress := ⟨{ w' with types := TypeMemo.empty }, []⟩
  have hstart : Parallel w w' start.workspace start'.workspace :=
    { left := (Learned.refl w).setTypes _
      right := (Learned.refl w').setTypes _
      types := rfl
      markup := ⟨hmodels.manifests.symm, fun path => (stored?_congr hmodels.source path).symm,
        hsorted, hsorted', not_not.1⟩ }
  -- The logged work before the notice says which classes are read; the plain work before and
  -- after is compared with it.
  obtain ⟨hplain, -, -⟩ := (lockstep_typeWork lookalike_eq w.settings key).same [] start start
    rfl rfl fun _ _ => trivial
  obtain ⟨hboth, -, -⟩ := (lockstep_typeWork
    (lookalike_parallel hmodels.settings.symm) w.settings key).same [] start start'
    hstart rfl fun name hname => ⟨hmodels.classNamed? name, hreads name hname⟩
  rw [recomputed_eq, recomputed_eq w']
  change (typeWork w.settings surroundings key start).1 =
    (typeWork w'.settings surroundings key start').1
  rw [hmodels.settings]
  exact hplain.symm.trans hboth

theorem cachedDocument?_of_offers {w : Workspace} (hfiles : w.source.texts.isEmpty = true) {path : FilePath}
    {d : Document} (hd : Offers w path d) : w.cachedDocument? path = some d := by
  rcases hd with hd | ⟨_, written, _, hstored⟩
  · exact hd
  · unfold stored? at hstored
    split at hstored
    next htext =>
      have hmem := Source.mem_texts htext
      rw [List.isEmpty_iff.1 hfiles] at hmem
      cases hmem
    next => cases hstored

def holdsViews (w : Workspace) : Bool :=
  w.source.texts.isEmpty && w.documents.all fun d => d.kind == .view && d.fragments.isEmpty

theorem Reaches.view_of_holdsViews {w : Workspace} (h : w.holdsViews = true) {className : String}
    {path : FilePath} (hpath : Reaches w className path) :
    ∃ d, w.cachedDocument? path = some d ∧ d.controller? = some className := by
  rw [holdsViews, Bool.and_eq_true] at h
  have hview : ∀ {path d}, Offers w path d → d.kind = .view ∧ d.fragments = [] := by
    intro path d hd
    have hmem := List.mem_of_find?_eq_some (cachedDocument?_of_offers h.1 hd)
    simpa using List.all_eq_true.1 h.2 d hmem
  induction hpath with
  | view hd _ hcontroller => exact ⟨_, cachedDocument?_of_offers h.1 hd, hcontroller⟩
  | mentioned hd hkind _ _ _ _ =>
    rw [(hview hd).1] at hkind
    cases hkind
  | included _ hd hname _ _ =>
    rw [(hview hd).2] at hname
    cases hname

theorem untouched_of_written {w w' : Workspace} {path : FilePath} {text className : String}
    (hwritten : MarkupWritten w path .view text w') (hviews : w.holdsViews = true)
    (hviews' : w'.holdsViews = true) (hnew : (w.cachedDocument? path).isNone = true)
    (hother : (Document.new path .view text).controller? ≠ some className)
    (hold : w'.documents.all (fun d => d.path == path || (w.cachedDocument? d.path).isSome) = true) :
    Untouched w w' className := by
  rw [Option.isNone_iff_eq_none] at hnew
  rintro reached (hreached | hreached)
  · obtain ⟨d, hd, -⟩ := hreached.view_of_holdsViews hviews
    have happart : (path == reached) = false := by
      by_contra hsame
      rw [← cachedDocument?_congr (Bool.of_not_eq_false hsame), hnew] at hd
      cases hd
    rw [hd, (hwritten.others happart hd).1]
  · obtain ⟨d, hd, hcontroller⟩ := hreached.view_of_holdsViews hviews'
    have happart : (path == reached) = false := by
      by_contra hsame
      rw [← cachedDocument?_congr (Bool.of_not_eq_false hsame), hwritten.read] at hd
      cases hd
      exact hother hcontroller
    have hpath := List.find?_some (p := fun d : Document => d.path == reached) hd
    have hcached := List.all_eq_true.1 hold d (List.mem_of_find?_eq_some hd)
    rw [Bool.or_eq_true, FilePath.beq_congr_left hpath, FilePath.beq_comm, happart,
      cachedDocument?_congr hpath, Option.isSome_iff_exists] at hcached
    obtain ⟨e, he⟩ := hcached.resolve_left Bool.false_ne_true
    rw [he, (hwritten.others happart he).1]

def sampleBound : Workspace :=
  Request.leave
    (handle (.opened ⟨"/app/C.view.xml"⟩ "<View controllerName=\"App.C\" xmlns=\"m\"><B id=\"x\"/></View>")
      (handle (.changed ⟨"/app/C.js"⟩ "X.extend('App.C', \x7ba() \x7breturn this.byId('x')\x7d\x7d)")
        sampleStart).2).2
    (.typeOf .method "App.C" "a")

def sampleViewed (w : Workspace) : Workspace :=
  (handle (.changed ⟨"/app/V.view.xml"⟩ "<View controllerName=\"App.V\"/>") w).2

end UiWorkspace.Workspace
