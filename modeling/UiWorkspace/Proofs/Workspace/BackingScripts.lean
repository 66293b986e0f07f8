import UiWorkspace.Proofs.Scan.Interruption

/-! The script behind a class. Several paths can lead to one class, and a class has one script. A
class that is looked up by a path is backed by some script that leads to it, and so by the file at
the path as long as no other script leads there. -/
namespace UiWorkspace

open UiWorkspace.Markup

theorem FileRole.ofPath_eq_script {path : FilePath} {front : String} (h : path.text = front ++ ".js") :
    FileRole.ofPath path = .script := by
  obtain ⟨lead, hname⟩ := FilePath.fileName?_append ".js" (by decide) (by decide) front
  have hpath : path = ⟨front ++ ".js"⟩ := by rw [← h]
  have hjs := Text.endsWith_append lead ".js"
  have hmanifest : lead ++ ".js" ≠ "manifest.json" := by
    intro heq
    rw [heq] at hjs
    exact absurd hjs (by decide)
  have hfragment : Text.endsWith ".fragment.xml" (lead ++ ".js") = false := by
    simp [Text.endsWith, Text.before?, Text.after?]
  have hview : Text.endsWith ".view.xml" (lead ++ ".js") = false := by
    simp [Text.endsWith, Text.before?, Text.after?]
  simp [FileRole.ofPath, DocumentKind.ofPath?, hpath, hname, hmanifest, hfragment, hview, hjs]

theorem FileRole.ofPath_congr {p q : FilePath} (h : (p == q) = true) :
    FileRole.ofPath p = FileRole.ofPath q := by
  unfold FileRole.ofPath DocumentKind.ofPath? FilePath.fileName?
  rw [FilePath.beq_iff.1 h]

theorem Source.holds_of_read {source : Source} {path : FilePath} {text : String}
    (h : source.read path = .ok text) : source.holds path = true := by
  cases source with
  | memory files =>
    simp only [Source.read] at h
    split at h
    next hfile => simp only [Source.holds, Table.has, hfile, Option.isSome_some]
    next => cases h
  | tree base files =>
    simp only [Source.read] at h
    split at h
    next hfile => simp only [Source.holds, hfile, Option.isSome_some]
    next => cases h

def Source.ScriptsIn (Script : FilePath → Prop) (source : Source) : Prop :=
  ∀ path, source.holds path = true → FileRole.ofPath path = .script → Script path

def Event.GivesOnly (Script : FilePath → Prop) : Event → Prop
  | .changed path _ | .opened path _ => FileRole.ofPath path = .script → Script path
  | _ => True

theorem Scan.ofPath_of_mem_scripts {w : Workspace} {roots : List FilePath} {path : FilePath}
    (h : path ∈ (filesOf w roots).scripts) : FileRole.ofPath path = .script := by
  have hcollect : ∀ (paths : List FilePath), ∀ p ∈ (WorkspaceFiles.ofPaths paths).scripts,
      FileRole.ofPath p = .script := by
    intro paths p hp
    have hmem := (List.mergeSort_perm _ _).mem_iff.1 hp
    exact beq_iff_eq.1 (List.mem_filter.1 hmem).2
  unfold filesOf at h
  cases hsource : w.source with
  | memory files =>
    rw [hsource] at h
    cases h
  | tree base t =>
    rw [hsource] at h
    dsimp only at h
    -- The induction over the roots is about whatever was found before them.
    have hroots : ∀ found : WorkspaceFiles, (∀ p ∈ found.scripts, FileRole.ofPath p = .script) →
        ∀ p ∈ (roots.foldl (fun found root => found.append (collect t w.settings base root)) found).scripts,
          FileRole.ofPath p = .script := by
      clear h
      induction roots with
      | nil => exact fun _ hfound => hfound
      | cons root roots ih =>
        intro found hfound
        refine ih (found.append (collect t w.settings base root)) fun p hp => ?_
        rcases List.mem_append.1 hp with hp | hp
        · exact hfound p hp
        · exact hcollect _ p hp
    exact hroots .empty (fun p hp => nomatch hp) path h

namespace Workspace

/-- The script at the path makes the class with the name when it is taken in, or is tried when the
name is looked up. -/
def Serves (w : Workspace) (path : FilePath) (name : String) : Prop :=
  w.className? path = some name ∨ path ∈ SourceKind.script.endings.filterMap (w.candidate? name)

structure SameNames (w v : Workspace) : Prop where
  className? : v.className? = w.className?
  candidate? : v.candidate? = w.candidate?

theorem SameNames.of_manifests {w v : Workspace} (h : v.manifests = w.manifests) : SameNames w v :=
  ⟨className?_congr h, candidate?_congr h⟩

theorem SameNames.serves {w v : Workspace} (h : SameNames w v) {path : FilePath} {name : String}
    (hserves : w.Serves path name) : v.Serves path name := by
  unfold Serves
  rw [h.className?, h.candidate?]
  exact hserves

theorem ofPath_of_mem_candidates {w : Workspace} {name : String} {path : FilePath}
    (h : path ∈ SourceKind.script.endings.filterMap (w.candidate? name)) :
    FileRole.ofPath path = .script := by
  obtain ⟨ending, hending, hpath⟩ := List.mem_filterMap.1 h
  obtain ⟨front, hfront⟩ := exists_text_of_candidate? hpath
  rcases List.mem_cons.1 hending with rfl | hending
  · exact FileRole.ofPath_eq_script hfront
  · obtain rfl : ending = ".controller.js" := List.mem_singleton.1 hending
    have hjs : path.text = front ++ ".controller" ++ ".js" := by
      rw [hfront, String.append_assoc]
      rfl
    exact FileRole.ofPath_eq_script hjs

theorem className?_congr_path {p q : FilePath} (h : (p == q) = true) (w : Workspace) :
    w.className? p = w.className? q := by
  unfold className? manifestForPath? FilePath.isBelow FilePath.below?
  rw [FilePath.beq_iff.1 h]

section

variable {Script : FilePath → Prop}

/-- If there is a script behind the class, it is one of `Script` that leads to the name. -/
def IsBacked (Script : FilePath → Prop) (w : Workspace) (name : String) (c : ClassDefinition) : Prop :=
  ∀ s, c.source? = some s → Script s.path ∧ w.Serves s.path name

theorem IsBacked.congr {w v : Workspace} {name : String} {c : ClassDefinition}
    (h : IsBacked Script w name c) (hnames : SameNames w v) : IsBacked Script v name c :=
  fun s hs => (h s hs).imp_right hnames.serves

structure Backed (Script : FilePath → Prop) (w : Workspace) : Prop where
  source : w.source.ScriptsIn Script
  classes (name : String) (c : ClassDefinition) : w.classes.lookup name = some c → IsBacked Script w name c

theorem isBacked_ofScript {w : Workspace} {path : FilePath} {name : String} (hpath : Script path)
    (hname : w.className? path = some name) (text : String) :
    IsBacked Script w name (ClassDefinition.ofScript name path text) := by
  rintro _ ⟨⟩
  exact ⟨hpath, .inl hname⟩

namespace Backed

variable {w : Workspace}

theorem congr (h : Backed Script w) {v : Workspace} (hsource : v.source = w.source)
    (hclasses : v.classes = w.classes) (hnames : SameNames w v) : Backed Script v where
  source := hsource ▸ h.source
  classes name c hc := (h.classes name c (hclasses ▸ hc)).congr hnames

theorem same (h : Backed Script w) {v : Workspace} (hsource : v.source = w.source)
    (hclasses : v.classes = w.classes) (hmanifests : v.manifests = w.manifests) : Backed Script v :=
  h.congr hsource hclasses (.of_manifests hmanifests)

theorem of_nil (hsource : w.source.ScriptsIn Script) (hclasses : w.classes = []) : Backed Script w where
  source := hsource
  classes name c hc := by
    rw [hclasses] at hc
    cases hc

theorem makes? (h : Backed Script w) {name : String} {c : ClassDefinition} (hc : w.makes? name = some c) :
    IsBacked Script w name c := by
  unfold Workspace.makes? at hc
  split at hc
  next path hpath =>
    split at hc
    · cases hc
      have hmem := List.mem_of_find?_eq_some hpath
      rintro _ ⟨⟩
      exact ⟨h.source path (List.find?_some hpath) (ofPath_of_mem_candidates hmem), .inr hmem⟩
    · cases hc
  next =>
    obtain ⟨_, -, rfl⟩ := Option.map_eq_some_iff.1 hc
    rintro _ ⟨⟩

theorem classNamed? (h : Backed Script w) {name : String} {c : ClassDefinition}
    (hc : w.classNamed? name = some c) : IsBacked Script w name c := by
  rcases Option.or_eq_some_iff.1 hc with hknown | ⟨-, hmade⟩
  · exact h.classes name c hknown
  · exact h.makes? hmade

theorem class? (h : Backed Script w) (name : String) : Backed Script (Workspace.class? name w).2 := by
  obtain ⟨_, _, hrun⟩ := class?_run name w
  rw [hrun]
  refine ⟨h.source, fun asked c hc => ?_⟩
  change (w.classesWith name).lookup asked = some c at hc
  rw [lookup_classesWith] at hc
  split at hc
  next hasked =>
    subst hasked
    exact (h.classNamed? hc).congr (.of_manifests rfl)
  next => exact (h.classes asked c hc).congr (.of_manifests rfl)

theorem putScript (h : Backed Script w) {path : FilePath} {name : String} (hpath : Script path)
    (hname : w.className? path = some name) (text : String) :
    Backed Script (w.putClass (ClassDefinition.ofScript name path text)) where
  source := h.source
  classes asked c hc := by
    rcases lookup_putClass hc with ⟨rfl, rfl⟩ | hc
    · exact (isBacked_ofScript hpath hname text).congr (.of_manifests rfl)
    · exact (h.classes asked c hc).congr (.of_manifests rfl)

theorem removeClass (h : Backed Script w) (removed : String) : Backed Script (w.removeClass removed) where
  source := h.source
  classes name c hc := (h.classes name c (lookup_removeClass hc)).congr (.of_manifests rfl)

theorem stable : Stable (Backed Script) where
  probe _ _ h := h.same rfl rfl rfl
  examine _ d h := of_examine (fun _ => h.same rfl rfl rfl) d
  putDocument _ _ h _ _ := h.same rfl rfl rfl
  setHandlers _ _ h := h.same rfl rfl rfl
  class? _ name h := h.class? name

theorem leave (h : Backed Script w) (request : Request) : Backed Script (request.leave w) :=
  (stable.indistinguishable fun _ _ hw => hw.same rfl rfl rfl).leave h request

theorem keeping (h : Backed Script w) (found? : Option Document) : Backed Script (w.keeping found?) := by
  cases found? with
  | none => exact h
  | some d => exact h.same rfl rfl rfl

theorem admitsMarkup : AdmitsMarkup (Backed Script) where
  probe := stable.probe
  load _ _ h := h.keeping _
  dropDocument _ _ h := h.same rfl rfl rfl
  markupChanged _ _ h := h.same rfl rfl rfl

theorem applyManifest (h : Backed Script w) (path : FilePath) (content? : Option String) :
    Backed Script (applyManifest path content? w).2 := by
  unfold Workspace.applyManifest
  simp only [bind_run, get_run]
  cases w.textOr path content? with
  | error fault => exact h
  | ok text =>
    -- Whatever the manifests are now, no class is known.
    refine of_nil ?_ rfl
    change (registerManifest path text w).2.source.ScriptsIn Script
    obtain ⟨_, hrun⟩ := Scan.registerManifest_run path text w
    rw [hrun]
    exact h.source

theorem applyMarkup (h : Backed Script w) (path : FilePath) (content? : Option String) :
    Backed Script (applyMarkup path content? w).2 := by
  refine (admitsMarkup.applyMarkup path content? fun text _ => .kept fun u hu => ?_).keeps h
  rw [setDocument_run]
  exact hu.keeping _

theorem applyScript (h : Backed Script w) {path : FilePath} (hrole : FileRole.ofPath path = .script)
    {content? : Option String} (hgiven : ∀ text, content? = some text → Script path) :
    Backed Script (applyScript path content? w).2 := by
  rcases applyScript_state path content? w with hsame | ⟨name, text, builds, hname, htext, hput⟩
  · rw [hsame]
    exact h
  · have hpath : Script path := by
      cases content? with
      | some given => exact hgiven given rfl
      | none => exact h.source path (Source.holds_of_read (read_of_textOr htext)) hrole
    rw [hput]
    exact (h.putScript hpath hname text).same rfl rfl rfl

theorem applyContent (h : Backed Script w) (path : FilePath) (content? : Option String)
    (hgiven : ∀ text, content? = some text → FileRole.ofPath path = .script → Script path) :
    Backed Script (applyContent path content? w).2 := by
  unfold Workspace.applyContent
  cases hrole : FileRole.ofPath path with
  | manifest => exact h.applyManifest path content?
  | markup kind => exact h.applyMarkup path content?
  | script => exact h.applyScript hrole fun text htext => hgiven text htext hrole
  | other => exact h

theorem forget (h : Backed Script w) (path : FilePath) : Backed Script (forget path w).2 := by
  unfold Workspace.forget
  cases FileRole.ofPath path with
  | manifest => exact of_nil h.source rfl
  | markup kind => exact (admitsMarkup.forgetMarkup path).keeps h
  | script =>
    simp only [bind_run, get_run]
    cases w.className? path with
    | some name => exact (h.removeClass name).same rfl rfl rfl
    | none => exact h
  | other => exact h

theorem clearCaches (h : Backed Script w) : Backed Script (clearCaches w).2 := by
  have hcleared : Backed Script w.resetModels.clearDocuments := of_nil h.source rfl
  exact ((admitsMarkup.loadDocuments _).keeps hcleared).same rfl rfl rfl

theorem handle (h : Backed Script w) {event : Event} (hevent : event.GivesOnly Script) :
    Backed Script (handle event w).2 := by
  cases event with
  | changed path content => exact h.applyContent path _ fun _ _ => hevent
  | opened path content => exact h.applyContent path _ fun _ _ => hevent
  | created path => exact h.applyContent path none nofun
  | deleted path => exact h.forget path
  | renamed source target => exact (h.forget source).applyContent target none nofun
  | configurationChanged => exact h.clearCaches

/-- The names may change only if all manifests are read, so that the models go. -/
theorem scan (h : Backed Script w) {stopAfter? : Option Nat} {roots : List FilePath}
    (hmanifests : Scan.ReadsManifests stopAfter? (Scan.filesOf w roots) ∨
      SameNames w (Scan.scan stopAfter? roots w).2) :
    Backed Script (Scan.scan stopAfter? roots w).2 := by
  change Backed Script (Scan.run stopAfter? (Scan.filesOf w roots) w).2
  have hsource := Scan.source_run stopAfter? (Scan.filesOf w roots) w
  by_cases hread : Scan.ReadsManifests stopAfter? (Scan.filesOf w roots)
  · refine ⟨hsource ▸ h.source, fun name c hc => ?_⟩
    obtain ⟨path, hpath, text, hname, htext, rfl⟩ := (Scan.holdsOnly_run hread w).classes name c hc
    have hrole := Scan.ofPath_of_mem_scripts (Scan.mem_of_mem_readable hpath)
    rw [hsource] at htext
    exact isBacked_ofScript (h.source path (Source.holds_of_read htext) hrole) hname text
  · refine h.congr hsource ?_ (hmanifests.resolve_left hread)
    obtain ⟨_, hrun⟩ := Scan.indexAll_manifests (Scan.readable stopAfter? 0 (Scan.filesOf w roots).manifests) w
    rw [Scan.run_ended hread, hrun]

end Backed

end

/-- Dealings in which the only scripts are those of `Script`. A scan that is stopped among its
manifests leaves the names as they are. -/
inductive ReachedWith (Script : FilePath → Prop) : Workspace → Prop
  | opened (settings : Settings) {source : Source} (metadata? : Option String)
      (cache : Catalog.CacheFiles) : source.ScriptsIn Script →
      ReachedWith Script (new settings source metadata? cache)
  | filesChanged {w : Workspace} {source : Source} : ReachedWith Script w → source.ScriptsIn Script →
      ReachedWith Script { w with source := source }
  | scanned {w : Workspace} {stopAfter? : Option Nat} {roots : List FilePath} : ReachedWith Script w →
      Scan.ReadsManifests stopAfter? (Scan.filesOf w roots) ∨
        SameNames w (Scan.scan stopAfter? roots w).2 →
      ReachedWith Script (Scan.scan stopAfter? roots w).2
  | notified {w : Workspace} {event : Event} : ReachedWith Script w → event.GivesOnly Script →
      ReachedWith Script (handle event w).2
  | asked {w : Workspace} (request : Request) : ReachedWith Script w → ReachedWith Script (request.leave w)

theorem ReachedWith.backed {Script : FilePath → Prop} {w : Workspace} (h : ReachedWith Script w) :
    Backed Script w := by
  induction h with
  | opened settings metadata? cache hsource => exact .of_nil hsource rfl
  | filesChanged _ hsource ih =>
    exact ⟨hsource, fun name c hc => (ih.classes name c hc).congr (.of_manifests rfl)⟩
  | scanned _ hmanifests ih => exact ih.scan hmanifests
  | notified _ hevent ih => exact ih.handle hevent
  | asked request _ ih => exact ih.leave request

theorem ReachedWith.script_of_classAt? {Script : FilePath → Prop} {w : Workspace}
    (hw : ReachedWith Script w) {path : FilePath} {c : ClassDefinition}
    (hc : (classAt? path w).1 = some c) : ∃ name found, w.className? path = some name ∧
      c.path? = some found ∧ Script found ∧ w.Serves found name := by
  unfold classAt? at hc
  rw [bind_run, get_run] at hc
  cases hname : w.className? path with
  | none =>
    rw [hname] at hc
    cases hc
  | some name =>
    rw [hname] at hc
    change ((class? name w).1).filter ClassDefinition.isProject = some c at hc
    rw [class?_fst] at hc
    obtain ⟨hclass, hproject⟩ := Option.filter_eq_some_iff.1 hc
    obtain ⟨s, hs⟩ := Option.isSome_iff_exists.1 hproject
    refine ⟨name, s.path, rfl, ?_, hw.backed.classNamed? hclass s hs⟩
    rw [ClassDefinition.path?, hs, Option.map_some]

/-- No script of `Script` but the one at the path leads to the class of the path. -/
def IsOnlyScript (Script : FilePath → Prop) (w : Workspace) (path : FilePath) : Prop :=
  ∀ name other, w.className? path = some name → Script other → w.Serves other name →
    (other == path) = true

/-- A class that is looked up by a path is backed by the file at the path, if no other script leads
to the class. -/
theorem class_at_path_backed_by_path {Script : FilePath → Prop} {w : Workspace}
    (hw : ReachedWith Script w) {path : FilePath} (honly : IsOnlyScript Script w path)
    {c : ClassDefinition} (hc : (classAt? path w).1 = some c) :
    ∃ found, c.path? = some found ∧ (found == path) = true := by
  obtain ⟨name, found, hname, hfound, hscript, hserves⟩ := hw.script_of_classAt? hc
  exact ⟨found, hfound, honly name found hname hscript hserves⟩

def sampleFiles : List (FilePath × String) :=
  [(⟨"/app/A.controller.js"⟩, "return B.extend(\"App.A\", \x7b go: function () \x7b\x7d \x7d);"),
    (⟨"/app/A.view.xml"⟩, "<View controllerName=\"App.A\"/>"),
    (⟨"/app/B.js"⟩, "return C.extend(\"App.B\", \x7b\x7d);")]

def IsSampleScript (path : FilePath) : Prop :=
  (path == ⟨"/app/A.controller.js"⟩) = true ∨ (path == ⟨"/app/B.js"⟩) = true

def sampleBacked : Workspace :=
  let w := new { Settings.builtIn with cacheEnabled := false } (.memory sampleFiles) none []
  let w := (handle (.changed ⟨"/app/manifest.json"⟩ "\x7b\"sap.app\":\x7b\"id\":\"App\"\x7d\x7d") w).2
  (handle (.created ⟨"/app/B.js"⟩) w).2

theorem scriptsIn_sampleFiles : (Source.memory sampleFiles).ScriptsIn IsSampleScript := by
  intro path hheld hrole
  by_cases hcontroller : (path == ⟨"/app/A.controller.js"⟩) = true
  · exact .inl hcontroller
  · by_cases hview : (path == ⟨"/app/A.view.xml"⟩) = true
    · rw [FileRole.ofPath_congr hview] at hrole
      exact absurd hrole (by decide)
    · by_cases hother : (path == ⟨"/app/B.js"⟩) = true
      · exact .inr hother
      · rw [Bool.not_eq_true] at hcontroller hview hother
        simp [Source.holds, Table.has, sampleFiles, List.lookup_cons, hcontroller, hview, hother] at hheld

theorem reachedWith_sampleBacked : ReachedWith IsSampleScript sampleBacked := by
  unfold sampleBacked
  exact .notified (.notified (.opened _ _ _ scriptsIn_sampleFiles) fun hrole => absurd hrole (by decide))
    trivial

theorem class_at_path_backed_by_path_sample :
    ReachedWith IsSampleScript sampleBacked ∧
      IsOnlyScript IsSampleScript sampleBacked ⟨"/app/./A.controller.js"⟩ ∧
      ∃ c, (classAt? ⟨"/app/./A.controller.js"⟩ sampleBacked).1 = some c ∧ c.name = "App.A" ∧
        ∃ found, c.path? = some found ∧ (found == ⟨"/app/./A.controller.js"⟩) = true := by
  have hnames : sampleBacked.className? ⟨"/app/./A.controller.js"⟩ = some "App.A" ∧
      sampleBacked.className? ⟨"/app/B.js"⟩ = some "App.B" ∧
      (∀ path ∈ SourceKind.script.endings.filterMap (sampleBacked.candidate? "App.A"),
        (path == ⟨"/app/B.js"⟩) = false) ∧
      ((classAt? ⟨"/app/./A.controller.js"⟩ sampleBacked).1).map ClassDefinition.name =
        some "App.A" := by decide +kernel
  obtain ⟨hname, hother, hcandidates, hclass⟩ := hnames
  obtain ⟨c, hc, hcname⟩ := Option.map_eq_some_iff.1 hclass
  have hreached := reachedWith_sampleBacked
  generalize sampleBacked = w at *
  have honly : IsOnlyScript IsSampleScript w ⟨"/app/./A.controller.js"⟩ := by
    rintro name path hasked (hpath | hpath) hserves
    · rw [FilePath.beq_congr_left hpath]
      decide
    · obtain rfl : "App.A" = name := Option.some.inj (hname.symm.trans hasked)
      rcases hserves with hserves | hserves
      · rw [className?_congr_path hpath, hother] at hserves
        exact absurd (Option.some.inj hserves) (by decide)
      · rw [hcandidates path hserves] at hpath
        cases hpath
  exact ⟨hreached, honly, c, hc, hcname, class_at_path_backed_by_path hreached honly hc⟩

end Workspace

end UiWorkspace
