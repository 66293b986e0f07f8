import UiWorkspace.Proofs.Workspace.Reachable

/-! Dropping the caches. What is kept of files that do not change is read again from them, so
that names lead to the same classes as before. Only which classes are known is forgotten. -/
namespace UiWorkspace.Workspace

open UiWorkspace.Markup

theorem insertDocument_last {ds : List Document} {d : Document}
    (h : ∀ e ∈ ds, FilePath.compare e.path d.path = .lt) : insertDocument d ds = ds ++ [d] := by
  induction ds with
  | nil => rfl
  | cons first rest ih =>
    have hgt := Std.OrientedCmp.gt_of_lt (h first List.mem_cons_self)
    unfold insertDocument
    rw [hgt, ih fun e he => h e (List.mem_cons_of_mem first he), List.cons_append]

theorem loadDocuments_run (ds : List Document) {w : Workspace}
    (hstored : ∀ d ∈ ds, w.stored? d.path = some d) (hsorted : SortedByPath (w.documents ++ ds)) :
    ∃ examined, (loadDocuments (ds.map Document.path) w).2 =
      { w with documents := w.documents ++ ds, examined := examined } := by
  induction ds generalizing w with
  | nil =>
    refine ⟨w.examined, ?_⟩
    rw [List.append_nil]
    rfl
  | cons d ds ih =>
    have hlast : insertDocument d w.documents = w.documents ++ [d] := by
      apply insertDocument_last
      intro e he
      exact (List.pairwise_append.1 hsorted).2.2 e he d List.mem_cons_self
    have hdocuments : (w.putDocument d).documents ++ ds = w.documents ++ d :: ds := by
      change insertDocument d w.documents ++ ds = _
      rw [hlast, List.append_assoc]
      rfl
    obtain ⟨examined, hrest⟩ := ih (w := w.putDocument d)
      (fun e he => hstored e (List.mem_cons_of_mem d he)) (hdocuments ▸ hsorted)
    refine ⟨examined, ?_⟩
    rw [hdocuments] at hrest
    have hload : (loadDocument d.path w).2 = w.putDocument d := by
      rw [loadDocument_run, hstored d List.mem_cons_self]
      rfl
    change (loadDocuments (ds.map Document.path) (loadDocument d.path w).2).2 = _
    rw [hload]
    exact hrest

/-- All that is kept was read from the source as it is, and nothing was worked out from it. -/
structure JustRead (w : Workspace) : Prop where
  stored {d : Document} : d ∈ w.documents → w.stored? d.path = some d
  sorted : SortedByPath w.documents
  types : w.types = TypeMemo.empty
  handlers : w.handlers = []
  catalog : w.catalog = freshCatalog w.settings w.metadata?

theorem invalidated_empty (controllers : List String) :
    controllers.foldl TypeMemo.invalidate TypeMemo.empty = TypeMemo.empty :=
  List.sublist_nil.1 (invalidated_sublist controllers _)

namespace JustRead

variable {w : Workspace}

theorem new {settings : Settings} (hcache : settings.cacheEnabled = false) (source : Source)
    (metadata? : Option String) (cache : Catalog.CacheFiles) :
    JustRead (new settings source metadata? cache) := by
  refine ⟨nofun, List.Pairwise.nil, rfl, rfl, ?_⟩
  unfold Workspace.new openCatalog
  rw [hcache]
  rfl

theorem admits : Admits JustRead where
  probe _ _ h := ⟨h.stored, h.sorted, h.types, h.handlers, h.catalog⟩
  load w path h := by
    cases hfound : w.stored? path with
    | none => exact h
    | some d =>
      refine ⟨@fun e he => ?_, h.sorted.insertDocument d, h.types, h.handlers, h.catalog⟩
      rcases mem_insertDocument he with rfl | he
      · rw [stored?_path hfound]
        exact hfound
      · exact h.stored he
  dropDocument _ _ h := ⟨fun hd => h.stored (List.mem_filter.1 hd).1, h.sorted.filter _, h.types,
    h.handlers, h.catalog⟩
  markupChanged w controllers h := by
    refine ⟨h.stored, h.sorted, ?_, rfl, h.catalog⟩
    change controllers.foldl TypeMemo.invalidate w.types = _
    rw [h.types, invalidated_empty]
  addManifest _ _ h := ⟨h.stored, h.sorted, h.types, h.handlers, h.catalog⟩
  removeManifest _ _ h := ⟨h.stored, h.sorted, h.types, h.handlers, h.catalog⟩
  resetModels _ h := ⟨h.stored, h.sorted, rfl, rfl, h.catalog⟩
  putBuilt _ _ _ _ _ h := ⟨h.stored, h.sorted, h.types, h.handlers, h.catalog⟩
  forgetDerived w className h := by
    refine ⟨h.stored, h.sorted, ?_, rfl, h.catalog⟩
    change w.types.invalidate className = _
    rw [h.types]
    rfl

end JustRead

def created (w : Workspace) (paths : List FilePath) : Workspace :=
  paths.foldl (fun w path => (handle (.created path) w).2) w

theorem JustRead.created {w : Workspace} (h : JustRead w) (paths : List FilePath) :
    JustRead (w.created paths) := by
  induction paths generalizing w with
  | nil => exact h
  | cons path paths ih => exact ih ((admits.applyContent path none nofun).keeps h)

/-- The class name of a script leads to the script. -/
def IsFileOfItsClass (w : Workspace) (path : FilePath) : Prop :=
  ∀ name, w.className? path = some name → w.heldPath? name .script = some path

/-- Every known class was made of one of the scripts, and reading that again makes it again. -/
def MadeOf (scripts : List FilePath) (w : Workspace) : Prop :=
  ∀ name c, w.classes.lookup name = some c → ∃ path ∈ scripts, ∃ text,
    FileRole.ofPath path = .script ∧ w.className? path = some name ∧
      w.source.read path = .ok text ∧ c = ClassDefinition.ofScript name path text

namespace MadeOf

variable {scripts : List FilePath} {w : Workspace}

theorem congr (h : MadeOf scripts w) {v : Workspace} (hclasses : v.classes = w.classes)
    (hmanifests : v.manifests = w.manifests) (hsource : v.source = w.source) : MadeOf scripts v := by
  unfold MadeOf
  rw [hclasses, className?_congr hmanifests, hsource]
  exact h

theorem of_nil (h : w.classes = []) : MadeOf scripts w := by
  intro name c hc
  rw [h] at hc
  cases hc

theorem applyManifest (h : MadeOf scripts w) (path : FilePath) :
    MadeOf scripts (applyManifest path none w).2 := by
  unfold Workspace.applyManifest
  simp only [bind_run, get_run]
  cases w.textOr path none with
  | error fault => exact h
  | ok text => exact of_nil rfl

theorem applyScript (h : MadeOf scripts w) {path : FilePath} (hpath : path ∈ scripts)
    (hrole : FileRole.ofPath path = .script) : MadeOf scripts (applyScript path none w).2 := by
  rcases applyScript_state path none w with hsame | ⟨name, text, builds, hname, htext, hput⟩
  · rw [hsame]
    exact h
  · rw [hput]
    intro asked c hc
    rcases lookup_putClass hc with ⟨rfl, rfl⟩ | hc
    · exact ⟨path, hpath, text, hrole, hname, read_of_textOr htext, rfl⟩
    · exact h asked c hc

theorem created (h : MadeOf scripts w) {paths : List FilePath} (hpaths : paths ⊆ scripts) :
    MadeOf scripts (w.created paths) := by
  induction paths generalizing w with
  | nil => exact h
  | cons path paths ih =>
    obtain ⟨hpath, hpaths⟩ := List.cons_subset.1 hpaths
    have hstep : MadeOf scripts (handle (.created path) w).2 := by
      cases hrole : FileRole.ofPath path with
      | manifest =>
        change MadeOf scripts (applyContent path none w).2
        unfold applyContent
        rw [hrole]
        exact h.applyManifest path
      | markup kind =>
        have hmodels := SameModels.handle hrole .created w
        exact h.congr hmodels.classes hmodels.manifests hmodels.source
      | script =>
        change MadeOf scripts (applyContent path none w).2
        rw [applyContent_script hrole]
        exact h.applyScript hpath hrole
      | other =>
        change MadeOf scripts (applyContent path none w).2
        unfold applyContent
        rw [hrole]
        exact h
    exact ih hstep hpaths

theorem makes? (h : MadeOf scripts w)
    (hscripts : ∀ path ∈ scripts, FileRole.ofPath path = .script → w.IsFileOfItsClass path)
    {name : String} {c : ClassDefinition} (hc : w.classes.lookup name = some c) : w.makes? name = some c := by
  obtain ⟨path, hpath, text, hrole, hname, htext, rfl⟩ := h name c hc
  unfold Workspace.makes?
  rw [hscripts path hpath hrole name hname]
  dsimp only
  rw [htext]

end MadeOf

theorem clearCaches_run {w : Workspace} (h : JustRead w) :
    ∃ examined cache, (clearCaches w).2 =
      { w with classes := [], examined := examined, cache := cache } := by
  obtain ⟨examined, hload⟩ := loadDocuments_run w.documents (w := w.resetModels.clearDocuments)
    (fun _ => h.stored) h.sorted
  have hrun : (clearCaches w).2 =
      (fun u : Workspace =>
        { u with
          cache := if u.settings.cacheEnabled then Catalog.clear u.cache else u.cache
          catalog := freshCatalog u.settings u.metadata? })
        (loadDocuments (w.documents.map Document.path) w.resetModels.clearDocuments).2 := rfl
  refine ⟨examined, if w.settings.cacheEnabled then Catalog.clear w.cache else w.cache, ?_⟩
  rw [hrun, hload]
  simp only [resetModels, clearDocuments, h.types, h.handlers, h.catalog, List.nil_append]

structure SameScripts (w v : Workspace) : Prop extends SameView w v where
  settings : w.settings = v.settings
  types : w.types = v.types

namespace SameScripts

variable {w v : Workspace}

theorem class? (h : SameScripts w v) (name : String) :
    (Workspace.class? name w).1 = (Workspace.class? name v).1 ∧
      SameScripts (Workspace.class? name w).2 (Workspace.class? name v).2 := by
  obtain ⟨hvalue, hview⟩ := h.toSameView.class? name
  obtain ⟨_, _, hw⟩ := class?_run name w
  obtain ⟨_, _, hv⟩ := class?_run name v
  rw [hw, hv] at hvalue hview ⊢
  exact ⟨hvalue, hview, h.settings, h.types⟩

theorem examine (h : SameScripts w v) (d : Document) :
    SameScripts (Workspace.examine d w).2 (Workspace.examine d v).2 := by
  have hview := h.toSameView.examine d
  obtain ⟨_, hw⟩ := examine_run d w
  obtain ⟨_, hv⟩ := examine_run d v
  rw [hw, hv] at hview ⊢
  exact ⟨hview, h.settings, h.types⟩

theorem typesAlike : TypesAlike SameScripts := by
  refine ScriptsAlike.typesAlike (fun _ _ h => h.types)
    (fun _ _ _ h => ⟨⟨h.source, h.manifests, h.catalog, h.documents, h.classes⟩, h.settings, rfl⟩) ?_
  exact
    { source := fun h => h.source
      manifests := fun h => h.manifests
      documents := fun h => h.documents
      probe := fun path h => ⟨SameView.controlsAlike.probe path h.toSameView, h.settings, h.types⟩
      putDocument := fun d h hnone hstored =>
        ⟨SameView.controlsAlike.putDocument d h.toSameView hnone hstored, h.settings, h.types⟩
      examine := fun d _ _ h => ⟨rfl, h.examine d⟩
      class? := fun name _ _ h => h.class? name
      settings := fun h => h.settings }

end SameScripts

theorem projectNames_class? (name : String) (w : Workspace) :
    (class? name w).2.projectNames = w.projectNames ++
      if (w.classNamed? name).any ClassDefinition.isProject = true ∧ name ∉ w.projectNames then [name]
      else [] := by
  obtain ⟨_, _, hrun⟩ := class?_run name w
  rw [hrun]
  change ((w.classesWith name).filter fun e => e.2.isProject).map Prod.fst = _
  unfold classesWith classNamed?
  cases hknown : w.classes.lookup name with
  | some c =>
    rw [Option.some_or, if_neg fun h => h.2 (mem_projectNames_of_lookup hknown h.1), List.append_nil]
    rfl
  | none =>
    have hnew : name ∉ w.projectNames := by
      intro hmem
      obtain ⟨c, hc⟩ := lookup_of_mem_projectNames hmem
      rw [hknown] at hc
      cases hc
    rw [Option.none_or]
    cases hmade : w.makes? name with
    | none =>
      rw [if_neg fun h => Bool.false_ne_true h.1, List.append_nil]
      rfl
    | some c =>
      dsimp only
      -- A name that was not known comes last.
      rw [makes?_name hmade, Table.put_of_lookup_eq_none hknown, List.filter_append, List.map_append]
      change w.projectNames ++ _ = _
      cases hproject : c.isProject <;> simp [hproject, hnew]

structure SameAnswers (w v : Workspace) : Prop extends SameScripts w v where
  handlers : w.handlers = v.handlers
  names : w.projectNames.Perm v.projectNames

namespace SameAnswers

variable {w v : Workspace}

theorem class? (h : SameAnswers w v) (name : String) :
    (Workspace.class? name w).1 = (Workspace.class? name v).1 ∧
      SameAnswers (Workspace.class? name w).2 (Workspace.class? name v).2 := by
  obtain ⟨hvalue, hscripts⟩ := h.toSameScripts.class? name
  refine ⟨hvalue, hscripts, ?_, ?_⟩
  · obtain ⟨_, _, hw⟩ := class?_run name w
    obtain ⟨_, _, hv⟩ := class?_run name v
    rw [hw, hv]
    exact h.handlers
  · rw [projectNames_class?, projectNames_class?, h.classes]
    simp only [h.names.mem_iff]
    exact h.names.append_right _

theorem examine (h : SameAnswers w v) (d : Document) :
    SameAnswers (Workspace.examine d w).2 (Workspace.examine d v).2 := by
  have hscripts := h.toSameScripts.examine d
  obtain ⟨_, hw⟩ := examine_run d w
  obtain ⟨_, hv⟩ := examine_run d v
  rw [hw, hv] at hscripts ⊢
  exact ⟨hscripts, h.handlers, h.names⟩

theorem lookup_eq (h : SameAnswers w v) {name : String} (hname : name ∈ v.projectNames) :
    w.classes.lookup name = v.classes.lookup name := by
  obtain ⟨c, hc⟩ := lookup_of_mem_projectNames (h.names.mem_iff.2 hname)
  obtain ⟨c', hc'⟩ := lookup_of_mem_projectNames hname
  have hsame := h.classes name
  unfold classNamed? at hsame
  rw [hc, hc', Option.some_or, Option.some_or] at hsame
  rw [hc, hc', hsame]

theorem readsAlike : ReadsAlike SameAnswers where
  source h := h.source
  manifests h := h.manifests
  documents h := h.documents
  probe path h := ⟨SameScripts.typesAlike.probe path h.toSameScripts, h.handlers, h.names⟩
  putDocument d h hnone hstored :=
    ⟨SameScripts.typesAlike.putDocument d h.toSameScripts hnone hstored, h.handlers, h.names⟩

theorem controllersAlike : ControllersAlike SameAnswers where
  toReadsAlike := readsAlike
  names h := projectClassNames_eq_iff.2 h.names
  known {_ v _} h hname := h.lookup_eq ((List.mergeSort_perm v.projectNames _).mem_iff.1 hname)

theorem scriptsAlike : ScriptsAlike SameAnswers where
  toReadsAlike := readsAlike
  examine d _ _ h := ⟨rfl, h.examine d⟩
  class? name _ _ h := h.class? name
  settings h := h.settings

theorem congruence : Congruence SameAnswers :=
  .of_handlers controllersAlike scriptsAlike (fun h => h.handlers) fun _ h =>
    ⟨⟨⟨h.source, h.manifests, h.catalog, h.documents, h.classes⟩, h.settings, h.types⟩, rfl, h.names⟩

theorem indistinguishable : Indistinguishable SameAnswers :=
  congruence.indistinguishable (fun _ _ h => h.types) fun _ _ _ h =>
    ⟨⟨⟨h.source, h.manifests, h.catalog, h.documents, h.classes⟩, h.settings, rfl⟩, h.handlers, h.names⟩

end SameAnswers

theorem sameScripts_clearCaches {w : Workspace} (h : JustRead w)
    (hknown : ∀ name c, w.classes.lookup name = some c → w.makes? name = some c) :
    SameScripts w (clearCaches w).2 := by
  obtain ⟨examined, cache, hrun⟩ := clearCaches_run h
  rw [hrun]
  refine ⟨⟨rfl, rfl, rfl, rfl, fun name => ?_⟩, rfl, rfl⟩
  -- No class is known any more, so every name leads to what is made of it.
  change (w.classes.lookup name).or (w.makes? name) = w.makes? name
  cases hlookup : w.classes.lookup name with
  | none => exact Option.none_or
  | some c => rw [hknown name c hlookup, Option.some_or]

def lookedUp (w : Workspace) (names : List String) : Workspace :=
  names.foldl (fun w name => (class? name w).2) w

theorem lookedUp_keeps {w v : Workspace} (h : SameScripts w v) (hhandlers : w.handlers = v.handlers)
    (names : List String) :
    SameScripts w (v.lookedUp names) ∧ w.handlers = (v.lookedUp names).handlers := by
  induction names generalizing v with
  | nil => exact ⟨h, hhandlers⟩
  | cons name names ih =>
    have hlearned := Learned.class? name v
    obtain ⟨_, _, hrun⟩ := class?_run name v
    have hscripts : SameScripts w (class? name v).2 := by
      rw [hrun] at hlearned ⊢
      refine ⟨⟨h.source, h.manifests, h.catalog, h.documents, fun asked => ?_⟩, h.settings, h.types⟩
      rw [hlearned.classNamed?]
      exact h.classes asked
    have hsame : w.handlers = (class? name v).2.handlers := by
      rw [hrun]
      exact hhandlers
    exact ih hscripts hsame

def renameAt (path : FilePath) (offset : Nat) (newName : String) :
    Query (Except WorkspaceError (List Edit)) := do
  match ← prepareRename path offset with
  | .error e => return .error e
  | .ok target => return .ok (← rename target newName)

theorem Indistinguishable.renameAt {Q : Workspace → Workspace → Prop} (C : Indistinguishable Q)
    (path : FilePath) (offset : Nat) (newName : String) : Respects Q (renameAt path offset newName) := by
  apply (C.prepareRename path offset).bind
  intro result
  split
  · exact .ret _
  · exact (C.rename _ newName).bind fun _ => .ret _

/-- After files have been taken in from a source that stays as it is, dropping the caches changes
no answer about a place in a script, and none at all once the classes of the project that were
known before are known again. Each script has to be the file that its class name leads to. -/
theorem clearCaches_changes_no_answer {settings : Settings} (hcache : settings.cacheEnabled = false)
    {source : Source} {metadata? : Option String} {cache : Catalog.CacheFiles} {paths : List FilePath}
    {w : Workspace} (hw : w = (new settings source metadata? cache).created paths)
    (hscripts : ∀ path ∈ paths, FileRole.ofPath path = .script → w.IsFileOfItsClass path) :
    (∀ path offset, FileRole.ofPath path = .script →
      (prepareRename path offset w).1 = (prepareRename path offset (clearCaches w).2).1 ∧
      (definitionAt? path offset w).1 = (definitionAt? path offset (clearCaches w).2).1) ∧
    ∀ names v, v = (clearCaches w).2.lookedUp names → w.projectClassNames = v.projectClassNames →
      ∀ path offset newName,
        (prepareRename path offset w).1 = (prepareRename path offset v).1 ∧
        (renameAt path offset newName w).1 = (renameAt path offset newName v).1 ∧
        (controllerAt? path w).1 = (controllerAt? path v).1 ∧
        (definitionAt? path offset w).1 = (definitionAt? path offset v).1 := by
  have hread : JustRead w := hw ▸ (JustRead.new hcache source metadata? cache).created paths
  have hmade : MadeOf paths w := hw ▸ (MadeOf.of_nil rfl).created (List.Subset.refl paths)
  have hcleared : SameScripts w (clearCaches w).2 :=
    sameScripts_clearCaches hread fun _ _ hc => hmade.makes? hscripts hc
  have hhandlers : w.handlers = (clearCaches w).2.handlers := by
    obtain ⟨_, _, hrun⟩ := clearCaches_run hread
    rw [hrun]
  refine ⟨fun path offset hpath => ?_, fun names v hv hnames path offset newName => ?_⟩
  · have hreference := SameScripts.typesAlike.referenceAt?_script hpath offset
    exact ⟨(SameScripts.typesAlike.prepareRename_of_reference hreference _ _ hcleared).1,
      (SameScripts.typesAlike.definitionAt?_of_reference hreference _ _ hcleared).1⟩
  · subst hv
    obtain ⟨hsame, hhandlers'⟩ := lookedUp_keeps hcleared hhandlers names
    have h : SameAnswers w ((clearCaches w).2.lookedUp names) :=
      ⟨hsame, hhandlers', projectClassNames_eq_iff.1 hnames⟩
    have C := SameAnswers.indistinguishable
    exact ⟨(C.prepareRename path offset _ _ h).1, (C.renameAt path offset newName _ _ h).1,
      (C.controllerAt? path _ _ h).1, (C.definitionAt? path offset _ _ h).1⟩

def sampleRead : Workspace :=
  (new { Settings.builtIn with cacheEnabled := false }
    (.memory
      [(⟨"/app/manifest.json"⟩, "\x7b\"sap.app\":\x7b\"id\":\"App\"\x7d\x7d"),
        (⟨"/app/C.js"⟩, "sap.ui.define([], () => Base.extend('App.C', \x7b go() \x7b\x7d \x7d));")])
    none []).created [⟨"/app/manifest.json"⟩, ⟨"/app/C.js"⟩]

theorem clearCaches_changes_no_answer_sample :
    sampleRead.projectClassNames = ["App.C"] ∧ ∀ path offset newName,
      (renameAt path offset newName sampleRead).1 =
        (renameAt path offset newName ((clearCaches sampleRead).2.lookedUp ["App.C"])).1 := by
  have hnames : sampleRead.projectClassNames = ["App.C"] := by decide +kernel
  have hnames' : ((clearCaches sampleRead).2.lookedUp ["App.C"]).projectClassNames = ["App.C"] := by
    decide +kernel
  have hmanifest : FileRole.ofPath ⟨"/app/manifest.json"⟩ ≠ .script := by decide
  have hname : sampleRead.className? ⟨"/app/C.js"⟩ = some "App.C" := by decide +kernel
  have hheld : (sampleRead.heldPath? "App.C" .script).map FilePath.text = some "/app/C.js" := by
    decide +kernel
  refine ⟨hnames, fun path offset newName => ?_⟩
  have hscripts : ∀ path ∈ [⟨"/app/manifest.json"⟩, ⟨"/app/C.js"⟩], FileRole.ofPath path = .script →
      sampleRead.IsFileOfItsClass path := by
    intro path hpath hrole name hclass
    rcases List.mem_cons.1 hpath with rfl | hpath
    · exact absurd hrole hmanifest
    · cases List.mem_singleton.1 hpath
      rw [hname] at hclass
      cases hclass
      obtain ⟨⟨_⟩, hfound, rfl⟩ := Option.map_eq_some_iff.1 hheld
      exact hfound
  have hall := (clearCaches_changes_no_answer rfl rfl hscripts).2 ["App.C"] _ rfl
    (hnames.trans hnames'.symm)
  exact (hall path offset newName).2.1

end UiWorkspace.Workspace
