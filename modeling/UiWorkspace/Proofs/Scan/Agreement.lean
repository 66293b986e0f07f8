import UiWorkspace.Proofs.Scan.Interruption
import UiWorkspace.Proofs.Workspace.ClearCaches
import UiWorkspace.Proofs.Workspace.HandlerMemo

/-! A scan and notices of the same files. The scan reads each file once and forgets the models once;
each notice forgets what may have changed and looks for controllers, for which it may read a view
before its turn. Both come to the same manifests, documents and classes. -/
namespace UiWorkspace.Scan

open UiWorkspace.Markup
open UiWorkspace.Workspace

theorem created_append (w : Workspace) (front back : List FilePath) :
    w.created (front ++ back) = (w.created front).created back :=
  List.foldl_append

theorem IsBlank.resetModels {w : Workspace} (h : IsBlank w) : w.resetModels = w := by
  obtain ⟨hclasses, htypes, hhandlers⟩ := h
  unfold Workspace.resetModels
  rw [← hclasses, ← htypes, ← hhandlers]

theorem IsBlank.setManifests {w : Workspace} (h : IsBlank w) (manifests : List Manifest) :
    IsBlank { w with manifests := manifests } :=
  ⟨h.classes, h.types, h.handlers⟩

theorem created_manifest {w : Workspace} (h : IsBlank w) {path : FilePath}
    (hrole : FileRole.ofPath path = .manifest) :
    (handle (.created path) w).2 = (indexFile .manifests path w).2 := by
  have hnotice : (handle (.created path) w).2 = (applyManifest path none w).2 := by
    change (applyContent path none w).2 = _
    unfold applyContent
    rw [hrole]
  rw [hnotice, indexFile, indexManifest_state]
  unfold applyManifest textOr loadManifest
  simp only [bind_run, get_run]
  cases w.readFile path with
  | error fault => rfl
  | ok text =>
    obtain ⟨manifests, hregister⟩ := registerManifest_run path text w
    change (registerManifest path text w).2.resetModels = (registerManifest path text w).2
    rw [hregister]
    exact (h.setManifests manifests).resetModels

theorem created_manifests {paths : List FilePath}
    (hroles : ∀ path ∈ paths, FileRole.ofPath path = .manifest) {w : Workspace} (h : IsBlank w) :
    w.created paths = indexAll .manifests paths w := by
  induction paths generalizing w with
  | nil => rfl
  | cons path paths ih =>
    obtain ⟨manifests, hrun⟩ := indexManifest_run path w
    have hblank : IsBlank (indexFile .manifests path w).2 := by
      rw [indexFile, hrun]
      exact h.setManifests manifests
    have hstep := created_manifest h (hroles path List.mem_cons_self)
    change ((handle (.created path) w).2).created paths = indexAll .manifests paths _
    rw [hstep]
    exact ih (fun p hp => hroles p (List.mem_cons_of_mem path hp)) hblank

/-- No class name leads to a view that is not listed. -/
def LeadsOnlyTo (views : List FilePath) (w : Workspace) : Prop :=
  ∀ name path, w.heldPath? name .view = some path → ∃ listed ∈ views, (listed == path) = true

/-- `u` differs from `v` only in documents that the rest of the files is still to give. All listed
views that are not kept are among this rest. -/
structure Ahead (views rest : List FilePath) (v u : Workspace) : Prop where
  source : u.source = v.source
  manifests : u.manifests = v.manifests
  classes : u.classes = v.classes
  types : u.types = TypeMemo.empty
  handlers : u.handlers = []
  sorted : SortedByPath u.documents
  sorted' : SortedByPath v.documents
  documents (path : FilePath) : u.cachedDocument? path = v.cachedDocument? path ∨
    ∃ later ∈ rest, (later == path) = true
  complete : LeadsOnlyTo views u
  waiting {view : FilePath} : view ∈ views → u.cachedDocument? view = none →
    ∃ later ∈ rest, (later == view) = true

namespace Ahead

variable {views rest : List FilePath} {v u : Workspace}

theorem readView (h : Ahead views rest v u) {name : String} {path : FilePath}
    (hheld : u.heldPath? name .view = some path) : Ahead views rest v (document? path u).2 := by
  rw [document?_run]
  cases hcached : u.cachedDocument? path with
  | some d => exact h
  | none =>
    cases hstored : u.stored? path with
    | none => exact h
    | some d =>
      obtain ⟨listed, hlisted, hsame⟩ := h.complete name path hheld
      obtain ⟨later, hlater, hpath⟩ := h.waiting hlisted (cachedDocument?_congr hsame ▸ hcached)
      have hread : (later == path) = true := (FilePath.beq_congr_left hpath path).trans hsame
      refine { h with sorted := h.sorted.insertDocument d, documents := fun p => ?_, waiting := ?_ }
      · change (u.putDocument d).cachedDocument? p = _ ∨ _
        rw [cachedDocument?_putDocument]
        split
        next hp =>
          rw [stored?_path hstored, ← FilePath.beq_congr_left hread] at hp
          exact .inr ⟨later, hlater, hp⟩
        next => exact h.documents p
      · intro view hview hnone
        change (u.putDocument d).cachedDocument? view = none at hnone
        rw [cachedDocument?_putDocument] at hnone
        split at hnone
        · cases hnone
        · exact h.waiting hview hnone

theorem keptController (h : Ahead views rest v u) (path : FilePath) :
    Ahead views rest v (keptController path u).2 := by
  have halike : SearchAlike (fun _ => True) (Kept (Ahead views rest v)) :=
    .kept (fun _ _ h => { h with }) fun _ _ _ h hheld => h.readView hheld
  exact (halike.keptController path).keeps h

theorem markupChanged (h : Ahead views rest v u) (controllers : List String) :
    Ahead views rest v (u.markupChanged controllers) := by
  refine { h with types := ?_, handlers := rfl }
  change controllers.foldl TypeMemo.invalidate u.types = _
  rw [h.types, invalidated_empty]

theorem putDocument {path : FilePath} (h : Ahead views (path :: rest) v u) {d : Document}
    (hd : d.path = path) : Ahead views rest (v.putDocument d) (u.putDocument d) := by
  have hrest : ∀ p, (d.path == p) ≠ true → (∃ later ∈ path :: rest, (later == p) = true) →
      ∃ later ∈ rest, (later == p) = true := by
    rintro p hne ⟨later, hlater, hp⟩
    rcases List.mem_cons.1 hlater with rfl | hlater
    · exact absurd (hd ▸ hp) hne
    · exact ⟨later, hlater, hp⟩
  refine { h with
    sorted := h.sorted.insertDocument d
    sorted' := h.sorted'.insertDocument d
    documents := fun p => ?_
    waiting := ?_ }
  · rw [cachedDocument?_putDocument, cachedDocument?_putDocument]
    split
    next => exact .inl rfl
    next hne => exact (h.documents p).imp_right (hrest p hne)
  · intro view hview hnone
    rw [cachedDocument?_putDocument] at hnone
    split at hnone
    · cases hnone
    next hne => exact hrest view hne (h.waiting hview hnone)

theorem created {path : FilePath} (h : Ahead views (path :: rest) v u) {kind : DocumentKind}
    (hrole : FileRole.ofPath path = .markup kind) {d : Document} (hstored : v.stored? path = some d) :
    Ahead views rest (v.putDocument d) (handle (.created path) u).2 := by
  have hbefore := h.keptController path
  rcases hu : Workspace.keptController path u with ⟨before, u'⟩
  rw [hu] at hbefore
  have hput := hbefore.putDocument (stored?_path hstored)
  have hafter := hput.keptController path
  rcases hv : Workspace.keptController path (u'.putDocument d) with ⟨after, u''⟩
  dsimp only at hafter
  rw [hv] at hafter
  have hload : loadDocument path u' = (some d, u'.putDocument d) := by
    rw [loadDocument_run, stored?_congr hbefore.source, hstored]
    rfl
  have hrun : (handle (.created path) u).2 = u''.markupChanged (before ++ after) := by
    change (applyContent path none u).2 = _
    rw [applyContent_markup hrole]
    exact applyMarkup_run hu hload hv
  rw [hrun]
  exact hafter.markupChanged _

/-- The notices of a phase come to what the phase comes to, but for views read before their turn. -/
theorem createdAll {paths : List FilePath} (h : Ahead views (paths ++ rest) v u) {phase : Phase}
    (hphase : phase = .fragments ∨ phase = .views) {kind : DocumentKind}
    (hroles : ∀ path ∈ paths, FileRole.ofPath path = .markup kind)
    (hreadable : ∀ path ∈ paths, ∃ text, v.source.read path = .ok text) :
    Ahead views rest (indexAll phase paths v) (u.created paths) := by
  induction paths generalizing v u with
  | nil => exact h
  | cons path paths ih =>
    obtain ⟨text, htext⟩ := hreadable path List.mem_cons_self
    have hrole := hroles path List.mem_cons_self
    have hstored : v.stored? path = some (Document.new path kind text) := by
      unfold stored?
      rw [htext]
      dsimp only
      rw [Document.ofPath?, ofPath_eq_markup.1 hrole]
      rfl
    have hindexed : (indexFile phase path v).2 = v.putDocument (Document.new path kind text) := by
      have hdocument : indexFile phase path = indexDocument path := by
        rcases hphase with rfl | rfl <;> rfl
      rw [hdocument, indexDocument_state, hstored]
      rfl
    change Ahead views rest (indexAll phase paths (indexFile phase path v).2) _
    rw [hindexed]
    exact ih (Ahead.created h hrole hstored) (fun p hp => hroles p (List.mem_cons_of_mem path hp))
      fun p hp => hreadable p (List.mem_cons_of_mem path hp)

theorem documents_eq (h : Ahead views [] v u) : u.documents = v.documents := by
  have hsame : ∀ path, u.cachedDocument? path = v.cachedDocument? path := fun path =>
    (h.documents path).elim id fun ⟨_, hlater, _⟩ => nomatch hlater
  refine h.sorted.ext h.sorted' fun d => ⟨fun hd => ?_, fun hd => ?_⟩
  · exact List.mem_of_find?_eq_some ((hsame d.path).symm.trans (h.sorted.find?_of_mem hd))
  · exact List.mem_of_find?_eq_some ((hsame d.path).trans (h.sorted'.find?_of_mem hd))

end Ahead

/-- `u` keeps what `v` keeps, and nothing has been worked out in it. -/
structure Agrees (v u : Workspace) : Prop where
  source : u.source = v.source
  manifests : u.manifests = v.manifests
  documents : u.documents = v.documents
  classes : u.classes = v.classes
  types : u.types = TypeMemo.empty
  handlers : u.handlers = []

namespace Agrees

variable {v u : Workspace}

theorem created (h : Agrees v u) {path : FilePath} (hrole : FileRole.ofPath path = .script) :
    Agrees (indexFile .scripts path v).2 (handle (.created path) u).2 := by
  have hnotice : (handle (.created path) u).2 = (applyScript path none u).2 := by
    change (applyContent path none u).2 = _
    rw [applyContent_script hrole]
  have hclass : u.className? path = v.className? path := congrFun (className?_congr h.manifests) path
  rw [hnotice, indexFile]
  cases hname : v.className? path with
  | none =>
    rw [hname] at hclass
    unfold indexScript applyScript
    simp only [bind_run, get_run, hname, hclass]
    exact h
  | some name =>
    rw [hname] at hclass
    cases hread : v.source.read path with
    | error fault =>
      have hfault : u.textOr path none = .error (.fileRead path fault) := by
        unfold textOr readFile
        rw [h.source, hread]
        rfl
      unfold indexScript applyScript
      simp only [bind_run, get_run, hname, hclass, hread, hfault]
      exact h
    | ok text =>
      have htext : u.textOr path none = .ok text := by
        unfold textOr readFile
        rw [h.source, hread]
        rfl
      rw [indexScript_state hname hread]
      rcases known_or_new v.classes name path text with ⟨c, hc, hmade⟩ | hnew
      · rw [setScript_known hc hmade, applyScript_known hclass htext (h.classes ▸ hc) hmade]
        exact h
      · rw [setScript_new hnew, applyScript_new hclass htext (h.classes ▸ hnew)]
        refine ⟨h.source, h.manifests, h.documents, ?_, ?_, rfl⟩
        · exact congrArg (Table.put name (ClassDefinition.ofScript name path text)) h.classes
        · exact congrArg (TypeMemo.invalidate · name) h.types

theorem createdAll (h : Agrees v u) {paths : List FilePath}
    (hroles : ∀ path ∈ paths, FileRole.ofPath path = .script) :
    Agrees (indexAll .scripts paths v) (u.created paths) := by
  induction paths generalizing v u with
  | nil => exact h
  | cons path paths ih =>
    exact ih (h.created (hroles path List.mem_cons_self))
      fun p hp => hroles p (List.mem_cons_of_mem path hp)

end Agrees

/-- The lists name files that can be read, each in the list for its role. -/
structure WellListed (files : WorkspaceFiles) (source : Source) : Prop where
  manifests : ∀ path ∈ files.manifests, FileRole.ofPath path = .manifest
  fragments : ∀ path ∈ files.fragments, FileRole.ofPath path = .markup .fragment
  views : ∀ path ∈ files.views, FileRole.ofPath path = .markup .view
  scripts : ∀ path ∈ files.scripts, FileRole.ofPath path = .script
  readable : ∀ path ∈ files.all, ∃ text, source.read path = .ok text

theorem WellListed.mem_views {files : WorkspaceFiles} {source : Source} (h : WellListed files source)
    {path : FilePath} (hpath : path ∈ files.all) (hview : FileRole.ofPath path = .markup .view) :
    path ∈ files.views := by
  simp only [WorkspaceFiles.all, List.mem_append] at hpath
  rcases hpath with ((hpath | hpath) | hpath) | hpath
  · rw [h.manifests path hpath] at hview
    cases hview
  · rw [h.fragments path hpath] at hview
    cases hview
  · exact hpath
  · rw [h.scripts path hpath] at hview
    cases hview

/-- In a source that holds no files but the listed ones, names lead to no others. -/
theorem leadsOnlyTo_of_holds {files : WorkspaceFiles} {w : Workspace} (h : WellListed files w.source)
    (hexact : ∀ path, w.source.holds path = true → ∃ listed ∈ files.all, (listed == path) = true) :
    LeadsOnlyTo files.views w := by
  intro name path hheld
  obtain ⟨listed, hlisted, hsame⟩ := hexact path (List.find?_some hheld)
  have hview : DocumentKind.ofPath? listed = some .view :=
    (ofPath?_congr hsame).trans (ofPath?_of_heldPath? hheld)
  exact ⟨listed, h.mem_views hlisted (ofPath_eq_markup.2 hview), hsame⟩

/-- The scan of files of a workspace that is just open, and notices that they have appeared, one
after the other, come to the same manifests, documents and classes, and work nothing out. No class
name may lead to a view that is not listed; none does where the source holds the listed files only. -/
theorem scan_agrees_with_notices {settings : Settings} {source : Source} {metadata? : Option String}
    {cache : Catalog.CacheFiles} {files : WorkspaceFiles} (hfiles : WellListed files source)
    {w : Workspace} (hw : w = new settings source metadata? cache)
    (hcomplete : LeadsOnlyTo files.views (w.created files.manifests)) :
    (run none files w).2.manifests = (w.created files.all).manifests ∧
    (run none files w).2.documents = (w.created files.all).documents ∧
    (run none files w).2.classes = (w.created files.all).classes ∧
    ((run none files w).2.types = TypeMemo.empty ∧ (run none files w).2.handlers = []) ∧
    (w.created files.all).types = TypeMemo.empty ∧ (w.created files.all).handlers = [] := by
  have hblank : IsBlank w := hw ▸ ⟨rfl, rfl, rfl⟩
  obtain ⟨manifests, hmanifests⟩ := indexAll_manifests files.manifests w
  have hcreated : w.created files.manifests = { w with manifests := manifests } :=
    (created_manifests hfiles.manifests hblank).trans hmanifests
  have hreads : ReadsManifests none files := rfl
  have hscanned : (run none files w).2 = indexAll .scripts files.scripts (indexAll .views files.views
      (indexAll .fragments files.fragments { w with manifests := manifests })) := by
    have hreset := (hblank.setManifests manifests).resetModels
    rw [← hmanifests] at hreset
    rw [run_of_readsManifests hreads, hreset, hmanifests]
    rfl
  have hnotified : w.created files.all = (((Workspace.created { w with manifests := manifests }
      files.fragments).created files.views).created files.scripts) := by
    rw [WorkspaceFiles.all, created_append, created_append, created_append, hcreated]
  have hreadable : ∀ path ∈ files.all, ∃ text, w.source.read path = .ok text := hw ▸ hfiles.readable
  have hdocuments : w.documents = [] := hw ▸ rfl
  have hsorted : SortedByPath w.documents := hdocuments ▸ List.Pairwise.nil
  have hstart : Ahead files.views (files.fragments ++ (files.views ++ []))
      { w with manifests := manifests } { w with manifests := manifests } :=
    { source := rfl
      manifests := rfl
      classes := rfl
      types := hblank.types
      handlers := hblank.handlers
      sorted := hsorted
      sorted' := hsorted
      documents := fun _ => .inl rfl
      complete := hcreated ▸ hcomplete
      waiting := fun {view} hview _ => ⟨view, by simp [hview], FilePath.beq_self view⟩ }
  have hfragments := hstart.createdAll (.inl rfl) hfiles.fragments fun path hpath =>
    hreadable path (by simp [WorkspaceFiles.all, hpath])
  have hviews := hfragments.createdAll (.inr rfl) hfiles.views fun path hpath => by
    rw [source_indexAll]
    exact hreadable path (by simp [WorkspaceFiles.all, hpath])
  have hscripts := Agrees.createdAll ⟨hviews.source, hviews.manifests, hviews.documents_eq,
    hviews.classes, hviews.types, hviews.handlers⟩ hfiles.scripts
  have hscan := holdsOnly_run hreads w
  rw [← hscanned, ← hnotified] at hscripts
  exact ⟨hscripts.manifests.symm, hscripts.documents.symm, hscripts.classes.symm,
    ⟨hscan.types, hscan.handlers⟩, hscripts.types, hscripts.handlers⟩

theorem holds_memory {entries : List (FilePath × String)} {path : FilePath}
    (h : (Source.memory entries).holds path = true) :
    ∃ listed ∈ entries.map Prod.fst, (listed == path) = true := by
  by_contra hnone
  have hlookup : entries.lookup path = none := by
    refine List.lookup_eq_none_iff.2 fun entry hentry => ?_
    have hne : (entry.1 == path) = false := Bool.eq_false_iff.2 fun hsame =>
      hnone ⟨entry.1, List.mem_map_of_mem hentry, hsame⟩
    rw [bne, FilePath.beq_comm, hne]
    rfl
  change (entries.lookup path).isSome = true at h
  rw [hlookup] at h
  cases h

def sampleTexts : List (FilePath × String) :=
  [(⟨"/a/manifest.json"⟩, "\x7b\"sap.app\":\x7b\"id\":\"A\"\x7d,\"sap.ui5\":\x7b\"extends\":\x7b" ++
      "\"extensions\":\x7b\"sap.ui.viewExtensions\":\x7b\"A.V\":\x7b\"p\":\x7b" ++
      "\"fragmentName\":\"A.F\"\x7d\x7d\x7d\x7d\x7d\x7d\x7d"),
    (⟨"/a/F.fragment.xml"⟩, "<F/>"), (⟨"/a/V.view.xml"⟩, "<V controllerName='A.C'/>"),
    (⟨"/a/C.js"⟩, "")]

def sampleFiles : WorkspaceFiles :=
  ⟨[⟨"/a/manifest.json"⟩], [⟨"/a/F.fragment.xml"⟩], [⟨"/a/V.view.xml"⟩], [⟨"/a/C.js"⟩]⟩

def sampleOpened : Workspace :=
  new { Settings.builtIn with cacheEnabled := false } (.memory sampleTexts) none []

/-- The notice of the fragment has the view read before its turn. -/
theorem scan_agrees_with_notices_sample :
    (sampleOpened.created (sampleFiles.manifests ++ sampleFiles.fragments)).documents.map
        (fun d => d.path.text) = ["/a/F.fragment.xml", "/a/V.view.xml"] ∧
    (run none sampleFiles sampleOpened).2.documents = (sampleOpened.created sampleFiles.all).documents ∧
    (run none sampleFiles sampleOpened).2.classes = (sampleOpened.created sampleFiles.all).classes := by
  obtain ⟨hearly, hreads⟩ :
      (sampleOpened.created (sampleFiles.manifests ++ sampleFiles.fragments)).documents.map
        (fun d => d.path.text) = ["/a/F.fragment.xml", "/a/V.view.xml"] ∧
      (sampleFiles.all.all fun path => (sampleOpened.source.read path).toBool) = true := by
    decide +kernel
  have hopened : sampleOpened =
      new { Settings.builtIn with cacheEnabled := false } (.memory sampleTexts) none [] := rfl
  have hnames : sampleTexts.map Prod.fst = sampleFiles.all := rfl
  have hlisted : WellListed sampleFiles (.memory sampleTexts) := by
    refine ⟨?_, ?_, ?_, ?_, fun path hpath => ?_⟩
    · exact List.forall_mem_singleton.2 (by decide)
    · exact List.forall_mem_singleton.2 (by decide)
    · exact List.forall_mem_singleton.2 (by decide)
    · exact List.forall_mem_singleton.2 (by decide)
    · have hread := List.all_eq_true.1 hreads path hpath
      cases hresult : sampleOpened.source.read path with
      | ok text => exact ⟨text, hresult⟩
      | error fault =>
        rw [hresult] at hread
        cases hread
  have hsource : (sampleOpened.created sampleFiles.manifests).source = .memory sampleTexts := by
    rw [created_manifests hlisted.manifests ⟨rfl, rfl, rfl⟩, source_indexAll]
    rfl
  have hcomplete : LeadsOnlyTo sampleFiles.views (sampleOpened.created sampleFiles.manifests) := by
    refine leadsOnlyTo_of_holds (hsource ▸ hlisted) fun path hholds => ?_
    rw [hsource] at hholds
    rw [← hnames]
    exact holds_memory hholds
  obtain ⟨-, hdocuments, hclasses, -⟩ := scan_agrees_with_notices hlisted hopened hcomplete
  exact ⟨hearly, hdocuments, hclasses⟩

end UiWorkspace.Scan
