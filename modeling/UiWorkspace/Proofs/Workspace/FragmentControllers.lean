import Mathlib.Logic.Relation
import UiWorkspace.Proofs.Workspace.ControlReach
import UiWorkspace.Proofs.Workspace.HandlerMemo

/-! What the search for the controller of a fragment comes to. It ends by itself, however fragments
include one another, and it gives a controller just if the fragment, or one that includes it directly
or through others, has something that a controller can be told by. What the search visits without
finding a controller is closed: all that includes it has been visited as well, and none of it has
anything to tell a controller by. -/
namespace UiWorkspace.Workspace

open UiWorkspace.Markup
open Relation (ReflTransGen)

/-- The second name is that of a kept fragment which includes the one with the first name. -/
def IncludedBy (w : Workspace) (name outer : String) : Prop :=
  ∃ d ∈ w.fragments, d.includes name = true ∧ w.className? d.path = some outer

/-- Something that tells a controller of the fragment itself: a view with a controller that includes
it, a class whose script mentions it, or a manifest that puts it into a view with a controller. -/
inductive HasEvidence (w : Workspace) (name : String) : Prop
  | view {v : Document} :
      v ∈ w.views → v.includes name = true → v.controller?.isSome → HasEvidence w name
  | mention {className : String} {c : ClassDefinition} {script : ProjectSource} :
      w.classes.lookup className = some c → c.source? = some script →
      mentions script.text name = true → HasEvidence w name
  | extension {m : Manifest} {e : ViewExtension} {path : FilePath} {v : Document} :
      m ∈ w.manifests → e ∈ m.viewExtensions → e.fragment = name →
      w.heldPath? e.view .view = some path → w.offered? path = some v → v.controller?.isSome →
      HasEvidence w name

theorem mem_includingFragments {w : Workspace} {name outer : String} :
    outer ∈ w.includingFragments name ↔ w.IncludedBy name outer := by
  simp only [includingFragments, List.mem_filterMap, List.mem_filter, IncludedBy, and_assoc]

theorem includingController?_isSome {w : Workspace} {name : String} :
    (w.includingController? name).isSome ↔
      ∃ v ∈ w.views, v.includes name = true ∧ v.controller?.isSome := by
  simp only [includingController?, List.findSome?_isSome_iff, List.mem_filter, and_assoc]

theorem mentioningClass?_isSome {w : Workspace} {name : String} :
    (w.mentioningClass? name).isSome ↔ ∃ className c script, w.classes.lookup className = some c ∧
      c.source? = some script ∧ mentions script.text name = true := by
  simp only [← mem_mentioners, mentioningClass?, List.find?_isSome]
  refine exists_congr fun className => ?_
  rw [mentioners, List.mem_filter, projectClassNames, (List.mergeSort_perm _ _).mem_iff]
  rfl

theorem mem_extensionsWith {w : Workspace} {name : String} {m : Manifest} {e : ViewExtension} :
    (m, e) ∈ w.extensionsWith name ↔ m ∈ w.manifests ∧ e ∈ m.viewExtensions ∧ e.fragment = name := by
  simp [extensionsWith]

def extendedFrom? (w : Workspace) (e : ViewExtension) : Option String :=
  ((w.heldPath? e.view .view).bind w.offered?).bind Document.controller?

theorem extendedFrom?_isSome {w : Workspace} {e : ViewExtension} :
    (w.extendedFrom? e).isSome ↔ ∃ path v, w.heldPath? e.view .view = some path ∧
      w.offered? path = some v ∧ v.controller?.isSome := by
  unfold extendedFrom?
  cases w.heldPath? e.view .view with
  | none => simp
  | some path => cases hv : w.offered? path <;> simp [hv]

theorem hasEvidence_iff {w : Workspace} {name : String} :
    w.HasEvidence name ↔ (w.includingController? name).isSome ∨ (w.mentioningClass? name).isSome ∨
      ∃ p ∈ w.extensionsWith name, (w.extendedFrom? p.2).isSome := by
  rw [includingController?_isSome, mentioningClass?_isSome]
  constructor
  · intro h
    cases h with
    | view hv hincludes hcontroller => exact .inl ⟨_, hv, hincludes, hcontroller⟩
    | mention hc hscript hmentions => exact .inr (.inl ⟨_, _, _, hc, hscript, hmentions⟩)
    | extension hm he hname hpath hv hcontroller =>
      exact .inr (.inr ⟨(_, _), mem_extensionsWith.2 ⟨hm, he, hname⟩,
        extendedFrom?_isSome.2 ⟨_, _, hpath, hv, hcontroller⟩⟩)
  · rintro (⟨v, hv, hincludes, hcontroller⟩ | ⟨_, c, script, hc, hscript, hmentions⟩ | ⟨⟨m, e⟩, hp, hfrom⟩)
    · exact .view hv hincludes hcontroller
    · exact .mention hc hscript hmentions
    · obtain ⟨hm, he, hname⟩ := mem_extensionsWith.1 hp
      obtain ⟨path, v, hpath, hv, hcontroller⟩ := extendedFrom?_isSome.1 hfrom
      exact .extension hm he hname hpath hv hcontroller

theorem includingController?_of_first {w : Workspace} (hsorted : SortedByPath w.documents)
    {name controller : String} {v : Document} (hv : v ∈ w.views) (hincludes : v.includes name = true)
    (hcontroller : v.controller? = some controller)
    (hfirst : ∀ u ∈ w.views, u.includes name = true → u.controller?.isSome →
      FilePath.compare u.path v.path ≠ .lt) : w.includingController? name = some controller := by
  have hsorted : SortedByPath (w.views.filter fun u => u.includes name) := (hsorted.filter _).filter _
  have hmem : v ∈ w.views.filter fun u => u.includes name := List.mem_filter.2 ⟨hv, hincludes⟩
  obtain ⟨found, hfound⟩ := Option.isSome_iff_exists.1
    (List.findSome?_isSome_iff.2 ⟨v, hmem, Option.isSome_of_eq_some hcontroller⟩)
  obtain ⟨front, u, back, hsplit, hu, hfront⟩ := List.findSome?_eq_some_iff.1 hfound
  rw [hsplit] at hmem hsorted
  rw [includingController?, hfound, ← hu]
  rcases List.mem_append.1 hmem with hmem | hmem
  · rw [hfront v hmem] at hcontroller
    cases hcontroller
  · rcases List.mem_cons.1 hmem with rfl | hmem
    · exact hcontroller
    · have hlt := (List.pairwise_cons.1 (List.pairwise_append.1 hsorted).2.1).1 v hmem
      have hu' : u ∈ w.views.filter fun u => u.includes name := by simp [hsplit]
      obtain ⟨hu', hincludes'⟩ := List.mem_filter.1 hu'
      exact absurd hlt (hfirst u hu' hincludes' (Option.isSome_of_eq_some hu))

theorem fragments_putDocument {w : Workspace} {d : Document} (hnone : w.cachedDocument? d.path = none)
    (hkind : d.kind = .view) : (w.putDocument d).fragments = w.fragments := by
  obtain ⟨front, back, hds, hput⟩ := exists_insertDocument hnone
  have hdocuments : (w.putDocument d).documents = front ++ d :: back := hput
  rw [fragments, fragments, hdocuments, hds, List.filter_append, List.filter_append,
    List.filter_cons_of_neg (by simp [hkind])]

theorem includingController?_putDocument {w : Workspace} {d : Document}
    (hnone : w.cachedDocument? d.path = none) (hcontroller : d.controller? = none) (name : String) :
    (w.putDocument d).includingController? name = w.includingController? name := by
  obtain ⟨front, back, hds, hput⟩ := exists_insertDocument hnone
  have hdocuments : (w.putDocument d).documents = front ++ d :: back := hput
  rw [includingController?, includingController?, views, views, List.filter_filter, List.filter_filter,
    hdocuments, hds, List.filter_append, List.filter_append, List.findSome?_append,
    List.findSome?_append, List.filter_cons]
  split
  · rw [List.findSome?_cons, hcontroller]
  · rfl

/-- The state of a search from `start` that has found nothing so far: at most views without a controller
have been read. -/
structure SearchedFrom (start w : Workspace) : Prop where
  learned : Learned start w
  classes : w.classes = start.classes
  fragments : w.fragments = start.fragments
  including (name : String) : w.includingController? name = start.includingController? name

namespace SearchedFrom

variable {start w : Workspace}

theorem refl (w : Workspace) : SearchedFrom w w := ⟨.refl w, rfl, rfl, fun _ => rfl⟩

theorem probing (h : SearchedFrom start w) (probes : List FilePath) :
    SearchedFrom start (w.probing probes) :=
  have ⟨hsettings, hsource, hmanifests, hcatalog, hclasses, hdocuments, hkept, hloaded⟩ := h.learned
  ⟨⟨hsettings, hsource, hmanifests, hcatalog, hclasses, hdocuments, hkept, hloaded⟩, h.classes,
    h.fragments, h.including⟩

theorem putView (h : SearchedFrom start w) {d : Document} (hnone : w.cachedDocument? d.path = none)
    (hstored : w.stored? d.path = some d) (hkind : d.kind = .view) (hcontroller : d.controller? = none) :
    SearchedFrom start (w.putDocument d) where
  learned := h.learned.putDocument hnone hstored
  classes := h.classes
  fragments := (fragments_putDocument hnone hkind).trans h.fragments
  including name := (includingController?_putDocument hnone hcontroller name).trans (h.including name)

theorem includingFragments (h : SearchedFrom start w) (name : String) :
    w.includingFragments name = start.includingFragments name := by
  unfold Workspace.includingFragments
  rw [h.fragments, className?_congr h.learned.manifests]

theorem mentioningClass? (h : SearchedFrom start w) (name : String) :
    w.mentioningClass? name = start.mentioningClass? name := by
  unfold Workspace.mentioningClass? projectClassNames
  rw [h.classes]

theorem extensionsWith (h : SearchedFrom start w) (name : String) :
    w.extensionsWith name = start.extensionsWith name := by
  unfold Workspace.extensionsWith
  rw [h.learned.manifests]

theorem heldPath? (h : SearchedFrom start w) (name : String) (kind : SourceKind) :
    w.heldPath? name kind = start.heldPath? name kind := by
  unfold Workspace.heldPath?
  rw [h.learned.source, candidate?_congr h.learned.manifests]

end SearchedFrom

def viewExtended? (e : ViewExtension) : Query (Option Document) := do
  match ← sourcePath? e.view .view with
  | some path => document? path
  | none => pure none

theorem viewExtended?_run (e : ViewExtension) (w : Workspace) :
    ∃ probes, viewExtended? e w =
      match w.heldPath? e.view .view with
      | none => (none, w.probing probes)
      | some path => ((w.probing probes).offered? path, (w.probing probes).fetch path) := by
  obtain ⟨probes, hpath⟩ := sourcePath?_run e.view .view w
  refine ⟨probes, ?_⟩
  unfold viewExtended?
  rw [bind_run, hpath]
  cases w.heldPath? e.view .view with
  | none => rfl
  | some path => exact document?_eq path _

theorem extendedController?_cons (m : Manifest) (e : ViewExtension)
    (rest : List (Manifest × ViewExtension)) (w : Workspace) :
    extendedController? ((m, e) :: rest) w =
      match (viewExtended? e w).1.bind Document.controller? with
      | some controller =>
        (some ((m.controllerReplacement? controller).getD controller), (viewExtended? e w).2)
      | none => extendedController? rest (viewExtended? e w).2 := by
  rw [extendedController?]
  unfold viewExtended?
  simp only [bind_run]
  cases (sourcePath? e.view .view w).1 with
  | none => rfl
  | some path =>
    simp only [bind_run]
    cases (document? path (sourcePath? e.view .view w).2).1.bind Document.controller? <;> rfl

namespace SearchedFrom

variable {start w : Workspace}

theorem viewExtended? (h : SearchedFrom start w) (e : ViewExtension) :
    (Workspace.viewExtended? e w).1.bind Document.controller? = start.extendedFrom? e ∧
      (start.extendedFrom? e = none → SearchedFrom start (Workspace.viewExtended? e w).2) := by
  obtain ⟨probes, hrun⟩ := viewExtended?_run e w
  have hu := h.probing probes
  generalize w.probing probes = u at hrun hu
  rw [hrun, h.heldPath?, extendedFrom?]
  cases hpath : start.heldPath? e.view .view with
  | none => exact ⟨rfl, fun _ => hu⟩
  | some path =>
    dsimp only
    obtain ⟨ending, hending, htarget⟩ := List.mem_filterMap.1 (List.mem_of_find?_eq_some hpath)
    obtain rfl : ending = ".view.xml" := List.mem_singleton.1 hending
    have hoffered : (u.offered? path).bind Document.controller? =
        (start.offered? path).bind Document.controller? := by
      have hsame := (hu.learned.offered?_fst (by decide) (by decide) htarget).1
      have hrespelled : ∀ found? : Option Document, (found?.map respelled).bind Document.controller? =
          found?.bind Document.controller? := fun found? => by cases found? <;> rfl
      rw [← hrespelled, hsame, hrespelled]
    refine ⟨hoffered, fun hnone => ?_⟩
    rw [Option.bind_some, ← hoffered] at hnone
    cases hcached : u.cachedDocument? path with
    | some d =>
      rw [fetch_of_cached hcached]
      exact hu
    | none =>
      rw [fetch_of_none hcached]
      rw [offered?, hcached, Option.none_or] at hnone
      cases hstored : u.stored? path with
      | none => exact hu
      | some d =>
        obtain rfl := stored?_path hstored
        rw [hstored] at hnone
        exact hu.putView hcached hstored (kind_of_stored? hstored (ofPath?_of_heldPath? hpath)) hnone

theorem extendedController? (h : SearchedFrom start w) (extensions : List (Manifest × ViewExtension)) :
    ((Workspace.extendedController? extensions w).1.isSome ↔
      ∃ p ∈ extensions, (start.extendedFrom? p.2).isSome) ∧
      ((Workspace.extendedController? extensions w).1 = none →
        SearchedFrom start (Workspace.extendedController? extensions w).2) := by
  induction extensions generalizing w with
  | nil => exact ⟨iff_of_false nofun (by simp), fun _ => h⟩
  | cons p rest ih =>
    obtain ⟨m, e⟩ := p
    obtain ⟨hview, hread⟩ := h.viewExtended? e
    rw [extendedController?_cons, hview]
    cases hfrom : start.extendedFrom? e with
    | some controller => exact ⟨iff_of_true rfl ⟨(m, e), List.mem_cons_self, by simp [hfrom]⟩, nofun⟩
    | none =>
      obtain ⟨hsome, hnone⟩ := ih (hread hfrom)
      refine ⟨hsome.trans ?_, hnone⟩
      simp [hfrom]

end SearchedFrom

/-- How a search through names ends that is given no bound. A name that has been visited is passed
over; behind any other come the names of the fragments that include it, then the classes that mention
it and the views it is made to extend, and behind all these the names after it. -/
inductive TrialEnds :
    List String → List String → Workspace → (Option String × List String) × Workspace → Prop
  | done (visited : List String) (w : Workspace) : TrialEnds [] visited w ((none, visited), w)
  | again {name : String} {names visited : List String} {w : Workspace}
      {result : (Option String × List String) × Workspace} : visited.contains name = true →
      TrialEnds names visited w result → TrialEnds (name :: names) visited w result
  | view {name controller : String} {names visited : List String} {w : Workspace} :
      visited.contains name = false → w.includingController? name = some controller →
      TrialEnds (name :: names) visited w ((some controller, name :: visited), w)
  | outer {name controller : String} {names visited visited' : List String} {w v : Workspace} :
      visited.contains name = false → w.includingController? name = none →
      TrialEnds (w.includingFragments name) (name :: visited) w ((some controller, visited'), v) →
      TrialEnds (name :: names) visited w ((some controller, visited'), v)
  | mention {name controller : String} {names visited visited' : List String} {w v : Workspace} :
      visited.contains name = false → w.includingController? name = none →
      TrialEnds (w.includingFragments name) (name :: visited) w ((none, visited'), v) →
      v.mentioningClass? name = some controller →
      TrialEnds (name :: names) visited w ((some controller, visited'), v)
  | extension {name controller : String} {names visited visited' : List String} {w v u : Workspace} :
      visited.contains name = false → w.includingController? name = none →
      TrialEnds (w.includingFragments name) (name :: visited) w ((none, visited'), v) →
      v.mentioningClass? name = none →
      extendedController? (v.extensionsWith name) v = (some controller, u) →
      TrialEnds (name :: names) visited w ((some controller, visited'), u)
  | further {name : String} {names visited visited' : List String} {w v u : Workspace}
      {result : (Option String × List String) × Workspace} :
      visited.contains name = false → w.includingController? name = none →
      TrialEnds (w.includingFragments name) (name :: visited) w ((none, visited'), v) →
      v.mentioningClass? name = none → extendedController? (v.extensionsWith name) v = (none, u) →
      TrialEnds names visited' u result → TrialEnds (name :: names) visited w result

/-- What the visited names of a search are that has found nothing: the former ones, the ones tried, and
others none of which tells a controller and all of whose including fragments are visited as well. -/
structure Exhausted (start : Workspace) (names visited visited' : List String) : Prop where
  former : visited ⊆ visited'
  tried : names ⊆ visited'
  closed {name : String} : name ∈ visited' → name ∉ visited →
    ¬ start.HasEvidence name ∧ ∀ outer, start.IncludedBy name outer → outer ∈ visited'

/-- A search finds a controller only for a fragment that has one told, and without one it has exhausted
the fragments. -/
structure Explains (start : Workspace) (names visited : List String)
    (result : (Option String × List String) × Workspace) : Prop where
  found {controller : String} : result.1.1 = some controller →
    ∃ name ∈ names, ∃ outer, ReflTransGen start.IncludedBy name outer ∧ start.HasEvidence outer
  failed : result.1.1 = none →
    Exhausted start names visited result.1.2 ∧ SearchedFrom start result.2

theorem Exhausted.again {start : Workspace} {name : String} {names visited visited' : List String}
    (h : Exhausted start names visited visited') (hname : name ∈ visited) :
    Exhausted start (name :: names) visited visited' :=
  ⟨h.former, List.cons_subset.2 ⟨h.former hname, h.tried⟩, h.closed⟩

theorem Exhausted.further {start : Workspace} {name : String} {names visited visited' visited'' : List String}
    (houter : Exhausted start (start.includingFragments name) (name :: visited) visited')
    (hname : ¬ start.HasEvidence name) (hrest : Exhausted start names visited' visited'') :
    Exhausted start (name :: names) visited visited'' where
  former := fun _ h => hrest.former (houter.former (List.mem_cons_of_mem name h))
  tried := List.cons_subset.2 ⟨hrest.former (houter.former List.mem_cons_self), hrest.tried⟩
  closed := by
    intro other hother hnew
    by_cases hmem : other ∈ visited'
    · suffices ¬ start.HasEvidence other ∧ ∀ outer, start.IncludedBy other outer → outer ∈ visited' from
        ⟨this.1, fun outer h => hrest.former (this.2 outer h)⟩
      by_cases hsame : other = name
      · subst hsame
        exact ⟨hname, fun outer h => houter.tried (mem_includingFragments.2 h)⟩
      · exact houter.closed hmem fun h => (List.mem_cons.1 h).elim hsame hnew
    · exact hrest.closed hother hmem

namespace Explains

variable {start : Workspace} {name : String} {names visited visited' : List String}
  {result : (Option String × List String) × Workspace}

theorem done {w : Workspace} (hw : SearchedFrom start w) : Explains start [] visited ((none, visited), w) :=
  ⟨nofun, fun _ => ⟨⟨fun _ h => h, List.nil_subset _, fun h hnew => absurd h hnew⟩, hw⟩⟩

theorem told {controller : String} {v : Workspace} (h : start.HasEvidence name) :
    Explains start (name :: names) visited ((some controller, visited'), v) :=
  ⟨fun _ => ⟨name, List.mem_cons_self, name, .refl, h⟩, nofun⟩

theorem outer {controller : String} {v : Workspace}
    (h : Explains start (start.includingFragments name) (name :: visited) ((some controller, visited'), v)) :
    Explains start (name :: names) visited ((some controller, visited'), v) := by
  refine ⟨fun hfound => ?_, nofun⟩
  obtain ⟨other, hother, outer, hreach, hevidence⟩ := h.found hfound
  exact ⟨name, List.mem_cons_self, outer, .head (mem_includingFragments.1 hother) hreach, hevidence⟩

theorem later (h : Explains start names visited' result)
    (hname : ∀ {visited''}, Exhausted start names visited' visited'' →
      Exhausted start (name :: names) visited visited'') : Explains start (name :: names) visited result where
  found hfound := by
    obtain ⟨other, hother, hevidence⟩ := h.found hfound
    exact ⟨other, List.mem_cons_of_mem name hother, hevidence⟩
  failed hnone := (h.failed hnone).imp_left hname

end Explains

/-- As long as nothing is found, what is asked is answered as in the beginning. -/
theorem TrialEnds.explains {start : Workspace} {names visited : List String} {w : Workspace}
    {result : (Option String × List String) × Workspace} (h : TrialEnds names visited w result)
    (hw : SearchedFrom start w) : Explains start names visited result := by
  induction h with
  | done visited w => exact .done hw
  | again hvisited _ ih => exact (ih hw).later fun h => h.again (List.contains_iff_mem.1 hvisited)
  | view _ hview =>
    refine .told (hasEvidence_iff.2 (.inl ?_))
    rw [← hw.including, hview]
    rfl
  | outer _ _ _ ih =>
    have houter := ih hw
    rw [hw.includingFragments] at houter
    exact houter.outer
  | mention _ _ _ hmention ih =>
    have hv := ((ih hw).failed rfl).2
    refine .told (hasEvidence_iff.2 (.inr (.inl ?_)))
    rw [← hv.mentioningClass?, hmention]
    rfl
  | extension _ _ _ _ hextension ih =>
    have hv := ((ih hw).failed rfl).2
    refine .told (hasEvidence_iff.2 (.inr (.inr ?_)))
    rw [← hv.extensionsWith, ← (hv.extendedController? _).1, hextension]
    rfl
  | @further name _ _ _ _ v _ _ _ hview _ hmention hextension _ ih ihrest =>
    obtain ⟨houter, hv⟩ := (ih hw).failed rfl
    obtain ⟨hsome, hstate⟩ := hv.extendedController? (v.extensionsWith name)
    rw [hextension] at hsome hstate
    rw [hv.extensionsWith] at hsome
    have hname : ¬ start.HasEvidence name := by
      rw [hasEvidence_iff, ← hw.including, hview, ← hv.mentioningClass?, hmention, ← hsome]
      simp
    rw [hw.includingFragments] at houter
    exact (ihrest (hstate rfl)).later (houter.further hname)

def unvisited (places visited : List String) : List String := places.filter (· ∉ visited)

theorem length_unvisited_le {places visited visited' : List String} (h : visited ⊆ visited') :
    (unvisited places visited').length ≤ (unvisited places visited).length := by
  refine (List.monotone_filter_right places fun name hname => ?_).length_le
  exact decide_eq_true fun hmem => of_decide_eq_true hname (h hmem)

theorem length_unvisited_cons_lt {places visited : List String} {name : String} (hplace : name ∈ places)
    (hunvisited : name ∉ visited) :
    (unvisited places (name :: visited)).length < (unvisited places visited).length := by
  have hfilter : unvisited places (name :: visited) = (unvisited places visited).filter (· ≠ name) := by
    rw [unvisited, unvisited, List.filter_filter]
    exact List.filter_congr fun other _ => by simp [not_or]
  rw [hfilter, List.length_filter_lt_length_iff_exists]
  exact ⟨name, List.mem_filter.2 ⟨hplace, decide_eq_true hunvisited⟩, by simp⟩

theorem trialEnds_unincluded {start w : Workspace} {name : String} {names visited : List String}
    {visits : Nat} (hw : SearchedFrom start w) (hvisited : visited.contains name = false)
    (hview : w.includingController? name = none)
    (houter : TrialEnds (w.includingFragments name) (name :: visited) w
      (firstController? (searchController? visits) (w.includingFragments name) (name :: visited) w))
    (hlater : ∀ visited' u, SearchedFrom start u → visited ⊆ visited' →
      TrialEnds names visited' u (firstController? (searchController? (visits + 1)) names visited' u)) :
    TrialEnds (name :: names) visited w
      (firstController? (searchController? (visits + 1)) (name :: names) visited w) := by
  rw [firstController?, bind_run, searchController?]
  simp only [hvisited, Bool.false_eq_true, if_false, bind_run, get_run, hview]
  rcases hrun : firstController? (searchController? visits) (w.includingFragments name)
    (name :: visited) w with ⟨⟨found?, visited'⟩, v⟩
  rw [hrun] at houter
  cases found? with
  | some controller => exact .outer hvisited hview houter
  | none =>
    obtain ⟨hexhausted, hv⟩ := (houter.explains hw).failed rfl
    simp only [bind_run, get_run]
    cases hmention : v.mentioningClass? name with
    | some controller => exact .mention hvisited hview houter hmention
    | none =>
      have hstate := (hv.extendedController? (v.extensionsWith name)).2
      rcases hextension : extendedController? (v.extensionsWith name) v with ⟨found?, u⟩
      rw [hextension] at hstate
      simp only [bind_run, get_run, pure_run, hextension]
      cases found? with
      | some controller => exact .extension hvisited hview houter hmention hextension
      | none =>
        exact .further hvisited hview houter hmention hextension (hlater visited' u (hstate rfl)
          (List.Subset.trans (List.subset_cons_self name visited) hexhausted.former))

/-- With visits for all the names that have not been visited, the search ends as it does without a
bound. -/
theorem trialEnds_firstController? {start : Workspace} {places : List String}
    (hplaces : ∀ name, start.includingFragments name ⊆ places) (visits : Nat)
    {names visited : List String} {w : Workspace} (hw : SearchedFrom start w) (hnames : names ⊆ places)
    (h : (unvisited places visited).length < visits) :
    TrialEnds names visited w (firstController? (searchController? visits) names visited w) := by
  -- A visit is spent on each name that is new, and the names behind it have as many as before.
  induction visits generalizing names visited w with
  | zero => omega
  | succ visits ih =>
    induction names generalizing visited w with
    | nil => exact .done visited w
    | cons name names ihnames =>
      obtain ⟨hname, hnames⟩ := List.cons_subset.1 hnames
      cases hvisited : visited.contains name with
      | true =>
        rw [firstController?, bind_run, searchController?, if_pos hvisited]
        exact .again hvisited (ihnames hw hnames h)
      | false =>
        cases hview : w.includingController? name with
        | some controller =>
          rw [firstController?, bind_run, searchController?]
          simp only [hvisited, Bool.false_eq_true, if_false, bind_run, get_run, hview]
          exact .view hvisited hview
        | none =>
          have hless := length_unvisited_cons_lt hname fun hmem =>
            Bool.false_ne_true (hvisited.symm.trans (List.contains_iff_mem.2 hmem))
          have houters : w.includingFragments name ⊆ places := by
            rw [hw.includingFragments]
            exact hplaces name
          have houter := ih hw houters (Nat.lt_of_lt_of_le hless (Nat.le_of_lt_succ h))
          refine trialEnds_unincluded hw hvisited hview houter fun visited' u hu hsub => ?_
          exact ihnames hu hnames (Nat.lt_of_le_of_lt (length_unvisited_le hsub) h)

theorem firstController?_singleton
    (search : String → List String → Query (Option String × List String)) (name : String)
    (visited : List String) (w : Workspace) :
    firstController? search [name] visited w = search name visited w := by
  rw [firstController?, bind_run]
  rcases search name visited w with ⟨⟨found?, visited'⟩, v⟩
  cases found? <;> rfl

theorem trialEnds_fragmentController? (w : Workspace) (fragment : String) :
    TrialEnds [fragment] [] w (fragmentController? fragment [] w) := by
  let places := fragment :: w.fragments.filterMap fun d => w.className? d.path
  have hplaces : ∀ name, w.includingFragments name ⊆ places := by
    intro name outer houter
    obtain ⟨d, hd, hname⟩ := List.mem_filterMap.1 houter
    exact List.mem_cons_of_mem fragment (List.mem_filterMap.2 ⟨d, (List.mem_filter.1 hd).1, hname⟩)
  have hless : (unvisited places []).length < w.fragments.length + 2 :=
    calc (unvisited places []).length
        ≤ places.length := List.length_filter_le _ _
      _ ≤ w.fragments.length + 1 := Nat.succ_le_succ (List.length_filterMap_le _ _)
      _ < w.fragments.length + 2 := Nat.lt_succ_self _
  have hends := trialEnds_firstController? hplaces (w.fragments.length + 2) (.refl w)
    (List.cons_subset.2 ⟨List.mem_cons_self, List.nil_subset _⟩ : [fragment] ⊆ places) hless
  rw [firstController?_singleton] at hends
  exact hends

theorem Exhausted.not_hasEvidence {start : Workspace} {fragment name : String} {visited : List String}
    (h : Exhausted start [fragment] [] visited) (hreach : ReflTransGen start.IncludedBy fragment name) :
    ¬ start.HasEvidence name := by
  have hvisited : name ∈ visited := by
    induction hreach with
    | refl => exact h.tried List.mem_cons_self
    | tail _ hincluded ih => exact (h.closed ih List.not_mem_nil).2 _ hincluded
  exact (h.closed hvisited List.not_mem_nil).1

/-- The search for the controller of a fragment ends without a bound. It gives one just if something
tells a controller of the fragment or of one that includes it, directly or through others; and where
views with a controller include the fragment itself, it gives that of the first of them by path. -/
theorem fragmentController?_complete {w : Workspace} (hw : Reachable w) (fragment : String) :
    TrialEnds [fragment] [] w (fragmentController? fragment [] w) ∧
      ((fragmentController? fragment [] w).1.1.isSome ↔
        ∃ name, ReflTransGen w.IncludedBy fragment name ∧ w.HasEvidence name) ∧
      ∀ v ∈ w.views, ∀ controller, v.includes fragment = true → v.controller? = some controller →
        (∀ u ∈ w.views, u.includes fragment = true → u.controller?.isSome →
          FilePath.compare u.path v.path ≠ .lt) →
        (fragmentController? fragment [] w).1.1 = some controller := by
  have hends := trialEnds_fragmentController? w fragment
  have hexplains := hends.explains (.refl w)
  refine ⟨hends, ⟨fun hsome => ?_, ?_⟩, fun v hv controller hincludes hcontroller hfirst => ?_⟩
  · obtain ⟨controller, hfound⟩ := Option.isSome_iff_exists.1 hsome
    obtain ⟨name, hname, hevidence⟩ := hexplains.found hfound
    rwa [List.mem_singleton.1 hname] at hevidence
  · rintro ⟨name, hreach, hevidence⟩
    rw [Option.isSome_iff_ne_none]
    exact fun hnone => (hexplains.failed hnone).1.not_hasEvidence hreach hevidence
  · have hview := includingController?_of_first hw.orderly.sorted hv hincludes hcontroller hfirst
    rw [fragmentController?, bind_run, get_run, searchController?]
    simp [bind_run, get_run, pure_run, hview]

def sampleFragments : Workspace :=
  (handle (.opened ⟨"/app/G.fragment.xml"⟩ "<x fragmentName=\"App.F\"/>")
    (handle (.opened ⟨"/app/F.fragment.xml"⟩ "<x fragmentName=\"App.G\"/>") sampleCircular).2).2

theorem fragmentController?_complete_sample :
    (fragmentController? "App.F" [] sampleFragments).1.1 = some "App.C" ∧
      (fragmentController? "App.G" [] sampleFragments).1.1 = some "App.C" ∧
      ∃ name, ReflTransGen sampleFragments.IncludedBy "App.G" name ∧ sampleFragments.HasEvidence name := by
  have hw : Reachable sampleFragments := by
    unfold sampleFragments sampleCircular
    exact .notified _ (.notified _ (.notified _ (.notified _ (.opened _ _ _ _))))
  obtain ⟨v, hviews⟩ : ∃ v, sampleFragments.views = [v] := List.length_eq_one_iff.1 (by decide +kernel)
  have htells : sampleFragments.views.all
      (fun v => v.includes "App.F" && v.controller? == some "App.C") = true := by decide +kernel
  have hfound : (fragmentController? "App.G" [] sampleFragments).1.1 = some "App.C" := by decide +kernel
  rw [hviews, List.all_cons, List.all_nil, Bool.and_true, Bool.and_eq_true, beq_iff_eq] at htells
  refine ⟨?_, hfound, (fragmentController?_complete hw "App.G").2.1.1 (Option.isSome_of_eq_some hfound)⟩
  refine (fragmentController?_complete hw "App.F").2.2 v (by simp [hviews]) "App.C" htells.1 htells.2 ?_
  intro u hu _ _
  rw [hviews, List.mem_singleton] at hu
  rw [hu, FilePath.compare_eq_iff.2 rfl]
  exact Ordering.noConfusion

end UiWorkspace.Workspace
