import UiWorkspace.Proofs.BreadthFirst
import UiWorkspace.Proofs.Source
import UiWorkspace.Proofs.Workspace.Reachable
import UiWorkspace.Proofs.Workspace.SharedMarkup

/-! What the search for a control comes to. It ends by itself, however documents include one another,
and it gives the control of the first document, in breadth-first order, of those that are reached
from the roots. What the search reads and keeps on the way changes no more than how the path of a
document is spelled. -/
namespace UiWorkspace.Workspace

open UiWorkspace.Markup
open UiWorkspace.BreadthFirst (Finds Settled)

theorem stored?_eq_some_iff {w : Workspace} {path : FilePath} {d : Document} :
    w.stored? path = some d ↔
      ∃ text, w.source.read path = .ok text ∧ Document.ofPath? path text = some d := by
  unfold stored?
  cases w.source.read path <;> simp

/-- A document but for how its path is spelled. -/
def respelled (d : Document) : Document := { d with path := ⟨""⟩ }

theorem respelled_ofPath? {p q : FilePath} (h : (p == q) = true) (text : String) :
    (Document.ofPath? p text).map respelled = (Document.ofPath? q text).map respelled := by
  unfold Document.ofPath?
  rw [ofPath?_congr h, Option.map_map, Option.map_map]
  rfl

def Found (w : Workspace) (d : Document) : Prop := w.offered? d.path = some d

theorem found_of_kept {w : Workspace} (hsorted : SortedByPath w.documents) {d : Document}
    (hd : d ∈ w.documents) : Found w d := by
  have hcached : w.cachedDocument? d.path = some d := hsorted.find?_of_mem hd
  unfold Found offered?
  rw [hcached, Option.some_or]

/-- There is one document for each path. -/
theorem Found.respelled_eq {w : Workspace} {d e : Document} (hd : Found w d) (he : Found w e)
    (h : (d.path == e.path) = true) : respelled d = respelled e := by
  unfold Found offered? at hd he
  rw [cachedDocument?_congr h] at hd
  cases hcached : w.cachedDocument? e.path with
  | some kept =>
    rw [hcached, Option.some_or, Option.some.injEq] at hd he
    rw [← hd, ← he]
  | none =>
    rw [hcached, Option.none_or, stored?_eq_some_iff] at hd he
    obtain ⟨text, hread, hd⟩ := hd
    obtain ⟨text', hread', he⟩ := he
    obtain rfl : text = text' := Source.read_unique h hread hread'
    have hsame := respelled_ofPath? h text
    rw [hd, he] at hsame
    exact Option.some.inj hsame

theorem offered?_candidate {w : Workspace} {name ending : String} {path target : FilePath} {d : Document}
    (hslash : '/' ∉ ending.toList) (hlength : 2 < ending.length)
    (htarget : w.candidate? name ending = some target) (h : (path == target) = true)
    (hd : w.stored? path = some d) : (w.stored? target).map respelled = some (respelled d) := by
  obtain ⟨front, hfront⟩ := exists_text_of_candidate? htarget
  obtain ⟨text, hread, hd⟩ := stored?_eq_some_iff.1 hd
  have hread' := Source.read_congr h hfront hslash hlength hread
  have hstored : w.stored? target = Document.ofPath? target text := by
    unfold stored?
    rw [hread']
  rw [hstored, ← respelled_ofPath? h, hd, Option.map_some]

namespace Learned

variable {w v : Workspace}

theorem offered?_fst (h : Learned w v) {name ending : String} {target : FilePath}
    (hslash : '/' ∉ ending.toList) (hlength : 2 < ending.length)
    (htarget : w.candidate? name ending = some target) :
    (v.offered? target).map respelled = (w.offered? target).map respelled ∧
      ∀ d, v.offered? target = some d → Found w d := by
  unfold Found offered?
  cases hcached : w.cachedDocument? target with
  | some d =>
    have hpath := List.find?_some (p := fun e : Document => e.path == target) hcached
    rw [h.kept hcached, Option.some_or, Option.some_or]
    refine ⟨rfl, fun e he => ?_⟩
    obtain rfl : d = e := Option.some.inj he
    rw [cachedDocument?_congr hpath, hcached, Option.some_or]
  | none =>
    rw [Option.none_or]
    cases hcached' : v.cachedDocument? target with
    | some d =>
      -- The document was read since, possibly by another spelling.
      rcases h.loaded hcached' with hkept | ⟨-, hpath, hread⟩
      · rw [hcached] at hkept
        cases hkept
      · have hsame : (w.stored? target).map respelled = some (respelled d) :=
          offered?_candidate hslash hlength htarget hpath hread
        rw [Option.some_or, hsame]
        refine ⟨rfl, fun e he => ?_⟩
        obtain rfl : d = e := Option.some.inj he
        rw [cachedDocument?_congr hpath, hcached, Option.none_or, hread]
    | none =>
      rw [Option.none_or, h.stored? target]
      refine ⟨rfl, fun d hd => ?_⟩
      rw [stored?_path hd, hcached, Option.none_or, hd]

theorem fragmentNamed?_fst (h : Learned w v) (name : String) :
    ((Workspace.fragmentNamed? name v).1.map respelled =
      (Workspace.fragmentNamed? name w).1.map respelled) ∧
      ∀ d, (Workspace.fragmentNamed? name v).1 = some d → Found w d := by
  obtain ⟨asked, hw⟩ := fragmentNamed?_run name w
  obtain ⟨asked', hv⟩ := fragmentNamed?_run name v
  have hcandidate : (v.probing asked').candidate? name ".fragment.xml" =
      (w.probing asked).candidate? name ".fragment.xml" := congrFun₂ (candidate?_congr h.manifests) _ _
  rw [hw, hv, hcandidate]
  cases htarget : (w.probing asked).candidate? name ".fragment.xml" with
  | none => exact ⟨rfl, nofun⟩
  | some target => exact h.offered?_fst (by decide) (by decide) htarget

theorem fragmentsNamed_fst (h : Learned w v) (names : List String) :
    (Workspace.fragmentsNamed names v).1.map respelled =
      (names.filterMap fun name => (Workspace.fragmentNamed? name w).1).map respelled ∧
      (∀ d ∈ (Workspace.fragmentsNamed names v).1, Found w d) ∧
      Learned w (Workspace.fragmentsNamed names v).2 := by
  induction names generalizing v with
  | nil => exact ⟨rfl, nofun, h⟩
  | cons name names ih =>
    obtain ⟨hsame, hfound⟩ := h.fragmentNamed?_fst name
    obtain ⟨hrest, hfound', hlearned⟩ := ih (h.trans (Learned.fragmentNamed? name v))
    refine ⟨?_, fun d hd => ?_, hlearned⟩
    · change ((Workspace.fragmentNamed? name v).1.toList ++ _).map respelled = _
      rw [List.map_append, List.filterMap_cons, ← Option.toList_map, hsame]
      cases (Workspace.fragmentNamed? name w).1 with
      | none => exact hrest
      | some d => exact congrArg (respelled d :: ·) hrest
    · rcases List.mem_append.1 hd with hd | hd
      · exact hfound d (Option.mem_toList.1 hd)
      · exact hfound' d hd

end Learned

/-- How the search of a queue ends that is given no bound. A document is taken from the front; one
that has been seen is passed over, and behind any other the fragments that it includes are put at
the end of the queue. -/
inductive SearchEnds (id : String) :
    List FilePath → List Document → Workspace → Option String × Workspace → Prop
  | empty (seen : List FilePath) (w : Workspace) : SearchEnds id seen [] w (none, w)
  | again {seen : List FilePath} {d : Document} {rest : List Document} {w : Workspace}
      {result : Option String × Workspace} : seen.any (· == d.path) = true →
      SearchEnds id seen rest w result → SearchEnds id seen (d :: rest) w result
  | found {seen : List FilePath} {d : Document} {rest : List Document} {w : Workspace}
      {control : String} : seen.any (· == d.path) = false → d.classForId? id = some control →
      SearchEnds id seen (d :: rest) w (some control, (examine d w).2)
  | further {seen : List FilePath} {d : Document} {rest included : List Document} {w v : Workspace}
      {result : Option String × Workspace} : seen.any (· == d.path) = false →
      d.classForId? id = none → fragmentsNamed d.fragments (examine d w).2 = (included, v) →
      SearchEnds id (d.path :: seen) (rest ++ included) v result →
      SearchEnds id seen (d :: rest) w result

theorem SearchEnds.dropWhile {id : String} {seen : List FilePath} {queue : List Document}
    {w : Workspace} {result : Option String × Workspace}
    (h : SearchEnds id seen (queue.dropWhile fun d => seen.any (· == d.path)) w result) :
    SearchEnds id seen queue w result := by
  induction queue with
  | nil => exact h
  | cons d rest ih =>
    rw [List.dropWhile_cons] at h
    split at h
    next hseen => exact .again hseen (ih h)
    next => exact h

/-- With rounds for all the places that have not been seen, the search ends as it does without a
bound. -/
theorem searchEnds_searchControl? (id : String) {places : List FilePath} {names : List String}
    (rounds : Nat) {seen : List FilePath} {queue : List Document} {w : Workspace}
    (hw : Confined places names w) (hqueue : ∀ d ∈ queue, Within places names d)
    (h : (unseen places seen).length < rounds) :
    SearchEnds id seen queue w (searchControl? id rounds seen queue w) := by
  induction rounds generalizing seen queue w with
  | zero => omega
  | succ rounds ih =>
    apply SearchEnds.dropWhile
    unfold searchControl?
    cases hdrop : queue.dropWhile fun d => seen.any (· == d.path) with
    | nil => exact .empty seen w
    | cons d rest =>
      obtain ⟨hunseen, hmem⟩ := unseen_of_dropWhile hdrop
      have hd := hqueue d (hmem d List.mem_cons_self)
      simp only [bind_run]
      cases hid : d.classForId? id with
      | some control => exact .found hunseen hid
      | none =>
        simp only [bind_run]
        obtain ⟨hincluded, hstate⟩ := (hw.examine d).fragmentsNamed hd.2
        have hless := length_unseen_cons_lt hd.1 hunseen
        refine .further hunseen hid rfl (ih hstate (fun e he => ?_) (by omega))
        rcases List.mem_append.1 he with he | he
        · exact hqueue e (hmem e (List.mem_cons_of_mem d he))
        · exact hincluded e he

/-- The documents that the fragments of a document lead to. -/
def included (w : Workspace) (d : Document) : List Document :=
  d.fragments.filterMap fun name => (fragmentNamed? name w).1

def respelledIncluded (w : Workspace) (d : Document) : List Document := (w.included d).map respelled

/-- What the documents that were seen and those of the queue are during a search: all could be read
when it began, and all that the seen ones include has been seen or is in the queue. -/
structure Searching (start : Workspace) (id : String) (visited queue : List Document)
    (w : Workspace) : Prop where
  learned : Learned start w
  seen {d : Document} : d ∈ visited → Found start d
  queued {d : Document} : d ∈ queue → Found start d
  settled : Settled start.respelledIncluded (fun d => d.classForId? id) (visited.map respelled)
    (queue.map respelled)

namespace Searching

variable {start w : Workspace} {id : String} {visited rest : List Document} {d : Document}

theorem mem_visited (h : Searching start id visited (d :: rest) w)
    (hseen : (visited.map Document.path).any (· == d.path) = true) :
    respelled d ∈ visited.map respelled := by
  obtain ⟨path, hpath, hsame⟩ := List.any_eq_true.1 hseen
  obtain ⟨e, he, rfl⟩ := List.mem_map.1 hpath
  rw [← (h.seen he).respelled_eq (h.queued List.mem_cons_self) hsame]
  exact List.mem_map_of_mem he

theorem again (h : Searching start id visited (d :: rest) w)
    (hseen : (visited.map Document.path).any (· == d.path) = true) :
    Searching start id visited rest w :=
  ⟨h.learned, h.seen, fun hd => h.queued (List.mem_cons_of_mem d hd),
    h.settled.skip (h.mem_visited hseen)⟩

theorem further (h : Searching start id visited (d :: rest) w) (hid : d.classForId? id = none)
    {included : List Document} {v : Workspace}
    (hrun : fragmentsNamed d.fragments (examine d w).2 = (included, v)) :
    included.map respelled = start.respelledIncluded (respelled d) ∧
      Searching start id (d :: visited) (rest ++ included) v := by
  have hexamined : Learned start (examine d w).2 := (Learned.stable start).examine w d h.learned
  obtain ⟨hincluded, hfound, hlearned⟩ := hexamined.fragmentsNamed_fst d.fragments
  rw [hrun] at hincluded hfound hlearned
  refine ⟨hincluded, hlearned, fun he => ?_, fun he => ?_, ?_⟩
  · rcases List.mem_cons.1 he with rfl | he
    · exact h.queued List.mem_cons_self
    · exact h.seen he
  · rcases List.mem_append.1 he with he | he
    · exact h.queued (List.mem_cons_of_mem d he)
    · exact hfound _ he
  · have hnone : (respelled d).classForId? id = none := hid
    have hsettled := h.settled.visit hnone
    rw [List.map_append, hincluded]
    exact hsettled

end Searching

theorem SearchEnds.finds {start : Workspace} {id : String} {seen : List FilePath}
    {queue : List Document} {w : Workspace} {result : Option String × Workspace}
    (h : SearchEnds id seen queue w result) :
    ∀ {visited : List Document}, seen = visited.map Document.path →
      Searching start id visited queue w → ∀ control, result.1 = some control ↔
        Finds start.respelledIncluded (fun d => d.classForId? id) (queue.map respelled) control := by
  induction h with
  | empty seen w =>
    intro visited _ _ control
    exact iff_of_false nofun (BreadthFirst.not_finds_nil control)
  | again hseen _ ih =>
    rintro visited rfl hsearch control
    rw [ih rfl (hsearch.again hseen), List.map_cons]
    exact (hsearch.settled.finds_skip (hsearch.mem_visited hseen) control).symm
  | found hunseen hid =>
    intro visited _ _ control
    have hsome : (respelled _).classForId? id = some _ := hid
    rw [List.map_cons, BreadthFirst.finds_cons_of_some (f := fun d : Document => d.classForId? id) hsome,
      Option.some.injEq]
  | further hunseen hid hrun _ ih =>
    rintro visited rfl hsearch control
    obtain ⟨hincluded, hsearch⟩ := hsearch.further hid hrun
    have hnone : (respelled _).classForId? id = none := hid
    rw [ih rfl hsearch, List.map_cons, List.map_append, hincluded]
    exact (BreadthFirst.finds_cons_of_none (f := fun d : Document => d.classForId? id) hnone _
      control).symm

/-- The search for a control ends without a bound. It finds a class just if a document has one that
is reached from the roots of the controller through the fragments that documents include, and then
that of the first such document in breadth-first order. -/
theorem controlClass?_breadth_first {w : Workspace} (hw : Reachable w) (controller id : String) :
    SearchEnds id [] (w.rootDocuments controller) (class? controller w).2
        (controlClass? controller id w) ∧
      ((controlClass? controller id w).1.isSome ↔ ∃ d,
        BreadthFirst.Reaches w.included (w.rootDocuments controller) d ∧ (d.classForId? id).isSome) ∧
      ∀ control, (controlClass? controller id w).1 = some control ↔ ∃ levels,
        (BreadthFirst.order w.included levels (w.rootDocuments controller)).findSome?
          (fun d => d.classForId? id) = some control := by
  have hrun : controlClass? controller id w =
      searchControl? id (class? controller w).2.searchRounds [] (w.rootDocuments controller)
        (class? controller w).2 := by
    unfold controlClass?
    simp only [bind_run, get_run, controlRoots_run]
  have hkept : w.rootDocuments controller ⊆ (class? controller w).2.documents := by
    obtain ⟨_, _, hclass⟩ := class?_run controller w
    rw [hclass]
    exact rootDocuments_subset w controller
  have hends : SearchEnds id [] (w.rootDocuments controller) (class? controller w).2
      (controlClass? controller id w) := by
    have hconfined := (class? controller w).2.confined
    have hunseen : (unseen (class? controller w).2.searchPlaces []).length ≤
        (class? controller w).2.searchPlaces.length := List.length_filter_le _ _
    rw [hrun]
    exact searchEnds_searchControl? id _ hconfined (fun d hd => hconfined.kept (hkept hd))
      (Nat.lt_of_le_of_lt hunseen (length_searchPlaces_lt _))
  have hsearch : Searching w id [] (w.rootDocuments controller) (class? controller w).2 :=
    ⟨Learned.class? controller w, nofun,
      fun hd => found_of_kept hw.orderly.sorted (rootDocuments_subset w controller hd), nofun⟩
  have hfinds : ∀ control, (controlClass? controller id w).1 = some control ↔
      Finds w.included (fun d => d.classForId? id) (w.rootDocuments controller) control := by
    intro control
    rw [hends.finds rfl hsearch]
    exact BreadthFirst.finds_map (f := fun d : Document => d.classForId? id) (g := respelled)
      (fun _ => rfl) (fun _ => rfl) _ control
  refine ⟨hends, ?_, hfinds⟩
  rw [Option.isSome_iff_exists, ← BreadthFirst.exists_finds_iff]
  exact exists_congr hfinds

/-- A view that includes a fragment, and this and another fragment that include each other. -/
def sampleCircular : Workspace :=
  (handle (.opened ⟨"/app/V.view.xml"⟩
    "<mvc:View controllerName=\"App.C\"><x fragmentName=\"App.F\"/></mvc:View>")
    (handle (.changed ⟨"/app/manifest.json"⟩ "\x7b\"sap.app\":\x7b\"id\":\"App\"\x7d\x7d")
      (new { Settings.builtIn with cacheEnabled := false }
        (.memory [(⟨"/app/F.fragment.xml"⟩, "<x fragmentName=\"App.G\"/>"),
          (⟨"/app/G.fragment.xml"⟩,
            "<Button xmlns=\"sap.m\" id=\"go\"/><x fragmentName=\"App.F\"/>")]) none [])).2).2

theorem controlClass?_breadth_first_sample :
    (controlClass? "App.C" "go" sampleCircular).1 = some "sap.m.Button" ∧
      ∃ levels, (BreadthFirst.order sampleCircular.included levels
        (sampleCircular.rootDocuments "App.C")).findSome? (fun d => d.classForId? "go") =
          some "sap.m.Button" := by
  have hw : Reachable sampleCircular := by
    unfold sampleCircular
    exact .notified _ (.notified _ (.opened _ _ _ _))
  have hfound : (controlClass? "App.C" "go" sampleCircular).1 = some "sap.m.Button" := by decide +kernel
  exact ⟨hfound, ((controlClass?_breadth_first hw "App.C" "go").2.2 "sap.m.Button").1 hfound⟩

end UiWorkspace.Workspace
