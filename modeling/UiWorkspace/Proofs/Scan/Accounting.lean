import UiWorkspace.Proofs.Scan.Interruption
import UiWorkspace.Proofs.Workspace.ClassPaths
import UiWorkspace.Proofs.Workspace.ManifestRegistry

/-! What a scan reports. The files that are done are a beginning of the list of all files, and the
report counts how these have turned out. How a file turns out hangs on what the files hold and, for a
script, on the manifests that the first phase has registered, not on the files that were done before. -/
namespace UiWorkspace.Workspace

open UiWorkspace.Text

/-- Names alone lead from the root of a manifest down to the file, as both are written: a `..` on the
way would lead up again. The file is no root itself. -/
def LiesBelowRoot (w : Workspace) (path : FilePath) : Prop :=
  (∃ m ∈ w.manifests, ∃ names : List String,
    path.components = m.root.components ++ names.map .name) ∧
    ∀ m ∈ w.manifests, path.components ≠ m.root.components

theorem eq_map_of_componentNames? {components : List FilePath.Component} {names : List String}
    (h : componentNames? components = some names) : components = names.map .name := by
  induction components generalizing names with
  | nil =>
    cases h
    rfl
  | cons c components ih =>
    unfold componentNames? at h
    rw [List.mapM_cons] at h
    obtain ⟨n, hn, h⟩ := Option.bind_eq_some_iff.1 h
    obtain ⟨rest, hrest, h⟩ := Option.bind_eq_some_iff.1 h
    cases h
    cases c with
    | name s =>
      cases hn
      rw [List.map_cons, ih hrest]
    | root => cases hn
    | here => cases hn
    | up => cases hn

theorem deepestRoot_of_manifestForPath? {w : Workspace} {path : FilePath} {m : Manifest}
    (h : w.manifestForPath? path = some m) : w.DeepestRoot path m :=
  isGreatest_of_lastGreatest? h

theorem isBelow_of_components {path root : FilePath} {below : List FilePath.Component}
    (h : path.components = root.components ++ below) : path.isBelow root = true := by
  rw [FilePath.isBelow, below?_of_components h, Option.isSome_some]

theorem DeepestRoot.depth_le {w : Workspace} {path : FilePath} {m other : Manifest}
    (h : w.DeepestRoot path m) (hother : other ∈ w.manifests) {below : List FilePath.Component}
    (hbelow : path.components = other.root.components ++ below) :
    other.root.components.length ≤ m.root.components.length :=
  h.2 other (List.mem_filter.2 ⟨hother, isBelow_of_components hbelow⟩)

theorem liesBelowRoot_of_className? {w : Workspace} {path : FilePath} {name : String}
    (h : w.className? path = some name) : w.LiesBelowRoot path := by
  obtain ⟨m, howner, h⟩ := Option.bind_eq_some_iff.1 h
  obtain ⟨below, hbelow, h⟩ := Option.bind_eq_some_iff.1 h
  obtain ⟨names, hnames, h⟩ := Option.bind_eq_some_iff.1 h
  have hne : names ≠ [] := by
    rintro rfl
    cases h
  have hdeepest := deepestRoot_of_manifestForPath? howner
  have hpath : path.components = m.root.components ++ names.map .name := by
    rw [← eq_map_of_componentNames? hnames]
    exact after?_eq_some_iff.1 hbelow
  refine ⟨⟨m, (List.mem_filter.1 hdeepest.1).1, names, hpath⟩, fun other hother hroot => ?_⟩
  have hdepth := hdeepest.depth_le hother (hroot.trans (List.append_nil _).symm)
  have hlonger : 0 < names.length := List.length_pos_of_ne_nil hne
  rw [← hroot, hpath, List.length_append, List.length_map] at hdepth
  omega

theorem isSome_className?_of_liesBelowRoot {w : Workspace} {path : FilePath}
    (h : w.LiesBelowRoot path) : (w.className? path).isSome = true := by
  obtain ⟨⟨m, hm, names, hpath⟩, hroot⟩ := h
  obtain ⟨owner, howner⟩ : ∃ owner, w.manifestForPath? path = some owner := by
    rw [← Option.isSome_iff_exists, manifestForPath?, lastGreatest?_isSome, Bool.not_eq_true',
      List.isEmpty_eq_false_iff_exists_mem]
    exact ⟨m, List.mem_filter.2 ⟨hm, isBelow_of_components hpath⟩⟩
  have hdeepest := deepestRoot_of_manifestForPath? howner
  have hdepth := hdeepest.depth_le hm hpath
  obtain ⟨howns, hbelow⟩ := List.mem_filter.1 hdeepest.1
  obtain ⟨below, hbelow⟩ := Option.isSome_iff_exists.1 hbelow
  have hcut : path.components = owner.root.components ++ below := after?_eq_some_iff.1 hbelow
  have hnames : below =
      (names.drop (owner.root.components.length - m.root.components.length)).map .name := by
    have hdrop := congrArg (List.drop owner.root.components.length) (hcut.symm.trans hpath)
    rwa [List.drop_left, List.drop_append, List.drop_of_length_le hdepth, List.nil_append,
      ← List.map_drop] at hdrop
  subst hnames
  have hne : names.drop (owner.root.components.length - m.root.components.length) ≠ [] := by
    intro hnil
    rw [hnil, List.map_nil, List.append_nil] at hcut
    exact hroot owner howns hcut
  rw [className?_of_below howner hbelow hne, Option.isSome_some]

theorem className?_isSome_iff (w : Workspace) (path : FilePath) :
    (w.className? path).isSome = true ↔ w.LiesBelowRoot path :=
  ⟨fun h => liesBelowRoot_of_className? (Option.isSome_iff_exists.1 h).choose_spec,
    isSome_className?_of_liesBelowRoot⟩

instance (w : Workspace) (path : FilePath) : Decidable (w.LiesBelowRoot path) :=
  decidable_of_iff _ (w.className?_isSome_iff path)

end UiWorkspace.Workspace

namespace UiWorkspace.Scan

open UiWorkspace.Workspace

abbrev Outcome := Except Fault Found

/-- How a file turns out in a phase, by what the files hold and which manifests are registered. -/
def outcome (w : Workspace) (path : FilePath) : Phase → Outcome
  | .manifests =>
    match (w.readFile path).bind (Manifest.parse path) with
    | .ok _ => .ok .manifest
    | .error error => .error (.manifest error)
  | .fragments | .views => if (w.stored? path).isSome then .ok .document else .error .markup
  | .scripts =>
    if w.LiesBelowRoot path then
      match w.source.read path with
      | .ok _ => .ok .script
      | .error fault => .error (.script fault)
    else .ok .outside

theorem indexManifest_fst (path : FilePath) (w : Workspace) :
    (indexManifest path w).1 = outcome w path .manifests := by
  unfold indexManifest loadManifest outcome
  simp only [bind_run, get_run]
  cases w.readFile path with
  | error fault => rfl
  | ok text =>
    dsimp only [Except.bind]
    unfold registerManifest
    cases Manifest.parse path text <;> rfl

theorem indexDocument_fst (path : FilePath) (w : Workspace) :
    (indexDocument path w).1 = if (w.stored? path).isSome then .ok .document else .error .markup := by
  unfold indexDocument
  rw [bind_run, loadDocument_run]
  cases w.stored? path <;> rfl

theorem indexScript_fst (path : FilePath) (w : Workspace) :
    (indexScript path w).1 = outcome w path .scripts := by
  unfold indexScript outcome
  simp only [bind_run, get_run, ← className?_isSome_iff]
  cases w.className? path with
  | none => rfl
  | some name =>
    simp only [bind_run, get_run]
    cases w.source.read path <;> rfl

theorem indexFile_fst (phase : Phase) (path : FilePath) (w : Workspace) :
    (indexFile phase path w).1 = outcome w path phase := by
  cases phase with
  | manifests => exact indexManifest_fst path w
  | fragments | views => exact indexDocument_fst path w
  | scripts => exact indexScript_fst path w

structure Decides (phase : Phase) (base w : Workspace) : Prop where
  source : w.source = base.source
  manifests : phase = .scripts → w.manifests = base.manifests

theorem Decides.outcome_eq {phase : Phase} {base w : Workspace} (h : Decides phase base w)
    (path : FilePath) : outcome w path phase = outcome base path phase := by
  cases phase with
  | manifests =>
    unfold outcome readFile
    rw [h.source]
  | fragments | views => simp only [outcome, stored?_congr h.source]
  | scripts =>
    unfold outcome
    simp only [h.source, ← className?_isSome_iff, className?_congr (h.manifests rfl)]

theorem Decides.indexFile {phase : Phase} {base w : Workspace} (h : Decides phase base w)
    (path : FilePath) : Decides phase base (indexFile phase path w).2 := by
  obtain ⟨hsource, hmanifests⟩ := indexFile_keeps phase path w
  refine ⟨hsource.trans h.source, fun hphase => ?_⟩
  rw [hmanifests (by rw [hphase]; decide)]
  exact h.manifests hphase

abbrev Result := FilePath × Outcome

def failure? (result : Result) : Option (FilePath × Fault) :=
  match result.2 with
  | .ok _ => none
  | .error fault => some (result.1, fault)

def succeeded (result : Result) : Bool := result.2.isOk

def isFound (found : Found) (result : Result) : Bool := result.2.toOption == some found

theorem countP_succeeded_add_failures (results : List Result) :
    results.countP succeeded + (results.filterMap failure?).length = results.length := by
  induction results with
  | nil => rfl
  | cons result results ih =>
    obtain ⟨path, outcome⟩ := result
    cases outcome with
    | ok found =>
      rw [List.countP_cons_of_pos rfl, List.filterMap_cons_none rfl, List.length_cons]
      omega
    | error fault =>
      have hfailure : failure? (path, .error fault) = some (path, fault) := rfl
      rw [List.countP_cons_of_neg Bool.false_ne_true, List.filterMap_cons_some hfailure,
        List.length_cons, List.length_cons]
      omega

/-- The report counts these results and lists the first of the failures among them. -/
structure Report.Counts (r : Report) (results : List Result) : Prop where
  indexed : r.indexed = results.countP succeeded
  failed : r.failed = (results.filterMap failure?).length
  manifests : r.manifests = results.countP (isFound .manifest)
  classes : r.classes = results.countP (isFound .script)
  errors : r.errors = (results.filterMap failure?).take maxErrors

theorem Report.counts_empty : Report.empty.Counts [] := ⟨rfl, rfl, rfl, rfl, rfl⟩

theorem take_concat {α : Type} (n : Nat) (xs : List α) (x : α) :
    (xs ++ [x]).take n = if (xs.take n).length < n then xs.take n ++ [x] else xs.take n := by
  rw [List.length_take]
  split
  next hroom =>
    have hlength : xs.length < n := by omega
    have hlonger : (xs ++ [x]).length ≤ n := by
      rw [List.length_append, List.length_singleton]
      omega
    rw [List.take_of_length_le (Nat.le_of_lt hlength), List.take_of_length_le hlonger]
  next hfull => rw [List.take_append_of_le_length (by omega)]

namespace Report.Counts

variable {r : Report} {results : List Result} (h : r.Counts results)

include h

theorem addFound (path : FilePath) (found : Found) :
    (r.addFound found).Counts (results ++ [(path, .ok found)]) := by
  have hnone : [((path, .ok found) : Result)].filterMap failure? = [] := rfl
  constructor
  · rw [Report.addFound, h.indexed, List.countP_append]
    rfl
  · rw [Report.addFound, h.failed, List.filterMap_append, hnone, List.append_nil]
  · rw [Report.addFound, h.manifests, List.countP_append]
    cases found <;> rfl
  · rw [Report.addFound, h.classes, List.countP_append]
    cases found <;> rfl
  · rw [Report.addFound, h.errors, List.filterMap_append, hnone, List.append_nil]

theorem addFault (path : FilePath) (fault : Fault) :
    (r.addFault path fault).Counts (results ++ [(path, .error fault)]) := by
  have hone : [((path, .error fault) : Result)].filterMap failure? = [(path, fault)] := rfl
  constructor
  · rw [Report.addFault, h.indexed, List.countP_append]
    rfl
  · rw [Report.addFault, h.failed, List.filterMap_append, hone, List.length_append,
      List.length_singleton]
  · rw [Report.addFault, h.manifests, List.countP_append]
    rfl
  · rw [Report.addFault, h.classes, List.countP_append]
    rfl
  · rw [Report.addFault, h.errors, List.filterMap_append, hone, take_concat]

theorem add (path : FilePath) (outcome : Outcome) :
    (r.add path outcome).Counts (results ++ [(path, outcome)]) := by
  cases outcome with
  | ok found => exact h.addFound path found
  | error fault => exact h.addFault path fault

theorem cancel : { r with cancelled := true }.Counts results :=
  ⟨h.indexed, h.failed, h.manifests, h.classes, h.errors⟩

theorem indexed_add_failed : r.indexed + r.failed = results.length := by
  rw [h.indexed, h.failed, countP_succeeded_add_failures]

end Report.Counts

def Notice.path? : Notice → Option FilePath
  | done path => some path
  | phase _ _ => none

structure Course.Accounts (c : Course) (results : List Result) : Prop where
  counts : c.report.Counts results
  paths : c.notices.filterMap Notice.path? = (results.map Prod.fst).reverse
  done : c.done = results.length

theorem Course.accounts_start : Course.start.Accounts [] := ⟨Report.counts_empty, rfl, rfl⟩

namespace Course.Accounts

variable {c : Course} {results : List Result} (h : c.Accounts results)

include h

theorem finish (path : FilePath) (outcome : Outcome) :
    (c.finish path outcome).Accounts (results ++ [(path, outcome)]) := by
  refine ⟨h.counts.add path outcome, ?_, ?_⟩
  · change path :: c.notices.filterMap Notice.path? = _
    rw [h.paths, List.map_append, List.reverse_append]
    rfl
  · rw [Course.finish, h.done, List.length_append, List.length_singleton]

theorem cancel : c.cancel.Accounts results := ⟨h.counts.cancel, h.paths, h.done⟩

theorem announce (phase : Phase) (total : Nat) :
    { c with notices := .phase phase total :: c.notices }.Accounts results :=
  ⟨h.counts, h.paths, h.done⟩

end Course.Accounts

/-- The files of the phases, each with its phase, in the order in which they are read. -/
def entries (phases : List (Phase × List FilePath)) : List (Phase × FilePath) :=
  phases.flatMap fun e => e.2.map fun path => (e.1, path)

def resultOf (w : Workspace) (e : Phase × FilePath) : Result := (e.2, outcome w e.2 e.1)

def resultsIn (w : Workspace) (phase : Phase) (paths : List FilePath) : List Result :=
  paths.map fun path => (path, outcome w path phase)

section

variable {k : Nat} {base w : Workspace} {phase : Phase} {course : Course} {results : List Result}

theorem accounts_runFiles (hcourse : course.Accounts results) (hk : results.length ≤ k)
    (hw : Decides phase base w) (paths : List FilePath) :
    (runFiles (some k) phase course paths w).1.Accounts
      (results ++ resultsIn base phase (paths.take (k - results.length))) := by
  induction paths generalizing course results w with
  | nil =>
    rw [List.take_nil, resultsIn, List.map_nil, List.append_nil]
    exact hcourse
  | cons path paths ih =>
    unfold runFiles
    rw [Option.any_some, hcourse.done]
    split
    next hend =>
      have hnone : k - results.length = 0 := Nat.sub_eq_zero_of_le (of_decide_eq_true hend)
      rw [hnone, List.take_zero, resultsIn, List.map_nil, List.append_nil]
      exact hcourse.cancel
    next hgoing =>
      have hroom : results.length < k := by simpa using hgoing
      have hsub : k - results.length = k - (results.length + 1) + 1 := by omega
      have hlength : (results ++ [(path, outcome base path phase)]).length = results.length + 1 := by
        rw [List.length_append, List.length_singleton]
      have hnext := hcourse.finish path (indexFile phase path w).1
      rw [indexFile_fst, hw.outcome_eq] at hnext
      have hrest := ih hnext (hlength ▸ hroom) (hw.indexFile path)
      rw [hlength, List.append_assoc] at hrest
      rw [hsub, List.take_succ_cons, bind_run, indexFile_fst, hw.outcome_eq]
      exact hrest

theorem exists_after_phase (hcourse : course.Accounts results)
    (hgoing : course.report.cancelled = false) (hk : results.length ≤ k) (hw : Decides phase base w)
    (paths : List FilePath) :
    ∃ after, runFiles (some k) phase course paths w =
        (after, indexAll phase (paths.take (k - results.length)) w) ∧
      after.Accounts (results ++ resultsIn base phase (paths.take (k - results.length))) ∧
      after.report.cancelled = decide (k < results.length + paths.length) := by
  have haccounts := accounts_runFiles hcourse hk hw paths
  have hbefore : endsBefore (some k) course.done = false := by
    rw [hcourse.done]
    exact decide_eq_false (Nat.not_lt.2 hk)
  obtain ⟨after, hrun, hcancelled, -⟩ := runFiles_run phase course hbefore paths w
  rw [hrun] at haccounts
  rw [hgoing, hcourse.done, Bool.false_or] at hcancelled
  rw [hcourse.done] at hrun
  exact ⟨after, hrun, haccounts, hcancelled⟩

theorem map_resultOf_take_entries_cons (i : Nat) (paths : List FilePath)
    (rest : List (Phase × List FilePath)) :
    ((entries ((phase, paths) :: rest)).take i).map (resultOf base) =
      resultsIn base phase (paths.take i) ++
        ((entries rest).take (i - paths.length)).map (resultOf base) := by
  rw [entries, List.flatMap_cons, List.take_append, List.map_append, List.length_map, ← List.map_take,
    List.map_map]
  rfl

theorem length_entries_cons (paths : List FilePath) (rest : List (Phase × List FilePath)) :
    (entries ((phase, paths) :: rest)).length = paths.length + (entries rest).length := by
  rw [entries, List.flatMap_cons, List.length_append, List.length_map]
  rfl

/-- The course goes on from these results through the phases, up to the end of the scan. -/
structure CarriedOn (k : Nat) (base : Workspace) (results : List Result)
    (phases : List (Phase × List FilePath)) (after : Course) : Prop where
  accounts : after.Accounts
    (results ++ ((entries phases).take (k - results.length)).map (resultOf base))
  cancelled : after.report.cancelled = decide (k < results.length + (entries phases).length)

theorem carriedOn_nil (hcourse : course.Accounts results) (hgoing : course.report.cancelled = false)
    (hk : results.length ≤ k) : CarriedOn k base results [] course := by
  constructor
  · rw [entries, List.flatMap_nil, List.take_nil, List.map_nil, List.append_nil]
    exact hcourse
  · rw [hgoing]
    exact (decide_eq_false (Nat.not_lt.2 hk)).symm

theorem carriedOn_cons (hcourse : course.Accounts results) (hgoing : course.report.cancelled = false)
    (hk : results.length ≤ k) (hw : Decides phase base w) {paths : List FilePath}
    {rest : List (Phase × List FilePath)}
    (hrest : ∀ {after}, after.Accounts (results ++ resultsIn base phase paths) →
      after.report.cancelled = false → (results ++ resultsIn base phase paths).length ≤ k →
      CarriedOn k base (results ++ resultsIn base phase paths) rest
        (runPhases (some k) after rest (if phase = .manifests then (indexAll phase paths w).resetModels
          else indexAll phase paths w)).1) :
    CarriedOn k base results ((phase, paths) :: rest)
      (runPhases (some k) course ((phase, paths) :: rest) w).1 := by
  have hannounced := hcourse.announce phase paths.length
  obtain ⟨after, hrun, haccounts, hcancelled⟩ := exists_after_phase hannounced hgoing hk hw paths
  rw [runPhases_cons hrun, hcancelled]
  have hlength : (results ++ resultsIn base phase paths).length = results.length + paths.length := by
    rw [List.length_append, resultsIn, List.length_map]
  by_cases hend : k < results.length + paths.length
  · have hnone : k - results.length - paths.length = 0 := by omega
    rw [decide_eq_true hend, if_pos rfl]
    constructor
    · rw [map_resultOf_take_entries_cons, hnone, List.take_zero, List.map_nil, List.append_nil]
      exact haccounts
    · rw [hcancelled, length_entries_cons, decide_eq_true hend]
      exact (decide_eq_true (by omega)).symm
  · have hall : paths.take (k - results.length) = paths := List.take_of_length_le (by omega)
    rw [decide_eq_false hend] at hcancelled ⊢
    rw [hall] at haccounts ⊢
    have hlater := hrest haccounts hcancelled (by rw [hlength]; omega)
    rw [if_neg Bool.false_ne_true]
    constructor
    · rw [map_resultOf_take_entries_cons, hall, ← List.append_assoc, Nat.sub_sub, ← hlength]
      exact hlater.accounts
    · rw [hlater.cancelled, hlength, length_entries_cons, Nat.add_assoc]

theorem carriedOn_later {phases : List (Phase × List FilePath)}
    (hphases : ∀ e ∈ phases, e.1 ≠ .manifests) (hcourse : course.Accounts results)
    (hgoing : course.report.cancelled = false) (hk : results.length ≤ k)
    (hsource : w.source = base.source) (hmanifests : w.manifests = base.manifests) :
    CarriedOn k base results phases (runPhases (some k) course phases w).1 := by
  induction phases generalizing course results w with
  | nil => exact carriedOn_nil hcourse hgoing hk
  | cons entry rest ih =>
    obtain ⟨phase, paths⟩ := entry
    have hphase : phase ≠ .manifests := hphases (phase, paths) List.mem_cons_self
    refine carriedOn_cons hcourse hgoing hk ⟨hsource, fun _ => hmanifests⟩ fun hafter hnext hroom => ?_
    rw [if_neg hphase]
    refine ih (fun e he => hphases e (List.mem_cons_of_mem _ he)) hafter hnext hroom ?_ ?_
    · rw [source_indexAll, hsource]
    · exact indexAll_keeps (I := fun u => u.manifests = base.manifests)
        (fun u path hu => ((indexFile_keeps _ path u).2 hphase).trans hu) paths hmanifests

end

/-- The manifests that are registered once all files of the first phase are read decide on the scripts. -/
theorem carriedOn_run (k : Nat) (files : WorkspaceFiles) (w : Workspace) :
    CarriedOn k (indexAll .manifests files.manifests w) [] (phases files)
      (runPhases (some k) Course.start (phases files) w).1 := by
  have hdecides : Decides .manifests (indexAll .manifests files.manifests w) w :=
    ⟨(source_indexAll .manifests files.manifests w).symm, nofun⟩
  have hlater : ∀ e ∈ laterPhases files, e.1 ≠ .manifests := by simp [laterPhases]
  exact carriedOn_cons Course.accounts_start rfl (Nat.zero_le k) hdecides fun hafter hnext hroom =>
    carriedOn_later hlater hafter hnext hroom rfl rfl

theorem map_snd_entries (files : WorkspaceFiles) : (entries (phases files)).map Prod.snd = files.all := by
  have hsnd : ∀ (phase : Phase) (paths : List FilePath),
      (paths.map fun path => (phase, path)).map Prod.snd = paths := fun phase paths => by
    rw [List.map_map]
    exact List.map_id paths
  simp only [entries, phases, List.flatMap_cons, List.flatMap_nil, List.append_nil, List.map_append,
    hsnd, WorkspaceFiles.all, List.append_assoc]

theorem isFound_manifest (w : Workspace) (e : Phase × FilePath) :
    isFound .manifest (resultOf w e) = (e.1 == .manifests && succeeded (resultOf w e)) := by
  obtain ⟨phase, path⟩ := e
  unfold resultOf
  cases phase with
  | manifests | fragments | views =>
    unfold outcome
    dsimp only
    split <;> rfl
  | scripts =>
    unfold outcome
    dsimp only
    split
    · split <;> rfl
    · rfl

theorem isFound_script (w : Workspace) (e : Phase × FilePath) : isFound .script (resultOf w e) =
    (e.1 == .scripts && succeeded (resultOf w e) && decide (w.LiesBelowRoot e.2)) := by
  obtain ⟨phase, path⟩ := e
  unfold resultOf
  cases phase with
  | manifests | fragments | views =>
    unfold outcome
    dsimp only
    split <;> rfl
  | scripts =>
    unfold outcome
    dsimp only
    split
    next hbelow =>
      rw [decide_eq_true hbelow]
      split <;> rfl
    next houtside =>
      rw [decide_eq_false houtside]
      rfl

def failures (w : Workspace) (done : List (Phase × FilePath)) : List (FilePath × Fault) :=
  done.filterMap fun e => failure? (resultOf w e)

theorem Report.Counts.of_files {r : Report} {w : Workspace} {done : List (Phase × FilePath)}
    (h : r.Counts (done.map (resultOf w))) :
    r.indexed + r.failed = done.length ∧
      r.manifests = done.countP (fun e => e.1 == .manifests && succeeded (resultOf w e)) ∧
      r.classes = done.countP (fun e =>
        e.1 == .scripts && succeeded (resultOf w e) && decide (w.LiesBelowRoot e.2)) ∧
      r.failed = (failures w done).length ∧
      r.errors = (failures w done).take (min 100 r.failed) := by
  have hfailures : (done.map (resultOf w)).filterMap failure? = failures w done := List.filterMap_map
  have hfailed := h.failed
  rw [hfailures] at hfailed
  refine ⟨?_, ?_, ?_, hfailed, ?_⟩
  · rw [h.indexed_add_failed, List.length_map]
  · rw [h.manifests, List.countP_map]
    exact List.countP_congr fun e _ => by rw [← isFound_manifest]; rfl
  · rw [h.classes, List.countP_map]
    exact List.countP_congr fun e _ => by rw [← isFound_script]; rfl
  · rw [h.errors, hfailures, hfailed, List.take_eq_take_min]
    rfl

/-- If the end of a scan is asked for after `k` files, the first `k` files of the whole list are done and
no more. Each counts as indexed or as failed; the scan is cancelled if files are left; the successful
manifests, and the successful scripts below the root of a manifest, are counted; and the first of the
failures are listed, a hundred at most. -/
theorem scan_accounts_for_its_files (k : Nat) (files : WorkspaceFiles) (w : Workspace) :
    let report := (run (some k) files w).1.1
    let settled := indexAll .manifests files.manifests w
    let done := (entries (phases files)).take k
    (run (some k) files w).1.2.filterMap Notice.path? = files.all.take k ∧
      report.indexed + report.failed = min k files.all.length ∧
      (report.cancelled = true ↔ k < files.all.length) ∧
      report.manifests =
        done.countP (fun e => e.1 == .manifests && succeeded (resultOf settled e)) ∧
      report.classes = done.countP (fun e =>
        e.1 == .scripts && succeeded (resultOf settled e) && decide (settled.LiesBelowRoot e.2)) ∧
      report.failed = (failures settled done).length ∧
      report.errors = (failures settled done).take (min 100 report.failed) := by
  have hcarried := carriedOn_run k files w
  have hrun : (run (some k) files w).1 = ((runPhases (some k) Course.start (phases files) w).1.report,
    (runPhases (some k) Course.start (phases files) w).1.notices.reverse) := rfl
  rw [hrun]
  generalize (runPhases (some k) Course.start (phases files) w).1 = course at hcarried
  intro report settled done
  obtain ⟨⟨hcounts, hpaths, -⟩, hcancelled⟩ := hcarried
  have hlength : (entries (phases files)).length = files.all.length := by
    rw [← map_snd_entries, List.length_map]
  rw [List.length_nil, Nat.zero_add, hlength] at hcancelled
  rw [List.length_nil, Nat.sub_zero, List.nil_append] at hcounts hpaths
  obtain ⟨hdone, hrest⟩ := hcounts.of_files
  refine ⟨?_, ?_, ?_, hrest⟩
  · rw [List.filterMap_reverse, hpaths, List.reverse_reverse, List.map_map, ← map_snd_entries,
      List.map_take]
    rfl
  · rw [hdone, List.length_take, hlength]
  · rw [hcancelled, decide_eq_true_iff]

end UiWorkspace.Scan
