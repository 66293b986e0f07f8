import UiWorkspace.Proofs.Workspace.Reachable

/-! What a scan leaves when it is stopped between two files. Once all manifests are read the former
models are forgotten, so that afterwards only the scripts of the scan make classes; a scan that is
stopped among its manifests leaves all former models beside the new manifests. -/
namespace UiWorkspace.Scan

open UiWorkspace.Workspace

def endsBefore (stopAfter? : Option Nat) (n : Nat) : Bool := stopAfter?.any (· < n)

/-- The files among the paths that are read if `done` files have been. -/
def readable (stopAfter? : Option Nat) (done : Nat) (paths : List FilePath) : List FilePath :=
  match stopAfter? with
  | none => paths
  | some n => paths.take (n - done)

section

variable {stopAfter? : Option Nat} {done : Nat}

theorem endsBefore_zero : endsBefore stopAfter? 0 = false := by
  cases stopAfter? with
  | none => rfl
  | some n => exact decide_eq_false (Nat.not_lt_zero n)

theorem endsBefore_succ : endsBefore stopAfter? (done + 1) = stopAfter?.any (· ≤ done) := by
  cases stopAfter? with
  | none => rfl
  | some n => exact decide_eq_decide.2 Nat.lt_succ_iff

theorem endsBefore_mono {n : Nat} (hle : done ≤ n) (h : endsBefore stopAfter? done = true) :
    endsBefore stopAfter? n = true := by
  cases stopAfter? with
  | none => cases h
  | some k =>
    have hlt : k < done := of_decide_eq_true h
    exact decide_eq_true (by omega)

theorem readable_nil (stopAfter? : Option Nat) (done : Nat) : readable stopAfter? done [] = [] := by
  cases stopAfter? <;> simp [readable]

theorem readable_ended (h : endsBefore stopAfter? (done + 1) = true) (paths : List FilePath) :
    readable stopAfter? done paths = [] := by
  cases stopAfter? with
  | none => cases h
  | some n =>
    have hlt : n < done + 1 := of_decide_eq_true h
    rw [readable, Nat.sub_eq_zero_of_le (Nat.le_of_lt_succ hlt), List.take_zero]

theorem readable_cons (h : endsBefore stopAfter? (done + 1) = false) (path : FilePath)
    (paths : List FilePath) :
    readable stopAfter? done (path :: paths) = path :: readable stopAfter? (done + 1) paths := by
  cases stopAfter? with
  | none => rfl
  | some n =>
    have hle : ¬n < done + 1 := of_decide_eq_false h
    have hsub : n - done = n - (done + 1) + 1 := by omega
    rw [readable, hsub, List.take_succ_cons, readable]

theorem mem_of_mem_readable {paths : List FilePath} {path : FilePath}
    (h : path ∈ readable stopAfter? done paths) : path ∈ paths := by
  cases stopAfter? with
  | none => exact h
  | some n => exact List.mem_of_mem_take h

theorem readable_all {paths : List FilePath}
    (h : endsBefore stopAfter? (done + paths.length) = false) :
    readable stopAfter? done paths = paths := by
  cases stopAfter? with
  | none => rfl
  | some n =>
    have hle : ¬n < done + paths.length := of_decide_eq_false h
    exact List.take_of_length_le (by omega)

end

def indexAll (phase : Phase) (paths : List FilePath) (w : Workspace) : Workspace :=
  paths.foldl (fun w path => (indexFile phase path w).2) w

theorem cancelled_add (r : Report) (path : FilePath) (outcome : Except Fault Found) :
    (r.add path outcome).cancelled = r.cancelled := by
  cases outcome <;> rfl

theorem runFiles_run {stopAfter? : Option Nat} (phase : Phase) (course : Course)
    (hgoing : endsBefore stopAfter? course.done = false) (paths : List FilePath) (w : Workspace) :
    ∃ after, runFiles stopAfter? phase course paths w =
        (after, indexAll phase (readable stopAfter? course.done paths) w) ∧
      after.report.cancelled =
        (course.report.cancelled || endsBefore stopAfter? (course.done + paths.length)) ∧
      (endsBefore stopAfter? (course.done + paths.length) = false →
        after.done = course.done + paths.length) := by
  induction paths generalizing course w with
  | nil =>
    refine ⟨course, ?_, ?_, fun _ => rfl⟩
    · rw [readable_nil]
      rfl
    · rw [List.length_nil, Nat.add_zero, hgoing, Bool.or_false]
  | cons path paths ih =>
    unfold runFiles
    rw [← endsBefore_succ]
    split
    next hend =>
      have hlater : endsBefore stopAfter? (course.done + (path :: paths).length) = true :=
        endsBefore_mono (by rw [List.length_cons]; omega) hend
      refine ⟨course.cancel, ?_, ?_, fun h => ?_⟩
      · rw [readable_ended hend]
        rfl
      · rw [hlater, Bool.or_true]
        rfl
      · rw [hlater] at h
        cases h
    next hnext =>
      rw [Bool.not_eq_true] at hnext
      obtain ⟨after, hrun, hcancelled, hdone⟩ :=
        ih (course.finish path (indexFile phase path w).1) hnext (indexFile phase path w).2
      have hlength : course.done + (path :: paths).length = course.done + 1 + paths.length := by
        rw [List.length_cons]
        omega
      refine ⟨after, ?_, ?_, ?_⟩
      · rw [readable_cons hnext]
        exact hrun
      · rw [hcancelled, hlength, Course.finish, cancelled_add]
      · rw [hlength]
        exact hdone

theorem runPhases_cons {stopAfter? : Option Nat} {course : Course} {phase : Phase}
    {paths : List FilePath} {w : Workspace} {after : Course} {v : Workspace}
    (h : runFiles stopAfter? phase { course with notices := .phase phase paths.length :: course.notices }
      paths w = (after, v)) (rest : List (Phase × List FilePath)) :
    runPhases stopAfter? course ((phase, paths) :: rest) w =
      if after.report.cancelled then (after, v)
      else runPhases stopAfter? after rest (if phase = .manifests then v.resetModels else v) := by
  rw [runPhases, bind_run, h]
  dsimp only
  split
  · rfl
  · split <;> rfl

theorem runPhases_ends {stopAfter? : Option Nat} {course : Course} {phase : Phase}
    {paths : List FilePath} (hgoing : endsBefore stopAfter? course.done = false)
    (hend : endsBefore stopAfter? (course.done + paths.length) = true)
    (rest : List (Phase × List FilePath)) (w : Workspace) :
    (runPhases stopAfter? course ((phase, paths) :: rest) w).2 =
      indexAll phase (readable stopAfter? course.done paths) w := by
  obtain ⟨after, hrun, hcancelled, -⟩ := runFiles_run phase
    { course with notices := .phase phase paths.length :: course.notices } hgoing paths w
  have hafter : after.report.cancelled = true := by rw [hcancelled, hend, Bool.or_true]
  rw [runPhases_cons hrun, if_pos hafter]

theorem runPhases_goes_on {stopAfter? : Option Nat} {course : Course} {paths : List FilePath}
    (hcourse : course.report.cancelled = false) (hgoing : endsBefore stopAfter? course.done = false)
    (hnext : endsBefore stopAfter? (course.done + paths.length) = false) (phase : Phase)
    (rest : List (Phase × List FilePath)) (w : Workspace) :
    ∃ after, after.done = course.done + paths.length ∧ after.report.cancelled = false ∧
      runPhases stopAfter? course ((phase, paths) :: rest) w = runPhases stopAfter? after rest
        (if phase = .manifests then (indexAll phase paths w).resetModels else indexAll phase paths w) := by
  obtain ⟨after, hrun, hcancelled, hdone⟩ := runFiles_run phase
    { course with notices := .phase phase paths.length :: course.notices } hgoing paths w
  have hafter : after.report.cancelled = false := by
    rw [hcancelled, hnext, Bool.or_false]
    exact hcourse
  rw [readable_all hnext] at hrun
  refine ⟨after, hdone hnext, hafter, ?_⟩
  rw [runPhases_cons hrun, if_neg (Bool.eq_false_iff.1 hafter)]

def indexPhases (stopAfter? : Option Nat) : Nat → List (Phase × List FilePath) → Workspace → Workspace
  | _, [], w => w
  | done, (phase, paths) :: rest, w =>
    indexPhases stopAfter? (done + paths.length) rest
      (indexAll phase (readable stopAfter? done paths) w)

theorem indexPhases_ended {stopAfter? : Option Nat} {done : Nat}
    (h : endsBefore stopAfter? done = true) (phases : List (Phase × List FilePath)) (w : Workspace) :
    indexPhases stopAfter? done phases w = w := by
  induction phases generalizing done with
  | nil => rfl
  | cons entry rest ih =>
    obtain ⟨phase, paths⟩ := entry
    rw [indexPhases, readable_ended (endsBefore_mono (Nat.le_succ done) h)]
    exact ih (endsBefore_mono (Nat.le_add_right done paths.length) h)

theorem runPhases_run {stopAfter? : Option Nat} {phases : List (Phase × List FilePath)}
    (hphases : ∀ entry ∈ phases, entry.1 ≠ .manifests) {course : Course}
    (hcourse : course.report.cancelled = false) (hgoing : endsBefore stopAfter? course.done = false)
    (w : Workspace) :
    (runPhases stopAfter? course phases w).2 = indexPhases stopAfter? course.done phases w := by
  induction phases generalizing course w with
  | nil => rfl
  | cons entry rest ih =>
    obtain ⟨phase, paths⟩ := entry
    cases hend : endsBefore stopAfter? (course.done + paths.length) with
    | true => rw [runPhases_ends hgoing hend, indexPhases, indexPhases_ended hend]
    | false =>
      obtain ⟨after, hdone, hafter, hrun⟩ := runPhases_goes_on hcourse hgoing hend phase rest w
      rw [hrun, if_neg (hphases (phase, paths) List.mem_cons_self),
        ih (fun e he => hphases e (List.mem_cons_of_mem _ he)) hafter (hdone ▸ hend), hdone, indexPhases,
        readable_all hend]

def ReadsManifests (stopAfter? : Option Nat) (files : WorkspaceFiles) : Prop :=
  endsBefore stopAfter? files.manifests.length = false

/-- A scan that is stopped among the manifests has done nothing but to read some of them. -/
theorem run_ended {stopAfter? : Option Nat} {files : WorkspaceFiles}
    (h : ¬ReadsManifests stopAfter? files) (w : Workspace) :
    (run stopAfter? files w).2 = indexAll .manifests (readable stopAfter? 0 files.manifests) w := by
  have hend : endsBefore stopAfter? (Course.start.done + files.manifests.length) = true := by
    rw [Course.start, Nat.zero_add]
    exact Bool.not_eq_false _ ▸ h
  exact runPhases_ends endsBefore_zero hend _ w

def laterPhases (files : WorkspaceFiles) : List (Phase × List FilePath) :=
  [(.fragments, files.fragments), (.views, files.views), (.scripts, files.scripts)]

theorem run_of_readsManifests {stopAfter? : Option Nat} {files : WorkspaceFiles}
    (h : ReadsManifests stopAfter? files) (w : Workspace) :
    (run stopAfter? files w).2 = indexPhases stopAfter? files.manifests.length (laterPhases files)
      (indexAll .manifests files.manifests w).resetModels := by
  have hstart : Course.start.done + files.manifests.length = files.manifests.length := Nat.zero_add _
  have hnext : endsBefore stopAfter? (Course.start.done + files.manifests.length) = false := by
    rw [hstart]
    exact h
  obtain ⟨after, hdone, hcancelled, hrun⟩ :=
    runPhases_goes_on rfl endsBefore_zero hnext .manifests (laterPhases files) w
  rw [hstart] at hdone
  have hgoing : endsBefore stopAfter? after.done = false := by
    rw [hdone]
    exact h
  have hlater : ∀ entry ∈ laterPhases files, entry.1 ≠ .manifests := by simp [laterPhases]
  have hstate := runPhases_run hlater hcancelled hgoing (indexAll .manifests files.manifests w).resetModels
  rw [hdone] at hstate
  exact (congrArg Prod.snd hrun).trans hstate

theorem indexAll_keeps {phase : Phase} {I : Workspace → Prop}
    (hstep : ∀ w path, I w → I (indexFile phase path w).2) (paths : List FilePath) {w : Workspace}
    (h : I w) : I (indexAll phase paths w) := by
  induction paths generalizing w with
  | nil => exact h
  | cons path paths ih => exact ih (hstep w path h)

theorem registerManifest_run (path : FilePath) (text : String) (w : Workspace) :
    ∃ manifests, (registerManifest path text w).2 = { w with manifests := manifests } := by
  unfold registerManifest
  cases Manifest.parse path text with
  | ok manifest => exact ⟨(w.addManifest manifest).manifests, rfl⟩
  | error fault => exact ⟨(w.removeManifest path).manifests, rfl⟩

theorem indexManifest_state (path : FilePath) (w : Workspace) :
    (indexManifest path w).2 = (loadManifest path w).2 := by
  unfold indexManifest
  rw [bind_run]
  cases (loadManifest path w).1 <;> rfl

theorem indexManifest_run (path : FilePath) (w : Workspace) :
    ∃ manifests, (indexManifest path w).2 = { w with manifests := manifests } := by
  rw [indexManifest_state]
  unfold loadManifest
  rw [bind_run, get_run]
  cases w.readFile path with
  | ok text => exact registerManifest_run path text w
  | error fault => exact ⟨w.manifests, rfl⟩

theorem indexDocument_state (path : FilePath) (w : Workspace) :
    (indexDocument path w).2 = w.keeping (w.stored? path) := by
  unfold indexDocument
  rw [bind_run, loadDocument_run]
  cases w.stored? path <;> rfl

theorem indexDocument_run (path : FilePath) (w : Workspace) : ∃ documents examined,
    (indexDocument path w).2 = { w with documents := documents, examined := examined } := by
  rw [indexDocument_state]
  cases w.stored? path with
  | none => exact ⟨w.documents, w.examined, rfl⟩
  | some d => exact ⟨(w.putDocument d).documents, (w.putDocument d).examined, rfl⟩

theorem indexAll_manifests (paths : List FilePath) (w : Workspace) :
    ∃ manifests, indexAll .manifests paths w = { w with manifests := manifests } := by
  apply indexAll_keeps (I := fun u => ∃ manifests, u = { w with manifests := manifests })
  · rintro _ path ⟨manifests, rfl⟩
    exact indexManifest_run path _
  · exact ⟨w.manifests, rfl⟩

theorem indexAll_documents {phase : Phase} (hphase : phase = .fragments ∨ phase = .views)
    (paths : List FilePath) (w : Workspace) : ∃ documents examined,
      indexAll phase paths w = { w with documents := documents, examined := examined } := by
  apply indexAll_keeps
    (I := fun u => ∃ documents examined, u = { w with documents := documents, examined := examined })
  · rintro _ path ⟨documents, examined, rfl⟩
    rcases hphase with rfl | rfl
    · exact indexDocument_run path _
    · exact indexDocument_run path _
  · exact ⟨w.documents, w.examined, rfl⟩

/-- The classes are those that scripts at the paths make, each under the name of its path. -/
def MadeByScripts (paths : List FilePath) (w : Workspace) : Prop :=
  ∀ name c, w.classes.lookup name = some c → ∃ path ∈ paths, ∃ text,
    w.className? path = some name ∧ w.source.read path = .ok text ∧
      c = ClassDefinition.ofScript name path text

theorem indexScript_state {path : FilePath} {w : Workspace} {name text : String}
    (hname : w.className? path = some name) (htext : w.source.read path = .ok text) :
    (indexScript path w).2 = (setScript name path text w).2 := by
  unfold indexScript
  simp only [bind_run, get_run, hname, htext]
  rfl

theorem indexScript_run (path : FilePath) (w : Workspace) :
    (indexScript path w).2 = w ∨ ∃ name text builds, w.className? path = some name ∧
      w.source.read path = .ok text ∧ (indexScript path w).2 =
        Workspace.putClass { w with builds := builds } (ClassDefinition.ofScript name path text) := by
  cases hname : w.className? path with
  | none =>
    left
    unfold indexScript
    simp only [bind_run, get_run, hname]
    rfl
  | some name =>
    cases htext : w.source.read path with
    | error fault =>
      left
      unfold indexScript
      simp only [bind_run, get_run, hname, htext]
      rfl
    | ok text =>
      rw [indexScript_state hname htext]
      rcases setScript_run name path text w with ⟨c, -, hset⟩ | ⟨builds, hset⟩
      · exact .inl (by rw [hset])
      · exact .inr ⟨name, text, builds, rfl, rfl, by rw [hset]⟩

theorem indexFile_keeps (phase : Phase) (path : FilePath) (w : Workspace) :
    (indexFile phase path w).2.source = w.source ∧
      (phase ≠ .manifests → (indexFile phase path w).2.manifests = w.manifests) := by
  cases phase with
  | manifests =>
    obtain ⟨_, hrun⟩ := indexManifest_run path w
    rw [indexFile, hrun]
    exact ⟨rfl, fun hphase => absurd rfl hphase⟩
  | fragments | views =>
    obtain ⟨_, _, hrun⟩ := indexDocument_run path w
    rw [indexFile, hrun]
    exact ⟨rfl, fun _ => rfl⟩
  | scripts =>
    rw [indexFile]
    rcases indexScript_run path w with hsame | ⟨_, _, _, _, _, hput⟩
    · rw [hsame]
      exact ⟨rfl, fun _ => rfl⟩
    · rw [hput]
      exact ⟨rfl, fun _ => rfl⟩

theorem source_indexAll (phase : Phase) (paths : List FilePath) (w : Workspace) :
    (indexAll phase paths w).source = w.source :=
  indexAll_keeps (I := fun u => u.source = w.source)
    (fun u path hu => (indexFile_keeps phase path u).1.trans hu) paths rfl

theorem source_run (stopAfter? : Option Nat) (files : WorkspaceFiles) (w : Workspace) :
    (run stopAfter? files w).2.source = w.source := by
  by_cases h : ReadsManifests stopAfter? files
  · rw [run_of_readsManifests h]
    simp only [laterPhases, indexPhases, source_indexAll]
    exact source_indexAll .manifests files.manifests w
  · rw [run_ended h, source_indexAll]

theorem MadeByScripts.indexScript {paths : List FilePath} {w : Workspace} (h : MadeByScripts paths w)
    (path : FilePath) : MadeByScripts (paths ++ [path]) (indexScript path w).2 := by
  have hmore : MadeByScripts (paths ++ [path]) w := by
    intro name c hc
    obtain ⟨found, hfound, hmade⟩ := h name c hc
    exact ⟨found, List.mem_append_left _ hfound, hmade⟩
  rcases indexScript_run path w with hsame | ⟨name, text, builds, hname, htext, hput⟩
  · rw [hsame]
    exact hmore
  · rw [hput]
    intro asked c hc
    rcases lookup_putClass hc with ⟨rfl, rfl⟩ | hc
    · exact ⟨path, List.mem_append_right _ (List.mem_singleton_self path), text, hname, htext, rfl⟩
    · exact hmore asked c hc

theorem MadeByScripts.indexAll (paths : List FilePath) {front : List FilePath} {w : Workspace}
    (h : MadeByScripts front w) : MadeByScripts (front ++ paths) (indexAll .scripts paths w) := by
  induction paths generalizing front w with
  | nil =>
    rw [List.append_nil]
    exact h
  | cons path paths ih =>
    have hrest := ih (h.indexScript path)
    rw [List.append_assoc] at hrest
    exact hrest

theorem MadeByScripts.congr {paths : List FilePath} {w v : Workspace} (h : MadeByScripts paths w)
    (hclasses : v.classes = w.classes) (hmanifests : v.manifests = w.manifests)
    (hsource : v.source = w.source) : MadeByScripts paths v := by
  unfold MadeByScripts
  rw [hclasses, className?_congr hmanifests, hsource]
  exact h

theorem MadeByScripts.classes_eq_nil {w : Workspace} (h : MadeByScripts [] w) : w.classes = [] := by
  cases hclasses : w.classes with
  | nil => rfl
  | cons entry rest =>
    obtain ⟨name, c⟩ := entry
    have hlookup : w.classes.lookup name = some c := by
      rw [hclasses, List.lookup_cons, beq_self_eq_true]
    obtain ⟨path, hpath, -⟩ := h name c hlookup
    cases hpath

/-- The workspace holds nothing that was worked out before the scripts at the paths were read. -/
structure HoldsOnly (scripts : List FilePath) (w : Workspace) : Prop where
  types : w.types = TypeMemo.empty
  handlers : w.handlers = []
  classes : MadeByScripts scripts w

theorem HoldsOnly.indexDocuments {scripts : List FilePath} {w : Workspace} (h : HoldsOnly scripts w)
    {phase : Phase} (hphase : phase = .fragments ∨ phase = .views) (paths : List FilePath) :
    HoldsOnly scripts (Scan.indexAll phase paths w) := by
  obtain ⟨documents, examined, hrun⟩ := indexAll_documents hphase paths w
  rw [hrun]
  exact ⟨h.types, h.handlers, h.classes.congr rfl rfl rfl⟩

theorem HoldsOnly.indexScripts {w : Workspace} (h : HoldsOnly [] w) (paths : List FilePath) :
    HoldsOnly paths (Scan.indexAll .scripts paths w) := by
  have hderived : (Scan.indexAll .scripts paths w).types = TypeMemo.empty ∧
      (Scan.indexAll .scripts paths w).handlers = [] := by
    apply indexAll_keeps (I := fun u => u.types = TypeMemo.empty ∧ u.handlers = []) _ _ ⟨h.types, h.handlers⟩
    intro u path hu
    change (indexScript path u).2.types = _ ∧ (indexScript path u).2.handlers = _
    rcases indexScript_run path u with hsame | ⟨name, text, builds, -, -, hput⟩
    · rw [hsame]
      exact hu
    · rw [hput]
      exact hu
  exact ⟨hderived.1, hderived.2, h.classes.indexAll paths⟩

def scriptsRead (stopAfter? : Option Nat) (files : WorkspaceFiles) : List FilePath :=
  readable stopAfter? (files.manifests.length + files.fragments.length + files.views.length)
    files.scripts

/-- A scan that reads all its manifests leaves only what it has made itself. -/
theorem holdsOnly_run {stopAfter? : Option Nat} {files : WorkspaceFiles}
    (h : ReadsManifests stopAfter? files) (w : Workspace) :
    HoldsOnly (scriptsRead stopAfter? files) (run stopAfter? files w).2 := by
  rw [run_of_readsManifests h]
  have hreset : HoldsOnly [] (Scan.indexAll .manifests files.manifests w).resetModels :=
    ⟨rfl, rfl, fun _ _ hc => nomatch hc⟩
  exact ((hreset.indexDocuments (.inl rfl) _).indexDocuments (.inr rfl) _).indexScripts _

/-- Nothing has been worked out. -/
structure IsBlank (w : Workspace) : Prop where
  classes : w.classes = []
  types : w.types = TypeMemo.empty
  handlers : w.handlers = []

/-- A scan leaves nothing of what was worked out before it if and only if it reads all its manifests
or nothing had been worked out. -/
theorem scan_forgets_former_models_iff (stopAfter? : Option Nat) (files : WorkspaceFiles)
    (w : Workspace) : HoldsOnly (scriptsRead stopAfter? files) (run stopAfter? files w).2 ↔
      ReadsManifests stopAfter? files ∨ IsBlank w := by
  by_cases hread : ReadsManifests stopAfter? files
  · exact iff_of_true (holdsOnly_run hread w) (.inl hread)
  · obtain ⟨manifests, hmanifests⟩ := indexAll_manifests (readable stopAfter? 0 files.manifests) w
    rw [run_ended hread, hmanifests]
    constructor
    · intro h
      have hend : endsBefore stopAfter? files.manifests.length = true := Bool.not_eq_false _ ▸ hread
      have hnone : scriptsRead stopAfter? files = [] := readable_ended (endsBefore_mono (by omega) hend) _
      have hclasses : MadeByScripts [] { w with manifests := manifests } := hnone ▸ h.classes
      exact .inr ⟨hclasses.classes_eq_nil, h.types, h.handlers⟩
    · rintro (h | h)
      · exact absurd h hread
      · exact ⟨h.types, h.handlers, fun name c hc => by rw [h.classes] at hc; cases hc⟩

end UiWorkspace.Scan
