import Mathlib.Data.List.Basic
import UiWorkspace.Proofs.FilePath
import UiWorkspace.Workspace.Index

/-! Class names and paths. A name leads to a file below the root of its component, as long as no
piece of it is an absolute path. Names and paths lead back to each other, but for scripts called
`controller.js`: their name is taken for the ending of a controller. -/
namespace UiWorkspace.Workspace

open UiWorkspace.Text

theorem ending_of_mem_endings {kind : SourceKind} {ending : String} (h : ending ∈ kind.endings) :
    '/' ∉ ending.toList ∧ 2 < ending.length := by
  have hall : ∀ e ∈ kind.endings, '/' ∉ e.toList ∧ 2 < e.length := by cases kind <;> decide
  exact hall ending h

theorem isPlain_of_dotless {s : String} (h : '.' ∉ s.toList) : FilePath.IsPlain (split '/' s) := by
  intro piece hpiece
  have hdot : '.' ∉ piece.toList := fun hmem => h (mem_of_mem_split hpiece hmem)
  constructor
  · rintro rfl
    exact hdot (by decide)
  · rintro rfl
    exact hdot (by decide)

theorem isPlain_append {stem ending : String} (hstem : '.' ∉ stem.toList)
    (hslash : '/' ∉ ending.toList) (hlength : 2 < ending.length) :
    FilePath.IsPlain (split '/' (stem ++ ending)) := by
  obtain ⟨before, last, hfront, hboth⟩ := exists_pieces_append hslash stem.toList
  have hsplit : split '/' (stem ++ ending) =
      before.map String.ofList ++ [String.ofList last ++ ending] := by
    rw [split, String.toList_append, hboth]
    simp
  rw [hsplit]
  intro piece hpiece
  rcases List.mem_append.1 hpiece with hpiece | hpiece
  · apply isPlain_of_dotless hstem
    rw [split, hfront, List.map_append]
    exact List.mem_append_left _ hpiece
  · -- The last piece is longer than a dot or two.
    have hlong : 2 < piece.length := by
      rw [List.mem_singleton.1 hpiece, String.length_append]
      omega
    constructor
    · rintro rfl
      exact absurd hlong (by decide)
    · rintro rfl
      exact absurd hlong (by decide)

def LeadsDown (piece : String) : Prop := '.' ∉ piece.toList ∧ startsWith "/" piece = false

theorem components_foldl_push {pieces : List String} (h : ∀ piece ∈ pieces, LeadsDown piece)
    (root : FilePath) : (pieces.foldl FilePath.push root).components =
      root.components ++ (pieces.flatMap FilePath.namesIn).map .name := by
  induction pieces generalizing root with
  | nil => exact (List.append_nil _).symm
  | cons piece pieces ih =>
    obtain ⟨hdot, hrelative⟩ := h piece List.mem_cons_self
    rw [List.foldl_cons, ih fun q hq => h q (List.mem_cons_of_mem piece hq),
      FilePath.components_push root hrelative (isPlain_of_dotless hdot), List.flatMap_cons,
      List.map_append, List.append_assoc]

theorem pathBelow?_components {root : FilePath} {name stem ending : String} {dirs : List String}
    (hsplit : split '.' name = dirs ++ [stem]) (hstem : stem ≠ "")
    (hdown : ∀ piece ∈ dirs ++ [stem], LeadsDown piece)
    (hslash : '/' ∉ ending.toList) (hlength : 2 < ending.length) :
    ∃ path, pathBelow? root name ending = some path ∧ path.components = root.components ++
      (dirs.flatMap FilePath.namesIn ++ FilePath.namesIn (stem ++ ending)).map .name := by
  refine ⟨(dirs.foldl FilePath.push root).push (stem ++ ending), ?_, ?_⟩
  · unfold pathBelow?
    simp [hsplit, hstem]
  · obtain ⟨hdot, hrelative⟩ := hdown stem (List.mem_append_right dirs (List.mem_singleton_self stem))
    have hfile : startsWith "/" (stem ++ ending) = false :=
      (FilePath.isAbsolute_append hstem ending).trans hrelative
    have hdirs := components_foldl_push (fun d hd => hdown d (List.mem_append_left _ hd)) root
    rw [FilePath.components_push _ hfile (isPlain_append hdot hslash hlength), hdirs, List.map_append,
      List.append_assoc]

/-- An absolute piece takes the place of the root. -/
example : (pathBelow? ⟨"/app"⟩ "/etc/hosts" ".js").map FilePath.text = some "/etc/hosts.js" := by
  decide +kernel

theorem below?_of_components {path root : FilePath} {below : List FilePath.Component}
    (h : path.components = root.components ++ below) : path.below? root = some below :=
  after?_eq_some_iff.2 h

theorem candidate?_of_owner {w : Workspace} {className : String} {manifest : Manifest}
    (howner : w.manifestForClass? className = some manifest) (ending : String) :
    w.candidate? className ending = (manifest.relativeName? className).bind fun relative =>
      pathBelow? manifest.root relative ending := by
  unfold candidate?
  rw [howner]
  rfl

/-- The pieces of a class name behind the component's name are no absolute paths. -/
def NamesNoRoot (m : Manifest) (className : String) : Prop :=
  ∀ relative, m.relativeName? className = some relative →
    ∀ piece ∈ split '.' relative, startsWith "/" piece = false

/-- A class has its file below the root of the component that owns it, and on the way down there
are names only. -/
theorem class_file_below_root {w : Workspace} {className ending : String} {kind : SourceKind}
    {manifest : Manifest} {path : FilePath} (hending : ending ∈ kind.endings)
    (howner : w.manifestForClass? className = some manifest)
    (hnames : NamesNoRoot manifest className) (hpath : w.candidate? className ending = some path) :
    ∃ names : List String, path.below? manifest.root = some (names.map .name) := by
  obtain ⟨hslash, hlength⟩ := ending_of_mem_endings hending
  rw [candidate?_of_owner howner] at hpath
  obtain ⟨relative, hrelative, hpath⟩ := Option.bind_eq_some_iff.1 hpath
  obtain ⟨dirs, stem, hsplit⟩ :=
    (List.eq_nil_or_concat (split '.' relative)).resolve_left (split_ne_nil '.' relative)
  rw [List.concat_eq_append] at hsplit
  have hstem : stem ≠ "" := by
    rintro rfl
    simp [pathBelow?, hsplit] at hpath
  have hdown : ∀ piece ∈ dirs ++ [stem], LeadsDown piece := by
    intro piece hpiece
    rw [← hsplit] at hpiece
    exact ⟨not_mem_of_mem_split hpiece, hnames relative hrelative piece hpiece⟩
  obtain ⟨found, hfound, hcomponents⟩ := pathBelow?_components hsplit hstem hdown hslash hlength
  obtain rfl : found = path := Option.some.inj (hfound.symm.trans hpath)
  exact ⟨_, below?_of_components hcomponents⟩

def sampleComponents : Workspace :=
  { new Settings.builtIn (.memory []) none [] with
    manifests := [⟨"App.lib", ⟨"/lib"⟩, ⟨"/lib/manifest.json"⟩, .null⟩,
      ⟨"App", ⟨"/app"⟩, ⟨"/app/manifest.json"⟩, .null⟩] }

theorem class_file_below_root_sample :
    ∃ manifest path, sampleComponents.manifestForClass? "App.lib.a//b..C" = some manifest ∧
      manifest.root.text = "/lib" ∧ NamesNoRoot manifest "App.lib.a//b..C" ∧
      sampleComponents.candidate? "App.lib.a//b..C" ".controller.js" = some path ∧
      path.text = "/lib/a//b/C.controller.js" ∧
      ∃ names : List String, path.below? manifest.root = some (names.map .name) := by
  have howner : (sampleComponents.manifestForClass? "App.lib.a//b..C").map
      (fun m => (m.component, m.root.text)) = some ("App.lib", "/lib") := by decide +kernel
  have hcandidate : (sampleComponents.candidate? "App.lib.a//b..C" ".controller.js").map FilePath.text =
      some "/lib/a//b/C.controller.js" := by decide +kernel
  obtain ⟨manifest, howner, hmanifest⟩ := Option.map_eq_some_iff.1 howner
  obtain ⟨path, hpath, htext⟩ := Option.map_eq_some_iff.1 hcandidate
  obtain ⟨hcomponent, hroot⟩ := Prod.mk.inj hmanifest
  have hnames : NamesNoRoot manifest "App.lib.a//b..C" := by
    intro relative hrelative
    have hlib : stripLead? "App.lib." "App.lib.a//b..C" = some relative := by
      rw [← hrelative, Manifest.relativeName?, hcomponent]
      rfl
    obtain rfl : "a//b..C" = relative := Option.some.inj ((by decide +kernel : _ = _).symm.trans hlib)
    decide +kernel
  exact ⟨manifest, path, howner, hroot, hnames, hpath, htext,
    class_file_below_root (by decide : ".controller.js" ∈ SourceKind.script.endings) howner hnames hpath⟩

/-- The name of a directory, or of a file without its ending: neither dots nor slashes. -/
structure IsSegment (s : String) : Prop where
  ne_empty : s ≠ ""
  dotless : '.' ∉ s.toList
  slashless : '/' ∉ s.toList

theorem startsWith_slash {s : String} (h : '/' ∉ s.toList) : startsWith "/" s = false := by
  rw [startsWith, Option.isSome_eq_false_iff, Option.isNone_iff_eq_none, Option.eq_none_iff_forall_not_mem]
  intro rest hrest
  rw [Option.mem_def, after?_eq_some_iff] at hrest
  exact h (by simp [hrest])

theorem IsSegment.leadsDown {s : String} (h : IsSegment s) : LeadsDown s :=
  ⟨h.dotless, startsWith_slash h.slashless⟩

theorem namesIn_of_slashless {s : String} (hne : s ≠ "") (h : '/' ∉ s.toList) :
    FilePath.namesIn s = [s] := by
  rw [FilePath.namesIn, split_of_not_mem h]
  simp [hne]

theorem componentNames?_map (names : List String) :
    componentNames? (names.map FilePath.Component.name) = some names := by
  unfold componentNames?
  induction names with
  | nil => rfl
  | cons n names ih => simp [ih]

theorem className?_of_below {w : Workspace} {m : Manifest} {path : FilePath} {names : List String}
    (howner : w.manifestForPath? path = some m) (hbelow : path.below? m.root = some (names.map .name))
    (hne : names ≠ []) : w.className? path = some (withoutEnding (join "." (m.component :: names))) := by
  unfold className?
  rw [howner]
  simp [hbelow, componentNames?_map, hne]

theorem stripTail?_append (front tail : String) : stripTail? tail (front ++ tail) = some front :=
  stripTail?_eq_some_iff.2 rfl

theorem stripTail?_append_append (name tail ending : String) :
    stripTail? (tail ++ ending) (name ++ ending) = stripTail? tail name := by
  ext front
  rw [stripTail?_eq_some_iff, stripTail?_eq_some_iff, ← String.append_assoc]
  exact String.append_left_inj ending

theorem withoutEnding_js (name : String) :
    withoutEnding (name ++ ".js") = (stripTail? ".controller" name).getD name := by
  have hcontroller : stripTail? ".controller.js" (name ++ ".js") = stripTail? ".controller" name :=
    stripTail?_append_append name ".controller" ".js"
  have hfragment : stripTail? ".fragment.xml" (name ++ ".js") = none := by
    simp [stripTail?, before?, after?]
  have hview : stripTail? ".view.xml" (name ++ ".js") = none := by
    simp [stripTail?, before?, after?]
  unfold withoutEnding knownEndings
  simp only [List.findSome?_cons, hcontroller, hfragment, hview, stripTail?_append]
  cases stripTail? ".controller" name <;> rfl

theorem withoutEnding_longer {ending : String}
    (h : ending ∈ [".controller.js", ".fragment.xml", ".view.xml"]) (name : String) :
    withoutEnding (name ++ ending) = name := by
  unfold withoutEnding knownEndings
  simp only [List.mem_cons, List.not_mem_nil, or_false] at h
  rcases h with rfl | rfl | rfl
  · simp only [List.findSome?_cons, stripTail?_append, Option.getD_some]
  · have hcontroller : stripTail? ".controller.js" (name ++ ".fragment.xml") = none := by
      simp [stripTail?, before?, after?]
    simp only [List.findSome?_cons, hcontroller, stripTail?_append, Option.getD_some]
  · have hcontroller : stripTail? ".controller.js" (name ++ ".view.xml") = none := by
      simp [stripTail?, before?, after?]
    have hfragment : stripTail? ".fragment.xml" (name ++ ".view.xml") = none := by
      simp [stripTail?, before?, after?]
    simp only [List.findSome?_cons, hcontroller, hfragment, stripTail?_append, Option.getD_some]

/-- Only a last piece `controller` is taken for a part of the ending. -/
theorem stripTail?_controller (front : String) {stem : String} (hstem : '.' ∉ stem.toList) :
    stripTail? ".controller" (front ++ "." ++ stem) =
      if stem = "controller" then some front else none := by
  ext found
  have hdots : front ++ "." ++ stem = found ++ ".controller" ↔ front = found ∧ stem = "controller" := by
    rw [← String.toList_inj, ← String.toList_inj, ← String.toList_inj]
    have hcontroller : ".controller".toList = '.' :: "controller".toList := by decide
    rw [String.toList_append, String.toList_append, String.toList_append, hcontroller,
      List.append_assoc]
    exact append_cons_inj hstem (by decide)
  rw [stripTail?_eq_some_iff, hdots]
  split
  next h => simp [h]
  next h => simp [h]

/-- The class of a file in the given directories below the root of a component. -/
def dottedName (m : Manifest) (dirs : List String) (stem : String) : String :=
  join "." (m.component :: (dirs ++ [stem]))

theorem dottedName_eq_append (m : Manifest) (dirs : List String) (stem : String) :
    dottedName m dirs stem = join "." (m.component :: dirs) ++ "." ++ stem :=
  (String.intercalate_append_of_ne_nil (List.cons_ne_nil m.component dirs)
    (List.cons_ne_nil stem [])).trans (by rw [String.intercalate_singleton]; rfl)

theorem withoutEnding_dottedName {m : Manifest} {dirs : List String} {stem ending : String}
    {kind : SourceKind} (hstem : '.' ∉ stem.toList) (hending : ending ∈ kind.endings) :
    withoutEnding (dottedName m dirs (stem ++ ending)) =
      if stem = "controller" ∧ ending = ".js" then join "." (m.component :: dirs)
      else dottedName m dirs stem := by
  have hname : dottedName m dirs (stem ++ ending) = dottedName m dirs stem ++ ending := by
    rw [dottedName_eq_append, dottedName_eq_append, ← String.append_assoc]
  rw [hname]
  by_cases hjs : ending = ".js"
  · rw [hjs, withoutEnding_js, dottedName_eq_append, stripTail?_controller _ hstem]
    by_cases hcontroller : stem = "controller" <;> simp [hcontroller]
  · have hlonger : ending ∈ [".controller.js", ".fragment.xml", ".view.xml"] := by
      cases kind <;> simp_all [SourceKind.endings]
    rw [withoutEnding_longer hlonger, if_neg fun h => hjs h.2]

example : withoutEnding "App.controller.js" = "App" ∧ withoutEnding "App.main.js" = "App.main" := by
  decide +kernel

theorem relativeName?_dottedName (m : Manifest) (dirs : List String) (stem : String) :
    m.relativeName? (dottedName m dirs stem) = some (join "." (dirs ++ [stem])) := by
  apply stripLead?_eq_some_iff.2
  exact String.intercalate_cons_of_ne_nil (List.append_ne_nil_of_right_ne_nil dirs (List.cons_ne_nil stem []))

theorem className?_dottedName {w : Workspace} {m : Manifest} (hmanifests : w.manifests = [m])
    {dirs : List String} {stem ending : String} {kind : SourceKind} (hstem : '.' ∉ stem.toList)
    (hending : ending ∈ kind.endings) {path : FilePath}
    (hpath : path.components = m.root.components ++ (dirs ++ [stem ++ ending]).map .name) :
    w.className? path = some (if stem = "controller" ∧ ending = ".js"
      then join "." (m.component :: dirs) else dottedName m dirs stem) := by
  have hbelow := below?_of_components hpath
  have howner : w.manifestForPath? path = some m := by
    unfold manifestForPath?
    rw [hmanifests]
    simp [FilePath.isBelow, hbelow, lastGreatest?]
  rw [className?_of_below howner hbelow (List.append_ne_nil_of_right_ne_nil dirs (List.cons_ne_nil _ [])),
    ← withoutEnding_dottedName hstem hending]
  rfl

theorem candidate?_dottedName {w : Workspace} {m : Manifest} (hmanifests : w.manifests = [m])
    {dirs : List String} {stem ending : String} {kind : SourceKind}
    (hdirs : ∀ d ∈ dirs, IsSegment d) (hstem : IsSegment stem) (hending : ending ∈ kind.endings) :
    ∃ file, w.candidate? (dottedName m dirs stem) ending = some file ∧
      file.components = m.root.components ++ (dirs ++ [stem ++ ending]).map .name := by
  obtain ⟨hslash, hlength⟩ := ending_of_mem_endings hending
  have hall : ∀ piece ∈ dirs ++ [stem], IsSegment piece := by
    intro piece hpiece
    rcases List.mem_append.1 hpiece with hpiece | hpiece
    · exact hdirs piece hpiece
    · exact List.mem_singleton.1 hpiece ▸ hstem
  have howner : w.manifestForClass? (dottedName m dirs stem) = some m := by
    unfold manifestForClass?
    rw [hmanifests]
    simp [Manifest.owns, relativeName?_dottedName, lastGreatest?]
  have hsplit : split '.' (join "." (dirs ++ [stem])) = dirs ++ [stem] :=
    split_join (List.append_ne_nil_of_right_ne_nil dirs (List.cons_ne_nil stem []))
      fun piece hpiece => (hall piece hpiece).dotless
  have hnames : dirs.flatMap FilePath.namesIn ++ FilePath.namesIn (stem ++ ending) =
      dirs ++ [stem ++ ending] := by
    have hdirNames : dirs.flatMap FilePath.namesIn = dirs.flatMap fun d => [d] :=
      List.flatMap_congr fun d hd => namesIn_of_slashless (hdirs d hd).ne_empty (hdirs d hd).slashless
    have hfile : stem ++ ending ≠ "" := by
      intro h
      exact hstem.ne_empty (String.append_eq_empty_iff.1 h).1
    rw [hdirNames, List.flatMap_singleton', namesIn_of_slashless hfile (by simp [hstem.slashless, hslash])]
  rw [candidate?_of_owner howner, relativeName?_dottedName, Option.bind_some, ← hnames]
  exact pathBelow?_components hsplit hstem.ne_empty (fun piece hpiece => (hall piece hpiece).leadsDown)
    hslash hlength

/-- With one component, the class of a file is called as its path says, unless the file is a script
called `controller.js`; the name always leads back to the file. -/
theorem class_name_leads_back {w : Workspace} {m : Manifest} (hmanifests : w.manifests = [m])
    {dirs : List String} {stem ending : String} {kind : SourceKind}
    (hdirs : ∀ d ∈ dirs, IsSegment d) (hstem : IsSegment stem) (hending : ending ∈ kind.endings)
    {path : FilePath}
    (hpath : path.components = m.root.components ++ (dirs ++ [stem ++ ending]).map .name) :
    (w.className? path = some (dottedName m dirs stem) ↔ ¬(stem = "controller" ∧ ending = ".js")) ∧
      ∃ file, w.candidate? (dottedName m dirs stem) ending = some file ∧ (file == path) = true := by
  constructor
  · rw [className?_dottedName hmanifests hstem.dotless hending hpath, Option.some.injEq]
    split
    next hcontroller =>
      -- The name of the directory is shorter.
      refine iff_of_false (fun h => ?_) (not_not_intro hcontroller)
      have hlength := congrArg String.length h
      rw [dottedName_eq_append, String.length_append, String.length_append] at hlength
      have hdot : ".".length = 1 := by decide
      omega
    next hother => exact iff_of_true rfl hother
  · obtain ⟨file, hfile, hcomponents⟩ := candidate?_dottedName hmanifests hdirs hstem hending
    exact ⟨file, hfile, FilePath.beq_iff.2 (hcomponents.trans hpath.symm)⟩

def sampleComponent : Workspace :=
  { new Settings.builtIn (.memory []) none [] with
    manifests := [⟨"App", ⟨"/app"⟩, ⟨"/app/manifest.json"⟩, .null⟩] }

/-- A controller called `controller` in a directory called `controller`. -/
theorem class_name_leads_back_sample :
    sampleComponent.className? ⟨"/app//controller/./controller.controller.js"⟩ =
        some "App.controller.controller" ∧
      ∃ file, sampleComponent.candidate? "App.controller.controller" ".controller.js" = some file ∧
        (file == ⟨"/app//controller/./controller.controller.js"⟩) = true := by
  have hsegment : IsSegment "controller" := ⟨by decide, by decide, by decide⟩
  have hpath : (FilePath.mk "/app//controller/./controller.controller.js").components =
      (FilePath.mk "/app").components ++ (["controller"] ++ ["controller" ++ ".controller.js"]).map .name := by
    decide +kernel
  have hback := class_name_leads_back (w := sampleComponent) rfl
    (fun d hd => List.mem_singleton.1 hd ▸ hsegment) hsegment
    (by decide : ".controller.js" ∈ SourceKind.controller.endings) hpath
  exact ⟨hback.1.2 (by decide), hback.2⟩

end UiWorkspace.Workspace
