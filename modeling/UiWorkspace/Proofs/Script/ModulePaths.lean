import UiWorkspace.Proofs.Text.Pieces
import UiWorkspace.Script.Module

/-! Paths between modules. The path that leads from one module to another, up to a directory they
have in common and down again, stands for the name of the other one; a path that leads up beyond the
topmost directory stands for none. -/
namespace UiWorkspace.Script

open UiWorkspace.Text

/-- A part of a module's name: it has no dot, slash or blank, so it is read as it is written. -/
structure IsStep (s : String) : Prop where
  ne_empty : s ≠ ""
  dotless : '.' ∉ s.toList
  slashless : '/' ∉ s.toList
  blankless : ∀ c ∈ s.toList, isBlank c = false

theorem all_not_isBlank_iff {cs : List Char} :
    (cs.all fun c => !isBlank c) = true ↔ ∀ c ∈ cs, isBlank c = false := by
  simp

-- The characters are tested one after the other: a test of all characters there are would not end.
instance : DecidablePred IsStep := fun s =>
  decidable_of_iff
    (s ≠ "" ∧ '.' ∉ s.toList ∧ '/' ∉ s.toList ∧ (s.toList.all fun c => !isBlank c) = true)
    ⟨fun ⟨hempty, hdot, hslash, hblank⟩ => ⟨hempty, hdot, hslash, all_not_isBlank_iff.1 hblank⟩,
      fun h => ⟨h.ne_empty, h.dotless, h.slashless, all_not_isBlank_iff.2 h.blankless⟩⟩

structure ModuleName where
  steps : List String
  steps_ne_nil : steps ≠ []
  isStep : ∀ s ∈ steps, IsStep s

def ModuleName.dotted (m : ModuleName) : String := join "." m.steps

def ModuleName.path (m : ModuleName) : String := join "/" m.steps

def trail (steps : List String) : String := String.join (steps.map (· ++ "/"))

/-- The steps up as many directories; where there are none to go up, the one that stays. -/
def upward (ups : Nat) : List String := if ups = 0 then ["."] else List.replicate ups ".."

def LeadsNoDeeper (step : String) : Prop := step = "." ∨ step = ".."

instance : DecidablePred LeadsNoDeeper := fun _ => inferInstanceAs (Decidable (_ ∨ _))

def enter? (directory : List String) (step : String) : Option (List String) :=
  if step = "." || step = "" then some directory
  else if step = ".." then directory.tail?
  else some (step :: directory)

theorem follow_cons (directory : List String) (step : String) (rest : List String) :
    follow directory (step :: rest) = (enter? directory step).bind (follow · rest) := by
  rw [follow.eq_def, enter?]
  dsimp only
  split
  · rfl
  · split
    · cases directory <;> rfl
    · rfl

theorem follow_append (directory steps rest : List String) :
    follow directory (steps ++ rest) = (follow directory steps).bind (follow · rest) := by
  induction steps generalizing directory with
  | nil => rfl
  | cons step steps ih =>
    rw [List.cons_append, follow_cons, follow_cons, Option.bind_assoc]
    exact Option.bind_congr fun reached _ => ih reached

theorem IsStep.enter? {s : String} (h : IsStep s) (directory : List String) :
    enter? directory s = some (s :: directory) := by
  have hdot : s ≠ "." := fun hs => h.dotless (by simp [hs])
  have hdots : s ≠ ".." := fun hs => h.dotless (by simp [hs])
  rw [Script.enter?, if_neg (by simp [hdot, h.ne_empty]), if_neg hdots]

theorem follow_names {names : List String} (h : ∀ s ∈ names, IsStep s) (directory : List String) :
    follow directory names = some (names.reverse ++ directory) := by
  induction names generalizing directory with
  | nil => rfl
  | cons s names ih =>
    have hnames := fun r hr => h r (List.mem_cons_of_mem s hr)
    rw [follow_cons, (h s List.mem_cons_self).enter?, Option.bind_some, ih hnames,
      List.reverse_cons, List.append_assoc, List.singleton_append]

theorem follow_replicate {ups : Nat} {directory : List String} (h : ups ≤ directory.length) :
    follow directory (List.replicate ups "..") = some (directory.drop ups) := by
  induction ups generalizing directory with
  | zero => rfl
  | succ ups ih =>
    cases directory with
    | nil => cases h
    | cons top above => exact ih (Nat.le_of_succ_le_succ h)

theorem follow_upward {ups : Nat} {directory : List String} (h : ups ≤ directory.length) :
    follow directory (upward ups) = some (directory.drop ups) := by
  rw [upward]
  split
  next hzero => rw [hzero]; rfl
  · exact follow_replicate h

theorem follow_beyond {steps : List String} (hsteps : ∀ s ∈ steps, LeadsNoDeeper s)
    {directory : List String} (h : directory.length < steps.count "..") (rest : List String) :
    follow directory (steps ++ rest) = none := by
  induction steps generalizing directory with
  | nil => cases h
  | cons s steps ih =>
    have hrest := fun r hr => hsteps r (List.mem_cons_of_mem s hr)
    rcases hsteps s List.mem_cons_self with rfl | rfl
    · exact ih hrest (by simpa using h)
    · cases directory with
      | nil => rfl
      | cons top above => exact ih hrest (by simpa using h)

theorem upward_ne_nil (ups : Nat) : upward ups ≠ [] := by
  rw [upward]
  split
  · exact List.cons_ne_nil _ _
  next hpos => simpa using hpos

theorem leadsNoDeeper_of_mem_upward {ups : Nat} {s : String} (h : s ∈ upward ups) :
    LeadsNoDeeper s := by
  rw [upward] at h
  split at h
  · exact .inl (List.mem_singleton.1 h)
  · exact .inr (List.eq_of_mem_replicate h)

theorem split_trail {steps : List String} (h : ∀ s ∈ steps, LeadsNoDeeper s) (rest : String) :
    split '/' (trail steps ++ rest) = steps ++ split '/' rest := by
  induction steps with
  | nil => rw [trail, List.map_nil, String.join_nil, String.empty_append, List.nil_append]
  | cons s steps ih =>
    have hslash : '/' ∉ s.toList := by
      rcases h s List.mem_cons_self with rfl | rfl <;> decide
    have hcut : (trail (s :: steps) ++ rest).toList =
        s.toList ++ '/' :: (trail steps ++ rest).toList := by
      simp [trail]
    rw [split_eq_append hcut, split_of_not_mem hslash,
      ih fun r hr => h r (List.mem_cons_of_mem s hr)]
    rfl

theorem isRelative_trail {steps : List String} (hne : steps ≠ []) (h : ∀ s ∈ steps, LeadsNoDeeper s)
    (rest : String) : (startsWith "./" (trail steps ++ rest) ||
      startsWith "../" (trail steps ++ rest)) = true := by
  obtain ⟨s, steps, rfl⟩ := List.exists_cons_of_ne_nil hne
  have hlead : trail (s :: steps) ++ rest = s ++ "/" ++ (trail steps ++ rest) := by
    simp [trail, String.append_assoc]
  rw [hlead]
  rcases h s List.mem_cons_self with rfl | rfl
  · exact Bool.or_eq_true_iff.2 (.inl (startsWith_append "./" _))
  · exact Bool.or_eq_true_iff.2 (.inr (startsWith_append "../" _))

theorem scriptEnding_ne_nil : ".js".toList ≠ [] := by decide

/-- What is read of a path: neither the blanks around it nor the endings `.js` behind it. -/
def bare (path : String) : String :=
  String.ofList (dropTails ".js".toList scriptEnding_ne_nil (trimChars path.toList))

theorem moduleClassName?_eq (path : String) (current? : Option String) :
    moduleClassName? path current? =
      if bare path = "" then none
      else if !(startsWith "./" (bare path) || startsWith "../" (bare path)) then
        some (replaceChar '/' '.' (bare path))
      else current?.bind fun current =>
        (follow ((split '.' current).reverse.drop 1) (split '/' (bare path))).bind fun reached =>
          if reached.isEmpty then none else some (join "." reached.reverse) :=
  rfl

theorem moduleClassName?_of_relative {path : String} {steps : List String} {rest : String}
    (hbare : bare path = trail steps ++ rest) (hne : steps ≠ [])
    (hsteps : ∀ s ∈ steps, LeadsNoDeeper s) (current : String) :
    moduleClassName? path (some current) =
      (follow ((split '.' current).reverse.drop 1) (steps ++ split '/' rest)).bind fun reached =>
        if reached.isEmpty then none else some (join "." reached.reverse) := by
  have hrelative := isRelative_trail hne hsteps rest
  rw [← split_trail hsteps, ← hbare]
  rw [← hbare] at hrelative
  have hempty : bare path ≠ "" := by
    intro hempty
    rw [hempty] at hrelative
    exact absurd hrelative (by decide)
  rw [moduleClassName?_eq, if_neg hempty, if_neg (by simp [hrelative]), Option.bind_some]

theorem moduleClassName?_of_dotless {path : String} (hempty : bare path ≠ "")
    (hdot : '.' ∉ (bare path).toList) (current? : Option String) :
    moduleClassName? path current? = some (replaceChar '/' '.' (bare path)) := by
  have habsolute : ∀ lead : String, '.' ∈ lead.toList → startsWith lead (bare path) = false := by
    intro lead hlead
    refine Bool.eq_false_iff.2 fun hstarts => hdot ?_
    obtain ⟨rest, hrest⟩ := Option.isSome_iff_exists.1 hstarts
    rw [after?_eq_some_iff.1 hrest]
    exact List.mem_append_left _ hlead
  have hslash := habsolute "./" (by decide)
  have hslashes := habsolute "../" (by decide)
  rw [moduleClassName?_eq, if_neg hempty, if_pos (by rw [hslash, hslashes]; rfl)]

theorem bare_append_ending {path ending : String} (hending : ending = "" ∨ ending = ".js")
    (hblank : ∀ c ∈ path.toList, isBlank c = false)
    (hend : ∀ front, path.toList ≠ front ++ ".js".toList) : bare (path ++ ending) = path := by
  have hending' : ∀ c ∈ ending.toList, isBlank c = false := by
    rcases hending with rfl | rfl <;> exact all_not_isBlank_iff.1 (by decide)
  have hall : ∀ c ∈ (path ++ ending).toList, isBlank c = false := by
    intro c hc
    rw [String.toList_append] at hc
    exact (List.mem_append.1 hc).elim (hblank c) (hending' c)
  have hkept := dropTails_of_no_end scriptEnding_ne_nil hend
  rw [bare, trimChars_of_not_isBlank hall, String.toList_append]
  rcases hending with rfl | rfl
  · rw [String.toList_empty, List.append_nil, hkept, String.ofList_toList]
  · rw [dropTails_append, hkept, String.ofList_toList]

theorem ne_append_of_getLast? {path name : String} (hname : (split '/' path).getLast? = some name)
    {ending : List Char} (hslash : '/' ∉ ending) {c : Char} (hc : c ∈ ending)
    (hnot : c ∉ name.toList) (front : List Char) : path.toList ≠ front ++ ending := by
  intro hfront
  obtain ⟨before, last, -, hlast⟩ := exists_pieces_append hslash front
  rw [split, hfront, hlast, List.map_append, List.map_singleton, List.getLast?_concat,
    Option.some.injEq] at hname
  refine hnot ?_
  rw [← hname, String.toList_ofList]
  exact List.mem_append_right last hc

theorem exists_trail_concat {steps : List String} (hne : steps ≠ []) :
    ∃ front, (trail steps).toList = front ++ ['/'] := by
  rw [← List.dropLast_concat_getLast hne]
  exact ⟨(trail steps.dropLast).toList ++ (steps.getLast hne).toList, by simp [trail]⟩

theorem isBlank_head_trail {steps : List String} (hne : steps ≠ [])
    (hsteps : ∀ s ∈ steps, LeadsNoDeeper s) (rest : List Char) (c : Char)
    (hc : ((trail steps).toList ++ rest).head? = some c) : isBlank c = false := by
  obtain ⟨s, steps, rfl⟩ := List.exists_cons_of_ne_nil hne
  rcases hsteps s List.mem_cons_self with rfl | rfl
  all_goals
    obtain rfl : '.' = c := by simpa [trail] using hc
    decide

/-- Neither a blank nor a character of `.js` is a slash, so of a path nothing is dropped before its
last slash. -/
theorem exists_bare_trail {steps : List String} (hne : steps ≠ [])
    (hsteps : ∀ s ∈ steps, LeadsNoDeeper s) (rest : String) :
    ∃ rest', bare (trail steps ++ rest) = trail steps ++ rest' := by
  obtain ⟨blanks, htrim, hblanks⟩ := exists_trimChars_append (isBlank_head_trail hne hsteps rest.toList)
  obtain ⟨dropped, hkept, hdropped⟩ := exists_dropTails_append scriptEnding_ne_nil
    (trimChars ((trail steps).toList ++ rest.toList))
  have hslash : '/' ∉ dropped ++ blanks := by
    intro hmem
    rcases List.mem_append.1 hmem with hmem | hmem
    · exact absurd (hdropped _ hmem) (by decide)
    · exact absurd (hblanks _ hmem) (by decide)
  obtain ⟨front, hfront⟩ := exists_trail_concat hne
  have hcut : front ++ '/' :: rest.toList =
      dropTails ".js".toList scriptEnding_ne_nil (trimChars ((trail steps).toList ++ rest.toList)) ++
        (dropped ++ blanks) := by
    rw [← List.append_assoc, ← hkept, ← htrim, hfront, List.append_assoc, List.singleton_append]
  obtain ⟨rest', hrest'⟩ := exists_of_append_cons_eq hcut hslash
  refine ⟨String.ofList rest', ?_⟩
  rw [bare, String.toList_append, hrest', ← String.toList_inj]
  simp [hfront]

namespace ModuleName

theorem split_dotted (m : ModuleName) : split '.' m.dotted = m.steps :=
  split_join m.steps_ne_nil fun s hs => (m.isStep s hs).dotless

theorem directory_eq (m : ModuleName) {depth : Nat} (h : depth < m.steps.length) :
    ((split '.' m.dotted).reverse.drop 1).drop (m.steps.length - 1 - depth) =
      (m.steps.take depth).reverse := by
  have hrest : m.steps.length - (1 + (m.steps.length - 1 - depth)) = depth := by omega
  rw [m.split_dotted, List.drop_drop, List.drop_reverse, hrest]

end ModuleName

section Names

variable {names : List String} (hne : names ≠ []) (hnames : ∀ s ∈ names, IsStep s)

include hne hnames

theorem bare_of_split {path ending : String} (hending : ending = "" ∨ ending = ".js")
    {steps : List String} (hsteps : ∀ s ∈ steps, LeadsNoDeeper s)
    (hpath : split '/' path = steps ++ names) : bare (path ++ ending) = path := by
  have hslash : isBlank '/' = false := by decide
  refine bare_append_ending hending (forall_mem_of_split hslash fun s hs => ?_) ?_
  · rw [hpath] at hs
    rcases List.mem_append.1 hs with hs | hs
    · rcases hsteps s hs with rfl | rfl <;> exact all_not_isBlank_iff.1 (by decide)
    · exact (hnames s hs).blankless
  · have hlast : (split '/' path).getLast? = some (names.getLast hne) := by
      rw [hpath, List.getLast?_append, List.getLast?_eq_some_getLast hne, Option.some_or]
    exact ne_append_of_getLast? hlast (by decide) (by decide : '.' ∈ ".js".toList)
      (hnames _ (List.getLast_mem hne)).dotless

theorem moduleClassName?_absolute {ending : String} (hending : ending = "" ∨ ending = ".js")
    (current? : Option String) :
    moduleClassName? (join "/" names ++ ending) current? = some (join "." names) := by
  have hslash : ∀ s ∈ names, '/' ∉ s.toList := fun s hs => (hnames s hs).slashless
  have hsplit : split '/' (join "/" names) = names := split_join hne hslash
  have hsteps : ∀ s ∈ ([] : List String), LeadsNoDeeper s := nofun
  have hbare := bare_of_split hne hnames hending hsteps hsplit
  have hdot : '.' ∉ (join "/" names).toList := by
    have hother : '/' ≠ '.' := by decide
    have hall : ∀ c ∈ (join "/" names).toList, c ≠ '.' := by
      refine forall_mem_of_split hother fun s hs c hc hcdot => ?_
      rw [hsplit] at hs
      exact (hnames s hs).dotless (hcdot ▸ hc)
    exact fun hmem => hall '.' hmem rfl
  have hempty : join "/" names ≠ "" := by
    intro hempty
    rw [hempty] at hsplit
    exact (hnames "" (by rw [← hsplit]; decide)).ne_empty rfl
  rw [← hbare] at hdot hempty
  rw [moduleClassName?_of_dotless hempty hdot, hbare]
  exact congrArg some (replaceChar_join hslash '.')

theorem moduleClassName?_upward {ending : String} (hending : ending = "" ∨ ending = ".js")
    (current : ModuleName) {depth : Nat} (hdepth : depth < current.steps.length) :
    moduleClassName? (trail (upward (current.steps.length - 1 - depth)) ++ join "/" names ++ ending)
      (some current.dotted) = some (join "." (current.steps.take depth ++ names)) := by
  have hsteps : ∀ s ∈ upward (current.steps.length - 1 - depth), LeadsNoDeeper s :=
    fun s hs => leadsNoDeeper_of_mem_upward hs
  have hdown : split '/' (join "/" names) = names :=
    split_join hne fun s hs => (hnames s hs).slashless
  have hbare := bare_of_split hne hnames hending hsteps (by rw [split_trail hsteps, hdown])
  have hups : current.steps.length - 1 - depth ≤
      ((split '.' current.dotted).reverse.drop 1).length := by
    rw [current.split_dotted, List.length_drop, List.length_reverse]
    omega
  rw [moduleClassName?_of_relative hbare (upward_ne_nil _) hsteps, hdown, follow_append,
    follow_upward hups, Option.bind_some, current.directory_eq hdepth, follow_names hnames,
    Option.bind_some, if_neg (by simp [hne]), ← List.reverse_append, List.reverse_reverse]

end Names

theorem moduleClassName?_beyond (current : ModuleName) {steps : List String}
    (hsteps : ∀ s ∈ steps, LeadsNoDeeper s) (hcount : current.steps.length - 1 < steps.count "..")
    (rest : String) : moduleClassName? (trail steps ++ rest) (some current.dotted) = none := by
  have hne : steps ≠ [] := by
    rintro rfl
    cases hcount
  obtain ⟨rest', hbare⟩ := exists_bare_trail hne hsteps rest
  have hlength : ((split '.' current.dotted).reverse.drop 1).length < steps.count ".." := by
    rwa [current.split_dotted, List.length_drop, List.length_reverse]
  rw [moduleClassName?_of_relative hbare hne hsteps, follow_beyond hsteps hlength, Option.bind_none]

/-- The path that leads from a module up to a directory it has in common with another one and down to
that one stands for the other one's name, as the path from the top does, with `.js` behind it or
without; a path that leads up beyond the topmost directory stands for none. -/
theorem module_paths_lead_back (current target : ModuleName) :
    (∀ ending, ending = "" ∨ ending = ".js" →
      (∀ depth, depth < current.steps.length → depth < target.steps.length →
        target.steps.take depth = current.steps.take depth →
        moduleClassName? (trail (upward (current.steps.length - 1 - depth)) ++
          join "/" (target.steps.drop depth) ++ ending) (some current.dotted) =
            some target.dotted) ∧
      ∀ current?, moduleClassName? (target.path ++ ending) current? = some target.dotted) ∧
    ∀ steps rest, (∀ s ∈ steps, LeadsNoDeeper s) → current.steps.length - 1 < steps.count ".." →
      moduleClassName? (trail steps ++ rest) (some current.dotted) = none := by
  refine ⟨fun ending hending => ⟨fun depth hcurrent htarget hcommon => ?_, fun current? => ?_⟩,
    fun steps rest hsteps hcount => moduleClassName?_beyond current hsteps hcount rest⟩
  · have hne : target.steps.drop depth ≠ [] := by simpa using htarget
    have hnames : ∀ s ∈ target.steps.drop depth, IsStep s := fun s hs =>
      target.isStep s (List.mem_of_mem_drop hs)
    rw [moduleClassName?_upward hne hnames hending current hcurrent, ← hcommon,
      List.take_append_drop, ModuleName.dotted]
  · exact moduleClassName?_absolute target.steps_ne_nil target.isStep hending current?

def sampleController : ModuleName := ⟨["App", "controller", "Main"], by decide, by decide⟩

def sampleFormatter : ModuleName := ⟨["App", "model", "formatter"], by decide, by decide⟩

theorem module_paths_lead_back_sample :
    moduleClassName? "../model/formatter.js" (some "App.controller.Main") =
      some "App.model.formatter" ∧
    moduleClassName? "App/model/formatter" none = some "App.model.formatter" ∧
    moduleClassName? "../../../x" (some "App.controller.Main") = none := by
  obtain ⟨hleads, hbeyond⟩ := module_paths_lead_back sampleController sampleFormatter
  exact ⟨(hleads ".js" (.inr rfl)).1 1 (by decide) (by decide) (by decide),
    (hleads "" (.inl rfl)).2 none, hbeyond ["..", "..", ".."] "x" (by decide) (by decide)⟩

end UiWorkspace.Script
