import UiWorkspace.Proofs.FilePath
import UiWorkspace.Source

/-! Reading by another spelling of a path. Spellings of one path lead through the same directories,
but for the ones at which an empty piece or a `.` stays. These have to be there as well, and any name
behind them asks for that anyway, so a spelling that ends in a name reads what any other one reads. -/
namespace UiWorkspace

namespace FilePath

def leadsOn (piece : String) : Bool := piece != "" && piece != "."

def Component.piece? : Component → Option String
  | name n => some n
  | up => some ".."
  | _ => none

theorem piece?_component? (leading : Bool) (piece : String) :
    (component? leading piece).bind Component.piece? = if leadsOn piece then some piece else none := by
  unfold component? leadsOn
  by_cases hempty : piece = ""
  · simp [hempty]
  · by_cases hdot : piece = "."
    · subst hdot
      cases leading <;> rfl
    · by_cases hup : piece = ".." <;> simp [hempty, hdot, hup, Component.piece?]

theorem filterMap_piece? (p : FilePath) :
    p.components.filterMap Component.piece? = (Text.split '/' p.text).filter leadsOn := by
  obtain ⟨first, rest, hsplit⟩ := List.exists_cons_of_ne_nil (Text.split_ne_nil '/' p.text)
  have hroot : (if p.isAbsolute then [Component.root] else []).filterMap Component.piece? = [] := by
    cases p.isAbsolute <;> rfl
  have hfirst : ((component? (!p.isAbsolute) first).toList).filterMap Component.piece? =
      [first].filter leadsOn := by
    have hpiece := piece?_component? (!p.isAbsolute) first
    cases hcomponent : component? (!p.isAbsolute) first <;> rw [hcomponent] at hpiece <;>
      cases hleads : leadsOn first <;> simp_all
  have hrest : (rest.filterMap (component? false)).filterMap Component.piece? = rest.filter leadsOn := by
    rw [List.filterMap_filterMap, ← List.filterMap_eq_filter]
    refine List.filterMap_congr fun piece _ => ?_
    rw [piece?_component?]
    rfl
  rw [components_of_split hsplit, hsplit, List.filterMap_append, List.filterMap_append, hroot, hfirst,
    hrest, List.nil_append, ← List.filter_append, List.singleton_append]

theorem filter_leadsOn_congr {p q : FilePath} (h : (p == q) = true) :
    (Text.split '/' p.text).filter leadsOn = (Text.split '/' q.text).filter leadsOn := by
  rw [← filterMap_piece?, ← filterMap_piece?, beq_iff.1 h]

theorem component?_ne_root (leading : Bool) (piece : String) :
    component? leading piece ≠ some .root := by
  unfold component?
  repeat' split
  all_goals nofun

theorem root_mem_components (p : FilePath) : .root ∈ p.components ↔ p.isAbsolute = true := by
  obtain ⟨first, rest, hsplit⟩ := List.exists_cons_of_ne_nil (Text.split_ne_nil '/' p.text)
  have hfirst : Component.root ∉ (component? (!p.isAbsolute) first).toList := fun h =>
    component?_ne_root _ _ (Option.mem_toList.1 h)
  have hrest : Component.root ∉ rest.filterMap (component? false) := fun h => by
    obtain ⟨piece, -, hpiece⟩ := List.mem_filterMap.1 h
    exact component?_ne_root _ _ hpiece
  rw [components_of_split hsplit, List.mem_append, List.mem_append,
    or_iff_left (not_or.2 ⟨hfirst, hrest⟩)]
  cases p.isAbsolute <;> simp

theorem isAbsolute_congr {p q : FilePath} (h : (p == q) = true) : p.isAbsolute = q.isAbsolute := by
  rw [Bool.eq_iff_iff, ← root_mem_components, ← root_mem_components, beq_iff.1 h]

theorem leadsOn_of_length {piece : String} (h : 2 < piece.length) : leadsOn piece = true := by
  have hne : ∀ s : String, s.length ≤ 2 → piece ≠ s := by
    rintro s hs rfl
    omega
  simp [leadsOn, hne "" (by decide), hne "." (by decide)]

theorem exists_split_append (front : String) {tail : String} (hslash : '/' ∉ tail.toList)
    (hlength : 2 < tail.length) :
    ∃ before last, Text.split '/' (front ++ tail) = before ++ [last] ∧ leadsOn last = true := by
  obtain ⟨before, ds, -, hbefore⟩ := Text.exists_pieces_append hslash front.toList
  refine ⟨before.map String.ofList, String.ofList ds ++ tail, ?_, leadsOn_of_length ?_⟩
  · unfold Text.split
    rw [String.toList_append, hbefore]
    simp
  · rw [String.length_append]
    omega

end FilePath

namespace FileTree

open FilePath

def walk (t : FileTree) (pieces : List String) (place? : Option Place) : Option Place :=
  pieces.foldl (fun place? piece => place?.bind (t.step piece)) place?

theorem walk_none (t : FileTree) (pieces : List String) : t.walk pieces none = none := by
  induction pieces with
  | nil => rfl
  | cons piece pieces ih => exact ih

theorem step_of_stays (t : FileTree) {piece : String} (h : leadsOn piece = false) (place : Place) :
    t.step piece place = if t.isDirectory place then some place else none := by
  unfold leadsOn at h
  unfold step
  by_cases hempty : piece = ""
  · cases t.isDirectory place <;> simp [hempty]
  · have hdot : piece = "." := by simpa [hempty] using h
    cases t.isDirectory place <;> simp [hdot]

theorem walk_of_not_directory (t : FileTree) {place : Place} (h : t.isDirectory place = false)
    {pieces : List String} (hne : pieces ≠ []) : t.walk pieces (some place) = none := by
  obtain ⟨piece, rest, rfl⟩ := List.exists_cons_of_ne_nil hne
  have hstep : t.step piece place = none := by simp [step, h]
  change t.walk rest (t.step piece place) = none
  rw [hstep]
  exact t.walk_none rest

theorem walk_filter_of_some (t : FileTree) {pieces : List String} {place? : Option Place} {place : Place}
    (h : t.walk pieces place? = some place) : t.walk (pieces.filter leadsOn) place? = some place := by
  induction pieces generalizing place? with
  | nil => exact h
  | cons piece pieces ih =>
    have hrest := ih h
    rw [List.filter_cons]
    split
    · exact hrest
    next hstays =>
      cases place? with
      | none => exact hrest
      | some start =>
        change t.walk _ (t.step piece start) = some place at hrest
        rw [step_of_stays t (Bool.not_eq_true _ ▸ hstays)] at hrest
        split at hrest
        · exact hrest
        · rw [walk_none] at hrest
          cases hrest

theorem walk_filter (t : FileTree) {last : String} (hlast : leadsOn last = true) (before : List String)
    (place? : Option Place) :
    t.walk ((before ++ [last]).filter leadsOn) place? = t.walk (before ++ [last]) place? := by
  induction before generalizing place? with
  | nil => rw [List.nil_append, List.filter_cons, if_pos hlast, List.filter_nil]
  | cons piece before ih =>
    rw [List.cons_append, List.filter_cons]
    split
    · exact ih _
    next hstays =>
      cases place? with
      | none => rw [walk_none, walk_none]
      | some start =>
        rw [ih]
        change _ = t.walk (before ++ [last]) (t.step piece start)
        rw [step_of_stays t (Bool.not_eq_true _ ▸ hstays)]
        split
        · rfl
        next hdirectory =>
          rw [walk_none]
          exact t.walk_of_not_directory (Bool.not_eq_true _ ▸ hdirectory)
            (List.append_ne_nil_of_right_ne_nil _ (List.cons_ne_nil _ _))

theorem follow?_eq (t : FileTree) (base : Place) {path : FilePath} (h : path.text ≠ "") :
    t.follow? base path =
      t.walk ((Text.split '/' path.text).drop (if path.isAbsolute then 1 else 0))
        (some (if path.isAbsolute then [] else base)) :=
  if_neg h

theorem filter_drop_root (path : FilePath) :
    ((Text.split '/' path.text).drop (if path.isAbsolute then 1 else 0)).filter leadsOn =
      (Text.split '/' path.text).filter leadsOn := by
  obtain ⟨first, rest, hsplit⟩ := List.exists_cons_of_ne_nil (Text.split_ne_nil '/' path.text)
  have habsolute := isAbsolute_of_split hsplit
  rw [hsplit]
  cases h : path.isAbsolute with
  | false => rfl
  | true =>
    rw [h] at habsolute
    have hfirst : first = "" := by simp_all
    subst hfirst
    rfl

theorem text_ne_of_follow? {t : FileTree} {base place : Place} {path : FilePath}
    (h : t.follow? base path = some place) : path.text ≠ "" := by
  intro hempty
  rw [follow?, if_pos hempty] at h
  cases h

theorem walk_filter_of_follow? (t : FileTree) {base place : Place} {path : FilePath}
    (h : t.follow? base path = some place) :
    t.walk ((Text.split '/' path.text).filter leadsOn) (some (if path.isAbsolute then [] else base)) =
      some place := by
  rw [t.follow?_eq base (text_ne_of_follow? h)] at h
  rw [← filter_drop_root]
  exact t.walk_filter_of_some h

theorem exists_drop_root {path : FilePath} {before : List String} {last : String}
    (h : Text.split '/' path.text = before ++ [last]) :
    ∃ kept, (Text.split '/' path.text).drop (if path.isAbsolute then 1 else 0) = kept ++ [last] := by
  cases before with
  | nil =>
    have habsolute : path.isAbsolute = false := by simpa using isAbsolute_of_split h
    rw [h, habsolute]
    exact ⟨[], rfl⟩
  | cons piece before =>
    rw [h]
    cases path.isAbsolute with
    | false => exact ⟨piece :: before, rfl⟩
    | true => exact ⟨before, rfl⟩

/-- Two spellings that lead somewhere lead to the same place. -/
theorem follow?_unique (t : FileTree) (base : Place) {p q : FilePath} {place other : Place}
    (h : (p == q) = true) (hp : t.follow? base p = some place) (hq : t.follow? base q = some other) :
    place = other := by
  have hwalk := t.walk_filter_of_follow? hp
  rw [filter_leadsOn_congr h, isAbsolute_congr h, t.walk_filter_of_follow? hq] at hwalk
  exact (Option.some.inj hwalk).symm

theorem read?_congr (t : FileTree) (base : Place) {p q : FilePath} {front tail text : String}
    (h : (p == q) = true) (hq : q.text = front ++ tail) (hslash : '/' ∉ tail.toList)
    (hlength : 2 < tail.length) (hread : t.read? base p = some text) : t.read? base q = some text := by
  obtain ⟨place, hplace, hat⟩ := Option.bind_eq_some_iff.1 hread
  have hqne : q.text ≠ "" := by
    intro hempty
    have hlengths : (front ++ tail).length = 0 := by rw [← hq, hempty]; rfl
    rw [String.length_append] at hlengths
    omega
  obtain ⟨before, last, hsplit, hlast⟩ := exists_split_append front hslash hlength
  rw [← hq] at hsplit
  obtain ⟨kept, hkept⟩ := exists_drop_root hsplit
  have hfollow : t.follow? base q = some place := by
    have hwalk := t.walk_filter_of_follow? hplace
    rw [filter_leadsOn_congr h, isAbsolute_congr h, ← filter_drop_root, hkept, walk_filter t hlast,
      ← hkept, ← t.follow?_eq base hqne] at hwalk
    exact hwalk
  exact Option.bind_eq_some_iff.2 ⟨place, hfollow, hat⟩

end FileTree

namespace Source

theorem lookup_congr {p q : FilePath} (h : (p == q) = true) (files : List (FilePath × String)) :
    files.lookup p = files.lookup q := by
  induction files with
  | nil => rfl
  | cons file files ih => rw [List.lookup_cons, List.lookup_cons, FilePath.beq_congr_left h, ih]

theorem read_memory_eq {files : List (FilePath × String)} {path : FilePath} {text : String} :
    (memory files).read path = .ok text ↔ files.lookup path = some text := by
  simp only [read]
  cases files.lookup path <;> simp

theorem read_tree_eq {base : Place} {files : FileTree} {path : FilePath} {text : String} :
    (tree base files).read path = .ok text ↔ files.read? base path = some text := by
  simp only [read]
  cases files.read? base path <;> simp

theorem read_congr {s : Source} {p q : FilePath} {front tail text : String} (h : (p == q) = true)
    (hq : q.text = front ++ tail) (hslash : '/' ∉ tail.toList) (hlength : 2 < tail.length)
    (hread : s.read p = .ok text) : s.read q = .ok text := by
  cases s with
  | memory files =>
    rw [read_memory_eq] at hread ⊢
    exact lookup_congr h files ▸ hread
  | tree base files =>
    rw [read_tree_eq] at hread ⊢
    exact files.read?_congr base h hq hslash hlength hread

theorem read_unique {s : Source} {p q : FilePath} {text other : String} (h : (p == q) = true)
    (hp : s.read p = .ok text) (hq : s.read q = .ok other) : text = other := by
  cases s with
  | memory files =>
    rw [read_memory_eq] at hp hq
    rw [lookup_congr h, hq] at hp
    exact (Option.some.inj hp).symm
  | tree base files =>
    rw [read_tree_eq] at hp hq
    obtain ⟨place, hplace, hat⟩ := Option.bind_eq_some_iff.1 hp
    obtain ⟨place', hplace', hat'⟩ := Option.bind_eq_some_iff.1 hq
    obtain rfl := files.follow?_unique base h hplace hplace'
    rw [hat] at hat'
    exact Option.some.inj hat'

end Source

end UiWorkspace
