import UiWorkspace.Proofs.Workspace.Congruence

/-! The search for a control. It takes no more rounds than there are documents it can come to,
so that the number of rounds it is given does not show. -/
namespace UiWorkspace

open UiWorkspace.Markup

namespace Source

theorem holds_iff (s : Source) (path : FilePath) : s.holds path = true ↔ ∃ text, s.read path = .ok text := by
  cases s with
  | memory files =>
    simp only [holds, read, Table.has]
    cases files.lookup path <;> simp
  | tree base files =>
    simp only [holds, read]
    cases files.read? base path <;> simp

theorem mem_texts {s : Source} {path : FilePath} {text : String} (h : s.read path = .ok text) :
    text ∈ s.texts := by
  cases s with
  | memory files =>
    simp only [read] at h
    split at h
    next hlookup =>
      cases h
      exact Table.mem_of_lookup hlookup
    next => cases h
  | tree base files =>
    simp only [read] at h
    split at h
    next hread =>
      cases h
      obtain ⟨place, _, hat⟩ := Option.bind_eq_some_iff.1 hread
      exact Table.mem_of_lookup hat
    next => cases h

end Source

namespace Markup

theorem length_assignedIn_le (key : List Char) (skip : Nat) (cs : List Char) :
    (assignedIn key skip cs).length ≤ cs.length := by
  fun_induction assignedIn key skip cs with
  | case1 => exact Nat.le_refl _
  | case2 skip c cs ih => exact Nat.le_succ_of_le ih
  | case3 c cs value size h ih => exact Nat.succ_le_succ ih
  | case4 c cs h ih => exact Nat.le_succ_of_le ih

theorem length_assigned_le (key content : String) :
    (assigned key content).length ≤ content.toList.length := by
  unfold assigned
  rw [List.length_map]
  exact length_assignedIn_le _ _ _

theorem length_flatMap_assigned_le (key : String) (texts : List String) :
    (texts.flatMap (assigned key)).length ≤ (texts.flatMap String.toList).length := by
  induction texts with
  | nil => exact Nat.le_refl _
  | cons text texts ih =>
    rw [List.flatMap_cons, List.flatMap_cons, List.length_append, List.length_append]
    exact Nat.add_le_add (length_assigned_le key text) ih

theorem fragments_subset (path : FilePath) (kind : DocumentKind) (content : String) :
    (Document.new path kind content).fragments ⊆ assigned "fragmentName" content := by
  have hfold : ∀ (names found : List String) (all : List String), found ⊆ all → names ⊆ all →
      names.foldl (fun names name => if names.contains name then names else names ++ [name]) found
        ⊆ all := by
    intro names
    induction names with
    | nil => exact fun found all hfound _ => hfound
    | cons name names ih =>
      intro found all hfound hnames
      obtain ⟨hname, hnames⟩ := List.cons_subset.1 hnames
      rw [List.foldl_cons]
      apply ih _ all _ hnames
      split
      · exact hfound
      · exact List.append_subset.2 ⟨hfound, List.cons_subset.2 ⟨hname, List.nil_subset _⟩⟩
  exact hfold _ [] _ (List.nil_subset _) (List.Subset.refl _)

end Markup

namespace Workspace

/-- The document that a path leads to: the kept one, or the one the source has. -/
def offered? (w : Workspace) (path : FilePath) : Option Document :=
  (w.cachedDocument? path).or (w.stored? path)

def fetch (w : Workspace) (path : FilePath) : Workspace :=
  match w.cachedDocument? path with
  | some _ => w
  | none => w.keeping (w.stored? path)

theorem fetch_of_cached {w : Workspace} {path : FilePath} {d : Document}
    (h : w.cachedDocument? path = some d) : w.fetch path = w := by
  unfold fetch
  rw [h]

theorem fetch_of_none {w : Workspace} {path : FilePath} (h : w.cachedDocument? path = none) :
    w.fetch path = w.keeping (w.stored? path) := by
  unfold fetch
  rw [h]

theorem document?_eq (path : FilePath) (w : Workspace) :
    document? path w = (w.offered? path, w.fetch path) := by
  rw [document?_run]
  unfold offered? fetch
  cases w.cachedDocument? path <;> rfl

theorem stored?_of_not_holds {w : Workspace} {path : FilePath} (h : w.source.holds path = false) :
    w.stored? path = none := by
  unfold stored?
  split
  next text htext =>
    have := (w.source.holds_iff path).2 ⟨text, htext⟩
    rw [h] at this
    cases this
  next => rfl

def probing (w : Workspace) (probes : List FilePath) : Workspace := { w with probes := probes }

theorem fragmentNamed?_run (name : String) (w : Workspace) :
    ∃ probes, fragmentNamed? name w =
      match (w.probing probes).candidate? name ".fragment.xml" with
      | none => (none, w.probing probes)
      | some path => ((w.probing probes).offered? path, (w.probing probes).fetch path) := by
  unfold fragmentNamed?
  rw [bind_run, get_run]
  obtain ⟨probes, hpath⟩ := sourcePath?_run name .fragment w
  cases hcandidate : w.candidate? name ".fragment.xml" with
  | none =>
    refine ⟨probes, ?_⟩
    have hheld : w.heldPath? name .fragment = none := by
      simp [heldPath?, SourceKind.endings, hcandidate]
    have hcandidate : (w.probing probes).candidate? name ".fragment.xml" = none := hcandidate
    rw [hcandidate]
    simp only [Option.bind_none, bind_run, hpath, hheld]
    rfl
  | some path =>
    cases hcached : w.cachedDocument? path with
    | some d =>
      refine ⟨w.probes, ?_⟩
      have hoffered : w.offered? path = some d := by rw [offered?, hcached, Option.some_or]
      change _ = match w.candidate? name ".fragment.xml" with
        | none => (none, w)
        | some path => (w.offered? path, w.fetch path)
      rw [Option.bind_some, hcached, hcandidate]
      exact Prod.ext hoffered.symm (fetch_of_cached hcached).symm
    | none =>
      refine ⟨probes, ?_⟩
      have hcandidate' : (w.probing probes).candidate? name ".fragment.xml" = some path := hcandidate
      rw [Option.bind_some, hcached, hcandidate']
      simp only [bind_run, hpath]
      cases hholds : w.source.holds path with
      | true =>
        have hheld : w.heldPath? name .fragment = some path := by
          simp [heldPath?, SourceKind.endings, hcandidate, hholds]
        rw [hheld]
        exact document?_eq path _
      | false =>
        have hheld : w.heldPath? name .fragment = none := by
          simp [heldPath?, SourceKind.endings, hcandidate, hholds]
        have hcached : (w.probing probes).cachedDocument? path = none := hcached
        have hstored : (w.probing probes).stored? path = none := stored?_of_not_holds hholds
        rw [hheld, offered?, fetch_of_none hcached, hcached, hstored]
        rfl

def unseen (places seen : List FilePath) : List FilePath :=
  places.filter fun p => !seen.any (· == p)

theorem length_unseen_cons_lt {places seen : List FilePath} {path : FilePath}
    (hplace : ∃ p ∈ places, (p == path) = true) (hunseen : seen.any (· == path) = false) :
    (unseen places (path :: seen)).length < (unseen places seen).length := by
  obtain ⟨p, hp, hpath⟩ := hplace
  have hfilter : unseen places (path :: seen) =
      (unseen places seen).filter fun q => !(path == q) := by
    unfold unseen
    rw [List.filter_filter]
    simp only [List.any_cons, Bool.not_or]
  rw [hfilter, List.length_filter_lt_length_iff_exists]
  refine ⟨p, List.mem_filter.2 ⟨hp, ?_⟩, ?_⟩
  · have hsame : (fun q : FilePath => q == p) = fun q => q == path := by
      funext q
      rw [FilePath.beq_comm, FilePath.beq_congr_left hpath, FilePath.beq_comm]
    rw [hsame, hunseen]
    rfl
  · rw [FilePath.beq_comm, hpath]
    exact Bool.noConfusion

def Within (places : List FilePath) (names : List String) (d : Document) : Prop :=
  (∃ p ∈ places, (p == d.path) = true) ∧ d.fragments ⊆ names

/-- All documents that a search can come to are within the places and names. -/
structure Confined (places : List FilePath) (names : List String) (w : Workspace) : Prop where
  kept {d : Document} : d ∈ w.documents → Within places names d
  stored {path : FilePath} {d : Document} : w.stored? path = some d → d.fragments ⊆ names
  targets {name : String} {path : FilePath} : name ∈ names →
    w.candidate? name ".fragment.xml" = some path → ∃ p ∈ places, (p == path) = true

namespace Confined

variable {places : List FilePath} {names : List String} {w : Workspace}

theorem examine (h : Confined places names w) (d : Document) :
    Confined places names (Workspace.examine d w).2 := by
  obtain ⟨_, hrun⟩ := examine_run d w
  rw [hrun]
  exact ⟨h.kept, h.stored, h.targets⟩

theorem fragmentNamed? (h : Confined places names w) {name : String} (hname : name ∈ names) :
    (∀ d, (Workspace.fragmentNamed? name w).1 = some d → Within places names d) ∧
      Confined places names (Workspace.fragmentNamed? name w).2 := by
  obtain ⟨probes, hrun⟩ := fragmentNamed?_run name w
  have hu : Confined places names (w.probing probes) := ⟨h.kept, h.stored, h.targets⟩
  generalize w.probing probes = u at hrun hu
  rw [hrun]
  cases hcandidate : u.candidate? name ".fragment.xml" with
  | none => exact ⟨nofun, hu⟩
  | some path =>
    have hplace := hu.targets hname hcandidate
    dsimp only
    cases hcached : u.cachedDocument? path with
    | some d =>
      rw [fetch_of_cached hcached, offered?, hcached]
      refine ⟨fun d' hd => ?_, hu⟩
      cases hd
      exact hu.kept (List.mem_of_find?_eq_some hcached)
    | none =>
      rw [fetch_of_none hcached, offered?, hcached, Option.none_or]
      cases hstored : u.stored? path with
      | none => exact ⟨nofun, hu⟩
      | some d =>
        have hwithin : Within places names d := ⟨stored?_path hstored ▸ hplace, hu.stored hstored⟩
        refine ⟨fun d' hd => ?_, fun hmem => ?_, hu.stored, hu.targets⟩
        · cases hd
          exact hwithin
        · rcases mem_insertDocument hmem with rfl | hmem
          · exact hwithin
          · exact hu.kept hmem

theorem fragmentsNamed (h : Confined places names w) {asked : List String} (hasked : asked ⊆ names) :
    (∀ d ∈ (Workspace.fragmentsNamed asked w).1, Within places names d) ∧
      Confined places names (Workspace.fragmentsNamed asked w).2 := by
  induction asked generalizing w with
  | nil => exact ⟨nofun, h⟩
  | cons name asked ih =>
    obtain ⟨hname, hasked⟩ := List.cons_subset.1 hasked
    obtain ⟨hfirst, hstate⟩ := h.fragmentNamed? hname
    obtain ⟨hrest, hstate⟩ := ih hstate hasked
    refine ⟨fun d hd => ?_, hstate⟩
    rcases List.mem_append.1 hd with hd | hd
    · exact hfirst d (Option.mem_toList.1 hd)
    · exact hrest d hd

end Confined

/-- The document of the next round, where the seen ones at the front of the queue are passed over. -/
theorem unseen_of_dropWhile {seen : List FilePath} {queue rest : List Document} {d : Document}
    (h : (queue.dropWhile fun d => seen.any (· == d.path)) = d :: rest) :
    seen.any (· == d.path) = false ∧ ∀ e ∈ d :: rest, e ∈ queue := by
  constructor
  · have hhead := List.head?_dropWhile_not (fun d : Document => seen.any (· == d.path)) queue
    rw [h] at hhead
    exact hhead
  · intro e he
    rw [← h] at he
    exact (List.dropWhile_sublist _).subset he

theorem searchControl?_rounds (id : String) {places : List FilePath} {names : List String}
    (rounds rounds' : Nat) {seen : List FilePath} {queue : List Document} {w : Workspace}
    (hw : Confined places names w) (hqueue : ∀ d ∈ queue, Within places names d)
    (h : (unseen places seen).length < rounds) (h' : (unseen places seen).length < rounds') :
    searchControl? id rounds seen queue w = searchControl? id rounds' seen queue w := by
  induction rounds generalizing rounds' seen queue w with
  | zero => omega
  | succ rounds ih =>
    obtain ⟨rounds', rfl⟩ : ∃ n, rounds' = n + 1 := ⟨rounds' - 1, by omega⟩
    unfold searchControl?
    cases hdrop : queue.dropWhile fun d => seen.any (· == d.path) with
    | nil => rfl
    | cons d rest =>
      obtain ⟨hunseen, hmem⟩ := unseen_of_dropWhile hdrop
      have hd := hqueue d (hmem d List.mem_cons_self)
      simp only [bind_run]
      cases d.classForId? id with
      | some control => rfl
      | none =>
        have hstate := hw.examine d
        simp only [bind_run]
        obtain ⟨hincluded, hstate⟩ := hstate.fragmentsNamed hd.2
        -- The round sees a place that was not seen, so the unseen ones run out before the rounds.
        have hless := length_unseen_cons_lt hd.1 hunseen
        apply ih _ hstate _ (by omega) (by omega)
        intro e he
        rcases List.mem_append.1 he with he | he
        · exact hqueue e (hmem e (List.mem_cons_of_mem d he))
        · exact hincluded e he

def searchNames (w : Workspace) : List String :=
  w.documents.flatMap Document.fragments ++ w.source.texts.flatMap (assigned "fragmentName")

def searchPlaces (w : Workspace) : List FilePath :=
  w.documents.map Document.path ++
    w.searchNames.filterMap fun name => w.candidate? name ".fragment.xml"

theorem confined (w : Workspace) : Confined w.searchPlaces w.searchNames w where
  kept {d} hd := by
    refine ⟨⟨d.path, ?_, FilePath.beq_self d.path⟩, ?_⟩
    · exact List.mem_append_left _ (List.mem_map_of_mem hd)
    · intro name hname
      exact List.mem_append_left _ (List.mem_flatMap.2 ⟨d, hd, hname⟩)
  stored {path d} hd := by
    unfold stored? at hd
    split at hd
    next text htext =>
      obtain ⟨kind, _, rfl⟩ := Option.map_eq_some_iff.1 hd
      intro name hname
      exact List.mem_append_right _ (List.mem_flatMap.2
        ⟨text, Source.mem_texts htext, fragments_subset path kind text hname⟩)
    next => cases hd
  targets {name path} hname hpath :=
    ⟨path, List.mem_append_right _ (List.mem_filterMap.2 ⟨name, hname, hpath⟩), FilePath.beq_self path⟩

theorem length_searchPlaces_lt (w : Workspace) : w.searchPlaces.length < w.searchRounds := by
  have hnamed := length_flatMap_assigned_le "fragmentName" w.source.texts
  have hplaces := List.length_filterMap_le (fun name => w.candidate? name ".fragment.xml") w.searchNames
  have hnames : w.searchNames.length = (w.documents.flatMap Document.fragments).length +
      (w.source.texts.flatMap (assigned "fragmentName")).length := List.length_append
  unfold searchPlaces searchRounds
  rw [List.length_append, List.length_map]
  omega

/-- A search from kept documents has enough rounds, so that more make no difference. -/
theorem searchControl?_enough (id : String) {w : Workspace} {queue : List Document}
    (hqueue : queue ⊆ w.documents) {rounds : Nat} (h : w.searchRounds ≤ rounds) :
    searchControl? id w.searchRounds [] queue w = searchControl? id rounds [] queue w := by
  have hless := w.length_searchPlaces_lt
  have hunseen : (unseen w.searchPlaces []).length ≤ w.searchPlaces.length := List.length_filter_le _ _
  exact searchControl?_rounds id _ _ w.confined (fun d hd => w.confined.kept (hqueue hd))
    (by omega) (by omega)

end Workspace

end UiWorkspace
