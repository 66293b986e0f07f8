import UiWorkspace.Proofs.Workspace.Documents
import UiWorkspace.Workspace.Classes

/-! What looking a class up does. The answer is the known class or the one that the files and
the catalog make, and a look-up changes nothing but what is known; `Learned` says so for any
amount of reading. -/
namespace UiWorkspace.Workspace

theorem firstHeld?_run (paths : List FilePath) (w : Workspace) :
    ∃ probes, firstHeld? paths w = (paths.find? w.source.holds, { w with probes := probes }) := by
  induction paths generalizing w with
  | nil => exact ⟨w.probes, rfl⟩
  | cons path paths ih =>
    obtain ⟨probes, h⟩ := ih { w with probes := path :: w.probes }
    cases hheld : w.source.holds path with
    | true =>
      refine ⟨path :: w.probes, ?_⟩
      simp [firstHeld?, bind_run, modify_run, get_run, pure_run, hheld]
    | false =>
      refine ⟨probes, ?_⟩
      simp [firstHeld?, bind_run, modify_run, get_run, hheld, h]

theorem candidate?_congr {w v : Workspace} (h : w.manifests = v.manifests) :
    w.candidate? = v.candidate? := by
  funext name ending
  unfold candidate? manifestForClass?
  rw [h]

theorem className?_congr {w v : Workspace} (h : w.manifests = v.manifests) :
    w.className? = v.className? := by
  funext path
  unfold className? manifestForPath?
  rw [h]

theorem exists_text_of_candidate? {w : Workspace} {name ending : String} {path : FilePath}
    (h : w.candidate? name ending = some path) : ∃ front, path.text = front ++ ending := by
  obtain ⟨manifest, -, h⟩ := Option.bind_eq_some_iff.1 h
  obtain ⟨relative, -, h⟩ := Option.bind_eq_some_iff.1 h
  dsimp only [pathBelow?] at h
  split at h
  · cases h
  next stem _ =>
    split at h
    · cases h
    · rw [Option.some.injEq] at h
      obtain ⟨front, hfront⟩ := FilePath.exists_text_push
        ((Text.split '.' relative).dropLast.foldl FilePath.push manifest.root) (stem ++ ending)
      rw [h, ← String.append_assoc] at hfront
      exact ⟨front ++ stem, hfront⟩

def heldPath? (w : Workspace) (className : String) (kind : SourceKind) : Option FilePath :=
  (kind.endings.filterMap (w.candidate? className)).find? w.source.holds

theorem sourcePath?_run (className : String) (kind : SourceKind) (w : Workspace) :
    ∃ probes, sourcePath? className kind w =
      (w.heldPath? className kind, { w with probes := probes }) :=
  firstHeld?_run _ w

/-- The class that the files and the catalog make of a name. -/
def makes? (w : Workspace) (name : String) : Option ClassDefinition :=
  match w.heldPath? name .script with
  | some path =>
    match w.source.read path with
    | .ok text => some (ClassDefinition.ofScript name path text)
    | .error _ => none
  | none => w.catalog.definition? name

theorem make?_run (name : String) (w : Workspace) :
    ∃ probes builds, make? name w = (w.makes? name, { w with probes := probes, builds := builds }) := by
  obtain ⟨probes, h⟩ := sourcePath?_run name .script w
  unfold make? makes?
  simp only [bind_run, h]
  cases w.heldPath? name .script with
  | none => exact ⟨probes, w.builds, rfl⟩
  | some path =>
    simp only [bind_run, get_run]
    cases w.source.read path with
    | error fault => exact ⟨probes, w.builds, rfl⟩
    | ok text => exact ⟨probes, w.builds + 1, rfl⟩

/-- The class with a name: the known one, or the one that is made of it. -/
def classNamed? (w : Workspace) (name : String) : Option ClassDefinition :=
  (w.classes.lookup name).or (w.makes? name)

def classesWith (w : Workspace) (name : String) : List (String × ClassDefinition) :=
  match w.classes.lookup name, w.makes? name with
  | none, some c => Table.put c.name c w.classes
  | _, _ => w.classes

theorem class?_run (name : String) (w : Workspace) :
    ∃ probes builds, class? name w =
      (w.classNamed? name,
        { w with probes := probes, builds := builds, classes := w.classesWith name }) := by
  unfold class? classNamed? classesWith
  simp only [bind_run, get_run]
  cases hknown : w.classes.lookup name with
  | some c => exact ⟨w.probes, w.builds, rfl⟩
  | none =>
    obtain ⟨probes, builds, h⟩ := make?_run name w
    simp only [bind_run, h]
    cases hmade : w.makes? name with
    | none => exact ⟨probes, builds, rfl⟩
    | some c => exact ⟨probes, builds, rfl⟩

theorem class?_fst (name : String) (w : Workspace) : (class? name w).1 = w.classNamed? name := by
  obtain ⟨probes, builds, h⟩ := class?_run name w
  rw [h]

theorem definition?_name {catalog : Catalog} {name : String} {c : ClassDefinition}
    (h : catalog.definition? name = some c) : c.name = name := by
  unfold Catalog.definition? at h
  obtain ⟨k, -, rfl⟩ := Option.map_eq_some_iff.1 h
  rfl

theorem makes?_name {w : Workspace} {name : String} {c : ClassDefinition}
    (h : w.makes? name = some c) : c.name = name := by
  unfold makes? at h
  split at h
  · split at h
    · cases h
      rfl
    · cases h
  · exact definition?_name h

def MadeOfScript (c : ClassDefinition) : Prop :=
  ∀ source, c.source? = some source → c = ClassDefinition.ofScript c.name source.path source.text

theorem madeOfScript_ofScript (name : String) (path : FilePath) (text : String) :
    MadeOfScript (ClassDefinition.ofScript name path text) := by
  rintro _ ⟨⟩
  rfl

theorem madeOfScript_of_makes {w : Workspace} {name : String} {c : ClassDefinition}
    (h : w.makes? name = some c) : MadeOfScript c := by
  unfold makes? at h
  split at h
  · split at h
    · cases h
      exact madeOfScript_ofScript _ _ _
    · cases h
  · obtain ⟨k, -, rfl⟩ := Option.map_eq_some_iff.1 h
    rintro _ ⟨⟩

theorem lookup_putClass {w : Workspace} {c found : ClassDefinition} {name : String}
    (h : (w.putClass c).classes.lookup name = some found) :
    name = c.name ∧ found = c ∨ w.classes.lookup name = some found := by
  change (Table.put c.name c w.classes).lookup name = some found at h
  rw [Table.lookup_put] at h
  split at h
  next hname => exact .inl ⟨beq_iff_eq.1 hname, (Option.some.inj h).symm⟩
  next => exact .inr h

theorem lookup_removeClass {w : Workspace} {removed name : String} {found : ClassDefinition}
    (h : (w.removeClass removed).classes.lookup name = some found) :
    w.classes.lookup name = some found := by
  change (Table.erase removed w.classes).lookup name = some found at h
  rw [Table.lookup_erase] at h
  split at h
  · cases h
  · exact h

def FiledByName (w : Workspace) : Prop := ∀ name c, w.classes.lookup name = some c → c.name = name

theorem FiledByName.classNamed?_name {w : Workspace} (hw : w.FiledByName) {name : String}
    {c : ClassDefinition} (h : w.classNamed? name = some c) : c.name = name := by
  unfold classNamed? at h
  cases hknown : w.classes.lookup name with
  | some known =>
    rw [hknown, Option.some_or] at h
    cases h
    exact hw name c hknown
  | none =>
    rw [hknown, Option.none_or] at h
    exact makes?_name h

theorem lookup_classesWith (w : Workspace) (name asked : String) :
    (w.classesWith name).lookup asked =
      if asked = name then w.classNamed? name else w.classes.lookup asked := by
  unfold classesWith classNamed?
  cases hknown : w.classes.lookup name with
  | some c =>
    dsimp only
    split
    next h => rw [h, hknown, Option.some_or]
    next => rfl
  | none =>
    cases hmade : w.makes? name with
    | none =>
      dsimp only
      split
      next h => rw [h, hknown, Option.none_or]
      next => rfl
    | some c =>
      dsimp only
      rw [Table.lookup_put, makes?_name hmade, Option.none_or]
      simp only [beq_iff_eq]

/-- The names of the known classes of the project, as they became known. -/
def projectNames (w : Workspace) : List String := (w.classes.filter fun e => e.2.isProject).map Prod.fst

theorem pairwise_projectClassNames (w : Workspace) : w.projectClassNames.Pairwise (· ≤ ·) := by
  have hsorted : w.projectClassNames.Pairwise fun a b => decide (a ≤ b) = true := by
    apply List.pairwise_mergeSort
    · intro a b c hab hbc
      exact decide_eq_true (String.le_trans (of_decide_eq_true hab) (of_decide_eq_true hbc))
    · intro a b
      simpa only [Bool.or_eq_true, decide_eq_true_eq] using String.le_total a b
  exact hsorted.imp of_decide_eq_true

theorem projectClassNames_eq_iff {w v : Workspace} :
    w.projectClassNames = v.projectClassNames ↔ w.projectNames.Perm v.projectNames := by
  have hperm : ∀ u : Workspace, u.projectClassNames.Perm u.projectNames := fun u =>
    List.mergeSort_perm u.projectNames _
  constructor
  · intro h
    exact (hperm w).symm.trans (h ▸ hperm v)
  · intro h
    refine List.Perm.eq_of_pairwise (fun a b _ _ hab hba => String.le_antisymm hab hba)
      (pairwise_projectClassNames w) (pairwise_projectClassNames v) ?_
    exact (hperm w).trans (h.trans (hperm v).symm)

theorem lookup_of_mem_projectNames {w : Workspace} {name : String} (h : name ∈ w.projectNames) :
    ∃ c, w.classes.lookup name = some c := by
  obtain ⟨entry, hentry, rfl⟩ := List.mem_map.1 h
  have hmem := (List.mem_filter.1 hentry).1
  cases hlookup : w.classes.lookup entry.1 with
  | some c => exact ⟨c, rfl⟩
  | none =>
    have hne := List.lookup_eq_none_iff.1 hlookup entry hmem
    rw [bne_self_eq_false] at hne
    cases hne

theorem mem_projectNames_of_lookup {w : Workspace} {name : String} {c : ClassDefinition}
    (h : w.classes.lookup name = some c) (hproject : c.isProject = true) : name ∈ w.projectNames :=
  List.mem_map.2 ⟨(name, c), List.mem_filter.2 ⟨Table.entry_of_lookup h, hproject⟩, rfl⟩

/-- `v` is `w` after some reading: the same files, manifests and settings, and possibly more
known classes and kept documents, all of them made of what the files hold. -/
structure Learned (w v : Workspace) : Prop where
  settings : v.settings = w.settings
  source : v.source = w.source
  manifests : v.manifests = w.manifests
  catalog : v.catalog = w.catalog
  classes : ∀ name, v.classes.lookup name = w.classes.lookup name ∨
    w.classes.lookup name = none ∧ v.classes.lookup name = w.makes? name
  documents : v.documents = w.documents ∨ w.documents.length < v.documents.length
  kept {path : FilePath} {d : Markup.Document} : w.cachedDocument? path = some d →
    v.cachedDocument? path = some d
  loaded {path : FilePath} {d : Markup.Document} : v.cachedDocument? path = some d →
    w.cachedDocument? path = some d ∨ w.cachedDocument? path = none ∧
      (d.path == path) = true ∧ w.stored? d.path = some d

theorem makes?_congr {w v : Workspace} (hsource : v.source = w.source)
    (hmanifests : v.manifests = w.manifests) (hcatalog : v.catalog = w.catalog) (name : String) :
    v.makes? name = w.makes? name := by
  unfold makes? heldPath?
  rw [hsource, hcatalog, candidate?_congr hmanifests]

theorem classNamed?_congr {w v : Workspace} (hsource : w.source = v.source)
    (hmanifests : w.manifests = v.manifests) (hcatalog : w.catalog = v.catalog) {name : String}
    (hlookup : w.classes.lookup name = v.classes.lookup name) :
    w.classNamed? name = v.classNamed? name := by
  unfold classNamed?
  rw [hlookup, makes?_congr hsource hmanifests hcatalog]

namespace Learned

variable {w v u : Workspace}

theorem refl (w : Workspace) : Learned w w :=
  ⟨rfl, rfl, rfl, rfl, fun _ => .inl rfl, .inl rfl, id, .inl⟩

theorem stored? (h : Learned w v) (path : FilePath) : v.stored? path = w.stored? path :=
  stored?_congr h.source path

theorem makes? (h : Learned w v) (name : String) : v.makes? name = w.makes? name :=
  makes?_congr h.source h.manifests h.catalog name

theorem classNamed? (h : Learned w v) (name : String) : v.classNamed? name = w.classNamed? name := by
  unfold Workspace.classNamed?
  rw [h.makes? name]
  rcases h.classes name with hsame | ⟨hnone, hmade⟩
  · rw [hsame]
  · rw [hmade, hnone, Option.none_or, Option.or_self]

theorem trans (h : Learned w v) (h' : Learned v u) : Learned w u where
  settings := h'.settings.trans h.settings
  source := h'.source.trans h.source
  manifests := h'.manifests.trans h.manifests
  catalog := h'.catalog.trans h.catalog
  classes := by
    intro name
    rcases h'.classes name with hsame | ⟨hnone, hmade⟩
    · rw [hsame]
      exact h.classes name
    · rw [hmade, h.makes? name]
      rcases h.classes name with hsame' | ⟨hnone', _⟩
      · exact .inr ⟨hsame' ▸ hnone, rfl⟩
      · exact .inr ⟨hnone', rfl⟩
  documents := by
    rcases h.documents with hsame | hmore <;> rcases h'.documents with hsame' | hmore'
    · exact .inl (hsame'.trans hsame)
    · exact .inr (hsame ▸ hmore')
    · exact .inr (hsame' ▸ hmore)
    · exact .inr (Nat.lt_trans hmore hmore')
  kept hd := h'.kept (h.kept hd)
  loaded {path d} hd := by
    rcases h'.loaded hd with hd | ⟨hnone, hpath, hstored⟩
    · exact h.loaded hd
    · refine .inr ⟨?_, hpath, h.stored? d.path ▸ hstored⟩
      cases hw : w.cachedDocument? path with
      | none => rfl
      | some d' => rw [h.kept hw] at hnone; cases hnone

theorem documents_eq (h : Learned w v) (h' : Learned v u) (hend : u.documents = w.documents) :
    v.documents = w.documents := by
  rcases h.documents with hsame | hmore
  · exact hsame
  · rcases h'.documents with hsame' | hmore'
    · exact hsame'.symm.trans hend
    · rw [hend] at hmore'
      omega

theorem class? (name : String) (w : Workspace) : Learned w (Workspace.class? name w).2 := by
  obtain ⟨probes, builds, h⟩ := class?_run name w
  rw [h]
  refine ⟨rfl, rfl, rfl, rfl, fun asked => ?_, .inl rfl, id, .inl⟩
  change (w.classesWith name).lookup asked = _ ∨ _ ∧ (w.classesWith name).lookup asked = _
  rw [lookup_classesWith]
  split
  next hasked =>
    subst hasked
    unfold Workspace.classNamed?
    cases hknown : w.classes.lookup asked with
    | some c => exact .inl rfl
    | none => exact .inr ⟨rfl, Option.none_or⟩
  next => exact .inl rfl

theorem putDocument (h : Learned w v) {d : Markup.Document}
    (hnone : v.cachedDocument? d.path = none) (hstored : v.stored? d.path = some d) :
    Learned w (v.putDocument d) where
  settings := h.settings
  source := h.source
  manifests := h.manifests
  catalog := h.catalog
  classes := h.classes
  documents := by
    have hlength : (v.putDocument d).documents.length = v.documents.length + 1 :=
      length_insertDocument hnone
    rcases h.documents with hsame | hmore
    · rw [← hsame]
      exact .inr (by omega)
    · exact .inr (by omega)
  kept {path d'} hd := by
    rw [cachedDocument?_putDocument]
    split
    next hpath =>
      have hd := h.kept hd
      rw [← cachedDocument?_congr hpath, hnone] at hd
      cases hd
    next => exact h.kept hd
  loaded {path d'} hd := by
    rw [cachedDocument?_putDocument] at hd
    split at hd
    next hpath =>
      cases hd
      refine .inr ⟨?_, hpath, h.stored? d.path ▸ hstored⟩
      cases hw : w.cachedDocument? path with
      | none => rfl
      | some d' =>
        have hd := h.kept hw
        rw [← cachedDocument?_congr hpath, hnone] at hd
        cases hd
    next => exact h.loaded hd

end Learned

end UiWorkspace.Workspace
