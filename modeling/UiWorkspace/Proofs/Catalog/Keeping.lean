import UiWorkspace.Proofs.Format.Json
import UiWorkspace.Proofs.Text.Pieces
import UiWorkspace.Workspace.State

/-! Kept catalogs. A catalog is read back from its file as it was, a file counts only for the version in
it, and a workspace therefore opens with the same framework classes whether its catalog was kept or not. -/
namespace UiWorkspace

open Std
open UiWorkspace.Format
open UiWorkspace.Text

namespace Table

section InsertSorted

variable {κ ν : Type} {cmp : κ → κ → Ordering} [TransCmp cmp] {k : κ} {v : ν} {t : List (κ × ν)}

def SortedByKey (cmp : κ → κ → Ordering) (t : List (κ × ν)) : Prop :=
  t.Pairwise fun e f => cmp e.1 f.1 = .lt

theorem mem_insertSorted {e : κ × ν} (h : e ∈ insertSorted cmp k v t) : cmp k e.1 = .eq ∨ e ∈ t := by
  induction t with
  | nil => exact .inl (List.mem_singleton.1 h ▸ ReflCmp.compare_self)
  | cons first rest ih =>
    unfold Table.insertSorted at h
    split at h
    · rcases List.mem_cons.1 h with rfl | h
      · exact .inl ReflCmp.compare_self
      · exact .inr h
    next heq =>
      rcases List.mem_cons.1 h with rfl | h
      · exact .inl heq
      · exact .inr (List.mem_cons_of_mem first h)
    · rcases List.mem_cons.1 h with rfl | h
      · exact .inr List.mem_cons_self
      · exact (ih h).imp_right (List.mem_cons_of_mem first)

theorem SortedByKey.insertSorted (h : SortedByKey cmp t) (k : κ) (v : ν) :
    SortedByKey cmp (insertSorted cmp k v t) := by
  induction t with
  | nil => exact List.pairwise_singleton _ (k, v)
  | cons first rest ih =>
    obtain ⟨hfirst, hrest⟩ := List.pairwise_cons.1 h
    unfold Table.insertSorted
    split
    next hlt =>
      refine List.pairwise_cons.2 ⟨fun e he => ?_, h⟩
      rcases List.mem_cons.1 he with rfl | he
      · exact hlt
      · exact TransCmp.lt_trans hlt (hfirst e he)
    next => exact List.pairwise_cons.2 ⟨hfirst, hrest⟩
    next hgt =>
      refine List.pairwise_cons.2 ⟨fun e he => ?_, ih hrest⟩
      rcases mem_insertSorted he with heq | he
      · exact TransCmp.lt_of_lt_of_eq (OrientedCmp.lt_of_gt hgt) heq
      · exact hfirst e he

theorem insertSorted_of_last (h : ∀ e ∈ t, cmp e.1 k = .lt) (v : ν) :
    insertSorted cmp k v t = t ++ [(k, v)] := by
  induction t with
  | nil => rfl
  | cons e rest ih =>
    obtain ⟨hfirst, hrest⟩ := List.forall_mem_cons.1 h
    have hgt : cmp k e.1 = .gt := OrientedCmp.gt_of_lt hfirst
    rw [Table.insertSorted, hgt]
    exact congrArg (e :: ·) (ih hrest)

theorem foldl_insertSorted {es : List (κ × ν)} (h : SortedByKey cmp (t ++ es)) :
    es.foldl (fun t e => insertSorted cmp e.1 e.2 t) t = t ++ es := by
  induction es generalizing t with
  | nil => rw [List.append_nil, List.foldl_nil]
  | cons e es ih =>
    obtain ⟨-, -, hbefore⟩ := List.pairwise_append.1 h
    rw [List.foldl_cons, insertSorted_of_last fun f hf => hbefore f hf e List.mem_cons_self]
    rw [List.append_cons] at h
    rw [ih h, List.append_assoc, List.singleton_append]

end InsertSorted

end Table

namespace Catalog

def SortedByName (c : Catalog) : Prop := Table.SortedByKey Ord.compare c.classes

theorem numberFree_memberJson (typeKey : String) (m : FrameworkMember) :
    (memberJson typeKey m).NumberFree := by
  obtain ⟨name, type?⟩ := m
  unfold memberJson
  refine .object (List.forall_mem_cons.2 ⟨.string name, ?_⟩)
  cases type? with
  | none => exact fun _ hf => absurd hf List.not_mem_nil
  | some type => exact List.forall_mem_singleton.2 (.string type)

theorem numberFree_members (typeKey : String) (members : List FrameworkMember) :
    (JsonValue.array (members.map (memberJson typeKey))).NumberFree := by
  refine .array fun v hv => ?_
  obtain ⟨m, -, rfl⟩ := List.mem_map.1 hv
  exact numberFree_memberJson typeKey m

theorem numberFree_classJson (k : FrameworkClass) : (classJson k).NumberFree := by
  obtain ⟨parent?, methods, fields⟩ := k
  unfold classJson
  refine .object (List.forall_mem_append.2 ⟨?_, ?_⟩)
  · cases parent? with
    | none => exact fun _ hf => absurd hf List.not_mem_nil
    | some parent => exact List.forall_mem_singleton.2 (.string parent)
  · exact List.forall_mem_cons.2 ⟨numberFree_members _ methods,
      List.forall_mem_singleton.2 (numberFree_members _ fields)⟩

theorem numberFree_toJson (c : Catalog) : c.toJson.NumberFree := by
  refine .object (List.forall_mem_cons.2 ⟨.string c.version, List.forall_mem_singleton.2 (.object ?_)⟩)
  intro f hf
  obtain ⟨e, -, rfl⟩ := List.mem_map.1 hf
  exact numberFree_classJson e.2

theorem readMember?_memberJson {typeKey : String} (h : typeKey ≠ "name") (m : FrameworkMember) :
    readMember? typeKey (memberJson typeKey m) = some m := by
  obtain ⟨name, type?⟩ := m
  have hkey : (typeKey == "name") = false := beq_false_of_ne h
  have hname : ("name" == typeKey) = false := beq_false_of_ne h.symm
  cases type? with
  | none => simp [readMember?, memberJson, record?, optionalText?, List.lookup_cons, hkey, hname]
  | some type => simp [readMember?, memberJson, record?, optionalText?, List.lookup_cons, hkey, hname]

theorem mapM_of_inverse {α β : Type} {write : α → β} {read? : β → Option α}
    (h : ∀ a, read? (write a) = some a) (items : List α) : (items.map write).mapM read? = some items := by
  induction items with
  | nil => rfl
  | cons a items ih => rw [List.map_cons, List.mapM_cons, h, ih]; rfl

theorem readMembers?_members {typeKey : String} (h : typeKey ≠ "name") (members : List FrameworkMember) :
    readMembers? typeKey (some (.array (members.map (memberJson typeKey)))) = some members :=
  mapM_of_inverse (readMember?_memberJson h) members

theorem readClass?_classJson (k : FrameworkClass) : readClass? (classJson k) = some k := by
  obtain ⟨parent?, methods, fields⟩ := k
  cases parent? with
  | none => simp [readClass?, classJson, record?, optionalText?, List.lookup_cons, readMembers?_members]
  | some parent =>
    simp [readClass?, classJson, record?, optionalText?, List.lookup_cons, readMembers?_members]

theorem ofJson?_toJson {c : Catalog} (h : c.SortedByName) : ofJson? c.toJson = some c := by
  obtain ⟨version, classes⟩ := c
  have hclasses :
      readClasses? (some (.object (classes.map fun e => (e.1, classJson e.2)))) = some classes := by
    have hread : (classes.map fun e => (e.1, classJson e.2)).mapM
        (fun f => (readClass? f.2).map fun k => (f.1, k)) = some classes :=
      mapM_of_inverse (fun e => by rw [readClass?_classJson, Option.map_some]) classes
    have hsorted := Table.foldl_insertSorted (t := []) h
    rw [List.nil_append] at hsorted
    simp only [readClasses?, hread]
    exact congrArg some hsorted
  simp [ofJson?, toJson, record?, List.lookup_cons, hclasses]

theorem read?_write {c : Catalog} (h : c.SortedByName) : read? c.write = some c := by
  rw [read?, write, JsonValue.read?_write (numberFree_toJson c), Option.bind_some, ofJson?_toJson h]

variable {dir : FilePath} {files : CacheFiles} {version : String} {c : Catalog}

theorem version_of_load (h : load dir files version = .ok (some c)) : c.version = version := by
  unfold load at h
  split at h
  · cases h
  next text _ =>
    unfold ofCacheText at h
    cases hread : read? text with
    | none =>
      rw [hread] at h
      cases h
    | some kept =>
      rw [hread] at h
      dsimp only at h
      split at h
      next hversion =>
        cases h
        exact hversion
      next => cases h

theorem load_save (h : c.SortedByName) (dir : FilePath) (files : CacheFiles) (version : String) :
    load dir (save files c) version =
      if cacheFileName version = cacheFileName c.version then
        if c.version = version then .ok (some c) else .error (.wrongVersion version c.version)
      else load dir files version := by
  unfold load save
  rw [Table.lookup_put]
  by_cases hname : cacheFileName version = cacheFileName c.version
  · simp only [hname, beq_self_eq_true, if_true, ofCacheText, read?_write h]
    split <;> rfl
  · simp only [beq_false_of_ne hname, if_neg hname, Bool.false_eq_true, if_false]

theorem isCacheFileName_cacheFileName (version : String) :
    isCacheFileName (cacheFileName version) = true := by
  have hlead : startsWith "builtin_" (cacheFileName version) = true := by
    rw [cacheFileName, String.append_assoc]
    exact startsWith_append "builtin_" _
  unfold isCacheFileName
  rw [hlead, Bool.true_and]
  exact endsWith_append _ ".json"

theorem load_clear (dir : FilePath) (files : CacheFiles) (version : String) :
    load dir (clear files) version = .ok none := by
  have hnone : (clear files).lookup (cacheFileName version) = none := by
    refine List.lookup_eq_none_iff.2 fun file hfile => ?_
    have hother := (List.mem_filter.1 hfile).2
    rw [bne_iff_ne]
    rintro heq
    rw [← heq, isCacheFileName_cacheFileName] at hother
    cases hother
  rw [load, hnone]

end Catalog

namespace Workspace

open Catalog

theorem sortedByName_bundled : Catalog.bundled.SortedByName := by
  unfold Catalog.SortedByName Table.SortedByKey
  decide +kernel

theorem sortedByName_merge {c : Catalog} (h : c.SortedByName) (other : Catalog) :
    (c.merge other).SortedByName := by
  have hfold : ∀ (es t : List (String × FrameworkClass)), Table.SortedByKey Ord.compare t →
      Table.SortedByKey Ord.compare (es.foldl (fun t e => Table.insertSorted Ord.compare e.1 e.2 t) t) := by
    intro es
    induction es with
    | nil => exact fun _ ht => ht
    | cons e es ih => exact fun t ht => ih _ (ht.insertSorted e.1 e.2)
  exact hfold other.classes c.classes h

theorem sortedByName_freshCatalog (settings : Settings) (metadata? : Option String) :
    (freshCatalog settings metadata?).SortedByName := by
  unfold freshCatalog
  dsimp only
  split
  · exact sortedByName_merge sortedByName_bundled _
  · exact sortedByName_bundled

theorem version_freshCatalog (settings : Settings) (metadata? : Option String) :
    (freshCatalog settings metadata?).version = settings.frameworkVersion := by
  unfold freshCatalog
  dsimp only
  split <;> rfl

theorem openCatalog_cases (settings : Settings) (metadata? : Option String) (files : CacheFiles) :
    (settings.cacheEnabled = false ∧
        openCatalog settings metadata? files = (freshCatalog settings metadata?, files)) ∨
      (∃ kept, settings.cacheEnabled = true ∧
        load ⟨""⟩ files settings.frameworkVersion = .ok (some kept) ∧
        openCatalog settings metadata? files = (kept, files)) ∨
      (settings.cacheEnabled = true ∧
        (∀ kept, load ⟨""⟩ files settings.frameworkVersion ≠ .ok (some kept)) ∧
        openCatalog settings metadata? files =
          (freshCatalog settings metadata?, save files (freshCatalog settings metadata?))) := by
  cases henabled : settings.cacheEnabled with
  | false =>
    refine .inl ⟨rfl, ?_⟩
    simp [openCatalog, henabled]
  | true =>
    refine .inr ?_
    unfold openCatalog
    rw [henabled]
    cases hload : load ⟨""⟩ files settings.frameworkVersion with
    | error e => exact .inr ⟨rfl, fun _ => nofun, rfl⟩
    | ok found =>
      cases found with
      | none => exact .inr ⟨rfl, fun _ => nofun, rfl⟩
      | some kept => exact .inl ⟨kept, rfl, rfl, rfl⟩

theorem openCatalog_of_load {settings : Settings} {files : CacheFiles} {kept : Catalog}
    (henabled : settings.cacheEnabled = true)
    (h : load ⟨""⟩ files settings.frameworkVersion = .ok (some kept)) (metadata? : Option String) :
    openCatalog settings metadata? files = (kept, files) := by
  simp [openCatalog, henabled, h]

theorem openCatalog_again (settings : Settings) (metadata? : Option String) (files : CacheFiles) :
    (openCatalog settings metadata? (openCatalog settings metadata? files).2).1 =
      (openCatalog settings metadata? files).1 := by
  rcases openCatalog_cases settings metadata? files with ⟨-, hopen⟩ | ⟨kept, -, -, hopen⟩ |
    ⟨henabled, -, hopen⟩
  · rw [hopen, hopen]
  · rw [hopen, hopen]
  · have hload : load ⟨""⟩ (save files (freshCatalog settings metadata?)) settings.frameworkVersion =
        .ok (some (freshCatalog settings metadata?)) := by
      have hsorted := sortedByName_freshCatalog settings metadata?
      rw [load_save hsorted, version_freshCatalog, if_pos rfl, if_pos rfl]
    rw [hopen, openCatalog_of_load henabled hload]

/-- What a directory holds for a workspace when there is no catalog of its version, or when it was left
by workspaces of which those of its version had its metadata. -/
inductive Served (settings : Settings) (metadata? : Option String) : CacheFiles → Prop
  | cold {files : CacheFiles} :
      (∀ kept, load ⟨""⟩ files settings.frameworkVersion ≠ .ok (some kept)) →
      Served settings metadata? files
  | opened {files : CacheFiles} (other : Settings) (source : Source) (otherMetadata? : Option String) :
      Served settings metadata? files →
      (other.frameworkVersion = settings.frameworkVersion → otherMetadata? = metadata?) →
      Served settings metadata? (new other source otherMetadata? files).cache
  | cleared {files : CacheFiles} : Served settings metadata? files →
      Served settings metadata? (clear files)

theorem freshCatalog_congr {settings other : Settings}
    (h : other.frameworkVersion = settings.frameworkVersion) (metadata? : Option String) :
    freshCatalog other metadata? = freshCatalog settings metadata? := by
  rw [freshCatalog, freshCatalog, h]

theorem Served.load_eq {settings : Settings} {metadata? : Option String} {files : CacheFiles}
    (h : Served settings metadata? files) {kept : Catalog}
    (hload : load ⟨""⟩ files settings.frameworkVersion = .ok (some kept)) :
    kept = freshCatalog settings metadata? := by
  induction h with
  | cold hcold => exact absurd hload (hcold kept)
  | @opened files other source otherMetadata? _ hsame ih =>
    change load ⟨""⟩ (openCatalog other otherMetadata? files).2 _ = _ at hload
    rcases openCatalog_cases other otherMetadata? files with ⟨-, hopen⟩ | ⟨_, -, -, hopen⟩ |
      ⟨-, -, hopen⟩
    · rw [hopen] at hload
      exact ih hload
    · rw [hopen] at hload
      exact ih hload
    · rw [hopen, load_save (sortedByName_freshCatalog other otherMetadata?), version_freshCatalog] at hload
      split at hload
      · split at hload
        next hversion =>
          cases hload
          rw [hsame hversion, freshCatalog_congr hversion]
        next => cases hload
      · exact ih hload
  | cleared _ _ =>
    rw [load_clear] at hload
    cases hload

theorem Served.catalog_eq {settings : Settings} {metadata? : Option String} {files : CacheFiles}
    (h : Served settings metadata? files) (source : Source) :
    (new settings source metadata? files).catalog = freshCatalog settings metadata? := by
  change (openCatalog settings metadata? files).1 = _
  rcases openCatalog_cases settings metadata? files with ⟨-, hopen⟩ | ⟨kept, -, hload, hopen⟩ |
    ⟨-, -, hopen⟩
  · rw [hopen]
  · rw [hopen, h.load_eq hload]
  · rw [hopen]

/-- Keeping catalogs makes no difference. A kept catalog is read back as it was, a file counts only for the
version in it, and nothing is read once the kept catalogs were removed. Two openings in a row have one
catalog, and it is the one made afresh unless the directory was filled with other metadata. -/
theorem kept_catalogs_transparent :
    (∀ c : Catalog, c.SortedByName → ∀ dir files, load dir (save files c) c.version = .ok (some c)) ∧
      (∀ dir files version c, load dir files version = .ok (some c) → c.version = version) ∧
      (∀ dir files version, load dir (clear files) version = .ok none) ∧
      (∀ settings metadata? source again files,
        (new settings again metadata? (new settings source metadata? files).cache).catalog =
          (new settings source metadata? files).catalog) ∧
      ∀ settings metadata? source files, Served settings metadata? files →
        (new settings source metadata? files).catalog = freshCatalog settings metadata? := by
  refine ⟨fun c h dir files => ?_, fun _ _ _ _ => version_of_load, load_clear,
    fun settings metadata? _ _ files => openCatalog_again settings metadata? files,
    fun _ _ source _ h => h.catalog_eq source⟩
  rw [load_save h, if_pos rfl, if_pos rfl]

def sampleOlder : Catalog := ⟨"1/2", [("a\"b", ⟨some "\u0001\\", [⟨"m", none⟩], [⟨"", some "é"⟩]⟩)]⟩

def sampleNewer : Catalog := ⟨"1_2", [("A", ⟨none, [], []⟩), ("B", ⟨some "A", [], []⟩)]⟩

def sampleSettings : Settings := { Settings.builtIn with frameworkVersion := "1/2" }

theorem kept_catalogs_transparent_sample :
    load ⟨"/c"⟩ (save (save [] sampleOlder) sampleNewer) "1_2" = .ok (some sampleNewer) ∧
      load ⟨"/c"⟩ (save (save [] sampleNewer) sampleOlder) "1/2" = .ok (some sampleOlder) ∧
      (new sampleSettings (.memory []) none (save [] sampleNewer)).catalog =
        freshCatalog sampleSettings none := by
  have hnewer : sampleNewer.SortedByName := by
    unfold Catalog.SortedByName Table.SortedByKey
    decide +kernel
  have holder : sampleOlder.SortedByName := by
    unfold Catalog.SortedByName Table.SortedByKey
    decide +kernel
  obtain ⟨hsave, -, -, -, hopen⟩ := kept_catalogs_transparent
  refine ⟨hsave sampleNewer hnewer _ _, hsave sampleOlder holder _ _,
    hopen _ _ _ _ (.cold fun kept hload => ?_)⟩
  rw [load_save hnewer] at hload
  cases hload

end Workspace

end UiWorkspace
