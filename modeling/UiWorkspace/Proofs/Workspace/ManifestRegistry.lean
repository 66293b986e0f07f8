import Mathlib.Data.List.Nodup
import UiWorkspace.Proofs.Class.MemoHistory
import UiWorkspace.Proofs.FilePath
import UiWorkspace.Proofs.Query
import UiWorkspace.Workspace.Index

/-! The registered manifests. No two have one component or one path, and what is registered for a path
is what the last call for it has left, unless its component has gone to another path since. A class
name or a path then leads to a manifest that does not hang on the order of the registrations. -/
namespace UiWorkspace

open UiWorkspace.Text

section Greatest

variable {α : Type} {measure : α → Nat} {items : List α}

def IsGreatest (measure : α → Nat) (items : List α) (a : α) : Prop :=
  a ∈ items ∧ ∀ b ∈ items, measure b ≤ measure a

theorem IsGreatest.measure_eq {a b : α} (ha : IsGreatest measure items a) (hb : IsGreatest measure items b) :
    measure a = measure b :=
  Nat.le_antisymm (hb.2 a ha.1) (ha.2 b hb.1)

theorem lastGreatest?_concat (measure : α → Nat) (items : List α) (a : α) :
    lastGreatest? measure (items ++ [a]) = match lastGreatest? measure items with
      | none => some a
      | some best => if measure best ≤ measure a then some a else some best :=
  List.foldl_concat ..

theorem lastGreatest?_isSome (measure : α → Nat) (items : List α) :
    (lastGreatest? measure items).isSome = !items.isEmpty := by
  induction items using List.reverseRecOn with
  | nil => rfl
  | append_singleton items a _ =>
    rw [lastGreatest?_concat]
    cases lastGreatest? measure items with
    | none => simp
    | some best => simp [apply_ite Option.isSome]

theorem isGreatest_of_lastGreatest? {a : α} (h : lastGreatest? measure items = some a) :
    IsGreatest measure items a := by
  induction items using List.reverseRecOn generalizing a with
  | nil => cases h
  | append_singleton items b ih =>
    rw [lastGreatest?_concat] at h
    have hempty := lastGreatest?_isSome measure items
    cases hbest : lastGreatest? measure items with
    | none =>
      rw [hbest] at h hempty
      obtain rfl : items = [] := by simpa using hempty
      cases h
      exact ⟨List.mem_cons_self, by simp⟩
    | some best =>
      rw [hbest] at h
      obtain ⟨hmem, hle⟩ := ih hbest
      dsimp only at h
      split at h
      next hb =>
        cases h
        refine ⟨List.mem_concat_self, fun c hc => ?_⟩
        rcases List.mem_append.1 hc with hc | hc
        · exact Nat.le_trans (hle c hc) hb
        · exact Nat.le_of_eq (congrArg measure (List.mem_singleton.1 hc))
      next hb =>
        cases h
        refine ⟨List.mem_append_left _ hmem, fun c hc => ?_⟩
        rcases List.mem_append.1 hc with hc | hc
        · exact hle c hc
        · rw [List.mem_singleton.1 hc]
          omega

theorem lastGreatest?_eq_some_iff
    (hunique : ∀ a b, IsGreatest measure items a → IsGreatest measure items b → a = b) {a : α} :
    lastGreatest? measure items = some a ↔ IsGreatest measure items a := by
  refine ⟨isGreatest_of_lastGreatest?, fun h => ?_⟩
  have hsome : (lastGreatest? measure items).isSome = true := by
    rw [lastGreatest?_isSome, Bool.not_eq_true', List.isEmpty_eq_false_iff_exists_mem]
    exact ⟨a, h.1⟩
  obtain ⟨b, hb⟩ := Option.isSome_iff_exists.1 hsome
  rw [hb, hunique a b h (isGreatest_of_lastGreatest? hb)]

theorem lastGreatest?_congr {others : List α} (hmem : ∀ a, a ∈ others ↔ a ∈ items)
    (hunique : ∀ a b, IsGreatest measure items a → IsGreatest measure items b → a = b) :
    lastGreatest? measure others = lastGreatest? measure items := by
  have hiff : ∀ a, IsGreatest measure others a ↔ IsGreatest measure items a := by
    intro a
    unfold IsGreatest
    simp only [hmem]
  refine Option.ext fun a => ?_
  rw [lastGreatest?_eq_some_iff hunique, lastGreatest?_eq_some_iff (by simpa only [hiff] using hunique),
    hiff]

end Greatest

theorem nodup_map_concat {α β : Type} {f : α → β} {items : List α} {a : α} (h : (items.map f).Nodup)
    (hnew : ∀ b ∈ items, f b ≠ f a) : ((items ++ [a]).map f).Nodup := by
  rw [List.map_append, List.map_singleton, List.nodup_append]
  refine ⟨h, List.pairwise_singleton _ _, fun x hx y hy => ?_⟩
  obtain ⟨b, hb, rfl⟩ := List.mem_map.1 hx
  rw [List.mem_singleton.1 hy]
  exact hnew b hb

namespace Manifest

def fileName : String := "manifest.json"

theorem path_of_parse {path : FilePath} {text : String} {m : Manifest}
    (h : parse path text = .ok m) : m.path = path := by
  unfold parse at h
  split at h
  · cases h
  · split at h <;> cases h
    rfl

theorem root_of_parse {path : FilePath} {text : String} {m : Manifest}
    (h : parse path text = .ok m) : m.root = path.parent?.getD ⟨""⟩ := by
  unfold parse at h
  split at h
  · cases h
  · split at h <;> cases h
    rfl

def AtRoot (m : Manifest) : Prop := m.path.components = m.root.components ++ [.name fileName]

theorem atRoot_of_parse {path : FilePath} {text : String} {m : Manifest} (h : parse path text = .ok m)
    (hname : path.fileName? = some fileName) : m.AtRoot := by
  obtain ⟨q, hq, hcomponents⟩ := FilePath.exists_parent hname
  rw [AtRoot, path_of_parse h, root_of_parse h, hq]
  exact hcomponents

theorem component_of_owns {m : Manifest} {className : String} (h : m.owns className = true) :
    ∃ rest, className = m.component ++ rest := by
  obtain ⟨rest, hrest⟩ := Option.isSome_iff_exists.1 h
  rw [relativeName?, stripLead?_eq_some_iff, String.append_assoc] at hrest
  exact ⟨_, hrest⟩

end Manifest

namespace Workspace

inductive ManifestCall where
  | register (path : FilePath) (text : String)
  | remove (path : FilePath)

namespace ManifestCall

def path : ManifestCall → FilePath
  | register path _ | remove path => path

def manifest? : ManifestCall → Option Manifest
  | register path text => (Manifest.parse path text).toOption
  | remove _ => none

def apply (w : Workspace) : ManifestCall → Workspace
  | register path text => (registerManifest path text w).2
  | remove path => w.removeManifest path

theorem exists_parse {call : ManifestCall} {m : Manifest} (h : call.manifest? = some m) :
    ∃ text, call = register call.path text ∧ Manifest.parse call.path text = .ok m := by
  cases call with
  | remove path => cases h
  | register path text =>
    refine ⟨text, rfl, ?_⟩
    cases hparse : Manifest.parse path text with
    | error e =>
      simp only [manifest?, hparse] at h
      cases h
    | ok found =>
      simp only [manifest?, hparse] at h
      cases h
      exact hparse

theorem path_of_manifest? {call : ManifestCall} {m : Manifest} (h : call.manifest? = some m) :
    m.path = call.path := by
  obtain ⟨_, -, hparse⟩ := exists_parse h
  exact Manifest.path_of_parse hparse

theorem apply_of_none {call : ManifestCall} (h : call.manifest? = none) (w : Workspace) :
    call.apply w = w.removeManifest call.path := by
  cases call with
  | remove path => rfl
  | register path text =>
    cases hparse : Manifest.parse path text with
    | error e =>
      rw [apply, registerManifest, hparse]
      rfl
    | ok m =>
      rw [manifest?, hparse] at h
      cases h

theorem apply_of_some {call : ManifestCall} {m : Manifest} (h : call.manifest? = some m) (w : Workspace) :
    call.apply w = w.addManifest m := by
  obtain ⟨text, hcall, hparse⟩ := exists_parse h
  rw [hcall, apply, registerManifest, hparse]
  rfl

/-- What a call leaves: the former manifests of other paths and other components, and its own. -/
theorem mem_apply (w : Workspace) (call : ManifestCall) (m : Manifest) :
    m ∈ (call.apply w).manifests ↔ call.manifest? = some m ∨
      m ∈ w.manifests ∧ (m.path == call.path) = false ∧
        ∀ registered, call.manifest? = some registered → registered.component ≠ m.component := by
  cases h : call.manifest? with
  | none =>
    rw [apply_of_none h]
    simp [removeManifest]
  | some registered =>
    rw [apply_of_some h]
    simp only [addManifest, path_of_manifest? h, List.mem_append, List.mem_filter, List.mem_singleton,
      Bool.and_eq_true, Bool.not_eq_true', bne_iff_ne, Option.some.injEq, forall_eq', ne_comm]
    rw [or_comm, eq_comm]

end ManifestCall

/-- No two manifests have one component or one path, and each stands at its root. -/
structure ManifestsApart (w : Workspace) : Prop where
  components : (w.manifests.map Manifest.component).Nodup
  paths : (w.manifests.map fun m => m.path.components).Nodup
  atRoot : ∀ m ∈ w.manifests, m.AtRoot

namespace ManifestsApart

variable {w : Workspace}

theorem filter (h : w.ManifestsApart) (keep : Manifest → Bool) :
    ManifestsApart { w with manifests := w.manifests.filter keep } where
  components := h.components.sublist (List.filter_sublist.map _)
  paths := h.paths.sublist (List.filter_sublist.map _)
  atRoot m hm := h.atRoot m (List.mem_of_mem_filter hm)

theorem addManifest (h : w.ManifestsApart) {m : Manifest} (hm : m.AtRoot) :
    (w.addManifest m).ManifestsApart := by
  have hkept := h.filter fun other => !(other.path == m.path) && other.component != m.component
  have hother : ∀ other ∈ w.manifests.filter fun other =>
      !(other.path == m.path) && other.component != m.component,
      (other.path == m.path) = false ∧ other.component ≠ m.component := by
    intro other hmem
    simpa using (List.mem_filter.1 hmem).2
  refine ⟨nodup_map_concat hkept.components fun other hmem => (hother other hmem).2,
    nodup_map_concat hkept.paths fun other hmem => ?_, fun other hother => ?_⟩
  · exact mt FilePath.beq_iff.2 (Bool.not_eq_true _ ▸ (hother other hmem).1)
  · rcases List.mem_append.1 hother with hother | hother
    · exact hkept.atRoot other hother
    · exact List.mem_singleton.1 hother ▸ hm

theorem apply (h : w.ManifestsApart) {call : ManifestCall}
    (hname : call.path.fileName? = some Manifest.fileName) : (call.apply w).ManifestsApart := by
  cases hcall : call.manifest? with
  | none =>
    rw [ManifestCall.apply_of_none hcall]
    exact h.filter _
  | some m =>
    rw [ManifestCall.apply_of_some hcall]
    obtain ⟨_, -, hparse⟩ := ManifestCall.exists_parse hcall
    exact h.addManifest (Manifest.atRoot_of_parse hparse hname)

end ManifestsApart

def applied (w : Workspace) (calls : List ManifestCall) : Workspace := calls.foldl ManifestCall.apply w

theorem ManifestsApart.applied {w : Workspace} (h : w.ManifestsApart) {calls : List ManifestCall}
    (hnames : ∀ call ∈ calls, call.path.fileName? = some Manifest.fileName) :
    (w.applied calls).ManifestsApart := by
  induction calls generalizing w with
  | nil => exact h
  | cons call calls ih =>
    exact ih (h.apply (hnames call List.mem_cons_self)) fun later hlater =>
      hnames later (List.mem_cons_of_mem call hlater)

/-- The last call for the path has registered the manifest, and no later one its component. -/
def LeftAt (calls : List ManifestCall) (path : FilePath) (m : Manifest) : Prop :=
  ∃ before call after, calls = before ++ call :: after ∧
    (call.path == path) = true ∧ call.manifest? = some m ∧
    (∀ later ∈ after, (later.path == path) = false) ∧
    ∀ later ∈ after, ∀ registered, later.manifest? = some registered →
      registered.component ≠ m.component

theorem leftAt_iff_since {calls : List ManifestCall} {path : FilePath} {m : Manifest} :
    LeftAt calls path m ↔
      Since (fun call => (call.path == path) = true ∧ call.manifest? = some m)
        (fun later => (later.path == path) = false ∧
          ∀ registered, later.manifest? = some registered → registered.component ≠ m.component)
        calls := by
  simp only [LeftAt, Since, forall_and, and_assoc]

theorem leftAt_concat {calls : List ManifestCall} {call : ManifestCall} {path : FilePath} {m : Manifest} :
    LeftAt (calls ++ [call]) path m ↔
      (call.path == path) = true ∧ call.manifest? = some m ∨
      LeftAt calls path m ∧ (call.path == path) = false ∧
        ∀ registered, call.manifest? = some registered → registered.component ≠ m.component := by
  rw [leftAt_iff_since, leftAt_iff_since, since_concat]
  exact or_congr_right and_comm

theorem mem_applied {w : Workspace} (hnone : w.manifests = []) (calls : List ManifestCall)
    (path : FilePath) (m : Manifest) :
    m ∈ (w.applied calls).manifests ∧ (m.path == path) = true ↔ LeftAt calls path m := by
  induction calls using List.reverseRecOn with
  | nil => simp [applied, hnone, LeftAt]
  | append_singleton calls call ih =>
    have happlied : w.applied (calls ++ [call]) = call.apply (w.applied calls) := List.foldl_concat ..
    rw [happlied, ManifestCall.mem_apply, leftAt_concat, ← ih, or_and_right]
    refine or_congr ?_ ?_
    · rw [and_comm]
      exact and_congr_left fun hcall => by rw [ManifestCall.path_of_manifest? hcall]
    · constructor
      · rintro ⟨⟨hmem, hother, hfree⟩, hpath⟩
        rw [FilePath.beq_congr_left hpath, FilePath.beq_comm] at hother
        exact ⟨⟨hmem, hpath⟩, hother, hfree⟩
      · rintro ⟨⟨hmem, hpath⟩, hother, hfree⟩
        rw [FilePath.beq_comm, ← FilePath.beq_congr_left hpath] at hother
        exact ⟨⟨hmem, hother, hfree⟩, hpath⟩

/-- The manifest owns the class name, and no owner has a longer name. -/
def LongestOwner (w : Workspace) (className : String) : Manifest → Prop :=
  IsGreatest (fun m => m.component.utf8ByteSize) (w.manifests.filter fun m => m.owns className)

/-- The path lies below the manifest's root, and below no deeper one. -/
def DeepestRoot (w : Workspace) (path : FilePath) : Manifest → Prop :=
  IsGreatest (fun m => m.root.components.length) (w.manifests.filter fun m => path.isBelow m.root)

namespace ManifestsApart

variable {w : Workspace} (h : w.ManifestsApart)

include h

theorem longestOwner_unique {className : String} {m other : Manifest} (hm : w.LongestOwner className m)
    (hother : w.LongestOwner className other) : m = other := by
  have hsize := hm.measure_eq hother
  obtain ⟨hm, howns⟩ := List.mem_filter.1 hm.1
  obtain ⟨hother, hotherOwns⟩ := List.mem_filter.1 hother.1
  obtain ⟨rest, hrest⟩ := Manifest.component_of_owns howns
  obtain ⟨otherRest, hotherRest⟩ := Manifest.component_of_owns hotherOwns
  have hcomponent := string_lead_unique (hrest.symm.trans hotherRest) hsize
  exact List.inj_on_of_nodup_map h.components hm hother hcomponent

/-- Roots of one depth above a path are the same, and two manifests would stand at one path there. -/
theorem deepestRoot_unique {path : FilePath} {m other : Manifest} (hm : w.DeepestRoot path m)
    (hother : w.DeepestRoot path other) : m = other := by
  have hdepth := hm.measure_eq hother
  obtain ⟨hm, hbelow⟩ := List.mem_filter.1 hm.1
  obtain ⟨hother, hotherBelow⟩ := List.mem_filter.1 hother.1
  obtain ⟨rest, hrest⟩ := Option.isSome_iff_exists.1 hbelow
  obtain ⟨otherRest, hotherRest⟩ := Option.isSome_iff_exists.1 hotherBelow
  have hroot : m.root.components = other.root.components :=
    List.append_inj_left ((after?_eq_some_iff.1 hrest).symm.trans (after?_eq_some_iff.1 hotherRest)) hdepth
  have hpath : m.path.components = other.path.components := by
    rw [h.atRoot m hm, h.atRoot other hother, hroot]
  exact List.inj_on_of_nodup_map h.paths hm hother hpath

theorem owners_congr {u : Workspace} (hmem : ∀ m, m ∈ u.manifests ↔ m ∈ w.manifests) :
    (∀ className, u.manifestForClass? className = w.manifestForClass? className) ∧
      ∀ path, u.manifestForPath? path = w.manifestForPath? path := by
  have hfilter : ∀ keep : Manifest → Bool, ∀ m,
      m ∈ u.manifests.filter keep ↔ m ∈ w.manifests.filter keep := by
    intro keep m
    rw [List.mem_filter, List.mem_filter, hmem]
  exact ⟨fun className => lastGreatest?_congr (hfilter _) fun _ _ => h.longestOwner_unique,
    fun path => lastGreatest?_congr (hfilter _) fun _ _ => h.deepestRoot_unique⟩

end ManifestsApart

/-- After any calls on paths of descriptors the registered manifests have different components and
different paths, each path holds what its last call has left there, and the manifest found for a class
name or for a path is the only one of its rank, in whatever order the manifests are kept. -/
theorem manifests_settled {w : Workspace} (hnone : w.manifests = []) {calls : List ManifestCall}
    (hnames : ∀ call ∈ calls, call.path.fileName? = some Manifest.fileName) :
    ((w.applied calls).manifests.map Manifest.component).Nodup ∧
      ((w.applied calls).manifests.map fun m => m.path.components).Nodup ∧
      (∀ path m, m ∈ (w.applied calls).manifests ∧ (m.path == path) = true ↔ LeftAt calls path m) ∧
      (∀ className m other, (w.applied calls).LongestOwner className m →
        (w.applied calls).LongestOwner className other → m = other) ∧
      (∀ path m other, (w.applied calls).DeepestRoot path m →
        (w.applied calls).DeepestRoot path other → m = other) ∧
      ∀ u : Workspace, (∀ m, m ∈ u.manifests ↔ m ∈ (w.applied calls).manifests) →
        (∀ className, u.manifestForClass? className = (w.applied calls).manifestForClass? className) ∧
          ∀ path, u.manifestForPath? path = (w.applied calls).manifestForPath? path := by
  have hstart : w.ManifestsApart := by
    refine ⟨?_, ?_, ?_⟩ <;> simp [hnone]
  have h := hstart.applied hnames
  exact ⟨h.components, h.paths, mem_applied hnone calls, fun _ _ _ => h.longestOwner_unique,
    fun _ _ _ => h.deepestRoot_unique, fun _ => h.owners_congr⟩

/-- A component that moves to another directory, and one below it. -/
def sampleCalls : List ManifestCall :=
  [.register ⟨"/old/manifest.json"⟩ "\x7b\"sap.app\":\x7b\"id\":\"App\"\x7d\x7d",
    .register ⟨"/app/lib/manifest.json"⟩ "\x7b\"sap.app\":\x7b\"id\":\"App.lib\"\x7d\x7d",
    .register ⟨"/app/manifest.json"⟩ "\x7b\"sap.app\":\x7b\"id\":\" App \"\x7d\x7d",
    .register ⟨"/other/manifest.json"⟩ "\x7b"]

def sampleRegistry : Workspace := (new Settings.builtIn (.memory []) none []).applied sampleCalls

theorem manifests_settled_sample :
    sampleRegistry.manifests.map Manifest.component = ["App.lib", "App"] ∧
      (∀ m, ¬LeftAt sampleCalls ⟨"/old/manifest.json"⟩ m) ∧
      ∃ m, LeftAt sampleCalls ⟨"/app/./manifest.json"⟩ m := by
  have hnames : ∀ call ∈ sampleCalls, call.path.fileName? = some Manifest.fileName := by decide +kernel
  have hcomponents : sampleRegistry.manifests.map Manifest.component = ["App.lib", "App"] := by
    decide +kernel
  have hold : ∀ m ∈ sampleRegistry.manifests, ¬(m.path == ⟨"/old/manifest.json"⟩) = true := by
    decide +kernel
  have hmoved : ∃ m ∈ sampleRegistry.manifests, (m.path == ⟨"/app/./manifest.json"⟩) = true := by
    decide +kernel
  have hleft : ∀ path m,
      m ∈ sampleRegistry.manifests ∧ (m.path == path) = true ↔ LeftAt sampleCalls path m :=
    (manifests_settled rfl hnames).2.2.1
  refine ⟨hcomponents, fun m hm => ?_, ?_⟩
  · obtain ⟨hmem, hpath⟩ := (hleft _ m).2 hm
    exact hold m hmem hpath
  · obtain ⟨m, hmem⟩ := hmoved
    exact ⟨m, (hleft _ m).1 hmem⟩

end Workspace

end UiWorkspace
