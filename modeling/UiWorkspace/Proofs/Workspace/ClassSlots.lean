import UiWorkspace.Proofs.Workspace.ClearCaches

/-! Where the known classes come from. However a workspace got into its state, each slot holds what
the catalog has under its name now, or what its script makes under that name. -/
namespace UiWorkspace.Workspace

inductive Origin (catalog : Catalog) (name : String) : ClassDefinition → Prop
  | listed {c : ClassDefinition} : catalog.definition? name = some c → Origin catalog name c
  | scripted (path : FilePath) (text : String) :
      Origin catalog name (ClassDefinition.ofScript name path text)

namespace Origin

variable {catalog : Catalog} {name : String} {c : ClassDefinition}

theorem name_eq (h : Origin catalog name c) : c.name = name := by
  cases h with
  | listed hlisted => exact definition?_name hlisted
  | scripted path text => rfl

theorem of_makes {w : Workspace} (h : w.makes? name = some c) : Origin w.catalog name c := by
  unfold makes? at h
  split at h
  next path _ =>
    split at h
    next text _ =>
      cases h
      exact .scripted path text
    next => cases h
  next => exact .listed h

theorem of_source (h : Origin catalog name c) {s : ProjectSource} (hs : c.source? = some s) :
    c = ClassDefinition.ofScript name s.path s.text ∧ s.digest = Digest.sha256 s.text := by
  cases h with
  | listed hlisted =>
    obtain ⟨k, -, rfl⟩ := Option.map_eq_some_iff.1 hlisted
    cases hs
  | scripted path text =>
    cases hs
    exact ⟨rfl, rfl⟩

end Origin

/-- No name has two slots, and every slot holds what its name can stand for. -/
structure WellSourced (w : Workspace) : Prop where
  unique : (w.classes.map Prod.fst).Nodup
  origin : ∀ entry ∈ w.classes, Origin w.catalog entry.1 entry.2

namespace WellSourced

theorem of_nil {w : Workspace} (h : w.classes = []) : WellSourced w := by
  constructor
  · rw [h]
    exact List.nodup_nil
  · rw [h]
    exact fun _ hentry => absurd hentry List.not_mem_nil

variable {w : Workspace}

theorem congr (h : WellSourced w) {v : Workspace} (hclasses : v.classes = w.classes)
    (hcatalog : v.catalog = w.catalog) : WellSourced v := by
  constructor
  · rw [hclasses]
    exact h.unique
  · rw [hclasses, hcatalog]
    exact h.origin

theorem putClass (h : WellSourced w) {c : ClassDefinition} (hc : Origin w.catalog c.name c) :
    WellSourced (w.putClass c) := by
  refine ⟨Table.nodup_keys_put c.name c h.unique, ?_⟩
  intro entry hentry
  rcases Table.mem_put hentry with rfl | hentry
  · exact hc
  · exact h.origin entry hentry

theorem removeClass (h : WellSourced w) (name : String) : WellSourced (w.removeClass name) :=
  ⟨Table.nodup_keys_filter _ h.unique, fun entry hentry => h.origin entry (List.mem_filter.1 hentry).1⟩

theorem origin_of_lookup (h : WellSourced w) {name : String} {c : ClassDefinition}
    (hc : w.classes.lookup name = some c) : Origin w.catalog name c :=
  h.origin (name, c) (Table.entry_of_lookup hc)

theorem stable : Stable WellSourced where
  probe _ _ h := h.congr rfl rfl
  examine _ d h := of_examine (fun _ => h.congr rfl rfl) d
  putDocument _ _ h _ _ := h.congr rfl rfl
  setHandlers _ _ h := h.congr rfl rfl
  class? w name h := by
    obtain ⟨probes, builds, hrun⟩ := class?_run name w
    rw [hrun]
    unfold classesWith
    split
    next c _ hmade =>
      have horigin := Origin.of_makes hmade
      exact (h.putClass (horigin.name_eq.symm ▸ horigin)).congr rfl rfl
    next => exact h.congr rfl rfl

theorem admits : Admits WellSourced where
  probe _ _ h := h.congr rfl rfl
  load _ _ h := of_keeping h (fun _ => h.congr rfl rfl) _
  dropDocument _ _ h := h.congr rfl rfl
  markupChanged _ _ h := h.congr rfl rfl
  addManifest _ _ h := h.congr rfl rfl
  removeManifest _ _ h := h.congr rfl rfl
  resetModels _ _ := of_nil rfl
  putBuilt w _ path text builds h :=
    putClass (w := { w with builds := builds }) (h.congr rfl rfl) (.scripted path text)
  forgetDerived _ _ h := h.congr rfl rfl

theorem upheld : Upheld WellSourced where
  toAdmits := admits
  requests := stable.indistinguishable fun _ _ h => h.congr rfl rfl
  putDocument _ _ h := h.congr rfl rfl
  removeClass _ name h := h.removeClass name
  clearCaches w _ := by
    -- The catalog changes when no class is known, and reading documents makes none.
    have hreset := SameModels.refl w.resetModels.clearDocuments
    exact of_nil (((SameModels.admitsMarkup _).loadDocuments _).keeps hreset).classes
  setSource _ _ h := h.congr rfl rfl

end WellSourced

theorem Reachable.wellSourced {w : Workspace} (h : Reachable w) : WellSourced w :=
  WellSourced.upheld.holds (fun _ _ _ _ => .of_nil rfl) h

/-- In every state, a known class is filed under its name, and it is the one that the catalog has
under this name or the one that its script makes under it. -/
theorem known_class_is_listed_or_scripted {w : Workspace} (hw : Reachable w) :
    (w.classes.map Prod.fst).Nodup ∧ ∀ name c, (name, c) ∈ w.classes → c.name = name ∧
      (c.source? = none ∧ w.catalog.definition? name = some c ∨
        ∃ s, c.source? = some s ∧ c = ClassDefinition.ofScript name s.path s.text ∧
          s.digest = Digest.sha256 s.text) := by
  have hsourced := hw.wellSourced
  refine ⟨hsourced.unique, fun name c hc => ?_⟩
  have horigin : Origin w.catalog name c := hsourced.origin (name, c) hc
  refine ⟨horigin.name_eq, ?_⟩
  cases hs : c.source? with
  | none =>
    cases horigin with
    | listed hlisted => exact .inl ⟨rfl, hlisted⟩
    | scripted path text => cases hs
  | some s => exact .inr ⟨s, rfl, horigin.of_source hs⟩

theorem known_class_is_listed_or_scripted_sample :
    (Request.leave sampleRead (.lookUp "sap.m.Button")).classes.map Prod.fst =
        ["App.C", "sap.m.Button"] ∧
      ∀ name c, (name, c) ∈ (Request.leave sampleRead (.lookUp "sap.m.Button")).classes →
        c.name = name := by
  have hread : Reachable sampleRead := .notified _ (.notified _ (.opened _ _ _ _))
  have hsourced := (known_class_is_listed_or_scripted (.asked (.lookUp "sap.m.Button") hread)).2
  exact ⟨by decide +kernel, fun name c hc => (hsourced name c hc).1⟩

end UiWorkspace.Workspace
