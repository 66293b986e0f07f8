import UiWorkspace.Proofs.Typing.Balance
import UiWorkspace.Proofs.Workspace.ClassSlots

/-! Writing a file in an editor. What was written is what is read from then on, and nothing changes
but what was derived from the file: the class of a script with the types that rest on it, or one
document. -/
namespace UiWorkspace.Workspace

open UiWorkspace.Markup

theorem isMadeOf_iff {c : ClassDefinition} {path : FilePath} {text : String} :
    isMadeOf c path text = true ↔
      ∃ s, c.source? = some s ∧ (s.path == path) = true ∧ s.digest = Digest.sha256 text := by
  unfold isMadeOf
  simp only [Option.any_eq_true, Bool.and_eq_true, beq_iff_eq]

theorem isMadeOf_ofScript (name : String) (path : FilePath) (text : String) :
    isMadeOf (ClassDefinition.ofScript name path text) path text = true :=
  isMadeOf_iff.2 ⟨_, rfl, FilePath.beq_self path, rfl⟩

/-- Looking a name up answers the class that a text makes under it, with the file it was written
to. -/
def ReadsBack (w : Workspace) (name : String) (path : FilePath) (text : String) : Prop :=
  ∃ c s, class? name w = (some c, w) ∧ c.name = name ∧ c.source? = some s ∧
    (s.path == path) = true ∧ s.text = text ∧
    c.members = (Script.classOfTree name text (Script.parse text)).members ∧
    c.parent? = (Script.classOfTree name text (Script.parse text)).parent? ∧
    c.aliases = (Script.classOfTree name text (Script.parse text)).aliases

theorem readsBack {w : Workspace} {name text : String} {path p : FilePath}
    (hc : w.classes.lookup name = some (ClassDefinition.ofScript name p text))
    (hp : (p == path) = true) : ReadsBack w name path text := by
  have hrun : class? name w = (some (ClassDefinition.ofScript name p text), w) := by
    unfold class?
    simp only [bind_run, get_run, hc]
    rfl
  refine ⟨_, _, hrun, rfl, rfl, hp, rfl, ?_⟩
  simp only [ClassDefinition.ofScript, and_self]

/-- `w'` is `w` with a script for the class of a name: only this class is another one, and only what
was derived from it is forgotten. -/
structure ScriptWritten (w : Workspace) (name : String) (path : FilePath) (text : String)
    (w' : Workspace) : Prop where
  read : ReadsBack w' name path text
  others {other : String} : other ≠ name → w'.classes.lookup other = w.classes.lookup other
  documents : w'.documents = w.documents
  examined : w'.examined = w.examined
  manifests : w'.manifests = w.manifests
  /-- The number of classes made tells whether the class was made anew. -/
  kept : w'.builds = w.builds → w' = w
  dropped : w'.builds ≠ w.builds → ∀ key slot, (key, slot) ∈ w'.types ↔ (key, slot) ∈ w.types ∧
    key.className ≠ name ∧ ∀ type? dependsOn, slot = .done type? dependsOn → name ∉ dependsOn

theorem ScriptWritten.known {w : Workspace} {name text : String} {path p : FilePath}
    (hc : w.classes.lookup name = some (ClassDefinition.ofScript name p text))
    (hp : (p == path) = true) : ScriptWritten w name path text w where
  read := readsBack hc hp
  others _ := rfl
  documents := rfl
  examined := rfl
  manifests := rfl
  kept _ := rfl
  dropped hbuilds := absurd rfl hbuilds

theorem ScriptWritten.new (w : Workspace) (name : String) (path : FilePath) (text : String) :
    ScriptWritten w name path text
      ((Workspace.putClass { w with builds := w.builds + 1 }
        (ClassDefinition.ofScript name path text)).forgetDerived name) where
  read := by
    refine readsBack (p := path) ?_ (FilePath.beq_self path)
    exact Table.lookup_put_self _ _ w.classes
  others {other} hother := by
    exact Table.lookup_put_of_ne hother
  documents := rfl
  examined := rfl
  manifests := rfl
  kept hbuilds := absurd hbuilds (Nat.succ_ne_self w.builds)
  dropped _ key slot := by
    change (key, slot) ∈ w.types.filter (TypeMemo.survives name) ↔ _
    rw [List.mem_filter, TypeMemo.survives_iff]

theorem applyScript_written {w : Workspace} (hw : WellSourced w) {path : FilePath} {name : String}
    (hname : w.className? path = some name) {text : String}
    (hcached : ∀ c s, w.classes.lookup name = some c → c.source? = some s →
      Digest.sha256 s.text = Digest.sha256 text → s.text = text) :
    ∃ w', applyScript path (some text) w = (.ok (), w') ∧ ScriptWritten w name path text w' ∧
      applyScript path (some text) w' = (.ok (), w') := by
  rcases known_or_new w.classes name path text with ⟨c, hc, hmade⟩ | hnew
  · obtain ⟨s, hs, hpath, hdigest⟩ := isMadeOf_iff.1 hmade
    have hrun : applyScript path (some text) w = (.ok (), w) := applyScript_known hname rfl hc hmade
    obtain ⟨hscript, hsha⟩ := (hw.origin_of_lookup hc).of_source hs
    have htext : s.text = text := hcached c s hc hs (hsha.symm.trans hdigest)
    rw [htext] at hscript
    rw [hscript] at hc
    exact ⟨w, hrun, .known hc hpath, hrun⟩
  · refine ⟨_, applyScript_new hname rfl hnew, .new w name path text, ?_⟩
    refine applyScript_known hname rfl ?_ (isMadeOf_ofScript name path text)
    exact Table.lookup_put_self _ _ w.classes

/-- `v` keeps the documents of `w`, and of these the tags have been read as in `w`. -/
structure KeepsDocuments (w v : Workspace) : Prop where
  kept {path : FilePath} {d : Document} : w.cachedDocument? path = some d →
    v.cachedDocument? path = some d
  examined {path : FilePath} {d : Document} : w.cachedDocument? path = some d →
    v.examined.any (· == path) = w.examined.any (· == path)

theorem examined_putDocument (w : Workspace) (d : Document) (path : FilePath) :
    (w.putDocument d).examined.any (· == path) =
      (!(path == d.path) && w.examined.any (· == path)) := by
  change (w.examined.filter fun p => !(p == d.path)).any (· == path) = _
  rw [List.any_filter, List.and_any_distrib_left]
  congr 1
  funext p
  cases hp : p == path with
  | true => rw [FilePath.beq_congr_left hp]
  | false => rw [Bool.and_false, Bool.and_false]

namespace KeepsDocuments

variable {w v : Workspace}

theorem refl (w : Workspace) : KeepsDocuments w w := ⟨id, fun _ => rfl⟩

theorem putDocument (h : KeepsDocuments w v) {d : Document} (hnone : v.cachedDocument? d.path = none) :
    KeepsDocuments w (v.putDocument d) := by
  -- A document of `w` is kept in `v` and so has another path than the one that is put.
  have hother : ∀ {path : FilePath} {d' : Document}, w.cachedDocument? path = some d' →
      (d.path == path) = false := by
    intro path d' hd'
    cases hpath : d.path == path with
    | false => rfl
    | true =>
      rw [cachedDocument?_congr hpath, h.kept hd'] at hnone
      cases hnone
  constructor
  · intro path d' hd'
    rw [cachedDocument?_putDocument, hother hd']
    exact h.kept hd'
  · intro path d' hd'
    rw [examined_putDocument, FilePath.beq_comm, hother hd']
    exact h.examined hd'

theorem keptController (path : FilePath) (w : Workspace) :
    KeepsDocuments w (Workspace.keptController path w).2 := by
  have halike : ControllersAlike (Kept (KeepsDocuments w)) :=
    .kept (fun _ _ h => ⟨h.kept, h.examined⟩) fun _ _ h hnone _ => h.putDocument hnone
  exact (halike.searchAlike.keptController path).keeps (refl w)

end KeepsDocuments

/-- `w'` is `w` with a document that has new content: its tags are still to be read, the other
documents are as they were, and no event handlers are remembered. -/
structure MarkupWritten (w : Workspace) (path : FilePath) (kind : DocumentKind) (text : String)
    (w' : Workspace) : Prop where
  read : w'.cachedDocument? path = some (Document.new path kind text)
  unread : w'.examined.any (· == path) = false
  others {other : FilePath} {d : Document} : (path == other) = false →
    w.cachedDocument? other = some d → w'.cachedDocument? other = some d ∧
      w'.examined.any (· == other) = w.examined.any (· == other)
  handlers : w'.handlers = []
  models : SameModels w w'

theorem applyMarkup_written {path : FilePath} {kind : DocumentKind}
    (hrole : FileRole.ofPath path = .markup kind) (text : String) (w : Workspace) :
    MarkupWritten w path kind text (handle (.changed path text) w).2 := by
  have hbefore := KeepsDocuments.keptController path w
  rcases hu : keptController path w with ⟨before, u⟩
  have hafter := KeepsDocuments.keptController path (u.putDocument (Document.new path kind text))
  rcases hv : keptController path (u.putDocument (Document.new path kind text)) with ⟨after, v⟩
  rw [hu] at hbefore
  rw [hv] at hafter
  have hmodels := SameModels.handle hrole (.changed text) w
  have hrun : (handle (.changed path text) w).2 = v.markupChanged (before ++ after) := by
    change (applyContent path (some text) w).2 = _
    rw [applyContent_markup hrole]
    refine applyMarkup_run hu ?_ hv
    dsimp only
    rw [setDocument_run, Document.ofPath?, ofPath_eq_markup.1 hrole]
    rfl
  rw [hrun] at hmodels ⊢
  have hput : (u.putDocument (Document.new path kind text)).cachedDocument? path =
      some (Document.new path kind text) := by
    rw [cachedDocument?_putDocument]
    exact if_pos (FilePath.beq_self path)
  refine ⟨hafter.kept hput, ?_, @fun other d hother hd => ?_, rfl, hmodels⟩
  · refine (hafter.examined hput).trans ?_
    rw [examined_putDocument]
    exact congrArg (fun same => !same && _) (FilePath.beq_self path)
  · have hkept : (u.putDocument (Document.new path kind text)).cachedDocument? other = some d := by
      rw [cachedDocument?_putDocument]
      exact (if_neg (ne_true_of_eq_false hother)).trans (hbefore.kept hd)
    refine ⟨hafter.kept hkept, (hafter.examined hkept).trans ?_⟩
    rw [examined_putDocument, FilePath.beq_comm, hbefore.examined hd]
    exact congrArg (fun same => !same && _) hother

/-- What is written in an editor is what is read from then on, and nothing changes but what rests
on it. A script that was cached is taken to be the same if its digest is. -/
theorem write_reads_back {w : Workspace} (hw : Reachable w) {event : Event} {path : FilePath}
    {text : String} (hevent : event = .changed path text ∨ event = .opened path text) :
    (∀ name, FileRole.ofPath path = .script → w.className? path = some name →
      (∀ c s, w.classes.lookup name = some c → c.source? = some s →
        Digest.sha256 s.text = Digest.sha256 text → s.text = text) →
      ∃ w', handle event w = (.ok (), w') ∧ ScriptWritten w name path text w' ∧
        handle event w' = (.ok (), w')) ∧
    ∀ kind, FileRole.ofPath path = .markup kind →
      (handle event w).1 = .ok () ∧ MarkupWritten w path kind text (handle event w).2 := by
  have hhandle : handle event = handle (.changed path text) := by
    rcases hevent with rfl | rfl <;> rfl
  rw [hhandle]
  refine ⟨fun name hrole hname hcached => ?_, fun kind hrole => ⟨?_, applyMarkup_written hrole text w⟩⟩
  · have happly : handle (.changed path text) = applyScript path (some text) :=
      applyContent_script hrole (some text)
    rw [happly]
    exact applyScript_written hw.wellSourced hname hcached
  · change (applyContent path (some text) w).1 = _
    rw [applyContent_markup hrole]

def sampleTyped : Workspace :=
  Request.leave (Request.leave sampleRead (.typeOf .method "App.C" "go"))
    (.typeOf .method "sap.m.Button" "setText")

theorem write_reads_back_sample :
    sampleTyped.types.map (fun entry => entry.1.className) = ["App.C", "sap.m.Button"] ∧
    (∃ w', handle (.changed ⟨"/app/C.js"⟩ "") sampleTyped = (.ok (), w') ∧
      ReadsBack w' "App.C" ⟨"/app/C.js"⟩ "" ∧
      w'.types.map (fun entry => entry.1.className) = ["sap.m.Button"]) ∧
    (handle (.opened ⟨"/app/C.view.xml"⟩ "<View/>") sampleTyped).2.cachedDocument? ⟨"/app/C.view.xml"⟩ =
      some (Document.new ⟨"/app/C.view.xml"⟩ .view "<View/>") := by
  have hreachable : Reachable sampleTyped :=
    .asked _ (.asked _ (.notified _ (.notified _ (.opened _ _ _ _))))
  obtain ⟨htyped, hname, hdigest, hleft⟩ :
      sampleTyped.types.map (fun entry => entry.1.className) = ["App.C", "sap.m.Button"] ∧
      sampleTyped.className? ⟨"/app/C.js"⟩ = some "App.C" ∧
      (((sampleTyped.classes.lookup "App.C").bind ClassDefinition.source?).all fun s =>
        Digest.sha256 s.text != Digest.sha256 "") = true ∧
      (handle (.changed ⟨"/app/C.js"⟩ "") sampleTyped).2.types.map
        (fun entry => entry.1.className) = ["sap.m.Button"] := by decide +kernel
  have hcached : ∀ c s, sampleTyped.classes.lookup "App.C" = some c → c.source? = some s →
      Digest.sha256 s.text = Digest.sha256 "" → s.text = "" := by
    intro c s hc hs hsame
    rw [hc, Option.bind_some, hs, Option.all_some, hsame, bne_self_eq_false] at hdigest
    cases hdigest
  obtain ⟨w', hrun, hwritten, -⟩ :=
    (write_reads_back hreachable (.inl rfl)).1 "App.C" (by decide) hname hcached
  rw [hrun] at hleft
  have hopened : Event.opened ⟨"/app/C.view.xml"⟩ "<View/>" = .changed ⟨"/app/C.view.xml"⟩ "<View/>" ∨
      Event.opened ⟨"/app/C.view.xml"⟩ "<View/>" = .opened ⟨"/app/C.view.xml"⟩ "<View/>" := .inr rfl
  have hview := (write_reads_back hreachable hopened).2 .view (by decide)
  exact ⟨htyped, ⟨w', hrun, hwritten.read, hleft⟩, hview.2.read⟩

end UiWorkspace.Workspace
