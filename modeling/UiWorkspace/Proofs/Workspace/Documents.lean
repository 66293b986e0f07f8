import UiWorkspace.Proofs.FilePath
import UiWorkspace.Proofs.Query
import UiWorkspace.Workspace.Index

/-! The kept documents. They are sorted by path with one document for each path, so a list of
them is settled by what a look-up of each path gives. -/
namespace UiWorkspace.Workspace

open Std
open UiWorkspace.Markup

def SortedByPath (ds : List Document) : Prop :=
  ds.Pairwise fun d e => FilePath.compare d.path e.path = .lt

theorem mem_insertDocument {d e : Document} {ds : List Document} (h : e ∈ insertDocument d ds) :
    e = d ∨ e ∈ ds := by
  induction ds with
  | nil => exact .inl (List.mem_singleton.1 h)
  | cons first rest ih =>
    unfold insertDocument at h
    split at h
    · exact List.mem_cons.1 h
    · rcases List.mem_cons.1 h with rfl | h
      · exact .inl rfl
      · exact .inr (List.mem_cons_of_mem first h)
    · rcases List.mem_cons.1 h with rfl | h
      · exact .inr List.mem_cons_self
      · exact (ih h).imp_right (List.mem_cons_of_mem first)

theorem SortedByPath.insertDocument {ds : List Document} (h : SortedByPath ds) (d : Document) :
    SortedByPath (insertDocument d ds) := by
  induction ds with
  | nil => exact List.pairwise_singleton _ d
  | cons first rest ih =>
    obtain ⟨hfirst, hrest⟩ := List.pairwise_cons.1 h
    unfold Workspace.insertDocument
    split
    next hlt =>
      refine List.pairwise_cons.2 ⟨fun e he => ?_, h⟩
      rcases List.mem_cons.1 he with rfl | he
      · exact hlt
      · exact TransCmp.lt_trans hlt (hfirst e he)
    next heq =>
      exact List.pairwise_cons.2
        ⟨fun e he => TransCmp.lt_of_eq_of_lt heq (hfirst e he), hrest⟩
    next hgt =>
      refine List.pairwise_cons.2 ⟨fun e he => ?_, ih hrest⟩
      rcases mem_insertDocument he with rfl | he
      · exact OrientedCmp.lt_of_gt hgt
      · exact hfirst e he

theorem compare_ne_eq_of_lt {p q : FilePath} (h : FilePath.compare p q = .lt) : (p == q) = false := by
  cases hsame : p == q with
  | false => rfl
  | true =>
    rw [FilePath.compare_eq_iff.2 (FilePath.beq_iff.1 hsame)] at h
    cases h

theorem find?_insertDocument (d : Document) (path : FilePath) (ds : List Document) :
    (insertDocument d ds).find? (fun e => e.path == path) =
      if d.path == path then some d else ds.find? fun e => e.path == path := by
  induction ds with
  | nil =>
    simp only [insertDocument, List.find?_cons, List.find?_nil]
    cases d.path == path <;> rfl
  | cons first rest ih =>
    unfold insertDocument
    split
    · rw [List.find?_cons]
      cases d.path == path <;> rfl
    next heq =>
      have hsame := FilePath.beq_congr_left (FilePath.beq_iff.2 (FilePath.compare_eq_iff.1 heq)) path
      rw [List.find?_cons, List.find?_cons, ← hsame]
      cases d.path == path <;> rfl
    next hgt =>
      rw [List.find?_cons, List.find?_cons, ih]
      cases hpath : d.path == path with
      | false => rfl
      | true =>
        have hne := compare_ne_eq_of_lt (OrientedCmp.lt_of_gt hgt)
        rw [FilePath.beq_comm, FilePath.beq_congr_left hpath, FilePath.beq_comm] at hne
        rw [hne]

theorem exists_insertDocument {d : Document} {ds : List Document}
    (h : ds.find? (fun e => e.path == d.path) = none) :
    ∃ front back, ds = front ++ back ∧ insertDocument d ds = front ++ d :: back := by
  induction ds with
  | nil => exact ⟨[], [], rfl, rfl⟩
  | cons first rest ih =>
    rw [List.find?_eq_none] at h
    unfold insertDocument
    split
    · exact ⟨[], first :: rest, rfl, rfl⟩
    next heq =>
      have hsame := FilePath.beq_iff.2 (FilePath.compare_eq_iff.1 heq)
      exact absurd (FilePath.beq_comm d.path first.path ▸ hsame) (h first List.mem_cons_self)
    · obtain ⟨front, back, hrest, hput⟩ :=
        ih (List.find?_eq_none.2 fun e he => h e (List.mem_cons_of_mem first he))
      exact ⟨first :: front, back, congrArg (first :: ·) hrest, congrArg (first :: ·) hput⟩

theorem length_insertDocument {d : Document} {ds : List Document}
    (h : ds.find? (fun e => e.path == d.path) = none) :
    (insertDocument d ds).length = ds.length + 1 := by
  obtain ⟨front, back, hds, hput⟩ := exists_insertDocument h
  rw [hput, hds, List.length_append, List.length_append, List.length_cons, Nat.add_assoc]

namespace SortedByPath

variable {ds es : List Document}

theorem filter (h : SortedByPath ds) (p : Document → Bool) : SortedByPath (ds.filter p) :=
  List.Pairwise.filter p h

theorem find?_of_mem (h : SortedByPath ds) {d : Document} (hd : d ∈ ds) :
    ds.find? (fun e => e.path == d.path) = some d := by
  induction ds with
  | nil => cases hd
  | cons first rest ih =>
    obtain ⟨hfirst, hrest⟩ := List.pairwise_cons.1 h
    rw [List.find?_cons]
    rcases List.mem_cons.1 hd with rfl | hd
    · rw [FilePath.beq_self]
    · rw [compare_ne_eq_of_lt (hfirst d hd)]
      exact ih hrest hd

theorem ext (hds : SortedByPath ds) (hes : SortedByPath es) (h : ∀ d, d ∈ ds ↔ d ∈ es) : ds = es := by
  induction ds generalizing es with
  | nil =>
    cases es with
    | nil => rfl
    | cons e es => exact absurd ((h e).2 List.mem_cons_self) List.not_mem_nil
  | cons d ds ih =>
    cases es with
    | nil => exact absurd ((h d).1 List.mem_cons_self) List.not_mem_nil
    | cons e es =>
      obtain ⟨hd, hds'⟩ := List.pairwise_cons.1 hds
      obtain ⟨he, hes'⟩ := List.pairwise_cons.1 hes
      -- Both heads are the least document, since each would stand behind the other.
      have hhead : d = e := by
        rcases List.mem_cons.1 ((h d).1 List.mem_cons_self) with hde | hde
        · exact hde
        · rcases List.mem_cons.1 ((h e).2 List.mem_cons_self) with hed | hed
          · exact hed.symm
          · have := OrientedCmp.gt_of_lt (he d hde)
            rw [hd e hed] at this
            cases this
      subst hhead
      have hirrefl : FilePath.compare d.path d.path ≠ .lt := by
        rw [FilePath.compare_eq_iff.2 rfl]
        exact Ordering.noConfusion
      refine congrArg (d :: ·) (ih hds' hes' fun x => ⟨fun hx => ?_, fun hx => ?_⟩)
      · rcases List.mem_cons.1 ((h x).1 (List.mem_cons_of_mem d hx)) with rfl | hx'
        · exact absurd (hd x hx) hirrefl
        · exact hx'
      · rcases List.mem_cons.1 ((h x).2 (List.mem_cons_of_mem d hx)) with rfl | hx'
        · exact absurd (he x hx) hirrefl
        · exact hx'

end SortedByPath

theorem ofPath_eq_markup {path : FilePath} {kind : DocumentKind} :
    FileRole.ofPath path = .markup kind ↔ DocumentKind.ofPath? path = some kind := by
  unfold FileRole.ofPath
  cases hname : path.fileName? with
  | none => simp [DocumentKind.ofPath?, hname]
  | some name =>
    dsimp only
    by_cases hmanifest : name = "manifest.json"
    · -- A manifest is not named like a document.
      have hnone : DocumentKind.ofPath? path = none := by
        simp only [DocumentKind.ofPath?, hname, hmanifest]
        decide
      simp [hmanifest, hnone]
    · rw [if_neg hmanifest]
      cases DocumentKind.ofPath? path with
      | none => by_cases hscript : Text.endsWith ".js" name = true <;> simp [hscript]
      | some found => simp

theorem ofPath?_congr {p q : FilePath} (h : (p == q) = true) :
    DocumentKind.ofPath? p = DocumentKind.ofPath? q := by
  unfold DocumentKind.ofPath? FilePath.fileName?
  rw [FilePath.beq_iff.1 h]

theorem ofPath?_path {path : FilePath} {content : String} {d : Document}
    (h : Document.ofPath? path content = some d) : d.path = path := by
  obtain ⟨kind, -, rfl⟩ := Option.map_eq_some_iff.1 h
  rfl

/-- The document that the source has at a path. -/
def stored? (w : Workspace) (path : FilePath) : Option Document :=
  match w.source.read path with
  | .ok content => Document.ofPath? path content
  | .error _ => none

theorem stored?_path {w : Workspace} {path : FilePath} {d : Document} (h : w.stored? path = some d) :
    d.path = path := by
  unfold stored? at h
  split at h
  · exact ofPath?_path h
  · cases h

theorem stored?_congr {w v : Workspace} (h : w.source = v.source) (path : FilePath) :
    w.stored? path = v.stored? path := by
  unfold stored?
  rw [h]

def keeping (w : Workspace) : Option Document → Workspace
  | some d => w.putDocument d
  | none => w

theorem setDocument_run (path : FilePath) (content : String) (w : Workspace) :
    setDocument path content w =
      (Document.ofPath? path content, w.keeping (Document.ofPath? path content)) := by
  unfold setDocument
  cases Document.ofPath? path content <;> rfl

theorem loadDocument_run (path : FilePath) (w : Workspace) :
    loadDocument path w = (w.stored? path, w.keeping (w.stored? path)) := by
  unfold loadDocument stored?
  cases hkind : DocumentKind.ofPath? path with
  | none =>
    have hnone : ∀ content, Document.ofPath? path content = none := by
      intro content
      rw [Document.ofPath?, hkind, Option.map_none]
    cases w.source.read path with
    | error fault => rfl
    | ok content =>
      dsimp only
      rw [hnone]
      rfl
  | some kind =>
    simp only [Option.isNone_some, Bool.false_eq_true, if_false, bind_run, get_run]
    cases w.source.read path with
    | error fault => rfl
    | ok content => exact setDocument_run path content w

theorem document?_run (path : FilePath) (w : Workspace) :
    document? path w =
      match w.cachedDocument? path with
      | some d => (some d, w)
      | none => (w.stored? path, w.keeping (w.stored? path)) := by
  unfold document?
  simp only [bind_run, get_run]
  cases w.cachedDocument? path with
  | some d => rfl
  | none => exact loadDocument_run path w

theorem examine_run (d : Document) (w : Workspace) :
    ∃ examined, examine d w = ((), { w with examined := examined }) := by
  unfold examine
  rw [modify_run]
  split
  · exact ⟨w.examined, rfl⟩
  · exact ⟨d.path :: w.examined, rfl⟩

theorem of_examine {I : Workspace → Prop} {w : Workspace}
    (h : ∀ examined, I { w with examined := examined }) (d : Document) : I (examine d w).2 := by
  obtain ⟨examined, hrun⟩ := examine_run d w
  rw [hrun]
  exact h examined

theorem of_keeping {I : Workspace → Prop} {w : Workspace} (h : I w)
    (hput : ∀ d, I (w.putDocument d)) (found? : Option Document) : I (w.keeping found?) := by
  cases found? with
  | none => exact h
  | some d => exact hput d

theorem cachedDocument?_congr {w : Workspace} {p q : FilePath} (h : (p == q) = true) :
    w.cachedDocument? p = w.cachedDocument? q := by
  unfold cachedDocument?
  congr 1
  funext d
  rw [FilePath.beq_comm, FilePath.beq_congr_left h, FilePath.beq_comm]

theorem cachedDocument?_putDocument (w : Workspace) (d : Document) (path : FilePath) :
    (w.putDocument d).cachedDocument? path =
      if d.path == path then some d else w.cachedDocument? path :=
  find?_insertDocument d path w.documents

end UiWorkspace.Workspace
