import UiWorkspace.Proofs.Workspace.ClearCaches

/-! Notices that fail. A notice fails only for want of the text of a file, and the text is asked for
before anything is changed on its account. -/
namespace UiWorkspace

def Event.toRead? : Event → Option FilePath
  | .created path => some path
  | .renamed _ target => some target
  | .changed .. | .opened .. | .deleted _ | .configurationChanged => none

namespace Workspace

/-- Whether a file cannot be taken in without its text. Markup that cannot be read is dropped, and
other files say nothing. -/
def needsText (w : Workspace) (path : FilePath) : Bool :=
  match FileRole.ofPath path with
  | .manifest => true
  | .script => (w.className? path).isSome
  | .markup _ | .other => false

/-- The state in which a notice asks for a text: of a renamed file the former path is forgotten. -/
def begun (w : Workspace) : Event → Workspace
  | .renamed source _ => (handle (.deleted source) w).2
  | _ => w

@[simp] theorem begun_created (w : Workspace) (path : FilePath) : w.begun (.created path) = w := rfl

@[simp] theorem begun_renamed (w : Workspace) (source target : FilePath) :
    w.begun (.renamed source target) = (handle (.deleted source) w).2 := rfl

section

variable {w : Workspace} {path : FilePath} {content? : Option String} {e : WorkspaceError}

theorem textOr_eq_error_iff : w.textOr path content? = .error e ↔
    content? = none ∧ ∃ fault, w.source.read path = .error fault ∧ e = .fileRead path fault := by
  cases content? with
  | some text => simp [textOr]
  | none =>
    unfold textOr readFile
    cases w.source.read path with
    | ok text => simp [Except.mapError]
    | error fault => simp [Except.mapError, eq_comm]

theorem applyContent_unread (hneeds : w.needsText path = true) (htext : w.textOr path content? = .error e) :
    applyContent path content? w = (.error e, w) := by
  unfold needsText at hneeds
  unfold applyContent
  split at hneeds
  next hrole =>
    rw [hrole]
    unfold applyManifest
    simp only [bind_run, get_run, htext]
    rfl
  next hrole =>
    obtain ⟨name, hname⟩ := Option.isSome_iff_exists.1 hneeds
    rw [hrole]
    unfold applyScript
    simp only [bind_run, get_run, hname, htext]
    rfl
  · cases hneeds
  · cases hneeds

theorem applyContent_read (h : w.needsText path = true → ∃ text, w.textOr path content? = .ok text) :
    (applyContent path content? w).1 = .ok () := by
  unfold needsText at h
  cases hrole : FileRole.ofPath path with
  | manifest =>
    rw [hrole] at h
    obtain ⟨text, htext⟩ := h rfl
    unfold applyContent
    rw [hrole]
    unfold applyManifest
    simp only [bind_run, get_run, htext]
    rfl
  | markup kind => rw [applyContent_markup hrole]
  | script =>
    rw [hrole] at h
    rw [applyContent_script hrole]
    cases hname : w.className? path with
    | none =>
      unfold applyScript
      simp only [bind_run, get_run, hname]
      rfl
    | some name =>
      obtain ⟨text, htext⟩ := h (by rw [hname]; rfl)
      rcases applyScript_run hname content? with ⟨e, herror, -⟩ | ⟨-, hrun⟩ | ⟨_, _, -, hrun⟩
      · rw [htext] at herror
        cases herror
      · rw [hrun]
      · rw [hrun]
  | other =>
    unfold applyContent
    rw [hrole]
    rfl

theorem applyContent_eq_error_iff : (applyContent path content? w).1 = .error e ↔
    w.needsText path = true ∧ w.textOr path content? = .error e := by
  constructor
  · intro h
    by_cases hread : w.needsText path = true → ∃ text, w.textOr path content? = .ok text
    · rw [applyContent_read hread] at h
      cases h
    · rw [Classical.not_imp] at hread
      obtain ⟨hneeds, hunread⟩ := hread
      cases htext : w.textOr path content? with
      | ok text => exact absurd ⟨text, htext⟩ hunread
      | error fault =>
        rw [applyContent_unread hneeds htext] at h
        cases h
        exact ⟨hneeds, rfl⟩
  · rintro ⟨hneeds, htext⟩
    rw [applyContent_unread hneeds htext]

theorem applyContent_of_error (h : (applyContent path content? w).1 = .error e) :
    (applyContent path content? w).2 = w := by
  obtain ⟨hneeds, htext⟩ := applyContent_eq_error_iff.1 h
  rw [applyContent_unread hneeds htext]

end

theorem source_forget (path : FilePath) (w : Workspace) : (forget path w).2.source = w.source := by
  have hmarkup : AdmitsMarkup fun u => u.source = w.source :=
    { probe := fun _ _ h => h
      load := fun _ _ h => of_keeping (I := fun u => u.source = w.source) h (fun _ => h) _
      dropDocument := fun _ _ h => h
      markupChanged := fun _ _ h => h }
  unfold forget
  cases FileRole.ofPath path with
  | manifest => rfl
  | markup kind => exact (hmarkup.forgetMarkup path).keeps rfl
  | script =>
    simp only [bind_run, get_run]
    cases w.className? path with
    | none => rfl
    | some name => rfl
  | other => rfl

theorem source_begun (w : Workspace) (event : Event) : (w.begun event).source = w.source := by
  cases event with
  | renamed source target => exact source_forget source w
  | _ => rfl

/-- A notice takes in the content of one file, after a former path is forgotten, or it cannot fail. -/
theorem handle_eq_applyContent_or_ok (event : Event) (w : Workspace) :
    (∃ path content?, handle event w = applyContent path content? (w.begun event) ∧
      event.toRead? = if content?.isNone then some path else none) ∨
    event.toRead? = none ∧ (handle event w).1 = .ok () := by
  cases event with
  | changed path content => exact .inl ⟨path, some content, rfl, rfl⟩
  | opened path content => exact .inl ⟨path, some content, rfl, rfl⟩
  | created path => exact .inl ⟨path, none, rfl, rfl⟩
  | renamed source target => exact .inl ⟨target, none, rfl, rfl⟩
  | deleted path => exact .inr ⟨rfl, rfl⟩
  | configurationChanged => exact .inr ⟨rfl, rfl⟩

/-- A notice fails if and only if the file it leaves to be read counts and cannot be read, with an
error that names the file. All that is kept and all that was worked out is then as it was, or as
it is once the former path of a renamed file is forgotten. -/
theorem failed_notice_leaves_no_trace (w : Workspace) (event : Event) (e : WorkspaceError) :
    ((handle event w).1 = .error e ↔ ∃ path fault, event.toRead? = some path ∧
      (w.begun event).needsText path = true ∧ w.source.read path = .error fault ∧
        e = .fileRead path fault) ∧
    ((handle event w).1 = .error e → (handle event w).2 = w.begun event) := by
  rcases handle_eq_applyContent_or_ok event w with ⟨path, content?, hrun, hread⟩ | ⟨hread, hok⟩
  · rw [hrun, hread]
    refine ⟨?_, applyContent_of_error⟩
    rw [applyContent_eq_error_iff, textOr_eq_error_iff, source_begun]
    cases content? with
    | some text => simp
    | none => simp
  · rw [hread, hok]
    simp

/-- A file that is not there is no new script, and no script can be renamed to it. -/
theorem failed_notice_leaves_no_trace_sample : ∃ e,
    handle (.created ⟨"/app/D.js"⟩) sampleRead = (.error e, sampleRead) ∧
    handle (.renamed ⟨"/app/C.js"⟩ ⟨"/app/D.js"⟩) sampleRead =
      (.error e, (handle (.deleted ⟨"/app/C.js"⟩) sampleRead).2) := by
  obtain ⟨hneeds, hneeds', hunread⟩ : sampleRead.needsText ⟨"/app/D.js"⟩ = true ∧
      (sampleRead.begun (.renamed ⟨"/app/C.js"⟩ ⟨"/app/D.js"⟩)).needsText ⟨"/app/D.js"⟩ = true ∧
      (sampleRead.source.read ⟨"/app/D.js"⟩).toBool = false := by decide +kernel
  obtain ⟨fault, hfault⟩ : ∃ fault, sampleRead.source.read ⟨"/app/D.js"⟩ = .error fault := by
    cases hread : sampleRead.source.read ⟨"/app/D.js"⟩ with
    | ok text =>
      rw [hread] at hunread
      cases hunread
    | error fault => exact ⟨fault, rfl⟩
  have hcreated := failed_notice_leaves_no_trace sampleRead (.created ⟨"/app/D.js"⟩)
    (.fileRead ⟨"/app/D.js"⟩ fault)
  have hrenamed := failed_notice_leaves_no_trace sampleRead (.renamed ⟨"/app/C.js"⟩ ⟨"/app/D.js"⟩)
    (.fileRead ⟨"/app/D.js"⟩ fault)
  have hfails := hcreated.1.2 ⟨⟨"/app/D.js"⟩, fault, rfl, hneeds, hfault, rfl⟩
  have hfails' := hrenamed.1.2 ⟨⟨"/app/D.js"⟩, fault, rfl, hneeds', hfault, rfl⟩
  refine ⟨.fileRead ⟨"/app/D.js"⟩ fault, Prod.ext hfails ?_, Prod.ext hfails' ?_⟩
  · rw [hcreated.2 hfails, begun_created]
  · rw [hrenamed.2 hfails', begun_renamed]

end Workspace

end UiWorkspace
