import UiWorkspace.Proofs.Typing.EditRuns

/-! The order of questions. Two sequences of questions may leave a member with different types
only if the member is needed for its own type or if a document was read on the way. -/
namespace UiWorkspace.Workspace

open UiWorkspace.Typing

def typesAsked (w : Workspace) (members : List MemoKey) : Workspace :=
  members.foldl (fun w key => (typeOfMember key.kind key.className key.member w).2) w

theorem faithful_typesAsked {base : Workspace} (hbase : base.FiledByName) {w : Workspace}
    (hw : Faithful base w) (members : List MemoKey) : Faithful base (w.typesAsked members) := by
  induction members generalizing w with
  | nil => exact hw
  | cons key members ih =>
    have hkey := (Faithful.indistinguishable hbase).typeOfMember key.kind key.className key.member
    exact ih (hkey.keeps hw)

/-- Two sequences of questions that begin with an empty memo and read no document leave the same
type for a member that is not needed for its own type. -/
theorem remembered_type_order_independent {w : Workspace} (hw : Reachable w)
    (hempty : w.types = TypeMemo.empty) {first second : List MemoKey}
    (hfirst : (w.typesAsked first).documents = w.documents)
    (hsecond : (w.typesAsked second).documents = w.documents) {key : MemoKey}
    (hfree : ¬ (lookups w).Reenters key) {type? type?' : Option String}
    {dependsOn dependsOn' : List String}
    (hdone : (w.typesAsked first).types.lookup key = some (.done type? dependsOn))
    (hdone' : (w.typesAsked second).types.lookup key = some (.done type?' dependsOn')) :
    type? = type?' := by
  have hfiled := hw.orderly.filed
  have hstart : Faithful w w := by
    refine ⟨Learned.refl w, fun _ => ?_⟩
    rw [hempty]
    exact SoundMemo.empty _
  have hmemo := (faithful_typesAsked hfiled hstart first).memo hfirst
  have hmemo' := (faithful_typesAsked hfiled hstart second).memo hsecond
  exact Sound.unique (hmemo.sound key type? dependsOn hdone)
    (hmemo'.sound key type?' dependsOn' hdone') hfree

theorem remembered_type_order_independent_sample :
    ∃ type? dependsOn type?' dependsOn',
      (sampleClasses.typesAsked [⟨"App.C", "a", .method⟩]).types.lookup ⟨"App.C", "a", .method⟩ =
        some (.done type? dependsOn) ∧
      (sampleClasses.typesAsked [⟨"App.B", "b", .method⟩, ⟨"App.C", "a", .method⟩]).types.lookup
        ⟨"App.C", "a", .method⟩ = some (.done type?' dependsOn') ∧
      "App.B" ∈ dependsOn ∧ type? = type?' := by
  have hrun : (sampleClasses.types.isEmpty = true ∧ sampleClasses.documents.isEmpty = true) ∧
      ((sampleClasses.typesAsked [⟨"App.C", "a", .method⟩]).documents.isEmpty = true ∧
        (sampleClasses.typesAsked [⟨"App.C", "a", .method⟩]).types.lookup ⟨"App.C", "a", .method⟩ =
          some (.done (some "u.A") ["App.B", "App.C"])) ∧
      ((sampleClasses.typesAsked [⟨"App.B", "b", .method⟩, ⟨"App.C", "a", .method⟩]).documents.isEmpty =
          true ∧
        (sampleClasses.typesAsked [⟨"App.B", "b", .method⟩, ⟨"App.C", "a", .method⟩]).types.lookup
          ⟨"App.C", "a", .method⟩ = some (.done (some "u.A") ["App.B", "App.C"])) ∧
      ((lookups sampleClasses).trace 2 ⟨"App.C", "a", .method⟩ []).ending.isValue = true := by
    decide +kernel
  obtain ⟨⟨htypes, hdocuments⟩, ⟨hfirst, hdone⟩, ⟨hsecond, hdone'⟩, hvalue⟩ := hrun
  rw [List.isEmpty_iff, ← List.isEmpty_iff.1 hdocuments] at hfirst hsecond
  exact ⟨_, _, _, _, hdone, hdone', by simp, remembered_type_order_independent sampleClasses_reachable
    (List.isEmpty_iff.1 htypes) hfirst hsecond (Lookups.not_reenters_of_value hvalue) hdone hdone'⟩

end UiWorkspace.Workspace
