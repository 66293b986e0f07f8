import UiWorkspace.Proofs.Typing.MemoSoundness

/-! Marks of work in progress. Work on types begins and ends the work on each member it needs, so
that it leaves as many members being worked out as it found, and the same ones marked. Between two
requests no member is marked. -/
namespace UiWorkspace.Typing

open UiWorkspace.Script

/-- The same members are marked in both states, and as many are being worked out. -/
structure Balance (p q : Progress) : Prop where
  unique : (q.workspace.types.map Prod.fst).Nodup
  marked (key : MemoKey) : q.workspace.types.lookup key = some .inProgress ↔
    p.workspace.types.lookup key = some .inProgress
  framed : q.frames.length = p.frames.length

theorem Balance.trans {p q r : Progress} (h : Balance p q) (h' : Balance q r) : Balance p r :=
  ⟨h'.unique, fun key => (h'.marked key).trans (h.marked key), h'.framed.trans h.framed⟩

theorem Balance.settled {key : MemoKey} {p : Progress} (hnone : p.workspace.types.lookup key = none)
    {w : Workspace} {frames : List Frame} (h : Balance (started key p) ⟨w, frames⟩)
    (type? : Option String) : Balance p (settle key type? ⟨w, frames⟩).2 := by
  have hmark := (h.marked key).2 (lookup_started key p)
  cases frames with
  | nil => cases h.framed
  | cons frame outer =>
    rw [settle_run]
    refine ⟨nodup_keys_settledMemo h.unique key _ _ _, fun asked => ?_, Nat.succ.inj h.framed⟩
    change (settledMemo w.types key type? frame outer.isEmpty).lookup asked = _ ↔ _
    rw [lookup_settledMemo hmark]
    split
    next hasked =>
      rw [hasked, hnone]
      exact iff_of_false (by split <;> exact nofun) nofun
    next hasked =>
      rw [h.marked asked]
      change (p.workspace.types.begin key).lookup asked = _ ↔ _
      rw [TypeMemo.lookup_begin, if_neg hasked]

def Balanced {α : Type} (x : Resolve α) : Prop :=
  ∀ p, (p.workspace.types.map Prod.fst).Nodup → Balance p (x p).2

namespace Balanced

variable {α β : Type}

theorem ret (a : α) : Balanced (pure a) := fun _ hp => ⟨hp, fun _ => Iff.rfl, rfl⟩

theorem bind {x : Resolve α} {f : α → Resolve β} (hx : Balanced x)
    (hf : ∀ p, Balanced (f (x p).1)) : Balanced (x >>= f) := by
  intro p hp
  have hfirst := hx p hp
  rw [UiWorkspace.bind_run]
  exact hfirst.trans (hf p _ hfirst.unique)

theorem noted (g : Frame → Frame) (a : α) :
    Balanced fun p => (a, { p with frames := p.frames.map g }) :=
  fun _ hp => ⟨hp, fun _ => Iff.rfl, List.length_map g⟩

theorem lookUp {name : String} {q : Query α} (htypes : ∀ w, (q w).2.types = w.types) :
    Balanced (record name >>= fun _ => ask q) := by
  intro p hp
  rw [noted_run]
  refine ⟨?_, fun key => ?_, List.length_map _⟩
  · rw [htypes]
    exact hp
  · rw [htypes]

theorem remember (key : MemoKey) {work : Resolve (Option String)} (hwork : Balanced work) :
    Balanced (Typing.remember key work) := by
  intro p hp
  cases hslot : p.workspace.types.lookup key with
  | some slot =>
    cases slot with
    | done type? dependsOn =>
      rw [remember_done hslot, recordAll_run]
      exact noted _ type? p hp
    | inProgress =>
      rw [remember_inProgress hslot]
      exact noted _ (none : Option String) p hp
  | none =>
    rw [remember_none hslot]
    exact Balance.settled hslot (hwork (started key p) (Table.nodup_keys_put key _ hp)) _

end Balanced

theorem class?_types (name : String) (w : Workspace) : (Workspace.class? name w).2.types = w.types := by
  obtain ⟨_, _, hrun⟩ := Workspace.class?_run name w
  rw [hrun]

def balancedSimulation (limits : Hierarchy.Limits)
    (node : ClassDefinition → Node → Resolve (Option String)) :
    Simulation Unit (surroundings limits) (surroundings limits) fun _ => node where
  Found _ _ := True
  Rel P x _ := Balanced x ∧ ∀ p, P (x p).1
  limits_eq := rfl
  ret a ha := ⟨.ret a, fun _ => ha⟩
  bind hx hf := ⟨hx.1.bind fun p => (hf _ (hx.2 p)).1, fun p => (hf _ (hx.2 p)).2 _⟩
  lookup name := ⟨.lookUp (class?_types name), fun _ _ _ => trivial⟩
  control controller id := ⟨.lookUp (controlClass?_types controller id), fun _ => trivial⟩
  remember _ _ hwork := ⟨.remember _ hwork.1, fun _ => trivial⟩

section

variable (limits : Hierarchy.Limits)

theorem balanced_cutOff (node : ClassDefinition → Node → Resolve (Option String)) :
    (balancedSimulation limits node).Sim (surroundings limits).cutOff fun _ =>
      (surroundings limits).cutOff :=
  ⟨.noted _ PUnit.unit, fun _ => trivial⟩

theorem balanced_chainType (depth : Nat) (c : ClassDefinition) (chain : Chain) (offset : Nat) :
    Balanced (chainType (surroundings limits) depth c chain offset) :=
  (Simulation.chainType (balancedSimulation limits) (fun _ _ _ _ h => h) (balanced_cutOff limits)
    depth c chain offset fun _ _ => pure none).1

theorem balanced_nodeType (depth : Nat) (c : ClassDefinition) (n : Node) :
    Balanced (nodeType (chainType (surroundings limits) depth) c n) :=
  (Simulation.deepNodeType (balancedSimulation limits) (fun _ _ _ _ h => h) (balanced_cutOff limits)
    depth c n fun _ _ => pure none).1

theorem balanced_memberType (depth : Nat) (kind : MemberKind) (className name : String) :
    Balanced (memberType (surroundings limits) (nodeType (chainType (surroundings limits) depth))
      kind className name) :=
  (Simulation.deepMemberType (balancedSimulation limits) (fun _ _ _ _ h => h)
    (balanced_cutOff limits) depth kind className name).1

end

end UiWorkspace.Typing

namespace UiWorkspace.Workspace

open UiWorkspace.Markup
open UiWorkspace.Typing

/-- No member is being worked out: every entry of the memo is finished. -/
structure Resting (w : Workspace) : Prop where
  unique : (w.types.map Prod.fst).Nodup
  finished : ∀ entry ∈ w.types, entry.2 ≠ .inProgress

namespace Resting

theorem of_empty {w : Workspace} (h : w.types = TypeMemo.empty) : Resting w := by
  constructor
  · rw [h]
    exact List.nodup_nil
  · rw [h]
    exact fun _ hentry => absurd hentry List.not_mem_nil

variable {w : Workspace}

theorem congr (h : Resting w) {v : Workspace} (htypes : v.types = w.types) : Resting v :=
  ⟨htypes ▸ h.unique, htypes ▸ h.finished⟩

theorem of_sublist (h : Resting w) {v : Workspace} (htypes : v.types.Sublist w.types) : Resting v :=
  ⟨h.unique.sublist (htypes.map Prod.fst), fun entry hentry => h.finished entry (htypes.subset hentry)⟩

theorem lookup_ne (h : Resting w) (key : MemoKey) : w.types.lookup key ≠ some .inProgress :=
  fun hmark => h.finished (key, .inProgress) (Table.entry_of_lookup hmark) rfl

theorem of_balance (h : Resting w) {p : Progress} (hp : Balance ⟨w, []⟩ p) : Resting p.workspace := by
  refine ⟨hp.unique, ?_⟩
  rintro ⟨key, slot⟩ hentry rfl
  have hlookup := Table.lookup_of_mem hp.unique hentry
  exact h.lookup_ne key ((hp.marked key).1 hlookup)

theorem resolving {α : Type} {work : Settings → Resolve α}
    (hwork : ∀ settings, Balanced (work settings)) :
    Respects (Kept Resting) (Workspace.resolving work) :=
  .kept fun w h => h.of_balance (hwork w.settings ⟨w, []⟩ h.unique)

theorem stable : Stable Resting where
  probe _ _ h := h.congr rfl
  examine _ d h := of_examine (fun _ => h.congr rfl) d
  putDocument _ _ h _ _ := h.congr rfl
  setHandlers _ _ h := h.congr rfl
  class? w name h := h.congr (class?_types name w)

theorem requests : Indistinguishable (Kept Resting) where
  toCongruence := stable.congruence
  typeOfMember kind className name :=
    resolving fun settings => balanced_memberType _ settings.maxResolutionDepth kind className name
  nodeType c n := resolving fun settings => balanced_nodeType _ settings.maxResolutionDepth c n
  chainIn c chain offset :=
    resolving fun settings => balanced_chainType _ settings.maxResolutionDepth c chain offset

theorem admits : Admits Resting where
  probe _ _ h := h.congr rfl
  load _ _ h := of_keeping h (fun _ => h.congr rfl) _
  dropDocument _ _ h := h.congr rfl
  markupChanged w controllers h := h.of_sublist (invalidated_sublist controllers w.types)
  addManifest _ _ h := h.congr rfl
  removeManifest _ _ h := h.congr rfl
  resetModels _ _ := of_empty rfl
  putBuilt _ _ _ _ _ h := h.congr rfl
  forgetDerived _ _ h := h.of_sublist List.filter_sublist

theorem upheld : Upheld Resting where
  toAdmits := admits
  requests := requests
  putDocument _ _ h := h.congr rfl
  removeClass _ _ h := h.congr rfl
  clearCaches w _ := by
    have hcleared : Resting w.resetModels.clearDocuments := of_empty rfl
    exact ((admits.loadDocuments _).keeps hcleared).congr rfl
  setSource _ _ h := h.congr rfl

end Resting

theorem Reachable.resting {w : Workspace} (h : Reachable w) : Resting w :=
  Resting.upheld.holds (fun _ _ _ _ => .of_empty rfl) h

end UiWorkspace.Workspace
