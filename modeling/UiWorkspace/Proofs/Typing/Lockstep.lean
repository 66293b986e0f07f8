import UiWorkspace.Proofs.Typing.Simulation
import UiWorkspace.Proofs.Workspace.Congruence
import UiWorkspace.Typing.Resolver

/-! Types worked out in two workspaces at once. A resolver that writes down every name it looks
up finds the same types as the plain one; and where all the written names are looked up alike in
both workspaces, the two go through the same steps. -/
namespace UiWorkspace.Typing

open UiWorkspace.Script
open UiWorkspace.Workspace (Respects)

def started (key : MemoKey) (p : Progress) : Progress :=
  ⟨{ p.workspace with types := p.workspace.types.begin key },
    ⟨[key.className], false, false⟩ :: p.frames⟩

def settledMemo (memo : TypeMemo) (key : MemoKey) (type? : Option String) (frame : Frame)
    (outermost : Bool) : TypeMemo :=
  if frame.limited || (frame.cyclic && !outermost) then memo.abandon key
  else memo.finish key type? frame.dependsOn

theorem settle_run (key : MemoKey) (type? : Option String) (w : Workspace) (frame : Frame)
    (outer : List Frame) :
    settle key type? ⟨w, frame :: outer⟩ =
      ((), ⟨{ w with types := settledMemo w.types key type? frame outer.isEmpty }, outer⟩) := by
  unfold settle settledMemo
  simp only [bind_run, get_run, modify_run]
  split <;> rfl

theorem recordAll_run (names : List String) (p : Progress) :
    recordAll names p =
      ((), { p with frames := p.frames.map fun f => names.foldl (fun f name => f.record name) f }) := by
  induction names generalizing p with
  | nil =>
    have hmap : (fun f : Frame => ([] : List String).foldl (fun f name => f.record name) f) = id := rfl
    rw [hmap, List.map_id]
    rfl
  | cons name names ih =>
    unfold recordAll
    rw [bind_run, ih]
    simp only [record, updateFrames, modify_run, List.map_map, List.foldl_cons]
    rfl

theorem remember_done {key : MemoKey} {p : Progress} {type? : Option String} {dependsOn : List String}
    (h : p.workspace.types.lookup key = some (.done type? dependsOn))
    (work : Resolve (Option String)) :
    remember key work p = (type?, (recordAll dependsOn p).2) := by
  unfold remember
  simp only [bind_run, get_run, h]
  rfl

theorem remember_inProgress {key : MemoKey} {p : Progress}
    (h : p.workspace.types.lookup key = some .inProgress) (work : Resolve (Option String)) :
    remember key work p =
      (none, { p with frames := p.frames.map fun f => { f with cyclic := true } }) := by
  unfold remember
  simp only [bind_run, get_run, h]
  rfl

theorem remember_none {key : MemoKey} {p : Progress} (h : p.workspace.types.lookup key = none)
    (work : Resolve (Option String)) :
    remember key work p =
      ((work (started key p)).1,
        (settle key (work (started key p)).1 (work (started key p)).2).2) := by
  unfold remember
  simp only [bind_run, get_run, h]
  rfl

/-- Work on types that passes on the names looked up so far, latest first. -/
abbrev Logged := StateT (List String) Resolve

namespace Logged

variable {α β : Type}

def lookUp (name : String) (q : Resolve α) : Logged α := fun log p =>
  (((q p).1, name :: log), (q p).2)

def remember (key : MemoKey) (work : Logged (Option String)) : Logged (Option String) :=
  fun log p =>
    match p.workspace.types.lookup key with
    | some _ => let (type?, p) := Typing.remember key (pure none) p; ((type?, log), p)
    | none =>
      let ((type?, log), p) := work log (started key p)
      ((type?, log), (settle key type? p).2)

def surroundings (limits : Hierarchy.Limits) : Surroundings Logged where
  limits := limits
  class? name := lookUp name (Typing.class? name)
  control? controller id := lookUp controller ((Typing.surroundings limits).control? controller id)
  remember := remember
  cutOff := fun log p => (((), log), ((Typing.surroundings limits).cutOff p).2)

end Logged

/-- Related workspaces remember the same types and are told apart by no look-up of a safe class,
nor by a look-up of a control in its markup. -/
structure Lookalike (Q : Workspace → Workspace → Prop) (Safe : String → Prop) : Prop where
  settings {w v : Workspace} : Q w v → w.settings = v.settings
  types {w v : Workspace} : Q w v → w.types = v.types
  setTypes {w v : Workspace} (types : TypeMemo) : Q w v →
    Q { w with types := types } { v with types := types }
  class? (name : String) : Safe name → Respects Q (Workspace.class? name)
  control (controller id : String) : Safe controller →
    Respects Q (Workspace.controlClass? controller id)

/-- Names are only added to those written down; and where only safe ones are, both sides give
the same and leave related states. -/
structure Lockstep (Q : Workspace → Workspace → Prop) (Safe : String → Prop) {α : Type}
    (P : α → Prop) (x : Logged α) (y : Resolve α) : Prop where
  holds (log : List String) (p : Progress) : P (x log p).1.1
  grows (log : List String) (p : Progress) : log ⊆ (x log p).1.2
  same (log : List String) (p p' : Progress) : Q p.workspace p'.workspace → p.frames = p'.frames →
    (∀ name ∈ (x log p).1.2, Safe name) →
    (x log p).1.1 = (y p').1 ∧ Q (x log p).2.workspace (y p').2.workspace ∧
      (x log p).2.frames = (y p').2.frames

theorem settle_same {Q : Workspace → Workspace → Prop} {Safe : String → Prop}
    (L : Lookalike Q Safe) (key : MemoKey) (type? : Option String) {p p' : Progress}
    (hQ : Q p.workspace p'.workspace) (hframes : p.frames = p'.frames) :
    Q (settle key type? p).2.workspace (settle key type? p').2.workspace ∧
      (settle key type? p).2.frames = (settle key type? p').2.frames := by
  obtain ⟨w, frames⟩ := p
  obtain ⟨v, frames'⟩ := p'
  cases hframes
  cases frames with
  | nil => exact ⟨hQ, rfl⟩
  | cons frame outer =>
    rw [settle_run, settle_run, L.types hQ]
    exact ⟨L.setTypes _ hQ, rfl⟩

namespace Lockstep

variable {Q : Workspace → Workspace → Prop} {Safe : String → Prop} {α β : Type}

theorem ret {P : α → Prop} {a : α} (ha : P a) : Lockstep Q Safe P (pure a) (pure a) where
  holds _ _ := ha
  grows _ _ := List.Subset.refl _
  same _ _ _ hQ hframes _ := ⟨rfl, hQ, hframes⟩

theorem bind {P : α → Prop} {R : β → Prop} {x : Logged α} {y : Resolve α} {f : α → Logged β}
    {g : α → Resolve β} (hx : Lockstep Q Safe P x y)
    (hf : ∀ a, P a → Lockstep Q Safe R (f a) (g a)) : Lockstep Q Safe R (x >>= f) (y >>= g) where
  holds log p := (hf _ (hx.holds log p)).holds _ _
  grows log p := List.Subset.trans (hx.grows log p) ((hf _ (hx.holds log p)).grows _ _)
  same log p p' hQ hframes hsafe := by
    have hafter := hf _ (hx.holds log p)
    obtain ⟨hvalue, hQ', hframes'⟩ := hx.same log p p' hQ hframes fun name hname =>
      hsafe name (hafter.grows _ _ hname)
    rw [UiWorkspace.bind_run, ← hvalue]
    exact hafter.same _ _ _ hQ' hframes' hsafe

theorem step {P : α → Prop} {x : Resolve α} {y : Resolve α} (hP : ∀ p, P (x p).1)
    (hsame : ∀ p p', Q p.workspace p'.workspace → p.frames = p'.frames →
      (x p).1 = (y p').1 ∧ Q (x p).2.workspace (y p').2.workspace ∧
        (x p).2.frames = (y p').2.frames) :
    Lockstep Q Safe P (fun log p => (((x p).1, log), (x p).2)) y where
  holds _ p := hP p
  grows _ _ := List.Subset.refl _
  same _ _ _ hQ hframes _ := hsame _ _ hQ hframes

theorem lookUp {P : α → Prop} {name : String} {q : Query α} (hP : ∀ a, P a)
    (hq : Safe name → Respects Q q) :
    Lockstep Q Safe P (Logged.lookUp name (record name >>= fun _ => ask q))
      (record name >>= fun _ => ask q) where
  holds _ _ := hP _
  grows _ _ := List.subset_cons_self _ _
  same log p p' hQ hframes hsafe := by
    have hsafe := hsafe name List.mem_cons_self
    obtain ⟨hvalue, hQ'⟩ := hq hsafe p.workspace p'.workspace hQ
    refine ⟨hvalue, hQ', ?_⟩
    change p.frames.map _ = p'.frames.map _
    rw [hframes]

theorem remember (L : Lookalike Q Safe) {key : MemoKey} {x : Logged (Option String)}
    {y : Resolve (Option String)} (hwork : Lockstep Q Safe (fun _ => True) x y) :
    Lockstep Q Safe (fun _ => True) (Logged.remember key x) (Typing.remember key y) where
  holds _ _ := trivial
  grows log p := by
    unfold Logged.remember
    split
    · exact List.Subset.refl _
    · exact hwork.grows _ _
  same log p p' hQ hframes hsafe := by
    -- The memos are the same, so both sides find the same entry or both do the work.
    have htypes := L.types hQ
    unfold Logged.remember at hsafe ⊢
    cases hslot : p.workspace.types.lookup key with
    | some slot =>
      have hslot' := htypes ▸ hslot
      cases slot with
      | done type? dependsOn =>
        rw [remember_done hslot', remember_done hslot, recordAll_run, recordAll_run]
        exact ⟨rfl, hQ, congrArg (List.map _) hframes⟩
      | inProgress =>
        rw [remember_inProgress hslot', remember_inProgress hslot]
        exact ⟨rfl, hQ, congrArg (List.map _) hframes⟩
    | none =>
      rw [hslot] at hsafe
      have hslot' := htypes ▸ hslot
      have hbegun : Q (started key p).workspace (started key p').workspace := by
        unfold started
        rw [← htypes]
        exact L.setTypes _ hQ
      have hframes' : (started key p).frames = (started key p').frames :=
        congrArg (List.cons _) hframes
      obtain ⟨hvalue, hQ', hframes'⟩ := hwork.same _ _ _ hbegun hframes' hsafe
      rw [remember_none hslot', ← hvalue]
      exact ⟨rfl, settle_same L key _ hQ' hframes'⟩

end Lockstep

def lockstepSimulation {Q : Workspace → Workspace → Prop} {Safe : String → Prop}
    (L : Lookalike Q Safe) (limits : Hierarchy.Limits)
    (node : ClassDefinition → Node → Resolve (Option String)) :
    Simulation Unit (Logged.surroundings limits) (surroundings limits) fun _ => node where
  Found _ _ := True
  Rel P x y := Lockstep Q Safe P x (y ())
  limits_eq := rfl
  ret _ ha := .ret ha
  bind hx hf := .bind hx hf
  lookup _ := .lookUp (fun _ _ _ => trivial) fun hsafe => L.class? _ hsafe
  control _ _ := .lookUp (fun _ => trivial) fun hsafe => L.control _ _ hsafe
  remember _ _ hwork := .remember L hwork

section

variable {Q : Workspace → Workspace → Prop} {Safe : String → Prop} (L : Lookalike Q Safe)
  (limits : Hierarchy.Limits)

include L

theorem lockstep_cutOff (node : ClassDefinition → Node → Resolve (Option String)) :
    (lockstepSimulation L limits node).Sim (Logged.surroundings limits).cutOff
      fun _ => (surroundings limits).cutOff :=
  .step (fun _ => trivial) fun _ _ hQ hframes => ⟨rfl, hQ, congrArg (List.map _) hframes⟩

theorem lockstep_chainType (depth : Nat) (c : ClassDefinition) (chain : Chain) (offset : Nat) :
    Lockstep Q Safe (fun _ => True) (chainType (Logged.surroundings limits) depth c chain offset)
      (chainType (surroundings limits) depth c chain offset) :=
  Simulation.chainType (lockstepSimulation L limits) (fun _ _ _ _ h => h) (lockstep_cutOff L limits)
    depth c chain offset fun _ _ => pure none

theorem lockstep_nodeType (depth : Nat) (c : ClassDefinition) (n : Node) :
    Lockstep Q Safe (fun _ => True) (nodeType (chainType (Logged.surroundings limits) depth) c n)
      (nodeType (chainType (surroundings limits) depth) c n) :=
  Simulation.deepNodeType (lockstepSimulation L limits) (fun _ _ _ _ h => h) (lockstep_cutOff L limits)
    depth c n fun _ _ => pure none

theorem lockstep_memberType (depth : Nat) (kind : MemberKind) (className name : String) :
    Lockstep Q Safe (fun _ => True)
      (memberType (Logged.surroundings limits)
        (nodeType (chainType (Logged.surroundings limits) depth)) kind className name)
      (memberType (surroundings limits) (nodeType (chainType (surroundings limits) depth)) kind
        className name) :=
  Simulation.deepMemberType (lockstepSimulation L limits) (fun _ _ _ _ h => h) (lockstep_cutOff L limits)
    depth kind className name

end

theorem lookalike_eq : Lookalike Eq fun _ => True where
  settings h := h ▸ rfl
  types h := h ▸ rfl
  setTypes _ h := h ▸ rfl
  class? _ _ w v h := by subst h; exact ⟨rfl, rfl⟩
  control _ _ _ w v h := by subst h; exact ⟨rfl, rfl⟩

/-- Work that is in lockstep with some logged work gives the same in workspaces that look alike. -/
theorem respects_resolving {Q : Workspace → Workspace → Prop} (L : Lookalike Q fun _ => True)
    {α : Type} {work : Settings → Resolve α} {logged : Settings → Logged α}
    (hwork : ∀ {Q}, Lookalike Q (fun _ => True) → ∀ settings,
      Lockstep Q (fun _ => True) (fun _ => True) (logged settings) (work settings)) :
    Respects Q (Workspace.resolving work) := by
  intro w v h
  have hsettings := L.settings h
  obtain ⟨hvalue, hstate, -⟩ :=
    (hwork lookalike_eq w.settings).same [] ⟨w, []⟩ ⟨w, []⟩ rfl rfl fun _ _ => trivial
  obtain ⟨hvalue', hstate', -⟩ :=
    (hwork L w.settings).same [] ⟨w, []⟩ ⟨v, []⟩ h rfl fun _ _ => trivial
  rw [hstate] at hstate'
  unfold Workspace.resolving
  rw [← hsettings]
  exact ⟨hvalue.symm.trans hvalue', hstate'⟩

end UiWorkspace.Typing
