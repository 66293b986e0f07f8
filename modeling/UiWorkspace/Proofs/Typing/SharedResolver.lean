import UiWorkspace.Proofs.Typing.Balance
import UiWorkspace.Proofs.Typing.EditRuns

/-! One resolver for a whole query. It counts the chains it is following and refuses one too many,
and it keeps the members being worked out from one task to the next. It does what a new resolver
for each task does, and when it has done a task, no chain is being followed and no member is being
worked out. -/
namespace UiWorkspace.Typing

open UiWorkspace.Script
open UiWorkspace.Workspace (Request Resting sampleClasses sampleAsked)

structure Resolver extends Progress where
  depth : Nat

def Resolver.fresh (w : Workspace) : Resolver := ⟨⟨w, []⟩, 0⟩

abbrev Counted := StateM Resolver

namespace Counted

variable {α β : Type}

def lift (x : Resolve α) : Counted α := fun r =>
  let (a, p) := x r.toProgress
  (a, ⟨p, r.depth⟩)

def remember (key : MemoKey) (work : Counted (Option String)) : Counted (Option String) := fun r =>
  match r.workspace.types.lookup key with
  | some _ => lift (Typing.remember key (pure none)) r
  | none =>
    let (type?, r) := work ⟨started key r.toProgress, r.depth⟩
    lift (settle key type? >>= fun _ => pure type?) r

def surroundings (limits : Hierarchy.Limits) : Surroundings Counted where
  limits := limits
  class? name := lift (Typing.class? name)
  control? controller id := lift ((Typing.surroundings limits).control? controller id)
  remember := remember
  cutOff := lift (Typing.surroundings limits).cutOff

/-- The type of a chain, unless `limit` chains are being followed already. Every chain that is
followed takes one of the rounds, so `limit` of them are enough. -/
def chainType (limits : Hierarchy.Limits) (limit : Nat) :
    (rounds : Nat) → ClassDefinition → Chain → Nat → Counted (Option String)
  | 0, _, _, _ => do
    (surroundings limits).cutOff
    return none
  | rounds + 1, c, chain, offset => do
    let depth := (← get).depth
    if limit ≤ depth then
      (surroundings limits).cutOff
      return none
    else
      modify fun r => { r with depth := depth + 1 }
      let type? ← chainTypeFrom (surroundings limits) (nodeType (chainType limits limit rounds)) c
        chain offset
      modify fun r => { r with depth := depth }
      return type?

/-- From `depth` chains on, the counting work gives what the plain work gives and counts as many
chains at its end. -/
structure Counts (depth : Nat) (P : α → Prop) (x : Counted α) (y : Resolve α) : Prop where
  run (p : Progress) : x ⟨p, depth⟩ = ((y p).1, ⟨(y p).2, depth⟩)
  holds (p : Progress) : P (y p).1

namespace Counts

variable {depth : Nat}

theorem lifted {P : α → Prop} {y : Resolve α} (hP : ∀ p, P (y p).1) : Counts depth P (lift y) y :=
  ⟨fun _ => rfl, hP⟩

theorem bind {P : α → Prop} {Q : β → Prop} {x : Counted α} {y : Resolve α} {f : α → Counted β}
    {g : α → Resolve β} (hx : Counts depth P x y) (hf : ∀ a, P a → Counts depth Q (f a) (g a)) :
    Counts depth Q (x >>= f) (y >>= g) := by
  refine ⟨fun p => ?_, fun p => (hf _ (hx.holds p)).holds _⟩
  rw [UiWorkspace.bind_run, UiWorkspace.bind_run, hx.run]
  exact (hf _ (hx.holds p)).run _

theorem remember (key : MemoKey) {x : Counted (Option String)} {y : Resolve (Option String)}
    (hwork : Counts depth (fun _ => True) x y) :
    Counts depth (fun _ => True) (Counted.remember key x) (Typing.remember key y) := by
  refine ⟨fun p => ?_, fun _ => trivial⟩
  unfold Counted.remember
  dsimp only
  cases hslot : p.workspace.types.lookup key with
  | some slot =>
    cases slot with
    | done type? dependsOn =>
      simp only [lift, remember_done hslot]
    | inProgress => simp only [lift, remember_inProgress hslot]
  | none =>
    rw [remember_none hslot]
    simp only [hwork.run]
    rfl

end Counts

def countsSimulation (limits : Hierarchy.Limits) (depth : Nat)
    (node : ClassDefinition → Node → Resolve (Option String)) :
    Simulation Unit (surroundings limits) (Typing.surroundings limits) fun _ => node where
  Found _ _ := True
  Rel P x y := Counts depth P x (y ())
  limits_eq := rfl
  ret _ ha := ⟨fun _ => rfl, fun _ => ha⟩
  bind hx hf := .bind hx hf
  lookup name := .lifted (y := Typing.class? name) fun _ _ _ => trivial
  control controller id :=
    .lifted (y := (Typing.surroundings limits).control? controller id) fun _ => trivial
  remember _ _ hwork := .remember _ hwork

section

variable (limits : Hierarchy.Limits) {limit : Nat}

/-- The rounds that are left make up for the chains being followed, so the limit is met when no
round is left. -/
theorem counts_chainType (rounds : Nat) {depth : Nat} (hdepth : depth + rounds = limit)
    (c : ClassDefinition) (chain : Chain) (offset : Nat) :
    Counts depth (fun _ => True) (chainType limits limit rounds c chain offset)
      (Typing.chainType (Typing.surroundings limits) rounds c chain offset) := by
  induction rounds generalizing depth c chain offset with
  | zero =>
    have hcut : Counts depth (fun _ => True) (surroundings limits).cutOff
        (Typing.surroundings limits).cutOff := .lifted fun _ => trivial
    exact hcut.bind fun _ _ => ⟨fun _ => rfl, fun _ => trivial⟩
  | succ rounds ih =>
    have hdeeper : depth + 1 + rounds = limit := by omega
    have hroom : ¬limit ≤ depth := by omega
    let S := countsSimulation limits (depth + 1)
      (nodeType (Typing.chainType (Typing.surroundings limits) rounds))
    have hnode (c : ClassDefinition) (n : Node) := S.nodeType (f := chainType limits limit rounds)
      (g := fun _ => Typing.chainType (Typing.surroundings limits) rounds) (ih hdeeper) c n
    have hchain := (S.chainTypeFrom hnode c chain offset).run
    refine ⟨fun p => ?_, fun _ => trivial⟩
    unfold chainType
    rw [UiWorkspace.bind_run, get_run]
    dsimp only
    rw [if_neg hroom]
    simp only [UiWorkspace.bind_run, modify_run, hchain]
    rfl

theorem counts_nodeType (c : ClassDefinition) (n : Node) :
    Counts 0 (fun _ => True) (nodeType (chainType limits limit limit) c n)
      (nodeType (Typing.chainType (Typing.surroundings limits) limit) c n) :=
  let S := countsSimulation limits 0 fun _ _ => pure none
  S.nodeType (f := chainType limits limit limit)
    (g := fun _ => Typing.chainType (Typing.surroundings limits) limit)
    (counts_chainType limits limit (Nat.zero_add limit)) c n

theorem counts_memberType (kind : MemberKind) (className name : String) :
    Counts 0 (fun _ => True)
      (memberType (surroundings limits) (nodeType (chainType limits limit limit)) kind className name)
      (memberType (Typing.surroundings limits)
        (nodeType (Typing.chainType (Typing.surroundings limits) limit)) kind className name) :=
  let S := countsSimulation limits 0
    (nodeType (Typing.chainType (Typing.surroundings limits) limit))
  have hnode : ∀ c n, S.Sim (nodeType (chainType limits limit limit) c n) fun _ =>
      nodeType (Typing.chainType (Typing.surroundings limits) limit) c n := counts_nodeType limits
  S.memberType hnode kind className name

end

end Counted

/-- What a query does with its resolver, and what it reads from the workspace in between. -/
inductive Task where
  | member (kind : MemberKind) (className name : String)
  | expression (c : ClassDefinition) (n : Node)
  | chain (c : ClassDefinition) (written : Chain) (offset : Nat)
  | reading (request : Request)

namespace Task

/-- The answer of a resolver that is used for this task only. -/
def answer : Task → Query (Option String)
  | member kind className name => Workspace.typeOfMember kind className name
  | expression c n => Workspace.nodeType c n
  | chain c written offset => Workspace.resolving fun settings => chainTypeIn settings c written offset
  | reading request => fun w => (none, request.leave w)

def counted (settings : Settings) (t : Task) : Counted (Option String) :=
  let limits : Hierarchy.Limits := ⟨settings.maxInheritanceHops, settings.rootClass⟩
  let chainType := Counted.chainType limits settings.maxResolutionDepth settings.maxResolutionDepth
  match t with
  | member kind className name =>
    memberType (Counted.surroundings limits) (Typing.nodeType chainType) kind className name
  | expression c n => Typing.nodeType chainType c n
  | chain c written offset => chainType c written offset
  | reading request => Counted.lift (ask fun w => (none, request.leave w))

theorem counted_fresh (t : Task) {w : Workspace} (hw : Resting w) :
    t.counted w.settings (Resolver.fresh w) = ((t.answer w).1, Resolver.fresh (t.answer w).2) ∧
      Resting (t.answer w).2 := by
  -- Balanced work leaves as many members being worked out as it found: none.
  have hwork : ∀ {x : Counted (Option String)} {y : Resolve (Option String)},
      Counted.Counts 0 (fun _ => True) x y → Balanced y →
        x (Resolver.fresh w) = ((y ⟨w, []⟩).1, Resolver.fresh (y ⟨w, []⟩).2.workspace) ∧
          Resting (y ⟨w, []⟩).2.workspace := by
    intro x y hcounts hbalanced
    have hbalance := hbalanced ⟨w, []⟩ hw.unique
    have hframes : (y ⟨w, []⟩).2.frames = [] := List.eq_nil_of_length_eq_zero hbalance.framed
    have hleft : (⟨(y ⟨w, []⟩).2, 0⟩ : Resolver) = Resolver.fresh (y ⟨w, []⟩).2.workspace :=
      congrArg (fun frames => (⟨⟨(y ⟨w, []⟩).2.workspace, frames⟩, 0⟩ : Resolver)) hframes
    exact ⟨(hcounts.run ⟨w, []⟩).trans (congrArg (Prod.mk _) hleft), hw.of_balance hbalance⟩
  cases t with
  | member kind className name =>
    exact hwork (Counted.counts_memberType _ kind className name) (balanced_memberType _ _ kind _ _)
  | expression c n => exact hwork (Counted.counts_nodeType _ c n) (balanced_nodeType _ _ c n)
  | chain c written offset =>
    exact hwork (Counted.counts_chainType _ _ (Nat.zero_add _) c written offset)
      (balanced_chainType _ _ c written offset)
  | reading request => exact ⟨rfl, Workspace.Resting.upheld.leave hw request⟩

/-- The answers of one resolver to all tasks of a query. -/
def serve : List Task → Counted (List (Option String))
  | [] => return []
  | t :: ts => do
    let type? ← t.counted (← get).workspace.settings
    return type? :: (← serve ts)

def answers : List Task → Query (List (Option String))
  | [] => return []
  | t :: ts => do
    let type? ← t.answer
    return type? :: (← answers ts)

theorem serve_fresh (tasks : List Task) {w : Workspace} (hw : Resting w) :
    serve tasks (Resolver.fresh w) = ((answers tasks w).1, Resolver.fresh (answers tasks w).2) ∧
      Resting (answers tasks w).2 := by
  induction tasks generalizing w with
  | nil => exact ⟨rfl, hw⟩
  | cons t ts ih =>
    obtain ⟨hrun, hrest⟩ := t.counted_fresh hw
    obtain ⟨hruns, hrests⟩ := ih hrest
    refine ⟨?_, hrests⟩
    have hsettings : (Resolver.fresh w).workspace.settings = w.settings := rfl
    unfold serve answers
    simp only [UiWorkspace.bind_run, get_run, hsettings, hrun, hruns]
    rfl

end Task

/-- No request leaves a member behind that is being worked out. A resolver that has served a query
is following no chain and is working out no member, like one that is new; and it has given the
answers that a new one for each task gives. -/
theorem no_work_left_over {w : Workspace} (hw : Workspace.Reachable w) :
    (∀ entry ∈ w.types, entry.2 ≠ .inProgress) ∧
    (∀ request : Request, ∀ entry ∈ (request.leave w).types, entry.2 ≠ .inProgress) ∧
    ∀ tasks : List Task,
      (Task.serve tasks (Resolver.fresh w)).2.frames = [] ∧
      (Task.serve tasks (Resolver.fresh w)).2.depth = 0 ∧
      (∀ entry ∈ (Task.serve tasks (Resolver.fresh w)).2.workspace.types, entry.2 ≠ .inProgress) ∧
      (Task.serve tasks (Resolver.fresh w)).1 = (Task.answers tasks w).1 ∧
      (Task.serve tasks (Resolver.fresh w)).2.workspace = (Task.answers tasks w).2 := by
  have hrest := hw.resting
  refine ⟨hrest.finished, fun request => (Workspace.Resting.upheld.leave hrest request).finished, ?_⟩
  intro tasks
  obtain ⟨hserved, hafter⟩ := Task.serve_fresh tasks hrest
  rw [hserved]
  exact ⟨rfl, rfl, hafter.finished, rfl, rfl⟩

/-- The second task asks about the other class, for which the first has done the work. -/
theorem no_work_left_over_sample :
    (sampleAsked sampleClasses).types.length = 2 ∧
    (∀ entry ∈ (sampleAsked sampleClasses).types, entry.2 ≠ .inProgress) ∧
    (Task.serve [.member .method "App.C" "a", .member .method "App.B" "b"]
      (Resolver.fresh sampleClasses)).1 = [some "u.A", some "u.A"] ∧
    (Task.serve [.member .method "App.C" "a", .member .method "App.B" "b"]
      (Resolver.fresh sampleClasses)).2.depth = 0 := by
  obtain ⟨_, hfinished, hserved⟩ := no_work_left_over Workspace.sampleClasses_reachable
  obtain ⟨_, hdepth, _, hanswers, _⟩ := hserved [.member .method "App.C" "a", .member .method "App.B" "b"]
  have hrun : (sampleAsked sampleClasses).types.length = 2 ∧
      (Task.answers [.member .method "App.C" "a", .member .method "App.B" "b"] sampleClasses).1 =
        [some "u.A", some "u.A"] := by decide +kernel
  exact ⟨hrun.1, hfinished _, hanswers.trans hrun.2, hdepth⟩

end UiWorkspace.Typing
