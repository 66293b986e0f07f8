import UiWorkspace.Proofs.Typing.EditRuns
import UiWorkspace.Proofs.Typing.FirmEntries

/-! The depth limit and the remembered types. No type is remembered from work in which the limit cut
something off. Under two limits a question leaves the same types for the members that it leaves one
for under both, unless the one work is cut off and documents are read on the way. -/
namespace UiWorkspace.Typing

open UiWorkspace.Script
open UiWorkspace.Workspace (Learned SameView)

def Quiet {α : Type} (x : Watched α) : Prop :=
  ∀ l p, (x l p).1.2 = l ∧ (x l p).2.workspace.types = p.workspace.types ∧
    (x l p).2.frames.length = p.frames.length

namespace Quiet

variable {α β : Type}

theorem ret (a : α) : Quiet (pure a) := fun _ _ => ⟨rfl, rfl, rfl⟩

theorem bind {x : Watched α} {f : α → Watched β} (hx : Quiet x) (hf : ∀ a, Quiet (f a)) :
    Quiet (x >>= f) := by
  intro l p
  obtain ⟨hledger, htypes, hframes⟩ := hx l p
  obtain ⟨hledger', htypes', hframes'⟩ := hf (x l p).1.1 (x l p).1.2 (x l p).2
  rw [Watched.bind_run]
  exact ⟨hledger'.trans hledger, htypes'.trans htypes, hframes'.trans hframes⟩

theorem class? (limits : Hierarchy.Limits) (name : String) :
    Quiet ((Watched.surroundings limits).class? name) :=
  fun _ _ => ⟨rfl, class?_types name _, List.length_map _⟩

theorem findThrough (limits : Hierarchy.Limits) (member : String)
    {goOn : List String → String → Watched Hierarchy.Walk}
    (hgoOn : ∀ visited name, Quiet (goOn visited name)) (visited : List String) (name : String) :
    Quiet (Hierarchy.findThrough (Watched.surroundings limits).class? limits.rootClass member goOn
      visited name) := by
  unfold Hierarchy.findThrough
  split
  · exact .ret _
  · apply Quiet.bind (.class? limits name)
    intro found?
    cases found? with
    | none => exact .ret _
    | some c =>
      dsimp only
      split
      · exact .ret _
      · split
        · split
          · exact .ret _
          · exact hgoOn _ _
        · exact .ret _

theorem findMember (limits : Hierarchy.Limits) (className member : String) :
    Quiet (findMember (Watched.surroundings limits) className member) := by
  have hfrom : ∀ hops visited name, Quiet (Hierarchy.findFrom (Watched.surroundings limits).class?
      limits.rootClass member hops visited name) := by
    intro hops
    induction hops with
    | zero => exact findThrough limits member fun _ _ => .ret _
    | succ hops ih => exact findThrough limits member ih
  exact hfrom _ _ className

end Quiet

def walkedTo? (kind : MemberKind) (walk : Hierarchy.Walk) : Option (ClassDefinition × Member) := do
  let (c, index) ← walk.found?
  let member ← c.members[index]?
  if member.kind == kind then some (c, member) else none

theorem memberType_eq {m : Type → Type} [Monad m] (around : Surroundings m)
    (node : ClassDefinition → Node → m (Option String)) (kind : MemberKind) (className name : String) :
    memberType around node kind className name =
      findMember around className name >>= fun walk =>
        match walkedTo? kind walk with
        | none => pure none
        | some (c, member) => around.remember ⟨c.name, name, kind⟩ (memberWork node c member) := by
  unfold memberType
  congr 1
  funext walk
  unfold walkedTo?
  cases walk.found? with
  | none => rfl
  | some found =>
    obtain ⟨c, index⟩ := found
    dsimp only [Option.bind_eq_bind, Option.bind_some]
    cases c.members[index]? with
    | none => rfl
    | some member =>
      dsimp only [Option.bind_eq_bind, Option.bind_some]
      by_cases hkind : member.kind = kind
      · subst hkind
        simp only [bne_self_eq_false, beq_self_eq_true, Bool.false_eq_true, if_false, if_true]
        rfl
      · simp [hkind]

theorem findMember_watched (limits : Hierarchy.Limits) (className name : String) (w : Workspace) :
    ∃ v, v.types = w.types ∧
      findMember (surroundings limits) className name ⟨w, []⟩ =
        ((findMember (surroundings limits) className name ⟨w, []⟩).1, ⟨v, []⟩) ∧
      findMember (Watched.surroundings limits) className name ⟨0, []⟩ ⟨w, []⟩ =
        (((findMember (surroundings limits) className name ⟨w, []⟩).1, ⟨0, []⟩), ⟨v, []⟩) := by
  obtain ⟨hledger, htypes, hframes⟩ := Quiet.findMember limits className name ⟨0, []⟩ ⟨w, []⟩
  have herases : _ = findMember (surroundings limits) className name ⟨w, []⟩ :=
    ((booksSimulation limits fun _ _ => pure none).findMember className name).erases ⟨0, []⟩ ⟨w, []⟩
  rw [← herases]
  generalize findMember (Watched.surroundings limits) className name ⟨0, []⟩ ⟨w, []⟩ = result at *
  obtain ⟨⟨walk, l⟩, v, frames⟩ := result
  obtain rfl : frames = [] := List.eq_nil_of_length_eq_zero hframes
  cases hledger
  exact ⟨v, htypes, rfl, rfl⟩

end UiWorkspace.Typing

namespace UiWorkspace.Workspace

open UiWorkspace.Typing

def withLimit (w : Workspace) (limit : Nat) : Workspace :=
  { w with settings := { w.settings with maxResolutionDepth := limit } }

/-- The work on the type of a member, with a ledger of what was cut off. -/
def watching (w : Workspace) (kind : MemberKind) (className name : String) :
    (Option String × Ledger) × Progress :=
  Typing.memberType (Watched.surroundings w.limits)
    (Typing.nodeType (Typing.chainType (Watched.surroundings w.limits) w.settings.maxResolutionDepth))
    kind className name ⟨0, []⟩ ⟨w, []⟩

/-- What a question leaves remembered was not cut off. -/
structure KeepsNothingCut (w : Workspace) (kind : MemberKind) (className name : String) : Prop where
  same : typeOfMember kind className name w =
    ((w.watching kind className name).1.1, (w.watching kind className name).2.workspace)
  dropped : ∀ outcome ∈ (w.watching kind className name).1.2.outcomes,
    outcome.cut = true → outcome.kept = false
  noted (key : MemoKey) : remembers (typeOfMember kind className name w).2.types key = true →
    ⟨key, false, true⟩ ∈ (w.watching kind className name).1.2.outcomes

theorem typeOfMember_eq (w : Workspace) (kind : MemberKind) (className name : String) :
    typeOfMember kind className name w =
      let ran := Typing.memberType (surroundings w.limits)
        (Typing.nodeType (Typing.chainType (surroundings w.limits) w.settings.maxResolutionDepth))
        kind className name ⟨w, []⟩
      (ran.1, ran.2.workspace) := rfl

theorem typeOfMember_watched (w : Workspace) (kind : MemberKind) (className name : String) :
    typeOfMember kind className name w =
      ((w.watching kind className name).1.1, (w.watching kind className name).2.workspace) := by
  have herases := (keepsBooks_memberType w.limits w.settings.maxResolutionDepth kind className
    name).erases ⟨0, []⟩ ⟨w, []⟩
  rw [typeOfMember_eq, ← herases]
  rfl

theorem keepsNothingCut {w : Workspace} (hempty : w.types = TypeMemo.empty) (kind : MemberKind)
    (className name : String) : KeepsNothingCut w kind className name := by
  have hunique : (w.types.map Prod.fst).Nodup := by
    rw [hempty]
    exact List.nodup_nil
  have hbooked := (keepsBooks_memberType w.limits w.settings.maxResolutionDepth kind className
    name).booked ⟨0, []⟩ ⟨w, []⟩ hunique
  obtain ⟨new, hnew, hcut, hkept⟩ := hbooked.outcomes
  rw [List.append_nil] at hnew
  have hsame := typeOfMember_watched w kind className name
  refine ⟨hsame, fun outcome houtcome => hcut outcome (hnew ▸ houtcome), fun key hkey => ?_⟩
  rw [hsame] at hkey
  rcases hkept key hkey with hbefore | hnoted
  · rw [hempty] at hbefore
    cases hbefore
  · exact hnew ▸ hnoted

/-- A question either comes to no member, or it is the work on the member that it comes to. -/
theorem typeOfMember_run {w : Workspace} (hfiled : w.FiledByName) (kind : MemberKind)
    (className name : String) :
    ∃ v, v.types = w.types ∧ Learned w v ∧
      match walkedTo? kind (Typing.findMember (surroundings w.limits) className name ⟨w, []⟩).1 with
      | none => typeOfMember kind className name w = (none, v)
      | some (c, member) =>
        (typeOfMember kind className name w).2 =
            (remember ⟨c.name, name, kind⟩
              (memberWork (Typing.nodeType (Typing.chainType (surroundings w.limits)
                w.settings.maxResolutionDepth)) c member) ⟨v, []⟩).2.workspace ∧
          w.watching kind className name =
            Watched.remember ⟨c.name, name, kind⟩
              (memberWork (Typing.nodeType (Typing.chainType (Watched.surroundings w.limits)
                w.settings.maxResolutionDepth)) c member) ⟨0, []⟩ ⟨v, []⟩ := by
  obtain ⟨v, htypes, hplain, hwatched⟩ := findMember_watched w.limits className name w
  have hlearned := ((tracksSimulation hfiled).findMember className name).learned
    (p := ⟨w, []⟩) (Learned.refl w)
  change Learned w (Typing.findMember (surroundings w.limits) className name ⟨w, []⟩).2.workspace
    at hlearned
  rw [hplain] at hlearned
  refine ⟨v, htypes, hlearned, ?_⟩
  have hwatching : w.watching kind className name =
      Typing.memberType (Watched.surroundings w.limits) (Typing.nodeType (Typing.chainType
        (Watched.surroundings w.limits) w.settings.maxResolutionDepth)) kind className name ⟨0, []⟩
          ⟨w, []⟩ := rfl
  rw [typeOfMember_eq, hwatching, memberType_eq, memberType_eq, UiWorkspace.bind_run,
    Watched.bind_run, hplain, hwatched]
  dsimp only
  cases walkedTo? kind (Typing.findMember (surroundings w.limits) className name ⟨w, []⟩).1 with
  | none => rfl
  | some found => exact ⟨rfl, rfl⟩

theorem types_of_nowhere {w : Workspace} (hfiled : w.FiledByName) {kind : MemberKind}
    {className name : String}
    (hwalk : walkedTo? kind
      (Typing.findMember (surroundings w.limits) className name ⟨w, []⟩).1 = none) :
    (typeOfMember kind className name w).2.types = w.types := by
  obtain ⟨v, htypes, -, hrun⟩ := typeOfMember_run hfiled kind className name
  rw [hwalk] at hrun
  rw [hrun, htypes]

section

variable {w : Workspace} (hfiled : w.FiledByName) (hempty : w.types = TypeMemo.empty)
  {kind : MemberKind} {className name : String} {c : ClassDefinition} {member : Member}
  (hwalk : walkedTo? kind (Typing.findMember (surroundings w.limits) className name ⟨w, []⟩).1 =
    some (c, member))

include hfiled hempty hwalk

theorem cuts_eq_zero_of_remembers
    (h : remembers (typeOfMember kind className name w).2.types ⟨c.name, name, kind⟩ = true) :
    (w.watching kind className name).1.2.cuts = 0 := by
  obtain ⟨v, htypes, -, hrun⟩ := typeOfMember_run hfiled kind className name
  have hdropped := (keepsNothingCut hempty kind className name).dropped
  have hnone : v.types.lookup ⟨c.name, name, kind⟩ = none := by
    rw [htypes, hempty]
    rfl
  rw [typeOfMember_watched] at h
  rw [hwalk] at hrun
  rw [hrun.2, Watched.remember_none hnone] at hdropped h ⊢
  have hhead := hdropped _ List.mem_cons_self
  rw [h] at hhead
  exact Nat.eq_zero_of_not_pos fun hpos => Bool.noConfusion (hhead (decide_eq_true hpos))

theorem settles_of_other {key : MemoKey} (hkey : key ≠ ⟨c.name, name, kind⟩)
    (hdocuments : (typeOfMember kind className name w).2.documents = w.documents)
    {type? : Option String} {dependsOn : List String}
    (hdone : (typeOfMember kind className name w).2.types.lookup key = some (.done type? dependsOn)) :
    Settles (fun depth => (lookups w).trace depth key) type? [] := by
  obtain ⟨v, htypes, hlearned, hrun⟩ := typeOfMember_run hfiled kind className name
  rw [hwalk] at hrun
  rw [hrun.1] at hdocuments hdone
  exact firm_outermost hfiled w.settings.maxResolutionDepth hlearned (htypes.trans hempty)
    hdocuments hkey hdone

end

theorem twin_withLimit (w : Workspace) (limit limit' : Nat) :
    Twin (w.withLimit limit) (w.withLimit limit') :=
  ⟨⟨rfl, rfl, rfl, rfl, fun _ => rfl⟩, rfl⟩

theorem lookups_withLimit (w : Workspace) (limit : Nat) : lookups (w.withLimit limit) = lookups w := by
  unfold lookups
  congr 1
  funext controller id
  exact (SameView.controlsAlike.controlClass? controller id (w.withLimit limit) w
    ⟨rfl, rfl, rfl, rfl, fun _ => rfl⟩).1

theorem types_of_uncut {w : Workspace} {kind : MemberKind} {className name : String} {lower upper : Nat}
    (hle : lower ≤ upper)
    (huncut : ((w.withLimit lower).watching kind className name).1.2.cuts = 0) :
    (typeOfMember kind className name (w.withLimit lower)).2.types =
      (typeOfMember kind className name (w.withLimit upper)).2.types := by
  obtain ⟨more, rfl⟩ := Nat.exists_eq_add_of_le hle
  have hsame := (uncut_memberType w.limits more lower kind className name).same ⟨0, []⟩
    ⟨w.withLimit lower, []⟩ ⟨w.withLimit (lower + more), []⟩ (twin_withLimit w _ _) rfl huncut
  rw [typeOfMember_watched]
  exact hsame.2.1.2

theorem walk_withLimit (w : Workspace) (className name : String) (limit limit' : Nat) :
    (Typing.findMember (surroundings (w.withLimit limit).limits) className name
        ⟨w.withLimit limit, []⟩).1 =
      (Typing.findMember (surroundings (w.withLimit limit').limits) className name
        ⟨w.withLimit limit', []⟩).1 := by
  obtain ⟨v, -, -, hwatched⟩ := findMember_watched w.limits className name (w.withLimit limit)
  have huncut := (uncutSimulation w.limits fun _ _ => pure none).findMember className name
  have hsame := huncut.same ⟨0, []⟩ ⟨w.withLimit limit, []⟩ ⟨w.withLimit limit', []⟩
    (twin_withLimit w _ _) rfl (by rw [hwatched])
  rw [hwatched] at hsame
  exact hsame.1

/-- No limit lets anything be remembered that it cut off. What two limits let a question leave
remembered for the same members are the same types, if the lower one cuts nothing off or no document
is read for the question. -/
theorem depth_limit_keeps_types {w : Workspace} (hw : Reachable w) (hempty : w.types = TypeMemo.empty)
    (kind : MemberKind) (className name : String) {lower upper : Nat} (hle : lower ≤ upper)
    (hread : ((w.withLimit lower).watching kind className name).1.2.cuts = 0 ∨
      (typeOfMember kind className name (w.withLimit lower)).2.documents = w.documents ∧
        (typeOfMember kind className name (w.withLimit upper)).2.documents = w.documents) :
    (∀ key type? dependsOn type?' dependsOn',
      (typeOfMember kind className name (w.withLimit lower)).2.types.lookup key =
          some (.done type? dependsOn) →
        (typeOfMember kind className name (w.withLimit upper)).2.types.lookup key =
          some (.done type?' dependsOn') → type? = type?') ∧
      ∀ limit, KeepsNothingCut (w.withLimit limit) kind className name := by
  refine ⟨fun key type? dependsOn type?' dependsOn' hdone hdone' => ?_, fun limit =>
    keepsNothingCut (w := w.withLimit limit) hempty kind className name⟩
  have hsame_of_uncut : ((w.withLimit lower).watching kind className name).1.2.cuts = 0 →
      type? = type?' := by
    intro huncut
    rw [types_of_uncut hle huncut, hdone'] at hdone
    cases hdone
    rfl
  rcases hread with huncut | ⟨hdocuments, hdocuments'⟩
  · exact hsame_of_uncut huncut
  have hfiled : ∀ limit, (w.withLimit limit).FiledByName := fun _ => hw.orderly.filed
  have hwalks := walk_withLimit w className name lower upper
  cases hwalk : walkedTo? kind (Typing.findMember (surroundings (w.withLimit lower).limits) className
      name ⟨w.withLimit lower, []⟩).1 with
  | none =>
    have hnone : (w.withLimit lower).types = TypeMemo.empty := hempty
    rw [types_of_nowhere (hfiled lower) hwalk, hnone] at hdone
    cases hdone
  | some found =>
    obtain ⟨c, member⟩ := found
    cases hkept : remembers (typeOfMember kind className name (w.withLimit lower)).2.types
        ⟨c.name, name, kind⟩ with
    | true => exact hsame_of_uncut (cuts_eq_zero_of_remembers (hfiled lower) hempty hwalk hkept)
    | false =>
      have hkey : key ≠ ⟨c.name, name, kind⟩ := by
        rintro rfl
        rw [remembers_iff.2 ⟨_, _, hdone⟩] at hkept
        cases hkept
      have hsettles := settles_of_other (hfiled lower) hempty hwalk hkey hdocuments hdone
      have hsettles' := settles_of_other (hfiled upper) hempty (hwalks ▸ hwalk) hkey hdocuments' hdone'
      rw [lookups_withLimit] at hsettles hsettles'
      exact hsettles.unique hsettles'

/-- A method that runs another one for one of its values, and only reads a comment for the other. -/
def layeredScript : String :=
  "X.extend('App.C', \x7ba() \x7breturn x ? this.b() : this.d()\x7d, b() \x7breturn new u.B()\x7d, " ++
    "/** @returns \x7bu.B\x7d */ d() \x7b\x7d\x7d)"

def sampleLayered : Workspace := (handle (.changed ⟨"/app/C.js"⟩ layeredScript) sampleStart).2

theorem depth_limit_keeps_types_sample :
    ((sampleLayered.withLimit 1).watching .method "App.C" "a").1.2.cuts ≠ 0 ∧
      ∃ type? dependsOn type?' dependsOn',
        (typeOfMember .method "App.C" "a" (sampleLayered.withLimit 1)).2.types.lookup
          ⟨"App.C", "d", .method⟩ = some (.done type? dependsOn) ∧
        (typeOfMember .method "App.C" "a" (sampleLayered.withLimit 2)).2.types.lookup
          ⟨"App.C", "d", .method⟩ = some (.done type?' dependsOn') ∧
        type? = type?' := by
  have hw : Reachable sampleLayered := by
    unfold sampleLayered
    exact .notified _ sampleStart_reachable
  have hempty : sampleLayered.types.isEmpty = true ∧ sampleLayered.documents.isEmpty = true := by
    decide +kernel
  -- All of it is decided at once: each decision would read the class anew.
  have hruns : ((sampleLayered.withLimit 1).watching .method "App.C" "a").1.2.cuts ≠ 0 ∧
      ((typeOfMember .method "App.C" "a" (sampleLayered.withLimit 1)).2.documents.isEmpty = true ∧
        (typeOfMember .method "App.C" "a" (sampleLayered.withLimit 1)).2.types.lookup
          ⟨"App.C", "d", .method⟩ = some (.done (some "u.B") ["App.C"])) ∧
      (typeOfMember .method "App.C" "a" (sampleLayered.withLimit 2)).2.documents.isEmpty = true ∧
        (typeOfMember .method "App.C" "a" (sampleLayered.withLimit 2)).2.types.lookup
          ⟨"App.C", "d", .method⟩ = some (.done (some "u.B") ["App.C"]) := by decide +kernel
  obtain ⟨hcut, hlower, hupper⟩ := hruns
  obtain ⟨htypes, hnone⟩ := hempty
  rw [List.isEmpty_iff, ← List.isEmpty_iff.1 hnone] at hlower hupper
  exact ⟨hcut, _, _, _, _, hlower.2, hupper.2,
    (depth_limit_keeps_types hw (List.isEmpty_iff.1 htypes) .method "App.C" "a" (by decide)
      (.inr ⟨hlower.1, hupper.1⟩)).1 _ _ _ _ _ hlower.2 hupper.2⟩

end UiWorkspace.Workspace
