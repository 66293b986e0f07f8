import UiWorkspace.Proofs.Typing.Account

/-! Every remembered type is sound. The work on a member begins with a mark and ends with an
entry, or with none if its type is only partial; between the two the tracked evaluation accounts
for it. -/
namespace UiWorkspace.Typing

open UiWorkspace.Script
open UiWorkspace.Workspace (Learned)

theorem lookup_started (key : MemoKey) (p : Progress) :
    (started key p).workspace.types.lookup key = some .inProgress := by
  change (p.workspace.types.begin key).lookup key = _
  rw [TypeMemo.lookup_begin, if_pos rfl]

def IsWhole (frame : Frame) (outermost : Bool) : Prop :=
  frame.limited = false ∧ (frame.cyclic = false ∨ outermost = true)

instance (frame : Frame) (outermost : Bool) : Decidable (IsWhole frame outermost) :=
  inferInstanceAs (Decidable (_ ∧ _))

theorem lookup_settledMemo {memo : TypeMemo} {key : MemoKey} (hmark : memo.lookup key = some .inProgress)
    (type? : Option String) (frame : Frame) (outermost : Bool) (asked : MemoKey) :
    (settledMemo memo key type? frame outermost).lookup asked =
      if asked = key then
        if IsWhole frame outermost then some (.done type? frame.dependsOn) else none
      else memo.lookup asked := by
  have habandon : memo.abandon key = Table.erase key memo := if_pos hmark
  obtain ⟨dependsOn, cyclic, limited⟩ := frame
  unfold settledMemo TypeMemo.finish IsWhole
  rw [habandon]
  cases limited <;> cases cyclic <;> cases outermost <;>
    simp [Table.lookup_put, Table.lookup_erase]

theorem nodup_keys_settledMemo {memo : TypeMemo} (h : (memo.map Prod.fst).Nodup) (key : MemoKey)
    (type? : Option String) (frame : Frame) (outermost : Bool) :
    ((settledMemo memo key type? frame outermost).map Prod.fst).Nodup := by
  unfold settledMemo TypeMemo.abandon
  split
  · split
    · exact Table.nodup_keys_filter _ h
    · exact h
  · exact Table.nodup_keys_put key _ h

theorem findMember_tracked {t : Lookups} {c : ClassDefinition} {name : String} {index : Nat}
    (hclass : t.class? c.name = some c)
    (hindex : (c.members.findIdx? fun f => f.name == name) = some index) (inside : List MemoKey) :
    findMember t.tracked c.name name inside = ⟨.value ⟨some (c, index), [c.name]⟩, [c.name]⟩ := by
  have hthrough : ∀ goOn, Hierarchy.findThrough t.tracked.class? t.limits.rootClass name goOn []
      c.name inside = ⟨.value ⟨some (c, index), [c.name]⟩, [c.name]⟩ := by
    intro goOn
    unfold Hierarchy.findThrough
    rw [if_neg (by simp), Tracked.bind_run]
    simp only [Lookups.tracked, hclass, Tracked.andThen, hindex, List.nil_append]
    rfl
  unfold findMember Hierarchy.findMember
  cases hhops : t.tracked.limits.maxHops with
  | zero => exact hthrough _
  | succ hops => exact hthrough _

/-- The evaluation of a member reads the class that declares it and then works the type out. -/
theorem trace_of_declares {t : Lookups} {c : ClassDefinition} {name : String} {member : Member}
    (hclass : t.class? c.name = some c) (hdeclares : Declares c name member) (depth : Nat)
    (inside : List MemoKey) :
    t.trace depth ⟨c.name, name, member.kind⟩ inside =
      ⟨(t.tracked.remember ⟨c.name, name, member.kind⟩
          (memberWork (t.trackedNode depth) c member) inside).ending,
        c.name :: (t.tracked.remember ⟨c.name, name, member.kind⟩
          (memberWork (t.trackedNode depth) c member) inside).reads⟩ := by
  obtain ⟨index, hindex, hmember⟩ := hdeclares
  unfold Lookups.trace memberType
  rw [Tracked.bind_run, findMember_tracked hclass hindex]
  simp only [Tracked.andThen, hmember, bne_self_eq_false, Bool.false_eq_true, if_false]
  rfl

section Remember

variable {base : Workspace} {c : ClassDefinition} {name : String} {member : Member}

def evaluatedWork (base : Workspace) (c : ClassDefinition) (member : Member) (depth : Nat) :
    Tracked (Option String) :=
  memberWork ((lookups base).trackedNode depth) c member

def evaluatedOnce (base : Workspace) (c : ClassDefinition) (name : String) (member : Member)
    (depth : Nat) : Tracked (Option String) :=
  (lookups base).tracked.remember ⟨c.name, name, member.kind⟩ (evaluatedWork base c member depth)

theorem evaluatedOnce_inside {inside : List MemoKey}
    (h : ⟨c.name, name, member.kind⟩ ∈ inside) (depth : Nat) :
    evaluatedOnce base c name member depth inside = ⟨.reentered, []⟩ := if_pos h

theorem evaluatedOnce_outside {inside : List MemoKey}
    (h : ⟨c.name, name, member.kind⟩ ∉ inside) (depth : Nat) :
    evaluatedOnce base c name member depth inside =
      evaluatedWork base c member depth (⟨c.name, name, member.kind⟩ :: inside) := if_neg h

theorem leadsBack_inside {inside : List MemoKey} (h : ⟨c.name, name, member.kind⟩ ∈ inside)
    (reads : List String) : LeadsBack (evaluatedOnce base c name member) reads inside := by
  refine ⟨0, fun depth _ => ?_⟩
  rw [evaluatedOnce_inside h]
  exact ⟨rfl, List.nil_subset _⟩

theorem Account.once {inside : List MemoKey} {type? : Option String} {reads : List String}
    {cyclic limited : Bool}
    (h : Account (evaluatedWork base c member) (⟨c.name, name, member.kind⟩ :: inside) type? reads
      cyclic limited) :
    Account (evaluatedOnce base c name member) inside type? reads cyclic limited := by
  constructor
  · intro hlimited hcyclic inside' hinside
    by_cases hkey : ⟨c.name, name, member.kind⟩ ∈ inside'
    · exact leadsBack_inside hkey reads
    · obtain ⟨enough, hwork⟩ := h.leadsBack hlimited hcyclic _ (List.cons_subset_cons _ hinside)
      refine ⟨enough, fun depth hdepth => ?_⟩
      rw [evaluatedOnce_outside hkey]
      exact hwork depth hdepth
  · intro hlimited hcyclic inside'
    by_cases hkey : ⟨c.name, name, member.kind⟩ ∈ inside'
    · exact (leadsBack_inside hkey reads).comesTo type?
    · obtain ⟨enough, hwork⟩ := h.comesTo hlimited hcyclic (⟨c.name, name, member.kind⟩ :: inside')
      refine ⟨enough, fun depth hdepth => ?_⟩
      rw [evaluatedOnce_outside hkey]
      exact hwork depth hdepth

theorem Sound.comesTo (hfound : FoundIn base c.name c) (hdeclares : Declares c name member)
    {type? : Option String} {dependsOn : List String}
    (h : Sound (lookups base) ⟨c.name, name, member.kind⟩ type? dependsOn) (inside : List MemoKey) :
    ComesTo (evaluatedOnce base c name member) type? dependsOn inside := by
  obtain ⟨enough, h⟩ := h inside
  refine ⟨enough, fun depth hdepth => ?_⟩
  obtain ⟨hend, hreads⟩ := h depth hdepth
  beta_reduce at hend hreads
  rw [trace_of_declares (t := lookups base) hfound.1 hdeclares] at hend hreads
  exact ⟨hend, (List.cons_subset.1 hreads).2⟩

theorem Sound.of_comesTo (hfound : FoundIn base c.name c) (hdeclares : Declares c name member)
    {type? : Option String} {dependsOn : List String} (hself : c.name ∈ dependsOn)
    (h : ∀ inside, ComesTo (evaluatedOnce base c name member) type? dependsOn inside) :
    Sound (lookups base) ⟨c.name, name, member.kind⟩ type? dependsOn := by
  intro inside
  obtain ⟨enough, h⟩ := h inside
  refine ⟨enough, fun depth hdepth => ?_⟩
  beta_reduce
  rw [trace_of_declares (t := lookups base) hfound.1 hdeclares]
  exact ⟨(h depth hdepth).1, List.cons_subset.2 ⟨hself, (h depth hdepth).2⟩⟩

/-- The outermost work keeps its type even if it met a mark: then the mark was its own, and the
evaluation leads back to it wherever it takes place. -/
theorem Account.sound (hfound : FoundIn base c.name c) (hdeclares : Declares c name member)
    {inside : List MemoKey} {type? : Option String} {reads dependsOn : List String}
    {cyclic limited : Bool}
    (h : Account (evaluatedOnce base c name member) inside type? reads cyclic limited)
    (hreads : reads ⊆ dependsOn) (hself : c.name ∈ dependsOn) (hlimited : limited = false)
    (hwhole : cyclic = false ∨ inside = []) :
    Sound (lookups base) ⟨c.name, name, member.kind⟩ type? dependsOn := by
  apply Sound.of_comesTo hfound hdeclares hself
  intro inside'
  have hcomes : ComesTo (evaluatedOnce base c name member) type? reads inside' := by
    cases hcyclic : cyclic with
    | false => exact h.comesTo hlimited hcyclic inside'
    | true =>
      have hinside : inside = [] := hwhole.resolve_left (by rw [hcyclic]; exact Bool.noConfusion)
      subst hinside
      exact (h.leadsBack hlimited hcyclic inside' (List.nil_subset _)).comesTo type?
  obtain ⟨enough, hcomes⟩ := hcomes
  exact ⟨enough, fun depth hdepth =>
    ⟨(hcomes depth hdepth).1, List.Subset.trans (hcomes depth hdepth).2 hreads⟩⟩

theorem SoundMemo.begin {t : Lookups} {inside : List MemoKey} {memo : TypeMemo}
    (h : SoundMemo t inside memo) (key : MemoKey) : SoundMemo t (key :: inside) (memo.begin key) where
  unique := Table.nodup_keys_put key _ h.unique
  sound asked type? dependsOn hdone := by
    rw [TypeMemo.lookup_begin] at hdone
    split at hdone
    · cases hdone
    · exact h.sound asked type? dependsOn hdone
  marked asked := by
    rw [TypeMemo.lookup_begin, List.mem_cons]
    split
    next hasked => exact iff_of_true rfl (.inl hasked)
    next hasked => rw [h.marked asked, or_iff_right hasked]

theorem SoundMemo.settled {t : Lookups} {inside : List MemoKey} {memo : TypeMemo} {key : MemoKey}
    (h : SoundMemo t (key :: inside) memo) (hfresh : key ∉ inside) {type? : Option String}
    {frame : Frame} {outermost : Bool}
    (hsound : IsWhole frame outermost → Sound t key type? frame.dependsOn) :
    SoundMemo t inside (settledMemo memo key type? frame outermost) := by
  have hmark := (h.marked key).2 List.mem_cons_self
  refine ⟨nodup_keys_settledMemo h.unique key type? frame outermost, ?_, ?_⟩
  · intro asked type?' dependsOn hdone
    rw [lookup_settledMemo hmark] at hdone
    split at hdone
    next hasked =>
      split at hdone
      next hwhole =>
        cases hdone
        exact hasked ▸ hsound hwhole
      next => cases hdone
    next => exact h.sound asked type?' dependsOn hdone
  · intro asked
    rw [lookup_settledMemo hmark]
    split
    next hasked =>
      refine iff_of_false ?_ (hasked ▸ hfresh)
      split <;> exact nofun
    next hasked => rw [h.marked asked, List.mem_cons, or_iff_right hasked]

theorem Sync.started {inside : List MemoKey} {p : Progress} (h : Sync base inside p) (key : MemoKey) :
    Sync base (key :: inside) (started key p) :=
  ⟨h.learned.setTypes _, h.documents, h.memo.begin key, congrArg Nat.succ h.framed⟩

theorem Sync.settled {inside : List MemoKey} {key : MemoKey} (hfresh : key ∉ inside)
    {w : Workspace} {frame : Frame} {outer : List Frame}
    (h : Sync base (key :: inside) ⟨w, frame :: outer⟩) {type? : Option String}
    (hsound : IsWhole frame outer.isEmpty → Sound (lookups base) key type? frame.dependsOn) :
    Sync base inside (settle key type? ⟨w, frame :: outer⟩).2 := by
  rw [settle_run]
  exact ⟨h.learned.setTypes _, h.documents, h.memo.settled hfresh hsound, Nat.succ.inj h.framed⟩

theorem learned_settle (key : MemoKey) (type? : Option String) (p : Progress) :
    Learned p.workspace (settle key type? p).2.workspace := by
  obtain ⟨w, frames⟩ := p
  cases frames with
  | nil => exact Learned.refl w
  | cons frame outer =>
    rw [settle_run]
    exact (Learned.refl w).setTypes _

theorem accounted_entered (hfound : FoundIn base c.name c) (hdeclares : Declares c name member)
    {inside : List MemoKey} {p : Progress} (hsync : Sync base inside p) {type? : Option String}
    {dependsOn : List String} (hslot : p.workspace.types.lookup ⟨c.name, name, member.kind⟩ =
      some (.done type? dependsOn)) (work : Resolve (Option String)) :
    Accounted base (evaluatedOnce base c name member) inside p
      (Typing.remember ⟨c.name, name, member.kind⟩ work p) := by
  rw [remember_done hslot, recordAll_run]
  refine ⟨hsync.mapFrames _, dependsOn, false, false, _, Notes.recordAll dependsOn, rfl, nofun, ?_⟩
  exact fun _ _ inside' => (hsync.memo.sound _ _ _ hslot).comesTo hfound hdeclares inside'

theorem accounted_marked {inside : List MemoKey} {p : Progress} (hsync : Sync base inside p)
    (hslot : p.workspace.types.lookup ⟨c.name, name, member.kind⟩ = some .inProgress)
    (work : Resolve (Option String)) :
    Accounted base (evaluatedOnce base c name member) inside p
      (Typing.remember ⟨c.name, name, member.kind⟩ work p) := by
  have hinside := (hsync.memo.marked _).1 hslot
  rw [remember_inProgress hslot]
  refine ⟨hsync.mapFrames _, [], true, false, _, Notes.mark, rfl, ?_, nofun⟩
  exact fun _ _ inside' hsub => leadsBack_inside (hsub hinside) []

theorem learned_worked {p : Progress} {key : MemoKey} {work : Resolve (Option String)}
    (hwork : Learned (started key p).workspace (work (started key p)).2.workspace)
    (hslot : p.workspace.types.lookup key = none) :
    Learned p.workspace (Typing.remember key work p).2.workspace := by
  have hbegun : Learned p.workspace (started key p).workspace := (Learned.refl _).setTypes _
  rw [remember_none hslot]
  exact (hbegun.trans hwork).trans (learned_settle _ _ _)

/-- The work goes on inside the member, with a mark and a frame of its own; a type that is not
partial is entered with the classes noted in this frame. -/
theorem accounted_worked (hfound : FoundIn base c.name c) (hdeclares : Declares c name member)
    {inside : List MemoKey} {p : Progress} (hsync : Sync base inside p)
    (hslot : p.workspace.types.lookup ⟨c.name, name, member.kind⟩ = none)
    {work : Resolve (Option String)}
    (hwork : Accounted base (evaluatedWork base c member) (⟨c.name, name, member.kind⟩ :: inside)
      (started ⟨c.name, name, member.kind⟩ p) (work (started ⟨c.name, name, member.kind⟩ p))) :
    Accounted base (evaluatedOnce base c name member) inside p
      (Typing.remember ⟨c.name, name, member.kind⟩ work p) := by
  have hfresh : ⟨c.name, name, member.kind⟩ ∉ inside := by
    rw [← hsync.memo.marked, hslot]
    exact nofun
  obtain ⟨hsync', reads, cyclic, limited, g, hnotes, hframes, haccount⟩ := hwork
  rw [remember_none hslot]
  generalize work (started ⟨c.name, name, member.kind⟩ p) = result at *
  obtain ⟨type?, w, frames⟩ := result
  cases hframes
  have honce := haccount.once
  refine ⟨hsync'.settled hfresh fun hwhole => ?_, reads, cyclic, limited, g, hnotes, ?_, honce⟩
  · obtain ⟨hlimited, hcyclic⟩ := hwhole
    rw [hnotes.limited_eq, Bool.false_or] at hlimited
    rw [hnotes.cyclic_eq, Bool.false_or] at hcyclic
    refine honce.sound hfound hdeclares (hnotes.notes _) (hnotes.keeps _ List.mem_cons_self)
      hlimited (hcyclic.imp_right fun hempty => ?_)
    have hframes : p.frames = [] := List.map_eq_nil_iff.1 (List.isEmpty_iff.1 hempty)
    exact List.length_eq_zero_iff.1 (by rw [← hsync.framed, hframes, List.length_nil])
  · change (settle _ _ ⟨w, g _ :: p.frames.map g⟩).2.frames = _
    rw [settle_run]

/-- Remembering the type of a member is accounted for by evaluating it. -/
theorem Tracks.remember (hfound : FoundIn base c.name c) (hdeclares : Declares c name member)
    {work : Resolve (Option String)}
    (hwork : Tracks base (fun _ => True) work (evaluatedWork base c member)) :
    Tracks base (fun _ => True) (Typing.remember ⟨c.name, name, member.kind⟩ work)
      (evaluatedOnce base c name member) where
  holds _ := trivial
  learned {p} hp := by
    cases hslot : p.workspace.types.lookup ⟨c.name, name, member.kind⟩ with
    | none => exact learned_worked (hwork.learned (hp.setTypes _)) hslot
    | some slot =>
      cases slot with
      | done type? dependsOn =>
        rw [remember_done hslot, recordAll_run]
        exact Learned.refl _
      | inProgress =>
        rw [remember_inProgress hslot]
        exact Learned.refl _
  accounted {p inside} hsync hend := by
    cases hslot : p.workspace.types.lookup ⟨c.name, name, member.kind⟩ with
    | none =>
      have hbegun := hsync.started ⟨c.name, name, member.kind⟩
      have hlearned := hwork.learned hbegun.learned
      rw [remember_none hslot] at hend
      have hdocuments := (hbegun.learned.trans hlearned).documents_eq (learned_settle _ _ _) hend
      exact accounted_worked hfound hdeclares hsync hslot (hwork.accounted hbegun hdocuments)
    | some slot =>
      cases slot with
      | done type? dependsOn => exact accounted_entered hfound hdeclares hsync hslot work
      | inProgress => exact accounted_marked hsync hslot work

end Remember

def tracksSimulation {base : Workspace} (hbase : base.FiledByName) :
    Simulation Nat (surroundings base.limits) (lookups base).tracked (lookups base).trackedNode where
  Found name c := FoundIn base name c
  Rel P x y := Tracks base P x y
  limits_eq := rfl
  ret _ ha := .ret ha
  bind hx hf := .bind hx hf
  lookup name := tracks_class? hbase name
  control controller id := tracks_control? base.limits controller id
  remember hfound hdeclares hwork := by
    obtain ⟨hclass, hname⟩ := hfound
    subst hname
    exact .remember ⟨hclass, rfl⟩ hdeclares hwork

section Rules

variable {base : Workspace} (hbase : base.FiledByName)

theorem Account.shift {α : Type} {y : Nat → Tracked α} {inside : List MemoKey} {a : α}
    {reads : List String} {cyclic limited : Bool}
    (h : Account (fun depth => y (depth + 1)) inside a reads cyclic limited) :
    Account y inside a reads cyclic limited := by
  constructor
  · intro hlimited hcyclic inside' hinside
    obtain ⟨enough, h⟩ := h.leadsBack hlimited hcyclic inside' hinside
    refine ⟨enough + 1, fun depth hdepth => ?_⟩
    obtain ⟨depth, rfl⟩ : ∃ n, depth = n + 1 := ⟨depth - 1, by omega⟩
    exact h depth (by omega)
  · intro hlimited hcyclic inside'
    obtain ⟨enough, h⟩ := h.comesTo hlimited hcyclic inside'
    refine ⟨enough + 1, fun depth hdepth => ?_⟩
    obtain ⟨depth, rfl⟩ : ∃ n, depth = n + 1 := ⟨depth - 1, by omega⟩
    exact h depth (by omega)

theorem Tracks.shift {α : Type} {P : α → Prop} {x : Resolve α} {y : Nat → Tracked α}
    (h : Tracks base P x fun depth => y (depth + 1)) : Tracks base P x y where
  holds := h.holds
  learned := h.learned
  accounted hsync hend := by
    obtain ⟨hsync', reads, cyclic, limited, g, hnotes, hframes, haccount⟩ := h.accounted hsync hend
    exact ⟨hsync', reads, cyclic, limited, g, hnotes, hframes, haccount.shift⟩

theorem Tracks.cutOff (y : Nat → Tracked (Option String)) :
    Tracks base (fun _ => True) ((surroundings base.limits).cutOff >>= fun _ => pure none) y where
  holds _ := trivial
  learned _ := Learned.refl _
  accounted {p inside} hsync _ := by
    exact ⟨hsync.mapFrames _, [], false, true, _, Notes.cut, rfl, Account.limited _ _ _ _ _⟩

include hbase

theorem tracks_chainType (depth : Nat) (c : ClassDefinition) (chain : Chain) (offset : Nat) :
    Tracks base (fun _ => True) (chainType (surroundings base.limits) depth c chain offset)
      fun depth => chainType (lookups base).tracked depth c chain offset := by
  induction depth generalizing c chain offset with
  | zero => exact Tracks.cutOff _
  | succ depth ih =>
    let S := tracksSimulation hbase
    have hnode := S.nodeType (f := chainType (surroundings base.limits) depth)
      (g := fun depth => chainType (lookups base).tracked depth) ih
    exact Tracks.shift (S.chainTypeFrom hnode c chain offset)

theorem tracks_nodeType (depth : Nat) (c : ClassDefinition) (n : Node) :
    Tracks base (fun _ => True) (nodeType (chainType (surroundings base.limits) depth) c n)
      fun depth => (lookups base).trackedNode depth c n :=
  (tracksSimulation hbase).nodeType (f := chainType (surroundings base.limits) depth)
    (g := fun depth => chainType (lookups base).tracked depth) (tracks_chainType hbase depth) c n

theorem tracks_memberType (depth : Nat) (kind : MemberKind) (className name : String) :
    Tracks base (fun _ => True)
      (memberType (surroundings base.limits) (nodeType (chainType (surroundings base.limits) depth))
        kind className name)
      fun depth => memberType (lookups base).tracked ((lookups base).trackedNode depth) kind
        className name :=
  (tracksSimulation hbase).memberType (tracks_nodeType hbase depth) kind className name

end Rules

/-- Sound entries for a member that is not needed for its own type have the same type. -/
theorem Sound.unique {t : Lookups} {key : MemoKey} {type? type?' : Option String}
    {dependsOn dependsOn' : List String} (h : Sound t key type? dependsOn)
    (h' : Sound t key type?' dependsOn') (hfree : ¬ t.Reenters key) : type? = type?' := by
  obtain ⟨enough, h⟩ := h []
  obtain ⟨enough', h'⟩ := h' []
  have hvalue := (h (max enough enough') (Nat.le_max_left _ _)).1.resolve_right
    fun hreentered => hfree ⟨_, hreentered⟩
  have hvalue' := (h' (max enough enough') (Nat.le_max_right _ _)).1.resolve_right
    fun hreentered => hfree ⟨_, hreentered⟩
  exact Ending.value.inj (hvalue.symm.trans hvalue')

theorem Sound.of_agreeOff {changed : String} {t u : Lookups} (h : Lookups.AgreeOff changed t u)
    {key : MemoKey} {type? : Option String} {dependsOn : List String}
    (hsound : Sound t key type? dependsOn) (hunread : changed ∉ dependsOn) :
    Sound u key type? dependsOn := by
  intro inside
  obtain ⟨enough, hsound⟩ := hsound inside
  refine ⟨enough, fun depth hdepth => ?_⟩
  obtain ⟨hend, hreads⟩ := hsound depth hdepth
  beta_reduce at hend hreads ⊢
  rw [Lookups.trace_of_agreeOff h depth key inside fun hread => hunread (hreads hread)]
  exact ⟨hend, hreads⟩

theorem SoundMemo.invalidate {changed : String} {t u : Lookups} (h : Lookups.AgreeOff changed t u)
    {memo : TypeMemo} (hmemo : SoundMemo t [] memo) : SoundMemo u [] (memo.invalidate changed) where
  unique := Table.nodup_keys_filter _ hmemo.unique
  sound key type? dependsOn hdone := by
    rw [TypeMemo.invalidate, Table.lookup_filter _ hmemo.unique, Option.filter_eq_some_iff] at hdone
    obtain ⟨hdone, hsurvives⟩ := hdone
    simp only [TypeMemo.survives, Bool.and_eq_true, Bool.not_eq_true', List.contains_eq_mem,
      decide_eq_false_iff_not] at hsurvives
    exact (hmemo.sound key type? dependsOn hdone).of_agreeOff h hsurvives.2
  marked key := by
    refine iff_of_false (fun hmark => ?_) List.not_mem_nil
    rw [TypeMemo.invalidate, Table.lookup_filter _ hmemo.unique, Option.filter_eq_some_iff] at hmark
    exact List.not_mem_nil ((hmemo.marked key).1 hmark.1)

end UiWorkspace.Typing
