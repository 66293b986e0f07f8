import UiWorkspace.Proofs.Typing.CutOffs

/-! Types that were worked out completely. Work that meets no mark and is not cut off comes to the
type that the evaluation has, and this does not lead back to any member, not even inside that of
others, as long as these are not remembered. So an entry that such work leaves does not hang on what
was remembered before, nor on the limit. -/
namespace UiWorkspace.Typing

open UiWorkspace.Script
open UiWorkspace.Workspace (Learned)

section Settles

variable {α β : Type}

def Settles (y : Nat → Tracked α) (a : α) (inside : List MemoKey) : Prop :=
  ∃ enough, ∀ depth, enough ≤ depth → (y depth inside).ending = .value a

theorem Settles.bind {y : Nat → Tracked α} {g : Nat → α → Tracked β} {a : α} {b : β}
    {inside : List MemoKey} (h : Settles y a inside) (hg : Settles (fun depth => g depth a) b inside) :
    Settles (fun depth => y depth >>= g depth) b inside := by
  obtain ⟨enough, h⟩ := h
  obtain ⟨enough', hg⟩ := hg
  refine ⟨max enough enough', fun depth hdepth => ?_⟩
  beta_reduce
  rw [Tracked.bind_run, Tracked.andThen_value (h depth (by omega))]
  exact hg depth (by omega)

theorem Settles.shift {y : Nat → Tracked α} {a : α} {inside : List MemoKey}
    (h : Settles (fun depth => y (depth + 1)) a inside) : Settles y a inside := by
  obtain ⟨enough, h⟩ := h
  refine ⟨enough + 1, fun depth hdepth => ?_⟩
  obtain ⟨depth, rfl⟩ : ∃ n, depth = n + 1 := ⟨depth - 1, by omega⟩
  exact h depth (by omega)

theorem Settles.unique {y : Nat → Tracked α} {a b : α} {inside : List MemoKey}
    (h : Settles y a inside) (h' : Settles y b inside) : a = b := by
  obtain ⟨enough, h⟩ := h
  obtain ⟨enough', h'⟩ := h'
  have hvalue := h (max enough enough') (Nat.le_max_left _ _)
  rw [h' _ (Nat.le_max_right _ _)] at hvalue
  exact (Ending.value.inj hvalue).symm

end Settles

def Clear (memo : TypeMemo) (inside : List MemoKey) : Prop := ∀ key ∈ inside, remembers memo key = false

theorem Clear.of_grows {memo memo' : TypeMemo} {inside : List MemoKey} (h : Clear memo' inside)
    (hgrows : ∀ key, remembers memo key = true → remembers memo' key = true) : Clear memo inside := by
  intro key hkey
  cases hmemo : remembers memo key with
  | false => rfl
  | true =>
    have := hgrows key hmemo
    rw [h key hkey] at this
    cases this

/-- Every entry has the type that the evaluation comes to inside any members that are not
remembered. -/
structure FirmMemo (t : Lookups) (memo : TypeMemo) : Prop where
  unique : (memo.map Prod.fst).Nodup
  firm {key : MemoKey} {type? : Option String} {dependsOn : List String} :
    memo.lookup key = some (.done type? dependsOn) → ∀ inside, Clear memo inside →
      Settles (fun depth => t.trace depth key) type? inside

structure Firm (base : Workspace) {α : Type} (y : Nat → Tracked α) (p : Progress)
    (result : α × Progress) : Prop where
  balance : Balance p result.2
  memo : FirmMemo (lookups base) result.2.workspace.types
  grows (key : MemoKey) : remembers p.workspace.types key = true →
    remembers result.2.workspace.types key = true
  account : ∃ reads cyclic limited g, Notes reads cyclic limited g ∧
    result.2.frames = p.frames.map g ∧ (limited = false → cyclic = false →
      ∀ inside, Clear result.2.workspace.types inside → Settles y result.1 inside)

/-- Work that keeps all entries firm as long as no document is read for it. -/
structure TracksFirmly (base : Workspace) {α : Type} (P : α → Prop) (x : Resolve α)
    (y : Nat → Tracked α) : Prop extends Tracks base P x y where
  firm {p : Progress} : Learned base p.workspace → FirmMemo (lookups base) p.workspace.types →
    p.frames ≠ [] → (x p).2.workspace.documents = base.documents →
    p.workspace.documents = base.documents → Firm base y p (x p)

namespace TracksFirmly

variable {base : Workspace} {α β : Type}

theorem of_noted {P : α → Prop} {x : Resolve α} {y : Nat → Tracked α} (htracks : Tracks base P x y)
    (htypes : ∀ p, (x p).2.workspace.types = p.workspace.types)
    (hframes : ∀ p, ∃ reads cyclic limited g, Notes reads cyclic limited g ∧
      (x p).2.frames = p.frames.map g ∧ (limited = false → cyclic = false →
        Learned base p.workspace → p.workspace.documents = base.documents →
          ∀ inside, Settles y (x p).1 inside)) : TracksFirmly base P x y where
  toTracks := htracks
  firm {p} hp hmemo _ _ hdocuments := by
    obtain ⟨reads, cyclic, limited, g, hnotes, hmap, hsettles⟩ := hframes p
    have hsame := htypes p
    refine ⟨⟨?_, fun key => ?_, ?_⟩, ?_, fun key hkey => ?_, reads, cyclic, limited, g, hnotes, hmap, ?_⟩
    · exact hsame ▸ hmemo.unique
    · rw [hsame]
    · rw [hmap, List.length_map]
    · exact hsame ▸ hmemo
    · exact hsame ▸ hkey
    · exact fun hlimited hcyclic inside _ => hsettles hlimited hcyclic hp hdocuments inside

theorem ret {P : α → Prop} {a : α} (ha : P a) : TracksFirmly base P (pure a) fun _ => pure a :=
  .of_noted (.ret ha) (fun _ => rfl) fun _ =>
    ⟨[], false, false, id, Notes.id, (List.map_id _).symm, fun _ _ _ _ _ => ⟨0, fun _ _ => rfl⟩⟩

theorem bind {P : α → Prop} {Q : β → Prop} {x : Resolve α} {y : Nat → Tracked α}
    {f : α → Resolve β} {g : Nat → α → Tracked β} (hx : TracksFirmly base P x y)
    (hf : ∀ a, P a → TracksFirmly base Q (f a) fun depth => g depth a) :
    TracksFirmly base Q (x >>= f) fun depth => y depth >>= g depth where
  toTracks := hx.toTracks.bind fun a ha => (hf a ha).toTracks
  firm {p} hp hmemo hne hend hdocuments := by
    have hmid := hp.trans (hx.learned hp)
    have hf' := hf _ (hx.holds hp)
    rw [UiWorkspace.bind_run] at hend ⊢
    have hsame := hmid.documents_eq (hf'.learned hmid) hend
    obtain ⟨hbalance, hfirm, hgrows, reads, cyclic, limited, note, hnote, hframes, hsettles⟩ :=
      hx.firm hp hmemo hne hsame hdocuments
    have hne' : (x p).2.frames ≠ [] := by
      rw [hframes]
      exact fun h => hne (List.map_eq_nil_iff.1 h)
    obtain ⟨hbalance', hfirm', hgrows', reads', cyclic', limited', note', hnote', hframes', hsettles'⟩ :=
      hf'.firm hmid hfirm hne' hend hsame
    refine ⟨hbalance.trans hbalance', hfirm', fun key hkey => hgrows' key (hgrows key hkey), _, _, _, _,
      hnote.comp hnote', by rw [hframes', hframes, List.map_map],
      fun hlimited hcyclic inside hclear => ?_⟩
    obtain ⟨hl, hl'⟩ := Bool.or_eq_false_iff.1 hlimited
    obtain ⟨hc, hc'⟩ := Bool.or_eq_false_iff.1 hcyclic
    exact (hsettles hl hc inside (hclear.of_grows hgrows')).bind (hsettles' hl' hc' inside hclear)

theorem noted {P : α → Prop} {name : String} {q : Query α} {a : α}
    (hP : ∀ w, Learned base w → P (q w).1) (hlearned : ∀ w, Learned base w → Learned w (q w).2)
    (htypes : ∀ w, (q w).2.types = w.types)
    (hvalue : ∀ w, Learned base w → w.documents = base.documents → (q w).1 = a) :
    TracksFirmly base P (record name >>= fun _ => ask q) fun _ _ => ⟨.value a, [name]⟩ := by
  refine .of_noted (.noted hP hlearned htypes hvalue) (fun p => htypes _) fun p => ?_
  refine ⟨[name], false, false, _, Notes.record name, rfl, fun _ _ hp hdocuments inside => ?_⟩
  refine ⟨0, fun _ _ => ?_⟩
  rw [noted_run, hvalue _ hp hdocuments]

theorem cutOff (y : Nat → Tracked (Option String)) :
    TracksFirmly base (fun _ => True) ((surroundings base.limits).cutOff >>= fun _ => pure none) y :=
  .of_noted (.cutOff y) (fun _ => rfl) fun _ => ⟨[], false, true, _, Notes.cut, rfl, nofun⟩

theorem shift {P : α → Prop} {x : Resolve α} {y : Nat → Tracked α}
    (h : TracksFirmly base P x fun depth => y (depth + 1)) : TracksFirmly base P x y where
  toTracks := h.toTracks.shift
  firm hp hmemo hne hend hdocuments := by
    obtain ⟨hbalance, hfirm, hgrows, reads, cyclic, limited, g, hnotes, hframes, hsettles⟩ :=
      h.firm hp hmemo hne hend hdocuments
    exact ⟨hbalance, hfirm, hgrows, reads, cyclic, limited, g, hnotes, hframes,
      fun hlimited hcyclic inside hclear => (hsettles hlimited hcyclic inside hclear).shift⟩

end TracksFirmly

section Remember

variable {base : Workspace} {c : ClassDefinition} {name : String} {member : Member}

theorem settles_once_iff (hfound : FoundIn base c.name c) (hdeclares : Declares c name member)
    {type? : Option String} {inside : List MemoKey} :
    Settles (fun depth => (lookups base).trace depth ⟨c.name, name, member.kind⟩) type? inside ↔
      Settles (evaluatedOnce base c name member) type? inside := by
  unfold Settles
  simp only [trace_of_declares (t := lookups base) hfound.1 hdeclares]
  rfl

theorem Settles.once {type? : Option String} {inside : List MemoKey}
    (h : Settles (evaluatedWork base c member) type? (⟨c.name, name, member.kind⟩ :: inside))
    (hfresh : ⟨c.name, name, member.kind⟩ ∉ inside) :
    Settles (evaluatedOnce base c name member) type? inside := by
  obtain ⟨enough, h⟩ := h
  refine ⟨enough, fun depth hdepth => ?_⟩
  rw [evaluatedOnce_outside hfresh]
  exact h depth hdepth

theorem remembers_of_none {memo : TypeMemo} {key : MemoKey} (h : memo.lookup key = none) :
    remembers memo key = false := by
  unfold remembers
  rw [h]

theorem FirmMemo.begin {t : Lookups} {memo : TypeMemo} (h : FirmMemo t memo) {key : MemoKey}
    (hnone : memo.lookup key = none) : FirmMemo t (memo.begin key) where
  unique := Table.nodup_keys_put key _ h.unique
  firm {asked type? dependsOn} hdone inside hclear := by
    rw [TypeMemo.lookup_begin] at hdone
    split at hdone
    · cases hdone
    · refine h.firm hdone inside fun other hother => ?_
      have hother := hclear other hother
      rw [remembers_begin] at hother
      split at hother
      next hkey => rw [hkey, remembers_of_none hnone]
      next => exact hother

theorem FirmMemo.settled {t : Lookups} {memo : TypeMemo} {key : MemoKey} (h : FirmMemo t memo)
    (hmark : memo.lookup key = some .inProgress) {type? : Option String} {frame : Frame}
    {outermost : Bool} (hsettles : IsWhole frame outermost → ∀ inside,
      Clear (settledMemo memo key type? frame outermost) inside →
        Settles (fun depth => t.trace depth key) type? inside) :
    FirmMemo t (settledMemo memo key type? frame outermost) where
  unique := nodup_keys_settledMemo h.unique key type? frame outermost
  firm {asked type?' dependsOn} hdone inside hclear := by
    rw [lookup_settledMemo hmark] at hdone
    split at hdone
    next hasked =>
      split at hdone
      next hwhole =>
        cases hdone
        exact hasked ▸ hsettles hwhole inside hclear
      next => cases hdone
    next => exact h.firm hdone inside (hclear.of_grows (grows_settledMemo hmark))

theorem isWhole_inside {reads : List String} {cyclic limited : Bool} {g : Frame → Frame}
    (hnotes : Notes reads cyclic limited g) (key : MemoKey) :
    IsWhole (g ⟨[key.className], false, false⟩) false ↔ limited = false ∧ cyclic = false := by
  rw [IsWhole, hnotes.limited_eq, hnotes.cyclic_eq, Bool.false_or, Bool.false_or,
    or_iff_left Bool.false_ne_true]

/-- Whole work on a member settles what evaluating the member gives. -/
theorem Settles.whole {memo : TypeMemo} {type? : Option String} {frame : Frame} {outermost : Bool}
    (hmark : memo.lookup ⟨c.name, name, member.kind⟩ = some .inProgress)
    (hwhole : IsWhole frame outermost)
    (hsettles : ∀ inside, Clear memo inside → Settles (evaluatedWork base c member) type? inside)
    {inside : List MemoKey}
    (hclear : Clear (settledMemo memo ⟨c.name, name, member.kind⟩ type? frame outermost) inside) :
    Settles (evaluatedOnce base c name member) type? inside := by
  refine Settles.once (hsettles _ fun key hkey => ?_) fun hinside => ?_
  · rcases List.mem_cons.1 hkey with rfl | hkey
    · unfold remembers
      rw [hmark]
    · exact hclear.of_grows (grows_settledMemo hmark) key hkey
  · have hkept := hclear _ hinside
    rw [remembers_settledMemo hmark, if_pos rfl, decide_eq_true hwhole] at hkept
    cases hkept

theorem Firm.settled (hfound : FoundIn base c.name c) (hdeclares : Declares c name member)
    {p : Progress} (hne : p.frames ≠ [])
    (hslot : p.workspace.types.lookup ⟨c.name, name, member.kind⟩ = none)
    {type? : Option String} {w : Workspace} {frames : List Frame}
    (h : Firm base (evaluatedWork base c member) (started ⟨c.name, name, member.kind⟩ p)
      (type?, ⟨w, frames⟩)) :
    Firm base (evaluatedOnce base c name member) p
      (type?, (settle ⟨c.name, name, member.kind⟩ type? ⟨w, frames⟩).2) := by
  obtain ⟨hbalance, hfirm, hgrows, reads, cyclic, limited, g, hnotes, hframes, hsettles⟩ := h
  have hmark := (hbalance.marked _).2 (lookup_started ⟨c.name, name, member.kind⟩ p)
  have hafter := hbalance.settled hslot type?
  have houter : (p.frames.map g).isEmpty = false := by
    rw [List.isEmpty_eq_false_iff]
    exact fun h => hne (List.map_eq_nil_iff.1 h)
  have hwhole := isWhole_inside hnotes ⟨c.name, name, member.kind⟩
  cases hframes
  dsimp only at hmark hgrows hfirm hsettles
  change Balance p (settle _ type? ⟨w, g ⟨[c.name], false, false⟩ :: p.frames.map g⟩).2 at hafter
  change Firm base _ p (type?, (settle _ type? ⟨w, g ⟨[c.name], false, false⟩ :: p.frames.map g⟩).2)
  rw [settle_run, houter] at hafter ⊢
  refine ⟨hafter, hfirm.settled hmark fun hkept inside hclear => ?_, fun key hkey => ?_, reads, cyclic,
    limited, g, hnotes, rfl, fun hlimited hcyclic inside hclear => ?_⟩
  · obtain ⟨hlimited, hcyclic⟩ := hwhole.1 hkept
    exact (settles_once_iff hfound hdeclares).2
      (.whole hmark hkept (hsettles hlimited hcyclic) hclear)
  · refine grows_settledMemo hmark key (hgrows key ?_)
    change remembers (p.workspace.types.begin _) key = true
    rw [remembers_begin]
    split
    next hsame =>
      rw [hsame, remembers_of_none hslot] at hkey
      cases hkey
    next => exact hkey
  · exact .whole hmark (hwhole.2 ⟨hlimited, hcyclic⟩) (hsettles hlimited hcyclic) hclear

theorem TracksFirmly.remember (hfound : FoundIn base c.name c) (hdeclares : Declares c name member)
    {work : Resolve (Option String)}
    (hwork : TracksFirmly base (fun _ => True) work (evaluatedWork base c member)) :
    TracksFirmly base (fun _ => True) (Typing.remember ⟨c.name, name, member.kind⟩ work)
      (evaluatedOnce base c name member) where
  toTracks := .remember hfound hdeclares hwork.toTracks
  firm {p} hp hmemo hne hend hdocuments := by
    cases hslot : p.workspace.types.lookup ⟨c.name, name, member.kind⟩ with
    | some slot =>
      cases slot with
      | done type? dependsOn =>
        rw [remember_done hslot, recordAll_run]
        refine ⟨⟨hmemo.unique, fun _ => Iff.rfl, List.length_map _⟩, hmemo, fun _ => id, dependsOn, false,
          false, _, Notes.recordAll dependsOn, rfl, fun _ _ inside hclear => ?_⟩
        exact (settles_once_iff hfound hdeclares).1 (hmemo.firm hslot inside hclear)
      | inProgress =>
        rw [remember_inProgress hslot]
        exact ⟨⟨hmemo.unique, fun _ => Iff.rfl, List.length_map _⟩, hmemo, fun _ => id, [], true, false,
          _, Notes.mark, rfl, nofun⟩
    | none =>
      rw [remember_none hslot] at hend ⊢
      have hbegun : Learned base (started ⟨c.name, name, member.kind⟩ p).workspace := hp.setTypes _
      have hworked := hbegun.trans (hwork.learned hbegun)
      exact (hwork.firm hbegun (hmemo.begin hslot) (List.cons_ne_nil _ _)
        (hworked.documents_eq (learned_settle _ _ _) hend) hdocuments).settled hfound hdeclares hne hslot

end Remember

theorem limits_tracked (base : Workspace) :
    (surroundings base.limits).limits = (lookups base).tracked.limits := rfl

def firmSimulation {base : Workspace} (hbase : base.FiledByName) :
    Simulation Nat (surroundings base.limits) (lookups base).tracked (lookups base).trackedNode where
  Found name c := FoundIn base name c
  Rel P x y := TracksFirmly base P x y
  limits_eq := limits_tracked base
  ret _ ha := .ret ha
  bind hx hf := .bind hx hf
  lookup name := by
    refine .noted (fun w hw c hc => ?_) (fun w _ => Learned.class? name w) (class?_types name)
      fun w hw _ => ?_
    · rw [Workspace.class?_fst, hw.classNamed?] at hc
      exact ⟨hc, hbase.classNamed?_name hc⟩
    · rw [Workspace.class?_fst, hw.classNamed?]
      rfl
  control controller id :=
    .noted (fun _ _ => trivial) (fun w _ => Learned.controlClass? controller id w)
      (controlClass?_types controller id) fun w hw hdocuments =>
        (Workspace.SameView.controlsAlike.controlClass? controller id w base (hw.sameView hdocuments)).1
  remember hfound hdeclares hwork := by
    obtain ⟨hclass, hname⟩ := hfound
    subst hname
    exact .remember ⟨hclass, rfl⟩ hdeclares hwork

section Rules

variable {base : Workspace} (hbase : base.FiledByName)

include hbase

theorem firm_chainType (depth : Nat) (c : ClassDefinition) (chain : Chain) (offset : Nat) :
    TracksFirmly base (fun _ => True) (chainType (surroundings base.limits) depth c chain offset)
      fun depth => chainType (lookups base).tracked depth c chain offset := by
  induction depth generalizing c chain offset with
  | zero => exact .cutOff _
  | succ depth ih =>
    let S := firmSimulation hbase
    have hnode := S.nodeType (f := chainType (surroundings base.limits) depth)
      (g := fun depth => chainType (lookups base).tracked depth) ih
    exact .shift (S.chainTypeFrom hnode c chain offset)

theorem firm_memberWork (depth : Nat) (c : ClassDefinition) (member : Member) :
    TracksFirmly base (fun _ => True)
      (memberWork (nodeType (chainType (surroundings base.limits) depth)) c member)
      (evaluatedWork base c member) := by
  let S := firmSimulation hbase
  have hnode := S.nodeType (f := chainType (surroundings base.limits) depth)
    (g := fun depth => chainType (lookups base).tracked depth) (firm_chainType hbase depth)
  exact S.memberWork hnode c member

/-- The outermost work on a member leaves firm entries, but for that of the member itself. -/
theorem firm_outermost (depth : Nat) {c : ClassDefinition} {member : Member} {key : MemoKey}
    {p : Progress} (hp : Learned base p.workspace) (hempty : p.workspace.types = TypeMemo.empty)
    (hend : (remember key (memberWork (nodeType (chainType (surroundings base.limits) depth)) c member)
      p).2.workspace.documents = base.documents) {asked : MemoKey} (hasked : asked ≠ key)
    {type? : Option String} {dependsOn : List String}
    (hdone : (remember key (memberWork (nodeType (chainType (surroundings base.limits) depth)) c member)
      p).2.workspace.types.lookup asked = some (.done type? dependsOn)) :
    Settles (fun depth => (lookups base).trace depth asked) type? [] := by
  have hnone : p.workspace.types.lookup key = none := by
    rw [hempty]
    rfl
  have hmemo : FirmMemo (lookups base) p.workspace.types := by
    rw [hempty]
    exact ⟨List.nodup_nil, nofun⟩
  have hwork := firm_memberWork hbase depth c member
  have hbegun : Learned base (started key p).workspace := hp.setTypes _
  rw [remember_none hnone] at hend hdone
  have hlearned := hwork.learned hbegun
  have hdocuments := (hbegun.trans hlearned).documents_eq (learned_settle _ _ _) hend
  have hfirm := hwork.firm hbegun (hmemo.begin hnone) (List.cons_ne_nil _ _) hdocuments
    (hbegun.documents_eq hlearned hdocuments)
  have hmark := (hfirm.balance.marked key).2 (lookup_started key p)
  generalize memberWork (nodeType (chainType (surroundings base.limits) depth)) c member (started key p) =
    result at *
  obtain ⟨found?, w, frames⟩ := result
  cases frames with
  | nil => cases hfirm.balance.framed
  | cons frame outer =>
    rw [settle_run] at hdone
    change (settledMemo w.types key found? frame outer.isEmpty).lookup asked = _ at hdone
    rw [lookup_settledMemo hmark, if_neg hasked] at hdone
    exact hfirm.memo.firm hdone [] nofun

end Rules

end UiWorkspace.Typing
