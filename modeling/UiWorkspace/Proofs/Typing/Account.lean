import UiWorkspace.Proofs.Typing.Lockstep
import UiWorkspace.Proofs.Typing.Tracked
import UiWorkspace.Proofs.Workspace.Reachable

/-! Work that remembers types, accounted for by the tracked evaluation. The work notes every
class that the evaluation reads. Unless it was cut off, it comes to the type the evaluation has,
or the evaluation leads back to a member that is being evaluated. -/
namespace UiWorkspace.Typing

open UiWorkspace.Script
open UiWorkspace.Workspace (Learned)

section Account

variable {α β : Type}

/-- From some depth on the evaluation leads back to a member being evaluated. -/
def LeadsBack (y : Nat → Tracked α) (reads : List String) (inside : List MemoKey) : Prop :=
  ∃ enough, ∀ depth, enough ≤ depth →
    (y depth inside).ending = .reentered ∧ (y depth inside).reads ⊆ reads

/-- From some depth on the evaluation has the value, unless it leads back. -/
def ComesTo (y : Nat → Tracked α) (a : α) (reads : List String) (inside : List MemoKey) : Prop :=
  ∃ enough, ∀ depth, enough ≤ depth →
    ((y depth inside).ending = .value a ∨ (y depth inside).ending = .reentered) ∧
      (y depth inside).reads ⊆ reads

theorem LeadsBack.comesTo {y : Nat → Tracked α} {reads : List String} {inside : List MemoKey}
    (h : LeadsBack y reads inside) (a : α) : ComesTo y a reads inside := by
  obtain ⟨enough, h⟩ := h
  exact ⟨enough, fun depth hdepth => ⟨.inr (h depth hdepth).1, (h depth hdepth).2⟩⟩

theorem LeadsBack.bind {y : Nat → Tracked α} {g : Nat → α → Tracked β} {reads : List String}
    {inside : List MemoKey} (h : LeadsBack y reads inside) (more : List String) :
    LeadsBack (fun depth => y depth >>= g depth) (reads ++ more) inside := by
  obtain ⟨enough, h⟩ := h
  refine ⟨enough, fun depth hdepth => ?_⟩
  obtain ⟨hend, hreads⟩ := h depth hdepth
  beta_reduce
  rw [Tracked.bind_run, Tracked.andThen_reentered hend]
  exact ⟨rfl, List.subset_append_of_subset_left _ hreads⟩

theorem Tracked.andThen_reaches {t : Trace α} {f : α → Trace β} {a : α} {reads more : List String}
    (hend : t.ending = .value a ∨ t.ending = .reentered) (hreads : t.reads ⊆ reads)
    (hmore : (f a).reads ⊆ more) :
    ((andThen t f).ending = (f a).ending ∨ (andThen t f).ending = .reentered) ∧
      (andThen t f).reads ⊆ reads ++ more := by
  rcases hend with hend | hend
  · rw [andThen_value hend]
    exact ⟨.inl rfl, List.append_subset.2 ⟨List.subset_append_of_subset_left _ hreads,
      List.subset_append_of_subset_right _ hmore⟩⟩
  · rw [andThen_reentered hend]
    exact ⟨.inr rfl, List.subset_append_of_subset_left _ hreads⟩

theorem ComesTo.bind_ends {y : Nat → Tracked α} {g : Nat → α → Tracked β} {a : α}
    {reads more : List String} {inside : List MemoKey} (h : ComesTo y a reads inside)
    (Ends : Ending β → Prop) (hreentered : Ends .reentered) (hg : ∃ enough, ∀ depth, enough ≤ depth →
      Ends (g depth a inside).ending ∧ (g depth a inside).reads ⊆ more) :
    ∃ enough, ∀ depth, enough ≤ depth → Ends ((y depth >>= g depth) inside).ending ∧
      ((y depth >>= g depth) inside).reads ⊆ reads ++ more := by
  obtain ⟨enough, h⟩ := h
  obtain ⟨enough', hg⟩ := hg
  refine ⟨max enough enough', fun depth hdepth => ?_⟩
  obtain ⟨hend, hreads⟩ := h depth (by omega)
  obtain ⟨hend', hreads'⟩ := hg depth (by omega)
  obtain ⟨hboth, hall⟩ := Tracked.andThen_reaches (f := fun a => g depth a inside) hend hreads hreads'
  refine ⟨?_, hall⟩
  rw [Tracked.bind_run]
  rcases hboth with hsame | hback
  · rwa [hsame]
  · rwa [hback]

theorem ComesTo.bind_leadsBack {y : Nat → Tracked α} {g : Nat → α → Tracked β} {a : α}
    {reads more : List String} {inside : List MemoKey} (h : ComesTo y a reads inside)
    (hg : LeadsBack (fun depth => g depth a) more inside) :
    LeadsBack (fun depth => y depth >>= g depth) (reads ++ more) inside :=
  h.bind_ends (· = .reentered) rfl hg

theorem ComesTo.bind {y : Nat → Tracked α} {g : Nat → α → Tracked β} {a : α} {b : β}
    {reads more : List String} {inside : List MemoKey} (h : ComesTo y a reads inside)
    (hg : ComesTo (fun depth => g depth a) b more inside) :
    ComesTo (fun depth => y depth >>= g depth) b (reads ++ more) inside :=
  h.bind_ends (fun ending => ending = .value b ∨ ending = .reentered) (.inr rfl) hg

/-- What the evaluation says about work inside that of some members which gave `a`: the work
noted `reads`, met a mark if `cyclic`, and was cut off if `limited`. -/
structure Account (y : Nat → Tracked α) (inside : List MemoKey) (a : α) (reads : List String)
    (cyclic limited : Bool) : Prop where
  leadsBack : limited = false → cyclic = true → ∀ inside', inside ⊆ inside' →
    LeadsBack y reads inside'
  comesTo : limited = false → cyclic = false → ∀ inside', ComesTo y a reads inside'

theorem Account.limited (y : Nat → Tracked α) (inside : List MemoKey) (a : α) (reads : List String)
    (cyclic : Bool) : Account y inside a reads cyclic true :=
  ⟨nofun, nofun⟩

theorem Account.bind {y : Nat → Tracked α} {g : Nat → α → Tracked β} {inside : List MemoKey} {a : α}
    {b : β} {reads reads' : List String} {cyclic cyclic' limited limited' : Bool}
    (h : Account y inside a reads cyclic limited)
    (h' : Account (fun depth => g depth a) inside b reads' cyclic' limited') :
    Account (fun depth => y depth >>= g depth) inside b (reads ++ reads') (cyclic || cyclic')
      (limited || limited') := by
  constructor
  · intro hlimited hcyclic inside' hinside
    obtain ⟨hl, hl'⟩ := Bool.or_eq_false_iff.1 hlimited
    cases hc : cyclic with
    | true => exact (h.leadsBack hl hc inside' hinside).bind reads'
    | false =>
      rw [hc, Bool.false_or] at hcyclic
      exact (h.comesTo hl hc inside').bind_leadsBack (h'.leadsBack hl' hcyclic inside' hinside)
  · intro hlimited hcyclic inside'
    obtain ⟨hl, hl'⟩ := Bool.or_eq_false_iff.1 hlimited
    obtain ⟨hc, hc'⟩ := Bool.or_eq_false_iff.1 hcyclic
    exact (h.comesTo hl hc inside').bind (h'.comesTo hl' hc' inside')

end Account

structure Notes (reads : List String) (cyclic limited : Bool) (g : Frame → Frame) : Prop where
  keeps (f : Frame) : f.dependsOn ⊆ (g f).dependsOn
  notes (f : Frame) : reads ⊆ (g f).dependsOn
  cyclic_eq (f : Frame) : (g f).cyclic = (f.cyclic || cyclic)
  limited_eq (f : Frame) : (g f).limited = (f.limited || limited)

theorem Notes.id : Notes [] false false id :=
  ⟨fun _ => List.Subset.refl _, fun _ => List.nil_subset _, fun _ => (Bool.or_false _).symm,
    fun _ => (Bool.or_false _).symm⟩

theorem Notes.comp {reads reads' : List String} {cyclic cyclic' limited limited' : Bool}
    {g g' : Frame → Frame} (h : Notes reads cyclic limited g) (h' : Notes reads' cyclic' limited' g') :
    Notes (reads ++ reads') (cyclic || cyclic') (limited || limited') (g' ∘ g) where
  keeps f := List.Subset.trans (h.keeps f) (h'.keeps _)
  notes f := List.append_subset.2 ⟨List.Subset.trans (h.notes f) (h'.keeps _), h'.notes _⟩
  cyclic_eq f := by rw [Function.comp, h'.cyclic_eq, h.cyclic_eq, Bool.or_assoc]
  limited_eq f := by rw [Function.comp, h'.limited_eq, h.limited_eq, Bool.or_assoc]

theorem Notes.record (name : String) : Notes [name] false false (Frame.record name) := by
  have hdepends : ∀ f : Frame, f.dependsOn ⊆ (f.record name).dependsOn ∧
      name ∈ (f.record name).dependsOn := by
    intro f
    unfold Frame.record
    split
    next h => exact ⟨List.Subset.refl _, by simpa using h⟩
    next => exact ⟨List.subset_cons_self _ _, List.mem_cons_self⟩
  have hflags : ∀ f : Frame, (f.record name).cyclic = f.cyclic ∧ (f.record name).limited = f.limited := by
    intro f
    unfold Frame.record
    split <;> exact ⟨rfl, rfl⟩
  exact
    ⟨fun f => (hdepends f).1, fun f => List.cons_subset.2 ⟨(hdepends f).2, List.nil_subset _⟩,
      fun f => by rw [(hflags f).1, Bool.or_false], fun f => by rw [(hflags f).2, Bool.or_false]⟩

theorem Notes.mark : Notes [] true false fun f => { f with cyclic := true } :=
  ⟨fun _ => List.Subset.refl _, fun _ => List.nil_subset _, fun _ => (Bool.or_true _).symm,
    fun _ => (Bool.or_false _).symm⟩

theorem Notes.cut : Notes [] false true fun f => { f with limited := true } :=
  ⟨fun _ => List.Subset.refl _, fun _ => List.nil_subset _, fun _ => (Bool.or_false _).symm,
    fun _ => (Bool.or_true _).symm⟩

theorem Notes.recordAll (names : List String) :
    Notes names false false fun f => names.foldl (fun f name => f.record name) f := by
  induction names with
  | nil => exact Notes.id
  | cons name names ih => exact (Notes.record name).comp ih

/-- The entry's type is the one the evaluation comes to, and its classes cover what that reads,
inside whatever members it takes place. -/
def Sound (t : Lookups) (key : MemoKey) (type? : Option String) (dependsOn : List String) : Prop :=
  ∀ inside, ComesTo (fun depth => t.trace depth key) type? dependsOn inside

/-- What the rules look up in a workspace. -/
def lookups (w : Workspace) : Lookups :=
  ⟨w.limits, w.classNamed?, fun controller id => (Workspace.controlClass? controller id w).1⟩

/-- A memo with an entry for each key at most: a mark for each of the members of `inside`, and
otherwise sound entries. -/
structure SoundMemo (t : Lookups) (inside : List MemoKey) (memo : TypeMemo) : Prop where
  unique : (memo.map Prod.fst).Nodup
  sound (key : MemoKey) (type? : Option String) (dependsOn : List String) :
    memo.lookup key = some (.done type? dependsOn) → Sound t key type? dependsOn
  marked (key : MemoKey) : memo.lookup key = some .inProgress ↔ key ∈ inside

theorem SoundMemo.empty (t : Lookups) : SoundMemo t [] TypeMemo.empty :=
  ⟨List.nodup_nil, nofun, fun _ => iff_of_false nofun List.not_mem_nil⟩

/-- The members of `inside` are being worked out in a state that was read from `base` on and
still has its documents. -/
structure Sync (base : Workspace) (inside : List MemoKey) (p : Progress) : Prop where
  learned : Learned base p.workspace
  documents : p.workspace.documents = base.documents
  memo : SoundMemo (lookups base) inside p.workspace.types
  framed : p.frames.length = inside.length

theorem Sync.mapFrames {base : Workspace} {inside : List MemoKey} {p : Progress}
    (h : Sync base inside p) (g : Frame → Frame) :
    Sync base inside { p with frames := p.frames.map g } :=
  ⟨h.learned, h.documents, h.memo, (List.length_map g).trans h.framed⟩

structure Accounted (base : Workspace) {α : Type} (y : Nat → Tracked α) (inside : List MemoKey)
    (p : Progress) (result : α × Progress) : Prop where
  sync : Sync base inside result.2
  account : ∃ reads cyclic limited g, Notes reads cyclic limited g ∧
    result.2.frames = p.frames.map g ∧ Account y inside result.1 reads cyclic limited

/-- Work that reads only, and that the evaluation accounts for as long as no document has been
read for it. -/
structure Tracks (base : Workspace) {α : Type} (P : α → Prop) (x : Resolve α) (y : Nat → Tracked α) :
    Prop where
  holds {p : Progress} : Learned base p.workspace → P (x p).1
  learned {p : Progress} : Learned base p.workspace → Learned p.workspace (x p).2.workspace
  accounted {p : Progress} {inside : List MemoKey} : Sync base inside p →
    (x p).2.workspace.documents = base.documents → Accounted base y inside p (x p)

namespace Tracks

variable {base : Workspace} {α β : Type}

theorem ret {P : α → Prop} {a : α} (ha : P a) : Tracks base P (pure a) fun _ => pure a where
  holds _ := ha
  learned _ := Learned.refl _
  accounted {p inside} hsync _ := by
    refine ⟨hsync, [], false, false, id, Notes.id, (List.map_id _).symm, nofun, fun _ _ inside' => ?_⟩
    exact ⟨0, fun _ _ => ⟨.inl rfl, List.nil_subset _⟩⟩

theorem bind {P : α → Prop} {Q : β → Prop} {x : Resolve α} {y : Nat → Tracked α}
    {f : α → Resolve β} {g : Nat → α → Tracked β} (hx : Tracks base P x y)
    (hf : ∀ a, P a → Tracks base Q (f a) fun depth => g depth a) :
    Tracks base Q (x >>= f) fun depth => y depth >>= g depth where
  holds {p} hp := (hf _ (hx.holds hp)).holds (hp.trans (hx.learned hp))
  learned {p} hp :=
    (hx.learned hp).trans ((hf _ (hx.holds hp)).learned (hp.trans (hx.learned hp)))
  accounted {p inside} hsync hend := by
    have hp := hsync.learned
    have hmid := hp.trans (hx.learned hp)
    have hf' := hf _ (hx.holds hp)
    rw [UiWorkspace.bind_run] at hend ⊢
    have hdocuments := hmid.documents_eq (hf'.learned hmid) hend
    obtain ⟨hsync', reads, cyclic, limited, note, hnote, hframes, haccount⟩ :=
      hx.accounted hsync hdocuments
    obtain ⟨hsync'', reads', cyclic', limited', note', hnote', hframes', haccount'⟩ :=
      hf'.accounted hsync' hend
    refine ⟨hsync'', _, _, _, _, hnote.comp hnote', ?_, haccount.bind haccount'⟩
    rw [hframes', hframes, List.map_map]

end Tracks

theorem noted_run {α : Type} (name : String) (q : Query α) (p : Progress) :
    (record name >>= fun _ => ask q) p =
      ((q p.workspace).1, ⟨(q p.workspace).2, p.frames.map (Frame.record name)⟩) := rfl

theorem Tracks.noted {base : Workspace} {α : Type} {P : α → Prop} {name : String} {q : Query α}
    {a : α} (hP : ∀ w, Learned base w → P (q w).1)
    (hlearned : ∀ w, Learned base w → Learned w (q w).2)
    (htypes : ∀ w, (q w).2.types = w.types)
    (hvalue : ∀ w, Learned base w → w.documents = base.documents → (q w).1 = a) :
    Tracks base P (record name >>= fun _ => ask q) fun _ _ => ⟨.value a, [name]⟩ where
  holds hp := hP _ hp
  learned hp := hlearned _ hp
  accounted {p inside} hsync hend := by
    rw [noted_run] at hend ⊢
    have hlearned' := hlearned _ hsync.learned
    constructor
    · refine ⟨hsync.learned.trans hlearned', hend, ?_, ?_⟩
      · rw [htypes]
        exact hsync.memo
      · rw [List.length_map]
        exact hsync.framed
    · refine ⟨[name], false, false, _, Notes.record name, rfl, nofun, fun _ _ inside' => ?_⟩
      rw [hvalue _ hsync.learned hsync.documents]
      exact ⟨0, fun _ _ => ⟨.inl rfl, List.Subset.refl _⟩⟩

section Lookups

variable {base : Workspace} (hbase : base.FiledByName) (limits : Hierarchy.Limits)

def FoundIn (base : Workspace) (name : String) (c : ClassDefinition) : Prop :=
  base.classNamed? name = some c ∧ c.name = name

include hbase in
theorem tracks_class? (name : String) :
    Tracks base (fun found? => ∀ c, found? = some c → FoundIn base name c) (class? name)
      fun _ => (lookups base).tracked.class? name := by
  apply Tracks.noted
  · intro w hw c hc
    rw [Workspace.class?_fst, hw.classNamed?] at hc
    exact ⟨hc, hbase.classNamed?_name hc⟩
  · exact fun w _ => Learned.class? name w
  · intro w
    obtain ⟨_, _, hrun⟩ := Workspace.class?_run name w
    rw [hrun]
  · intro w hw _
    rw [Workspace.class?_fst, hw.classNamed?]
    rfl

theorem controlClass?_types (controller id : String) (w : Workspace) :
    (Workspace.controlClass? controller id w).2.types = w.types := by
  have halike : Workspace.ControlsAlike (Workspace.Kept fun v => v.types = w.types) := by
    apply Workspace.ControlsAlike.kept (fun _ _ h => h) (fun _ _ h _ _ => h)
    · intro v d h
      obtain ⟨_, hrun⟩ := Workspace.examine_run d v
      rw [hrun]
      exact h
    · intro v name h
      obtain ⟨_, _, hrun⟩ := Workspace.class?_run name v
      rw [hrun]
      exact h
  exact (halike.controlClass? controller id).keeps rfl

theorem tracks_control? (controller id : String) :
    Tracks base (fun _ => True) ((surroundings limits).control? controller id)
      fun _ => (lookups base).tracked.control? controller id := by
  apply Tracks.noted
  · exact fun _ _ => trivial
  · exact fun w _ => Learned.controlClass? controller id w
  · exact controlClass?_types controller id
  · intro w hw hdocuments
    exact (Workspace.SameView.controlsAlike.controlClass? controller id w base
      (hw.sameView hdocuments)).1

end Lookups

end UiWorkspace.Typing
