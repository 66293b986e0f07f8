import UiWorkspace.Proofs.Typing.Balance

/-! What the depth limit cuts off. A resolver with a ledger counts how often something is cut off,
and notes for each member that is worked out whether this happened in its work and whether its type
was kept. No type is kept from work in which something was cut off, and where nothing is cut off at
all the work goes as it goes under any greater limit. -/
namespace UiWorkspace.Typing

open UiWorkspace.Script
open UiWorkspace.Workspace (SameView Respects)

structure Outcome where
  key : MemoKey
  /-- The depth limit cut something off in the work. -/
  cut : Bool
  kept : Bool
deriving DecidableEq, Repr

/-- How often something was cut off, and what became of the work on members, the last one first. -/
structure Ledger where
  cuts : Nat
  outcomes : List Outcome

def remembers (memo : TypeMemo) (key : MemoKey) : Bool :=
  match memo.lookup key with
  | some (.done _ _) => true
  | _ => false

theorem remembers_iff {memo : TypeMemo} {key : MemoKey} :
    remembers memo key = true ↔ ∃ type? dependsOn, memo.lookup key = some (.done type? dependsOn) := by
  unfold remembers
  cases memo.lookup key with
  | none => simp
  | some slot => cases slot <;> simp

abbrev Watched := StateT Ledger Resolve

namespace Watched

variable {α β : Type}

def lift (x : Resolve α) : Watched α := fun l p => (((x p).1, l), (x p).2)

/-- The remembered type of a member, or the one worked out as given, whose outcome is noted. -/
def remember (key : MemoKey) (work : Watched (Option String)) : Watched (Option String) := fun l p =>
  match p.workspace.types.lookup key with
  | some _ => lift (Typing.remember key (pure none)) l p
  | none =>
    let ((type?, l'), p) := work l (started key p)
    let p := (settle key type? p).2
    ((type?, ⟨l'.cuts, ⟨key, l.cuts < l'.cuts, remembers p.workspace.types key⟩ :: l'.outcomes⟩), p)

def surroundings (limits : Hierarchy.Limits) : Surroundings Watched where
  limits := limits
  class? name := lift (Typing.class? name)
  control? controller id := lift ((Typing.surroundings limits).control? controller id)
  remember := remember
  cutOff := fun l p =>
    (((), { l with cuts := l.cuts + 1 }), ((Typing.surroundings limits).cutOff p).2)

theorem bind_run (x : Watched α) (f : α → Watched β) (l : Ledger) (p : Progress) :
    (x >>= f) l p = f (x l p).1.1 (x l p).1.2 (x l p).2 := rfl

theorem remember_some {key : MemoKey} {p : Progress} {slot : MemoSlot}
    (h : p.workspace.types.lookup key = some slot) (work : Watched (Option String)) (l : Ledger) :
    remember key work l p = lift (Typing.remember key (pure none)) l p := by
  unfold remember
  rw [h]

theorem remember_none {key : MemoKey} {p : Progress} (h : p.workspace.types.lookup key = none)
    (work : Watched (Option String)) (l : Ledger) :
    remember key work l p =
      let q := work l (started key p)
      let p := (settle key q.1.1 q.2).2
      ((q.1.1, ⟨q.1.2.cuts, ⟨key, l.cuts < q.1.2.cuts, remembers p.workspace.types key⟩ ::
        q.1.2.outcomes⟩), p) := by
  unfold remember
  rw [h]
  rfl

end Watched

theorem remember_some {key : MemoKey} {p : Progress} {slot : MemoSlot}
    (h : p.workspace.types.lookup key = some slot) (work other : Resolve (Option String)) :
    remember key work p = remember key other p := by
  cases slot with
  | done type? dependsOn => rw [remember_done h, remember_done h]
  | inProgress => rw [remember_inProgress h, remember_inProgress h]

/-- The ledger holds what happened on the way from `p` to `q`. -/
structure Booked (l : Ledger) (p : Progress) (l' : Ledger) (q : Progress) : Prop where
  counted : l.cuts ≤ l'.cuts
  frames : ∃ g : Frame → Frame, q.frames = p.frames.map g ∧
    ∀ f, (g f).limited = (f.limited || decide (l.cuts < l'.cuts))
  outcomes : ∃ new, l'.outcomes = new ++ l.outcomes ∧
    (∀ outcome ∈ new, outcome.cut = true → outcome.kept = false) ∧
    ∀ key, remembers q.workspace.types key = true →
      remembers p.workspace.types key = true ∨ ⟨key, false, true⟩ ∈ new

theorem Booked.trans {l l' l'' : Ledger} {p q r : Progress} (h : Booked l p l' q)
    (h' : Booked l' q l'' r) : Booked l p l'' r := by
  refine ⟨Nat.le_trans h.counted h'.counted, ?_, ?_⟩
  · obtain ⟨g, hframes, hlimited⟩ := h.frames
    obtain ⟨g', hframes', hlimited'⟩ := h'.frames
    refine ⟨g' ∘ g, by rw [hframes', hframes, List.map_map], fun f => ?_⟩
    have hcounts : decide (l.cuts < l''.cuts) =
        (decide (l.cuts < l'.cuts) || decide (l'.cuts < l''.cuts)) := by
      have := h.counted
      have := h'.counted
      rw [← Bool.decide_or, decide_eq_decide]
      omega
    rw [Function.comp, hlimited', hlimited, hcounts, Bool.or_assoc]
  · obtain ⟨new, hnew, hcut, hkept⟩ := h.outcomes
    obtain ⟨new', hnew', hcut', hkept'⟩ := h'.outcomes
    refine ⟨new' ++ new, by rw [hnew', hnew, List.append_assoc], fun outcome houtcome => ?_,
      fun key hkey => ?_⟩
    · exact (List.mem_append.1 houtcome).elim (hcut' outcome) (hcut outcome)
    · rcases hkept' key hkey with hkey | hkey
      · exact (hkept key hkey).imp_right (List.mem_append_right new')
      · exact .inr (List.mem_append_left new hkey)

theorem Booked.noted (l : Ledger) {p q : Progress} {g : Frame → Frame}
    (hframes : q.frames = p.frames.map g) (hlimited : ∀ f, (g f).limited = f.limited)
    (htypes : q.workspace.types = p.workspace.types) : Booked l p l q := by
  refine ⟨Nat.le_refl _, ⟨g, hframes, fun f => ?_⟩, [], rfl, nofun, fun key hkey => ?_⟩
  · rw [hlimited, decide_eq_false (Nat.lt_irrefl _), Bool.or_false]
  · rw [htypes] at hkey
    exact .inl hkey

theorem remembers_settledMemo {memo : TypeMemo} {key : MemoKey}
    (hmark : memo.lookup key = some .inProgress) (type? : Option String) (frame : Frame)
    (outermost : Bool) (asked : MemoKey) :
    remembers (settledMemo memo key type? frame outermost) asked =
      if asked = key then decide (IsWhole frame outermost) else remembers memo asked := by
  unfold remembers
  rw [lookup_settledMemo hmark]
  by_cases hasked : asked = key
  · rw [if_pos hasked, if_pos hasked]
    by_cases hwhole : IsWhole frame outermost
    · rw [if_pos hwhole, decide_eq_true hwhole]
    · rw [if_neg hwhole, decide_eq_false hwhole]
  · rw [if_neg hasked, if_neg hasked]

theorem grows_settledMemo {memo : TypeMemo} {key : MemoKey} (hmark : memo.lookup key = some .inProgress)
    {type? : Option String} {frame : Frame} {outermost : Bool} (asked : MemoKey)
    (h : remembers memo asked = true) :
    remembers (settledMemo memo key type? frame outermost) asked = true := by
  rw [remembers_settledMemo hmark]
  split
  next hasked =>
    unfold remembers at h
    rw [hasked, hmark] at h
    cases h
  next => exact h

theorem remembers_begin (memo : TypeMemo) (key asked : MemoKey) :
    remembers (memo.begin key) asked = if asked = key then false else remembers memo asked := by
  unfold remembers
  rw [TypeMemo.lookup_begin]
  by_cases hasked : asked = key
  · rw [if_pos hasked, if_pos hasked]
  · rw [if_neg hasked, if_neg hasked]

/-- The work on a member that was cut off leaves no entry, and an entry that it leaves is noted. -/
theorem Booked.settled {l l' : Ledger} {p : Progress} {key : MemoKey} {w : Workspace}
    {frames : List Frame} (h : Booked l (started key p) l' ⟨w, frames⟩)
    (hmark : w.types.lookup key = some .inProgress) (type? : Option String) :
    Booked l p
      ⟨l'.cuts, ⟨key, l.cuts < l'.cuts,
        remembers (settle key type? ⟨w, frames⟩).2.workspace.types key⟩ :: l'.outcomes⟩
      (settle key type? ⟨w, frames⟩).2 := by
  obtain ⟨hcounted, ⟨g, hframes, hlimited⟩, new, hnew, hcut, hkept⟩ := h
  cases hframes
  have hcutOff := hlimited ⟨[key.className], false, false⟩
  rw [Bool.false_or] at hcutOff
  change Booked l p ⟨_, ⟨_, _, remembers (settle key type? ⟨w, g _ :: p.frames.map g⟩).2.workspace.types
    key⟩ :: _⟩ (settle key type? ⟨w, g _ :: p.frames.map g⟩).2
  rw [settle_run]
  generalize g ⟨[key.className], false, false⟩ = frame at hcutOff
  have hentry := remembers_settledMemo hmark type? frame (p.frames.map g).isEmpty
  have hown := hentry key
  rw [if_pos rfl] at hown
  rw [hown]
  refine ⟨hcounted, ⟨g, rfl, hlimited⟩, _ :: new, congrArg (List.cons _) hnew, ?_, fun asked hasked => ?_⟩
  · intro outcome houtcome hcutOutcome
    rcases List.mem_cons.1 houtcome with rfl | houtcome
    · refine decide_eq_false fun hwhole => ?_
      rw [hwhole.1] at hcutOff
      cases hcutOff.trans hcutOutcome
    · exact hcut outcome houtcome hcutOutcome
  · change remembers (settledMemo _ _ _ _ _) asked = true at hasked
    rw [hentry asked] at hasked
    split at hasked
    next hkey =>
      have hwhole := of_decide_eq_true hasked
      rw [hwhole.1] at hcutOff
      rw [hkey, ← hcutOff, decide_eq_true hwhole]
      exact .inr List.mem_cons_self
    next hkey =>
      rcases hkept asked hasked with hbefore | hbefore
      · change remembers (p.workspace.types.begin key) asked = true at hbefore
        rw [remembers_begin, if_neg hkey] at hbefore
        exact .inl hbefore
      · exact .inr (List.mem_cons_of_mem _ hbefore)

/-- The work with a ledger is the plain work, and the ledger holds what happens in it. -/
structure KeepsBooks {α : Type} (P : α → Prop) (x : Watched α) (y : Resolve α) : Prop where
  holds (p : Progress) : P (y p).1
  erases (l : Ledger) (p : Progress) : ((x l p).1.1, (x l p).2) = y p
  balanced : Balanced y
  booked (l : Ledger) (p : Progress) : (p.workspace.types.map Prod.fst).Nodup →
    Booked l p (x l p).1.2 (x l p).2

namespace KeepsBooks

variable {α β : Type}

theorem result_eq {P : α → Prop} {x : Watched α} {y : Resolve α} (h : KeepsBooks P x y) (l : Ledger)
    (p : Progress) : (x l p).1.1 = (y p).1 ∧ (x l p).2 = (y p).2 :=
  Prod.mk.inj (h.erases l p)

theorem ret {P : α → Prop} {a : α} (ha : P a) : KeepsBooks P (pure a) (pure a) where
  holds _ := ha
  erases _ _ := rfl
  balanced := .ret a
  booked l _ _ := Booked.noted l (List.map_id _).symm (fun _ => rfl) rfl

theorem bind {P : α → Prop} {Q : β → Prop} {x : Watched α} {y : Resolve α} {f : α → Watched β}
    {g : α → Resolve β} (hx : KeepsBooks P x y) (hf : ∀ a, P a → KeepsBooks Q (f a) (g a)) :
    KeepsBooks Q (x >>= f) (y >>= g) where
  holds p := (hf _ (hx.holds p)).holds _
  erases l p := by
    obtain ⟨hvalue, hstate⟩ := hx.result_eq l p
    rw [Watched.bind_run, UiWorkspace.bind_run, hvalue, hstate]
    exact (hf _ (hx.holds p)).erases _ _
  balanced := hx.balanced.bind fun p => (hf _ (hx.holds p)).balanced
  booked l p hp := by
    obtain ⟨hvalue, hstate⟩ := hx.result_eq l p
    have hfirst := hx.booked l p hp
    have hunique := (hx.balanced p hp).unique
    rw [Watched.bind_run]
    rw [hstate] at hfirst ⊢
    rw [hvalue]
    exact hfirst.trans ((hf _ (hx.holds p)).booked _ _ hunique)

theorem lookUp {P : α → Prop} {name : String} {q : Query α} (hP : ∀ w, P (q w).1)
    (htypes : ∀ w, (q w).2.types = w.types) :
    KeepsBooks P (Watched.lift (record name >>= fun _ => ask q)) (record name >>= fun _ => ask q) where
  holds p := hP _
  erases _ _ := rfl
  balanced := .lookUp htypes
  booked l _ _ := by
    refine Booked.noted l rfl (fun f => ?_) (htypes _)
    rw [(Notes.record name).limited_eq, Bool.or_false]

theorem cutOff (limits : Hierarchy.Limits) :
    KeepsBooks (fun _ => True) (Watched.surroundings limits).cutOff (surroundings limits).cutOff where
  holds _ := trivial
  erases _ _ := rfl
  balanced := .noted _ PUnit.unit
  booked l p _ := by
    refine ⟨Nat.le_succ _, ⟨_, rfl, fun f => ?_⟩, [], rfl, nofun, fun key hkey => .inl hkey⟩
    have hcut : l.cuts < (((Watched.surroundings limits).cutOff l p).1.2).cuts := Nat.lt_succ_self _
    rw [decide_eq_true hcut, Bool.or_true]

theorem remember (key : MemoKey) {x : Watched (Option String)} {y : Resolve (Option String)}
    (hwork : KeepsBooks (fun _ => True) x y) :
    KeepsBooks (fun _ => True) (Watched.remember key x) (Typing.remember key y) where
  holds _ := trivial
  erases l p := by
    cases hslot : p.workspace.types.lookup key with
    | some slot =>
      rw [Watched.remember_some hslot, remember_some hslot y (pure none)]
      rfl
    | none =>
      obtain ⟨hvalue, hstate⟩ := hwork.result_eq l (started key p)
      rw [Watched.remember_none hslot, remember_none hslot, ← hvalue, ← hstate]
  balanced := .remember key hwork.balanced
  booked l p hp := by
    cases hslot : p.workspace.types.lookup key with
    | some slot =>
      rw [Watched.remember_some hslot]
      unfold Watched.lift
      cases slot with
      | done type? dependsOn =>
        rw [remember_done hslot, recordAll_run]
        refine Booked.noted l rfl (fun f => ?_) rfl
        rw [(Notes.recordAll dependsOn).limited_eq, Bool.or_false]
      | inProgress =>
        rw [remember_inProgress hslot]
        exact Booked.noted l rfl (fun _ => rfl) rfl
    | none =>
      have hbegun := Table.nodup_keys_put key .inProgress hp
      have hbalance := hwork.balanced (started key p) hbegun
      have hbooked := hwork.booked l (started key p) hbegun
      rw [← (hwork.result_eq l (started key p)).2] at hbalance
      rw [Watched.remember_none hslot]
      exact hbooked.settled ((hbalance.marked key).2 (lookup_started key p)) _

end KeepsBooks

def booksSimulation (limits : Hierarchy.Limits)
    (node : ClassDefinition → Node → Resolve (Option String)) :
    Simulation Unit (Watched.surroundings limits) (surroundings limits) fun _ => node where
  Found _ _ := True
  Rel P x y := KeepsBooks P x (y ())
  limits_eq := rfl
  ret _ ha := .ret ha
  bind hx hf := .bind hx hf
  lookup name := .lookUp (fun _ _ _ => trivial) (class?_types name)
  control controller id := .lookUp (fun _ => trivial) (controlClass?_types controller id)
  remember _ _ hwork := .remember _ hwork

theorem keepsBooks_memberType (limits : Hierarchy.Limits) (depth : Nat) (kind : MemberKind)
    (className name : String) :
    KeepsBooks (fun _ => True)
      (memberType (Watched.surroundings limits)
        (nodeType (chainType (Watched.surroundings limits) depth)) kind className name)
      (memberType (surroundings limits) (nodeType (chainType (surroundings limits) depth)) kind
        className name) :=
  Simulation.deepMemberType (booksSimulation limits) (fun _ _ _ _ h => h)
    (fun _ => KeepsBooks.cutOff limits) depth kind className name

def Twin (w v : Workspace) : Prop := SameView w v ∧ w.types = v.types

theorem Twin.setTypes {w v : Workspace} (h : Twin w v) (types : TypeMemo) :
    Twin { w with types := types } { v with types := types } :=
  ⟨⟨h.1.source, h.1.manifests, h.1.catalog, h.1.documents, h.1.classes⟩, rfl⟩

theorem twin_lookUp {α : Type} {q : Query α} (hq : Respects SameView q)
    (htypes : ∀ w, (q w).2.types = w.types) : Respects Twin q := by
  rintro w v ⟨hview, hsame⟩
  obtain ⟨hvalue, hview'⟩ := hq w v hview
  exact ⟨hvalue, hview', by rw [htypes, htypes, hsame]⟩

/-- If nothing is cut off in the one work, the other does the same. -/
structure Uncut {α : Type} (P : α → Prop) (x : Watched α) (y : Resolve α) : Prop where
  holds (l : Ledger) (p : Progress) : P (x l p).1.1
  counted (l : Ledger) (p : Progress) : l.cuts ≤ (x l p).1.2.cuts
  same (l : Ledger) (p q : Progress) : Twin p.workspace q.workspace → p.frames = q.frames →
    (x l p).1.2.cuts = l.cuts → (x l p).1.1 = (y q).1 ∧
      Twin (x l p).2.workspace (y q).2.workspace ∧ (x l p).2.frames = (y q).2.frames

namespace Uncut

variable {α β : Type}

theorem ret {P : α → Prop} {a : α} (ha : P a) : Uncut P (pure a) (pure a) where
  holds _ _ := ha
  counted _ _ := Nat.le_refl _
  same _ _ _ htwin hframes _ := ⟨rfl, htwin, hframes⟩

theorem bind {P : α → Prop} {Q : β → Prop} {x : Watched α} {y : Resolve α} {f : α → Watched β}
    {g : α → Resolve β} (hx : Uncut P x y) (hf : ∀ a, P a → Uncut Q (f a) (g a)) :
    Uncut Q (x >>= f) (y >>= g) where
  holds l p := (hf _ (hx.holds l p)).holds _ _
  counted l p := Nat.le_trans (hx.counted l p) ((hf _ (hx.holds l p)).counted _ _)
  same l p q htwin hframes huncut := by
    have hafter := hf _ (hx.holds l p)
    rw [Watched.bind_run] at huncut ⊢
    have hfirst := hx.counted l p
    have hsecond := hafter.counted (x l p).1.2 (x l p).2
    obtain ⟨hvalue, htwin', hframes'⟩ := hx.same l p q htwin hframes (by omega)
    rw [UiWorkspace.bind_run, ← hvalue]
    exact hafter.same _ _ _ htwin' hframes' (by omega)

theorem lookUp {P : α → Prop} {name : String} {q : Query α} (hP : ∀ w, P (q w).1)
    (hq : Respects SameView q) (htypes : ∀ w, (q w).2.types = w.types) :
    Uncut P (Watched.lift (record name >>= fun _ => ask q)) (record name >>= fun _ => ask q) where
  holds _ _ := hP _
  counted _ _ := Nat.le_refl _
  same l p p' htwin hframes _ := by
    obtain ⟨hvalue, htwin'⟩ := twin_lookUp hq htypes p.workspace p'.workspace htwin
    exact ⟨hvalue, htwin', congrArg (List.map _) hframes⟩

theorem settle_twin (key : MemoKey) (type? : Option String) {p q : Progress}
    (htwin : Twin p.workspace q.workspace) (hframes : p.frames = q.frames) :
    Twin (settle key type? p).2.workspace (settle key type? q).2.workspace ∧
      (settle key type? p).2.frames = (settle key type? q).2.frames := by
  obtain ⟨w, frames⟩ := p
  obtain ⟨v, frames'⟩ := q
  cases hframes
  cases frames with
  | nil => exact ⟨htwin, rfl⟩
  | cons frame outer =>
    have htypes : w.types = v.types := htwin.2
    rw [settle_run, settle_run, htypes]
    exact ⟨htwin.setTypes _, rfl⟩

theorem remember (key : MemoKey) {x : Watched (Option String)} {y : Resolve (Option String)}
    (hwork : Uncut (fun _ => True) x y) :
    Uncut (fun _ => True) (Watched.remember key x) (Typing.remember key y) where
  holds _ _ := trivial
  counted l p := by
    cases hslot : p.workspace.types.lookup key with
    | some slot =>
      rw [Watched.remember_some hslot]
      exact Nat.le_refl _
    | none =>
      rw [Watched.remember_none hslot]
      exact hwork.counted l _
  same l p q htwin hframes huncut := by
    -- The memos are the same, so both sides find the same entry or both do the work.
    have htypes := htwin.2
    cases hslot : p.workspace.types.lookup key with
    | some slot =>
      have hslot' := htypes ▸ hslot
      rw [Watched.remember_some hslot]
      unfold Watched.lift
      cases slot with
      | done type? dependsOn =>
        rw [remember_done hslot', remember_done hslot, recordAll_run, recordAll_run]
        exact ⟨rfl, htwin, congrArg (List.map _) hframes⟩
      | inProgress =>
        rw [remember_inProgress hslot', remember_inProgress hslot]
        exact ⟨rfl, htwin, congrArg (List.map _) hframes⟩
    | none =>
      have hslot' := htypes ▸ hslot
      rw [Watched.remember_none hslot] at huncut ⊢
      have hbegun : Twin (started key p).workspace (started key q).workspace := by
        unfold started
        rw [← htypes]
        exact htwin.setTypes _
      obtain ⟨hvalue, htwin', hframes'⟩ :=
        hwork.same l _ _ hbegun (congrArg (List.cons _) hframes) huncut
      rw [remember_none hslot', ← hvalue]
      exact ⟨rfl, settle_twin key _ htwin' hframes'⟩

end Uncut

def uncutSimulation (limits : Hierarchy.Limits)
    (node : ClassDefinition → Node → Resolve (Option String)) :
    Simulation Unit (Watched.surroundings limits) (surroundings limits) fun _ => node where
  Found _ _ := True
  Rel P x y := Uncut P x (y ())
  limits_eq := rfl
  ret _ ha := .ret ha
  bind hx hf := .bind hx hf
  lookup name := .lookUp (fun _ _ _ => trivial) (SameView.controlsAlike.class? name) (class?_types name)
  control controller id := .lookUp (fun _ => trivial) (SameView.controlsAlike.controlClass? controller id)
    (controlClass?_types controller id)
  remember _ _ hwork := .remember _ hwork

section

variable (limits : Hierarchy.Limits) (more : Nat)

/-- Where the limit is met, something is cut off; above it both go on in the same way. -/
theorem uncut_chainType (depth : Nat) (c : ClassDefinition) (chain : Chain) (offset : Nat) :
    Uncut (fun _ => True) (chainType (Watched.surroundings limits) depth c chain offset)
      (chainType (surroundings limits) (depth + more) c chain offset) := by
  induction depth generalizing c chain offset with
  | zero =>
    refine ⟨fun _ _ => trivial, fun _ _ => Nat.le_succ _, fun l p q _ _ huncut => ?_⟩
    exact absurd huncut (Nat.succ_ne_self l.cuts)
  | succ depth ih =>
    let S := uncutSimulation limits (nodeType (chainType (surroundings limits) (depth + more)))
    have hnode := S.nodeType (f := chainType (Watched.surroundings limits) depth)
      (g := fun _ => chainType (surroundings limits) (depth + more)) ih
    rw [Nat.add_right_comm]
    exact S.chainTypeFrom hnode c chain offset

theorem uncut_memberType (depth : Nat) (kind : MemberKind) (className name : String) :
    Uncut (fun _ => True)
      (memberType (Watched.surroundings limits)
        (nodeType (chainType (Watched.surroundings limits) depth)) kind className name)
      (memberType (surroundings limits) (nodeType (chainType (surroundings limits) (depth + more)))
        kind className name) := by
  let S := uncutSimulation limits (nodeType (chainType (surroundings limits) (depth + more)))
  have hnode := S.nodeType (f := chainType (Watched.surroundings limits) depth)
    (g := fun _ => chainType (surroundings limits) (depth + more)) (uncut_chainType limits more depth)
  exact S.memberType hnode kind className name

end

end UiWorkspace.Typing
