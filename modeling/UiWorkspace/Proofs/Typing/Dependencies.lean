import UiWorkspace.Proofs.Workspace.MarkupEdits

/-! What is recorded for a remembered type. Every name that is looked up for it is recorded, those
without a class as well as those behind a remembered type, and also where a member leads back to
itself. So two workspaces that agree on the recorded names remember the same type, and record the
same names for it. -/
namespace UiWorkspace.Typing

open UiWorkspace.Script
open UiWorkspace.Workspace (Learned)

structure Reading (base : Workspace) (p : Progress) : Prop where
  learned : Learned base p.workspace
  declared (key : MemoKey) : p.workspace.types.lookup key ≠ none → ∃ c member,
    FoundIn base key.className c ∧ Declares c key.member member ∧ member.kind = key.kind

/-- What work has done that wrote down names behind those of `log`: no mark is gone, and the names
are recorded in each of the members being worked out. -/
structure Recorded (base : Workspace) {α : Type} (P : α → Prop) (log : List String) (p : Progress)
    (result : (α × List String) × Progress) : Prop where
  holds : P result.1.1
  reading : Reading base result.2
  marks {key : MemoKey} : p.workspace.types.lookup key = some .inProgress →
    result.2.workspace.types.lookup key = some .inProgress
  frames : ∃ g : Frame → Frame, result.2.frames = p.frames.map g ∧
    ∀ f, f.dependsOn ⊆ (g f).dependsOn ∧ result.1.2 ⊆ log ++ (g f).dependsOn

def Records (base : Workspace) {α : Type} (P : α → Prop) (x : Logged α) : Prop :=
  ∀ log p, Reading base p → Recorded base P log p (x log p)

theorem Logged.bind_run {α β : Type} (x : Logged α) (f : α → Logged β) (log : List String)
    (p : Progress) : (x >>= f) log p = f (x log p).1.1 (x log p).1.2 (x log p).2 := rfl

namespace Records

variable {base : Workspace} {α β : Type}

theorem ret {P : α → Prop} {a : α} (ha : P a) : Records base P (pure a) := by
  intro log p hp
  refine ⟨ha, hp, id, id, (List.map_id _).symm, fun f => ?_⟩
  exact ⟨List.Subset.refl _, List.subset_append_left _ _⟩

theorem bind {P : α → Prop} {Q : β → Prop} {x : Logged α} {f : α → Logged β}
    (hx : Records base P x) (hf : ∀ a, P a → Records base Q (f a)) : Records base Q (x >>= f) := by
  intro log p hp
  obtain ⟨hP, hreading, hmarks, g, hframes, hg⟩ := hx log p hp
  obtain ⟨hQ, hreading', hmarks', g', hframes', hg'⟩ := hf _ hP (x log p).1.2 (x log p).2 hreading
  refine ⟨hQ, hreading', fun hmark => hmarks' (hmarks hmark), g' ∘ g, ?_, fun frame => ⟨?_, ?_⟩⟩
  · rw [← List.map_map, ← hframes]
    exact hframes'
  · exact List.Subset.trans (hg frame).1 (hg' _).1
  · intro name hname
    rcases List.mem_append.1 ((hg' (g frame)).2 hname) with hname | hname
    · rcases List.mem_append.1 ((hg frame).2 hname) with hname | hname
      · exact List.mem_append_left _ hname
      · exact List.mem_append_right _ ((hg' (g frame)).1 hname)
    · exact List.mem_append_right _ hname

theorem step (a : α) {g : Frame → Frame} (hg : ∀ f, f.dependsOn ⊆ (g f).dependsOn) :
    Records base (fun _ => True) fun log p => ((a, log), { p with frames := p.frames.map g }) := by
  intro log p hp
  refine ⟨trivial, ⟨hp.learned, hp.declared⟩, id, g, rfl, fun f => ⟨hg f, ?_⟩⟩
  exact List.subset_append_left _ _

theorem lookUp {P : α → Prop} {name : String} {q : Query α}
    (hP : ∀ w, Learned base w → P (q w).1) (hlearned : ∀ w, Learned w (q w).2)
    (htypes : ∀ w, (q w).2.types = w.types) :
    Records base P (Logged.lookUp name (record name >>= fun _ => ask q)) := by
  intro log p hp
  have hnotes := Notes.record name
  refine ⟨hP _ hp.learned, ⟨hp.learned.trans (hlearned _), ?_⟩, ?_, _, rfl, fun f => ⟨hnotes.keeps f, ?_⟩⟩
  · change ∀ key, (q p.workspace).2.types.lookup key ≠ none → _
    rw [htypes]
    exact hp.declared
  · change ∀ {key}, _ → (q p.workspace).2.types.lookup key = _
    rw [htypes]
    exact id
  · have hname : name ∈ (f.record name).dependsOn := hnotes.notes f List.mem_cons_self
    exact List.cons_subset.2 ⟨List.mem_append_right _ hname, List.subset_append_left _ _⟩

end Records

section Remember

variable {base : Workspace} {c : ClassDefinition} {name : String} {member : Member}

theorem Reading.started {p : Progress} (hp : Reading base p) (hfound : FoundIn base c.name c)
    (hdeclares : Declares c name member) : Reading base (started ⟨c.name, name, member.kind⟩ p) := by
  refine ⟨hp.learned.setTypes _, fun key hkey => ?_⟩
  change (p.workspace.types.begin _).lookup key ≠ none at hkey
  rw [TypeMemo.lookup_begin] at hkey
  split at hkey
  next heq =>
    subst heq
    exact ⟨c, member, hfound, hdeclares, rfl⟩
  next => exact hp.declared key hkey

theorem Reading.settled {w : Workspace} {frame : Frame} {outer : List Frame} {key : MemoKey}
    (hp : Reading base ⟨w, frame :: outer⟩) (hmark : w.types.lookup key = some .inProgress)
    (type? : Option String) : Reading base (settle key type? ⟨w, frame :: outer⟩).2 := by
  rw [settle_run]
  refine ⟨hp.learned.setTypes _, fun asked hasked => ?_⟩
  change (settledMemo w.types key type? frame outer.isEmpty).lookup asked ≠ none at hasked
  rw [lookup_settledMemo hmark] at hasked
  split at hasked
  next heq =>
    subst heq
    exact hp.declared asked (by rw [hmark]; exact nofun)
  next => exact hp.declared asked hasked

theorem Records.remember (hfound : FoundIn base c.name c) (hdeclares : Declares c name member)
    {work : Logged (Option String)} (hwork : Records base (fun _ => True) work) :
    Records base (fun _ => True) (Logged.remember ⟨c.name, name, member.kind⟩ work) := by
  intro log p hp
  unfold Logged.remember
  cases hslot : p.workspace.types.lookup ⟨c.name, name, member.kind⟩ with
  | some slot =>
    cases slot with
    | done type? dependsOn =>
      simp only [remember_done hslot, recordAll_run]
      exact Records.step type? (Notes.recordAll dependsOn).keeps log p hp
    | inProgress =>
      simp only [remember_inProgress hslot]
      exact Records.step none Notes.mark.keeps log p hp
  | none =>
    obtain ⟨-, hreading, hmarks, g, hframes, hg⟩ := hwork log _ (hp.started hfound hdeclares)
    have hmark := hmarks (lookup_started _ p)
    dsimp only
    generalize work log (started ⟨c.name, name, member.kind⟩ p) = result at *
    obtain ⟨⟨type?, log'⟩, w, frames⟩ := result
    cases hframes
    refine ⟨trivial, hreading.settled hmark type?, @fun key hkey => ?_, g, ?_, hg⟩
    · have hne : key ≠ ⟨c.name, name, member.kind⟩ := by
        rintro rfl
        rw [hslot] at hkey
        cases hkey
      have hbegun : (started ⟨c.name, name, member.kind⟩ p).workspace.types.lookup key =
          some .inProgress := by
        change (p.workspace.types.begin _).lookup _ = _
        rw [TypeMemo.lookup_begin, if_neg hne, hkey]
      change (settle _ type? ⟨w, g _ :: p.frames.map g⟩).2.workspace.types.lookup key = _
      rw [settle_run]
      change (settledMemo w.types _ type? _ _).lookup key = _
      rw [lookup_settledMemo hmark, if_neg hne]
      exact hmarks hbegun
    · change (settle _ type? ⟨w, g _ :: p.frames.map g⟩).2.frames = _
      rw [settle_run]

end Remember

def recordsSimulation {base : Workspace} (hbase : base.FiledByName) (limits : Hierarchy.Limits)
    (node : ClassDefinition → Node → Logged (Option String)) :
    Simulation Unit (Logged.surroundings limits) (Logged.surroundings limits) fun _ => node where
  Found name c := FoundIn base name c
  Rel P x _ := Records base P x
  limits_eq := Eq.refl limits
  ret _ ha := .ret ha
  bind hx hf := .bind hx hf
  lookup name := by
    refine .lookUp (fun w hw c hc => ?_) (fun w => Learned.class? name w) fun w => ?_
    · rw [Workspace.class?_fst, hw.classNamed?] at hc
      exact ⟨hc, hbase.classNamed?_name hc⟩
    · obtain ⟨_, _, hrun⟩ := Workspace.class?_run name w
      rw [hrun]
  control controller id := .lookUp (fun _ _ => trivial) (Learned.controlClass? controller id)
    (controlClass?_types controller id)
  remember hfound hdeclares hwork := by
    obtain ⟨hclass, hname⟩ := hfound
    subst hname
    exact .remember ⟨hclass, rfl⟩ hdeclares hwork

theorem records_memberType {base : Workspace} (hbase : base.FiledByName) (limits : Hierarchy.Limits)
    (depth : Nat) (kind : MemberKind) (className name : String) :
    Records base (fun _ => True) (memberType (Logged.surroundings limits)
      (nodeType (chainType (Logged.surroundings limits) depth)) kind className name) :=
  Simulation.deepMemberType (recordsSimulation hbase limits) (fun _ _ _ _ h => h)
    (fun _ => .step () Notes.cut.keeps) depth kind className name

theorem records_memberWork {base : Workspace} (hbase : base.FiledByName) (limits : Hierarchy.Limits)
    (depth : Nat) (c : ClassDefinition) (member : Member) :
    Records base (fun _ => True)
      (memberWork (nodeType (chainType (Logged.surroundings limits) depth)) c member) :=
  (recordsSimulation hbase limits _).memberWork (fun c n => Simulation.deepNodeType
    (recordsSimulation hbase limits) (fun _ _ _ _ h => h) (fun _ => .step () Notes.cut.keeps) depth c n
    (nodeType (chainType (Logged.surroundings limits) depth))) c member

theorem findMember_logged {w : Workspace} {c : ClassDefinition} {name : String} {index : Nat}
    (hclass : w.classNamed? c.name = some c)
    (hindex : (c.members.findIdx? fun f => f.name == name) = some index) (limits : Hierarchy.Limits) :
    findMember (Logged.surroundings limits) c.name name [] ⟨w, []⟩ =
      ((⟨some (c, index), [c.name]⟩, [c.name]), ⟨(Workspace.class? c.name w).2, []⟩) := by
  have hlookup : (Logged.surroundings limits).class? c.name [] ⟨w, []⟩ =
      ((some c, [c.name]), ⟨(Workspace.class? c.name w).2, []⟩) := by
    rw [← hclass, ← Workspace.class?_fst]
    rfl
  have hthrough : ∀ goOn, Hierarchy.findThrough (Logged.surroundings limits).class? limits.rootClass
      name goOn [] c.name [] ⟨w, []⟩ =
        ((⟨some (c, index), [c.name]⟩, [c.name]), ⟨(Workspace.class? c.name w).2, []⟩) := by
    intro goOn
    unfold Hierarchy.findThrough
    rw [if_neg (by simp), Logged.bind_run, hlookup]
    simp only [hindex, List.nil_append]
    rfl
  unfold findMember Hierarchy.findMember
  cases hhops : (Logged.surroundings limits).limits.maxHops with
  | zero => exact hthrough _
  | succ hops => exact hthrough _

theorem memberType_logged {w : Workspace} {c : ClassDefinition} {name : String} {member : Member}
    (hclass : w.classNamed? c.name = some c) (hdeclares : Declares c name member)
    (limits : Hierarchy.Limits) (node : ClassDefinition → Node → Logged (Option String)) :
    memberType (Logged.surroundings limits) node member.kind c.name name [] ⟨w, []⟩ =
      Logged.remember ⟨c.name, name, member.kind⟩ (memberWork node c member) [c.name]
        ⟨(Workspace.class? c.name w).2, []⟩ := by
  obtain ⟨index, hindex, hmember⟩ := hdeclares
  unfold memberType
  rw [Logged.bind_run, findMember_logged hclass hindex]
  simp only [hmember, bne_self_eq_false, Bool.false_eq_true, if_false]
  rfl

/-- Of outermost work that is remembered, all names are recorded in the entry. -/
theorem Records.subset_dependsOn {base w : Workspace} {c : ClassDefinition} {name : String}
    {member : Member} (hfound : FoundIn base c.name c) (hdeclares : Declares c name member)
    {work : Logged (Option String)} (hwork : Records base (fun _ => True) work)
    (hp : Reading base ⟨w, []⟩) (hnone : w.types.lookup ⟨c.name, name, member.kind⟩ = none)
    {type? : Option String} {dependsOn : List String}
    (hdone : (Logged.remember ⟨c.name, name, member.kind⟩ work [c.name] ⟨w, []⟩).2.workspace.types.lookup
      ⟨c.name, name, member.kind⟩ = some (.done type? dependsOn)) :
    (Logged.remember ⟨c.name, name, member.kind⟩ work [c.name] ⟨w, []⟩).1.2 ⊆ dependsOn := by
  obtain ⟨-, -, hmarks, g, hframes, hg⟩ := hwork [c.name] _ (hp.started hfound hdeclares)
  have hmark := hmarks (lookup_started _ _)
  unfold Logged.remember at hdone ⊢
  simp only [hnone] at hdone ⊢
  generalize work [c.name] (started ⟨c.name, name, member.kind⟩ ⟨w, []⟩) = result at *
  obtain ⟨⟨value, log⟩, v, frames⟩ := result
  cases hframes
  change (settle _ value ⟨v, [g ⟨[c.name], false, false⟩]⟩).2.workspace.types.lookup _ = _ at hdone
  rw [settle_run] at hdone
  change (settledMemo v.types _ value _ _).lookup _ = _ at hdone
  rw [lookup_settledMemo hmark, if_pos rfl] at hdone
  split at hdone
  · cases hdone
    have hself := (hg ⟨[c.name], false, false⟩).1
    exact List.Subset.trans (hg _).2 (List.append_subset.2 ⟨hself, List.Subset.refl _⟩)
  · cases hdone

end UiWorkspace.Typing

namespace UiWorkspace.Workspace

open UiWorkspace.Typing

def worked (w : Workspace) (key : MemoKey) : Option MemoSlot :=
  (typeOfMember key.kind key.className key.member
    { w with types := TypeMemo.empty }).2.types.lookup key

theorem worked_eq (w : Workspace) (key : MemoKey) :
    w.worked key = (typeWork w.settings surroundings key
      ⟨{ w with types := TypeMemo.empty }, []⟩).2.workspace.types.lookup key := rfl

theorem worked_eq_logged (w : Workspace) (key : MemoKey) :
    w.worked key = (typeWork w.settings Logged.surroundings key []
      ⟨{ w with types := TypeMemo.empty }, []⟩).2.workspace.types.lookup key := by
  obtain ⟨-, hstate, -⟩ := (lockstep_typeWork lookalike_eq w.settings key).same []
    ⟨{ w with types := TypeMemo.empty }, []⟩ ⟨{ w with types := TypeMemo.empty }, []⟩ rfl rfl
    fun _ _ => trivial
  rw [worked_eq, hstate]

theorem readsFor_subset_of_worked {w : Workspace} (hw : w.FiledByName) {key : MemoKey}
    {type? : Option String} {dependsOn : List String}
    (hdone : w.worked key = some (.done type? dependsOn)) : w.readsFor key ⊆ dependsOn := by
  let limits : Hierarchy.Limits := ⟨w.settings.maxInheritanceHops, w.settings.rootClass⟩
  have hstart : Reading w ⟨{ w with types := TypeMemo.empty }, []⟩ :=
    ⟨(Learned.refl w).setTypes _, fun _ h => absurd rfl h⟩
  have hrecords := records_memberType hw limits w.settings.maxResolutionDepth key.kind key.className
    key.member [] _ hstart
  rw [worked_eq_logged] at hdone
  -- Entries are made for declared members only, so the first class of the walk has this one.
  obtain ⟨c, member, ⟨hclass, hname⟩, hdeclares, hkind⟩ :=
    hrecords.reading.declared key (hdone ▸ nofun)
  obtain ⟨className, name, kind⟩ := key
  cases hname
  cases hkind
  have hclass' : Workspace.classNamed? { w with types := TypeMemo.empty } c.name = some c := hclass
  have hmember := memberType_logged hclass' hdeclares limits
    (Typing.nodeType (Typing.chainType (Logged.surroundings limits) w.settings.maxResolutionDepth))
  have hnone : (class? c.name { w with types := TypeMemo.empty }).2.types.lookup
      ⟨c.name, name, member.kind⟩ = none := by
    obtain ⟨_, _, hrun⟩ := class?_run c.name { w with types := TypeMemo.empty }
    rw [hrun]
    rfl
  have hp : Reading w ⟨(class? c.name { w with types := TypeMemo.empty }).2, []⟩ := by
    obtain ⟨_, _, hrun⟩ := class?_run c.name { w with types := TypeMemo.empty }
    refine ⟨hstart.learned.trans (Learned.class? _ _), ?_⟩
    rw [hrun]
    exact hstart.declared
  have hwork := records_memberWork hw limits w.settings.maxResolutionDepth c member
  rw [readsFor, typeWork, hmember]
  rw [typeWork, hmember] at hdone
  exact hwork.subset_dependsOn ⟨hclass, rfl⟩ hdeclares hp hnone hdone

/-- Workspaces that agree on the classes recorded for a type remember the same type and record the
same classes. -/
theorem recorded_classes_determine_type {w v : Workspace} (hw : Reachable w)
    (hsettings : w.settings = v.settings) (hmanifests : w.manifests = v.manifests)
    (hdocuments : w.documents = v.documents) (hmarkup : ∀ path, w.stored? path = v.stored? path)
    {key : MemoKey} {type? : Option String} {dependsOn : List String}
    (hdone : w.worked key = some (.done type? dependsOn))
    (hclasses : ∀ name ∈ dependsOn, w.classNamed? name = v.classNamed? name) :
    v.worked key = some (.done type? dependsOn) := by
  have hsorted := hw.orderly.sorted
  have hkept : ∀ path, w.cachedDocument? path = v.cachedDocument? path := by
    intro path
    unfold cachedDocument?
    rw [hdocuments]
  have hstart : Parallel w v { w with types := TypeMemo.empty } { v with types := TypeMemo.empty } :=
    { left := (Learned.refl w).setTypes _
      right := (Learned.refl v).setTypes _
      types := rfl
      markup := ⟨hmanifests, hmarkup, hsorted, hdocuments ▸ hsorted, fun _ => hkept _⟩ }
  have hsame : ∀ name ∈ w.readsFor key, SameClass w v name := fun name hname =>
    ⟨hclasses name (readsFor_subset_of_worked hw.orderly.filed hdone hname), fun path _ => hkept path⟩
  -- The logged work in `w` says which classes are looked up; the work in `v` keeps in step with it.
  obtain ⟨-, hparallel, -⟩ := (lockstep_typeWork (lookalike_parallel hsettings) w.settings key).same []
    ⟨{ w with types := TypeMemo.empty }, []⟩ ⟨{ v with types := TypeMemo.empty }, []⟩ hstart rfl hsame
  rw [worked_eq_logged, hparallel.types, hsettings] at hdone
  exact hdone

def isDone (type? : Option String) (dependsOn : List String) : Option MemoSlot → Bool
  | some (.done found? names) => found? == type? && names == dependsOn
  | _ => false

theorem eq_done_of_isDone {type? : Option String} {dependsOn : List String} {slot? : Option MemoSlot}
    (h : isDone type? dependsOn slot? = true) : slot? = some (.done type? dependsOn) := by
  unfold isDone at h
  split at h
  · simpa using h
  · cases h

def cycleScript : String :=
  "X.extend('App.C', \x7b a() \x7b return this.b() \x7d, b() \x7b return c ? this.a() : new ui.B() \x7d \x7d)"

def sampleCycle : Workspace := (handle (.changed ⟨"/app/C.js"⟩ cycleScript) sampleStart).2

theorem recorded_classes_determine_type_sample :
    isDone (some "ui.B") ["App.C"] (sampleCycle.worked ⟨"App.C", "a", .method⟩) = true ∧
      (handle (.changed ⟨"/app/D.js"⟩ "") sampleCycle).2.worked ⟨"App.C", "a", .method⟩ =
        some (.done (some "ui.B") ["App.C"]) := by
  have hw : Reachable sampleCycle := by
    unfold sampleCycle
    exact .notified _ sampleStart_reachable
  have hdone : isDone (some "ui.B") ["App.C"]
      (sampleCycle.worked ⟨"App.C", "a", .method⟩) = true := by decide +kernel
  have hname : sampleCycle.className? ⟨"/app/D.js"⟩ = some "App.D" := by decide +kernel
  generalize sampleCycle = w at *
  have hredefines := Redefines.written (by decide) hname ""
  refine ⟨hdone, recorded_classes_determine_type hw hredefines.settings.symm
    hredefines.manifests.symm hredefines.documents.symm (fun path => (hredefines.stored path).symm)
    (eq_done_of_isDone hdone) fun name hname => ?_⟩
  rw [List.mem_singleton.1 hname]
  exact (hredefines.others (by decide)).symm

end UiWorkspace.Workspace
