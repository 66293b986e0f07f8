import UiWorkspace.Proofs.Typing.Simulation

/-! Evaluation of types without a memo. The plain evaluation follows the rules on fixed classes
and controls to a given depth. The tracked one also notes the classes it reads and stops where a
member leads back to itself; as long as it does not, the two agree. -/
namespace UiWorkspace.Typing

open UiWorkspace.Script

/-- What the rules look up. -/
structure Lookups where
  limits : Hierarchy.Limits
  class? : String → Option ClassDefinition
  control? : (controller id : String) → Option String

namespace Lookups

/-- Surroundings that remember nothing; what is nested too deep has no answer. -/
def plain (t : Lookups) : Surroundings Option where
  limits := t.limits
  class? name := some (t.class? name)
  control? controller id := some (t.control? controller id)
  remember _ work := work
  cutOff := none

/-- The type of a member with at most `depth` chains nested in each other, unless more are. -/
def evaluate? (t : Lookups) (depth : Nat) (key : MemoKey) : Option (Option String) :=
  memberType t.plain (nodeType (chainType t.plain depth)) key.kind key.className key.member

/-- However deep chains may be nested, from some depth on the evaluation ends with the type. -/
def Evaluates (t : Lookups) (key : MemoKey) (type? : Option String) : Prop :=
  ∃ enough, ∀ depth, enough ≤ depth → t.evaluate? depth key = some type?

end Lookups

inductive Ending (α : Type) where
  | value (a : α)
  | cutOff
  /-- A member was needed for its own type. -/
  | reentered

def Ending.isValue {α : Type} : Ending α → Bool
  | .value _ => true
  | _ => false

/-- The end of an evaluation and the classes read for it. -/
structure Trace (α : Type) where
  ending : Ending α
  reads : List String

/-- Evaluation inside that of some members, innermost first. -/
def Tracked (α : Type) : Type := List MemoKey → Trace α

namespace Tracked

variable {α β : Type}

def andThen (t : Trace α) (f : α → Trace β) : Trace β :=
  match t.ending with
  | .value a => ⟨(f a).ending, t.reads ++ (f a).reads⟩
  | .cutOff => ⟨.cutOff, t.reads⟩
  | .reentered => ⟨.reentered, t.reads⟩

instance : Monad Tracked where
  pure a := fun _ => ⟨.value a, []⟩
  bind x f := fun inside => andThen (x inside) fun a => f a inside

theorem bind_run (x : Tracked α) (f : α → Tracked β) (inside : List MemoKey) :
    (x >>= f) inside = andThen (x inside) fun a => f a inside := rfl

theorem andThen_value {t : Trace α} {a : α} (h : t.ending = .value a) (f : α → Trace β) :
    andThen t f = ⟨(f a).ending, t.reads ++ (f a).reads⟩ := by
  rw [andThen, h]

theorem andThen_reentered {t : Trace α} (h : t.ending = .reentered) (f : α → Trace β) :
    andThen t f = ⟨.reentered, t.reads⟩ := by
  rw [andThen, h]

theorem andThen_cutOff {t : Trace α} (h : t.ending = .cutOff) (f : α → Trace β) :
    andThen t f = ⟨.cutOff, t.reads⟩ := by
  rw [andThen, h]

theorem andThen_eq_value {t : Trace α} {f : α → Trace β} {b : β}
    (h : (andThen t f).ending = .value b) : ∃ a, t.ending = .value a ∧ (f a).ending = .value b := by
  cases hend : t.ending with
  | value a =>
    rw [andThen_value hend] at h
    exact ⟨a, rfl, h⟩
  | cutOff =>
    rw [andThen_cutOff hend] at h
    cases h
  | reentered =>
    rw [andThen_reentered hend] at h
    cases h

theorem reads_subset_andThen (t : Trace α) (f : α → Trace β) : t.reads ⊆ (andThen t f).reads := by
  cases hend : t.ending with
  | value a =>
    rw [andThen_value hend]
    exact List.subset_append_left _ _
  | cutOff => rw [andThen_cutOff hend]; exact List.Subset.refl _
  | reentered => rw [andThen_reentered hend]; exact List.Subset.refl _

theorem andThen_congr {t u : Trace α} {f g : α → Trace β} (ht : u = t)
    (hf : ∀ a, t.ending = .value a → g a = f a) : andThen u g = andThen t f := by
  subst ht
  cases hend : u.ending with
  | value a => rw [andThen_value hend, andThen_value hend, hf a hend]
  | cutOff => rw [andThen_cutOff hend, andThen_cutOff hend]
  | reentered => rw [andThen_reentered hend, andThen_reentered hend]

theorem holds_bind {P : α → Prop} {Q : β → Prop} {x : Tracked α} {f : α → Tracked β}
    (hx : ∀ inside a, (x inside).ending = .value a → P a)
    (hf : ∀ a, P a → ∀ inside b, (f a inside).ending = .value b → Q b) :
    ∀ inside b, ((x >>= f) inside).ending = .value b → Q b := by
  intro inside b hb
  obtain ⟨a, ha, hb⟩ := andThen_eq_value hb
  exact hf a (hx inside a ha) inside b hb

end Tracked

namespace Lookups

/-- Surroundings that note the classes read and the members being evaluated. -/
def tracked (t : Lookups) : Surroundings Tracked where
  limits := t.limits
  class? name := fun _ => ⟨.value (t.class? name), [name]⟩
  control? controller id := fun _ => ⟨.value (t.control? controller id), [controller]⟩
  remember key work := fun inside =>
    if key ∈ inside then ⟨.reentered, []⟩ else work (key :: inside)
  cutOff := fun _ => ⟨.cutOff, []⟩

def trackedNode (t : Lookups) (depth : Nat) : ClassDefinition → Node → Tracked (Option String) :=
  nodeType (chainType t.tracked depth)

def trace (t : Lookups) (depth : Nat) (key : MemoKey) : Tracked (Option String) :=
  memberType t.tracked (t.trackedNode depth) key.kind key.className key.member

/-- The type of a member cannot be found without the type of a member that is being evaluated
for it. -/
def Reenters (t : Lookups) (key : MemoKey) : Prop :=
  ∃ depth, (t.trace depth key []).ending = .reentered

/-- The plain evaluation ends with the value that the tracked one has. -/
structure Follows {α : Type} (P : α → Prop) (x : Tracked α) (y : Option α) : Prop where
  holds (inside : List MemoKey) (a : α) : (x inside).ending = .value a → P a
  value (inside : List MemoKey) (a : α) : (x inside).ending = .value a → y = some a

theorem Follows.bind {α β : Type} {P : α → Prop} {Q : β → Prop} {x : Tracked α} {y : Option α}
    {f : α → Tracked β} {g : α → Option β} (hx : Follows P x y)
    (hf : ∀ a, P a → Follows Q (f a) (g a)) : Follows Q (x >>= f) (y >>= g) := by
  constructor
  · exact Tracked.holds_bind hx.holds fun a ha => (hf a ha).holds
  · intro inside b hb
    obtain ⟨a, ha, hb⟩ := Tracked.andThen_eq_value hb
    rw [hx.value inside a ha]
    exact (hf a (hx.holds inside a ha)).value inside b hb

theorem follows_cutOff (t : Lookups) : Follows (fun _ => True) t.tracked.cutOff t.plain.cutOff :=
  ⟨fun _ _ _ => trivial, fun _ _ h => by cases h⟩

def followsSimulation (t : Lookups) (node : ClassDefinition → Node → Option (Option String)) :
    Simulation Unit t.tracked t.plain fun _ => node where
  Found _ _ := True
  Rel P x y := Follows P x (y ())
  limits_eq := rfl
  ret a ha := ⟨fun _ _ h => by cases h; exact ha, fun _ _ h => by cases h; rfl⟩
  bind hx hf := hx.bind hf
  lookup name := ⟨fun _ _ _ _ _ => trivial, fun _ _ h => by cases h; rfl⟩
  control controller id := ⟨fun _ _ _ => trivial, fun _ _ h => by cases h; rfl⟩
  remember {_ name c member work} _ _ hwork := by
    refine ⟨fun _ _ _ => trivial, fun inside a h => ?_⟩
    simp only [tracked] at h
    split at h
    · cases h
    · exact hwork.value _ a h

theorem evaluate?_of_trace (t : Lookups) {depth : Nat} {key : MemoKey} {inside : List MemoKey}
    {type? : Option String} (h : (t.trace depth key inside).ending = .value type?) :
    t.evaluate? depth key = some type? :=
  (Simulation.deepMemberType t.followsSimulation (fun _ _ _ _ h => h)
    (fun _ => t.follows_cutOff) depth key.kind key.className key.member).value inside type? h

/-- Unless the first evaluation is cut off, the second goes the same way. -/
structure Deepens {α : Type} (P : α → Prop) (x y : Tracked α) : Prop where
  holds (inside : List MemoKey) (a : α) : (x inside).ending = .value a → P a
  same (inside : List MemoKey) : (x inside).ending ≠ .cutOff → y inside = x inside

theorem Deepens.bind {α β : Type} {P : α → Prop} {Q : β → Prop} {x y : Tracked α} {f g : α → Tracked β}
    (hx : Deepens P x y) (hf : ∀ a, P a → Deepens Q (f a) (g a)) : Deepens Q (x >>= f) (y >>= g) := by
  constructor
  · exact Tracked.holds_bind hx.holds fun a ha => (hf a ha).holds
  · intro inside huncut
    rw [Tracked.bind_run] at huncut
    refine Tracked.andThen_congr (hx.same inside fun hcut => ?_) fun a ha =>
      (hf a (hx.holds inside a ha)).same inside ?_
    · rw [Tracked.andThen_cutOff hcut] at huncut
      exact huncut rfl
    · rwa [Tracked.andThen_value ha] at huncut

def deepensSimulation (t : Lookups) (node : ClassDefinition → Node → Tracked (Option String)) :
    Simulation Unit t.tracked t.tracked fun _ => node where
  Found _ _ := True
  Rel P x y := Deepens P x (y ())
  limits_eq := rfl
  ret a ha := ⟨fun _ _ h => by cases h; exact ha, fun _ _ => rfl⟩
  bind hx hf := hx.bind hf
  lookup name := ⟨fun _ _ _ _ _ => trivial, fun _ _ => rfl⟩
  control controller id := ⟨fun _ _ _ => trivial, fun _ _ => rfl⟩
  remember {_ name c member work} _ _ hwork := by
    refine ⟨fun _ _ _ => trivial, fun inside huncut => ?_⟩
    simp only [tracked] at huncut ⊢
    split
    · rfl
    next hfresh =>
      rw [if_neg hfresh] at huncut
      exact hwork.same _ huncut

theorem deepens_chainType (t : Lookups) (depth more : Nat) (c : ClassDefinition) (chain : Chain)
    (offset : Nat) : Deepens (fun _ => True) (chainType t.tracked depth c chain offset)
      (chainType t.tracked (depth + more) c chain offset) := by
  induction depth generalizing c chain offset with
  | zero => exact ⟨fun _ _ _ => trivial, fun _ huncut => absurd rfl huncut⟩
  | succ depth ih =>
    rw [Nat.succ_add]
    let S := t.deepensSimulation (nodeType (chainType t.tracked (depth + more)))
    have hnode := S.nodeType (f := chainType t.tracked depth)
      (g := fun _ => chainType t.tracked (depth + more)) ih
    exact S.chainTypeFrom hnode c chain offset

theorem trace_add (t : Lookups) {depth : Nat} {key : MemoKey} {inside : List MemoKey}
    (huncut : (t.trace depth key inside).ending ≠ .cutOff) (more : Nat) :
    t.trace (depth + more) key inside = t.trace depth key inside := by
  let S := t.deepensSimulation (t.trackedNode (depth + more))
  have hnode := S.nodeType (f := chainType t.tracked depth)
    (g := fun _ => chainType t.tracked (depth + more)) (t.deepens_chainType depth more)
  exact (S.memberType hnode key.kind key.className key.member).same inside huncut

theorem trace_agree (t : Lookups) {depth other : Nat} {key : MemoKey} {inside : List MemoKey}
    (huncut : (t.trace depth key inside).ending ≠ .cutOff)
    (huncut' : (t.trace other key inside).ending ≠ .cutOff) :
    t.trace depth key inside = t.trace other key inside := by
  rcases Nat.le_total depth other with hle | hle
  · obtain ⟨more, rfl⟩ := Nat.exists_eq_add_of_le hle
    exact (t.trace_add huncut more).symm
  · obtain ⟨more, rfl⟩ := Nat.exists_eq_add_of_le hle
    exact t.trace_add huncut' more

/-- One evaluation that comes to a type shows that no deeper or shallower one leads back. -/
theorem not_reenters_of_value {t : Lookups} {depth : Nat} {key : MemoKey}
    (h : (t.trace depth key []).ending.isValue = true) : ¬ t.Reenters key := by
  rintro ⟨other, hreentered⟩
  have huncut : (t.trace depth key []).ending ≠ .cutOff := by
    intro hcut
    rw [hcut] at h
    cases h
  rw [t.trace_agree huncut (by rw [hreentered]; nofun), hreentered] at h
  cases h

structure AgreeOff (changed : String) (t u : Lookups) : Prop where
  limits : t.limits = u.limits
  class? {name : String} : name ≠ changed → t.class? name = u.class? name
  control? {controller : String} (id : String) : controller ≠ changed →
    t.control? controller id = u.control? controller id

/-- An evaluation that does not read the class goes the same way on the other side. -/
structure Unaffected (changed : String) {α : Type} (P : α → Prop) (x y : Tracked α) : Prop where
  holds (inside : List MemoKey) (a : α) : (x inside).ending = .value a → P a
  same (inside : List MemoKey) : changed ∉ (x inside).reads → y inside = x inside

theorem Unaffected.bind {changed : String} {α β : Type} {P : α → Prop} {Q : β → Prop}
    {x y : Tracked α} {f g : α → Tracked β} (hx : Unaffected changed P x y)
    (hf : ∀ a, P a → Unaffected changed Q (f a) (g a)) :
    Unaffected changed Q (x >>= f) (y >>= g) := by
  constructor
  · exact Tracked.holds_bind hx.holds fun a ha => (hf a ha).holds
  · intro inside hunread
    rw [Tracked.bind_run] at hunread
    refine Tracked.andThen_congr (hx.same inside fun hread => ?_) fun a ha =>
      (hf a (hx.holds inside a ha)).same inside fun hread => ?_
    · exact hunread (Tracked.reads_subset_andThen _ _ hread)
    · rw [Tracked.andThen_value ha] at hunread
      exact hunread (List.mem_append_right _ hread)

theorem unaffected_cutOff (changed : String) (t u : Lookups) :
    Unaffected changed (fun _ => True) t.tracked.cutOff u.tracked.cutOff :=
  ⟨fun _ _ _ => trivial, fun _ _ => rfl⟩

def unaffectedSimulation {changed : String} {t u : Lookups} (h : AgreeOff changed t u)
    (node : ClassDefinition → Node → Tracked (Option String)) :
    Simulation Unit t.tracked u.tracked fun _ => node where
  Found _ _ := True
  Rel P x y := Unaffected changed P x (y ())
  limits_eq := h.limits
  ret a ha := ⟨fun _ _ h => by cases h; exact ha, fun _ _ => rfl⟩
  bind hx hf := hx.bind hf
  lookup name := by
    refine ⟨fun _ _ _ _ _ => trivial, fun inside hunread => ?_⟩
    have hname : name ≠ changed := fun heq => hunread (heq ▸ List.mem_cons_self)
    simp only [tracked, h.class? hname]
  control controller id := by
    refine ⟨fun _ _ _ => trivial, fun inside hunread => ?_⟩
    have hname : controller ≠ changed := fun heq => hunread (heq ▸ List.mem_cons_self)
    simp only [tracked, h.control? id hname]
  remember {_ name c member work} _ _ hwork := by
    refine ⟨fun _ _ _ => trivial, fun inside hunread => ?_⟩
    simp only [tracked] at hunread ⊢
    split
    · rfl
    next hfresh =>
      rw [if_neg hfresh] at hunread
      exact hwork.same _ hunread

theorem trace_of_agreeOff {changed : String} {t u : Lookups} (h : AgreeOff changed t u) (depth : Nat)
    (key : MemoKey) (inside : List MemoKey) (hunread : changed ∉ (t.trace depth key inside).reads) :
    u.trace depth key inside = t.trace depth key inside :=
  (Simulation.deepMemberType (unaffectedSimulation h) (fun _ _ _ _ h => h)
    (fun _ => unaffected_cutOff changed t u) depth key.kind key.className
    key.member).same inside hunread

end Lookups

end UiWorkspace.Typing
