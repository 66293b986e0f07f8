import UiWorkspace.Typing.Rules

/-! The typing rules are generic in the computations they are made of. A relation between
computations of two kinds that respects their composition and the surroundings is therefore
respected by every rule. The second side may be a family, such as one computation for each
depth. -/
namespace UiWorkspace.Typing

open UiWorkspace.Script

def memberWork {m : Type → Type} [Monad m] (node : ClassDefinition → Node → m (Option String))
    (c : ClassDefinition) (member : Member) : m (Option String) :=
  match member.kind with
  | .method => returnType node c member
  | .field => valueType node c member

def Declares (c : ClassDefinition) (name : String) (member : Member) : Prop :=
  ∃ index, (c.members.findIdx? fun f => f.name == name) = some index ∧
    c.members[index]? = some member

/-- A relation of computations together with what their results have in common. `Found` is
what is known of a class that was looked up by name. -/
structure Simulation {m₁ m₂ : Type → Type} [Monad m₁] [Monad m₂] (ι : Type)
    (s₁ : Surroundings m₁) (s₂ : Surroundings m₂)
    (node₂ : ι → ClassDefinition → Node → m₂ (Option String)) where
  Found : String → ClassDefinition → Prop
  Rel : {α : Type} → (α → Prop) → m₁ α → (ι → m₂ α) → Prop
  limits_eq : s₁.limits = s₂.limits
  ret {α : Type} {P : α → Prop} (a : α) : P a → Rel P (pure a) fun _ => pure a
  bind {α β : Type} {P : α → Prop} {Q : β → Prop} {x : m₁ α} {y : ι → m₂ α}
    {f : α → m₁ β} {g : ι → α → m₂ β} : Rel P x y →
    (∀ a, P a → Rel Q (f a) fun i => g i a) → Rel Q (x >>= f) fun i => y i >>= g i
  lookup (name : String) :
    Rel (fun found? => ∀ c, found? = some c → Found name c) (s₁.class? name) fun _ => s₂.class? name
  control (controller id : String) :
    Rel (fun _ => True) (s₁.control? controller id) fun _ => s₂.control? controller id
  remember {asked name : String} {c : ClassDefinition} {member : Member}
    {work : m₁ (Option String)} : Found asked c → Declares c name member →
    Rel (fun _ => True) work (fun i => memberWork (node₂ i) c member) →
    Rel (fun _ => True) (s₁.remember ⟨c.name, name, member.kind⟩ work) fun i =>
      s₂.remember ⟨c.name, name, member.kind⟩ (memberWork (node₂ i) c member)

namespace Simulation

variable {m₁ m₂ : Type → Type} [Monad m₁] [Monad m₂] {ι : Type}
  {s₁ : Surroundings m₁} {s₂ : Surroundings m₂}
  {node₂ : ι → ClassDefinition → Node → m₂ (Option String)}
  (S : Simulation ι s₁ s₂ node₂)

abbrev Sim {α : Type} (x : m₁ α) (y : ι → m₂ α) : Prop := S.Rel (fun _ => True) x y

theorem sim_ret {α : Type} (a : α) : S.Sim (pure a) fun _ => pure a := S.ret a trivial

theorem sim_bind {α β : Type} {x : m₁ α} {y : ι → m₂ α} {f : α → m₁ β} {g : ι → α → m₂ β}
    (hx : S.Sim x y) (hf : ∀ a, S.Sim (f a) fun i => g i a) :
    S.Sim (x >>= f) fun i => y i >>= g i :=
  S.bind hx fun a _ => hf a

theorem agree {β : Type} (items : List β) {f : β → m₁ (Option String)}
    {g : ι → β → m₂ (Option String)} (hf : ∀ b ∈ items, S.Sim (f b) fun i => g i b)
    (found : Option String) :
    S.Sim (Typing.agree found (items.map f)) fun i => Typing.agree found (items.map (g i)) := by
  induction items generalizing found with
  | nil => cases found <;> exact S.sim_ret _
  | cons b rest ih =>
    have hrest := ih fun b' hb' => hf b' (List.mem_cons_of_mem b hb')
    have hb := hf b List.mem_cons_self
    simp only [List.map_cons, Typing.agree]
    apply S.sim_bind hb
    intro type?
    cases type? with
    | none => exact hrest found
    | some type =>
      cases found with
      | none => exact hrest (some type)
      | some known =>
        dsimp only
        split
        · exact hrest (some known)
        · exact S.sim_ret none

theorem evidenceType {f : Node → m₁ (Option String)} {g : ι → Node → m₂ (Option String)}
    (hf : ∀ n, S.Sim (f n) fun i => g i n) (evidence : Evidence) :
    S.Sim (Typing.evidenceType f evidence) fun i => Typing.evidenceType (g i) evidence := by
  induction evidence with
  | nothing => exact S.sim_ret none
  | expression n => exact hf n
  | either a b iha ihb =>
    have hmem : ∀ e ∈ [a, b], S.Sim (Typing.evidenceType f e) fun i => Typing.evidenceType (g i) e := by
      intro e he
      rcases List.mem_cons.1 he with rfl | he
      · exact iha
      · cases List.mem_singleton.1 he
        exact ihb
    exact S.agree [a, b] hmem none

theorem nodeType {f : ClassDefinition → Chain → Nat → m₁ (Option String)}
    {g : ι → ClassDefinition → Chain → Nat → m₂ (Option String)}
    (hf : ∀ c chain offset, S.Sim (f c chain offset) fun i => g i c chain offset)
    (c : ClassDefinition) (n : Node) :
    S.Sim (Typing.nodeType f c n) fun i => Typing.nodeType (g i) c n := by
  unfold Typing.nodeType
  cases c.source? with
  | none => exact S.sim_ret none
  | some source =>
    apply S.evidenceType
    intro leaf
    cases Chain.ofNode? leaf source.text with
    | none => exact S.sim_ret none
    | some written => exact hf c written leaf.span.start

section

variable {node₁ : ClassDefinition → Node → m₁ (Option String)}
  (hnode : ∀ c n, S.Sim (node₁ c n) fun i => node₂ i c n)

include hnode

theorem memberWork (c : ClassDefinition) (member : Member) :
    S.Sim (Typing.memberWork node₁ c member) fun i => Typing.memberWork (node₂ i) c member := by
  unfold Typing.memberWork
  cases member.kind with
  | method =>
    unfold Typing.returnType
    cases member.inferred? with
    | some type => exact S.sim_ret _
    | none =>
      cases c.source? with
      | none => exact S.sim_ret none
      | some source =>
        cases member.body? with
        | none => exact S.sim_ret none
        | some body =>
          dsimp only
          split
          · exact S.agree _ (fun n _ => hnode c n) none
          · exact S.sim_ret none
  | field =>
    unfold Typing.valueType
    cases member.inferred? with
    | some type => exact S.sim_ret _
    | none =>
      cases c.source? with
      | none => exact S.sim_ret none
      | some source => exact S.agree _ (fun n _ => hnode c n) none

end

/-- What a walk finds: a class that was looked up, and in it the first member with the name. -/
def WalkFinds (member : String) (walk : Hierarchy.Walk) : Prop :=
  ∀ c index, walk.found? = some (c, index) → (∃ asked, S.Found asked c) ∧
    (c.members.findIdx? fun f => f.name == member) = some index

theorem walkFinds_none (member : String) (visited : List String) :
    S.WalkFinds member ⟨none, visited⟩ := by
  intro c index h
  cases h

theorem findThrough (rootClass member : String) {goOn₁ : List String → String → m₁ Hierarchy.Walk}
    {goOn₂ : List String → String → m₂ Hierarchy.Walk}
    (hgoOn : ∀ visited name,
      S.Rel (S.WalkFinds member) (goOn₁ visited name) fun _ => goOn₂ visited name)
    (visited : List String) (name : String) :
    S.Rel (S.WalkFinds member) (Hierarchy.findThrough s₁.class? rootClass member goOn₁ visited name)
      fun _ => Hierarchy.findThrough s₂.class? rootClass member goOn₂ visited name := by
  unfold Hierarchy.findThrough
  split
  · exact S.ret _ (S.walkFinds_none member _)
  · apply S.bind (S.lookup name)
    intro found? hfound
    cases found? with
    | none => exact S.ret _ (S.walkFinds_none member _)
    | some c =>
      dsimp only
      cases hindex : c.members.findIdx? fun f => f.name == member with
      | some index =>
        apply S.ret
        intro c' index' h
        cases h
        exact ⟨⟨name, hfound c rfl⟩, hindex⟩
      | none =>
        cases c.parent? with
        | none => exact S.ret _ (S.walkFinds_none member _)
        | some parent =>
          dsimp only
          split
          · exact S.ret _ (S.walkFinds_none member _)
          · exact hgoOn _ parent

theorem findFrom (rootClass member : String) (hops : Nat) (visited : List String) (name : String) :
    S.Rel (S.WalkFinds member) (Hierarchy.findFrom s₁.class? rootClass member hops visited name)
      fun _ => Hierarchy.findFrom s₂.class? rootClass member hops visited name := by
  induction hops generalizing visited name with
  | zero => exact S.findThrough rootClass member (fun _ _ => S.ret _ (S.walkFinds_none member _)) _ _
  | succ hops ih => exact S.findThrough rootClass member ih _ _

theorem findMember (className member : String) :
    S.Rel (S.WalkFinds member) (Typing.findMember s₁ className member)
      fun _ => Typing.findMember s₂ className member := by
  unfold Typing.findMember Hierarchy.findMember
  rw [S.limits_eq]
  exact S.findFrom _ member _ _ className

theorem isProjectClass (name : String) :
    S.Sim (Typing.isProjectClass s₁ name) fun _ => Typing.isProjectClass s₂ name :=
  S.bind (S.lookup name) fun _ _ => S.sim_ret _

section

variable {node₁ : ClassDefinition → Node → m₁ (Option String)}
  (hnode : ∀ c n, S.Sim (node₁ c n) fun i => node₂ i c n)

include hnode

theorem memberType (kind : MemberKind) (className name : String) :
    S.Sim (Typing.memberType s₁ node₁ kind className name)
      fun i => Typing.memberType s₂ (node₂ i) kind className name := by
  unfold Typing.memberType
  apply S.bind (S.findMember className name)
  intro walk hwalk
  cases hfound : walk.found? with
  | none => exact S.sim_ret none
  | some found =>
    obtain ⟨c, index⟩ := found
    obtain ⟨⟨asked, hasked⟩, hindex⟩ := hwalk c index hfound
    dsimp only
    cases hmember : c.members[index]? with
    | none => exact S.sim_ret none
    | some member =>
      dsimp only
      split
      · exact S.sim_ret none
      next hkind =>
        have hkind : member.kind = kind := by simpa using hkind
        subst hkind
        exact S.remember hasked ⟨index, hindex, hmember⟩ (S.memberWork hnode c member)

omit hnode in
theorem calledControl? (owner method : String) (argument? view? : Option String) :
    S.Sim (Typing.calledControl? s₁ owner method argument? view?)
      fun _ => Typing.calledControl? s₂ owner method argument? view? := by
  unfold Typing.calledControl?
  cases argument? with
  | none => exact S.sim_ret none
  | some id =>
    dsimp only
    split
    · exact S.sim_ret none
    · cases view? with
      | some controller => exact S.control controller id
      | none =>
        apply S.sim_bind (S.isProjectClass owner)
        intro isProject
        cases isProject with
        | true => exact S.control owner id
        | false => exact S.sim_ret none

theorem callType (owner method : String) (argument? view? : Option String) :
    S.Sim (Typing.callType s₁ node₁ owner method argument? view?)
      fun i => Typing.callType s₂ (node₂ i) owner method argument? view? := by
  unfold Typing.callType
  apply S.sim_bind (S.calledControl? owner method argument? view?)
  intro control?
  cases control? with
  | some control => exact S.sim_ret _
  | none =>
    apply S.sim_bind (S.memberType hnode .method owner method)
    intro type?
    split
    · exact S.sim_ret _
    · apply S.sim_bind (S.isProjectClass owner)
      intro isProject
      cases isProject <;> exact S.sim_ret _

theorem segmentsType (head? view? : Option String) (segments : List ChainSegment) :
    S.Sim (Typing.segmentsType s₁ node₁ head? view? segments)
      fun i => Typing.segmentsType s₂ (node₂ i) head? view? segments := by
  induction head?, view?, segments using Typing.segmentsType.induct with
  | case1 view? head? =>
    simp only [Typing.segmentsType]
    exact S.sim_ret head?
  | case2 view? segment rest =>
    simp only [Typing.segmentsType]
    exact S.sim_ret none
  | case3 owner view? name span? argument? rest ih =>
    simp only [Typing.segmentsType]
    exact S.sim_bind (S.callType hnode owner name argument? view?) fun result => ih result.1 result.2
  | case4 view? owner name span? rest _ ih =>
    simp only [Typing.segmentsType]
    exact S.sim_bind (S.memberType hnode .field owner name) ih
  | case5 view? owner argument? rest =>
    simp only [Typing.segmentsType]
    exact S.sim_ret none

omit hnode in
theorem globalClass? (name : String) (segments : List ChainSegment) :
    S.Sim (Typing.globalClass? s₁ name segments) fun _ => Typing.globalClass? s₂ name segments := by
  induction segments generalizing name with
  | nil =>
    simp only [Typing.globalClass?]
    exact S.sim_ret none
  | cons segment rest ih =>
    cases segment with
    | call argument? =>
      simp only [Typing.globalClass?]
      exact S.sim_ret none
    | property part span? =>
      simp only [Typing.globalClass?]
      apply S.bind (S.lookup _)
      intro found? _
      split
      · exact S.sim_ret _
      · exact ih _

omit hnode in
theorem freeNameType (c : ClassDefinition) (name : String) (segments : List ChainSegment) :
    S.Sim (Typing.freeNameType s₁ c name segments)
      fun _ => Typing.freeNameType s₂ c name segments := by
  unfold Typing.freeNameType
  cases c.aliases.lookup name with
  | some full => exact S.sim_ret _
  | none =>
    apply S.sim_bind (S.globalClass? name segments)
    intro global?
    cases global? <;> exact S.sim_ret _

theorem nameType (c : ClassDefinition) (name : String) (offset : Nat)
    (segments : List ChainSegment) :
    S.Sim (Typing.nameType s₁ node₁ c name offset segments)
      fun i => Typing.nameType s₂ (node₂ i) c name offset segments := by
  unfold Typing.nameType
  cases c.source? with
  | none => exact S.freeNameType c name segments
  | some source =>
    dsimp only
    cases binding source.tree source.text offset name source.factory? with
    | «variable» values =>
      exact S.sim_bind (S.agree values (fun n _ => hnode c n) none) fun _ => S.sim_ret _
    | parameter docType? => exact S.sim_ret _
    | factoryParameter => exact S.freeNameType c name segments
    | unbound => exact S.freeNameType c name segments

theorem chainTypeFrom (c : ClassDefinition) (chain : Chain) (offset : Nat) :
    S.Sim (Typing.chainTypeFrom s₁ node₁ c chain offset)
      fun i => Typing.chainTypeFrom s₂ (node₂ i) c chain offset := by
  unfold Typing.chainTypeFrom
  cases chain.head with
  | this => exact S.segmentsType hnode _ none chain.segments
  | construct constructor => exact S.segmentsType hnode _ none chain.segments
  | identifier name =>
    exact S.sim_bind (S.nameType hnode c name offset chain.segments) fun result =>
      S.segmentsType hnode result.1 none result.2

end

section

variable {m₁ m₂ : Type → Type} [Monad m₁] [Monad m₂] {s₁ : Surroundings m₁} {s₂ : Surroundings m₂}
  (S : ∀ node : ClassDefinition → Node → m₂ (Option String), Simulation Unit s₁ s₂ fun _ => node)
  (hone : ∀ node node' (x : m₁ (Option String)) (y : m₂ (Option String)),
    (S node).Sim x (fun _ => y) → (S node').Sim x fun _ => y)
  (hcutOff : ∀ node, (S node).Sim s₁.cutOff fun _ => s₂.cutOff)

include hone hcutOff

theorem chainType (depth : Nat) (c : ClassDefinition) (chain : Chain) (offset : Nat)
    (node : ClassDefinition → Node → m₂ (Option String)) :
    (S node).Sim (Typing.chainType s₁ depth c chain offset)
      fun _ => Typing.chainType s₂ depth c chain offset := by
  induction depth generalizing c chain offset node with
  | zero => exact (S node).sim_bind (hcutOff node) fun _ => (S node).sim_ret none
  | succ depth ih =>
    let inner := Typing.nodeType (Typing.chainType s₂ depth)
    have hnode := (S inner).nodeType (f := Typing.chainType s₁ depth)
      (g := fun _ => Typing.chainType s₂ depth) fun c chain offset => ih c chain offset inner
    exact hone inner node _ _ ((S inner).chainTypeFrom hnode c chain offset)

theorem deepNodeType (depth : Nat) (c : ClassDefinition) (n : Node)
    (node : ClassDefinition → Node → m₂ (Option String)) :
    (S node).Sim (Typing.nodeType (Typing.chainType s₁ depth) c n)
      fun _ => Typing.nodeType (Typing.chainType s₂ depth) c n :=
  (S node).nodeType (f := Typing.chainType s₁ depth) (g := fun _ => Typing.chainType s₂ depth)
    (fun c chain offset => chainType S hone hcutOff depth c chain offset node) c n

theorem deepMemberType (depth : Nat) (kind : MemberKind) (className name : String) :
    (S (Typing.nodeType (Typing.chainType s₂ depth))).Sim
      (Typing.memberType s₁ (Typing.nodeType (Typing.chainType s₁ depth)) kind className name)
      fun _ => Typing.memberType s₂ (Typing.nodeType (Typing.chainType s₂ depth)) kind className name :=
  (S _).memberType (fun c n => deepNodeType S hone hcutOff depth c n _) kind className name

end

end Simulation

end UiWorkspace.Typing
