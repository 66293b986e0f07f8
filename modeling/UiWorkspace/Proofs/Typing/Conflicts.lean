import UiWorkspace.Proofs.Script.NamePlaces
import UiWorkspace.Proofs.Typing.Balance
import UiWorkspace.Proofs.Typing.EditRuns

/-! Conflicting evidence. An expression of conditionals, parentheses and assignments has a type only
if the leaves that are heard agree on it. A leaf is heard unless it lies in a branch whose own leaves
are in dispute: such a branch has no type, and the conditional around it takes that for no evidence. -/
namespace UiWorkspace.Typing

open UiWorkspace.Script

inductive CanBecome : Node → Node → Prop
  | itself {n : Node} : n.is .parenthesized = false → n.is .assignment = false →
      n.is .ternary = false → CanBecome n n
  | inside {n inner leaf : Node} : n.is .parenthesized = true →
      n.children.find? Node.isNamed = some inner → CanBecome inner leaf → CanBecome n leaf
  | assigned {n value leaf : Node} : n.is .assignment = true → n.part? .right = some value →
      CanBecome value leaf → CanBecome n leaf
  | branch {n branch leaf : Node} {role : Role} : n.is .ternary = true →
      role = .consequence ∨ role = .alternative → n.part? role = some branch →
      CanBecome branch leaf → CanBecome n leaf

namespace Evidence

/-- The expressions that evidence consists of, in the order in which they are asked. -/
def leaves : Evidence → List Node
  | .nothing => []
  | .expression n => [n]
  | .either a b => a.leaves ++ b.leaves

theorem ofFirst_eq (children : List Node) :
    ofFirst children = ((children.find? Node.isNamed).map ofNode).getD .nothing := by
  induction children with
  | nil => rfl
  | cons c cs ih =>
    rw [ofFirst, List.find?_cons]
    cases c.isNamed with
    | true => rfl
    | false => exact ih

theorem ofPart_eq (role : Role) (children : List Node) :
    ofPart role children = ((children.find? fun c => c.role == some role).map ofNode).getD .nothing := by
  induction children with
  | nil => rfl
  | cons c cs ih =>
    rw [ofPart, List.find?_cons]
    cases c.role == some role with
    | true => rfl
    | false => exact ih

theorem ofNode_eq (n : Node) :
    ofNode n =
      if n.is .parenthesized then ofFirst n.children
      else if n.is .assignment then ofPart .right n.children
      else if n.is .ternary then
        .either (ofPart .consequence n.children) (ofPart .alternative n.children)
      else .expression n := by
  cases n
  rw [ofNode]
  rfl

theorem mem_leaves_of_canBecome {n leaf : Node} (h : CanBecome n leaf) : leaf ∈ (ofNode n).leaves := by
  induction h with
  | itself hparenthesized hassignment hternary =>
    rw [ofNode_eq, hparenthesized, hassignment, hternary]
    exact List.mem_singleton_self _
  | inside hkind hinner _ ih =>
    rw [ofNode_eq, if_pos hkind, ofFirst_eq, hinner]
    exact ih
  | assigned hkind hvalue _ ih =>
    rw [ofNode_eq, Node.is_eq_false hkind (by decide : Kind.assignment ≠ .parenthesized), hkind, ofPart_eq,
      ← Node.part?, hvalue]
    exact ih
  | branch hkind hrole hbranch _ ih =>
    rw [ofNode_eq, Node.is_eq_false hkind (by decide : Kind.ternary ≠ .parenthesized),
      Node.is_eq_false hkind (by decide : Kind.ternary ≠ .assignment), hkind]
    rcases hrole with rfl | rfl
    · refine List.mem_append_left _ ?_
      rw [ofPart_eq, ← Node.part?, hbranch]
      exact ih
    · refine List.mem_append_right _ ?_
      rw [ofPart_eq, ← Node.part?, hbranch]
      exact ih

theorem sizeOf_lt_of_find? {n c : Node} {p : Node → Bool} (h : n.children.find? p = some c) :
    sizeOf c < sizeOf n := by
  cases n with
  | mk label role span children =>
    have hsize : sizeOf c < sizeOf children := List.sizeOf_lt_of_mem (List.mem_of_find?_eq_some h)
    simp only [Node.mk.sizeOf_spec]
    omega

theorem exists_of_mem_leaves {found? : Option Node} {leaf : Node}
    (h : leaf ∈ ((found?.map ofNode).getD .nothing).leaves) :
    ∃ c, found? = some c ∧ leaf ∈ (ofNode c).leaves := by
  cases found? with
  | none => cases h
  | some c => exact ⟨c, rfl, h⟩

theorem canBecome_of_mem_leaves {n leaf : Node} (h : leaf ∈ (ofNode n).leaves) : CanBecome n leaf := by
  rw [ofNode_eq] at h
  split at h
  next hkind =>
    rw [ofFirst_eq] at h
    obtain ⟨inner, hinner, h⟩ := exists_of_mem_leaves h
    exact .inside hkind hinner (canBecome_of_mem_leaves h)
  next hparenthesized =>
    split at h
    next hkind =>
      rw [ofPart_eq] at h
      obtain ⟨value, hvalue, h⟩ := exists_of_mem_leaves h
      exact .assigned hkind hvalue (canBecome_of_mem_leaves h)
    next hassignment =>
      split at h
      next hkind =>
        rw [leaves, ofPart_eq, ofPart_eq] at h
        rcases List.mem_append.1 h with h | h
        · obtain ⟨branch, hbranch, h⟩ := exists_of_mem_leaves h
          exact .branch hkind (.inl rfl) hbranch (canBecome_of_mem_leaves h)
        · obtain ⟨branch, hbranch, h⟩ := exists_of_mem_leaves h
          exact .branch hkind (.inr rfl) hbranch (canBecome_of_mem_leaves h)
      next hternary =>
        rw [List.mem_singleton.1 h]
        exact .itself (Bool.not_eq_true _ ▸ hparenthesized) (Bool.not_eq_true _ ▸ hassignment)
          (Bool.not_eq_true _ ▸ hternary)
termination_by sizeOf n
decreasing_by all_goals exact sizeOf_lt_of_find? ‹_›

theorem mem_leaves_iff {n leaf : Node} : leaf ∈ (ofNode n).leaves ↔ CanBecome n leaf :=
  ⟨canBecome_of_mem_leaves, mem_leaves_of_canBecome⟩

def Disputed (types : List String) : Bool := types.any fun s => types.any fun t => s != t

def common? (types : List String) : Option String := if Disputed types then none else types.head?

/-- The leaves that count for the type of a conditional: those of both branches, but for a branch
whose own are in dispute. -/
def heard (types : Node → Option String) : Evidence → List Node
  | .nothing => []
  | .expression n => [n]
  | .either a b => undisputed (a.heard types) ++ undisputed (b.heard types)
where
  undisputed (leaves : List Node) : List Node :=
    if Disputed (leaves.filterMap types) then [] else leaves

def agreed : Option String → Option String → Option String
  | none, type? => type?
  | some s, none => some s
  | some s, some t => if s == t then some s else none

def type? (types : Node → Option String) : Evidence → Option String
  | .nothing => none
  | .expression n => types n
  | .either a b => agreed (a.type? types) (b.type? types)

theorem disputed_iff {types : List String} :
    Disputed types = true ↔ ∃ s ∈ types, ∃ t ∈ types, s ≠ t := by
  simp [Disputed]

theorem not_disputed_iff {types : List String} :
    Disputed types = false ↔ ∀ s ∈ types, ∀ t ∈ types, s = t := by
  simp [Disputed]

theorem agreed_head? {first second : List String} (hfirst : Disputed first = false)
    (hsecond : Disputed second = false) :
    agreed first.head? second.head? = common? (first ++ second) := by
  unfold common?
  rw [not_disputed_iff] at hfirst hsecond
  cases first with
  | nil =>
    rw [List.nil_append, if_neg (Bool.eq_false_iff.1 (not_disputed_iff.2 hsecond))]
    rfl
  | cons s first =>
    cases second with
    | nil =>
      rw [List.append_nil, if_neg (Bool.eq_false_iff.1 (not_disputed_iff.2 hfirst))]
      rfl
    | cons t second =>
      change (if s == t then some s else none) = _
      by_cases hst : s = t
      · subst hst
        have hall : ∀ r ∈ s :: first ++ s :: second, r = s := by
          intro r hr
          rcases List.mem_append.1 hr with hr | hr
          · exact hfirst r hr s List.mem_cons_self
          · exact hsecond r hr s List.mem_cons_self
        have hnone : Disputed (s :: first ++ s :: second) = false :=
          not_disputed_iff.2 fun r hr r' hr' => (hall r hr).trans (hall r' hr').symm
        rw [if_pos (beq_self_eq_true s), if_neg (Bool.eq_false_iff.1 hnone)]
        rfl
      · have hdisputed : Disputed (s :: first ++ t :: second) = true :=
          disputed_iff.2 ⟨s, List.mem_append_left _ List.mem_cons_self, t,
            List.mem_append_right _ List.mem_cons_self, hst⟩
        rw [if_neg (Bool.eq_false_iff.1 (beq_false_of_ne hst)), if_pos hdisputed]

theorem disputed_undisputed (types : Node → Option String) (leaves : List Node) :
    Disputed ((heard.undisputed types leaves).filterMap types) = false := by
  unfold heard.undisputed
  split
  · rfl
  next h => exact Bool.eq_false_iff.2 h

theorem common?_eq_head? (types : Node → Option String) (leaves : List Node) :
    common? (leaves.filterMap types) = ((heard.undisputed types leaves).filterMap types).head? := by
  unfold common? heard.undisputed
  split <;> rfl

/-- Evidence has the type that all its heard leaves have. -/
theorem type?_eq_common? (types : Node → Option String) (e : Evidence) :
    e.type? types = common? ((e.heard types).filterMap types) := by
  induction e with
  | nothing => rfl
  | expression n =>
    rw [type?, heard, List.filterMap_cons]
    cases types n with
    | none => rfl
    | some type => simp [common?, Disputed]
  | either a b iha ihb =>
    rw [type?, heard, iha, ihb, List.filterMap_append, common?_eq_head?, common?_eq_head?]
    exact agreed_head? (disputed_undisputed types _) (disputed_undisputed types _)

theorem heard_subset_leaves (types : Node → Option String) (e : Evidence) :
    e.heard types ⊆ e.leaves := by
  have hundisputed : ∀ leaves, heard.undisputed types leaves ⊆ leaves := by
    intro leaves
    unfold heard.undisputed
    split
    · exact List.nil_subset _
    · exact List.Subset.refl _
  induction e with
  | nothing => exact List.Subset.refl _
  | expression n => exact List.Subset.refl _
  | either a b iha ihb =>
    exact List.append_subset.2
      ⟨List.Subset.trans (hundisputed _) (List.Subset.trans iha (List.subset_append_left _ _)),
        List.Subset.trans (hundisputed _) (List.Subset.trans ihb (List.subset_append_right _ _))⟩

theorem canBecome_of_heard {types : Node → Option String} {n leaf : Node}
    (h : leaf ∈ (ofNode n).heard types) : CanBecome n leaf :=
  mem_leaves_iff.1 (heard_subset_leaves types _ h)

end Evidence

section

variable {m : Type → Type} [Monad m]

theorem evidenceType_congr {f g : Node → m (Option String)} {e : Evidence}
    (h : ∀ leaf ∈ e.leaves, f leaf = g leaf) : evidenceType f e = evidenceType g e := by
  induction e with
  | nothing => rfl
  | expression n => exact h n List.mem_cons_self
  | either a b iha ihb =>
    rw [evidenceType, evidenceType, iha fun leaf hleaf => h leaf (List.mem_append_left _ hleaf),
      ihb fun leaf hleaf => h leaf (List.mem_append_right _ hleaf)]

theorem evidenceType_none [LawfulMonad m] (e : Evidence) :
    evidenceType (m := m) (fun _ => pure none) e = pure none := by
  induction e with
  | nothing => rfl
  | expression n => rfl
  | either a b iha ihb => simp [evidenceType, iha, ihb, agree]

theorem ofNode_leaf {n leaf : Node} (h : CanBecome n leaf) : Evidence.ofNode leaf = .expression leaf := by
  induction h with
  | itself hparenthesized hassignment hternary =>
    rw [Evidence.ofNode_eq, hparenthesized, hassignment, hternary]
    rfl
  | inside _ _ _ ih => exact ih
  | assigned _ _ _ ih => exact ih
  | branch _ _ _ _ ih => exact ih

/-- An expression has the type of its evidence, each leaf being an expression of its own. -/
theorem nodeType_eq [LawfulMonad m] (chain : ClassDefinition → Chain → Nat → m (Option String))
    (c : ClassDefinition) (n : Node) :
    nodeType chain c n = evidenceType (nodeType chain c) (Evidence.ofNode n) := by
  have hleaf : ∀ leaf ∈ (Evidence.ofNode n).leaves, Evidence.ofNode leaf = .expression leaf :=
    fun leaf h => ofNode_leaf (Evidence.mem_leaves_iff.1 h)
  cases hsource : c.source? with
  | none =>
    have hnone : nodeType chain c = fun _ => pure none := by
      funext leaf
      rw [nodeType, hsource]
    rw [hnone, evidenceType_none]
  | some source =>
    rw [nodeType, hsource]
    refine evidenceType_congr fun leaf h => ?_
    rw [nodeType, hsource, hleaf leaf h]
    rfl

end

theorem agree_pair_run {σ : Type} (x y : StateM σ (Option String)) (s : σ) :
    agree none [x, y] s = (Evidence.agreed (x s).1 (y (x s).2).1, (y (x s).2).2) := by
  simp only [agree, bind_run]
  cases (x s).1 with
  | none =>
    simp only [bind_run]
    cases (y (x s).2).1 <;> rfl
  | some t =>
    simp only [bind_run]
    cases (y (x s).2).1 with
    | none => rfl
    | some t' =>
      simp only [Evidence.agreed]
      split <;> rfl

end UiWorkspace.Typing

namespace UiWorkspace.Workspace

open UiWorkspace.Script
open UiWorkspace.Typing

theorem mapM_run_cons {α β : Type} (q : α → Query β) (a : α) (as : List α) (w : Workspace) :
    (a :: as).mapM q w =
      ((q a w).1 :: (as.mapM q (q a w).2).1, (as.mapM q (q a w).2).2) := by
  rw [List.mapM_cons]
  rfl

theorem mapM_run_append {α β : Type} (q : α → Query β) (as bs : List α) (w : Workspace) :
    (as ++ bs).mapM q w =
      ((as.mapM q w).1 ++ (bs.mapM q (as.mapM q w).2).1, (bs.mapM q (as.mapM q w).2).2) := by
  rw [List.mapM_append]
  rfl

theorem length_mapM_run {α β : Type} (q : α → Query β) (as : List α) (w : Workspace) :
    (as.mapM q w).1.length = as.length := by
  induction as generalizing w with
  | nil => rfl
  | cons a as ih => rw [mapM_run_cons, List.length_cons, ih, List.length_cons]

def Between (settings : Settings) (w : Workspace) : Prop := Resting w ∧ w.settings = settings

theorem steady_settings (settings : Settings) : Steady fun w => w.settings = settings where
  probe _ _ h := h
  examine _ d h := of_examine (I := fun w => w.settings = settings) (fun _ => h) d
  putDocument _ _ h _ _ := h
  class? w name h := (Learned.class? name w).settings.trans h

theorem nodeType_settings (c : ClassDefinition) (n : Node) (w : Workspace) :
    (nodeType c n w).2.settings = w.settings := by
  have hkept : TypesAlike (Kept fun v => v.settings = w.settings) := by
    apply (steady_settings w.settings).scriptsAlike.typesAlike
    · rintro v _ ⟨rfl, -⟩
      rfl
    · rintro v _ types ⟨rfl, h⟩
      exact ⟨rfl, h⟩
  exact (hkept.nodeType c n).keeps rfl

theorem nodeTypeIn_run {settings : Settings} {w : Workspace} (hw : Between settings w)
    (c : ClassDefinition) (n : Node) :
    nodeTypeIn settings c n ⟨w, []⟩ = ((nodeType c n w).1, ⟨(nodeType c n w).2, []⟩) ∧
      Between settings (nodeType c n w).2 := by
  obtain ⟨hresting, rfl⟩ := hw
  have hbalance := balanced_nodeType ⟨w.settings.maxInheritanceHops, w.settings.rootClass⟩
    w.settings.maxResolutionDepth c n ⟨w, []⟩ hresting.unique
  have hframes : (nodeTypeIn w.settings c n ⟨w, []⟩).2.frames = [] :=
    List.eq_nil_of_length_eq_zero hbalance.framed
  exact ⟨Prod.ext rfl (congrArg (Progress.mk _) hframes), hresting.of_balance hbalance,
    nodeType_settings c n w⟩

/-- Evidence is asked leaf by leaf. Where each leaf has the type in its turn that it has by itself,
so has the evidence. -/
theorem evidenceType_run {settings : Settings} (c : ClassDefinition) (types : Node → Option String)
    (e : Evidence) {w : Workspace} (hw : Between settings w)
    (hturn : (e.leaves.mapM (nodeType c) w).1 = e.leaves.map types) :
    evidenceType (nodeTypeIn settings c) e ⟨w, []⟩ =
        (e.type? types, ⟨(e.leaves.mapM (nodeType c) w).2, []⟩) ∧
      Between settings (e.leaves.mapM (nodeType c) w).2 := by
  induction e generalizing w with
  | nothing => exact ⟨rfl, hw⟩
  | expression n =>
    obtain ⟨hrun, hend⟩ := nodeTypeIn_run hw c n
    rw [Evidence.leaves, mapM_run_cons] at hturn ⊢
    have htype : (nodeType c n w).1 = types n := (List.cons.inj hturn).1
    exact ⟨htype ▸ hrun, hend⟩
  | either a b iha ihb =>
    rw [Evidence.leaves, mapM_run_append] at hturn ⊢
    rw [List.map_append] at hturn
    have hlength := (length_mapM_run (nodeType c) a.leaves w).trans (List.length_map types).symm
    obtain ⟨hfirst, hsecond⟩ := List.append_inj hturn hlength
    obtain ⟨hrun, hbetween⟩ := iha hw hfirst
    obtain ⟨hrun', hbetween'⟩ := ihb hbetween hsecond
    refine ⟨?_, hbetween'⟩
    rw [evidenceType, agree_pair_run, hrun]
    dsimp only
    rw [hrun']
    rfl

/-- An expression has no type if two of its heard leaves have different ones. The leaves are
conditionals' branches, what parentheses hold and the right sides of assignments, nested to any depth;
what one of them gives must not hang on the others having been asked before. -/
theorem nodeType_of_dispute {w : Workspace} (hw : Reachable w) (c : ClassDefinition) (n : Node)
    (hturn : ((Evidence.ofNode n).leaves.mapM (nodeType c) w).1 =
      (Evidence.ofNode n).leaves.map fun leaf => (nodeType c leaf w).1)
    {leaf other : Node} {type otherType : String}
    (hleaf : leaf ∈ (Evidence.ofNode n).heard fun leaf => (nodeType c leaf w).1)
    (hother : other ∈ (Evidence.ofNode n).heard fun leaf => (nodeType c leaf w).1)
    (htype : (nodeType c leaf w).1 = some type) (hotherType : (nodeType c other w).1 = some otherType)
    (hne : type ≠ otherType) : (nodeType c n w).1 = none := by
  have hrun := (evidenceType_run c _ (Evidence.ofNode n) ⟨hw.resting, rfl⟩ hturn).1
  have hnode : (nodeType c n w).1 =
      (Evidence.ofNode n).type? fun leaf => (nodeType c leaf w).1 := by
    change (nodeTypeIn w.settings c n ⟨w, []⟩).1 = _
    unfold nodeTypeIn at hrun ⊢
    rw [nodeType_eq, hrun]
  have hdisputed : Evidence.Disputed
      (((Evidence.ofNode n).heard fun leaf => (nodeType c leaf w).1).filterMap
        fun leaf => (nodeType c leaf w).1) = true :=
    Evidence.disputed_iff.2 ⟨type, List.mem_filterMap.2 ⟨leaf, hleaf, htype⟩, otherType,
      List.mem_filterMap.2 ⟨other, hother, hotherType⟩, hne⟩
  rw [hnode, Evidence.type?_eq_common?, Evidence.common?, if_pos hdisputed]

def sampleChoosing : ClassDefinition :=
  ClassDefinition.ofScript "App.C" ⟨"/app/C.js"⟩ "a ? (b ? new x.Y() : new x.Y()) : (c = new x.Z());"

def sampleChoice : Node :=
  ((sampleChoosing.source?.bind fun s => s.tree.preorder.find? fun n => n.is .ternary)).getD default

theorem nodeType_of_dispute_sample :
    ((Evidence.ofNode sampleChoice).leaves.map fun leaf => (nodeType sampleChoosing leaf sampleStart).1) =
        [some "x.Y", some "x.Y", some "x.Z"] ∧
      (nodeType sampleChoosing sampleChoice sampleStart).1 = none := by
  have hrun : ((Evidence.ofNode sampleChoice).leaves.map fun leaf =>
        (nodeType sampleChoosing leaf sampleStart).1) = [some "x.Y", some "x.Y", some "x.Z"] ∧
      ((Evidence.ofNode sampleChoice).leaves.mapM (nodeType sampleChoosing) sampleStart).1 =
        ((Evidence.ofNode sampleChoice).leaves.map fun leaf =>
          (nodeType sampleChoosing leaf sampleStart).1) ∧
      (((Evidence.ofNode sampleChoice).heard fun leaf =>
        (nodeType sampleChoosing leaf sampleStart).1).map
          fun leaf => (nodeType sampleChoosing leaf sampleStart).1) =
            [some "x.Y", some "x.Y", some "x.Z"] := by decide +kernel
  obtain ⟨htypes, hturn, hheard⟩ := hrun
  refine ⟨htypes, ?_⟩
  obtain ⟨leaf, others, hleaves, htype, hothers⟩ := List.map_eq_cons_iff.1 hheard
  obtain ⟨other, hmem, hother⟩ := List.mem_map.1
    (hothers ▸ List.mem_cons_of_mem _ List.mem_cons_self : some "x.Z" ∈ others.map _)
  exact nodeType_of_dispute sampleStart_reachable sampleChoosing sampleChoice hturn
    (hleaves ▸ List.mem_cons_self) (hleaves ▸ List.mem_cons_of_mem leaf hmem) htype hother (by decide)

end UiWorkspace.Workspace
