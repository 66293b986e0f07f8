import Mathlib.Data.List.Pairwise
import UiWorkspace.Proofs.Script.NamePlaces
import UiWorkspace.Script.Scope

/-! How a syntax tree is laid out: the parts of a node stand inside it, one behind the other. So a search
that stops at an offset misses nothing before it, and the way down to an offset passes exactly the nodes
around it. -/
namespace UiWorkspace.Script

open UiWorkspace.Text

namespace Node

mutual

/-- Where the nodes of a tree begin and end, in the order of a walk around the tree. -/
def edges : Node → List Nat
  | mk _ _ span children => span.start :: (edgesAll children ++ [span.stop])

def edgesAll : List Node → List Nat
  | [] => []
  | c :: cs => edges c ++ edgesAll cs

end

theorem edgesAll_eq_flatMap (ns : List Node) : edgesAll ns = ns.flatMap edges := by
  induction ns with
  | nil => rfl
  | cons n ns ih => rw [edgesAll, ih, List.flatMap_cons]

theorem edges_eq (n : Node) : n.edges = n.span.start :: (n.children.flatMap edges ++ [n.span.stop]) := by
  cases n with
  | mk label role span children => rw [edges, edgesAll_eq_flatMap]; rfl

theorem start_mem_edges (n : Node) : n.span.start ∈ n.edges := by
  rw [edges_eq]
  exact List.mem_cons_self

theorem stop_mem_edges (n : Node) : n.span.stop ∈ n.edges := by
  rw [edges_eq]
  exact List.mem_cons_of_mem _ (List.mem_append_right _ List.mem_cons_self)

/-- The nodes stand one in the other or one behind the other. -/
def IsLaidOut (n : Node) : Prop := n.edges.Pairwise (· ≤ ·)

instance (n : Node) : Decidable n.IsLaidOut := inferInstanceAs (Decidable (List.Pairwise _ _))

variable {root n d : Node} {offset : Nat}

mutual

theorem IsIn.edges_sublist : ∀ {root : Node}, d.IsIn root → d.edges.Sublist root.edges
  | mk label role span children, h => by
    rcases isIn_iff.1 h with rfl | hchild
    · exact List.Sublist.refl _
    · rw [edges_eq (mk ..)]
      exact ((edges_sublist_children hchild).trans (List.sublist_append_left _ _)).cons _

theorem edges_sublist_children : ∀ {ns : List Node}, (∃ c ∈ ns, d.IsIn c) →
    d.edges.Sublist (ns.flatMap edges)
  | [], h => by simp at h
  | c :: cs, h => by
    rw [List.exists_mem_cons_iff] at h
    rw [List.flatMap_cons]
    rcases h with hc | hcs
    · exact (IsIn.edges_sublist hc).trans (List.sublist_append_left _ _)
    · exact (edges_sublist_children hcs).trans (List.sublist_append_right _ _)

end

namespace IsLaidOut

theorem of_isIn (h : root.IsLaidOut) (hd : d.IsIn root) : d.IsLaidOut := h.sublist hd.edges_sublist

theorem children (h : n.IsLaidOut) : (n.children.flatMap edges).Pairwise (· ≤ ·) ∧
    ∀ e ∈ n.children.flatMap edges, n.span.start ≤ e ∧ e ≤ n.span.stop := by
  rw [IsLaidOut, edges_eq, List.pairwise_cons, List.pairwise_append] at h
  obtain ⟨hstart, hchildren, -, hstop⟩ := h
  exact ⟨hchildren, fun e he => ⟨hstart e (List.mem_append_left _ he), hstop e he _ List.mem_cons_self⟩⟩

theorem start_le_stop (h : n.IsLaidOut) : n.span.start ≤ n.span.stop := by
  rw [IsLaidOut, edges_eq, List.pairwise_cons] at h
  exact h.1 _ (List.mem_append_right _ List.mem_cons_self)

theorem within (h : root.IsLaidOut) (hd : d.IsIn root) :
    root.span.start ≤ d.span.start ∧ d.span.stop ≤ root.span.stop := by
  rcases isIn_iff.1 hd with rfl | hchild
  · exact ⟨Nat.le_refl _, Nat.le_refl _⟩
  · have hsub := edges_sublist_children hchild
    exact ⟨(h.children.2 _ (hsub.subset d.start_mem_edges)).1,
      (h.children.2 _ (hsub.subset d.stop_mem_edges)).2⟩

theorem pairwise_children (h : n.IsLaidOut) :
    n.children.Pairwise fun c d => c.span.stop ≤ d.span.start :=
  (List.pairwise_flatMap.1 h.children.1).2.imp fun hcd => hcd _ (stop_mem_edges _) _ (start_mem_edges _)

theorem apart_children (h : n.IsLaidOut) {c d : Node} (hc : c ∈ n.children) (hd : d ∈ n.children)
    (hne : c ≠ d) : c.span.Apart d.span := by
  have : Std.Symm fun c d : Node => c.span.Apart d.span := ⟨fun _ _ => Span.Apart.symm⟩
  have hboth : n.children.Pairwise fun c d => c.span.Apart d.span := h.pairwise_children.imp .inl
  exact hboth.forall hc hd hne

end IsLaidOut

mutual

theorem pairwise_preorder : ∀ {n : Node}, n.IsLaidOut →
    n.preorder.Pairwise fun m d => (∃ c ∈ m.children, d.IsIn c) ∨ m.span.stop ≤ d.span.start
  | mk label role span children, h => by
    rw [preorder_eq, List.pairwise_cons]
    exact ⟨fun d hd => .inl (List.mem_flatMap.1 hd), pairwise_flatMap_preorder h.children.1⟩

theorem pairwise_flatMap_preorder : ∀ {ns : List Node}, (ns.flatMap edges).Pairwise (· ≤ ·) →
    (ns.flatMap preorder).Pairwise fun m d => (∃ c ∈ m.children, d.IsIn c) ∨ m.span.stop ≤ d.span.start
  | [], _ => .nil
  | c :: cs, h => by
    rw [List.flatMap_cons, List.pairwise_append] at h ⊢
    obtain ⟨hc, hcs, hbehind⟩ := h
    refine ⟨pairwise_preorder hc, pairwise_flatMap_preorder hcs, fun m hm d hd => .inr ?_⟩
    have hstop : m.span.stop ≤ c.span.stop := (IsLaidOut.within hc hm).2
    have hstart : d.span.start ∈ cs.flatMap edges :=
      (edges_sublist_children (List.mem_flatMap.1 hd)).subset d.start_mem_edges
    exact Nat.le_trans hstop (hbehind _ c.stop_mem_edges _ hstart)

end

def startsBefore (offset : Nat) (n : Node) : Bool := n.span.start < offset

theorem visits_of_behind (h : n.IsLaidOut) (hbehind : offset ≤ n.span.start) (enter : Node → Bool) :
    (n.visits enter).filter (startsBefore offset) = [] := by
  refine List.filter_eq_nil_iff.2 fun d hd => ?_
  have hle := (h.within (isIn_of_mem_visits enter hd)).1
  simp only [startsBefore, decide_eq_true_eq]
  omega

mutual

/-- A search that does not go into what begins behind the offset finds all that begins before it. -/
theorem visits_entersScope (offset : Nat) : ∀ {n : Node}, n.IsLaidOut →
    (n.visits (entersScope offset)).filter (startsBefore offset) =
      (n.visits fun m => !m.isFunction).filter (startsBefore offset)
  | mk label role span children, h => by
    by_cases hbefore : span.start < offset
    · have hchildren := flatMap_visits_entersScope offset (h.children.1)
      have henters : entersScope offset (mk label role span children) =
          !(mk label role span children).isFunction := by
        simp [entersScope, Node.span, hbefore]
      rw [visits_eq, visits_eq, henters, List.filter_cons, List.filter_cons]
      cases (mk label role span children).isFunction with
      | true => rfl
      | false => simp only [Bool.not_false, if_true, hchildren]
    · rw [visits_of_behind h (Nat.not_lt.1 hbefore), visits_of_behind h (Nat.not_lt.1 hbefore)]

theorem flatMap_visits_entersScope (offset : Nat) : ∀ {ns : List Node},
    (ns.flatMap edges).Pairwise (· ≤ ·) → (ns.flatMap (visits (entersScope offset))).filter (startsBefore offset) =
      (ns.flatMap (visits fun m => !m.isFunction)).filter (startsBefore offset)
  | [], _ => rfl
  | c :: cs, h => by
    rw [List.flatMap_cons, List.pairwise_append] at h
    obtain ⟨hc, hcs, -⟩ := h
    rw [List.flatMap_cons, List.flatMap_cons, List.filter_append, List.filter_append,
      visits_entersScope offset hc, flatMap_visits_entersScope offset hcs]

end

end Node

def Node.holds (offset : Nat) (n : Node) : Bool := n.span.start ≤ offset && offset < n.span.stop

namespace Cursor

def left : List Descent → List Cursor
  | [] => []
  | step :: above => ⟨step.parent, above⟩ :: left above

theorem enclosing_eq (focus : Node) (above : List Descent) :
    (Cursor.mk focus above).enclosing = ⟨focus, above⟩ :: left above := by
  have hgo : ∀ focus above, enclosing.go focus above = ⟨focus, above⟩ :: left above := by
    intro focus above
    induction above generalizing focus with
    | nil => rfl
    | cons step above ih => rw [enclosing.go, ih, left]
  exact hgo focus above

theorem preorderFrom_eq (above : List Descent) (n : Node) :
    preorderFrom above n = ⟨n, above⟩ :: preorderAll n above [] n.children := by
  cases n
  rw [preorderFrom]
  rfl

mutual

theorem focus_isIn_node : ∀ {above : List Descent} {n : Node} {c : Cursor},
    c ∈ preorderFrom above n → c.focus.IsIn n
  | above, .mk label role span children, c, h => by
    rw [preorderFrom_eq, List.mem_cons] at h
    rcases h with rfl | h
    · exact Node.IsIn.refl _
    · exact Node.isIn_iff.2 (.inr (focus_isIn_all h))

theorem focus_isIn_all : ∀ {parent : Node} {above : List Descent} {passed ns : List Node} {c : Cursor},
    c ∈ preorderAll parent above passed ns → ∃ n ∈ ns, c.focus.IsIn n
  | parent, above, passed, [], c, h => by cases h
  | parent, above, passed, n :: ns, c, h => by
    rw [preorderAll, List.mem_append] at h
    rw [List.exists_mem_cons_iff]
    exact h.imp focus_isIn_node focus_isIn_all

end

theorem filter_holds_of_outside {offset : Nat} {cs : List Cursor}
    (h : ∀ c ∈ cs, c.focus.span.stop ≤ offset ∨ offset < c.focus.span.start) :
    cs.filter (fun c => c.focus.holds offset) = [] := by
  refine List.filter_eq_nil_iff.2 fun c hc => ?_
  have := h c hc
  simp only [Node.holds, Bool.and_eq_true, decide_eq_true_eq]
  omega

mutual

theorem enclosing_descend (offset : Nat) : ∀ {above : List Descent} {n : Node}, n.IsLaidOut →
    (descend offset offset above n).enclosing =
      ((preorderAll n above [] n.children).filter fun c => c.focus.holds offset).reverse ++
        ⟨n, above⟩ :: left above
  | above, .mk label role span children, h => by
    rw [descend]
    exact enclosing_descendInto offset h.children.1

theorem enclosing_descendInto (offset : Nat) : ∀ {parent : Node} {above : List Descent}
    {passed ns : List Node}, (ns.flatMap Node.edges).Pairwise (· ≤ ·) →
    (descendInto offset offset parent above passed ns).enclosing =
      ((preorderAll parent above passed ns).filter fun c => c.focus.holds offset).reverse ++
        ⟨parent, above⟩ :: left above
  | parent, above, passed, [], _ => by
    rw [descendInto, enclosing_eq]
    rfl
  | parent, above, passed, n :: ns, h => by
    rw [List.flatMap_cons, List.pairwise_append] at h
    obtain ⟨hn, hns, hbehind⟩ := h
    have hinside : ∀ c ∈ preorderFrom (⟨parent, passed⟩ :: above) n,
        n.span.start ≤ c.focus.span.start ∧ c.focus.span.stop ≤ n.span.stop := fun c hc =>
      Node.IsLaidOut.within hn (focus_isIn_node hc)
    have hlater : ∀ c ∈ preorderAll parent above (n :: passed) ns,
        n.span.stop ≤ c.focus.span.start := fun c hc =>
      hbehind _ n.stop_mem_edges _
        ((Node.edges_sublist_children (focus_isIn_all hc)).subset c.focus.start_mem_edges)
    rw [preorderAll, List.filter_append, List.reverse_append, descendInto]
    split
    next hpassed =>
      have hstop : n.span.stop ≤ offset := by
        simp only [Bool.or_eq_true, decide_eq_true_eq] at hpassed
        omega
      rw [enclosing_descendInto offset hns,
        filter_holds_of_outside fun c hc => .inl (Nat.le_trans (hinside c hc).2 hstop), List.reverse_nil,
        List.append_nil]
    next hpassed =>
      have hstop : offset < n.span.stop := by
        simp only [Bool.or_eq_true, decide_eq_true_eq] at hpassed
        omega
      have hnone := filter_holds_of_outside fun c hc => .inr (Nat.lt_of_lt_of_le hstop (hlater c hc))
      split
      next hstart =>
        rw [hnone, filter_holds_of_outside fun c hc => .inr (Nat.lt_of_lt_of_le hstart (hinside c hc).1),
          enclosing_eq]
        rfl
      next hstart =>
        have hholds : n.holds offset = true := by
          simp only [Node.holds, Bool.and_eq_true, decide_eq_true_eq]
          omega
        rw [hnone, enclosing_descend offset hn, preorderFrom_eq, List.filter_cons, hholds]
        simp [left]

end

/-- The nodes on the way to an offset are those that hold it, the root aside. -/
theorem enclosing_atOffset {root : Node} (h : root.IsLaidOut) (offset : Nat) :
    (atOffset root offset).enclosing =
      ((preorderAll root [] [] root.children).filter fun c => c.focus.holds offset).reverse ++ [ofRoot root] :=
  enclosing_descend offset h

end Cursor

def functionsAround (root : Node) (offset : Nat) : List Cursor :=
  ((Cursor.preorder root).filter fun c => c.focus.isFunction && c.focus.holds offset).reverse

theorem enclosingFunctions_eq {root : Node} (h : root.IsLaidOut) (hroot : root.isFunction = false)
    (offset : Nat) : enclosingFunctions root offset = functionsAround root offset := by
  have hnone : [Cursor.ofRoot root].filter (fun c => c.focus.isFunction) = [] := by
    simp [Cursor.ofRoot, hroot]
  rw [enclosingFunctions, Cursor.enclosing_atOffset h, List.filter_append, hnone, List.append_nil,
    List.filter_reverse, List.filter_filter, functionsAround, Cursor.preorder, Cursor.preorderFrom_eq,
    List.filter_cons]
  simp [hroot]

end UiWorkspace.Script
