import Mathlib.Data.List.Basic

/-! Breadth-first order. A search takes nodes from the front of a queue and puts what follows them
at its end. What it finds first is what comes first level by level, and it makes no difference
whether a node that has been visited is taken up again. -/
namespace UiWorkspace.BreadthFirst

variable {α β : Type} (next : α → List α)

def level : Nat → List α → List α
  | 0, queue => queue
  | n + 1, queue => level n (queue.flatMap next)

/-- The first levels, one behind the other. -/
def order : Nat → List α → List α
  | 0, _ => []
  | n + 1, queue => queue ++ order n (queue.flatMap next)

/-- The nodes that are any number of steps behind the ones of a queue. -/
inductive Reaches (queue : List α) : α → Prop
  | root {node : α} : node ∈ queue → Reaches queue node
  | step {node following : α} : Reaches queue node → following ∈ next node → Reaches queue following

/-- What the first node in breadth-first order has that has something. -/
def Finds (f : α → Option β) (queue : List α) (found : β) : Prop :=
  ∃ levels, (order next levels queue).findSome? f = some found

theorem level_append (n : Nat) (front back : List α) :
    level next n (front ++ back) = level next n front ++ level next n back := by
  induction n generalizing front back with
  | zero => rfl
  | succ n ih => rw [level, level, level, List.flatMap_append, ih]

theorem order_succ (n : Nat) (queue : List α) :
    order next (n + 1) queue = order next n queue ++ level next n queue := by
  induction n generalizing queue with
  | zero => rw [order, order, order, level, List.append_nil, List.nil_append]
  | succ n ih => rw [order, ih, order, level, List.append_assoc]

theorem append_order (n : Nat) (front queue : List α) :
    front ++ order next n (queue ++ front.flatMap next) =
      order next n (front ++ queue) ++ level next n front := by
  induction n generalizing front queue with
  | zero => simp [order, level]
  | succ n ih =>
    rw [order, order, level, List.flatMap_append, List.flatMap_append, List.append_assoc queue, ih]
    simp only [List.append_assoc]

theorem mem_level_succ {n : Nat} {queue : List α} {node : α} :
    node ∈ level next (n + 1) queue ↔ ∃ above ∈ level next n queue, node ∈ next above := by
  induction n generalizing queue with
  | zero => exact List.mem_flatMap
  | succ n ih => exact ih

theorem reaches_iff {queue : List α} {node : α} :
    Reaches next queue node ↔ ∃ levels, node ∈ order next levels queue := by
  constructor
  · intro h
    suffices ∃ n, node ∈ level next n queue by
      obtain ⟨n, hn⟩ := this
      exact ⟨n + 1, order_succ next n queue ▸ List.mem_append_right _ hn⟩
    induction h with
    | root h => exact ⟨0, h⟩
    | step _ hnext ih =>
      obtain ⟨n, hn⟩ := ih
      exact ⟨n + 1, (mem_level_succ next).2 ⟨_, hn, hnext⟩⟩
  · have hlevel : ∀ n {node}, node ∈ level next n queue → Reaches next queue node := by
      intro n
      induction n with
      | zero => exact .root
      | succ n ih =>
        intro node hnode
        obtain ⟨above, habove, hnext⟩ := (mem_level_succ next).1 hnode
        exact .step (ih habove) hnext
    rintro ⟨levels, hnode⟩
    induction levels with
    | zero => cases hnode
    | succ n ih =>
      rw [order_succ] at hnode
      rcases List.mem_append.1 hnode with hnode | hnode
      · exact ih hnode
      · exact hlevel n hnode

section

variable {next} {f : α → Option β}

theorem exists_finds_iff {queue : List α} :
    (∃ found, Finds next f queue found) ↔ ∃ node, Reaches next queue node ∧ (f node).isSome := by
  simp only [Finds, reaches_iff]
  constructor
  · rintro ⟨found, levels, h⟩
    obtain ⟨node, hnode, hfound⟩ := List.exists_of_findSome?_eq_some h
    exact ⟨node, ⟨levels, hnode⟩, Option.isSome_iff_exists.2 ⟨found, hfound⟩⟩
  · rintro ⟨node, ⟨levels, hnode⟩, hsome⟩
    have hfound : ((order next levels queue).findSome? f).isSome := by
      rw [List.findSome?_isSome_iff]
      exact ⟨node, hnode, hsome⟩
    obtain ⟨found, hfound⟩ := Option.isSome_iff_exists.1 hfound
    exact ⟨found, levels, hfound⟩

theorem not_finds_nil (found : β) : ¬ Finds next f [] found := by
  rintro ⟨levels, h⟩
  induction levels with
  | zero => cases h
  | succ levels ih => exact ih h

theorem finds_cons_of_some {node : α} {own found : β} (h : f node = some own) (rest : List α) :
    Finds next f (node :: rest) found ↔ own = found := by
  constructor
  · rintro ⟨levels, hfound⟩
    cases levels with
    | zero => cases hfound
    | succ levels =>
      rw [order, List.cons_append, List.findSome?_cons, h] at hfound
      exact Option.some.inj hfound
  · rintro rfl
    refine ⟨1, ?_⟩
    rw [order, List.cons_append, List.findSome?_cons, h]

theorem findSome?_append_of_some {front : List α} {found : β} (h : front.findSome? f = some found)
    (back : List α) : (front ++ back).findSome? f = some found := by
  rw [List.findSome?_append, h, Option.some_or]

theorem finds_cons_of_none {node : α} (h : f node = none) (rest : List α) (found : β) :
    Finds next f (node :: rest) found ↔ Finds next f (rest ++ next node) found := by
  have hturn : ∀ n, node :: order next n (rest ++ next node) =
      order next n (node :: rest) ++ level next n [node] := by
    intro n
    have hflat : [node].flatMap next = next node := by simp
    rw [← hflat]
    exact append_order next n [node] rest
  have hskip : ∀ n, (order next n (rest ++ next node)).findSome? f =
      (order next n (node :: rest) ++ level next n [node]).findSome? f := by
    intro n
    rw [← hturn, List.findSome?_cons, h]
  constructor
  · rintro ⟨n, hn⟩
    refine ⟨n, ?_⟩
    rw [hskip]
    exact findSome?_append_of_some hn _
  · rintro ⟨n, hn⟩
    refine ⟨n + 1, ?_⟩
    rw [hskip] at hn
    rw [order_succ, ← List.singleton_append, level_append, ← List.append_assoc]
    exact findSome?_append_of_some hn _

/-- The visited nodes have nothing, and what follows them has been visited or is in the queue. -/
def Settled (next : α → List α) (f : α → Option β) (visited queue : List α) : Prop :=
  ∀ node ∈ visited, f node = none ∧ next node ⊆ visited ++ queue

namespace Settled

variable {visited queue extra : List α}

theorem deepen (h : Settled next f visited queue) (hnone : ∀ node ∈ queue, f node = none) :
    Settled next f (visited ++ queue) (queue.flatMap next) := by
  intro node hnode
  rcases List.mem_append.1 hnode with hnode | hnode
  · exact ⟨(h node hnode).1, List.Subset.trans (h node hnode).2 (List.subset_append_left _ _)⟩
  · refine ⟨hnone node hnode, fun following hfollowing => List.mem_append_right _ ?_⟩
    exact List.mem_flatMap.2 ⟨node, hnode, hfollowing⟩

theorem findSome?_order_append (h : Settled next f visited queue) (hextra : extra ⊆ visited ++ queue)
    (n : Nat) : (order next n (queue ++ extra)).findSome? f = (order next n queue).findSome? f := by
  induction n generalizing visited queue extra with
  | zero => rfl
  | succ n ih =>
    have hsplit : ∀ back : List α,
        (queue ++ back).findSome? f = (queue.findSome? f).or (back.findSome? f) :=
      fun _ => List.findSome?_append
    rw [order, order, List.append_assoc, hsplit, hsplit]
    cases hqueue : queue.findSome? f with
    | some found => rw [Option.some_or, Option.some_or]
    | none =>
      rw [List.findSome?_eq_none_iff] at hqueue
      have hnone : extra.findSome? f = none := by
        rw [List.findSome?_eq_none_iff]
        intro node hnode
        rcases List.mem_append.1 (hextra hnode) with hnode | hnode
        · exact (h node hnode).1
        · exact hqueue node hnode
      have hdeeper := h.deepen hqueue
      rw [Option.none_or, Option.none_or, List.findSome?_append, hnone, Option.none_or,
        List.flatMap_append]
      apply ih hdeeper
      intro following hfollowing
      obtain ⟨node, hnode, hnext⟩ := List.mem_flatMap.1 hfollowing
      exact (hdeeper node (hextra hnode)).2 hnext

variable {node : α} {rest : List α}

theorem skip (h : Settled next f visited (node :: rest)) (hnode : node ∈ visited) :
    Settled next f visited rest := by
  intro other hother
  refine ⟨(h other hother).1, fun following hfollowing => ?_⟩
  rcases List.mem_append.1 ((h other hother).2 hfollowing) with hmem | hmem
  · exact List.mem_append_left _ hmem
  · rcases List.mem_cons.1 hmem with rfl | hmem
    · exact List.mem_append_left _ hnode
    · exact List.mem_append_right _ hmem

theorem visit (h : Settled next f visited (node :: rest)) (hnone : f node = none) :
    Settled next f (node :: visited) (rest ++ next node) := by
  intro other hother
  rcases List.mem_cons.1 hother with rfl | hother
  · refine ⟨hnone, fun following hfollowing => ?_⟩
    exact List.mem_append_right _ (List.mem_append_right _ hfollowing)
  · refine ⟨(h other hother).1, fun following hfollowing => ?_⟩
    have hmem := (h other hother).2 hfollowing
    simp only [List.mem_append, List.mem_cons] at hmem ⊢
    tauto

theorem finds_skip (h : Settled next f visited (node :: rest)) (hnode : node ∈ visited) (found : β) :
    Finds next f (node :: rest) found ↔ Finds next f rest found := by
  have hrest := h.skip hnode
  rw [finds_cons_of_none (h node hnode).1]
  unfold Finds
  simp only [hrest.findSome?_order_append (hrest node hnode).2]

end Settled

theorem finds_map {next' : α → List α} {g : α → α} (hnext : ∀ node, next' (g node) = (next node).map g)
    (hf : ∀ node, f (g node) = f node) (queue : List α) (found : β) :
    Finds next' f (queue.map g) found ↔ Finds next f queue found := by
  have horder : ∀ n queue, order next' n (queue.map g) = (order next n queue).map g := by
    intro n
    induction n with
    | zero => exact fun _ => rfl
    | succ n ih =>
      intro queue
      have hflat : (queue.map g).flatMap next' = (queue.flatMap next).map g := by
        rw [List.flatMap_map, List.map_flatMap]
        exact congrArg (queue.flatMap ·) (funext hnext)
      rw [order, order, hflat, ih, List.map_append]
  unfold Finds
  simp only [horder, List.findSome?_map, Function.comp_def, hf]

end

end UiWorkspace.BreadthFirst
