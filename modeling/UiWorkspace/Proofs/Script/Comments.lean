import UiWorkspace.Proofs.Script.NamePlaces

/-! Trees that lose comments. A comment that is taken out leaves everything else where it is, so what
is looked for by its kind, its role or its place in the text is found as before. Only what is counted
can change: the first or second of several parts, or the part right before another. -/
namespace UiWorkspace.Script.Node

open UiWorkspace.Text

section

variable (drop : Node → Bool)

mutual

/-- The tree without the nodes below its root that `drop` picks. -/
def without : Node → Node
  | mk label role span children => mk label role span (withoutAll children)

def withoutAll : List Node → List Node
  | [] => []
  | n :: ns => if drop n then withoutAll ns else without n :: withoutAll ns

end

def kept (ns : List Node) : List Node := ns.filter fun n => !drop n

/-- None of the first `count` nodes that stay stands behind one that goes. -/
def settled : (count : Nat) → List Node → Bool
  | 0, _ => true
  | _, [] => true
  | count + 1, n :: ns => if drop n then ns.all drop else settled count ns

/-- What `drop` picks in a tree are comments, without a role and without parts. -/
structure Removes (root : Node) : Prop where
  isComment {n : Node} : n.IsIn root → drop n = true → n.is .comment = true
  role {n : Node} : n.IsIn root → drop n = true → n.role = none
  children {n : Node} : n.IsIn root → drop n = true → n.children = []

end

variable {drop : Node → Bool} {n : Node} {ns : List Node}

theorem Removes.below {root : Node} (h : Removes drop root) (hn : n.IsIn root) : Removes drop n where
  isComment hm := h.isComment (IsIn.trans_node hm hn)
  role hm := h.role (IsIn.trans_node hm hn)
  children hm := h.children (IsIn.trans_node hm hn)

theorem Removes.child {root : Node} (h : Removes drop root) (hn : n ∈ root.children) : Removes drop n :=
  h.below ((IsIn.refl root).child hn)

theorem Removes.part {root : Node} (h : Removes drop root) {role : Role} (hn : root.part? role = some n) :
    Removes drop n :=
  h.below ((IsIn.refl root).part? hn)

theorem Removes.part_stays {root : Node} (h : Removes drop root) {role : Role} (hn : root.part? role = some n) :
    drop n = false := by
  cases hdropped : drop n with
  | false => rfl
  | true =>
    have hrole := List.find?_some hn
    rw [(h.part hn).role (.refl n) hdropped] at hrole
    cases hrole

theorem Removes.named {root : Node} (h : Removes drop root) (hn : n ∈ root.namedChildren) :
    Removes drop n :=
  h.below ((IsIn.refl root).named hn)

theorem Removes.stays (h : Removes drop n) (hn : n.is .comment = false) : drop n = false := by
  cases hdropped : drop n with
  | false => rfl
  | true =>
    rw [h.isComment (.refl n) hdropped] at hn
    cases hn

theorem Removes.is_eq_false (h : Removes drop n) (hdropped : drop n = true) {kind : Kind}
    (hkind : kind ≠ .comment) : n.is kind = false :=
  Node.is_eq_false (h.isComment (.refl n) hdropped) hkind.symm

theorem withoutAll_eq (ns : List Node) : withoutAll drop ns = (kept drop ns).map (without drop) := by
  induction ns with
  | nil => rfl
  | cons n ns ih => cases hn : drop n <;> simp [withoutAll, kept, hn, ih]

theorem children_without (n : Node) :
    (n.without drop).children = (kept drop n.children).map (without drop) := by
  cases n
  exact withoutAll_eq _

@[simp] theorem label_without (n : Node) : (n.without drop).label = n.label := by
  cases n
  rfl

@[simp] theorem role_without (n : Node) : (n.without drop).role = n.role := by
  cases n
  rfl

@[simp] theorem span_without (n : Node) : (n.without drop).span = n.span := by
  cases n
  rfl

@[simp] theorem is_without (n : Node) (kind : Kind) : (n.without drop).is kind = n.is kind := by
  rw [Node.is, label_without]
  rfl

@[simp] theorem isNamed_without (n : Node) : (n.without drop).isNamed = n.isNamed := by
  rw [isNamed, label_without]
  rfl

@[simp] theorem isFunction_without (n : Node) : (n.without drop).isFunction = n.isFunction := by
  rw [isFunction, label_without]
  rfl

@[simp] theorem text_without (n : Node) (code : String) : (n.without drop).text code = n.text code := by
  rw [Node.text, span_without]
  rfl

@[simp] theorem stringContents?_without (n : Node) (code : String) :
    (n.without drop).stringContents? code = n.stringContents? code := by
  rw [stringContents?, span_without, is_without]
  rfl

theorem namedChildren_without (n : Node) :
    (n.without drop).namedChildren = (kept drop n.namedChildren).map (without drop) := by
  have hnamed : isNamed ∘ without drop = isNamed := funext isNamed_without
  rw [namedChildren, children_without, List.filter_map, hnamed, namedChildren, kept, kept, List.filter_comm]

theorem kept_append (ns ms : List Node) : kept drop (ns ++ ms) = kept drop ns ++ kept drop ms :=
  List.filter_append ..

theorem kept_cons_of_not (hn : drop n = false) (ns : List Node) : kept drop (n :: ns) = n :: kept drop ns := by
  simp [kept, hn]

theorem kept_eq_nil (h : ∀ n ∈ ns, drop n = true) : kept drop ns = [] :=
  List.filter_eq_nil_iff.2 fun n hn => by simp [h n hn]

theorem forall_mem_of_settled {count : Nat} (h : settled drop (count + 1) (n :: ns) = true)
    (hn : drop n = true) : ∀ m ∈ n :: ns, drop m = true := by
  rw [settled, hn, if_pos rfl, List.all_eq_true] at h
  exact List.forall_mem_cons.2 ⟨hn, h⟩

theorem getElem?_kept {count i : Nat} (h : settled drop count ns = true) (hi : i < count) :
    (kept drop ns)[i]? = ns[i]?.filter fun n => !drop n := by
  induction ns generalizing count i with
  | nil => rfl
  | cons n ns ih =>
    obtain ⟨count, rfl⟩ := Nat.exists_eq_succ_of_ne_zero (Nat.ne_zero_of_lt hi)
    cases hn : drop n with
    | true =>
      have hall := forall_mem_of_settled h hn
      rw [kept_eq_nil hall]
      cases hplace : (n :: ns)[i]? with
      | none => rfl
      | some m => simp [Option.filter, hall m (List.mem_of_getElem? hplace)]
    | false =>
      rw [settled, hn, if_neg Bool.false_ne_true] at h
      rw [kept_cons_of_not hn]
      cases i with
      | zero => simp [Option.filter, hn]
      | succ i => exact ih h (Nat.lt_of_succ_lt_succ hi)

section Searches

variable {α β : Type} {f : Node → Option α} {f' : Node → Option β} {g : α → β}

theorem bind_without {o : Option Node} (h : ∀ n ∈ o, f' (n.without drop) = (f n).map g) :
    (o.map (without drop)).bind f' = (o.bind f).map g := by
  cases o with
  | none => rfl
  | some n => exact h n rfl

theorem bind_without_eq {f f' : Node → Option α} {o : Option Node}
    (h : ∀ n ∈ o, f' (n.without drop) = f n) : (o.map (without drop)).bind f' = o.bind f := by
  cases o with
  | none => rfl
  | some n => exact h n rfl

theorem filterMap_kept (hkept : ∀ n ∈ ns, drop n = false → f' (n.without drop) = (f n).map g)
    (hdropped : ∀ n ∈ ns, drop n = true → f n = none) :
    ((kept drop ns).map (without drop)).filterMap f' = (ns.filterMap f).map g := by
  induction ns with
  | nil => rfl
  | cons n ns ih =>
    rw [List.forall_mem_cons] at hkept hdropped
    have ih := ih hkept.2 hdropped.2
    cases hn : drop n with
    | true =>
      rw [List.filterMap_cons_none (hdropped.1 hn), ← ih]
      simp [kept, hn]
    | false =>
      have hhere := hkept.1 hn
      cases hf : f n <;> simp_all [kept]

theorem findSome?_kept (hkept : ∀ n ∈ ns, drop n = false → f' (n.without drop) = (f n).map g)
    (hdropped : ∀ n ∈ ns, drop n = true → f n = none) :
    ((kept drop ns).map (without drop)).findSome? f' = (ns.findSome? f).map g := by
  rw [← List.head?_filterMap, filterMap_kept hkept hdropped, List.head?_map, List.head?_filterMap]

theorem find?_kept {p : Node → Bool} (hkept : ∀ n ∈ ns, drop n = false → p (n.without drop) = p n)
    (hdropped : ∀ n ∈ ns, drop n = true → p n = false) :
    ((kept drop ns).map (without drop)).find? p = (ns.find? p).map (without drop) := by
  rw [← List.findSome?_guard, ← List.findSome?_guard]
  refine findSome?_kept (fun n hn hstays => ?_) fun n hn hgoes => ?_
  · cases hp : p n <;> simp [Option.guard, hkept n hn hstays, hp]
  · simp [Option.guard, hdropped n hn hgoes]

theorem bind_getElem?_kept (hkept : ∀ n ∈ ns, drop n = false → f' (n.without drop) = (f n).map g)
    (hdropped : ∀ n ∈ ns, drop n = true → f n = none) {count i : Nat}
    (h : settled drop count ns = true) (hi : i < count) :
    ((kept drop ns).map (without drop))[i]?.bind f' = (ns[i]?.bind f).map g := by
  rw [List.getElem?_map, getElem?_kept h hi]
  cases hplace : ns[i]? with
  | none => rfl
  | some n =>
    have hn := List.mem_of_getElem? hplace
    cases hgoes : drop n with
    | true => simp [Option.filter, hgoes, hdropped n hn hgoes]
    | false => simp [Option.filter, hgoes, hkept n hn hgoes]

theorem filter_without {p : Node → Bool} (hkept : ∀ n, p (n.without drop) = p n) (o : Option Node) :
    (o.map (without drop)).filter p = (o.filter p).map (without drop) := by
  have hsame : p ∘ without drop = p := funext hkept
  rw [Option.filter_map, hsame]

theorem filter_getElem?_kept {p : Node → Bool} (hkept : ∀ n, p (n.without drop) = p n)
    (hdropped : ∀ n ∈ ns, drop n = true → p n = false) {count i : Nat}
    (h : settled drop count ns = true) (hi : i < count) :
    ((kept drop ns).map (without drop))[i]?.filter p = (ns[i]?.filter p).map (without drop) := by
  rw [← Option.bind_guard, ← Option.bind_guard]
  refine bind_getElem?_kept (fun n _ _ => filter_without hkept (some n)) (fun n hn hgoes => ?_) h hi
  simp [Option.guard, hdropped n hn hgoes]

/-- Places are as before if nothing is taken out before the last of those that stay. -/
theorem filterMap_zipIdx_kept {f : Node × Nat → Option α} (hkept : ∀ n i, f (n.without drop, i) = f (n, i))
    (hdropped : ∀ n ∈ ns, drop n = true → ∀ i, f (n, i) = none) {count : Nat} (hcount : ns.length ≤ count)
    (h : settled drop count ns = true) (start : Nat) :
    (((kept drop ns).map (without drop)).zipIdx start).filterMap f = (ns.zipIdx start).filterMap f := by
  induction ns generalizing count start with
  | nil => rfl
  | cons n ns ih =>
    cases count with
    | zero => cases hcount
    | succ count =>
      cases hn : drop n with
      | true =>
        have hall := forall_mem_of_settled h hn
        have hnone : ((n :: ns).zipIdx start).filterMap f = [] := by
          rw [List.filterMap_eq_nil_iff]
          rintro ⟨m, i⟩ hm
          have hm := List.fst_mem_of_mem_zipIdx hm
          exact hdropped m hm (hall m hm) i
        rw [kept_eq_nil hall, hnone]
        rfl
      | false =>
        rw [List.forall_mem_cons] at hdropped
        rw [settled, hn, if_neg Bool.false_ne_true] at h
        have ih := ih hdropped.2 (Nat.le_of_succ_le_succ hcount) h (start + 1)
        rw [kept_cons_of_not hn, List.map_cons, List.zipIdx_cons, List.zipIdx_cons, List.filterMap_cons,
          List.filterMap_cons, hkept, ih]

end Searches

theorem part?_without (h : Removes drop n) (role : Role) :
    (n.without drop).part? role = (n.part? role).map (without drop) := by
  rw [part?, children_without]
  refine find?_kept (fun c _ _ => by rw [role_without]) fun c hc hgoes => ?_
  rw [(h.child hc).role (.refl c) hgoes]
  rfl

mutual

theorem visits_without {enter : Node → Bool} (henter : ∀ m, enter (m.without drop) = enter m) :
    ∀ {n : Node}, Removes drop n → drop n = false →
      (n.without drop).visits enter = (kept drop (n.visits enter)).map (without drop)
  | mk label role span children, h, hn => by
    have hchildren := visitsAll_without henter fun c (hc : c ∈ children) => h.child hc
    have hhere := henter (mk label role span children)
    simp only [without, visits] at hhere ⊢
    rw [hhere, kept, List.filter_cons, hn, Bool.not_false, if_pos rfl, List.map_cons, without]
    split
    · exact congrArg _ hchildren
    · rfl

theorem visitsAll_without {enter : Node → Bool} (henter : ∀ m, enter (m.without drop) = enter m) :
    ∀ {ns : List Node}, (∀ n ∈ ns, Removes drop n) →
      visitsAll enter (withoutAll drop ns) = (kept drop (visitsAll enter ns)).map (without drop)
  | [], _ => rfl
  | n :: ns, h => by
    rw [List.forall_mem_cons] at h
    have hrest := visitsAll_without henter h.2
    rw [withoutAll, visitsAll, kept_append, List.map_append, ← hrest]
    cases hn : drop n with
    | true =>
      have hvisits : n.visits enter = [n] := by simp [visits_eq, h.1.children (.refl n) hn]
      simp [hvisits, kept, hn]
    | false =>
      rw [if_neg Bool.false_ne_true, visitsAll, visits_without henter h.1 hn]

end

theorem preorder_without (h : Removes drop n) (hn : drop n = false) :
    (n.without drop).preorder = (kept drop n.preorder).map (without drop) :=
  visits_without (fun _ => rfl) h hn

end UiWorkspace.Script.Node
