import UiWorkspace.Proofs.Script.Comments

/-! Readers of a class in scripts that lose comments: dependencies and parameters, calls of `extend`,
references to classes, members, returned objects. Each finds the same as long as no comment stands
where it goes by position. -/
namespace UiWorkspace.Script

open UiWorkspace.Text Node

variable {drop : Node → Bool} {code module : String}

theorem stringContents?_of_drop {n : Node} (h : Removes drop n) (hn : drop n = true) :
    n.stringContents? code = none := by
  rw [stringContents?, h.is_eq_false hn (by decide)]
  rfl

theorem not_comment_of_stringContents {n : Node} {contents : String × Span}
    (h : n.stringContents? code = some contents) : n.is .comment = false := by
  cases hcomment : n.is .comment with
  | false => rfl
  | true =>
    rw [stringContents?, Node.is_eq_false hcomment (by decide)] at h
    cases h

theorem importsOf_without {deps : Node} (h : Removes drop deps)
    (hsettled : settled drop deps.namedChildren.length deps.namedChildren = true) (params : List String) :
    importsOf (deps.without drop) code module params = importsOf deps code module params := by
  rw [importsOf, namedChildren_without]
  refine filterMap_zipIdx_kept (fun n i => ?_) (fun n hn hgoes i => ?_) (Nat.le_refl _) hsettled 0
  · simp only [stringContents?_without]
  · simp only [stringContents?_of_drop (h.named hn) hgoes]
    rfl

theorem parameterName?_without {p : Node} (h : Removes drop p)
    (hrest : p.is .restPattern = true → settled drop 1 p.namedChildren = true) :
    (p.without drop).parameterName? = p.parameterName?.map (without drop) := by
  have hsame : ∀ m : Node, (m.without drop).is .identifier = m.is .identifier := fun m => is_without m _
  unfold parameterName?
  simp only [is_without, part?_without h]
  cases p.is .identifier with
  | true => exact filter_without hsame (some p)
  | false =>
    cases p.is .assignmentPattern with
    | true => exact filter_without hsame (p.part? .left)
    | false =>
      cases hkind : p.is .restPattern with
      | false => rfl
      | true =>
        simp only [Bool.false_eq_true, if_false, if_true, List.head?_eq_getElem?, namedChildren_without]
        exact filter_getElem?_kept hsame (fun m hm hgoes => (h.named hm).is_eq_false hgoes (by decide))
          (hrest hkind) Nat.one_pos

theorem parameterNames_without {function : Node} (h : Removes drop function)
    (hrest : ∀ list ∈ function.part? .parameters, ∀ p ∈ list.namedChildren, p.is .restPattern = true →
      settled drop 1 p.namedChildren = true) :
    (function.without drop).parameterNames code = function.parameterNames code := by
  have hnodes : (function.without drop).parameterNodes =
      function.parameterNodes.map (Option.map (without drop)) := by
    rw [parameterNodes, parameterNodes, part?_without h, part?_without h]
    cases function.part? .parameter with
    | some single => rfl
    | none =>
      cases hlist : function.part? .parameters with
      | none => rfl
      | some list =>
        have hparameters : ((list.without drop).namedChildren.filter fun p => !p.is .comment) =
            (list.namedChildren.filter fun p => !p.is .comment).map (without drop) := by
          have hkept : (kept drop list.namedChildren).filter (fun p => !p.is .comment) =
              list.namedChildren.filter fun p => !p.is .comment := by
            rw [kept, List.filter_filter]
            refine List.filter_congr fun p hp => ?_
            cases hgoes : drop p with
            | false => simp
            | true => simp [((h.part hlist).named hp).isComment (.refl p) hgoes]
          have hsame : (fun p : Node => !p.is .comment) ∘ without drop = fun p => !p.is .comment :=
            funext fun p => by simp
          rw [namedChildren_without, List.filter_map, hsame, hkept]
        simp only [Option.map_some, Option.map_none, hparameters, List.map_map]
        refine List.map_congr_left fun p hp => ?_
        have hp := (List.mem_filter.1 hp).1
        exact parameterName?_without ((h.part hlist).named hp) (hrest list hlist p hp)
  rw [parameterNames, hnodes, parameterNames, List.map_map]
  refine List.map_congr_left fun p _ => ?_
  cases p <;> simp

def ExtendCall.without (drop : Node → Bool) (e : ExtendCall) : ExtendCall :=
  { e with parent := e.parent.without drop, body? := e.body?.map (Node.without drop) }

theorem ExtendCall.of?_without {n : Node} (h : Removes drop n)
    (hsettled : ∀ args ∈ n.part? .arguments, settled drop 2 args.namedChildren = true) :
    ExtendCall.of? (n.without drop) code = (ExtendCall.of? n code).map (ExtendCall.without drop) := by
  unfold ExtendCall.of?
  rw [is_without, part?_without h, part?_without h]
  cases n.is .call with
  | false => rfl
  | true =>
    refine bind_without fun callee hcallee => ?_
    have hcallee := h.part hcallee
    rw [is_without, part?_without hcallee, part?_without hcallee]
    cases callee.is .member with
    | false => rfl
    | true =>
      refine bind_without fun property _ => bind_without fun parent _ => bind_without fun args hargs => ?_
      have hnamed : ∀ m ∈ args.namedChildren, Removes drop m := fun m hm => (h.part hargs).named hm
      rw [text_without]
      split
      · rfl
      · simp only [namedChildren_without, List.head?_eq_getElem?]
        rw [filter_getElem?_kept (fun m => is_without m .object)
          (fun m hm hgoes => (hnamed m hm).is_eq_false hgoes (by decide)) (hsettled args hargs) Nat.one_lt_two]
        refine bind_getElem?_kept (fun first _ _ => ?_) (fun first hfirst hgoes => ?_) (hsettled args hargs)
          Nat.two_pos
        · rw [stringContents?_without]
          cases first.stringContents? code <;> rfl
        · rw [stringContents?_of_drop (hnamed first hfirst) hgoes]
          rfl

theorem ExtendCall.exists_parts {n : Node} {e : ExtendCall} (h : ExtendCall.of? n code = some e) :
    n.is .call = true ∧ ∃ callee, n.part? .callee = some callee ∧ callee.is .member = true ∧
      (∃ property, callee.part? .property = some property ∧ property.text code = "extend") ∧
      callee.part? .object = some e.parent ∧ ∃ args, n.part? .arguments = some args ∧
      ∃ first span, args.namedChildren.head? = some first ∧
        first.stringContents? code = some (e.name, span) := by
  unfold ExtendCall.of? at h
  split at h
  · cases h
  next hcall =>
    obtain ⟨callee, hcallee, h⟩ := Option.bind_eq_some_iff.1 h
    split at h
    · cases h
    next hmember =>
      obtain ⟨property, hproperty, h⟩ := Option.bind_eq_some_iff.1 h
      obtain ⟨parent, hparent, h⟩ := Option.bind_eq_some_iff.1 h
      obtain ⟨args, hargs, h⟩ := Option.bind_eq_some_iff.1 h
      split at h
      · cases h
      next hextend =>
        obtain ⟨first, hfirst, h⟩ := Option.bind_eq_some_iff.1 h
        obtain ⟨⟨name, span⟩, hname, ⟨⟩⟩ := Option.bind_eq_some_iff.1 h
        simp only [Bool.not_eq_true', Bool.not_eq_false, bne_iff_ne, ne_eq, not_not] at hcall hmember hextend
        exact ⟨hcall, callee, hcallee, hmember, ⟨property, hproperty, hextend⟩, hparent, args, hargs, first, span,
          hfirst, hname⟩

theorem ExtendCall.isSome_of?_without {n : Node} (h : Removes drop n)
    (hsome : (ExtendCall.of? n code).isSome = true) : (ExtendCall.of? (n.without drop) code).isSome = true := by
  obtain ⟨e, hread⟩ := Option.isSome_iff_exists.1 hsome
  obtain ⟨hcall, callee, hcallee, hmember, ⟨property, hproperty, hextend⟩, hparent, args, hargs, first, span,
    hfirst, hname⟩ := ExtendCall.exists_parts hread
  have hfirst' : (args.without drop).namedChildren.head? = some (first.without drop) := by
    obtain ⟨rest, hrest⟩ := List.head?_eq_some_iff.1 hfirst
    have hstays : drop first = false :=
      ((h.part hargs).named (List.mem_of_head? hfirst)).stays (not_comment_of_stringContents hname)
    rw [namedChildren_without, hrest, kept_cons_of_not hstays]
    rfl
  simp [ExtendCall.of?, part?_without h, part?_without (h.part hcallee), hcall, hcallee, hmember, hproperty,
    hparent, hargs, hextend, hfirst', hname]

theorem findSome?_eq_map_of_first {α β γ : Type} {f : α → Option β} {f' : α → Option γ} {g : β → γ} {l : List α}
    (hsome : ∀ a ∈ l, (f a).isSome = true → (f' a).isSome = true)
    (hfirst : ∀ a ∈ l.find? fun a => (f' a).isSome, f' a = (f a).map g) :
    l.findSome? f' = (l.findSome? f).map g := by
  induction l with
  | nil => rfl
  | cons a l ih =>
    rw [List.forall_mem_cons] at hsome
    rw [List.find?_cons] at hfirst
    rw [List.findSome?_cons, List.findSome?_cons]
    cases hf' : f' a with
    | none =>
      have hf : f a = none := by
        rw [← Option.not_isSome_iff_eq_none]
        intro hf
        have := hsome.1 hf
        rw [hf'] at this
        cases this
      rw [hf'] at hfirst
      rw [hf]
      exact ih hsome.2 hfirst
    | some b =>
      rw [hf'] at hfirst
      have hhere := hfirst a rfl
      rw [hf'] at hhere
      cases hf : f a with
      | none => rw [hf] at hhere; cases hhere
      | some c => rw [hf] at hhere; exact hhere

/-- The first call that is read once the comments are gone. -/
def extensionWithout? (drop : Node → Bool) (scope : Node) (code : String) : Option Node :=
  scope.preorder.find? fun n => (ExtendCall.of? (n.without drop) code).isSome

theorem extendCall?_without {scope : Node} (h : Removes drop scope) (hscope : drop scope = false)
    (hsettled : ∀ n ∈ extensionWithout? drop scope code, ∀ args ∈ n.part? .arguments,
      settled drop 2 args.namedChildren = true) :
    extendCall? (scope.without drop) code = (extendCall? scope code).map (ExtendCall.without drop) := by
  have hin : ∀ n ∈ scope.preorder, Removes drop n := fun n hn => h.below hn
  have hgone : extendCall? (scope.without drop) code =
      scope.preorder.findSome? fun n => ExtendCall.of? (n.without drop) code := by
    rw [extendCall?, preorder_without h hscope]
    refine (findSome?_kept (g := id) (fun n _ _ => ?_) fun n hn hgoes => ?_).trans (congrFun Option.map_id _)
    · exact (congrFun Option.map_id _).symm
    · rw [ExtendCall.of?, is_without, (hin n hn).is_eq_false hgoes (by decide)]
      rfl
  rw [hgone]
  refine findSome?_eq_map_of_first (fun n hn => ExtendCall.isSome_of?_without (hin n hn)) fun n hn => ?_
  exact ExtendCall.of?_without (hin n (List.mem_of_find?_eq_some hn)) (hsettled n hn)

mutual

/-- No parentheses around the expression begin with a node that is taken out. -/
def opensClear (drop : Node → Bool) : Node → Bool
  | .mk label _ _ children =>
    label != .construct .parenthesized
      || settled drop 1 (children.filter isNamed) && firstOpensClear drop children

def firstOpensClear (drop : Node → Bool) : List Node → Bool
  | [] => true
  | c :: cs => if c.isNamed then opensClear drop c else firstOpensClear drop cs

end

theorem isNamed_of_is {n : Node} {kind : Kind} (h : n.is kind = true) : n.isNamed = true := by
  rw [Node.is, beq_iff_eq] at h
  rw [isNamed, h]
  rfl

theorem unwrapped?_of_bare {n : Node} (h : n.is .parenthesized = false) : n.unwrapped? = some n := by
  cases n
  exact if_neg (ne_true_of_eq_false h)

theorem unwrapped?_of_is {n : Node} {kind : Kind} (h : n.is kind = true) (hkind : kind ≠ .parenthesized) :
    n.unwrapped? = some n :=
  unwrapped?_of_bare (Node.is_eq_false h hkind)

theorem firstUnwrapped?_eq_none {ns : List Node} (h : ∀ n ∈ ns, n.isNamed = true → drop n = true) :
    firstUnwrapped? (withoutAll drop ns) = none := by
  induction ns with
  | nil => rfl
  | cons n ns ih =>
    rw [List.forall_mem_cons] at h
    cases hn : drop n with
    | true =>
      rw [withoutAll, hn, if_pos rfl]
      exact ih h.2
    | false =>
      have hbare : n.isNamed = false := by
        cases hnamed : n.isNamed with
        | false => rfl
        | true => rw [h.1 hnamed] at hn; cases hn
      rw [withoutAll, hn, if_neg Bool.false_ne_true, firstUnwrapped?, isNamed_without, hbare,
        if_neg Bool.false_ne_true]
      exact ih h.2

section Unwrapped

variable {α : Type} {f : Node → Option α}

mutual

theorem bind_unwrapped?_without (hsame : ∀ m, f (m.without drop) = f m) :
    ∀ {n : Node}, Removes drop n → (∀ m, m.IsIn n → drop m = true → f m = none) → opensClear drop n = true →
      (n.without drop).unwrapped?.bind f = n.unwrapped?.bind f
  | .mk label role span children, h, hnone, hclear => by
    have hhere := hsame (.mk label role span children)
    rw [opensClear] at hclear
    simp only [without, unwrapped?] at hhere ⊢
    split
    next hparens =>
      rw [beq_iff_eq] at hparens
      simp only [hparens, bne_self_eq_false, Bool.false_or, Bool.and_eq_true] at hclear
      exact bind_firstUnwrapped?_without hsame (fun c hc => h.child hc)
        (fun m hm hgoes => hnone m (isIn_iff.2 (.inr hm)) hgoes) hclear.1 hclear.2
    next => exact hhere

theorem bind_firstUnwrapped?_without (hsame : ∀ m, f (m.without drop) = f m) :
    ∀ {ns : List Node}, (∀ n ∈ ns, Removes drop n) →
      (∀ m, (∃ c ∈ ns, m.IsIn c) → drop m = true → f m = none) →
      settled drop 1 (ns.filter isNamed) = true → firstOpensClear drop ns = true →
      (firstUnwrapped? (withoutAll drop ns)).bind f = (firstUnwrapped? ns).bind f
  | [], _, _, _, _ => rfl
  | n :: ns, h, hnone, hsettled, hclear => by
    rw [List.forall_mem_cons] at h
    rw [firstOpensClear] at hclear
    cases hgoes : drop n with
    | true =>
      have hcomment := h.1.isComment (.refl n) hgoes
      have hnamed := isNamed_of_is hcomment
      rw [List.filter_cons, hnamed, if_pos rfl] at hsettled
      have hall := forall_mem_of_settled hsettled hgoes
      have hleft : firstUnwrapped? (withoutAll drop (n :: ns)) = none := by
        refine firstUnwrapped?_eq_none fun m hm hmnamed => hall m ?_
        rw [List.mem_cons] at hm ⊢
        exact hm.imp_right fun hm => List.mem_filter.2 ⟨hm, hmnamed⟩
      have hhere : f n = none := hnone n ⟨n, List.mem_cons_self, .refl n⟩ hgoes
      rw [hleft, firstUnwrapped?, if_pos hnamed, unwrapped?_of_is hcomment (by decide), Option.bind_some, hhere]
      rfl
    | false =>
      rw [withoutAll, hgoes, if_neg Bool.false_ne_true, firstUnwrapped?, firstUnwrapped?, isNamed_without]
      cases hnamed : n.isNamed with
      | true =>
        rw [hnamed, if_pos rfl] at hclear
        exact bind_unwrapped?_without hsame h.1 (fun m hm => hnone m ⟨n, List.mem_cons_self, hm⟩) hclear
      | false =>
        rw [hnamed, if_neg Bool.false_ne_true] at hclear
        rw [List.filter_cons, hnamed, if_neg Bool.false_ne_true] at hsettled
        refine bind_firstUnwrapped?_without hsame h.2 (fun m hm => hnone m ?_) hsettled hclear
        exact (List.exists_mem_cons_iff ..).2 (.inr hm)

end

end Unwrapped

theorem classReference?_without {n : Node} (h : Removes drop n) (hclear : opensClear drop n = true)
    (aliases : List (String × String)) :
    (n.without drop).classReference? code aliases = n.classReference? code aliases := by
  unfold classReference?
  refine bind_unwrapped?_without (fun m => ?_) h (fun m hm hgoes => ?_) hclear
  · simp only [is_without, text_without]
  · have hm := h.below hm
    rw [hm.is_eq_false hgoes (by decide), hm.is_eq_false hgoes (by decide)]
    rfl

theorem keyName?_without (key : Node) : keyName? (key.without drop) code = keyName? key code := by
  simp only [keyName?, is_without, text_without, span_without, stringContents?_without]

def constructed? (value : Node) : Option Node := if value.is .construct then value.part? .constructor else none

theorem declaredMember?_without {entry : Node} (h : Removes drop entry)
    (hclear : ∀ c ∈ (entry.part? .value).bind constructed?, opensClear drop c = true) (doc? : Option String)
    (aliases : List (String × String)) :
    declaredMember? (entry.without drop) doc? code aliases = declaredMember? entry doc? code aliases := by
  unfold declaredMember?
  simp only [is_without, part?_without h, span_without]
  cases entry.is .pair with
  | true =>
    refine bind_without_eq fun key _ => bind_without_eq fun value hvalue => ?_
    have hinitial : (if value.is .construct then
        ((value.without drop).part? .constructor).bind fun c => c.classReference? code aliases else none) =
        if value.is .construct then (value.part? .constructor).bind fun c => c.classReference? code aliases
        else none := by
      split
      next hconstruct =>
        rw [part?_without (h.part hvalue)]
        refine bind_without_eq fun c hc => ?_
        refine classReference?_without ((h.part hvalue).part hc) (hclear c ?_) aliases
        rw [Option.mem_def, Option.mem_def.1 hvalue, Option.bind_some, constructed?, if_pos hconstruct]
        exact hc
      next => rfl
    simp only [keyName?_without, isFunction_without, is_without, span_without, hinitial]
  | false =>
    cases entry.is .methodDef with
    | true => exact bind_without_eq fun key _ => by simp only [keyName?_without]
    | false => rfl

/-- No entry is cut off from its documentation: where a node that is taken out stands right before it,
no documentation comment is the last of the nodes before it that stay. -/
def documented (drop : Node → Bool) (code : String) : (last? previous? : Option Node) → List Node → Bool
  | _, _, [] => true
  | last?, previous?, entry :: rest =>
    (entry.is .comment || !previous?.any drop || (last?.bind fun d => docText? d code).isNone)
      && documented drop code (if drop entry then last? else some entry) (some entry) rest

theorem docText?_without (n : Node) : docText? (n.without drop) code = docText? n code := by
  rw [docText?, text_without, is_without]
  rfl

theorem declaredMember?_of_comment {entry : Node} (h : entry.is .comment = true) (doc? : Option String)
    (aliases : List (String × String)) : declaredMember? entry doc? code aliases = none := by
  rw [declaredMember?, Node.is_eq_false h (by decide), Node.is_eq_false h (by decide)]
  rfl

theorem docs_without (hplain : ∀ n, drop n = true → docText? n code = none) {entry : Node}
    (hentry : entry.is .comment = false) {last? previous? : Option Node}
    (hlast : previous?.any drop = false → last? = previous?)
    (hhere : (entry.is .comment || !previous?.any drop || (last?.bind fun d => docText? d code).isNone)
      = true) :
    (last?.bind fun p => docText? p code) = previous?.bind fun p => docText? p code := by
  cases hbefore : previous?.any drop with
  | false => rw [hlast hbefore]
  | true =>
    have hnone : (last?.bind fun p => docText? p code) = none := by
      rw [hentry, hbefore] at hhere
      simpa using hhere
    cases previous? with
    | none => exact hnone
    | some p => exact hnone.trans (hplain p hbefore).symm

theorem declaredMembers_without (hplain : ∀ n, drop n = true → docText? n code = none)
    (aliases : List (String × String)) {entries : List Node} (h : ∀ n ∈ entries, Removes drop n)
    (hclear : ∀ n ∈ entries, ∀ c ∈ (n.part? .value).bind constructed?, opensClear drop c = true)
    {last? previous? : Option Node} (hlast : previous?.any drop = false → last? = previous?)
    (hdocs : documented drop code last? previous? entries = true) (found : List Member) :
    declaredMembers code aliases (last?.map (without drop)) found ((kept drop entries).map (without drop)) =
      declaredMembers code aliases previous? found entries := by
  induction entries generalizing last? previous? found with
  | nil => rfl
  | cons entry entries ih =>
    rw [List.forall_mem_cons] at h hclear
    rw [documented, Bool.and_eq_true] at hdocs
    obtain ⟨hhere, hdocs⟩ := hdocs
    cases hgoes : drop entry with
    | true =>
      have hcomment := h.1.isComment (.refl entry) hgoes
      have hskipped : kept drop (entry :: entries) = kept drop entries := by simp [kept, hgoes]
      rw [hgoes, if_pos rfl] at hdocs
      rw [hskipped, declaredMembers, declaredMember?_of_comment hcomment]
      refine ih h.2 hclear.2 (fun hstays => ?_) hdocs found
      rw [Option.any_some, hgoes] at hstays
      cases hstays
    | false =>
      have hmember : declaredMember? (entry.without drop) ((last?.map (without drop)).bind fun p => docText? p code)
          code aliases = declaredMember? entry (previous?.bind fun p => docText? p code) code aliases := by
        rw [declaredMember?_without h.1 hclear.1, bind_without_eq fun n _ => docText?_without n]
        cases hcomment : entry.is .comment with
        | true => rw [declaredMember?_of_comment hcomment, declaredMember?_of_comment hcomment]
        | false => rw [docs_without hplain hcomment hlast hhere]
      rw [hgoes, if_neg Bool.false_ne_true] at hdocs
      rw [kept_cons_of_not hgoes, List.map_cons, declaredMembers, declaredMembers, hmember]
      exact ih h.2 hclear.2 (fun _ => rfl) hdocs _

theorem thisAssignment?_without {n : Node} (h : Removes drop n) : thisAssignment? (n.without drop) =
    (thisAssignment? n).map fun found => (found.1.without drop, found.2.without drop) := by
  unfold thisAssignment?
  rw [is_without, part?_without h, part?_without h]
  cases n.is .assignment with
  | false => rfl
  | true =>
    refine bind_without fun left hleft => bind_without fun right _ => ?_
    rw [is_without, part?_without (h.part hleft), part?_without (h.part hleft)]
    refine bind_without fun object _ => ?_
    rw [is_without]
    cases left.is .member && object.is .this with
    | false => rfl
    | true => exact bind_without fun property _ => rfl

theorem withAssignments_without {body : Node} (h : Removes drop body) (members : List Member) :
    withAssignments (body.without drop) code members = withAssignments body code members := by
  have hassigned : (body.without drop).preorder.filterMap thisAssignment? =
      (body.preorder.filterMap thisAssignment?).map
        fun found => (found.1.without drop, found.2.without drop) := by
    cases hbody : drop body with
    | true =>
      have hnone : thisAssignment? body = none := by
        rw [thisAssignment?, h.is_eq_false hbody (by decide)]
        rfl
      have hnone' : thisAssignment? (body.without drop) = none := by
        rw [thisAssignment?_without h, hnone]
        rfl
      simp [preorder_eq, children_without, h.children (.refl body) hbody, kept, hnone, hnone']
    | false =>
      rw [preorder_without h hbody]
      refine filterMap_kept (fun n hn _ => thisAssignment?_without (h.below hn)) fun n hn hgoes => ?_
      rw [thisAssignment?, (h.below hn).is_eq_false hgoes (by decide)]
      rfl
  rw [withAssignments, hassigned, List.foldl_map]
  simp only [text_without, span_without]
  rfl

theorem declaredObject?_without {factory : Node} (h : Removes drop factory) (name : String) :
    declaredObject? (factory.without drop) code name =
      (declaredObject? factory code name).map (without drop) := by
  unfold declaredObject?
  rw [part?_without h]
  refine bind_without fun body hbody => ?_
  have hin := h.part hbody
  rw [visits_without (fun n => by rw [isFunction_without]) hin (h.part_stays hbody)]
  refine findSome?_kept (fun n hn _ => ?_) fun n hn hgoes => ?_
  · have hn := hin.below ((IsIn.refl body).visits hn)
    simp only [is_without, part?_without hn, Option.any_map, text_without]
    split
    · exact filter_without (fun v => is_without v .object) _
    · rfl
  · rw [(hin.below ((IsIn.refl body).visits hn)).is_eq_false hgoes (by decide)]
    rfl

def objectReturned? (factory : Node) (code : String) (n : Node) : Option Node :=
  if n.is .object then some n
  else if n.is .identifier then declaredObject? factory code (n.text code)
  else none

theorem objectReturned?_without {factory : Node} (h : Removes drop factory) (n : Node) :
    objectReturned? (factory.without drop) code (n.without drop) =
      (objectReturned? factory code n).map (without drop) := by
  simp only [objectReturned?, is_without, text_without, declaredObject?_without h]
  split
  · rfl
  · split <;> rfl

theorem returnedObject?_without {factory : Node} (h : Removes drop factory)
    (hsettled : ∀ body ∈ factory.part? .body, ∀ n ∈ body.visits fun n => !n.closesReturns,
      n.is .returnStmt = true → settled drop 1 n.namedChildren = true) :
    returnedObject? (factory.without drop) code = (returnedObject? factory code).map (without drop) := by
  have hreturned : ∀ f : Node, returnedObject? f code = f.returned.findSome? (objectReturned? f code) :=
    fun _ => rfl
  have hobject : ∀ n, objectReturned? (factory.without drop) code (n.without drop) =
      (objectReturned? factory code n).map (without drop) := objectReturned?_without h
  have hnone : ∀ n, Removes drop n → drop n = true → objectReturned? factory code n = none := by
    intro n hn hgoes
    rw [objectReturned?, hn.is_eq_false hgoes (by decide), hn.is_eq_false hgoes (by decide)]
    rfl
  rw [hreturned, hreturned, returned, returned, part?_without h]
  cases hbody : factory.part? .body with
  | none => rfl
  | some body =>
    have hin := h.part hbody
    rw [Option.map_some]
    dsimp only
    rw [is_without]
    cases body.is .block with
    | false => simp [hobject]
    | true =>
      have henter : ∀ n : Node, (!(n.without drop).closesReturns) = !n.closesReturns := fun n => by
        simp only [closesReturns, is_without, isFunction_without]
      simp only [Bool.not_true, Bool.false_eq_true, if_false, ← List.head?_filterMap, List.filterMap_filterMap]
      rw [visits_without henter hin (h.part_stays hbody), List.head?_filterMap, List.head?_filterMap]
      refine findSome?_kept (fun n hn _ => ?_) fun n hn hgoes => ?_
      · have hn' := hin.below ((IsIn.refl body).visits hn)
        rw [is_without]
        cases hreturn : n.is .returnStmt with
        | false => rfl
        | true =>
          simp only [if_true, List.head?_eq_getElem?, namedChildren_without]
          exact bind_getElem?_kept (fun m _ _ => hobject m) (fun m hm => hnone m (hn'.named hm))
            (hsettled body hbody n hn hreturn) Nat.one_pos
      · rw [(hin.below ((IsIn.refl body).visits hn)).is_eq_false hgoes (by decide)]
        rfl

end UiWorkspace.Script
