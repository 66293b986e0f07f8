import UiWorkspace.Proofs.Script.TreeLayout

/-! What scopes declare. A scope declares a name anywhere in its body, but a search from an offset finds
only what begins before it. So a name is bound in the innermost scope that declares it if some of its
declarations begin before the offset, and is looked up further out if none does; and a variable has the
values given to it before the offset, those of the declarators and assignments around it included. -/
namespace UiWorkspace.Script

open UiWorkspace.Text

namespace Node

def scopeBody? (scope : Node) : Option Node := if scope.isFunction then scope.part? .body else some scope

/-- The nodes of a scope: those of its body, without what stands in functions. -/
def scopeNodes (scope : Node) : List Node := scope.scopeBody?.elim [] (visits fun n => !n.isFunction)

def declarations (scope : Node) (code name : String) : List Node :=
  scope.scopeNodes.filter (declaresName code name)

def hasParameter (scope : Node) (code name : String) : Bool :=
  scope.isFunction && scope.parameterNodes.any fun p => p.any fun n => n.text code == name

/-- Whether a scope has a parameter or, anywhere in its body, a declaration of the name. -/
def declares (scope : Node) (code name : String) : Bool :=
  scope.hasParameter code name || !(scope.declarations code name).isEmpty

/-- Whether a scope has a parameter of the name, or a declaration that begins before the offset. -/
def declaresBefore (scope : Node) (code : String) (offset : Nat) (name : String) : Bool :=
  scope.hasParameter code name || (scope.declarations code name).any (startsBefore offset)

variable {scope root : Node} {code name : String} {offset : Nat}

theorem declares_of_before (h : scope.declaresBefore code offset name = true) :
    scope.declares code name = true := by
  rcases Bool.or_eq_true_iff.1 h with hparameter | hdeclared
  · exact Bool.or_eq_true_iff.2 (.inl hparameter)
  · obtain ⟨n, hn, -⟩ := List.any_eq_true.1 hdeclared
    refine Bool.or_eq_true_iff.2 (.inr ?_)
    rw [Bool.not_eq_true', List.isEmpty_eq_false_iff]
    exact List.ne_nil_of_mem hn

theorem scopeBody?_isIn {body : Node} (h : scope.scopeBody? = some body) : body.IsIn scope := by
  unfold scopeBody? at h
  split at h
  · exact (IsIn.refl scope).part? h
  · cases h
    exact IsIn.refl scope

theorem scopeNodes_isIn {n : Node} (h : n ∈ scope.scopeNodes) : n.IsIn scope := by
  unfold scopeNodes at h
  cases hbody : scope.scopeBody? with
  | none =>
    rw [hbody] at h
    cases h
  | some body =>
    rw [hbody] at h
    exact (scopeBody?_isIn hbody).visits h

/-- The values that a scope gives to a name before an offset. -/
def valuesBefore (scope : Node) (code : String) (offset : Nat) (name : String) : List Node :=
  (scope.scopeNodes.filter (startsBefore offset)).filterMap (givenValue? code name)

theorem any_declarations : (scope.declarations code name).any (startsBefore offset) =
    (scope.scopeNodes.filter (startsBefore offset)).any (declaresName code name) := by
  rw [declarations, List.any_filter, List.any_filter]
  exact congrArg _ (funext fun n => Bool.and_comm _ _)

/-- The search for declarations finds what the scope has before the offset. -/
theorem declaredValues?_eq (h : scope.IsLaidOut) : declaredValues? scope code offset name =
    if (scope.declarations code name).any (startsBefore offset) then
      some (scope.valuesBefore code offset name)
    else none := by
  have hbody : declaredValues? scope code offset name = scope.scopeBody?.bind fun body =>
      let seen := (body.visits (entersScope offset)).filter (startsBefore offset)
      if seen.any (declaresName code name) then some (seen.filterMap (givenValue? code name))
      else none := by
    rw [declaredValues?, scopeBody?]
    cases scope.isFunction <;> rfl
  rw [any_declarations, hbody, valuesBefore, scopeNodes]
  cases hcase : scope.scopeBody? with
  | none => rfl
  | some body =>
    have hvisits := visits_entersScope offset (h.of_isIn (scopeBody?_isIn hcase))
    simp only [Option.bind_some, Option.elim_some, hvisits]
    rfl

end Node

section Binding

variable {scope : Cursor} {code name : String} {offset : Nat} {factory? : Option Span}

theorem scopeBinding?_isSome (h : scope.focus.IsLaidOut) :
    (scopeBinding? scope code offset name factory?).isSome = scope.focus.declaresBefore code offset name := by
  rw [scopeBinding?, Node.declaredValues?_eq h, Node.declaresBefore, Node.hasParameter]
  cases (scope.focus.declarations code name).any (Node.startsBefore offset) with
  | true => simp
  | false =>
    cases hparameter : scope.focus.isFunction &&
      scope.focus.parameterNodes.any fun p => p.any fun n => n.text code == name with
    | true => simp only [Bool.false_eq_true, if_false, if_true, Bool.or_false]; split <;> rfl
    | false => simp

end Binding

section Around

variable {root : Node} {code name : String} {offset : Nat} {factory? : Option Span}

/-- The scopes around an offset, innermost first. -/
def scopesAround (root : Node) (offset : Nat) : List Cursor :=
  functionsAround root offset ++ [Cursor.ofRoot root]

theorem isIn_of_mem_scopesAround {scope : Cursor} (h : scope ∈ scopesAround root offset) :
    scope.focus.IsIn root := by
  rcases List.mem_append.1 h with h | h
  · exact Cursor.focus_isIn_node (List.mem_of_mem_filter (List.mem_reverse.1 h))
  · rw [List.mem_singleton.1 h]
    exact Node.IsIn.refl root

theorem isFunction_of_program (h : root.is .program = true) : root.isFunction = false := by
  rw [Node.is, beq_iff_eq] at h
  rw [Node.isFunction, h]
  rfl

theorem binding_eq (hlaid : root.IsLaidOut) (hroot : root.is .program = true) :
    binding root code offset name factory? = ((scopesAround root offset).findSome? fun scope =>
      scopeBinding? scope code offset name factory?).getD .unbound := by
  rw [binding, enclosingFunctions_eq hlaid (isFunction_of_program hroot), scopesAround]

/-- Let a scope be the innermost one around the offset that declares the name. It binds the name if it
has the name as a parameter or a declaration of it begins before the offset. If all its declarations begin
behind the offset, the scopes further out decide. -/
theorem binding_of_innermost (hlaid : root.IsLaidOut) (hroot : root.is .program = true)
    {inner outer : List Cursor} {scope : Cursor} (hscopes : scopesAround root offset = inner ++ scope :: outer)
    (hinner : ∀ c ∈ inner, c.focus.declares code name = false) (hscope : scope.focus.declares code name = true) :
    (scope.focus.declaresBefore code offset name = true ∧
        scopeBinding? scope code offset name factory? = some (binding root code offset name factory?)) ∨
      (scope.focus.hasParameter code name = false ∧ scope.focus.declarations code name ≠ [] ∧
        (∀ n ∈ scope.focus.declarations code name, offset ≤ n.span.start) ∧
        binding root code offset name factory? =
          (outer.findSome? fun c => scopeBinding? c code offset name factory?).getD .unbound) := by
  have hbinds : ∀ c ∈ scopesAround root offset,
      (scopeBinding? c code offset name factory?).isSome = c.focus.declaresBefore code offset name :=
    fun c hc => scopeBinding?_isSome (hlaid.of_isIn (isIn_of_mem_scopesAround hc))
  have hskipped : (inner.findSome? fun c => scopeBinding? c code offset name factory?) = none := by
    refine List.findSome?_eq_none_iff.2 fun c hc => ?_
    have hsome := hbinds c (hscopes ▸ List.mem_append_left _ hc)
    cases hbefore : c.focus.declaresBefore code offset name with
    | true => exact absurd (Node.declares_of_before hbefore) (by simp [hinner c hc])
    | false => exact Option.isNone_iff_eq_none.1 (Option.isSome_eq_false_iff.1 (hsome.trans hbefore))
  have hdecides := hbinds scope (hscopes ▸ List.mem_append_right _ List.mem_cons_self)
  rw [binding_eq hlaid hroot, hscopes, List.findSome?_append, hskipped, Option.none_or, List.findSome?_cons]
  cases hfound : scopeBinding? scope code offset name factory? with
  | some found =>
    rw [hfound, Option.isSome_some] at hdecides
    exact .inl ⟨hdecides.symm, rfl⟩
  | none =>
    rw [hfound, Option.isSome_none] at hdecides
    obtain ⟨hparameter, hbehind⟩ := Bool.or_eq_false_iff.1 hdecides.symm
    rw [Node.declares, hparameter, Bool.false_or, Bool.not_eq_true', List.isEmpty_eq_false_iff] at hscope
    refine .inr ⟨hparameter, hscope, fun n hn => ?_, rfl⟩
    have hnot := List.any_eq_false.1 hbehind n hn
    simpa [Node.startsBefore] using hnot

def shadowingScript : String := "var x=1;function f()\x7bvar x=2;x;\x7d"

theorem binding_of_innermost_shadowing : ∃ scope,
    scopesAround (parse shadowingScript) 29 = [scope, Cursor.ofRoot (parse shadowingScript)] ∧
    scopeBinding? scope shadowingScript 29 "x" none =
      some (binding (parse shadowingScript) shadowingScript 29 "x" none) := by
  have hlength : (functionsAround (parse shadowingScript) 29).length = 1 := by decide +kernel
  have hbefore : (functionsAround (parse shadowingScript) 29).all (fun c =>
      c.focus.declaresBefore shadowingScript 29 "x") = true := by decide +kernel
  obtain ⟨scope, hscope⟩ := List.length_eq_one_iff.1 hlength
  rw [hscope, List.all_cons, List.all_nil, Bool.and_true] at hbefore
  have hscopes : scopesAround (parse shadowingScript) 29 =
      [] ++ scope :: [Cursor.ofRoot (parse shadowingScript)] := by
    rw [scopesAround, hscope]
    rfl
  refine ⟨scope, hscopes, ?_⟩
  rcases binding_of_innermost (by decide +kernel) (by decide +kernel) hscopes
    (fun c hc => absurd hc List.not_mem_nil) (Node.declares_of_before hbefore) with
    ⟨-, hbinding⟩ | ⟨hparameter, -, hbehind, -⟩
  · exact hbinding
  · have hnone : (scope.focus.declarations shadowingScript "x").any (Node.startsBefore 29) = false :=
      List.any_eq_false.2 fun n hn => by simpa [Node.startsBefore] using hbehind n hn
    rw [Node.declaresBefore, hparameter, hnone] at hbefore
    cases hbefore

theorem within_of_givenValue? {n v : Node} (hn : n.IsLaidOut) (h : givenValue? code name n = some v) :
    v.span.stop ≤ n.span.stop := by
  have hpart : ∃ role, n.part? role = some v := by
    unfold givenValue? at h
    split at h
    · split at h
      · exact ⟨_, h⟩
      · cases h
    · split at h
      · split at h
        · exact ⟨_, h⟩
        · cases h
      · cases h
  obtain ⟨role, hrole⟩ := hpart
  exact (hn.within ((Node.IsIn.refl n).part? hrole)).2

theorem values_of_scopeBinding? {scope : Cursor} {values : List Node} (hlaid : scope.focus.IsLaidOut)
    (h : scopeBinding? scope code offset name factory? = some (.variable values)) :
    values = scope.focus.valuesBefore code offset name := by
  rw [scopeBinding?, Node.declaredValues?_eq hlaid] at h
  cases hdeclared : (scope.focus.declarations code name).any (Node.startsBefore offset) with
  | true =>
    rw [hdeclared] at h
    cases h
    rfl
  | false =>
    rw [hdeclared] at h
    simp only [Bool.false_eq_true, if_false] at h
    split at h
    · split at h <;> cases h
    · cases h

/-- The values of a variable are those that a scope around the offset gives to it before the offset. Each
ends there, unless it belongs to a declarator or an assignment around the offset. -/
theorem values_of_binding (hlaid : root.IsLaidOut) (hroot : root.is .program = true) {values : List Node}
    (h : binding root code offset name factory? = .variable values) : ∃ scope ∈ scopesAround root offset,
      values = scope.focus.valuesBefore code offset name ∧
        ∀ v ∈ values, v.span.stop ≤ offset ∨ ∃ n ∈ scope.focus.scopeNodes,
          givenValue? code name n = some v ∧ n.span.start < offset ∧ offset < n.span.stop := by
  rw [binding_eq hlaid hroot] at h
  cases hfound : (scopesAround root offset).findSome? fun scope =>
      scopeBinding? scope code offset name factory? with
  | none =>
    rw [hfound] at h
    cases h
  | some found =>
    rw [hfound, Option.getD_some] at h
    subst h
    obtain ⟨scope, hscope, hbinds⟩ := List.exists_of_findSome?_eq_some hfound
    have hin := isIn_of_mem_scopesAround hscope
    have hvalues := values_of_scopeBinding? (hlaid.of_isIn hin) hbinds
    refine ⟨scope, hscope, hvalues, fun v hv => ?_⟩
    rw [hvalues] at hv
    obtain ⟨n, hn, hgives⟩ := List.mem_filterMap.1 hv
    obtain ⟨hnode, hbefore⟩ := List.mem_filter.1 hn
    have hstop := within_of_givenValue? ((hlaid.of_isIn hin).of_isIn (Node.scopeNodes_isIn hnode)) hgives
    rcases Nat.lt_or_ge offset v.span.stop with hbehind | hends
    · exact .inr ⟨n, hnode, hgives, of_decide_eq_true hbefore, Nat.lt_of_lt_of_le hbehind hstop⟩
    · exact .inl hends

def Binding.values? : Binding → Option (List Node)
  | .variable values => some values
  | _ => none

theorem Binding.values?_eq_some_iff {b : Binding} {values : List Node} :
    b.values? = some values ↔ b = .variable values := by
  cases b <;> simp [Binding.values?]

def reassigningScript : String := "var x=1;x=2;x;"

theorem values_of_binding_reassigning : ∃ values, values.map Node.span = [⟨6, 7⟩, ⟨10, 11⟩] ∧
    ∃ scope ∈ scopesAround (parse reassigningScript) 12,
      values = scope.focus.valuesBefore reassigningScript 12 "x" ∧
        ∀ v ∈ values, v.span.stop ≤ 12 ∨ ∃ n ∈ scope.focus.scopeNodes,
          givenValue? reassigningScript "x" n = some v ∧ n.span.start < 12 ∧ 12 < n.span.stop := by
  have hvalues : (binding (parse reassigningScript) reassigningScript 12 "x" none).values?.map
      (List.map Node.span) = some [⟨6, 7⟩, ⟨10, 11⟩] := by decide +kernel
  obtain ⟨values, hbinding, hspans⟩ := Option.map_eq_some_iff.1 hvalues
  exact ⟨values, hspans, values_of_binding (by decide +kernel) (by decide +kernel)
    (Binding.values?_eq_some_iff.1 hbinding)⟩

end Around

end UiWorkspace.Script
