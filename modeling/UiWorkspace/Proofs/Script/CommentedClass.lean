import UiWorkspace.Proofs.Script.CommentedParts

/-! Classes of scripts that lose comments. The class of a script is read by kind, role and place, and
by position where dependencies, the arguments of `extend`, returned values, expressions in parentheses,
rest parameters and documented entries are concerned. Comments that stay out of these positions take
no part in it. -/
namespace UiWorkspace.Script

open UiWorkspace.Text Node

variable {drop : Node → Bool} {code module : String}

theorem defineCall?_without {root : Node} (h : Removes drop root) (hroot : drop root = false) :
    defineCall? (root.without drop) code = (defineCall? root code).map (without drop) := by
  rw [defineCall?, preorder_without h hroot]
  refine find?_kept (fun n hn _ => ?_) fun n hn hgoes => ?_
  · rw [is_without, part?_without (h.below hn), Option.any_map]
    simp only [text_without]
  · rw [(h.below hn).is_eq_false hgoes (by decide)]
    rfl

def argument? (p : Node → Bool) (call : Node) : Option Node :=
  (call.part? .arguments).bind fun args => args.namedChildren.find? p

theorem argument?_without {p : Node → Bool} (hsame : ∀ n, p (n.without drop) = p n)
    (hcomment : ∀ n, n.is .comment = true → p n = false) {call : Node} (h : Removes drop call) :
    argument? p (call.without drop) = (argument? p call).map (without drop) := by
  rw [argument?, part?_without h]
  refine bind_without fun args hargs => ?_
  rw [namedChildren_without]
  refine find?_kept (fun n _ _ => hsame n) fun n hn hgoes => hcomment n ?_
  exact ((h.part hargs).named hn).isComment (.refl n) hgoes

def moduleFactory? (root : Node) (code : String) : Option Node :=
  (defineCall? root code).bind (argument? isFunction)

def moduleDependencies? (root : Node) (code : String) : Option Node :=
  (defineCall? root code).bind (argument? fun n => n.is .array)

def moduleParameters (root : Node) (code : String) : List String :=
  ((moduleFactory? root code).map fun f => f.parameterNames code).getD []

def classExtension? (root : Node) (code : String) : Option ExtendCall :=
  extendCall? ((moduleFactory? root code).getD root) code

def classBody? (root : Node) (code : String) : Option Node :=
  match classExtension? root code with
  | some extend => extend.body?
  | none => (moduleFactory? root code).bind fun f => returnedObject? f code

theorem moduleParts_eq (call : Node) (code module : String) : moduleParts call code module =
    (((argument? (fun n => n.is .array) call).map fun deps => importsOf deps code module
        (((argument? isFunction call).map fun f => f.parameterNames code).getD [])).getD [],
      argument? isFunction call) := by
  unfold moduleParts argument?
  cases call.part? .arguments with
  | none => rfl
  | some args =>
    simp only [Option.bind_some]
    cases args.namedChildren.find? fun n => n.is .array <;> rfl

def moduleImports (root : Node) (code module : String) : List Import :=
  ((moduleDependencies? root code).map fun deps =>
    importsOf deps code module (moduleParameters root code)).getD []

def membersOf (body : Node) (code : String) (aliases : List (String × String)) : List Member :=
  withAssignments body code (declaredMembers code aliases none [] body.namedChildren)

theorem classOfTree_eq (module code : String) (root : Node) : classOfTree module code root =
    let aliases := aliasTable (moduleImports root code module)
    { declaredName? := (classExtension? root code).map ExtendCall.name
      parent? := (classExtension? root code).bind fun e => e.parent.classReference? code aliases
      imports := moduleImports root code module
      aliases := aliases
      members := ((classBody? root code).map fun body => membersOf body code aliases).getD []
      factory? := (moduleFactory? root code).map Node.span
      body? := (classBody? root code).map Node.span } := by
  unfold classOfTree moduleImports classBody? classExtension? moduleParameters moduleDependencies? moduleFactory?
  cases defineCall? root code with
  | none =>
    simp only [Option.bind_none, Option.map_none, Option.getD_none]
    congr 1
    cases extendCall? root code with
    | some extend =>
      dsimp only
      cases extend.body? <;> rfl
    | none => rfl
  | some call =>
    simp only [moduleParts_eq, Option.bind_some]
    congr 1
    cases extendCall? ((argument? isFunction call).getD root) code with
    | some extend =>
      dsimp only
      cases extend.body? <;> rfl
    | none =>
      dsimp only
      cases (argument? isFunction call).bind fun f => returnedObject? f code <;> rfl

/-- Nothing is taken out where the class of a script is read by position. -/
structure StandsAside (drop : Node → Bool) (code : String) (root : Node) : Prop where
  /-- Before a dependency. -/
  dependencies : ∀ deps ∈ moduleDependencies? root code,
    settled drop deps.namedChildren.length deps.namedChildren = true
  /-- Between the dots and the name of a rest parameter of the factory. -/
  parameters : ∀ factory ∈ moduleFactory? root code, ∀ list ∈ factory.part? .parameters,
    ∀ p ∈ list.namedChildren, p.is .restPattern = true → settled drop 1 p.namedChildren = true
  /-- Before the first two arguments of the call of `extend`. -/
  extension : ∀ n ∈ extensionWithout? drop ((moduleFactory? root code).getD root) code,
    ∀ args ∈ n.part? .arguments, settled drop 2 args.namedChildren = true
  /-- Before what the factory returns, where no call of `extend` makes the class. -/
  returned : (classExtension? root code).isNone = true → ∀ factory ∈ moduleFactory? root code,
    ∀ body ∈ factory.part? .body, ∀ n ∈ body.visits fun n => !n.closesReturns,
      n.is .returnStmt = true → settled drop 1 n.namedChildren = true
  /-- Before the parent, where it stands in parentheses. -/
  parent : ∀ e ∈ classExtension? root code, opensClear drop e.parent = true
  /-- Between a documentation comment and its entry. -/
  entries : ∀ body ∈ classBody? root code, documented drop code none none body.namedChildren = true
  /-- Before the class that the value of an entry is constructed from, where it stands in parentheses. -/
  values : ∀ body ∈ classBody? root code, ∀ entry ∈ body.namedChildren,
    ∀ c ∈ (entry.part? .value).bind constructed?, opensClear drop c = true

instance (drop : Node → Bool) (code : String) (root : Node) : Decidable (StandsAside drop code root) :=
  decidable_of_iff
    ((∀ deps ∈ moduleDependencies? root code, settled drop deps.namedChildren.length deps.namedChildren = true) ∧
      (∀ factory ∈ moduleFactory? root code, ∀ list ∈ factory.part? .parameters, ∀ p ∈ list.namedChildren,
        p.is .restPattern = true → settled drop 1 p.namedChildren = true) ∧
      (∀ n ∈ extensionWithout? drop ((moduleFactory? root code).getD root) code, ∀ args ∈ n.part? .arguments,
        settled drop 2 args.namedChildren = true) ∧
      ((classExtension? root code).isNone = true → ∀ factory ∈ moduleFactory? root code,
        ∀ body ∈ factory.part? .body, ∀ n ∈ body.visits fun n => !n.closesReturns,
          n.is .returnStmt = true → settled drop 1 n.namedChildren = true) ∧
      (∀ e ∈ classExtension? root code, opensClear drop e.parent = true) ∧
      (∀ body ∈ classBody? root code, documented drop code none none body.namedChildren = true) ∧
      ∀ body ∈ classBody? root code, ∀ entry ∈ body.namedChildren,
        ∀ c ∈ (entry.part? .value).bind constructed?, opensClear drop c = true)
    ⟨fun ⟨hdependencies, hparameters, hextension, hreturned, hparent, hentries, hvalues⟩ =>
        ⟨hdependencies, hparameters, hextension, hreturned, hparent, hentries, hvalues⟩,
      fun h => ⟨h.dependencies, h.parameters, h.extension, h.returned, h.parent, h.entries, h.values⟩⟩

theorem isIn_of_defineCall {root call : Node} (h : defineCall? root code = some call) : call.IsIn root :=
  (IsIn.refl root).preorder (List.mem_of_find?_eq_some h)

theorem isIn_of_argument {root n : Node} {p : Node → Bool}
    (h : (defineCall? root code).bind (argument? p) = some n) : n.IsIn root ∧ p n = true := by
  obtain ⟨call, hcall, hn⟩ := Option.bind_eq_some_iff.1 h
  obtain ⟨args, hargs, hn⟩ := Option.bind_eq_some_iff.1 hn
  exact ⟨((isIn_of_defineCall hcall).part? hargs).named (List.mem_of_find?_eq_some hn), List.find?_some hn⟩

theorem isIn_moduleScope (root : Node) (code : String) : ((moduleFactory? root code).getD root).IsIn root :=
  isIn_getD fun _ hfactory => (isIn_of_argument hfactory).1

theorem isIn_of_classBody {root body : Node} (h : classBody? root code = some body) : body.IsIn root := by
  unfold classBody? at h
  split at h
  next extend hextend => exact isIn_of_extendCall (isIn_moduleScope root code) hextend h
  next =>
    obtain ⟨factory, hfactory, hbody⟩ := Option.bind_eq_some_iff.1 h
    exact isIn_of_returnedObject (isIn_of_argument hfactory).1 hbody

theorem isIn_of_classExtension {root : Node} {e : ExtendCall} (h : classExtension? root code = some e) :
    e.parent.IsIn root := by
  obtain ⟨n, hn, h⟩ := List.exists_of_findSome?_eq_some h
  obtain ⟨-, callee, hcallee, -, -, hparent, -⟩ := ExtendCall.exists_parts h
  exact (((isIn_moduleScope root code).preorder hn).part? hcallee).part? hparent

theorem isFunction_of_comment {n : Node} (h : n.is .comment = true) : n.isFunction = false := by
  rw [Node.is, beq_iff_eq] at h
  rw [isFunction, h]
  rfl

section

variable {root : Node} (h : Removes drop root) (hroot : drop root = false)

include h hroot

theorem definingArgument?_without {p : Node → Bool} (hsame : ∀ n, p (n.without drop) = p n)
    (hcomment : ∀ n, n.is .comment = true → p n = false) :
    (defineCall? (root.without drop) code).bind (argument? p) =
      ((defineCall? root code).bind (argument? p)).map (without drop) := by
  rw [defineCall?_without h hroot]
  exact bind_without fun call hcall => argument?_without hsame hcomment (h.below (isIn_of_defineCall hcall))

theorem moduleFactory?_without :
    moduleFactory? (root.without drop) code = (moduleFactory? root code).map (without drop) :=
  definingArgument?_without h hroot isFunction_without fun _ => isFunction_of_comment

theorem moduleDependencies?_without :
    moduleDependencies? (root.without drop) code = (moduleDependencies? root code).map (without drop) :=
  definingArgument?_without h hroot (fun n => is_without n .array) fun n hn => Node.is_eq_false hn (by decide)

variable (haside : StandsAside drop code root)

include haside

theorem moduleImports_without : moduleImports (root.without drop) code module = moduleImports root code module := by
  have hparameters : moduleParameters (root.without drop) code = moduleParameters root code := by
    rw [moduleParameters, moduleFactory?_without h hroot, moduleParameters]
    cases hfactory : moduleFactory? root code with
    | none => rfl
    | some factory =>
      refine parameterNames_without (h.below (isIn_of_argument hfactory).1) (haside.parameters factory hfactory)
  rw [moduleImports, moduleDependencies?_without h hroot, hparameters, moduleImports]
  cases hdeps : moduleDependencies? root code with
  | none => rfl
  | some deps =>
    exact importsOf_without (h.below (isIn_of_argument hdeps).1) (haside.dependencies deps hdeps) _

theorem classExtension?_without :
    classExtension? (root.without drop) code = (classExtension? root code).map (ExtendCall.without drop) := by
  have hscope : drop ((moduleFactory? root code).getD root) = false := by
    cases hfactory : moduleFactory? root code with
    | none => exact hroot
    | some factory =>
      obtain ⟨hin, hfunction⟩ := isIn_of_argument hfactory
      refine (h.below hin).stays (Bool.eq_false_iff.2 fun hcomment => ?_)
      rw [isFunction_of_comment hcomment] at hfunction
      cases hfunction
  have hgone : (moduleFactory? (root.without drop) code).getD (root.without drop) =
      ((moduleFactory? root code).getD root).without drop := by
    rw [moduleFactory?_without h hroot, Option.getD_map]
  rw [classExtension?, hgone]
  exact extendCall?_without (h.below (isIn_moduleScope root code)) hscope haside.extension

theorem classBody?_without : classBody? (root.without drop) code = (classBody? root code).map (without drop) := by
  rw [classBody?, classExtension?_without h hroot haside, moduleFactory?_without h hroot, classBody?]
  cases hextension : classExtension? root code with
  | some extend => rfl
  | none =>
    refine bind_without fun factory hfactory => returnedObject?_without (h.below (isIn_of_argument hfactory).1) ?_
    exact haside.returned (by rw [hextension]; rfl) factory hfactory

/-- The class of a script is the same without what stands aside. -/
theorem classOfTree_without (hplain : ∀ n, drop n = true → docText? n code = none) :
    classOfTree module code (root.without drop) = classOfTree module code root := by
  have hparent : ∀ aliases, ((classExtension? root code).map (ExtendCall.without drop)).bind
      (fun e => e.parent.classReference? code aliases) =
      (classExtension? root code).bind fun e => e.parent.classReference? code aliases := by
    intro aliases
    cases he : classExtension? root code with
    | none => rfl
    | some e =>
      exact classReference?_without (h.below (isIn_of_classExtension he)) (haside.parent e he) aliases
  have hmembers : ∀ aliases, ((classBody? root code).map (without drop)).map
      (fun body => membersOf body code aliases) =
      (classBody? root code).map fun body => membersOf body code aliases := by
    intro aliases
    cases hbody : classBody? root code with
    | none => rfl
    | some body =>
      have hin := h.below (isIn_of_classBody hbody)
      have hdeclared := declaredMembers_without hplain aliases (fun n hn => hin.named hn)
        (haside.values body hbody) (fun _ => rfl) (haside.entries body hbody) []
      rw [Option.map_some, Option.map_some, Option.map_some, membersOf, namedChildren_without,
        withAssignments_without hin, membersOf, ← hdeclared]
      rfl
  rw [classOfTree_eq, classOfTree_eq, moduleImports_without h hroot haside,
    classExtension?_without h hroot haside, classBody?_without h hroot haside, moduleFactory?_without h hroot]
  have hname : ExtendCall.name ∘ ExtendCall.without drop = ExtendCall.name := rfl
  have hspan : Node.span ∘ without drop = Node.span := funext span_without
  simp only [hparent, hmembers, Option.map_map, hname, hspan]

end

/-- A comment that documents nothing. -/
def isPlainComment (code : String) (n : Node) : Bool :=
  n.is .comment && !startsWith "/**" (n.text code)

theorem docText?_of_isPlainComment {n : Node} (h : isPlainComment code n = true) : docText? n code = none := by
  rw [isPlainComment, Bool.and_eq_true, Bool.not_eq_true'] at h
  rw [docText?, h.2, Bool.and_false]
  rfl

theorem removes_parse (hdrop : ∀ n, drop n = true → n.is .comment = true) : Removes drop (parse code) where
  isComment _ hgoes := hdrop _ hgoes
  role hn hgoes := ((wellPlaced_parse code).bare hn (hdrop _ hgoes)).1
  children hn hgoes := ((wellPlaced_parse code).bare hn (hdrop _ hgoes)).2

theorem without_of_children {root : Node} (h : root.children = []) : root.without drop = root := by
  cases root
  subst h
  rfl

theorem mem_importsOf_iff {deps : Node} {params : List String} {i : Import}
    (hsettled : settled (fun n => n.is .comment) deps.namedChildren.length deps.namedChildren = true) :
    i ∈ importsOf deps code module params ↔ ∃ (k : Nat) (dep : Node),
      (deps.namedChildren.filter fun n => !n.is .comment)[k]? = some dep ∧
      dep.stringContents? code = some (i.path, i.span) ∧
      moduleClassName? i.path (some module) = some i.className ∧ i.alias? = params[k]? := by
  have hplace : ∀ (k : Nat) (dep : Node), (deps.namedChildren.filter fun n => !n.is .comment)[k]? = some dep ↔
      deps.namedChildren[k]? = some dep ∧ dep.is .comment = false := by
    intro k dep
    by_cases hk : k < deps.namedChildren.length
    · have hkept := getElem?_kept hsettled hk
      rw [kept] at hkept
      rw [hkept, Option.filter_eq_some_iff, Bool.not_eq_true']
    · have hle := List.length_filter_le (fun n : Node => !n.is .comment) deps.namedChildren
      rw [List.getElem?_eq_none (by omega), List.getElem?_eq_none (by omega)]
      simp
  rw [importsOf, List.mem_filterMap]
  constructor
  · rintro ⟨⟨dep, k⟩, hmem, hread⟩
    obtain ⟨⟨path, span⟩, hcontents, hread⟩ := Option.bind_eq_some_iff.1 hread
    obtain ⟨className, hclass, ⟨⟩⟩ := Option.bind_eq_some_iff.1 hread
    exact ⟨k, dep, (hplace k dep).2 ⟨List.mem_zipIdx_iff_getElem?.1 hmem, not_comment_of_stringContents hcontents⟩,
      hcontents, hclass, rfl⟩
  · rintro ⟨k, dep, hdep, hcontents, hclass, halias⟩
    refine ⟨(dep, k), List.mem_zipIdx_iff_getElem?.2 ((hplace k dep).1 hdep).1, ?_⟩
    simp only [hcontents, Option.bind_eq_bind, Option.bind_some, hclass, ← halias]

/-- A script keeps its class when plain comments are taken out of it, one, some or all, unless one of
them stands where the class is read by position. And each dependency is paired with the parameter at its
place among the dependencies, unless a comment stands before one. This is so of every tree in which the
comments that are taken out play no role and have no parts, as in the tree of a script. -/
theorem class_without_plain_comments (module code : String) {drop : Node → Bool}
    (hdrop : ∀ n, drop n = true → isPlainComment code n = true) :
    Removes drop (parse code) ∧ ∀ root : Node, Removes drop root → StandsAside drop code root →
      classOfTree module code (root.without drop) = classOfTree module code root ∧
        ∀ deps ∈ moduleDependencies? root code,
          settled (fun n => n.is .comment) deps.namedChildren.length deps.namedChildren = true →
          ∀ i, i ∈ (classOfTree module code root).imports ↔ ∃ (k : Nat) (dep : Node),
            (deps.namedChildren.filter fun n => !n.is .comment)[k]? = some dep ∧
            dep.stringContents? code = some (i.path, i.span) ∧
            moduleClassName? i.path (some module) = some i.className ∧
            i.alias? = (moduleParameters root code)[k]? := by
  refine ⟨removes_parse fun n hgoes => (Bool.and_eq_true_iff.1 (hdrop n hgoes)).1,
    fun root hremoves haside => ⟨?_, fun deps hdeps hsettled i => ?_⟩⟩
  · cases hroot : drop root with
    | true => rw [without_of_children (hremoves.children (.refl root) hroot)]
    | false =>
      exact classOfTree_without hremoves hroot haside fun n hgoes => docText?_of_isPlainComment (hdrop n hgoes)
  · have himports : (classOfTree module code root).imports =
        importsOf deps code module (moduleParameters root code) := by
      rw [classOfTree_eq]
      simp only [moduleImports, Option.mem_def.1 hdeps]
      rfl
    rw [himports]
    exact mem_importsOf_iff hsettled

def sampleCommented : String :=
  "sap.ui.define(['a/B'/*1*/],function(B)\x7breturn B.extend('C'," ++
    "\x7b/** @type \x7ba.D\x7d */n:0,/*2*/m:1\x7d/*3*/)\x7d)"

theorem class_without_plain_comments_sample :
    (StandsAside (isPlainComment sampleCommented) sampleCommented (parse sampleCommented) ∧
      ((parse sampleCommented).preorder.filter (isPlainComment sampleCommented)).length = 3) ∧
    classOfTree "C" sampleCommented ((parse sampleCommented).without (isPlainComment sampleCommented)) =
      classOfTree "C" sampleCommented (parse sampleCommented) := by
  have hsample : StandsAside (isPlainComment sampleCommented) sampleCommented (parse sampleCommented) ∧
      ((parse sampleCommented).preorder.filter (isPlainComment sampleCommented)).length = 3 := by
    decide +kernel
  obtain ⟨hremoves, hkeeps⟩ := class_without_plain_comments "C" sampleCommented fun _ hn => hn
  exact ⟨hsample, (hkeeps _ hremoves hsample.1).1⟩

-- A comment before a dependency takes the place of a parameter.
example : (classOfTree "C" "sap.ui.define([/**/'a/B'],function(B)\x7b\x7d)"
    (parse "sap.ui.define([/**/'a/B'],function(B)\x7b\x7d)")).imports.map Import.alias? = [none] := by
  decide +kernel

end UiWorkspace.Script
