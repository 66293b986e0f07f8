import UiWorkspace.Proofs.Script.Parser.Basic

/-! Reading expressions keeps names in order, as long as what nests in them does. -/
namespace UiWorkspace.Script.Parse

open UiWorkspace.Text

variable {code : String} {deeper : Deeper} (hdeeper : ∀ goal, ReadsNode code (deeper goal)) (bound : Nat)
  {P : Reading → Prop}

theorem Moves.listed {item : Parse (List Node)} (hitem : ReadsParts code item) (opening closing : String) :
    ReadsParts code (listed bound opening closing item) := by
  refine (reads_expect opening).bind fun first => ?_
  refine (Moves.repeatWhile looks_of_state ?_ bound).step fun items => ?_
  · exact .look (looks_isAt ",") fun _ => (reads_expect ",").either hitem
  · exact (reads_expect closing).step fun last => .ret (by simp)

section

include hdeeper

theorem reads_expressions (inAllowed : Bool) : ReadsNode code (expressions deeper bound inAllowed) := by
  refine (hdeeper _).bind_returning fun first hfirst => .look (looks_isAt ",") fun _ =>
    .either ?_ (.ret (by simp [hfirst]))
  refine (Moves.repeatWhile (looks_isAt ",") ?_ bound).step fun rest => .ret (by simp)
  exact (reads_expect ",").bind fun comma => (hdeeper _).part.step fun n => .ret (by simp)

theorem reads_element : ReadsParts code (element deeper) := by
  refine .look (looks_isAt "...") fun _ => .either (.part ?_) (hdeeper _).part
  exact (reads_expect "...").bind fun dots => (hdeeper _).part.step fun n => .ret (by simp)

theorem reads_arguments : ReadsNode code (arguments deeper bound) :=
  (Moves.listed bound (reads_element hdeeper) "(" ")").bind fun _ => .ret (by simp)

theorem reads_parameters : ReadsNode code (parameters deeper bound) :=
  (Moves.listed bound (reads_element hdeeper) "(" ")").bind fun _ => .ret (by simp)

theorem reads_block (bare : Bool) : ReadsNode code (block deeper bound bare) := by
  refine (reads_expect "\x7b").bind fun opening => ?_
  refine (Moves.repeatWhile looks_of_state (hdeeper .statement).part bound).step fun body => ?_
  refine (reads_expect "\x7d").step fun closing => ?_
  exact (reads_blockEnd bare).step fun last => .ret (by simp)

theorem reads_signature (bare : Bool) : ReadsParts code (signature deeper bound bare) :=
  ((reads_parameters hdeeper bound).partAs _).bind fun _ =>
    ((reads_block hdeeper bound bare).partAs _).step fun _ => .ret (by simp)

theorem reads_function (before : List Node) {plain generator : Kind}
    (hplain : plain.unmarked) (hgenerator : generator.unmarked) :
    ReadsOnto code before (function deeper bound before plain generator) := by
  simp only [function, joined]
  refine (reads_expect "function").step fun word => (reads_option "*").step fun star => ?_
  refine .look looks_isAtName fun _ => ?_
  refine (reads_identifier.partAs .name).optional.step fun name => ?_
  refine (reads_signature hdeeper bound false).step fun rest => .ret ?_
  split <;> simp [-Kind.unmarked, hplain, hgenerator, Kind.ne_comment hplain, Kind.ne_comment hgenerator]

theorem reads_computedName : ReadsNode code (computedName deeper) :=
  (reads_expect "[").bind fun _ => (hdeeper _).part.step fun _ =>
    (reads_expect "]").step fun _ => .ret (by simp)

theorem reads_propertyName : ReadsNode code (propertyName deeper) := by
  refine .look looks_token fun t => ?_
  split
  · exact reads_shift (by decide)
  · exact reads_shift (by decide)
  · exact reads_shift (by decide)
  · exact reads_shift (by decide)
  · exact reads_computedName hdeeper

end

theorem reads_modifiers (words : List String) : ReadsParts code (modifiers bound words) :=
  (Moves.repeatWhile looks_of_state reads_token.part bound).bind fun _ =>
    (reads_option "*").step fun _ => .ret (by simp)

include hdeeper

theorem reads_method (before key : List Node) :
    ReadsOnto code (before ++ key) (method deeper bound before key) := by
  exact (reads_signature hdeeper bound true).step fun rest => .ret (by simp)

theorem reads_property : ReadsNode code (property deeper bound) := by
  have hvalue := hdeeper (.assignment true)
  refine .look (looks_isAt "...") fun _ => .either ?_ ?_
  · exact (reads_expect "...").bind fun dots => hvalue.part.step fun n => .ret (by simp)
  · refine (reads_modifiers bound _).bind fun before => .look looks_token fun t => ?_
    refine (reads_propertyName hdeeper).part.step fun key => ?_
    refine .look (looks_isAt "(") fun _ => .either (reads_method hdeeper bound before key) ?_
    refine .look (looks_isAt ":") fun _ => .either ?_ ?_
    · refine (reads_expect ":").step fun colon => (hvalue.partAs _).step fun value => .ret ?_
      simp
    · refine .look (looks_isAt "=") fun _ => .either ?_ (.ret (by simp))
      refine (reads_expect "=").step fun sign => (hvalue.partAs _).step fun value => .ret ?_
      simp

theorem reads_object : ReadsNode code (object deeper bound) :=
  (Moves.listed bound (reads_property hdeeper bound).part _ _).bind fun _ => .ret (by simp)

theorem reads_array : ReadsNode code (array deeper bound) :=
  (Moves.listed bound (reads_element hdeeper) _ _).bind fun _ => .ret (by simp)

theorem reads_classMember : ReadsParts code (classMember deeper bound) := by
  simp only [classMember, joined, ← bind_assoc]
  have hvalue := hdeeper (.assignment true)
  refine .look (looks_isAt ";") fun _ => .either (reads_expect ";") ?_
  refine .look looks_secondOnLine fun after => .look (looks_isAt "static") fun _ => .either (.part ?_) ?_
  · refine (reads_expect "static").bind fun word => ?_
    exact ((reads_block hdeeper bound true).partAs _).step fun body => .ret (by simp)
  · refine reads_comments.bind fun head => (reads_modifiers bound _).step fun before => ?_
    refine (reads_propertyName hdeeper).part.step fun key => .look (looks_isAt "(") fun _ => .either ?_ ?_
    · refine (((reads_method hdeeper bound before key).frame head).given (by simp)).bind fun n => ?_
      exact .ret (by simp)
    · refine Moves.step (.look (looks_isAt "=") fun _ => .optional ?_) fun value => .ret (by simp)
      exact (reads_expect "=").bind fun sign => (hvalue.partAs _).step fun n => .ret (by simp)

theorem reads_classBody : ReadsNode code (classBody deeper bound) := by
  refine (reads_expect "\x7b").bind fun opening => ?_
  refine (Moves.repeatWhile looks_of_state (reads_classMember hdeeper bound) bound).step fun members => ?_
  exact (reads_expect "\x7d").step fun closing => .ret (by simp)

theorem reads_classAs {kind : Kind} (hkind : kind.unmarked) :
    ReadsNode code (classAs deeper bound kind) := by
  simp only [classAs, joined, ← bind_assoc]
  refine (reads_expect "class").bind fun word => ?_
  refine Moves.step (.look looks_isAtName fun _ => .look (looks_isAt "extends") fun _ =>
    (reads_identifier.partAs .name).optional) fun name => ?_
  refine Moves.step (.look (looks_isAt "extends") fun _ => .optional (.part ?_)) fun heritage => ?_
  · exact (reads_expect "extends").bind fun word => (hdeeper _).part.step fun n => .ret (by simp)
  · refine ((reads_classBody hdeeper bound).partAs _).step fun body => ?_
    refine (reads_blockEnd false).optional.step fun last => .ret ?_
    simp [-Kind.unmarked, hkind, Kind.ne_comment hkind]

theorem reads_parenthesized : ReadsNode code (parenthesized deeper bound) := by
  refine (reads_expect "(").bind fun opening => .look (looks_isAt ")") fun _ => .either ?_ ?_
  · exact (reads_expect ")").step fun closing => .ret (by simp)
  · refine reads_comments.step fun before => (reads_element hdeeper).step fun first => ?_
    refine (Moves.repeatWhile (looks_isAt ",") ?_ bound).step fun rest => ?_
    · refine (reads_expect ",").bind fun comma => .look (looks_isAt ")") fun _ => .either (.ret (by simp)) ?_
      exact (reads_element hdeeper).step fun n => .ret (by simp)
    · refine (reads_expect ")").step fun closing => .ret ?_
      cases rest <;> simp

omit hdeeper in
theorem moves_shiftChars (n : Nat) (hP : ∀ s, P s → s.here.IsIn code) :
    Moves code P (·.IsPaused code) [] (shiftChars n) (fun n => [n]) fun _ => True := by
  rintro lo s _ _ hs hread ⟨⟩
  refine ⟨⟨(hP s hs).advance n, rfl, rfl⟩, ?_, trivial⟩
  simpa using hread.append (.nil (s.here.le_advance n))

omit hdeeper in
theorem moves_templateText :
    Moves code (·.IsPaused code) (·.here.IsIn code) [] templateText (fun _ => []) fun _ => True := by
  rintro lo s _ _ hs hread ⟨⟩
  rw [hs.last]
  exact ⟨hs.here.advance _, .nil (Nat.le_trans hread.le (s.here.le_advance _)), trivial⟩

omit hdeeper in
theorem moves_resume : Moves code (·.IsPaused code) (·.IsIn code) [] resume (fun _ => []) fun _ => True := by
  rintro lo s _ _ hs hread ⟨⟩
  rw [hs.next]
  obtain ⟨hfrom, hle⟩ := Reading.isIn_from hs.here
  exact ⟨hfrom, .nil (Nat.le_trans hread.le hle), trivial⟩

/-- Inside a template no token has been read, up to the expressions in it. -/
theorem moves_templateParts (rounds : Nat) :
    Moves code (·.IsPaused code) (·.IsIn code) [] (templateParts deeper bound rounds) (fun ns => ns)
      fun _ => True := by
  induction rounds with
  | zero => exact .failed
  | succ rounds ih =>
    refine moves_templateText.bind fun more => .either ?_ ?_
    · refine (moves_shiftChars 2 fun _ h => h).step fun opening => moves_resume.step fun _ => ?_
      refine (reads_expressions hdeeper bound true).part.step fun inner => ?_
      refine reads_comments.step fun last => .look (looks_isAt "\x7d") fun _ => .either ?_ .failed
      refine (moves_shiftChars 1 fun _ h => h.here).step fun closing => ?_
      exact ih.step fun rest => .ret (by simp)
    · refine (moves_shiftChars 1 fun _ h => h).step fun closing => moves_resume.step fun _ => ?_
      exact .ret (by simp)

theorem reads_template : ReadsNode code (template deeper bound) :=
  (moves_shiftChars 1 fun _ h => h.here).bind fun _ =>
    (moves_templateParts hdeeper bound bound).step fun _ => .ret (by simp)

omit hdeeper in
theorem reads_regex : ReadsNode code regex := by
  rintro lo s _ _ hs hread ⟨⟩
  obtain ⟨hfrom, hle⟩ := Reading.isIn_from (hs.here.advance _)
  refine ⟨hfrom, ?_, by simp⟩
  simpa using hread.append (.nil (Nat.le_trans (s.here.le_advance _) hle))

omit hdeeper in
theorem reads_importRef : ReadsNode code importRef := by
  refine .look looks_second fun after => .either ?_ (reads_nameAs (by decide))
  refine (reads_expect "import").bind fun word => (reads_expect ".").step fun dot => ?_
  exact reads_token.part.step fun target => .ret (by simp)

omit hdeeper in
theorem nameKind_ne_comment (text : String) : nameKind text ≠ .comment := by
  unfold nameKind
  split <;> decide

theorem reads_primary : ReadsNode code (primary deeper bound) := by
  refine .look looks_token fun t => ?_
  split
  · exact reads_shift (by decide)
  · exact reads_shift (by decide)
  · exact reads_shift (by decide)
  · exact .failed
  · split
    · exact reads_function hdeeper bound [] rfl rfl
    · exact reads_classAs hdeeper bound rfl
    · exact hdeeper .construct
    · exact reads_importRef
    · refine .look looks_secondOnLine fun after => .either ?_ reads_identifier
      exact (reads_expect "async").bind fun word => reads_function hdeeper bound word rfl rfl
    · exact reads_nameAs (nameKind_ne_comment _)
  · split
    · exact reads_parenthesized hdeeper bound
    · exact reads_array hdeeper bound
    · exact reads_object hdeeper bound
    · exact reads_template hdeeper bound
    · exact reads_regex
    · exact reads_regex
    · exact .failed

omit hdeeper in
theorem returns_part_shift (label : Label) :
    Returns (part (shift label)) fun ns => Node.property? ns = none := by
  rintro s _ _ ⟨⟩
  rw [Node.property?_append, Node.property?_comments]
  rfl

omit hdeeper in
theorem returns_expect (symbol : String) :
    Returns (expect symbol) fun ns => Node.property? ns = none := by
  intro s ns s' h
  obtain ⟨found, t, -, h⟩ := bind_eq_some h
  split at h
  · exact returns_part_shift .token t ns s' h
  · cases h

omit hdeeper in
theorem Returns.partAs_property {p : Parse Node} (hp : Returns p fun n => n.isAccessName) :
    Returns (partAs .property p) fun ns => (Node.property? ns).all Node.isAccessName := by
  intro s ns s' h
  obtain ⟨before, t, ⟨⟩, h⟩ := bind_eq_some h
  obtain ⟨named, u, hnamed, ⟨⟩⟩ := bind_eq_some h
  obtain ⟨n, v, hn, ⟨⟩⟩ := bind_eq_some hnamed
  have hname := hp _ n _ hn
  rw [Node.property?_append, Node.property?_comments]
  obtain ⟨label, role, span, children⟩ := n
  exact hname

omit hdeeper in
theorem returns_accessed : Returns accessed fun ns => (Node.property? ns).all Node.isAccessName := by
  intro s ns s' h
  obtain ⟨t, u, -, h⟩ := bind_eq_some h
  split at h
  · refine Returns.partAs_property ?_ u ns s' h
    rintro s _ _ ⟨⟩
    rfl
  · refine Returns.partAs_property ?_ u ns s' h
    intro s n s' h
    obtain ⟨found, v, -, h⟩ := bind_eq_some h
    split at h
    · cases h
      rfl
    · cases h

omit hdeeper in
/-- What is accessed is a name, so that the access leaves no mark of its own. -/
theorem reads_accessed :
    Reads code [] accessed (fun ns => ns) fun ns => (Node.property? ns).all Node.isAccessName := by
  refine Moves.returning (V := fun _ => True) ?_ returns_accessed
  exact .look looks_token fun _ =>
    ((reads_shift (by decide)).partAs _).either ((reads_nameAs (by decide)).partAs _)

theorem reads_accesses (calls : Bool) (rounds : Nat) {left : Node} (hleft : left.is .comment = false) :
    ReadsOnto code [left] (accesses deeper bound calls rounds left) := by
  induction rounds generalizing left with
  | zero => exact .failed
  | succ rounds ih =>
    refine .look looks_token fun t => .either (.ret (by simp [hleft])) ?_
    split
    · refine ((reads_expect ".").returning (returns_expect ".")).step_returning fun dot hdot => ?_
      refine reads_accessed.step_returning fun property hproperty => ?_
      exact (ih (by simp)).given (by simp [Node.marks_access hleft hdot hproperty])
    · refine .either (.ret (by simp [hleft])) ?_
      refine ((reads_shift (by decide)).part.returning (returns_part_shift _)).step_returning fun mark hmark => ?_
      refine .look (looks_isAt "(") fun _ => .either ?_ (.look (looks_isAt "[") fun _ => .either ?_ ?_)
      · refine ((reads_arguments hdeeper bound).partAs _).step fun args => ?_
        exact (ih (by simp)).given (by simp [hleft])
      · refine (reads_expect "[").step fun opening => ?_
        refine (reads_expressions hdeeper bound true).part.step fun index => ?_
        exact (reads_expect "]").step fun closing => (ih (by simp)).given (by simp [hleft])
      · refine reads_accessed.step_returning fun property hproperty => ?_
        exact (ih (by simp)).given (by simp [Node.marks_access hleft hmark hproperty])
    · refine (reads_expect "[").step fun opening => ?_
      refine (reads_expressions hdeeper bound true).part.step fun index => ?_
      exact (reads_expect "]").step fun closing => (ih (by simp)).given (by simp [hleft])
    · refine .either (.ret (by simp [hleft])) ?_
      refine ((reads_arguments hdeeper bound).partAs _).step fun args => ?_
      exact (ih (by simp)).given (by simp [hleft])
    · refine ((reads_template hdeeper bound).partAs _).step fun args => ?_
      exact (ih (by simp)).given (by simp [hleft])
    · exact .ret (by simp [hleft])

theorem reads_construct : ReadsNode code (construct deeper bound) := by
  simp only [construct, joined, ← bind_assoc]
  refine (reads_expect "new").bind fun word => .look (looks_isAt ".") fun _ => .either ?_ ?_
  · exact (reads_expect ".").step fun dot => reads_token.part.step fun target => .ret (by simp)
  · refine Moves.step (.partAs ((hdeeper _).bind_returning fun head hhead => ?_) _) fun constructor => ?_
    · exact reads_accesses hdeeper bound false bound hhead
    · refine Moves.step (.look (looks_isAt "(") fun _ => .optional ?_) fun args => .ret (by simp)
      exact (reads_arguments hdeeper bound).partAs _

theorem reads_operand : ReadsNode code (operand deeper bound) := by
  refine .look looks_token fun t => .either ?_ (.either ?_ ?_)
  · exact reads_token.part.bind fun sign => (hdeeper _).part.step fun n => .ret (by simp)
  · exact reads_token.part.bind fun sign => (hdeeper _).part.step fun n => .ret (by simp)
  · refine .look looks_secondOnLine fun after => .either ?_ ?_
    · refine (reads_expect "await").bind fun word => ?_
      exact (hdeeper _).part.step fun n => .ret (by simp)
    · refine (hdeeper _).bind_returning fun head hhead => ?_
      refine (reads_accesses hdeeper bound true bound hhead).bind_returning fun n hn => ?_
      refine .look looks_token fun u => .look looks_lineBreakBefore fun _ => .either ?_ (.ret (by simp [hn]))
      exact reads_token.part.step fun sign => .ret (by simp)

theorem reads_operators (inAllowed : Bool) (rounds least : Nat) {left : Node}
    (hleft : left.is .comment = false) :
    ReadsOnto code [left] (operators deeper inAllowed rounds least left) := by
  induction rounds generalizing least left with
  | zero => exact .failed
  | succ rounds ih =>
    refine .look looks_token fun t => ?_
    split
    · exact .ret (by simp [hleft])
    · refine .either (.ret (by simp [hleft])) ?_
      refine reads_token.part.step fun sign => ?_
      refine Moves.step (.part ((hdeeper _).bind_returning fun n hn => ih _ hn)) fun right => ?_
      exact (ih _ (by simp)).given (by simp)

omit hdeeper in
theorem marks_asParameters (n : Node) : (asParameters n).marks.Sublist n.marks := by
  obtain ⟨label, role, span, children⟩ := n
  rw [asParameters, Node.marks_construct rfl, Node.flatMap_marks_toPatterns]
  refine List.Sublist.trans ?_ (Node.children_sublist_marks _)
  rw [Node.children, List.flatMap_assoc]
  induction children with
  | nil => exact .slnil
  | cons c cs ih =>
    rw [List.flatMap_cons, List.flatMap_cons]
    refine List.Sublist.append ?_ ih
    split
    · exact c.children_sublist_marks
    · simp

omit hdeeper in
@[simp] theorem is_comment_asParameters (n : Node) : (asParameters n).is .comment = false := by
  cases n
  rfl

theorem reads_arrowBody (inAllowed : Bool) : ReadsParts code (arrowBody deeper bound inAllowed) := by
  simp only [arrowBody, joined, ← bind_assoc]
  refine (reads_expect "=>").bind fun arrow => ?_
  refine Moves.step (.look (looks_isAt "\x7b") fun _ => .either ?_ ((hdeeper _).partAs _)) fun body => ?_
  · exact (reads_block hdeeper bound false).partAs _
  · exact .ret (by simp)

omit hdeeper in
theorem Moves.attempt {attempt : Parse Node} (h : ReadsNode code attempt) :
    Reads code [] (fun s =>
      match attempt s with
      | some (n, t) => some (some n, t)
      | .none => some (.none, s)) Option.toList fun found? => ∀ n ∈ found?, n.is .comment = false := by
  intro lo s found? s' hs hread hrun
  dsimp only at hrun
  split at hrun
  next n t hattempt =>
    cases hrun
    obtain ⟨hs', hn, hsolid⟩ := h lo s n _ hs hread hattempt
    exact ⟨hs', hn, by simpa using hsolid⟩
  next =>
    cases hrun
    exact ⟨hs, hread, nofun⟩

theorem reads_asyncArrow (inAllowed : Bool) : Reads code [] (asyncArrow? deeper bound inAllowed)
    Option.toList fun found? => ∀ n ∈ found?, n.is .comment = false := by
  refine .attempt (.look looks_secondOnLine fun after => .look (looks_isAt "async") fun _ =>
      .either .failed (.either ?_ (.either ?_ .failed)))
  · refine (reads_expect "async").bind fun word => (reads_identifier.partAs _).step fun param => ?_
    exact (reads_arrowBody hdeeper bound inAllowed).step fun body => .ret (by simp)
  · refine (reads_expect "async").bind fun word => ?_
    refine Moves.step (.part ((reads_parenthesized hdeeper bound).bind fun n => .ret ?_)) fun params => ?_
    · simpa using marks_asParameters n
    · exact (reads_arrowBody hdeeper bound inAllowed).step fun body => .ret (by simp)

theorem reads_yieldExpr (inAllowed : Bool) : ReadsNode code (yieldExpr deeper inAllowed) := by
  simp only [yieldExpr, joined, ← bind_assoc]
  refine (reads_expect "yield").bind fun word => (reads_option "*").step fun star => ?_
  exact Moves.step (.look looks_token fun t => .look looks_lineBreakBefore fun _ =>
    (hdeeper _).part.otherwise) fun n => .ret (by simp)

theorem reads_assignment (inAllowed : Bool) : ReadsNode code (assignment deeper bound inAllowed) := by
  have hvalue := hdeeper (.assignment inAllowed)
  refine .look (looks_isAt "yield") fun _ => ?_
  extract_lets rest
  have hrest : ReadsNode code (rest ()) := by
    refine (reads_asyncArrow hdeeper bound inAllowed).bind_returning fun arrow? harrow? => ?_
    split
    · exact .ret (by simpa using harrow?)
    · refine (hdeeper _).bind_returning fun head hhead => .look (looks_isAt "=>") fun _ =>
        .either (.either ?_ ?_) ?_
      · refine (reads_arrowBody hdeeper bound inAllowed).step fun body => .ret ?_
        simpa using marks_asParameters head
      · exact (reads_arrowBody hdeeper bound inAllowed).step fun body => .ret (by simp [hhead])
      · refine (reads_operators hdeeper inAllowed bound 0 hhead).bind_returning fun left hleft => ?_
        have hunchanged : ReadsOnto code [left] (pure left) := .ret (by simp [hleft])
        refine .look looks_token fun t => .either hunchanged (.either ?_ (.either ?_ (.either ?_ hunchanged)))
        · refine (reads_expect "?").step fun mark => ((hdeeper _).partAs _).step fun consequence => ?_
          refine (reads_expect ":").step fun colon => ?_
          exact (hvalue.partAs _).step fun alternative => .ret (by simp [hleft])
        · exact (reads_expect "=").step fun sign => (hvalue.partAs _).step fun right =>
            .ret (by simp [hleft])
        · exact reads_token.part.step fun sign => (hvalue.partAs _).step fun right => .ret (by simp [hleft])
  exact .either (.look looks_second fun _ => .either (reads_yieldExpr hdeeper inAllowed) hrest) hrest

end UiWorkspace.Script.Parse
