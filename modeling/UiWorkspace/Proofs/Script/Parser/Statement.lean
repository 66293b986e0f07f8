import UiWorkspace.Proofs.Script.Parser.Expression

/-! Reading statements keeps names in order, and so does reading a whole script: in the tree of
any text the nodes that spell a name select disjoint parts of the text, in source order. -/
namespace UiWorkspace.Script

open UiWorkspace.Text

namespace Parse

variable {code : String} {deeper : Deeper} (hdeeper : ∀ goal, ReadsNode code (deeper goal)) (bound : Nat)

section

include hdeeper

theorem reads_condition : ReadsNode code (condition deeper bound) :=
  (reads_expect "(").bind fun _ => (reads_expressions hdeeper bound true).part.step fun _ =>
    (reads_expect ")").step fun _ => .ret (by simp)

theorem reads_target : ReadsNode code (target deeper) :=
  .look looks_isAtName fun _ =>
    reads_identifier.either ((hdeeper _).bind_returning fun _ hn => .ret (by simp [hn]))

theorem reads_declarator (inAllowed : Bool) :
    Reads code [] (declarator deeper inAllowed) (fun r => [r.1]) fun _ => True := by
  refine (reads_target hdeeper).bind_returning fun name hname => .look (looks_isAt "=") fun _ =>
    .either ?_ (.ret (by simp [hname]))
  refine (reads_expect "=").step fun sign => ?_
  exact ((hdeeper _).partAs _).step fun value => .ret (by simp [hname])

theorem reads_moreDeclarators (inAllowed : Bool) (rounds : Nat) (valued : Bool) :
    Reads code [] (moreDeclarators deeper inAllowed rounds valued) Prod.fst fun _ => True := by
  induction rounds generalizing valued with
  | zero => exact .failed
  | succ rounds ih =>
    refine .look (looks_isAt ",") fun _ => .either ?_ (.ret (by simp))
    refine (reads_expect ",").bind fun comma => reads_comments.step fun before => ?_
    refine (reads_declarator hdeeper inAllowed).step fun first => ?_
    exact (ih first.2).step fun rest => .ret (by simp)

theorem reads_declaration {kind : Kind} (hkind : kind.unmarked) (word : List Node) :
    ReadsOnto code word (declaration deeper bound kind word) := by
  refine reads_comments.step fun before => (reads_declarator hdeeper true).step fun first => ?_
  refine (reads_moreDeclarators hdeeper true bound first.2).step fun rest => ?_
  refine (reads_semicolon _).step fun last => .ret ?_
  simp [-Kind.unmarked, hkind, Kind.ne_comment hkind]

theorem reads_forIn (before : List Node) : ReadsOnto code before (forIn deeper bound before) := by
  refine reads_token.part.step fun word => ?_
  refine ((reads_expressions hdeeper bound true).partAs _).step fun right => ?_
  exact (reads_expect ")").step fun closing => ((hdeeper _).partAs _).step fun body => .ret (by simp)

theorem reads_forRest (before : List Node) : ReadsOnto code before (forRest deeper bound before) := by
  have hexpressions := reads_expressions hdeeper bound true
  simp only [forRest, joined, ← bind_assoc]
  refine Moves.step (.look (looks_isAt ";") fun _ => .either
    (.part ((reads_expect ";").bind fun _ => .ret ?_)) ?_) fun test => ?_
  · simp
  · refine (hexpressions.partAs _).bind fun n => (reads_expect ";").step fun _ => .ret (by simp)
  · refine Moves.step (.look (looks_isAt ")") fun _ => hexpressions.part.otherwise) fun step => ?_
    refine (reads_expect ")").step fun closing => ?_
    exact ((hdeeper _).partAs _).step fun body => .ret (by simp)

theorem reads_forStatement : ReadsNode code (forStatement deeper bound) := by
  refine (reads_expect "for").bind fun word => (reads_option "await").step fun wait => ?_
  refine (reads_expect "(").step fun opening => ?_
  refine .look (looks_isAt ";") fun _ => .either ?_ ?_
  · refine Moves.step (.part ((reads_expect ";").bind fun _ => .ret ?_)) fun none_ => ?_
    · simp
    · exact reads_forRest hdeeper bound _
  · refine .look (looks_isAt "var") fun _ => .look (looks_isAt "const") fun _ =>
      .look looks_of_state fun _ => .either ?_ ?_
    · refine reads_comments.step fun before => .look (looks_isAt "var") fun isVar => ?_
      refine reads_token.part.step fun keyword => reads_comments.step fun gap => ?_
      refine (reads_declarator hdeeper false).step fun first => .look looks_of_state fun _ => .either ?_ ?_
      · refine (reads_forIn hdeeper bound _).given ?_
        simpa using first.1.children_sublist_marks
      · refine (reads_moreDeclarators hdeeper false bound first.2).step fun rest => ?_
        refine (reads_expect ";").step fun last => (reads_forRest hdeeper bound _).given ?_
        cases isVar <;> simp
    · refine reads_comments.step fun before => ?_
      refine (reads_expressions hdeeper bound false).step_returning fun first hfirst => ?_
      refine .look looks_of_state fun _ => .either ?_ ?_
      · exact (reads_forIn hdeeper bound _).given (by simp [hfirst])
      · exact (reads_expect ";").step fun last => reads_forRest hdeeper bound _

theorem reads_switchCase : ReadsNode code (switchCase deeper bound) := by
  simp only [switchCase, joined]
  refine .look (looks_isAt "default") fun isDefault => reads_token.part.bind fun word => ?_
  refine ((reads_expressions hdeeper bound true).partAs _).otherwise.step fun value => ?_
  refine (reads_expect ":").step fun colon => ?_
  refine (Moves.repeatWhile looks_of_state (hdeeper .statement).part bound).step fun body => .ret ?_
  cases isDefault <;> simp

theorem reads_switchStatement : ReadsNode code (switchStatement deeper bound) := by
  refine (reads_expect "switch").bind fun word => ?_
  refine ((reads_condition hdeeper bound).partAs _).step fun value => ?_
  refine Moves.step (.partAs ?_ _) fun body => .ret (by simp)
  refine (reads_expect "\x7b").bind fun opening => ?_
  refine (Moves.repeatWhile looks_of_state (reads_switchCase hdeeper bound).part bound).step fun cases => ?_
  exact (reads_expect "\x7d").step fun closing => .ret (by simp)

theorem reads_ifStatement : ReadsNode code (ifStatement deeper bound) := by
  simp only [ifStatement, joined, ← bind_assoc]
  refine (reads_expect "if").bind fun word => ?_
  refine ((reads_condition hdeeper bound).partAs _).step fun test => ?_
  refine ((hdeeper _).partAs _).step fun yes => ?_
  refine Moves.step (.look (looks_isAt "else") fun _ => .optional (.partAs ?_ _)) fun no => .ret (by simp)
  exact (reads_expect "else").bind fun word => (hdeeper _).part.step fun n => .ret (by simp)

theorem reads_tryStatement : ReadsNode code (tryStatement deeper bound) := by
  have hblock := reads_block hdeeper bound true
  simp only [tryStatement, joined, ← bind_assoc]
  refine (reads_expect "try").bind fun word => (hblock.partAs _).step fun body => ?_
  refine Moves.step (.look (looks_isAt "catch") fun _ => .optional (.part ?_)) fun handler => ?_
  · refine (reads_expect "catch").bind fun word => ?_
    refine Moves.step (.look (looks_isAt "(") fun _ => .optional ?_) fun param => ?_
    · refine (reads_expect "(").bind fun opening => ((reads_target hdeeper).partAs _).step fun n => ?_
      exact (reads_expect ")").step fun closing => .ret (by simp)
    · exact (hblock.partAs _).step fun body => .ret (by simp)
  · refine Moves.step (.look (looks_isAt "finally") fun _ => .optional (.part ?_)) fun last => .ret (by simp)
    exact (reads_expect "finally").bind fun word => (hblock.partAs _).step fun body => .ret (by simp)

theorem reads_returnStatement : ReadsNode code (returnStatement deeper bound) := by
  refine (reads_expect "return").bind fun word => .look looks_get fun s => .either ?_ ?_
  · exact (reads_semicolon true).step fun last => .ret (by simp)
  · refine (reads_expressions hdeeper bound true).part.step fun n => ?_
    exact (reads_semicolon false).step fun last => .ret (by simp)

end

theorem reads_jump {kind : Kind} (hkind : kind.unmarked) : ReadsNode code (jump kind) := by
  simp only [jump, joined]
  refine reads_token.part.bind fun word => .look looks_get fun s => ?_
  refine (reads_nameAs (by decide)).part.optional.step fun label => ?_
  refine (reads_semicolon true).step fun last => .ret ?_
  simp [-Kind.unmarked, hkind, Kind.ne_comment hkind]

theorem reads_clause {list item : Kind} (hlist : list.unmarked) (hitem : item.unmarked) :
    ReadsNode code (clause bound list item) := by
  have hname : ReadsNode code (do
      if (← token).kind == .string then shift (.construct .string) else identifier) :=
    .look looks_token fun _ => (reads_shift (by decide)).either reads_identifier
  simp only [clause, joined, ← bind_assoc]
  refine (Moves.listed bound (.part ?_) _ _).bind fun items => .ret ?_
  · refine (hname.partAs _).bind fun name => ?_
    refine Moves.step (.look (looks_isAt "as") fun _ => .optional ?_) fun alias_ => .ret ?_
    · exact (reads_expect "as").bind fun word => hname.part.step fun n => .ret (by simp)
    · simp [-Kind.unmarked, hitem, Kind.ne_comment hitem]
  · simp [-Kind.unmarked, hlist, Kind.ne_comment hlist]

theorem marks_getLast (ns : List Node) : (ns.getLast?.getD default).marks.Sublist (ns.flatMap Node.marks) := by
  rcases ns.eq_nil_or_concat with rfl | ⟨front, n, rfl⟩
  · simp [default]
  · simp

theorem returns_part_getLast :
    Returns (part (shift .token)) fun ns => (ns.getLast?.getD default).is .comment = false := by
  rintro s _ _ ⟨⟩
  rw [List.getLast?_concat]
  rfl

theorem reads_fromModule : ReadsParts code fromModule :=
  (reads_expect "from").bind fun _ => (reads_shift (by decide)).part.step fun _ => .ret (by simp)

include hdeeper

theorem reads_importAttribute : ReadsParts code (importAttribute deeper bound) := by
  refine .look (looks_isAt "with") fun _ => .optional (.part ?_)
  exact (reads_expect "with").bind fun word => (reads_object hdeeper bound).part.step fun n => .ret (by simp)

theorem reads_importStatement : ReadsNode code (importStatement deeper bound) := by
  simp only [importStatement, joined, ← bind_assoc]
  refine (reads_expect "import").bind fun word => ?_
  refine Moves.step (.look looks_token fun t => .either (reads_shift (by decide)).part ?_) fun names => ?_
  · refine Moves.bind (.part ?_) fun clauses => reads_fromModule.step fun source => .ret (by simp)
    refine (Moves.repeatWhile looks_of_state ?_ bound).bind fun parts => .ret (by simp)
    refine .look (looks_isAt ",") fun _ => .either (reads_expect ",") ?_
    refine .look (looks_isAt "*") fun _ => .either (.part ?_) ?_
    · refine (reads_expect "*").bind fun star => (reads_expect "as").step fun word => ?_
      exact reads_identifier.part.step fun n => .ret (by simp)
    · exact .look (looks_isAt "\x7b") fun _ => (reads_clause bound rfl rfl).part.either reads_identifier.part
  · refine (reads_importAttribute hdeeper bound).step fun attribute_ => ?_
    exact (reads_semicolon true).step fun last => .ret (by simp)

theorem reads_exportStatement : ReadsNode code (exportStatement deeper bound) := by
  simp only [exportStatement, joined, ← bind_assoc]
  refine (reads_expect "export").bind fun word => .look (looks_isAt "*") fun _ => .either ?_ ?_
  · refine Moves.step (.part ?_) fun star => reads_fromModule.step fun source => ?_
    · refine (reads_token.part.returning returns_part_getLast).bind_returning fun star hstar => ?_
      refine .look (looks_isAt "as") fun _ => .either ?_ (.ret ⟨?_, hstar⟩)
      · refine (reads_expect "as").step fun word => ?_
        exact reads_identifier.part.step fun n => .ret (by simp)
      · simpa using marks_getLast star
    · exact (reads_semicolon true).step fun last => .ret (by simp)
  · refine .look (looks_isAt "\x7b") fun _ => .either ?_ ?_
    · refine (reads_clause bound rfl rfl).part.step fun names => ?_
      refine Moves.step (.look (looks_isAt "from") fun _ => reads_fromModule.optional) fun source => ?_
      exact (reads_semicolon true).step fun last => .ret (by simp)
    · refine .look (looks_isAt "default") fun _ => .either ?_ ?_
      · refine (reads_expect "default").step fun default_ => ?_
        refine .look (looks_isAt "function") fun _ => .look (looks_isAt "class") fun _ => .either ?_ ?_
        · exact ((hdeeper _).partAs _).step fun n => .ret (by simp)
        · refine ((hdeeper _).partAs _).step fun n => ?_
          exact (reads_semicolon false).step fun last => .ret (by simp)
      · exact (hdeeper _).part.step fun n => .ret (by simp)

theorem reads_expressionStatement : ReadsNode code (expressionStatement deeper bound) :=
  (reads_expressions hdeeper bound true).bind fun _ =>
    (reads_semicolon false).step fun _ => .ret (by simp)

theorem reads_wordStatement (word : String) : ReadsNode code (wordStatement deeper bound word) := by
  have hcondition := reads_condition hdeeper bound
  have hstatement := hdeeper .statement
  refine .look looks_secondOnLine fun after => ?_
  dsimp only
  split
  · exact (reads_expect "var").bind fun word => reads_declaration hdeeper bound rfl word
  · exact (reads_expect "const").bind fun word => reads_declaration hdeeper bound rfl word
  · exact reads_function hdeeper bound [] rfl rfl
  · exact reads_classAs hdeeper bound rfl
  · exact reads_ifStatement hdeeper bound
  · exact reads_forStatement hdeeper bound
  · refine (reads_expect "while").bind fun word => (hcondition.partAs _).step fun test => ?_
    exact (hstatement.partAs _).step fun body => .ret (by simp)
  · refine (reads_expect "do").bind fun word => (hstatement.partAs _).step fun body => ?_
    refine (reads_expect "while").step fun until_ => (hcondition.partAs _).step fun test => ?_
    exact (reads_semicolon true).step fun last => .ret (by simp)
  · exact reads_returnStatement hdeeper bound
  · exact reads_jump rfl
  · exact reads_jump rfl
  · refine (reads_expect "throw").bind fun word => ?_
    refine (reads_expressions hdeeper bound true).part.step fun n => ?_
    exact (reads_semicolon false).step fun last => .ret (by simp)
  · exact reads_tryStatement hdeeper bound
  · exact reads_switchStatement hdeeper bound
  · refine (reads_expect "with").bind fun word => (hcondition.partAs _).step fun n => ?_
    exact (hstatement.partAs _).step fun body => .ret (by simp)
  · exact (reads_expect "debugger").bind fun word => (reads_semicolon true).step fun last => .ret (by simp)
  · exact reads_exportStatement hdeeper bound
  · refine .either (reads_importStatement hdeeper bound) (.either ?_ ?_)
    · exact (reads_expect "async").bind fun word => reads_function hdeeper bound word rfl rfl
    · refine .look looks_of_state fun _ => .either ?_ (.either ?_ (reads_expressionStatement hdeeper bound))
      · exact (reads_expect "let").bind fun word => reads_declaration hdeeper bound rfl word
      · refine (reads_nameAs (by decide)).part.bind fun label => (reads_expect ":").step fun colon => ?_
        exact (hstatement.partAs _).step fun body => .ret (by simp)

theorem reads_statement : ReadsNode code (statement deeper bound) := by
  refine .look looks_token fun t => .either (reads_wordStatement hdeeper bound _)
    (.either (reads_block hdeeper bound true) (.either ?_ (reads_expressionStatement hdeeper bound)))
  exact (reads_expect ";").bind fun _ => .ret (by simp)

omit hdeeper in
theorem reads_run (depth : Nat) (goal : Goal) : ReadsNode code (run depth goal) := by
  induction depth generalizing goal with
  | zero => exact .failed
  | succ depth ih =>
    cases goal with
    | statement => exact reads_statement ih depth
    | assignment inAllowed => exact reads_assignment ih depth inAllowed
    | operand => exact reads_operand ih depth
    | primary => exact reads_primary ih depth
    | construct => exact reads_construct ih depth

omit hdeeper in
theorem reads_statements (depth : Nat) : ReadsParts code (statements depth) :=
  (Moves.repeatWhile looks_of_state (reads_run depth .statement).part depth).bind fun _ =>
    reads_comments.step fun _ => .ret (by simp)

end Parse

theorem hashBang_place {code : String} {n : Node} {p : Place} (h : hashBang code = some (n, p)) :
    n.marks = [] ∧ p.IsIn code := by
  unfold hashBang at h
  dsimp only at h
  split at h
  · cases h
    exact ⟨Node.marks_leaf rfl _, (Place.isIn_ofString code).advance _⟩
  · cases h

/-- In the tree of a script names stand one behind the other, each where the text has it. -/
theorem inOrder_parse (code : String) : ∃ hi, InOrder code 0 (parse code).marks hi := by
  have hstatements : ∀ {p : Place}, p.IsIn code → ∀ {before body : List Node} {s : Reading},
      before.flatMap Node.marks = [] →
      Parse.statements (6 * code.length + 16) (Reading.from_ p) = some (body, s) →
      ∃ hi, InOrder code 0 ((before ++ body).flatMap Node.marks) hi := by
    intro p hp before body s hbefore hrun
    obtain ⟨hfrom, -⟩ := Reading.isIn_from hp
    obtain ⟨-, horder, -⟩ := Parse.reads_statements _ 0 _ body s hfrom (.nil (Nat.zero_le _)) hrun
    rw [List.flatMap_append, hbefore]
    exact ⟨_, horder⟩
  unfold parse
  cases hbang : hashBang code with
  | none =>
    rw [Node.marks_construct rfl]
    split
    next body s hrun => exact hstatements (Place.isIn_ofString code) rfl hrun
    next => exact ⟨0, .nil (Nat.le_refl 0)⟩
  | some found =>
    obtain ⟨hmarks, hplace⟩ := hashBang_place hbang
    rw [Node.marks_construct rfl]
    split
    next body s hrun => exact hstatements hplace (by simp [hmarks]) hrun
    next => exact ⟨0, .nil (Nat.le_refl 0)⟩

end UiWorkspace.Script
