import UiWorkspace.Proofs.Script.Layout
import UiWorkspace.Script.Parser.Statement

/-! Reading keeps names in order. What is said of a step of reading takes in the nodes read before it
and those it returns, so that each function of the parser has one lemma: what was read stays laid out
up to the place reached, and a node that is returned as part of a construct is no comment. -/
namespace UiWorkspace.Script

open UiWorkspace.Text

variable {code : String}

structure Reading.IsIn (s : Reading) (code : String) : Prop where
  here : s.here.IsIn code
  next : s.next.IsIn code
  span : s.token.span = ⟨s.here.offset, s.next.offset⟩
  here_le : s.here.offset ≤ s.next.offset

/-- Inside a template, where no token has been read yet. -/
structure Reading.IsPaused (s : Reading) (code : String) : Prop where
  here : s.here.IsIn code
  last : s.last = s.here
  next : s.next = s.here

theorem gapFrom_next (fuel : Nat) {p : Place} (h : p.IsIn code) :
    (gapFrom fuel p).next.IsIn code ∧ p.offset ≤ (gapFrom fuel p).next.offset := by
  induction fuel generalizing p with
  | zero => exact ⟨h, Nat.le_refl _⟩
  | succ fuel ih =>
    have hhere := h.advance (p.rest.takeWhile isSpace).length
    have hle := p.le_advance (p.rest.takeWhile isSpace).length
    unfold gapFrom
    dsimp only
    split
    · exact ⟨hhere, hle⟩
    next size _ =>
      obtain ⟨hnext, hmore⟩ := ih (hhere.advance size)
      exact ⟨hnext, Nat.le_trans hle (Nat.le_trans (Place.le_advance _ size) hmore)⟩

theorem Reading.isIn_from {p : Place} (h : p.IsIn code) :
    (from_ p).IsIn code ∧ p.offset ≤ (from_ p).here.offset := by
  obtain ⟨hnext, hle⟩ := gapFrom_next (p.rest.length + 1) h
  exact ⟨⟨hnext, hnext.advance _, rfl, Place.le_advance _ _⟩, hle⟩

namespace Parse

/-- From a state with `P` up to which the nodes `read` are laid out, the step comes to one with `Q`
up to which the nodes `out` are, and what it returns has `V`. -/
def Moves (code : String) {α : Type} (P Q : Reading → Prop) (read : List Node) (p : Parse α)
    (out : α → List Node) (V : α → Prop) : Prop :=
  ∀ lo s a s', P s → InOrder code lo (read.flatMap Node.marks) s.here.offset → p s = some (a, s') →
    Q s' ∧ InOrder code lo ((out a).flatMap Node.marks) s'.here.offset ∧ V a

abbrev Reads (code : String) {α : Type} (read : List Node) (p : Parse α) (out : α → List Node)
    (V : α → Prop) : Prop :=
  Moves code (·.IsIn code) (·.IsIn code) read p out V

/-- The step takes what was read before into the node it returns. -/
abbrev ReadsOnto (code : String) (read : List Node) (p : Parse Node) : Prop :=
  Reads code read p (fun n => [n]) fun n => n.is .comment = false

abbrev ReadsNode (code : String) (p : Parse Node) : Prop := ReadsOnto code [] p

abbrev ReadsParts (code : String) (p : Parse (List Node)) : Prop :=
  Reads code [] p (fun ns => ns) fun _ => True

def Looks {α : Type} (p : Parse α) : Prop := ∀ s a s', p s = some (a, s') → s' = s

def Returns {α : Type} (p : Parse α) (V : α → Prop) : Prop := ∀ s a s', p s = some (a, s') → V a

variable {α β : Type} {P Q R : Reading → Prop} {read : List Node} {p : Parse α} {f : α → Parse β}
  {mid : α → List Node} {out : β → List Node} {V : α → Prop} {W : β → Prop}

theorem bind_eq_some {s s' : Reading} {b : β} (h : (p >>= f) s = some (b, s')) :
    ∃ a t, p s = some (a, t) ∧ f a t = some (b, s') := by
  obtain ⟨⟨a, t⟩, hp, hf⟩ := Option.bind_eq_some_iff.1 h
  exact ⟨a, t, hp, hf⟩

namespace Moves

theorem bind_returning (hp : Moves code P Q read p mid V)
    (hf : ∀ a, V a → Moves code Q R (mid a) (f a) out W) : Moves code P R read (p >>= f) out W := by
  intro lo s b s' hs hread h
  obtain ⟨a, t, hrun, h⟩ := bind_eq_some h
  obtain ⟨ht, hmid, ha⟩ := hp lo s a t hs hread hrun
  exact hf a ha lo t b s' ht hmid h

theorem bind (hp : Moves code P Q read p mid V) (hf : ∀ a, Moves code Q R (mid a) (f a) out W) :
    Moves code P R read (p >>= f) out W :=
  hp.bind_returning fun a _ => hf a

theorem frame (hp : Moves code P Q read p mid V) (before : List Node) :
    Moves code P Q (before ++ read) p (fun a => before ++ mid a) V := by
  intro lo s a s' hs hread h
  rw [List.flatMap_append] at hread
  obtain ⟨m, hbefore, hread⟩ := hread.split
  obtain ⟨hs', hmid, ha⟩ := hp m s a s' hs hread h
  rw [List.flatMap_append]
  exact ⟨hs', hbefore.append hmid, ha⟩

theorem step_returning (hp : Moves code P Q [] p mid V)
    (hf : ∀ a, V a → Moves code Q R (read ++ mid a) (f a) out W) : Moves code P R read (p >>= f) out W := by
  have hframe : Moves code P Q read p (fun a => read ++ mid a) V := by
    simpa using hp.frame read
  exact hframe.bind_returning hf

theorem step (hp : Moves code P Q [] p mid V) (hf : ∀ a, Moves code Q R (read ++ mid a) (f a) out W) :
    Moves code P R read (p >>= f) out W :=
  hp.step_returning fun a _ => hf a

theorem look (hp : Looks p) (hf : ∀ a, Moves code P Q read (f a) out W) :
    Moves code P Q read (p >>= f) out W := by
  intro lo s b s' hs hread h
  obtain ⟨a, t, hrun, h⟩ := bind_eq_some h
  rw [hp s a t hrun] at h
  exact hf a lo s b s' hs hread h

theorem ret {a : α} (h : ((mid a).flatMap Node.marks).Sublist (read.flatMap Node.marks) ∧ V a) :
    Moves code P P read (pure a) mid V := by
  intro lo s _ _ hs hread hrun
  cases hrun
  exact ⟨hs, hread.sublist h.1, h.2⟩

theorem failed : Moves code P Q read fail mid V := by
  intro lo s _ _ _ _ hrun
  cases hrun

/-- Of what was read only the marks matter. -/
theorem given {earlier : List Node} (hp : Moves code P Q read p mid V)
    (hread : (read.flatMap Node.marks).Sublist (earlier.flatMap Node.marks)) :
    Moves code P Q earlier p mid V :=
  fun lo s a s' hs hearlier => hp lo s a s' hs (hearlier.sublist hread)

theorem returning {V' : α → Prop} (hp : Moves code P Q read p mid V) (hV' : Returns p V') :
    Moves code P Q read p mid V' := by
  intro lo s a s' hs hread h
  obtain ⟨hs', hmid, -⟩ := hp lo s a s' hs hread h
  exact ⟨hs', hmid, hV' s a s' h⟩

theorem either {c : Prop} [Decidable c] {q : Parse α} (hp : Moves code P Q read p mid V)
    (hq : Moves code P Q read q mid V) : Moves code P Q read (if c then p else q) mid V := by
  split
  · exact hp
  · exact hq

theorem optional {c : Prop} [Decidable c] {p : Parse (List Node)} (hp : ReadsParts code p) :
    ReadsParts code (if c then p else pure []) :=
  hp.either (.ret (by simp))

theorem otherwise {c : Prop} [Decidable c] {p : Parse (List Node)} (hp : ReadsParts code p) :
    ReadsParts code (if c then pure [] else p) :=
  .either (.ret (by simp)) hp

end Moves

theorem joined {c : Prop} [Decidable c] {p q : Parse α} :
    (if c then p >>= f else q >>= f) = (if c then p else q) >>= f := by
  split <;> rfl

theorem looks_of_state {f : Reading → α} : Looks (fun s => some (f s, s) : Parse α) := by
  rintro s _ _ ⟨⟩
  rfl

theorem looks_token : Looks token := looks_of_state

theorem looks_lineBreakBefore : Looks lineBreakBefore := looks_of_state

theorem looks_second : Looks second := looks_of_state

theorem looks_secondOnLine : Looks secondOnLine := looks_of_state

theorem looks_get : Looks (get : Parse Reading) := looks_of_state

theorem looks_isAt (symbol : String) : Looks (isAt symbol) := looks_of_state

theorem looks_isAtName : Looks isAtName := looks_of_state

theorem reads_comments : ReadsParts code comments := by
  rintro lo s _ _ hs hread ⟨⟩
  refine ⟨⟨hs.here, hs.next, hs.span, hs.here_le⟩, ?_, trivial⟩
  rw [Node.flatMap_marks_comments]
  exact hread

theorem reads_shift {label : Label} (h : label ≠ .construct .comment) : ReadsNode code (shift label) := by
  rintro lo s _ _ hs hread ⟨⟩
  obtain ⟨hfrom, hle⟩ := Reading.isIn_from hs.next
  refine ⟨hfrom, ?_, by simpa [Node.is, Node.label] using h⟩
  have hspan := hs.here.slice_isSome hs.next hs.here_le
  rw [← hs.span] at hspan
  have hname : InOrder code lo [.name s.token.span] (Reading.from_ s.next).here.offset := by
    refine .cons ?_ hspan (.nil ?_)
    · rw [hs.span]
      exact hread.le
    · rw [hs.span]
      exact hle
  apply hname.sublist
  simpa using Node.marks_childless label s.token.span

theorem reads_token : ReadsNode code (shift .token) := reads_shift nofun

theorem Moves.part {p : Parse Node} (hp : ReadsNode code p) :
    ReadsParts code (part p) :=
  reads_comments.step fun _ => hp.step fun _ => .ret (by simp)

theorem Moves.partAs {p : Parse Node} (hp : ReadsNode code p) (role : Role) :
    ReadsParts code (partAs role p) :=
  part (hp.bind_returning fun _ hn => .ret (by simp [hn]))

theorem reads_expect (symbol : String) : ReadsParts code (expect symbol) := by
  apply Moves.look (looks_isAt symbol)
  intro found
  exact reads_token.part.either .failed

theorem reads_option (symbol : String) : ReadsParts code (option symbol) := by
  apply Moves.look (looks_isAt symbol)
  intro found
  exact reads_token.part.optional

theorem reads_nameAs {kind : Kind} (h : kind ≠ .comment) : ReadsNode code (nameAs kind) := by
  apply Moves.look looks_isAtName
  intro found
  exact (reads_shift (by simpa using h)).either .failed

theorem reads_identifier : ReadsNode code identifier := reads_nameAs nofun

theorem Moves.repeatWhile {go : Parse Bool} {step : Parse (List Node)} (hgo : Looks go)
    (hstep : ReadsParts code step) (bound : Nat) : ReadsParts code (repeatWhile go step bound) := by
  induction bound with
  | zero => exact .failed
  | succ bound ih =>
    apply Moves.look hgo
    intro again
    apply Moves.optional
    exact hstep.step fun _ => ih.step fun _ => .ret (by simp)

theorem reads_takeComments (n : Nat) : ReadsParts code (takeComments n) := by
  rintro lo s _ _ hs hread ⟨⟩
  refine ⟨⟨hs.here, hs.next, hs.span, hs.here_le⟩, ?_, trivial⟩
  rw [Node.flatMap_marks_comments]
  exact hread

theorem reads_blockEnd (bare : Bool) : ReadsParts code (blockEnd bare) := by
  apply Moves.look looks_get
  intro s
  split
  · exact reads_takeComments _
  · exact .ret (by simp)

theorem reads_semicolon (bare : Bool) : ReadsParts code (semicolon bare) := by
  apply Moves.look looks_get
  intro s
  split
  · exact reads_takeComments _
  · exact reads_option ";"

end Parse

end UiWorkspace.Script
