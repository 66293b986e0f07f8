import UiWorkspace.Proofs.Script.CommentedParts
import UiWorkspace.Proofs.Text.Pieces
import UiWorkspace.Proofs.Typing.Conflicts

/-! What `new` makes. The initializer of a field is read by the constructor as an expression: a short
name, a dotted name, or either of them in parentheses. An expression with `new` has the class that the
text of the constructor spells, whatever kind of expression that is. The two are one class for a
constructor that is a name; where it is none, they agree only if neither finds a class. -/
namespace UiWorkspace.Text

theorem toList_compact (s : String) : (compact s).toList = s.toList.filter fun c => !isBlank c := by
  rw [compact, String.toList_ofList]

theorem mem_compact {c : Char} {s : String} (hc : isBlank c = false) :
    c ∈ (compact s).toList ↔ c ∈ s.toList := by
  rw [toList_compact, List.mem_filter, hc]
  exact and_iff_left rfl

theorem head?_compact {c : Char} {s : String} (hc : isBlank c = false) (h : s.toList.head? = some c) :
    (compact s).toList.head? = some c := by
  obtain ⟨cs, hcs⟩ := List.head?_eq_some_iff.1 h
  rw [toList_compact, hcs, List.filter_cons, hc]
  rfl

end UiWorkspace.Text

namespace UiWorkspace.Script.Node

open UiWorkspace.Text

def IsClassName (code : String) (constructor : Node) : Prop :=
  constructor.is .identifier = true ∨
    constructor.is .member = true ∧ isDottedName (compact (constructor.text code)) = true

instance (code : String) (constructor : Node) : Decidable (constructor.IsClassName code) :=
  inferInstanceAs (Decidable (_ ∨ _))

theorem not_mem_of_isDottedName {s : String} {c : Char} (h : isDottedName s = true) (hdot : c ≠ '.')
    (hc : (isAlphanumeric c || c == '_' || c == '$') = false) : c ∉ s.toList := by
  intro hmem
  obtain ⟨piece, hpiece, hmem⟩ := exists_mem_pieces hmem hdot
  have hletters := (Bool.and_eq_true_iff.1 (List.all_eq_true.1 h piece hpiece)).2
  rw [List.all_eq_true.1 hletters c hmem] at hc
  cases hc

section

variable {n : Node} {code : String} {aliases : List (String × String)}

theorem classReference?_of_identifier (h : n.is .identifier = true) :
    n.classReference? code aliases = aliases.lookup (n.text code) := by
  rw [classReference?, unwrapped?_of_is h (by decide), Option.bind_eq_bind, Option.bind_some, if_pos h]

theorem classReference?_of_member (h : n.is .member = true) :
    n.classReference? code aliases =
      if isDottedName (compact (n.text code)) then some (compact (n.text code)) else none := by
  rw [classReference?, unwrapped?_of_is h (by decide), Option.bind_eq_bind, Option.bind_some,
    if_neg (Bool.eq_false_iff.1 (is_eq_false h (by decide))), if_pos h]

theorem classReference?_of_other (hidentifier : n.is .identifier = false) (hmember : n.is .member = false)
    (hparenthesized : n.is .parenthesized = false) : n.classReference? code aliases = none := by
  rw [classReference?, unwrapped?_of_bare hparenthesized, Option.bind_eq_bind, Option.bind_some,
    if_neg (Bool.eq_false_iff.1 hidentifier), if_neg (Bool.eq_false_iff.1 hmember)]

theorem classReference?_mem_or_isDottedName {name : String} (h : n.classReference? code aliases = some name) :
    name ∈ aliases.map Prod.snd ∨ isDottedName name = true := by
  obtain ⟨inner, -, h⟩ := Option.bind_eq_some_iff.1 h
  split at h
  · exact .inl (Table.mem_of_lookup h)
  · split at h
    · dsimp only at h
      split at h
      next hdotted =>
        cases h
        exact .inr hdotted
      next => cases h
    · cases h

end

end UiWorkspace.Script.Node

namespace UiWorkspace.Typing

open UiWorkspace.Script
open UiWorkspace.Text

/-- The texts by which a class and a constructor are known are those of names: short names of classes
have no dots and no parentheses in them, and expressions are written as the language has them. -/
structure IsSpelled (aliases : List (String × String)) (code : String) (constructor : Node) : Prop where
  shortNames : ∀ entry ∈ aliases, '.' ∉ entry.1.toList ∧ '(' ∉ entry.1.toList
  classNames : ∀ name ∈ aliases.map Prod.snd, name.toList.head? ≠ some '('
  identifier : constructor.is .identifier = true →
    compact (constructor.text code) = constructor.text code ∧ '.' ∉ (constructor.text code).toList
  member : constructor.is .member = true → '.' ∈ (constructor.text code).toList
  parenthesized : constructor.is .parenthesized = true →
    (constructor.text code).toList.head? = some '('

instance (aliases : List (String × String)) (code : String) (constructor : Node) :
    Decidable (IsSpelled aliases code constructor) :=
  decidable_of_iff
    ((∀ entry ∈ aliases, '.' ∉ entry.1.toList ∧ '(' ∉ entry.1.toList) ∧
      (∀ name ∈ aliases.map Prod.snd, name.toList.head? ≠ some '(') ∧
      (constructor.is .identifier = true →
        compact (constructor.text code) = constructor.text code ∧
          '.' ∉ (constructor.text code).toList) ∧
      (constructor.is .member = true → '.' ∈ (constructor.text code).toList) ∧
      (constructor.is .parenthesized = true → (constructor.text code).toList.head? = some '('))
    ⟨fun ⟨hshort, hclass, hidentifier, hmember, hparenthesized⟩ =>
        ⟨hshort, hclass, hidentifier, hmember, hparenthesized⟩,
      fun h => ⟨h.shortNames, h.classNames, h.identifier, h.member, h.parenthesized⟩⟩

section

variable {c : ClassDefinition} {code : String} {k : Node}

theorem constructorType_of_lookup_none {constructor : String} (h : c.aliases.lookup constructor = none) :
    constructorType c constructor = if '.' ∈ constructor.toList then some constructor else none := by
  rw [constructorType, h]
  exact if_congr (contains_singleton (c := '.')) rfl rfl

theorem constructorType_eq_none_iff {constructor : String} :
    constructorType c constructor = none ↔
      c.aliases.lookup constructor = none ∧ '.' ∉ constructor.toList := by
  cases hlookup : c.aliases.lookup constructor with
  | some full =>
    rw [constructorType, hlookup]
    exact iff_of_false nofun fun h => nomatch h.1
  | none =>
    rw [constructorType_of_lookup_none hlookup, ite_eq_right_iff]
    exact ⟨fun h => ⟨rfl, fun hdot => nomatch h hdot⟩, fun h hdot => absurd hdot h.2⟩

namespace IsSpelled

theorem lookup_eq_none (h : IsSpelled c.aliases code k) {constructor : String}
    (hmark : '.' ∈ constructor.toList ∨ '(' ∈ constructor.toList) :
    c.aliases.lookup constructor = none := by
  refine List.lookup_eq_none_iff.2 fun entry hentry => bne_iff_ne.2 ?_
  rintro rfl
  obtain ⟨hdot, hopen⟩ := h.shortNames entry hentry
  rcases hmark with hmark | hmark
  · exact hdot hmark
  · exact hopen hmark

theorem constructorType_of_identifier (h : IsSpelled c.aliases code k) (hk : k.is .identifier = true) :
    constructorType c (compact (k.text code)) = k.classReference? code c.aliases := by
  obtain ⟨hcompact, hdot⟩ := h.identifier hk
  rw [hcompact, Node.classReference?_of_identifier hk]
  cases hlookup : c.aliases.lookup (k.text code) with
  | some full => rw [constructorType, hlookup]
  | none => exact constructorType_eq_none_iff.2 ⟨hlookup, hdot⟩

theorem constructorType_of_dotted (h : IsSpelled c.aliases code k) (hk : k.is .member = true)
    (hdotted : Node.isDottedName (compact (k.text code)) = true) :
    constructorType c (compact (k.text code)) = k.classReference? code c.aliases := by
  have hdot : '.' ∈ (compact (k.text code)).toList := (mem_compact (by decide)).2 (h.member hk)
  rw [Node.classReference?_of_member hk, if_pos hdotted,
    constructorType_of_lookup_none (h.lookup_eq_none (.inl hdot)), if_pos hdot]

/-- A class that is named in parentheses comes without them, one that the text spells comes with them. -/
theorem constructorType_ne_of_parenthesized (h : IsSpelled c.aliases code k)
    (hk : k.is .parenthesized = true) {name : String} (hname : k.classReference? code c.aliases = some name) :
    constructorType c (compact (k.text code)) ≠ some name := by
  have hopen : (compact (k.text code)).toList.head? = some '(' :=
    head?_compact (by decide) (h.parenthesized hk)
  have hlookup := h.lookup_eq_none (.inr (List.mem_of_mem_head? hopen))
  rw [constructorType_of_lookup_none hlookup]
  split
  · rintro ⟨⟩
    rcases Node.classReference?_mem_or_isDottedName hname with hmem | hdotted
    · exact h.classNames _ hmem hopen
    · exact Node.not_mem_of_isDottedName hdotted (by decide) (by decide +kernel)
        (List.mem_of_mem_head? hopen)
  · exact nofun

theorem constructorType_eq_iff (h : IsSpelled c.aliases code k) :
    constructorType c (compact (k.text code)) = k.classReference? code c.aliases ↔
      k.IsClassName code ∨ k.classReference? code c.aliases = none ∧
        c.aliases.lookup (compact (k.text code)) = none ∧ '.' ∉ (k.text code).toList := by
  have hnone : constructorType c (compact (k.text code)) = none ↔
      c.aliases.lookup (compact (k.text code)) = none ∧ '.' ∉ (k.text code).toList := by
    rw [constructorType_eq_none_iff, mem_compact (by decide)]
  constructor
  · intro hsame
    by_cases hname : k.IsClassName code
    · exact .inl hname
    refine .inr ?_
    cases hreference : k.classReference? code c.aliases with
    | none => exact ⟨rfl, hnone.1 (hsame.trans hreference)⟩
    | some name =>
      -- Of all constructors that are no names only those in parentheses name a class.
      obtain ⟨hidentifier, hmember⟩ := not_or.1 hname
      cases hparenthesized : k.is .parenthesized with
      | true =>
        exact absurd (hsame.trans hreference)
          (h.constructorType_ne_of_parenthesized hparenthesized hreference)
      | false =>
        cases hkind : k.is .member with
        | true =>
          rw [Node.classReference?_of_member hkind, if_neg fun hdotted => hmember ⟨hkind, hdotted⟩]
            at hreference
          cases hreference
        | false =>
          rw [Node.classReference?_of_other (Bool.not_eq_true _ ▸ hidentifier) hkind hparenthesized]
            at hreference
          cases hreference
  · rintro ((hidentifier | ⟨hmember, hdotted⟩) | ⟨hreference, hspelled⟩)
    · exact h.constructorType_of_identifier hidentifier
    · exact h.constructorType_of_dotted hmember hdotted
    · exact (hnone.2 hspelled).trans hreference.symm

end IsSpelled

theorem nodeType_construct {m : Type → Type} [Monad m] (around : Surroundings m) (depth : Nat)
    {n : Node} {source : ProjectSource} (hsource : c.source? = some source) (hn : n.is .construct = true)
    (hk : n.part? .constructor = some k) :
    nodeType (chainType around (depth + 1)) c n =
      pure (constructorType c (compact (k.text source.text))) := by
  have hchain : Chain.ofNode? n source.text =
      some { Chain.of (.construct (compact (k.text source.text))) with span? := some n.span } := by
    cases n with
    | mk label role span children =>
      have hlabel : label = .construct .construct := beq_iff_eq.1 hn
      subst hlabel
      rw [Chain.ofNode?, Chain.build?, hk]
      rfl
  have hleaf : Evidence.ofNode n = .expression n := by
    rw [Evidence.ofNode_eq, Node.is_eq_false hn (by decide : Kind.construct ≠ .parenthesized),
      Node.is_eq_false hn (by decide : Kind.construct ≠ .assignment),
      Node.is_eq_false hn (by decide : Kind.construct ≠ .ternary)]
    rfl
  rw [nodeType, hsource, hleaf]
  dsimp only [evidenceType]
  rw [hchain]
  rfl

end

end UiWorkspace.Typing

namespace UiWorkspace.Workspace

open UiWorkspace.Script
open UiWorkspace.Text
open UiWorkspace.Typing

theorem nodeType_of_construct {c : ClassDefinition} {n k : Node} {source : ProjectSource} {w : Workspace}
    (hdepth : 0 < w.settings.maxResolutionDepth) (hsource : c.source? = some source)
    (hn : n.is .construct = true) (hk : n.part? .constructor = some k) :
    nodeType c n w = (constructorType c (compact (k.text source.text)), w) := by
  obtain ⟨depth, hdepth⟩ := Nat.exists_eq_succ_of_ne_zero (Nat.pos_iff_ne_zero.1 hdepth)
  rw [nodeType, resolving, nodeTypeIn, chainTypeIn, hdepth,
    nodeType_construct _ depth hsource hn hk]
  rfl

/-- The class of an expression with `new` is the one its constructor gives the field it initializes, both
or none there, exactly for a short name, for a dotted one, and for a constructor that names no class and
whose text is no short name and has no dot. -/
theorem constructed_class_agrees_iff {c : ClassDefinition} {n k : Node} {source : ProjectSource}
    {w : Workspace} (hdepth : 0 < w.settings.maxResolutionDepth) (hsource : c.source? = some source)
    (hn : n.is .construct = true) (hk : n.part? .constructor = some k)
    (hspelled : IsSpelled c.aliases source.text k) :
    (nodeType c n w).1 = k.classReference? source.text c.aliases ↔
      k.IsClassName source.text ∨ k.classReference? source.text c.aliases = none ∧
        c.aliases.lookup (compact (k.text source.text)) = none ∧ '.' ∉ (k.text source.text).toList := by
  rw [nodeType_of_construct hdepth hsource hn hk]
  exact hspelled.constructorType_eq_iff

def sampleMakingText : String :=
  "sap.ui.define([\"sap/m/Button\"], function (Button) \x7b new (Button)(); \x7d);"

def sampleMaking : ClassDefinition := ClassDefinition.ofScript "App.C" ⟨"/app/C.js"⟩ sampleMakingText

def sampleNew : Node :=
  (sampleMaking.source?.bind fun s => s.tree.preorder.find? fun n => n.is .construct).getD default

def sampleConstructor : Node := (sampleNew.part? .constructor).getD default

theorem constructed_class_agrees_iff_sample :
    sampleConstructor.classReference? sampleMakingText sampleMaking.aliases = some "sap.m.Button" ∧
      (nodeType sampleMaking sampleNew sampleStart).1 ≠ some "sap.m.Button" := by
  have hrun : 0 < sampleStart.settings.maxResolutionDepth ∧ sampleNew.is .construct = true ∧
      (sampleNew.part? .constructor).isSome = true ∧
      sampleConstructor.classReference? sampleMakingText sampleMaking.aliases = some "sap.m.Button" ∧
      IsSpelled sampleMaking.aliases sampleMakingText sampleConstructor ∧
      ¬sampleConstructor.IsClassName sampleMakingText := by decide +kernel
  obtain ⟨hdepth, hkind, hsome, hreference, hspelled, hname⟩ := hrun
  have hpart : sampleNew.part? .constructor = some sampleConstructor := by
    obtain ⟨k, hk⟩ := Option.isSome_iff_exists.1 hsome
    rw [sampleConstructor, hk, Option.getD_some]
  obtain ⟨source, hsource, htext⟩ :
    ∃ source, sampleMaking.source? = some source ∧ source.text = sampleMakingText := ⟨_, rfl, rfl⟩
  rw [← htext] at hreference hspelled hname
  have hiff := constructed_class_agrees_iff hdepth hsource hkind hpart hspelled
  rw [hreference] at hiff
  refine ⟨htext ▸ hreference, fun hsame => ?_⟩
  rcases hiff.1 hsame with hclassName | ⟨hnone, -⟩
  · exact hname hclassName
  · cases hnone

end UiWorkspace.Workspace
