import Mathlib.Data.List.Induction
import Mathlib.Data.Set.Card
import UiWorkspace.Class.TypeMemo

/-! What a memo of types holds, by its history. The slot of a key hangs on the last step that marked
or filled it and on what was done since: a mark goes when the work on its key ends or its class
changes, a type goes when its class changes or one that was read for it. A history is a list of what
was done, the first thing first. -/
namespace UiWorkspace

section

variable {α : Type} {P Q : α → Prop}

/-- Something with `P` was done, and everything done since satisfies `Q`. -/
def Since (P Q : α → Prop) (history : List α) : Prop :=
  ∃ before a later, history = before ++ a :: later ∧ P a ∧ ∀ b ∈ later, Q b

theorem not_since_nil : ¬Since P Q [] := by
  rintro ⟨before, a, later, hhistory, -⟩
  exact List.append_ne_nil_of_right_ne_nil before (List.cons_ne_nil a later) hhistory.symm

theorem since_concat {history : List α} {a : α} :
    Since P Q (history ++ [a]) ↔ P a ∨ Q a ∧ Since P Q history := by
  constructor
  · rintro ⟨before, first, later, hhistory, hfirst, hlater⟩
    rcases List.eq_nil_or_concat later with rfl | ⟨later, last, rfl⟩
    · obtain ⟨-, rfl⟩ := List.append_singleton_inj.1 hhistory
      exact .inl hfirst
    · rw [List.concat_eq_append] at hhistory hlater
      rw [← List.cons_append, ← List.append_assoc] at hhistory
      obtain ⟨rfl, rfl⟩ := List.append_singleton_inj.1 hhistory
      rw [List.forall_mem_append, List.forall_mem_singleton] at hlater
      exact .inr ⟨hlater.2, before, first, later, rfl, hfirst, hlater.1⟩
  · rintro (ha | ⟨ha, before, first, later, rfl, hfirst, hlater⟩)
    · exact ⟨history, a, [], rfl, ha, by simp⟩
    · exact ⟨before, first, later ++ [a], by simp, hfirst,
        List.forall_mem_append.2 ⟨hlater, List.forall_mem_singleton.2 ha⟩⟩

end

namespace TypeMemo

inductive Step where
  | begin (key : MemoKey)
  | finish (key : MemoKey) (value : Option String) (dependsOn : List String)
  | abandon (key : MemoKey)
  | invalidate (className : String)
  | clear

namespace Step

def apply (memo : TypeMemo) : Step → TypeMemo
  | begin key => memo.begin key
  | finish key value dependsOn => memo.finish key value dependsOn
  | abandon key => memo.abandon key
  | invalidate className => memo.invalidate className
  | clear => empty

def Finishes (key : MemoKey) : Step → Prop
  | finish k _ _ => k = key
  | _ => False

/-- The step takes away a type of the key for which the classes were read. -/
def Ousts (key : MemoKey) (dependsOn : List String) : Step → Prop
  | begin k => k = key
  | clear => True
  | invalidate className => className = key.className ∨ className ∈ dependsOn
  | _ => False

def Unmarks (key : MemoKey) : Step → Prop
  | finish k _ _ => k = key
  | abandon k => k = key
  | clear => True
  | invalidate className => className = key.className
  | begin _ => False

end Step

def after (history : List Step) : TypeMemo := history.foldl Step.apply empty

theorem after_concat (history : List Step) (step : Step) :
    after (history ++ [step]) = step.apply (after history) :=
  List.foldl_concat ..

/-- The last type that was found for the key is this one, and no step since has taken it away. -/
def KeptSince (key : MemoKey) (value : Option String) (dependsOn : List String) :
    List Step → Prop :=
  Since (· = .finish key value dependsOn) fun step => ¬step.Finishes key ∧ ¬step.Ousts key dependsOn

/-- No step since the last one that marked the key has taken the mark away. -/
def MarkedSince (key : MemoKey) : List Step → Prop :=
  Since (· = .begin key) fun step => step ≠ .begin key ∧ ¬step.Unmarks key

section

variable {memo : TypeMemo} (h : (memo.map Prod.fst).Nodup)

include h

theorem nodup_keys_apply (step : Step) : ((step.apply memo).map Prod.fst).Nodup := by
  cases step with
  | begin key => exact Table.nodup_keys_put key _ h
  | finish key value dependsOn => exact Table.nodup_keys_put key _ h
  | abandon key =>
    change ((memo.abandon key).map Prod.fst).Nodup
    unfold abandon
    split
    · exact Table.nodup_keys_filter _ h
    · exact h
  | invalidate className => exact Table.nodup_keys_filter _ h
  | clear => exact List.nodup_nil

theorem lookup_apply_eq_done (step : Step) (key : MemoKey) (value : Option String)
    (dependsOn : List String) : (step.apply memo).lookup key = some (.done value dependsOn) ↔
      step = .finish key value dependsOn ∨
        (¬step.Finishes key ∧ ¬step.Ousts key dependsOn) ∧
          memo.lookup key = some (.done value dependsOn) := by
  cases step with
  | begin k =>
    rw [Step.apply, lookup_begin]
    by_cases hk : key = k
    · simp [hk, Step.Ousts]
    · simp [hk, Ne.symm hk, Step.Finishes, Step.Ousts]
  | finish k v d =>
    rw [Step.apply, lookup_finish]
    by_cases hk : key = k
    · simp [hk, Step.Finishes]
    · simp [hk, Ne.symm hk, Step.Finishes, Step.Ousts]
  | abandon k =>
    rw [Step.apply, lookup_abandon]
    split
    next hmark => simp [hmark]
    next => simp [Step.Finishes, Step.Ousts]
  | invalidate className =>
    rw [Step.apply, lookup_invalidate h, Option.filter_eq_some_iff, survives_iff]
    simp [Step.Finishes, Step.Ousts, and_comm, eq_comm]
  | clear => simp [Step.apply, Step.Ousts, empty]

theorem lookup_apply_eq_inProgress (step : Step) (key : MemoKey) :
    (step.apply memo).lookup key = some .inProgress ↔ step = .begin key ∨
      (step ≠ .begin key ∧ ¬step.Unmarks key) ∧ memo.lookup key = some .inProgress := by
  cases step with
  | begin k =>
    rw [Step.apply, lookup_begin]
    by_cases hk : key = k
    · simp [hk]
    · simp [hk, Ne.symm hk, Step.Unmarks]
  | finish k v d =>
    rw [Step.apply, lookup_finish]
    by_cases hk : key = k
    · simp [hk, Step.Unmarks]
    · simp [hk, Ne.symm hk, Step.Unmarks]
  | abandon k =>
    rw [Step.apply, lookup_abandon]
    by_cases hk : key = k
    · simp [hk, Step.Unmarks]
    · simp [hk, Ne.symm hk, Step.Unmarks]
  | invalidate className =>
    rw [Step.apply, lookup_invalidate h, Option.filter_eq_some_iff, survives_iff]
    simp [Step.Unmarks, and_comm, eq_comm]
  | clear => simp [Step.apply, Step.Unmarks, empty]

theorem lookup_invalidate_ne_iff (className : String) (key : MemoKey) :
    (memo.invalidate className).lookup key ≠ memo.lookup key ↔
      ∃ slot, (key, slot) ∈ memo ∧ survives className (key, slot) = false := by
  rw [lookup_invalidate h]
  constructor
  · intro hne
    cases hslot : memo.lookup key with
    | none => simp [hslot] at hne
    | some slot =>
      refine ⟨slot, Table.entry_of_lookup hslot, Bool.eq_false_iff.2 fun hstays => hne ?_⟩
      rw [hslot, Option.filter_some, if_pos hstays]
  · rintro ⟨slot, hmem, hgoes⟩
    simp [Table.lookup_of_mem h hmem, hgoes]

theorem encard_lookup_invalidate_ne (className : String) :
    {key | (memo.invalidate className).lookup key ≠ memo.lookup key}.encard =
      memo.invalidated className := by
  let dropped := memo.filter fun e => !survives className e
  have hkeys : {key | (memo.invalidate className).lookup key ≠ memo.lookup key} =
      ((dropped.map Prod.fst).toFinset : Set MemoKey) := by
    ext key
    rw [Set.mem_ofPred_eq, lookup_invalidate_ne_iff h]
    simp [dropped]
  have hlength : memo.length = (memo.invalidate className).length + dropped.length :=
    List.length_eq_length_filter_add _
  have hnodup : (dropped.map Prod.fst).Nodup := Table.nodup_keys_filter _ h
  rw [hkeys, Set.encard_coe_eq_coe_finsetCard, List.toFinset_card_of_nodup hnodup, List.length_map,
    invalidated, hlength, Nat.add_sub_cancel_left]

end

theorem nodup_keys_after (history : List Step) : ((after history).map Prod.fst).Nodup := by
  induction history using List.reverseRecOn with
  | nil => exact List.nodup_nil
  | append_singleton history step ih =>
    rw [after_concat]
    exact nodup_keys_apply ih step

theorem lookup_after_eq_done (history : List Step) (key : MemoKey) (value : Option String)
    (dependsOn : List String) : (after history).lookup key = some (.done value dependsOn) ↔
      KeptSince key value dependsOn history := by
  induction history using List.reverseRecOn with
  | nil => exact iff_of_false nofun not_since_nil
  | append_singleton history step ih =>
    rw [after_concat, lookup_apply_eq_done (nodup_keys_after history), ih, KeptSince, since_concat]

theorem lookup_after_eq_inProgress (history : List Step) (key : MemoKey) :
    (after history).lookup key = some .inProgress ↔ MarkedSince key history := by
  induction history using List.reverseRecOn with
  | nil => exact iff_of_false nofun not_since_nil
  | append_singleton history step ih =>
    rw [after_concat, lookup_apply_eq_inProgress (nodup_keys_after history), ih, MarkedSince,
      since_concat]

/-- Whatever was done to a memo, a key has the type that was found for it last and that nothing has
taken away since, or is marked if nothing has ended the work on it since it was begun last, or else
has nothing; and a change of a class drops as many entries as there are keys whose look-up it
changes. -/
theorem memo_follows_history (history : List Step) :
    (∀ key,
      (∀ value dependsOn, (after history).lookup key = some (.done value dependsOn) ↔
        KeptSince key value dependsOn history) ∧
      ((after history).lookup key = some .inProgress ↔ MarkedSince key history) ∧
      ((after history).lookup key = none ↔
        (∀ value dependsOn, ¬KeptSince key value dependsOn history) ∧ ¬MarkedSince key history)) ∧
      ∀ className,
        {key | ((after history).invalidate className).lookup key ≠ (after history).lookup key}.encard =
          (after history).invalidated className := by
  refine ⟨fun key => ?_, encard_lookup_invalidate_ne (nodup_keys_after history)⟩
  have hdone := lookup_after_eq_done history key
  have hmarked := lookup_after_eq_inProgress history key
  refine ⟨hdone, hmarked, ?_⟩
  simp only [← hdone, ← hmarked]
  cases hslot : (after history).lookup key with
  | none => simp
  | some slot => cases slot <;> simp

end TypeMemo

end UiWorkspace
