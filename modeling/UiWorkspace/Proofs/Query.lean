import UiWorkspace.Workspace.State

/-! Queries as functions of the state, and pairs of states that a query cannot tell apart. -/
namespace UiWorkspace

section Run

variable {σ α β : Type}

theorem bind_run (x : StateM σ α) (f : α → StateM σ β) (s : σ) :
    (x >>= f) s = f (x s).1 (x s).2 := rfl

theorem pure_run (a : α) (s : σ) : (pure a : StateM σ α) s = (a, s) := rfl

theorem get_run (s : σ) : (get : StateM σ σ) s = (s, s) := rfl

theorem modify_run (f : σ → σ) (s : σ) : (modify f : StateM σ PUnit) s = (⟨⟩, f s) := rfl

end Run

namespace Workspace

/-- From states related by `Q` the query answers the same and leads to related states. -/
def Respects (Q : Workspace → Workspace → Prop) {α : Type} (q : Query α) : Prop :=
  ∀ w v, Q w v → (q w).1 = (q v).1 ∧ Q (q w).2 (q v).2

namespace Respects

variable {Q : Workspace → Workspace → Prop} {α β : Type}

theorem ret (a : α) : Respects Q (pure a) := fun _ _ h => ⟨rfl, h⟩

theorem bind {q : Query α} {f : α → Query β} (hq : Respects Q q) (hf : ∀ a, Respects Q (f a)) :
    Respects Q (q >>= f) := by
  intro w v h
  obtain ⟨ha, hs⟩ := hq w v h
  rw [bind_run, bind_run, ← ha]
  exact hf _ _ _ hs

theorem get_related {f : Workspace → Query β} (hsame : ∀ w v, Q w v → f w = f v)
    (hf : ∀ w v, Q w v → Respects Q (f w)) : Respects Q (get >>= f) := by
  intro w v h
  rw [bind_run, bind_run, get_run, get_run, ← hsame w v h]
  exact hf w v h w v h

theorem get_bind {f : Workspace → Query β} (hsame : ∀ w v, Q w v → f w = f v)
    (hf : ∀ w, Respects Q (f w)) : Respects Q (get >>= f) :=
  get_related hsame fun w _ _ => hf w

theorem modify {f : Workspace → Workspace} (hf : ∀ w v, Q w v → Q (f w) (f v)) :
    Respects Q (modify f) :=
  fun w v h => ⟨rfl, hf w v h⟩

end Respects

/-- An invariant as a relation between a state and itself. -/
def Kept (I : Workspace → Prop) (w v : Workspace) : Prop := w = v ∧ I w

theorem Respects.kept {I : Workspace → Prop} {α : Type} {q : Query α}
    (h : ∀ w, I w → I (q w).2) : Respects (Kept I) q := by
  rintro w v ⟨rfl, hw⟩
  exact ⟨rfl, rfl, h w hw⟩

theorem Respects.get_kept {I : Workspace → Prop} {α : Type} {f : Workspace → Query α}
    (hf : ∀ w, Respects (Kept I) (f w)) : Respects (Kept I) (get >>= f) :=
  .get_bind (fun _ _ h => by rw [h.1]) hf

theorem Respects.keeps {I : Workspace → Prop} {α : Type} {q : Query α}
    (h : Respects (Kept I) q) {w : Workspace} (hw : I w) : I (q w).2 :=
  (h w w ⟨rfl, hw⟩).2.2

def Answers {α : Type} (q : Query α) (V : α → Prop) : Prop := ∀ w, V (q w).1

namespace Answers

variable {α β : Type} {q : Query α} {f : α → Query β} {U : α → Prop} {V : β → Prop}

theorem ret {b : β} (h : V b) : Answers (pure b) V := fun _ => h

theorem bind (hq : Answers q U) (hf : ∀ a, U a → Answers (f a) V) : Answers (q >>= f) V :=
  fun w => hf _ (hq w) _

theorem after (hf : ∀ a, Answers (f a) V) : Answers (q >>= f) V := fun _ => hf _ _

end Answers

/-- From a state with `P` the query gives an answer and comes to a state with `Q`. -/
def Gives (P : Workspace → Prop) {α : Type} (q : Query α) (Q : α → Workspace → Prop) : Prop :=
  ∀ w, P w → Q (q w).1 (q w).2

namespace Gives

variable {P : Workspace → Prop} {α β : Type} {R : α → Workspace → Prop} {Q : β → Workspace → Prop}

theorem ret {b : β} (h : ∀ w, P w → Q b w) : Gives P (pure b) Q := h

theorem bind {q : Query α} {f : α → Query β} (hq : Gives P q R) (hf : ∀ a, Gives (R a) (f a) Q) :
    Gives P (q >>= f) Q :=
  fun w hw => hf _ _ (hq w hw)

end Gives

theorem Respects.gives {I : Workspace → Prop} {α : Type} {q : Query α} (h : Respects (Kept I) q) :
    Gives I q fun _ => I :=
  fun _ hw => h.keeps hw

end Workspace

end UiWorkspace
