/-! Finite maps as lists of pairs in the order in which their keys were first put. Keys
are told apart by `==`, which for paths is sameness of components. -/
namespace UiWorkspace.Table

variable {κ ν : Type} [BEq κ]

/-- Sets the value of a key: in place if the key is there, else at the end. -/
def put (k : κ) (v : ν) : List (κ × ν) → List (κ × ν)
  | [] => [(k, v)]
  | (k', v') :: rest => if k == k' then (k', v) :: rest else (k', v') :: put k v rest

def erase (k : κ) (t : List (κ × ν)) : List (κ × ν) := t.filter fun e => !(k == e.1)

def has (k : κ) (t : List (κ × ν)) : Bool := (t.lookup k).isSome

theorem mem_of_lookup {k : κ} {v : ν} {t : List (κ × ν)} (h : t.lookup k = some v) :
    v ∈ t.map Prod.snd := by
  induction t with
  | nil => cases h
  | cons e rest ih =>
    rw [List.lookup_cons] at h
    split at h
    · cases h
      exact List.mem_cons_self
    · exact List.mem_cons_of_mem _ (ih h)

theorem entry_of_lookup [LawfulBEq κ] {k : κ} {v : ν} {t : List (κ × ν)}
    (h : t.lookup k = some v) : (k, v) ∈ t := by
  obtain ⟨front, back, rfl, -⟩ := List.lookup_eq_some_iff.1 h
  exact List.mem_append_right front List.mem_cons_self

theorem lookup_put [LawfulBEq κ] (k k' : κ) (v : ν) (t : List (κ × ν)) :
    (put k v t).lookup k' = if k' == k then some v else t.lookup k' := by
  induction t with
  | nil =>
    simp only [put, List.lookup_cons, List.lookup_nil]
    cases k' == k <;> rfl
  | cons e rest ih =>
    obtain ⟨k₀, v₀⟩ := e
    by_cases hk : k = k₀
    · subst hk
      simp only [put, beq_self_eq_true, if_true, List.lookup_cons]
      cases k' == k <;> rfl
    · have hput : put k v ((k₀, v₀) :: rest) = (k₀, v₀) :: put k v rest := by simp [put, hk]
      rw [hput, List.lookup_cons, List.lookup_cons, ih]
      by_cases h₀ : k' = k₀
      · subst h₀
        simp [Ne.symm hk]
      · simp [beq_false_of_ne h₀]

theorem lookup_put_self [LawfulBEq κ] (k : κ) (v : ν) (t : List (κ × ν)) :
    (put k v t).lookup k = some v := by
  rw [lookup_put, beq_self_eq_true, if_pos rfl]

theorem lookup_put_of_ne [LawfulBEq κ] {k k' : κ} (h : k' ≠ k) {v : ν} {t : List (κ × ν)} :
    (put k v t).lookup k' = t.lookup k' := by
  rw [lookup_put, beq_false_of_ne h, if_neg Bool.false_ne_true]

theorem put_of_lookup_eq_none {k : κ} {t : List (κ × ν)} (h : t.lookup k = none) (v : ν) :
    put k v t = t ++ [(k, v)] := by
  induction t with
  | nil => rfl
  | cons e rest ih =>
    obtain ⟨k₀, v₀⟩ := e
    rw [List.lookup_cons] at h
    cases hk : k == k₀ with
    | true =>
      rw [hk] at h
      cases h
    | false =>
      rw [hk] at h
      rw [put, if_neg (by rw [hk]; exact Bool.false_ne_true), ih h, List.cons_append]

theorem lookup_erase [LawfulBEq κ] (k k' : κ) (t : List (κ × ν)) :
    (erase k t).lookup k' = if k' == k then none else t.lookup k' := by
  induction t with
  | nil => simp [erase]
  | cons e rest ih =>
    obtain ⟨k₀, v₀⟩ := e
    by_cases hk : k = k₀
    · subst hk
      have herase : erase k ((k, v₀) :: rest) = erase k rest := by simp [erase]
      rw [herase, ih, List.lookup_cons]
      cases k' == k <;> rfl
    · have herase : erase k ((k₀, v₀) :: rest) = (k₀, v₀) :: erase k rest := by simp [erase, hk]
      rw [herase, List.lookup_cons, List.lookup_cons, ih]
      by_cases h₀ : k' = k₀
      · subst h₀
        simp [Ne.symm hk]
      · simp [beq_false_of_ne h₀]

theorem lookup_erase_of_ne [LawfulBEq κ] {k k' : κ} (h : k' ≠ k) {t : List (κ × ν)} :
    (erase k t).lookup k' = t.lookup k' := by
  rw [lookup_erase, beq_false_of_ne h, if_neg Bool.false_ne_true]

theorem mem_put [LawfulBEq κ] {k : κ} {v : ν} {e : κ × ν} {t : List (κ × ν)} (h : e ∈ put k v t) :
    e = (k, v) ∨ e ∈ t := by
  induction t with
  | nil => exact .inl (List.mem_singleton.1 h)
  | cons first rest ih =>
    obtain ⟨k₀, v₀⟩ := first
    unfold put at h
    split at h
    next hk =>
      cases beq_iff_eq.1 hk
      exact (List.mem_cons.1 h).imp_right (List.mem_cons_of_mem (k, v₀))
    next =>
      rcases List.mem_cons.1 h with rfl | h
      · exact .inr List.mem_cons_self
      · exact (ih h).imp_right (List.mem_cons_of_mem (k₀, v₀))

theorem mem_keys_put [LawfulBEq κ] {k k' : κ} {v : ν} {t : List (κ × ν)}
    (h : k' ∈ (put k v t).map Prod.fst) : k' = k ∨ k' ∈ t.map Prod.fst := by
  obtain ⟨e, he, rfl⟩ := List.mem_map.1 h
  rcases mem_put he with rfl | he
  · exact .inl rfl
  · exact .inr (List.mem_map.2 ⟨e, he, rfl⟩)

theorem nodup_keys_put [LawfulBEq κ] (k : κ) (v : ν) {t : List (κ × ν)}
    (h : (t.map Prod.fst).Nodup) : ((put k v t).map Prod.fst).Nodup := by
  induction t with
  | nil => exact List.nodup_cons.2 ⟨List.not_mem_nil, h⟩
  | cons e rest ih =>
    obtain ⟨k₀, v₀⟩ := e
    obtain ⟨hfirst, hrest⟩ := List.nodup_cons.1 h
    unfold put
    split
    · exact h
    next hk =>
      refine List.nodup_cons.2 ⟨fun hmem => ?_, ih hrest⟩
      rcases mem_keys_put hmem with heq | hmem
      · exact hk (beq_iff_eq.2 heq.symm)
      · exact hfirst hmem

omit [BEq κ] in
theorem nodup_keys_filter (p : κ × ν → Bool) {t : List (κ × ν)} (h : (t.map Prod.fst).Nodup) :
    ((t.filter p).map Prod.fst).Nodup :=
  List.Nodup.sublist (List.Sublist.map Prod.fst List.filter_sublist) h

theorem lookup_filter [LawfulBEq κ] (p : κ × ν → Bool) {t : List (κ × ν)}
    (h : (t.map Prod.fst).Nodup) (k : κ) :
    (t.filter p).lookup k = (t.lookup k).filter fun v => p (k, v) := by
  induction t with
  | nil => rfl
  | cons e rest ih =>
    obtain ⟨k₀, v₀⟩ := e
    obtain ⟨hfirst, hrest⟩ := List.nodup_cons.1 h
    rw [List.lookup_cons]
    by_cases hk : k = k₀
    · subst hk
      rw [beq_self_eq_true]
      cases hp : p (k, v₀) with
      | true => simp [hp, Option.filter_some]
      | false =>
        have hnone : rest.lookup k = none := by
          rw [List.lookup_eq_none_iff]
          intro e he
          have hne : k ≠ e.1 := fun heq => hfirst (List.mem_map.2 ⟨e, he, heq.symm⟩)
          simpa using hne
        simp [hp, ih hrest, hnone, Option.filter_some]
    · rw [beq_false_of_ne hk, List.filter_cons]
      split
      · rw [List.lookup_cons, beq_false_of_ne hk]
        exact ih hrest
      · exact ih hrest

theorem lookup_of_mem [LawfulBEq κ] {t : List (κ × ν)} (h : (t.map Prod.fst).Nodup) {k : κ} {v : ν}
    (hmem : (k, v) ∈ t) : t.lookup k = some v := by
  induction t with
  | nil => cases hmem
  | cons e rest ih =>
    obtain ⟨hfirst, hrest⟩ := List.nodup_cons.1 h
    rw [List.lookup_cons]
    rcases List.mem_cons.1 hmem with rfl | hmem
    · rw [beq_self_eq_true]
    · have hne : k ≠ e.1 := fun heq => hfirst (List.mem_map.2 ⟨(k, v), hmem, heq⟩)
      rw [beq_false_of_ne hne]
      exact ih hrest hmem

/-- Puts a pair into a list sorted by key, in the place of an equal key if there is one. -/
def insertSorted (cmp : κ → κ → Ordering) (k : κ) (v : ν) : List (κ × ν) → List (κ × ν)
  | [] => [(k, v)]
  | (k', v') :: rest =>
    match cmp k k' with
    | .lt => (k, v) :: (k', v') :: rest
    | .eq => (k', v) :: rest
    | .gt => (k', v') :: insertSorted cmp k v rest

end UiWorkspace.Table
