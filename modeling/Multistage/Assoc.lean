/-!
# Association lists

Lists of keys and values in the order of their keys, at most one entry a key. `put` and `drop`
change one entry; `lookup_put` and `lookup_drop` say what that means for looking up any key.
-/

namespace Multistage.Assoc

variable {κ α : Type} [DecidableEq κ]

/-- Puts an entry before the first key that comes later, over an earlier entry of the key. -/
def put (before : κ → κ → Bool) (key : κ) (value : α) : List (κ × α) → List (κ × α)
  | [] => [(key, value)]
  | (k, v) :: rest =>
    if before key k then (key, value) :: (k, v) :: rest
    else if key = k then (key, value) :: rest
    else (k, v) :: put before key value rest

/-- Takes the entry of a key out. -/
def drop (key : κ) (entries : List (κ × α)) : List (κ × α) :=
  entries.filter (·.1 ≠ key)

variable [BEq κ] [LawfulBEq κ]

theorem lookup_cons (key k : κ) (v : α) (rest : List (κ × α)) :
    ((k, v) :: rest).lookup key = if key = k then some v else rest.lookup key := by
  by_cases h : key = k
  · subst h
    rw [List.lookup_cons_self, if_pos rfl]
  · have hne : (key == k) = false := beq_false_of_ne h
    simp only [List.lookup_cons, hne, if_neg h]

/-- The entry that was put is found under its key, and all other keys are as before. -/
theorem lookup_put (before : κ → κ → Bool) (key other : κ) (value : α) (entries : List (κ × α)) :
    (put before key value entries).lookup other =
      if other = key then some value else entries.lookup other := by
  induction entries with
  | nil => rw [put, lookup_cons]
  | cons e rest ih =>
    obtain ⟨k, v⟩ := e
    rw [put]
    split
    · rw [lookup_cons]
    · split
      · next hk =>
        subst hk
        rw [lookup_cons, lookup_cons]
        split <;> rfl
      · next hk =>
        rw [lookup_cons, lookup_cons, ih]
        by_cases ho : other = k
        · subst ho
          rw [if_pos rfl, if_neg fun h => hk h.symm, if_pos rfl]
        · rw [if_neg ho, if_neg ho]

/-- Nothing is found under the key that was taken out, and all other keys are as before. -/
theorem lookup_drop (key other : κ) (entries : List (κ × α)) :
    (drop key entries).lookup other = if other = key then none else entries.lookup other := by
  induction entries with
  | nil => simp only [drop, List.filter_nil, List.lookup_nil, ite_self]
  | cons e rest ih =>
    obtain ⟨k, v⟩ := e
    unfold drop at ih ⊢
    by_cases hk : k = key
    · subst hk
      rw [List.filter_cons_of_neg (by simp), ih, lookup_cons]
      split <;> rfl
    · rw [List.filter_cons_of_pos (by simp [hk]), lookup_cons, lookup_cons, ih]
      by_cases ho : other = k
      · subst ho
        rw [if_pos rfl, if_neg hk, if_pos rfl]
      · rw [if_neg ho, if_neg ho]

end Multistage.Assoc
