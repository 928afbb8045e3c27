import Mathlib.Logic.Function.Basic

/-!
# Lists of optional values

What `List.mapM` gives for a function that may have no answer: the answers for all elements, if
there is one for each. Lists of lists are gone through element by element.
-/

namespace Multistage

variable {α β γ : Type} {f f' : α → Option β} {l : List α}

theorem mapM_congr (h : ∀ a ∈ l, f a = f' a) : l.mapM f = l.mapM f' := by
  rw [← Function.id_comp f, ← Function.id_comp f', ← List.mapM_map, ← List.mapM_map,
    List.map_congr_left h]

theorem mapM_eq_map {t : α → Option γ} {k : β → γ} (h : ∀ a ∈ l, t a = (f a).map k) :
    l.mapM t = (l.mapM f).map (List.map k) := by
  induction l with
  | nil => rfl
  | cons a rest ih =>
    rw [List.mapM_cons, List.mapM_cons, h a List.mem_cons_self,
      ih fun b hb => h b (List.mem_cons_of_mem a hb)]
    cases f a with
    | none => rfl
    | some y => cases rest.mapM f <;> rfl

theorem mapM_eq_some_map {k : α → β} (h : ∀ a ∈ l, f a = some (k a)) :
    l.mapM f = some (l.map k) :=
  (mapM_congr h).trans (List.mapM_pure (m := Option))

theorem isSome_mapM_iff : (l.mapM f).isSome ↔ ∀ a ∈ l, (f a).isSome := by
  induction l with
  | nil => simp
  | cons a rest ih =>
    rw [List.forall_mem_cons, ← ih, List.mapM_cons]
    cases f a with
    | none => simp
    | some y => cases rest.mapM f <;> simp

theorem exists_of_mem_mapM {ys : List β} (h : l.mapM f = some ys) {y : β} (hy : y ∈ ys) :
    ∃ a ∈ l, f a = some y := by
  induction l generalizing ys with
  | nil =>
    cases h
    cases hy
  | cons a rest ih =>
    rw [List.mapM_cons] at h
    obtain ⟨z, hz, h⟩ := Option.bind_eq_some_iff.mp h
    obtain ⟨zs, hzs, h⟩ := Option.bind_eq_some_iff.mp h
    cases h
    rcases List.mem_cons.mp hy with rfl | hy
    · exact ⟨a, List.mem_cons_self, hz⟩
    · obtain ⟨b, hb, hby⟩ := ih hzs hy
      exact ⟨b, List.mem_cons_of_mem a hb, hby⟩

theorem flatMap_flatten (ls : List (List α)) (k : α → List γ) :
    ls.flatten.flatMap k = ls.flatMap (List.flatMap k) := by
  rw [List.flatten_eq_flatMap, List.flatMap_assoc]
  rfl

theorem flatMap_flatten_of_mapM {t : α → Option (List β)} {k : β → List γ} {m : α → List γ}
    (h : ∀ a ys, t a = some ys → ys.flatMap k = m a) {yss : List (List β)}
    (hl : l.mapM t = some yss) : yss.flatten.flatMap k = l.flatMap m := by
  induction l generalizing yss with
  | nil =>
    cases hl
    rfl
  | cons a rest ih =>
    rw [List.mapM_cons] at hl
    obtain ⟨ys, hys, hl⟩ := Option.bind_eq_some_iff.mp hl
    obtain ⟨zss, hzss, hl⟩ := Option.bind_eq_some_iff.mp hl
    cases hl
    rw [List.flatten_cons, List.flatMap_append, List.flatMap_cons, h a ys hys, ih hzss]

end Multistage
