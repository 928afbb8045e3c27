import Mathlib.Algebra.Group.End
import Mathlib.Data.Fintype.EquivFin
import Mathlib.Data.List.OfFn
import Multistage.Encoding.Permute
import Multistage.Proofs.OptionLists

/-!
# Lists that permute dimensions

The list of a permutation holds, for each dimension of the result, the dimension that it is. Every
rearrangement of the dimensions is such a list (`exists_eq_axes`), and what is done with the lists
is done with the permutations: reading a list of entries at the positions of a permutation composes
on the right (`mapM_pick?_axes`), looking a dimension up inverts (`renamed_axes`), and lists are
composed and inverted as permutations are (`after_axes`, `inverse_axes`).
-/

namespace Multistage

open Equiv (Perm)

/-- The dimensions below `rank` in increasing order: the list of the permutation that changes
nothing. -/
def dimensions (rank : Nat) : List Int := (List.range rank).map Int.ofNat

@[simp] theorem length_dimensions (rank : Nat) : (dimensions rank).length = rank := by
  rw [dimensions, List.length_map, List.length_range]

theorem mem_dimensions {rank : Nat} {d : Int} : d ∈ dimensions rank ↔ 0 ≤ d ∧ d < rank := by
  simp only [dimensions, List.mem_map, List.mem_range]
  constructor
  · rintro ⟨n, hn, rfl⟩
    exact ⟨Int.natCast_nonneg n, Int.ofNat_lt.mpr hn⟩
  · rintro ⟨h0, hd⟩
    exact ⟨d.toNat, by omega, Int.toNat_of_nonneg h0⟩

theorem getElem?_dimensions {rank i : Nat} (h : i < rank) :
    (dimensions rank)[i]? = some (i : Int) := by
  rw [dimensions, List.getElem?_map, List.getElem?_range h]
  rfl

theorem nodup_dimensions (rank : Nat) : (dimensions rank).Nodup :=
  List.nodup_range.map fun _ _ => Int.ofNat.inj

/-- One list after the other: entry `i` is the entry of `p` at the position that `q` has there. -/
def after (p q : List Int) : List Int := q.map fun d => (pick? p d).getD 0

/-- The list that holds, for each dimension, its position in `p`. -/
def inverse (p : List Int) : List Int := (dimensions p.length).map (renamed p)

section Axes

variable {rank : Nat}

/-- The list of the permutation `σ`. -/
def axes (σ : Perm (Fin rank)) : List Int := List.ofFn fun i => ((σ i : Nat) : Int)

@[simp] theorem length_axes (σ : Perm (Fin rank)) : (axes σ).length = rank :=
  List.length_ofFn

theorem map_axes {α : Type} (f : Int → α) (σ : Perm (Fin rank)) :
    (axes σ).map f = List.ofFn fun i => f (σ i : Nat) :=
  List.map_ofFn ..

theorem axes_one : axes (1 : Perm (Fin rank)) = dimensions rank := by
  apply List.ext_getElem
  · rw [length_axes, length_dimensions]
  · intro i _ _
    simp [axes, dimensions]

theorem getElem?_axes (σ : Perm (Fin rank)) (i : Fin rank) :
    (axes σ)[(i : Nat)]? = some ((σ i : Nat) : Int) := by
  rw [axes, List.getElem?_ofFn, dif_pos i.isLt]

theorem nodup_axes (σ : Perm (Fin rank)) : (axes σ).Nodup :=
  List.nodup_ofFn.mpr fun _ _ h => σ.injective (Fin.ext (Int.ofNat.inj h))

theorem mem_axes {σ : Perm (Fin rank)} {d : Int} : d ∈ axes σ ↔ ∃ i : Fin rank, d = (i : Nat) := by
  rw [axes, List.mem_ofFn]
  constructor
  · rintro ⟨i, rfl⟩
    exact ⟨σ i, rfl⟩
  · rintro ⟨i, rfl⟩
    exact ⟨σ.symm i, by rw [Equiv.apply_symm_apply]⟩

theorem axes_injective : Function.Injective (@axes rank) := by
  intro σ τ h
  ext i
  exact Int.ofNat.inj (congrFun (List.ofFn_injective h) i)

/-- Every rearrangement `p` of the dimensions is the list of a permutation. -/
theorem exists_eq_axes {p : List Int} (h : p.Perm (dimensions rank)) :
    ∃ σ : Perm (Fin rank), p = axes σ := by
  have hlength : p.length = rank := by rw [h.length_eq, length_dimensions]
  subst hlength
  have hentry : ∀ i : Fin p.length, ∃ j : Fin p.length, p.get i = (j : Nat) := by
    intro i
    have hi := mem_dimensions.mp (h.mem_iff.mp (List.get_mem p i))
    exact ⟨⟨(p.get i).toNat, by omega⟩, (Int.toNat_of_nonneg hi.1).symm⟩
  -- an injective map of the positions to the dimensions is a permutation
  choose f hf using hentry
  have hinjective : Function.Injective f := by
    intro i j hij
    have hp : p.Nodup := h.nodup_iff.mpr (nodup_dimensions _)
    exact hp.injective_get (by rw [hf, hf, hij])
  refine ⟨Equiv.ofBijective f (Finite.injective_iff_bijective.mp hinjective), ?_⟩
  calc p = List.ofFn p.get := (List.ofFn_get p).symm
    _ = _ := congrArg List.ofFn (funext hf)

/-! ## Reading at the positions of a permutation -/

theorem pick?_ofFn {α : Type} (f : Fin rank → α) (i : Fin rank) :
    pick? (List.ofFn f) (i : Nat) = some (f i) := by
  rw [pick?_ofNat, List.getElem?_ofFn, dif_pos i.isLt]

theorem mapM_pick?_axes {α : Type} (f : Fin rank → α) (σ : Perm (Fin rank)) :
    (axes σ).mapM (pick? (List.ofFn f)) = some (List.ofFn (f ∘ σ)) := by
  have hpick : (pick? (List.ofFn f) ∘ fun i : Fin rank => ((i : Nat) : Int)) =
      fun i => pure (f i) := funext (pick?_ofFn f)
  calc (axes σ).mapM (pick? (List.ofFn f))
      = ((List.ofFn σ).map fun i : Fin rank => ((i : Nat) : Int)).mapM (pick? (List.ofFn f)) := by
        rw [List.map_ofFn]; rfl
    _ = some ((List.ofFn σ).map f) := by rw [List.mapM_map, hpick, List.mapM_pure]; rfl
    _ = some (List.ofFn (f ∘ σ)) := by rw [List.map_ofFn]

/-- `pick?` reads `xs` at all positions of `axes σ` if it is long enough. -/
theorem exists_mapM_pick?_axes_iff {α : Type} {xs : List α} (σ : Perm (Fin rank)) :
    (∃ ys, (axes σ).mapM (pick? xs) = some ys) ↔ rank ≤ xs.length := by
  rw [← Option.isSome_iff_exists, isSome_mapM_iff]
  constructor
  · intro h
    -- a list that is too short has no entry at the position that is its own length
    by_contra hshort
    have hat := h xs.length (mem_axes.mpr ⟨⟨xs.length, by omega⟩, rfl⟩)
    rw [pick?_ofNat, List.getElem?_eq_none (Nat.le_refl _)] at hat
    exact nomatch hat
  · intro hlength d hd
    obtain ⟨i, rfl⟩ := mem_axes.mp hd
    rw [pick?_ofNat, List.getElem?_eq_getElem (Nat.lt_of_lt_of_le i.isLt hlength)]
    rfl

theorem after_axes (σ τ : Perm (Fin rank)) : after (axes σ) (axes τ) = axes (σ * τ) := by
  rw [after, map_axes]
  exact congrArg List.ofFn (funext fun i => congrArg (Option.getD · 0) (pick?_ofFn _ (τ i)))

/-! ## Looking dimensions up -/

theorem renamed_of_notMem {p : List Int} {d : Int} (h : d ∉ p) : renamed p d = -1 := by
  rw [renamed, List.idxOf?_eq_none_iff.mpr h]

theorem renamed_of_getElem? {p : List Int} (hp : p.Nodup) {d : Int} {j : Nat}
    (h : p[j]? = some d) : renamed p d = j := by
  obtain ⟨hj, rfl⟩ := List.getElem?_eq_some_iff.mp h
  have hfirst : ∀ k (hk : k < j), ¬ p[k] = p[j] := by
    intro k hk hkj
    exact absurd (hp.getElem_inj_iff.mp hkj) (by omega)
  rw [renamed, List.idxOf?_eq_some_iff.mpr ⟨hj, rfl, hfirst⟩]

/-- `renamed` finds a dimension where the inverse of `σ` has it. -/
theorem renamed_axes (σ : Perm (Fin rank)) (i : Fin rank) :
    renamed (axes σ) (i : Nat) = ((σ.symm i : Fin rank) : Nat) := by
  apply renamed_of_getElem? (nodup_axes σ)
  rw [getElem?_axes, Equiv.apply_symm_apply]

theorem inverse_axes (σ : Perm (Fin rank)) : inverse (axes σ) = axes σ⁻¹ := by
  rw [inverse, length_axes, ← axes_one, map_axes]
  exact congrArg List.ofFn (funext (renamed_axes σ))

/-- `renamed` twice is `renamed` by the composed permutation, also of a `d` that is no dimension. -/
theorem renamed_renamed_axes (σ τ : Perm (Fin rank)) (d : Int) :
    renamed (axes τ) (renamed (axes σ) d) = renamed (axes (σ * τ)) d := by
  by_cases hd : ∃ i : Fin rank, d = (i : Nat)
  · obtain ⟨i, rfl⟩ := hd
    rw [renamed_axes, renamed_axes, renamed_axes]
    rfl
  -- what is no dimension becomes -1, which is no dimension either
  · have hnone : ¬ ∃ i : Fin rank, (-1 : Int) = (i : Nat) := by
      rintro ⟨i, hi⟩
      omega
    rw [renamed_of_notMem (mt mem_axes.mp hd), renamed_of_notMem (mt mem_axes.mp hd),
      renamed_of_notMem (mt mem_axes.mp hnone)]

theorem permuteOrder_permuteOrder_axes (order : List Int) (σ τ : Perm (Fin rank)) :
    permuteOrder (permuteOrder order (axes σ)) (axes τ) = permuteOrder order (axes (σ * τ)) := by
  rw [permuteOrder, permuteOrder, permuteOrder, List.map_map]
  exact List.map_congr_left fun d _ => renamed_renamed_axes σ τ d

theorem permuteOrder_dimensions {order : List Int} (h : ∀ d ∈ order, 0 ≤ d ∧ d < rank) :
    permuteOrder order (dimensions rank) = order := by
  rw [permuteOrder, ← axes_one]
  refine (List.map_congr_left fun d hd => ?_).trans (List.map_id order)
  have hd' := h d hd
  have hrenamed : renamed (axes 1) (d.toNat : Nat) = (d.toNat : Nat) :=
    renamed_axes 1 (⟨d.toNat, by omega⟩ : Fin rank)
  rwa [Int.toNat_of_nonneg hd'.1] at hrenamed

end Axes

end Multistage
