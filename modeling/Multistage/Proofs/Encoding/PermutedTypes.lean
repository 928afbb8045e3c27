import Mathlib.Data.Fintype.Perm
import Multistage.Ops.SharedMemory
import Multistage.Proofs.Encoding.Permutations

/-!
# Permuted types, part by part

A permutation acts on the parts of a buffer type: on its shapes, on a split over the cluster, on a
layout of shared memory, and through these on the type. Taking one permutation after another is
taking their composition (`ActsAt`). Shapes and splits are read at the positions of a permutation
and orders are looked up in it, so that the first compose as they are listed and the second through
their inverses; parts of another rank stay as they are.
-/

namespace Multistage

open Equiv (Perm)

/-- `act?` takes every permutation of `rank` dimensions at `x`, and any further one as the
composition of the two. -/
def ActsAt {β : Type} (act? : β → List Int → Option β) (rank : Nat) (x : β) : Prop :=
  ∀ σ : Perm (Fin rank), ∃ y, act? x (axes σ) = some y ∧
    ∀ τ : Perm (Fin rank), act? y (axes τ) = act? x (axes (σ * τ))

namespace ActsAt

variable {β : Type} {act? : β → List Int → Option β} {rank : Nat} {x : β}

theorem exists_eq_some (h : ActsAt act? rank x) (σ : Perm (Fin rank)) :
    ∃ y, act? x (axes σ) = some y :=
  (h σ).imp fun _ hy => hy.1

/-- `act?` acts at an `x` that no permutation changes. -/
theorem of_stays (h : ∀ σ : Perm (Fin rank), act? x (axes σ) = some x) : ActsAt act? rank x :=
  fun σ => ⟨x, h σ, fun τ => by rw [h, h]⟩

end ActsAt

theorem exists_eq_ofFn {α : Type} {xs : List α} {rank : Nat} (h : xs.length = rank) :
    ∃ f : Fin rank → α, xs = List.ofFn f := by
  subst h
  exact ⟨xs.get, (List.ofFn_get xs).symm⟩

/-! ## Shapes -/

section Shapes

variable {rank : Nat}

theorem permuteShape?_ofFn (f : Fin rank → Int) (σ : Perm (Fin rank)) :
    permuteShape? (List.ofFn f) (axes σ) = some (List.ofFn (f ∘ σ)) := by
  rw [permuteShape?, if_neg (by simp), mapM_pick?_axes]

theorem permuteShape?_of_length_ne {shape perm : List Int} (h : shape.length ≠ perm.length) :
    permuteShape? shape perm = some shape := if_pos h

theorem actsAt_permuteShape? (rank : Nat) (shape : List Int) : ActsAt permuteShape? rank shape := by
  by_cases hlength : shape.length = rank
  · obtain ⟨f, rfl⟩ := exists_eq_ofFn hlength
    intro σ
    refine ⟨_, permuteShape?_ofFn f σ, fun τ => ?_⟩
    rw [permuteShape?_ofFn, permuteShape?_ofFn]
    rfl
  · exact .of_stays fun _ => permuteShape?_of_length_ne (by rwa [length_axes])

theorem length_of_permuteShape?_axes {shape shape' : List Int} {σ : Perm (Fin rank)}
    (h : permuteShape? shape (axes σ) = some shape') : shape'.length = shape.length := by
  by_cases hlength : shape.length = rank
  · obtain ⟨f, rfl⟩ := exists_eq_ofFn hlength
    rw [permuteShape?_ofFn] at h
    rw [← Option.some.inj h, List.length_ofFn, List.length_ofFn]
  · rw [permuteShape?_of_length_ne (by rwa [length_axes])] at h
    rw [Option.some.inj h]

end Shapes

/-! ## Splits over the cluster -/

namespace CTALayout

variable {rank : Nat}

theorem permute?_ofFn (f g : Fin rank → Int) (order : List Int) (σ : Perm (Fin rank)) :
    permute? ⟨List.ofFn f, List.ofFn g, order⟩ (axes σ) =
      some ⟨List.ofFn (f ∘ σ), List.ofFn (g ∘ σ), permuteOrder order (axes σ)⟩ := by
  rw [permute?, if_neg (by simp), mapM_pick?_axes, mapM_pick?_axes]
  rfl

theorem permute?_of_length_ne {c : CTALayout} {perm : List Int}
    (h : c.ctasPerCGA.length ≠ perm.length) : c.permute? perm = some c := if_pos h

theorem actsAt_permute? (rank : Nat) {c : CTALayout}
    (hsplit : c.splitNum.length = c.ctasPerCGA.length) : ActsAt permute? rank c := by
  by_cases hlength : c.ctasPerCGA.length = rank
  · obtain ⟨ctas, split, order⟩ := c
    obtain ⟨f, rfl⟩ := exists_eq_ofFn hlength
    obtain ⟨g, rfl⟩ := exists_eq_ofFn (hsplit.trans hlength)
    intro σ
    refine ⟨_, permute?_ofFn f g order σ, fun τ => ?_⟩
    rw [permute?_ofFn, permute?_ofFn, permuteOrder_permuteOrder_axes]
    rfl
  · exact .of_stays fun _ => permute?_of_length_ne (by rwa [length_axes])

/-- `permute?` of a `CTALayout` fails only if it has too few numbers of parts. -/
theorem exists_permute?_axes_iff {c : CTALayout} (σ : Perm (Fin rank)) :
    (∃ c', c.permute? (axes σ) = some c') ↔
      (c.ctasPerCGA.length = rank → rank ≤ c.splitNum.length) := by
  by_cases hlength : c.ctasPerCGA.length = rank
  · rw [permute?, if_neg (not_not.mpr (hlength.trans (length_axes σ).symm)),
      ← exists_mapM_pick?_axes_iff σ]
    -- there are as many numbers of blocks as dimensions, so only numbers of parts can be missing
    obtain ⟨ctas, hctas⟩ := (exists_mapM_pick?_axes_iff σ).mpr (ge_of_eq hlength)
    rw [hctas]
    constructor
    · rintro ⟨c', h⟩ -
      obtain ⟨_, _, h⟩ := Option.bind_eq_some_iff.mp h
      obtain ⟨split, hsplit, _⟩ := Option.bind_eq_some_iff.mp h
      exact ⟨split, hsplit⟩
    · intro h
      obtain ⟨split, hsplit⟩ := h hlength
      rw [hsplit]
      exact ⟨_, rfl⟩
  · rw [permute?_of_length_ne (by rwa [length_axes])]
    exact ⟨fun _ h => absurd h hlength, fun _ => ⟨c, rfl⟩⟩

theorem length_order_of_permute? {c c' : CTALayout} {perm : List Int}
    (h : c.permute? perm = some c') : c'.order.length = c.order.length := by
  unfold permute? at h
  split at h
  · rw [Option.some.inj h]
  · obtain ⟨ctas, -, h⟩ := Option.bind_eq_some_iff.mp h
    obtain ⟨split, -, h⟩ := Option.bind_eq_some_iff.mp h
    rw [← Option.some.inj h]
    exact List.length_map ..

end CTALayout

/-! ## Layouts of shared memory -/

/-- `[1, 0]` and the identity are the only permutations of two, so that the flag is turned by a
composition if one of its parts turns it. -/
theorem decide_axes_mul_eq_exchange {rank : Nat} (σ τ : Perm (Fin rank)) :
    decide (axes (σ * τ) = [1, 0]) =
      (decide (axes σ = [1, 0]) ^^ decide (axes τ = [1, 0])) := by
  -- of two dimensions there are two permutations; for another rank the list is never that of the
  -- exchange
  by_cases hrank : rank = 2
  · subst hrank
    revert σ τ
    decide
  · have hnever : ∀ ρ : Perm (Fin rank), axes ρ ≠ [1, 0] := fun ρ h =>
      hrank ((length_axes ρ).symm.trans (congrArg List.length h))
    simp [hnever]

namespace SharedLayout

theorem permute?_swizzled {z : Swizzled} {perm : List Int}
    (hlength : z.order.length = perm.length) :
    permute? (swizzled z) perm = (z.cta.permute? perm).map fun cta =>
      swizzled { z with statedOrder := some (permuteOrder z.order perm), cta } := by
  unfold permute?
  dsimp only
  rw [if_neg (not_not.mpr hlength)]
  cases z.cta.permute? perm <;> rfl

theorem permute?_nvMma {n : NvMma} {perm : List Int} (hlength : n.cta.order.length = perm.length) :
    permute? (nvMma n) perm = (n.cta.permute? perm).map fun cta =>
      nvMma { n with cta, transposed := n.transposed ^^ decide (perm = [1, 0]) } := by
  unfold permute?
  dsimp only
  rw [if_neg (not_not.mpr hlength)]
  by_cases hflip : perm = [1, 0] <;> cases n.cta.permute? perm <;> simp [hflip]

theorem permute?_swizzled_of_length_ne {z : Swizzled} {perm : List Int}
    (h : z.order.length ≠ perm.length) : permute? (swizzled z) perm = some (swizzled z) := if_pos h

theorem permute?_nvMma_of_length_ne {n : NvMma} {perm : List Int}
    (h : n.cta.order.length ≠ perm.length) : permute? (nvMma n) perm = some (nvMma n) := if_pos h

theorem actsAt_permute? (rank : Nat) {s : SharedLayout}
    (hsplit : s.cta.splitNum.length = s.cta.ctasPerCGA.length) : ActsAt permute? rank s := by
  have hacts := CTALayout.actsAt_permute? rank hsplit
  cases s with
  | swizzled z =>
    by_cases hlength : z.order.length = rank
    · intro σ
      obtain ⟨cta, hcta, hnext⟩ := hacts σ
      -- the order that is stated from now on has as many entries as the one before
      set z' : Swizzled := { z with statedOrder := some (permuteOrder z.order (axes σ)), cta }
      have hlength' : z'.order.length = rank := (List.length_map ..).trans hlength
      refine ⟨swizzled z', ?_, fun τ => ?_⟩
      · rw [permute?_swizzled (hlength.trans (length_axes σ).symm)]
        exact congrArg (Option.map _) hcta
      · rw [permute?_swizzled (hlength.trans (length_axes _).symm),
          ← permuteOrder_permuteOrder_axes]
        exact (permute?_swizzled (hlength'.trans (length_axes τ).symm)).trans
          (congrArg (Option.map _) (hnext τ))
    · exact .of_stays fun _ => permute?_swizzled_of_length_ne (by rwa [length_axes])
  | nvMma n =>
    by_cases hlength : n.cta.order.length = rank
    · intro σ
      obtain ⟨cta, hcta, hnext⟩ := hacts σ
      -- the order of the split tells the rank, also where the split itself has another one
      have hlength' : cta.order.length = rank :=
        (CTALayout.length_order_of_permute? hcta).trans hlength
      refine ⟨nvMma { n with cta, transposed := n.transposed ^^ decide (axes σ = [1, 0]) }, ?_,
        fun τ => ?_⟩
      · rw [permute?_nvMma (hlength.trans (length_axes σ).symm)]
        exact congrArg (Option.map _) hcta
      · rw [permute?_nvMma (hlength.trans (length_axes _).symm), decide_axes_mul_eq_exchange,
          ← Bool.xor_assoc]
        exact (permute?_nvMma (hlength'.trans (length_axes τ).symm)).trans
          (congrArg (Option.map _) (hnext τ))
    · exact .of_stays fun _ => permute?_nvMma_of_length_ne (by rwa [length_axes])

end SharedLayout

/-! ## Buffer types -/

theorem permuteEncoding?_shared {s s' : SharedLayout} {perm : List Int}
    (h : s.permute? perm = some s') :
    permuteEncoding? (some (.encoding (.shared s))) perm =
      some (some (.encoding (.shared s'))) := by
  rw [permuteEncoding?, h]
  rfl

theorem permuteEncoding?_of_not_shared {enc : Option Attr} (perm : List Int)
    (h : ¬ ∃ s, enc = some (.encoding (.shared s))) : permuteEncoding? enc perm = some enc := by
  unfold permuteEncoding?
  split
  · exact absurd ⟨_, rfl⟩ h
  · rfl

theorem actsAt_permuteEncoding? (rank : Nat) {enc : Option Attr}
    (hsplit : ∀ s, enc = some (.encoding (.shared s)) →
      s.cta.splitNum.length = s.cta.ctasPerCGA.length) :
    ActsAt permuteEncoding? rank enc := by
  by_cases hshared : ∃ s, enc = some (.encoding (.shared s))
  · obtain ⟨s, rfl⟩ := hshared
    intro σ
    obtain ⟨s', hs', hnext⟩ := SharedLayout.actsAt_permute? rank (hsplit s rfl) σ
    refine ⟨_, permuteEncoding?_shared hs', fun τ => ?_⟩
    rw [permuteEncoding?, permuteEncoding?, hnext]
  · exact .of_stays fun σ => permuteEncoding?_of_not_shared (axes σ) hshared

namespace MemDescTy

variable {t : MemDescTy}

theorem permute?_eq_some {perm shape alloc : List Int} {enc : Option Attr}
    (hshape : permuteShape? t.shape perm = some shape)
    (henc : permuteEncoding? t.encoding perm = some enc)
    (halloc : permuteShape? t.allocShape perm = some alloc) :
    t.permute? perm = some { t with shape, encoding := enc, allocShape := alloc } := by
  rw [permute?, hshape, henc, halloc]
  rfl

theorem actsAt_permute? (rank : Nat)
    (hsplit : ∀ s, t.encoding = some (.encoding (.shared s)) →
      s.cta.splitNum.length = s.cta.ctasPerCGA.length) : ActsAt permute? rank t := by
  intro σ
  obtain ⟨shape, hshape, hshapes⟩ := actsAt_permuteShape? rank t.shape σ
  obtain ⟨enc, henc, hencs⟩ := actsAt_permuteEncoding? rank hsplit σ
  obtain ⟨alloc, halloc, hallocs⟩ := actsAt_permuteShape? rank t.allocShape σ
  refine ⟨_, permute?_eq_some hshape henc halloc, fun τ => ?_⟩
  rw [permute?, permute?, hshapes, hencs, hallocs]

/-- `permute?` does not change the rank. -/
theorem rank_of_permute?_axes {rank : Nat} {σ : Perm (Fin rank)} {u : MemDescTy}
    (h : t.permute? (axes σ) = some u) : u.rank = t.rank := by
  obtain ⟨shape, hshape, h⟩ := Option.bind_eq_some_iff.mp h
  obtain ⟨enc, -, h⟩ := Option.bind_eq_some_iff.mp h
  obtain ⟨alloc, -, h⟩ := Option.bind_eq_some_iff.mp h
  rw [← Option.some.inj h]
  exact length_of_permuteShape?_axes hshape

theorem transposed_eq_ok {perm : List Int} {u : MemDescTy} (hlength : perm.length = t.rank)
    (h : t.permute? perm = some u) : t.transposed perm = .ok u := by
  rw [transposed, if_neg (not_not.mpr hlength), h]

end MemDescTy

end Multistage
