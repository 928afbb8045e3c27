import Multistage.Proofs.Encoding.PermutedTypes
import Multistage.Proofs.Text.TypeTexts

/-!
# Transposed buffer types

Transposing a buffer type is an action of the permutations of its dimensions, if all lists of its
layout speak of the same dimensions (`Coherent`): it succeeds, one permutation after another is the
composed one, the identity changes nothing, and so a permutation is undone by its inverse
(`MemDescTy.transposed_action`).
-/

namespace Multistage

open Equiv (Perm)

/-! ## The identity -/

theorem dimensions_ne_exchange (rank : Nat) : dimensions rank ≠ [1, 0] := by
  cases rank <;> simp [dimensions, List.range_succ_eq_map]

theorem permuteShape?_dimensions (rank : Nat) (shape : List Int) :
    permuteShape? shape (dimensions rank) = some shape := by
  -- lists of another length are not permuted at all
  by_cases hlength : shape.length = rank
  · obtain ⟨f, rfl⟩ := exists_eq_ofFn hlength
    rw [← axes_one]
    exact permuteShape?_ofFn f 1
  · exact permuteShape?_of_length_ne (by rwa [length_dimensions])

namespace CTALayout

/-- All three lists of `c` speak of the same dimensions. -/
structure Coherent (c : CTALayout) : Prop where
  split : c.splitNum.length = c.ctasPerCGA.length
  length : c.order.length = c.ctasPerCGA.length
  names : ∀ d ∈ c.order, 0 ≤ d ∧ d < c.order.length

theorem Coherent.permute?_dimensions {c : CTALayout} (hc : c.Coherent) (rank : Nat) :
    c.permute? (dimensions rank) = some c := by
  by_cases hlength : c.ctasPerCGA.length = rank
  · have horder : permuteOrder c.order (dimensions rank) = c.order :=
      permuteOrder_dimensions (by rw [← hlength, ← hc.length]; exact hc.names)
    obtain ⟨ctas, split, order⟩ := c
    obtain ⟨f, rfl⟩ := exists_eq_ofFn hlength
    obtain ⟨g, rfl⟩ := exists_eq_ofFn (hc.split.trans hlength)
    rw [← axes_one, permute?_ofFn, axes_one, horder]
    rfl
  · exact permute?_of_length_ne (by rwa [length_dimensions])

end CTALayout

namespace SharedLayout

/-- All lists of the layout, and of its `cta`, speak of the same dimensions. -/
def Coherent : SharedLayout → Prop
  | swizzled z => z.cta.Coherent ∧ ∀ d ∈ z.order, 0 ≤ d ∧ d < z.order.length
  | nvMma n => n.cta.Coherent

theorem Coherent.cta {s : SharedLayout} (h : s.Coherent) : s.cta.Coherent := by
  cases s with
  | swizzled z => exact h.1
  | nvMma n => exact h

/-- `permute? (dimensions rank)` gives a layout that is the same as `stated`: one that states no
order counts as one that states the empty order. -/
theorem Coherent.permute?_dimensions {s : SharedLayout} (hs : s.Coherent) (rank : Nat) :
    ∃ s', s.permute? (dimensions rank) = some s' ∧ s'.stated = s.stated := by
  have hrank := length_dimensions rank
  have hcta := hs.cta.permute?_dimensions rank
  cases s with
  | swizzled z =>
    by_cases hlength : z.order.length = rank
    · have horder : permuteOrder z.order (dimensions rank) = z.order :=
        permuteOrder_dimensions (hlength ▸ hs.2)
      refine ⟨swizzled z.stated, ?_, rfl⟩
      rw [permute?_swizzled (hlength.trans hrank.symm), horder]
      exact congrArg (Option.map _) hcta
    · exact ⟨_, permute?_swizzled_of_length_ne (by rwa [hrank]), rfl⟩
  | nvMma n =>
    by_cases hlength : n.cta.order.length = rank
    · refine ⟨nvMma n, ?_, rfl⟩
      -- the identity is not the exchange of two dimensions, so the layout is not marked as
      -- transposed
      rw [permute?_nvMma (hlength.trans hrank.symm),
        decide_eq_false (dimensions_ne_exchange rank), Bool.xor_false]
      exact congrArg (Option.map _) hcta
    · exact ⟨_, permute?_nvMma_of_length_ne (by rwa [hrank]), rfl⟩

end SharedLayout

namespace MemDescTy

variable {t : MemDescTy}

/-- The lists of a layout of shared memory are `Coherent`. These need not speak of as many
dimensions as the buffer has, and the buffer may have another layout or none. -/
def Coherent (t : MemDescTy) : Prop :=
  ∀ s, t.encoding = some (.encoding (.shared s)) → s.Coherent

theorem Coherent.permuteEncoding?_dimensions (ht : t.Coherent) (rank : Nat) :
    ∃ enc, permuteEncoding? t.encoding (dimensions rank) = some enc ∧
      enc.map Attr.stated = t.encoding.map Attr.stated := by
  by_cases hshared : ∃ s, t.encoding = some (.encoding (.shared s))
  · obtain ⟨s, hs⟩ := hshared
    obtain ⟨s', hs', hstated⟩ := (ht s hs).permute?_dimensions rank
    refine ⟨some (.encoding (.shared s')), ?_, ?_⟩
    · rw [hs, permuteEncoding?_shared hs']
    · rw [hs]
      exact congrArg (fun l => some (Attr.encoding (.shared l))) hstated
  · exact ⟨t.encoding, permuteEncoding?_of_not_shared _ hshared, rfl⟩

/-- `transposed` does not change the rank, so the lists of all that follow have the right length. -/
theorem Coherent.transposed_axes (ht : t.Coherent) (σ : Perm (Fin t.rank)) :
    ∃ u, t.transposed (axes σ) = .ok u ∧ ∀ τ : Perm (Fin t.rank),
      ∃ v, u.transposed (axes τ) = .ok v ∧ t.transposed (axes (σ * τ)) = .ok v := by
  have hacts := actsAt_permute? t.rank fun s hs => (ht s hs).cta.split
  obtain ⟨u, hu, hnext⟩ := hacts σ
  refine ⟨u, transposed_eq_ok (length_axes σ) hu, fun τ => ?_⟩
  -- a composed permutation succeeds as every one does, and its result is that of the two steps
  obtain ⟨v, hv⟩ := hacts.exists_eq_some (σ * τ)
  have hrank : (axes τ).length = u.rank := by rw [length_axes, rank_of_permute?_axes hu]
  exact ⟨v, transposed_eq_ok hrank ((hnext τ).trans hv), transposed_eq_ok (length_axes _) hv⟩

theorem Coherent.transposed_dimensions (ht : t.Coherent) :
    ∃ enc, t.transposed (dimensions t.rank) = .ok { t with encoding := enc } ∧
      enc.map Attr.stated = t.encoding.map Attr.stated := by
  obtain ⟨enc, henc, hstated⟩ := ht.permuteEncoding?_dimensions t.rank
  have hpermuted := permute?_eq_some (permuteShape?_dimensions t.rank t.shape) henc
    (permuteShape?_dimensions t.rank t.allocShape)
  exact ⟨enc, transposed_eq_ok (length_dimensions _) hpermuted, hstated⟩

/-- `transposed` is an action of the permutations of the dimensions of `t`. It succeeds for every
one of them; one after another is the composed one (`after`); the identity gives the type back, and
so does the inverse of a permutation after it. A layout of shared memory that states no order counts
as one that states the empty order. -/
theorem transposed_action {t : MemDescTy} (ht : t.Coherent) {p q : List Int}
    (hp : p.Perm (dimensions t.rank)) (hq : q.Perm (dimensions t.rank)) :
    (∃ u v, t.transposed p = .ok u ∧ u.transposed q = .ok v ∧ t.transposed (after p q) = .ok v) ∧
      (∃ enc, t.transposed (dimensions t.rank) = .ok { t with encoding := enc } ∧
        enc.map Attr.stated = t.encoding.map Attr.stated) ∧
      after p (inverse p) = dimensions t.rank ∧ after (inverse p) p = dimensions t.rank ∧
      ∃ u enc, t.transposed p = .ok u ∧
        u.transposed (inverse p) = .ok { t with encoding := enc } ∧
        enc.map Attr.stated = t.encoding.map Attr.stated := by
  -- lists become permutations, where composition and inverse are those of the group
  obtain ⟨σ, rfl⟩ := exists_eq_axes hp
  obtain ⟨τ, rfl⟩ := exists_eq_axes hq
  obtain ⟨u, hu, hnext⟩ := ht.transposed_axes σ
  obtain ⟨enc, hid, hstated⟩ := ht.transposed_dimensions
  rw [after_axes, inverse_axes, after_axes, after_axes, mul_inv_cancel, inv_mul_cancel, axes_one]
  refine ⟨?_, ⟨enc, hid, hstated⟩, rfl, rfl, u, enc, hu, ?_, hstated⟩
  · obtain ⟨v, hv, hv'⟩ := hnext τ
    exact ⟨u, v, hu, hv, hv'⟩
  · obtain ⟨v, hv, hv'⟩ := hnext σ⁻¹
    rw [mul_inv_cancel, axes_one, hid] at hv'
    rwa [← Except.ok.inj hv'] at hv

/-- A view of one of three stages that each hold a batch of matrices. Its layout is split over the
cluster and its allocation has a dimension more. -/
def stagedBatch : MemDescTy where
  shape := [16, 64, 32]
  elem := some .f16
  encoding := some (.encoding (.shared (.swizzled
    ⟨8, 1, 8, some [2, 0, 1], ⟨[1, 2, 4], [1, 2, 2], [2, 1, 0]⟩⟩)))
  memorySpace := some .sharedMemory
  isMutable := true
  allocShape := [3, 16, 64, 32]

/-- Turning the dimensions of `stagedBatch` round and exchanging the last two is exchanging the
first two, and turning them back gives the view that was there. -/
theorem stagedBatch_turned :
    stagedBatch.Coherent ∧ [1, 2, 0].Perm (dimensions stagedBatch.rank) ∧
      [0, 2, 1].Perm (dimensions stagedBatch.rank) ∧
      (∃ u v, stagedBatch.transposed [1, 2, 0] = .ok u ∧ u.transposed [0, 2, 1] = .ok v ∧
        stagedBatch.transposed [1, 0, 2] = .ok v) ∧
      ∃ u enc, stagedBatch.transposed [1, 2, 0] = .ok u ∧
        u.transposed [2, 0, 1] = .ok { stagedBatch with encoding := enc } ∧
        enc.map Attr.stated = stagedBatch.encoding.map Attr.stated := by
  have hcoherent : stagedBatch.Coherent := by
    intro s hs
    cases hs
    exact ⟨⟨rfl, rfl, by decide⟩, by decide⟩
  have hturn : [1, 2, 0].Perm (dimensions stagedBatch.rank) := by decide
  have hexchange : [0, 2, 1].Perm (dimensions stagedBatch.rank) := by decide
  obtain ⟨htwice, -, -, -, hback⟩ := transposed_action hcoherent hturn hexchange
  exact ⟨hcoherent, hturn, hexchange, htwice, hback⟩

end MemDescTy

end Multistage
