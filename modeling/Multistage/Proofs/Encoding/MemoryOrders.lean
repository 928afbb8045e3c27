import Multistage.Proofs.Encoding.PermutedTypes

/-!
# Orders in memory under a permutation

The order of a permuted layout should be the order of the layout under the new names of the
dimensions (`Renames`). A swizzled layout states its order and always renames it. A layout for the
tensor cores has a flag for one of two orders, and only the exchange of two dimensions turns it: the
order is renamed for matrices, and beyond that for no permutation but the identity. So it is missed
also where the flag could have said it, which is where the last two of three or more dimensions are
exchanged (`SharedLayout.order_permute_iff`).
-/

namespace Multistage

open Equiv (Perm)

/-- Entry by entry, `new` has the place in `perm` of what `old` has. -/
def Renames (perm old new : List Int) : Prop :=
  new.length = old.length ∧
    ∀ (i : Nat) (d : Int), old[i]? = some d →
      ∃ j : Nat, new[i]? = some (j : Int) ∧ perm[j]? = some d

/-- `dimensions rank` with the last two exchanged. -/
def lastExchanged (rank : Nat) : List Int :=
  dimensions (rank - 2) ++ [(rank : Int) - 1, (rank : Int) - 2]

/-! ## Renamed orders -/

section Renaming

variable {rank : Nat}

/-- `Renames` leaves one order, which is `permuteOrder`. -/
theorem renames_iff {perm old new : List Int} (hperm : perm.Perm (dimensions rank))
    (hold : old.Perm (dimensions rank)) : Renames perm old new ↔ new = permuteOrder old perm := by
  obtain ⟨σ, rfl⟩ := exists_eq_axes hperm
  constructor
  · rintro ⟨hlength, hentries⟩
    apply List.ext_getElem?
    intro i
    rw [permuteOrder, List.getElem?_map]
    cases hi : old[i]? with
    | none =>
      rw [List.getElem?_eq_none_iff] at hi
      exact List.getElem?_eq_none_iff.mpr (hlength ▸ hi)
    | some d =>
      -- no dimension stands twice in a permutation, so its place there is the one that is found
      obtain ⟨j, hj, hd⟩ := hentries i d hi
      rw [hj, Option.map_some, renamed_of_getElem? (nodup_axes σ) hd]
  · rintro rfl
    refine ⟨List.length_map .., fun i d hi => ?_⟩
    -- the entries of the old order are dimensions, and each dimension has a place
    obtain ⟨ρ, rfl⟩ := exists_eq_axes hold
    obtain ⟨k, rfl⟩ := mem_axes.mp (List.mem_of_getElem? hi)
    refine ⟨σ.symm k, ?_, ?_⟩
    · rw [permuteOrder, List.getElem?_map, hi, Option.map_some, renamed_axes]
    · rw [getElem?_axes, Equiv.apply_symm_apply]

/-- `permuteOrder` composes with the inverse on the left. -/
theorem permuteOrder_axes_axes (ρ σ : Perm (Fin rank)) :
    permuteOrder (axes ρ) (axes σ) = axes (σ⁻¹ * ρ) := by
  rw [permuteOrder, map_axes]
  exact congrArg List.ofFn (funext fun i => renamed_axes σ (ρ i))

/-- `permuteOrder order` is injective. -/
theorem permuteOrder_inj {order : List Int} (horder : order.Perm (dimensions rank))
    {p q : List Int} (hp : p.Perm (dimensions rank)) (hq : q.Perm (dimensions rank)) :
    permuteOrder order p = permuteOrder order q ↔ p = q := by
  refine ⟨fun h => ?_, fun h => by rw [h]⟩
  obtain ⟨ρ, rfl⟩ := exists_eq_axes horder
  obtain ⟨σ, rfl⟩ := exists_eq_axes hp
  obtain ⟨τ, rfl⟩ := exists_eq_axes hq
  rw [permuteOrder_axes_axes, permuteOrder_axes_axes] at h
  rw [inv_injective (mul_right_cancel (axes_injective h))]

theorem permuteOrder_eq_self_iff {order : List Int} (horder : order.Perm (dimensions rank))
    {p : List Int} (hp : p.Perm (dimensions rank)) :
    permuteOrder order p = order ↔ p = dimensions rank := by
  have hsame : permuteOrder order (dimensions rank) = order :=
    permuteOrder_dimensions fun d hd => mem_dimensions.mp (horder.mem_iff.mp hd)
  rw [← permuteOrder_inj horder hp (.refl _), hsame]

theorem dimensions_add_two (n : Nat) :
    dimensions (n + 2) = dimensions n ++ [(n : Int), (n : Int) + 1] := by
  simp [dimensions, List.range_succ]

theorem lastExchanged_add_two (n : Nat) :
    lastExchanged (n + 2) = dimensions n ++ [(n : Int) + 1, (n : Int)] := by
  have hlast : ((n + 2 : Nat) : Int) - 1 = (n : Int) + 1 := by omega
  have hnext : ((n + 2 : Nat) : Int) - 2 = (n : Int) := by omega
  rw [lastExchanged, Nat.add_sub_cancel, hlast, hnext]

theorem perm_lastExchanged (hrank : 2 ≤ rank) : (lastExchanged rank).Perm (dimensions rank) := by
  obtain ⟨n, rfl⟩ := Nat.exists_eq_add_of_le' hrank
  rw [lastExchanged_add_two, dimensions_add_two]
  exact (List.Perm.swap ..).append_left _

theorem lastExchanged_ne_dimensions (hrank : 2 ≤ rank) : lastExchanged rank ≠ dimensions rank := by
  obtain ⟨n, rfl⟩ := Nat.exists_eq_add_of_le' hrank
  have hlast : (n : Int) + 1 ≠ n := by omega
  rw [lastExchanged_add_two, dimensions_add_two]
  simp [hlast]

theorem defaultOrder_add_two (n : Nat) :
    defaultOrder (n + 2) = ((n : Int) + 1) :: (n : Int) :: defaultOrder n := by
  simp [defaultOrder, List.range_succ]

theorem perm_defaultOrder (rank : Nat) : (defaultOrder rank).Perm (dimensions rank) := by
  rw [defaultOrder, dimensions, List.map_reverse]
  exact List.reverse_perm _

/-- `lastExchanged` renames each of the last two dimensions to the other one. -/
theorem renamed_lastExchanged (n : Nat) :
    renamed (lastExchanged (n + 2)) ((n : Int) + 1) = n ∧
      renamed (lastExchanged (n + 2)) n = (n : Int) + 1 ∧
      permuteOrder (defaultOrder n) (lastExchanged (n + 2)) = defaultOrder n := by
  have hnodup : (lastExchanged (n + 2)).Nodup :=
    (perm_lastExchanged (Nat.le_add_left 2 n)).nodup_iff.mpr (nodup_dimensions _)
  refine ⟨renamed_of_getElem? hnodup ?_, renamed_of_getElem? hnodup (j := n + 1) ?_, ?_⟩
  · simp [lastExchanged_add_two]
  · simp [lastExchanged_add_two]
  · refine (List.map_congr_left fun d hd => ?_).trans (List.map_id _)
    obtain ⟨h0, hd⟩ := mem_defaultOrder.mp hd
    obtain ⟨k, rfl⟩ := Int.eq_ofNat_of_zero_le h0
    have hk : k < n := Int.ofNat_lt.mp hd
    apply renamed_of_getElem? hnodup
    rw [lastExchanged_add_two, List.getElem?_append_left (by rwa [length_dimensions]),
      getElem?_dimensions hk]

end Renaming

/-! ## The two orders of the tensor cores -/

/-- The layout with the other `transposed` flag. -/
def NvMma.turned (n : NvMma) : NvMma := { n with transposed := !n.transposed }

namespace SharedLayout

theorem perm_swapFront {α : Type} (xs : List α) : (swapFront xs).Perm xs := by
  unfold swapFront
  split
  · exact List.Perm.swap ..
  · exact .refl _

theorem perm_order_nvMma (n : NvMma) (rank : Nat) :
    ((nvMma n).order rank).Perm (dimensions rank) := by
  rw [order]
  split
  · exact (perm_swapFront _).trans (perm_defaultOrder rank)
  · exact perm_defaultOrder rank

/-- `lastExchanged` turns one order of the tensor cores into the other. -/
theorem permuteOrder_lastExchanged (n : NvMma) {rank : Nat} (hrank : 2 ≤ rank) :
    permuteOrder ((nvMma n).order rank) (lastExchanged rank) = (nvMma n.turned).order rank := by
  obtain ⟨k, rfl⟩ := Nat.exists_eq_add_of_le' hrank
  obtain ⟨hlast, hnext, hrest⟩ := renamed_lastExchanged k
  unfold permuteOrder at hrest
  cases hflag : n.transposed <;>
    simp [order, NvMma.turned, hflag, defaultOrder_add_two, swapFront, permuteOrder, hlast, hnext,
      hrest]

/-- The layout is one of buffers with `rank` dimensions. -/
def Describes : SharedLayout → Nat → Prop
  | swizzled z, rank => z.order.Perm (dimensions rank)
  | nvMma n, rank => n.cta.order.length = rank

/-- Some layout of this kind has this `order`. -/
def Expresses : SharedLayout → Nat → List Int → Prop
  | swizzled _, rank, order => ∃ z, (swizzled z).order rank = order
  | nvMma _, rank, order => ∃ n, (nvMma n).order rank = order

variable {s s' : SharedLayout} {rank : Nat} {perm : List Int}

theorem Describes.perm_order (hs : s.Describes rank) : (s.order rank).Perm (dimensions rank) := by
  cases s with
  | swizzled z => exact hs
  | nvMma n => exact perm_order_nvMma n rank

theorem expresses_nvMma_iff (n : NvMma) {order : List Int} :
    (nvMma n).Expresses rank order ↔
      order = (nvMma n).order rank ∨ order = (nvMma n.turned).order rank := by
  constructor
  · rintro ⟨m, rfl⟩
    cases hm : m.transposed <;> cases hn : n.transposed <;>
      simp [SharedLayout.order, NvMma.turned, hm, hn]
  · rintro (rfl | rfl)
    · exact ⟨n, rfl⟩
    · exact ⟨n.turned, rfl⟩

theorem Describes.exists_permute?_iff (hs : s.Describes rank)
    (hperm : perm.Perm (dimensions rank)) :
    (∃ s', s.permute? perm = some s') ↔
      (s.cta.ctasPerCGA.length = rank → rank ≤ s.cta.splitNum.length) := by
  have hlength : perm.length = rank := hperm.length_eq.trans (length_dimensions rank)
  have hcta : (∃ s', s.permute? perm = some s') ↔ ∃ cta, s.cta.permute? perm = some cta := by
    cases s with
    | swizzled z =>
      rw [permute?_swizzled (hs.length_eq.trans hperm.length_eq.symm)]
      simp only [Option.map_eq_some_iff, exists_comm, exists_and_left, exists_eq', and_true]
      rfl
    | nvMma n =>
      rw [permute?_nvMma (Eq.trans hs hlength.symm)]
      simp only [Option.map_eq_some_iff, exists_comm, exists_and_left, exists_eq', and_true]
      rfl
  obtain ⟨σ, rfl⟩ := exists_eq_axes hperm
  rw [hcta, CTALayout.exists_permute?_axes_iff]

theorem order_of_permute?_nvMma {n : NvMma} (hlength : n.cta.order.length = perm.length)
    (h : (nvMma n).permute? perm = some s') (rank : Nat) :
    s'.order rank = (nvMma (if perm = [1, 0] then n.turned else n)).order rank := by
  rw [permute?_nvMma hlength] at h
  obtain ⟨cta, -, rfl⟩ := Option.map_eq_some_iff.mp h
  by_cases hflip : perm = [1, 0] <;> simp [order, NvMma.turned, hflip]

/-- A permutation of two dimensions exchanges them or leaves them. -/
theorem eq_dimensions_of_ne_exchange (hperm : perm.Perm (dimensions 2)) (hne : perm ≠ [1, 0]) :
    perm = dimensions 2 := by
  obtain ⟨σ, rfl⟩ := exists_eq_axes hperm
  revert σ
  decide

theorem Describes.renames_iff (hs : s.Describes rank) (hrank : 2 ≤ rank)
    (hperm : perm.Perm (dimensions rank)) (h : s.permute? perm = some s') :
    Renames perm (s.order rank) (s'.order rank) ↔
      (∃ z, s = swizzled z) ∨ rank = 2 ∨ perm = dimensions rank := by
  have horder := hs.perm_order
  rw [Multistage.renames_iff hperm horder]
  cases s with
  | swizzled z =>
    rw [permute?_swizzled (hs.length_eq.trans hperm.length_eq.symm)] at h
    obtain ⟨cta, -, rfl⟩ := Option.map_eq_some_iff.mp h
    exact iff_of_true rfl (.inl ⟨z, rfl⟩)
  | nvMma n =>
    have hlength : perm.length = rank := hperm.length_eq.trans (length_dimensions rank)
    rw [order_of_permute?_nvMma (Eq.trans hs hlength.symm) h]
    -- only the exchange of two dimensions turns the flag; without it the order stays what it was
    by_cases hflip : perm = [1, 0]
    · have htwo : rank = 2 := hlength.symm.trans (congrArg List.length hflip)
      subst htwo
      rw [if_pos hflip, hflip]
      exact iff_of_true (permuteOrder_lastExchanged n hrank).symm (.inr (.inl rfl))
    · rw [if_neg hflip, eq_comm, permuteOrder_eq_self_iff horder hperm]
      refine ⟨fun hid => .inr (.inr hid), ?_⟩
      rintro (⟨z, hz⟩ | rfl | hid)
      · exact nomatch hz
      · exact eq_dimensions_of_ne_exchange hperm hflip
      · exact hid

/-- The flag `transposed` can say the renamed order for two permutations only. -/
theorem expresses_permuteOrder_iff {n : NvMma} (hrank : 2 ≤ rank)
    (hperm : perm.Perm (dimensions rank)) :
    (nvMma n).Expresses rank (permuteOrder ((nvMma n).order rank) perm) ↔
      perm = dimensions rank ∨ perm = lastExchanged rank := by
  have horder := perm_order_nvMma n rank
  rw [expresses_nvMma_iff, permuteOrder_eq_self_iff horder hperm,
    ← permuteOrder_lastExchanged n hrank,
    permuteOrder_inj horder hperm (perm_lastExchanged hrank)]

/-- `permute?` has an answer unless the layout spreads dimensions over blocks without a number of
parts. The order of the permuted layout is the one that `Renames` for a swizzled layout, for
`rank = 2` and for the identity, and in no other case. Where a layout of the kind `Expresses` the
renamed order at all, this leaves out one permutation of a layout for the tensor cores:
`lastExchanged` for at least three dimensions. -/
theorem order_permute_iff {s : SharedLayout} {rank : Nat} {perm : List Int} (hrank : 2 ≤ rank)
    (hs : s.Describes rank) (hperm : perm.Perm (dimensions rank)) :
    ((∃ s', s.permute? perm = some s') ↔
        (s.cta.ctasPerCGA.length = rank → rank ≤ s.cta.splitNum.length)) ∧
      ∀ s', s.permute? perm = some s' →
        (Renames perm (s.order rank) (s'.order rank) ↔
          (∃ z, s = swizzled z) ∨ rank = 2 ∨ perm = dimensions rank) ∧
        ∀ order, Renames perm (s.order rank) order → s.Expresses rank order →
          (s'.order rank ≠ order ↔
            (∃ n, s = nvMma n) ∧ 3 ≤ rank ∧ perm = lastExchanged rank) := by
  refine ⟨hs.exists_permute?_iff hperm, fun s' h => ?_⟩
  have hrenames := hs.renames_iff hrank hperm h
  refine ⟨hrenames, fun order horder hexpresses => ?_⟩
  obtain rfl := (Multistage.renames_iff hperm hs.perm_order).mp horder
  rw [ne_eq, ← Multistage.renames_iff hperm hs.perm_order, hrenames]
  cases s with
  | swizzled z => exact iff_of_false (fun h => h (.inl ⟨z, rfl⟩)) (fun h => nomatch h.1)
  | nvMma n =>
    have hne := lastExchanged_ne_dimensions hrank
    -- two permutations have an order that the flag can say, and the identity is followed
    rcases (expresses_permuteOrder_iff hrank hperm).mp hexpresses with rfl | rfl
    · exact iff_of_false (fun h => h (.inr (.inr rfl))) (fun h => hne h.2.2.symm)
    · constructor
      · intro h
        have htwo : rank ≠ 2 := fun htwo => h (.inr (.inl htwo))
        exact ⟨⟨n, rfl⟩, by omega, rfl⟩
      · rintro ⟨-, hthree, -⟩ (⟨z, hz⟩ | htwo | hid)
        · exact nomatch hz
        · omega
        · exact hne hid

/-- The swizzled layout of a batch of matrices that is split over the cluster. -/
def swizzledBatch : SharedLayout :=
  swizzled ⟨8, 1, 8, some [2, 0, 1], ⟨[1, 2, 4], [1, 2, 2], [2, 1, 0]⟩⟩

theorem swizzledBatch_turned :
    swizzledBatch.Describes 3 ∧ [1, 2, 0].Perm (dimensions 3) ∧
      ∃ s', swizzledBatch.permute? [1, 2, 0] = some s' ∧
        Renames [1, 2, 0] (swizzledBatch.order 3) (s'.order 3) := by
  have hdescribes : swizzledBatch.Describes 3 := by
    show [2, 0, 1].Perm (dimensions 3)
    decide
  have hturn : [1, 2, 0].Perm (dimensions 3) := by decide
  obtain ⟨hexists, hrenames⟩ := order_permute_iff (by decide) hdescribes hturn
  obtain ⟨s', hs'⟩ := hexists.mpr (by decide)
  exact ⟨hdescribes, hturn, s', hs', (hrenames s' hs').1.mpr (.inl ⟨_, rfl⟩)⟩

/-- The `nvMma` layout of a batch of matrices. -/
def tensorCoreBatch : SharedLayout := nvMma ⟨128, false, 16, false, .single 3⟩

/-- In `tensorCoreBatch` the matrices are transposed, and the flag could say so, but the order
stays. -/
theorem tensorCoreBatch_keeps_order :
    tensorCoreBatch.Describes 3 ∧ [0, 2, 1].Perm (dimensions 3) ∧
      Renames [0, 2, 1] (tensorCoreBatch.order 3) [1, 2, 0] ∧
      tensorCoreBatch.Expresses 3 [1, 2, 0] ∧
      ∃ s', tensorCoreBatch.permute? [0, 2, 1] = some s' ∧ s'.order 3 = [2, 1, 0] := by
  have hexchange : [0, 2, 1].Perm (dimensions 3) := by decide
  refine ⟨rfl, hexchange, ?_, ⟨⟨128, true, 16, false, .single 3⟩, rfl⟩, _, rfl, rfl⟩
  exact (Multistage.renames_iff hexchange (perm_order_nvMma _ 3)).mpr rfl

end SharedLayout

end Multistage
