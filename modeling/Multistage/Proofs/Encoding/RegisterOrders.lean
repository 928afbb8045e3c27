import Multistage.Proofs.Encoding.MemoryOrders

/-!
# Orders of registers

The order of the registers of a tensor should name each of its dimensions once. A blocked encoding
states it, an accumulator counts the dimensions down, and an operand of a product puts the
contracted dimension before its partner and the others behind them. An operand with one dimension
has no partner, and its order names one all the same: it has two entries, one of which is negative.
For the right operand this is the first entry, so that a copy into the generic shared layout, which
takes over the order, finds no fastest dimension. `registerOrder_exact` says that orders and copies
fail in these cases only.
-/

namespace Multistage

open SharedLayout (swapFront)

/-- Which operand of a product `t` is encoded as, if it is one. -/
def TensorTy.operandIndex? (t : TensorTy) : Option Int :=
  match t.encoding with
  | some (.encoding (.dotOperand index _ _)) => some index
  | some (.encoding (.looseDotOperand index _)) => some index
  | _ => none

/-! ## The order of an operand -/

theorem Encoding.dotOrder_one (index : Int) :
    dotOrder index 1 = if index = 1 then [-1, 0] else [0, -1] := by
  unfold dotOrder
  split <;> rfl

/-- `dotOrder` of the left operand is the row-major order, that of the right one has the last two
dimensions exchanged. -/
theorem Encoding.dotOrder_add_two (index : Int) (n : Nat) :
    dotOrder index ((n + 2 : Nat) : Int) =
      if index = 1 then swapFront (defaultOrder (n + 2)) else defaultOrder (n + 2) := by
  have hlast : ((n + 2 : Nat) : Int) - 1 = n + 1 := by omega
  have hnext : ((n + 2 : Nat) : Int) - 2 = n := by omega
  rw [dotOrder, hlast, hnext, Int.toNat_natCast, defaultOrder_add_two]
  split <;> rfl

theorem Encoding.perm_dotOrder_iff (index : Int) {rank : Nat} (hrank : 1 ≤ rank) :
    (dotOrder index rank).Perm (dimensions rank) ↔ rank ≠ 1 := by
  match rank, hrank with
  | 1, _ =>
    -- two entries are too many for one dimension
    refine ⟨fun hperm => ?_, fun hne => absurd rfl hne⟩
    have hlength := hperm.length_eq
    rw [Int.natCast_one, dotOrder_one] at hlength
    split at hlength <;> cases hlength
  | n + 2, _ =>
    refine ⟨fun _ => by omega, fun _ => ?_⟩
    rw [dotOrder_add_two]
    split
    · exact (SharedLayout.perm_swapFront _).trans (perm_defaultOrder _)
    · exact perm_defaultOrder _

/-! ## The order of a tensor -/

namespace TensorTy

variable {t : TensorTy}

theorem order_of_operandIndex? {index : Int} (h : t.operandIndex? = some index) :
    t.order = Encoding.dotOrder index t.rank := by
  unfold operandIndex? at h
  unfold order
  split at h
  · rename_i henc
    cases h
    rw [henc]
    rfl
  · rename_i henc
    cases h
    rw [henc]
    rfl
  · cases h

theorem perm_order_of_no_operand (h : t.operandIndex? = none)
    (hfit : ∀ b, t.encoding = some (.encoding (.blocked b)) → b.order.Perm (dimensions t.rank)) :
    t.order.Perm (dimensions t.rank) := by
  unfold operandIndex? at h
  unfold order
  split
  · rename_i e he
    rw [he] at h
    cases e with
    | blocked b => exact hfit b he
    | mma m =>
      show ((defaultOrder? t.rank).getD (defaultOrder t.rank)).Perm _
      unfold defaultOrder?
      split
      · exact perm_defaultOrder _
      · exact perm_defaultOrder _
    | dotOperand index kWidth parent => cases h
    | looseDotOperand index kWidth => cases h
    | shared s => exact perm_defaultOrder _
  · exact perm_defaultOrder _

/-- `t.order` names each dimension once, except for an operand with one dimension. -/
theorem perm_order_iff (hrank : 1 ≤ t.rank)
    (hfit : ∀ b, t.encoding = some (.encoding (.blocked b)) → b.order.Perm (dimensions t.rank)) :
    t.order.Perm (dimensions t.rank) ↔ ¬ (t.rank = 1 ∧ t.operandIndex?.isSome) := by
  cases hindex : t.operandIndex? with
  | none => simp [perm_order_of_no_operand hindex hfit]
  | some index =>
    rw [order_of_operandIndex? hindex, Encoding.perm_dotOrder_iff index hrank]
    simp

theorem exists_eq_cons_of_perm {order : List Int} {rank : Nat} (hrank : 1 ≤ rank)
    (h : order.Perm (dimensions rank)) :
    ∃ fast rest, order = fast :: rest ∧ 0 ≤ fast ∧ fast < rank := by
  have hlength := h.length_eq
  rw [length_dimensions] at hlength
  cases order with
  | nil => exact absurd hlength (by rw [List.length_nil]; omega)
  | cons fast rest =>
    exact ⟨fast, rest, rfl, mem_dimensions.mp (h.mem_iff.mp List.mem_cons_self)⟩

/-- The first entry of `t.order` is a dimension, except for a right operand with one dimension. -/
theorem exists_order_eq_cons (hrank : 1 ≤ t.rank)
    (hfit : ∀ b, t.encoding = some (.encoding (.blocked b)) → b.order.Perm (dimensions t.rank)) :
    ∃ fast rest, t.order = fast :: rest ∧
      ((0 ≤ fast ∧ fast < t.rank) ↔ ¬ (t.rank = 1 ∧ t.operandIndex? = some 1)) := by
  -- an order of all dimensions starts with one of them; the other orders are known entry by entry
  by_cases hperm : t.order.Perm (dimensions t.rank)
  · obtain ⟨fast, rest, horder, hfast⟩ := exists_eq_cons_of_perm hrank hperm
    refine ⟨fast, rest, horder, iff_of_true hfast fun ⟨hone, hright⟩ => ?_⟩
    exact (perm_order_iff hrank hfit).mp hperm ⟨hone, by rw [hright]; rfl⟩
  · rw [perm_order_iff hrank hfit, not_not] at hperm
    obtain ⟨hone, hoperand⟩ := hperm
    obtain ⟨index, hindex⟩ := Option.isSome_iff_exists.mp hoperand
    rw [order_of_operandIndex? hindex, hindex, hone, Int.natCast_one, Encoding.dotOrder_one]
    by_cases hright : index = 1
    · exact ⟨-1, [0], if_pos hright, by simp [hright]⟩
    · exact ⟨0, [-1], if_neg hright, by simp [hright]⟩

/-! ## Copies into the generic layout -/

theorem exists_elementsPerThread? {fast : Int} (h : 0 ≤ fast) :
    ∃ n, t.elementsPerThread? fast = some n := by
  unfold elementsPerThread?
  split
  · split
    · exact exists_pick?_iff.mpr ⟨h, ‹_›⟩
    · exact ⟨1, rfl⟩
  · exact ⟨1, rfl⟩

end TensorTy

/-- `copyVecBytes?` into the generic layout reads the shape of `t` at the fastest dimension of its
order only. -/
theorem exists_copyVecBytes?_iff {t : TensorTy} {fast : Int} {rest : List Int}
    (hrank : 1 ≤ t.rank) (horder : t.order = fast :: rest) :
    (∃ bytes, copyVecBytes? t (.swizzled t.genericShared) = some bytes) ↔
      0 ≤ fast ∧ fast < t.rank := by
  have hgeneric : SharedLayout.order (.swizzled t.genericShared) t.rank = fast :: rest := horder
  -- the extent is read at the fastest dimension, and so is the part of a thread
  have hread : (∃ bytes, copyVecBytes? t (.swizzled t.genericShared) = some bytes) ↔
      (∃ n, t.elementsPerThread? fast = some n) ∧ ∃ extent, pick? t.shape fast = some extent := by
    rw [copyVecBytes?, contiguousElements?, if_neg (by omega), horder, hgeneric]
    simp [Option.bind_eq_some_iff]
  rw [hread, exists_pick?_iff]
  exact ⟨And.right, fun hfast => ⟨TensorTy.exists_elementsPerThread? hfast.1, hfast⟩⟩

/-! ## Both together -/

/-- For a tensor with at least one dimension, whose blocked encoding (if it has one) states an order
of all dimensions: `t.order` is an order of all dimensions unless it is an operand with one
dimension, `genericShared` has that order, and `copyVecBytes?` into this layout has an answer unless
it is the right operand and has one dimension. -/
theorem registerOrder_exact {t : TensorTy} (hrank : 1 ≤ t.rank)
    (hfit : ∀ b, t.encoding = some (.encoding (.blocked b)) → b.order.Perm (dimensions t.rank)) :
    (t.order.Perm (dimensions t.rank) ↔ ¬ (t.rank = 1 ∧ t.operandIndex?.isSome)) ∧
    SharedLayout.order (.swizzled t.genericShared) t.rank = t.order ∧
    ((∃ bytes, copyVecBytes? t (.swizzled t.genericShared) = some bytes) ↔
      ¬ (t.rank = 1 ∧ t.operandIndex? = some 1)) := by
  obtain ⟨fast, rest, horder, hfast⟩ := TensorTy.exists_order_eq_cons hrank hfit
  exact ⟨TensorTy.perm_order_iff hrank hfit, rfl,
    (exists_copyVecBytes?_iff hrank horder).trans hfast⟩

/-- A matrix of which each thread holds eight consecutive rows of a column. -/
def columnMajor : TensorTy :=
  ⟨[64, 32], some .f16, some (.encoding (.blocked ⟨[8, 1], [8, 4], [1, 4], some [0, 1], .single 2⟩))⟩

theorem columnMajor_copied :
    columnMajor.order.Perm (dimensions 2) ∧
    SharedLayout.order (.swizzled columnMajor.genericShared) 2 = [0, 1] ∧
    ∃ bytes, copyVecBytes? columnMajor (.swizzled columnMajor.genericShared) = some bytes := by
  have hfit : ∀ b, columnMajor.encoding = some (.encoding (.blocked b)) →
      b.order.Perm (dimensions columnMajor.rank) := by
    rintro b ⟨⟩
    decide
  have hrank : ¬ columnMajor.rank = 1 := by decide
  obtain ⟨hperm, horder, hcopied⟩ := registerOrder_exact (t := columnMajor) (by decide) hfit
  exact ⟨hperm.mpr fun h => hrank h.1, horder, hcopied.mpr fun h => hrank h.1⟩

/-- A vector that is encoded as the right operand of a product. -/
def rightVector : TensorTy :=
  ⟨[16], some .f16,
    some (.encoding (.dotOperand 1 2 (.mma ⟨2, 0, [4, 1], [16, 8], .single 2⟩)))⟩

/-- The order of `rightVector` is none of its one dimension, and copying it reads the shape before
its start. -/
theorem rightVector_not_copied :
    rightVector.rank = 1 ∧ rightVector.order = [-1, 0] ∧
    ¬ rightVector.order.Perm (dimensions rightVector.rank) ∧
    ¬ (SharedLayout.order (.swizzled rightVector.genericShared) 1).Perm (dimensions 1) ∧
    copyVecBytes? rightVector (.swizzled rightVector.genericShared) = none := by
  decide

end Multistage
