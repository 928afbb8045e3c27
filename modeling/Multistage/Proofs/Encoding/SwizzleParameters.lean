import Mathlib.Algebra.Group.Int.Defs
import Multistage.Proofs.Encoding.DotUsers

/-!
# The numbers of a swizzled layout

The layout from which an operand of a product is loaded is computed by four divisions, one after
the other: the shape by the split over the cluster, a row by the chunk of a thread, the banks by the
row, the stride by the phase. A fifth one, by the width of an element, decides whether there is a
swizzle at all. Each of the four quotients may come out as zero, and then 1 is taken in its place
before anything is divided by it. So no division is by zero: every split is positive
(`CTALayout.splitOf_pos`), and where another divisor vanishes there would be no layout (`quotient?`).
The numbers of the layout are at least 1, and they are powers of two if what they are computed from
are powers of two (`Swizzled.parameters_wellFormed`).
-/

namespace Multistage

theorem CTALayout.splitOf_pos (c : CTALayout) (i : Nat) : 0 < c.splitOf i := by
  unfold splitOf
  split
  · split
    · assumption
    · exact Int.one_pos
  · exact Int.one_pos

/-! ## Powers of two -/

/-- `n` is two to some power. -/
def IsPowerOfTwo (n : Int) : Prop := ∃ m : Nat, m.isPowerOfTwo ∧ n = m

namespace IsPowerOfTwo

variable {a b : Int}

theorem one : IsPowerOfTwo 1 := ⟨1, Nat.isPowerOfTwo_one, rfl⟩

theorem eight : IsPowerOfTwo 8 := ⟨8, ⟨3, rfl⟩, rfl⟩

theorem pos (h : IsPowerOfTwo a) : 0 < a := by
  obtain ⟨m, hm, rfl⟩ := h
  exact Int.natCast_pos.mpr (Nat.pos_of_isPowerOfTwo hm)

theorem mul_four (h : IsPowerOfTwo a) : IsPowerOfTwo (a * 4) := by
  obtain ⟨_, ⟨k, rfl⟩, rfl⟩ := h
  exact ⟨_, ⟨k + 2, rfl⟩, by rw [Nat.pow_add]; rfl⟩

/-- `tdiv` of powers of two is one as well, unless it vanishes. -/
theorem tdiv (ha : IsPowerOfTwo a) (hb : IsPowerOfTwo b) :
    a.tdiv b = 0 ∨ IsPowerOfTwo (a.tdiv b) := by
  obtain ⟨_, ⟨j, rfl⟩, rfl⟩ := ha
  obtain ⟨_, ⟨k, rfl⟩, rfl⟩ := hb
  rw [← Int.ofNat_tdiv]
  -- the quotient vanishes if the power below is the higher one
  rcases Nat.lt_or_ge j k with hlt | hle
  · left
    rw [Nat.div_eq_of_lt (Nat.pow_lt_pow_right (by decide) hlt)]
    rfl
  · exact .inr ⟨_, ⟨j - k, Nat.pow_div hle (by decide)⟩, rfl⟩

/-- `tdiv` of powers of two, brought back to 1. -/
theorem max_tdiv (ha : IsPowerOfTwo a) (hb : IsPowerOfTwo b) : IsPowerOfTwo (max (a.tdiv b) 1) := by
  rcases ha.tdiv hb with hzero | hpower
  · rw [hzero]
    exact one
  · have hone : 1 ≤ a.tdiv b := hpower.pos
    rwa [Int.max_eq_left hone]

end IsPowerOfTwo

theorem CTALayout.isPowerOfTwo_splitOf {c : CTALayout}
    (h : ∀ n ∈ c.splitNum, 0 < n → IsPowerOfTwo n) (i : Nat) : IsPowerOfTwo (c.splitOf i) := by
  unfold splitOf
  split
  · rename_i n hn
    split
    · exact h n (List.mem_of_getElem? hn) ‹_›
    · exact .one
  · exact .one

theorem CTALayout.isPowerOfTwo_of_mem_shapePerCTA {c : CTALayout} {shape : List Int} {extent : Int}
    (hshape : ∀ d ∈ shape, IsPowerOfTwo d) (hsplit : ∀ n ∈ c.splitNum, 0 < n → IsPowerOfTwo n)
    (h : extent ∈ c.shapePerCTA shape) : IsPowerOfTwo extent := by
  rw [shapePerCTA, List.mem_mapIdx] at h
  obtain ⟨i, hi, rfl⟩ := h
  exact (hshape _ (List.getElem_mem hi)).max_tdiv (isPowerOfTwo_splitOf hsplit i)

/-- `shapePerCTA` has no larger extent than the whole `shape`. -/
theorem CTALayout.le_of_mem_shapePerCTA {c : CTALayout} {shape : List Int} {extent bound : Int}
    (hbound : 1 ≤ bound) (hshape : ∀ d ∈ shape, d ≤ bound) (h : extent ∈ c.shapePerCTA shape) :
    extent ≤ bound := by
  rw [shapePerCTA, List.mem_mapIdx] at h
  obtain ⟨i, hi, rfl⟩ := h
  have hd := hshape _ (List.getElem_mem hi)
  refine Int.max_le.mpr ⟨?_, hbound⟩
  -- the quotient is cut towards zero, so it is not above a dimension that is not negative
  rcases Int.le_total 0 shape[i] with hnonneg | hneg
  · exact Int.le_trans (Int.tdiv_le_self _ hnonneg) hd
  · have hquotient := Int.tdiv_nonneg (Int.neg_nonneg_of_nonpos hneg)
      (Int.le_of_lt (c.splitOf_pos i))
    rw [Int.neg_tdiv] at hquotient
    omega

theorem isPowerOfTwo_of_rowsPerPhase? {elems rows : Int} (h : elems = 0 ∨ IsPowerOfTwo elems)
    (hrows : rowsPerPhase? elems = some rows) : IsPowerOfTwo rows := by
  rcases h with rfl | h
  · cases hrows
    exact .one
  · rw [rowsPerPhase?, if_pos h.pos, quotient?_of_pos 128 h.pos] at hrows
    cases hrows
    exact IsPowerOfTwo.max_tdiv ⟨128, ⟨7, rfl⟩, rfl⟩ h

/-! ## The numbers of the layout -/

/-- What `forDotOperand?` can give: `plain`, or the chunk of a thread and the rows of a tile as the
two sides. -/
theorem Swizzled.forDotOperand?_cases {index kWidth : Int} {parent : Option Encoding}
    {shape order : List Int} {cta : CTALayout} {bitWidth : Int} {s : Swizzled}
    (h : forDotOperand? index kWidth parent shape order cta bitWidth = some s) :
    s = plain order cta ∨
    0 < kWidth ∧ ∃ extent ∈ cta.shapePerCTA shape, ∃ stride,
      (s.vec = wrap64 (4 * kWidth) ∧ stride = 8 ∨ s.vec = 8 ∧ stride = wrap64 (4 * kWidth)) ∧
      rowsPerPhase? ((wrap64 (extent * 4)).tdiv kWidth) = some s.perPhase ∧
      s.maxPhase = max (stride.tdiv s.perPhase) 1 := by
  unfold forDotOperand? at h
  split at h
  · split at h
    · exact .inl (Option.some.inj h).symm
    · rename_i m hguard
      simp only [Bool.or_eq_true, decide_eq_true_eq, not_or] at hguard
      have hwidths : 0 < kWidth ∧ 0 < bitWidth := by omega
      obtain ⟨fast, hfast, h⟩ := Option.bind_eq_some_iff.mp h
      rw [quotient?_of_pos 32 hwidths.2, Option.bind_eq_bind, Option.bind_some] at h
      dsimp only at h
      -- which dimension is contracted decides whether the layout is swizzled, not how
      generalize (if index = 1 then _ else _ : Int) = inner at h
      split at h
      · exact .inl (Option.some.inj h).symm
      · obtain ⟨extent, hextent, h⟩ := Option.bind_eq_some_iff.mp h
        rw [quotient?_of_pos _ hwidths.1, Option.bind_some] at h
        obtain ⟨perPhase, hperPhase, h⟩ := Option.bind_eq_some_iff.mp h
        obtain ⟨rows, hrows, hone⟩ := exists_rowsPerPhase? ((wrap64 (extent * 4)).tdiv kWidth)
        cases hrows.symm.trans hperPhase
        rw [quotient?_of_pos _ (by omega), Option.bind_some] at h
        cases h
        refine .inr ⟨hwidths.1, extent, mem_of_pick? hextent, _, ?_, hperPhase, rfl⟩
        dsimp only
        generalize (if index = 0 then _ else _ : Bool) = alongDepth
        cases alongDepth with
        | true => exact .inl ⟨rfl, rfl⟩
        | false => exact .inr ⟨rfl, rfl⟩
  · exact .inl (Option.some.inj h).symm

theorem wrap64_four_mul {n : Int} (hpos : 0 < n) (hbound : n ≤ 2 ^ 56) :
    wrap64 (4 * n) = 4 * n :=
  wrap64_eq_self (by omega) (by omega)

namespace Swizzled

variable {index kWidth : Int} {parent : Option Encoding} {shape order : List Int} {cta : CTALayout}
  {bitWidth : Int} {s : Swizzled}

theorem one_le_parameters (hkWidth : kWidth ≤ 2 ^ 56)
    (h : forDotOperand? index kWidth parent shape order cta bitWidth = some s) :
    1 ≤ s.vec ∧ 1 ≤ s.perPhase ∧ 1 ≤ s.maxPhase := by
  rcases forDotOperand?_cases h with rfl | ⟨hpos, extent, -, stride, hsides, hperPhase, hmaxPhase⟩
  · exact ⟨Int.le_refl 1, Int.le_refl 1, Int.le_refl 1⟩
  · rw [wrap64_four_mul hpos hkWidth] at hsides
    obtain ⟨rows, hrows, hone⟩ := exists_rowsPerPhase? ((wrap64 (extent * 4)).tdiv kWidth)
    cases hrows.symm.trans hperPhase
    refine ⟨by omega, hone, ?_⟩
    · rw [hmaxPhase]
      exact Int.le_max_right _ 1

theorem isPowerOfTwo_parameters (hbound : ∀ d ∈ shape, d ≤ 2 ^ 56) (hkWidth : kWidth ≤ 2 ^ 56)
    (hshape : ∀ d ∈ shape, IsPowerOfTwo d) (hsplit : ∀ n ∈ cta.splitNum, 0 < n → IsPowerOfTwo n)
    (hchunk : IsPowerOfTwo kWidth)
    (h : forDotOperand? index kWidth parent shape order cta bitWidth = some s) :
    IsPowerOfTwo s.vec ∧ IsPowerOfTwo s.perPhase ∧ IsPowerOfTwo s.maxPhase := by
  rcases forDotOperand?_cases h with
    rfl | ⟨hpos, extent, hextent, stride, hsides, hperPhase, hmaxPhase⟩
  · exact ⟨.one, .one, .one⟩
  · have hpower := CTALayout.isPowerOfTwo_of_mem_shapePerCTA hshape hsplit hextent
    have hle := CTALayout.le_of_mem_shapePerCTA (by decide) hbound hextent
    -- within the bounds the two products do not wrap around
    rw [wrap64_four_mul hpos hkWidth, Int.mul_comm] at hsides
    rw [Int.mul_comm, wrap64_four_mul hpower.pos hle, Int.mul_comm] at hperPhase
    have hphase : IsPowerOfTwo s.perPhase :=
      isPowerOfTwo_of_rowsPerPhase? (hpower.mul_four.tdiv hchunk) hperPhase
    have hvec : IsPowerOfTwo s.vec ∧ IsPowerOfTwo stride := by
      rcases hsides with ⟨hvec, rfl⟩ | ⟨hvec, rfl⟩
      · exact ⟨hvec ▸ hchunk.mul_four, .eight⟩
      · exact ⟨hvec ▸ .eight, hchunk.mul_four⟩
    exact ⟨hvec.1, hphase, hmaxPhase ▸ hvec.2.max_tdiv hphase⟩

/-- For every `order` of the dimensions of the `shape`, `forDotOperand?` gives a layout. So it reads
no dimension that is not there and divides by zero nowhere: no `quotient?` is missing, and the shape
is split by positive numbers. The numbers of the layout are at least 1, and they are powers of two if
the dimensions, `kWidth` and the splits over the cluster are. -/
theorem parameters_wellFormed (horder : order.Perm (dimensions shape.length))
    (hbound : ∀ d ∈ shape, d ≤ 2 ^ 56) (hkWidth : kWidth ≤ 2 ^ 56) :
    ∃ s, forDotOperand? index kWidth parent shape order cta bitWidth = some s ∧
      (∀ i, 0 < cta.splitOf i) ∧ 1 ≤ s.vec ∧ 1 ≤ s.perPhase ∧ 1 ≤ s.maxPhase ∧
      ((∀ d ∈ shape, IsPowerOfTwo d) → (∀ n ∈ cta.splitNum, 0 < n → IsPowerOfTwo n) →
        IsPowerOfTwo kWidth →
        IsPowerOfTwo s.vec ∧ IsPowerOfTwo s.perPhase ∧ IsPowerOfTwo s.maxPhase) := by
  obtain ⟨s, hs⟩ := Buffer.forDotOperand?_isSome (fun _ => .of_perm horder) index kWidth parent cta
    bitWidth
  obtain ⟨hvec, hperPhase, hmaxPhase⟩ := one_le_parameters hkWidth hs
  refine ⟨s, hs, cta.splitOf_pos, hvec, hperPhase, hmaxPhase, ?_⟩
  intro hshape hsplit hchunk
  exact isPowerOfTwo_parameters hbound hkWidth hshape hsplit hchunk hs

/-- The split of a batch of matrices over more blocks than they have columns. -/
def fineSplit : CTALayout := ⟨[1, 1, 64], [1, 1, 64], [2, 1, 0]⟩

/-- The right operand of a batch of products, split by `fineSplit`, with rows shorter than the chunk
of a thread: two of the four quotients vanish. -/
theorem parameters_of_short_rows :
    [2, 1, 0].Perm (dimensions 3) ∧
    (∀ d ∈ [4, 2, 16], IsPowerOfTwo d) ∧ (∀ n ∈ fineSplit.splitNum, 0 < n → IsPowerOfTwo n) ∧
    ∃ s, forDotOperand? 1 32 (some (.mma ⟨3, 0, [4, 1], [16, 8], .single 2⟩)) [4, 2, 16] [2, 1, 0]
        fineSplit 16 = some s ∧
      s.vec = 8 ∧ s.perPhase = 1 ∧ s.maxPhase = 128 ∧
      IsPowerOfTwo s.vec ∧ IsPowerOfTwo s.perPhase ∧ IsPowerOfTwo s.maxPhase := by
  have hpower (k : Nat) : IsPowerOfTwo ((2 ^ k : Nat) : Int) := ⟨_, ⟨k, rfl⟩, rfl⟩
  have horder : [2, 1, 0].Perm (dimensions 3) := by decide
  have hshape : ∀ d ∈ [4, 2, 16], IsPowerOfTwo d := by
    simp only [List.forall_mem_cons]
    exact ⟨hpower 2, hpower 1, hpower 4, fun _ h => absurd h List.not_mem_nil⟩
  have hsplit : ∀ n ∈ fineSplit.splitNum, 0 < n → IsPowerOfTwo n := by
    simp only [fineSplit, List.forall_mem_cons]
    exact ⟨fun _ => .one, fun _ => .one, fun _ => hpower 6, fun _ h => absurd h List.not_mem_nil⟩
  obtain ⟨s, hs, -, -, -, -, hpowers⟩ := @parameters_wellFormed 1 32
    (some (.mma ⟨3, 0, [4, 1], [16, 8], .single 2⟩)) [4, 2, 16] [2, 1, 0] fineSplit 16
    horder (by decide) (by decide)
  have hvalue : forDotOperand? 1 32 (some (.mma ⟨3, 0, [4, 1], [16, 8], .single 2⟩)) [4, 2, 16]
      [2, 1, 0] fineSplit 16 = some ⟨8, 1, 128, some [2, 1, 0], fineSplit⟩ := by decide
  cases hs.symm.trans hvalue
  exact ⟨horder, hshape, hsplit, _, hs, rfl, rfl, rfl, hpowers hshape hsplit (hpower 5)⟩

end Swizzled

end Multistage
