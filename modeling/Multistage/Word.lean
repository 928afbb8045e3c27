/-!
# Machine words

Extents, widths and counts are 64-bit signed words. They are kept as integers, and the operations
whose result may leave the range of a word bring it back by wrapping around.
-/

namespace Multistage

/-- The signed 64-bit word that is congruent to `n`. -/
def wrap64 (n : Int) : Int := n.bmod 18446744073709551616

theorem wrap64_lt (n : Int) : wrap64 n < 9223372036854775808 :=
  Int.bmod_lt (by decide)

theorem le_wrap64 (n : Int) : -9223372036854775808 ≤ wrap64 n :=
  Int.le_bmod (by decide)

/-- A number that is a word stays as it is. -/
theorem wrap64_eq_self {n : Int} (hlo : -9223372036854775808 ≤ n)
    (hhi : n < 9223372036854775808) : wrap64 n = n := by
  rw [wrap64, Int.bmod_def]
  omega

/-- The signed 32-bit word that is congruent to `n`. -/
def wrap32 (n : Int) : Int := n.bmod 4294967296

/-- The entry of `xs` at position `i`, if `i` is a position of it. -/
def pick? {α : Type} (xs : List α) (i : Int) : Option α :=
  if i < 0 then none else xs[i.toNat]?

theorem pick?_ofNat {α : Type} (xs : List α) (i : Nat) : pick? xs i = xs[i]? := by
  rw [pick?, if_neg (by omega), Int.toNat_natCast]

theorem pick?_of_neg {α : Type} (xs : List α) {i : Int} (h : i < 0) : pick? xs i = none := by
  rw [pick?, if_pos h]

/-- What is picked is what stands at that position. -/
theorem getElem?_of_pick? {α : Type} {l : List α} {k : Int} {a : α} (h : pick? l k = some a) :
    l[k.toNat]? = some a := by
  unfold pick? at h
  split at h
  · cases h
  · exact h

theorem mem_of_pick? {α : Type} {xs : List α} {i : Int} {x : α} (h : pick? xs i = some x) :
    x ∈ xs :=
  List.mem_of_getElem? (getElem?_of_pick? h)

theorem exists_pick?_iff {α : Type} {xs : List α} {i : Int} :
    (∃ x, pick? xs i = some x) ↔ 0 ≤ i ∧ i < xs.length := by
  rcases Int.lt_or_le i 0 with hneg | hnonneg
  · rw [pick?_of_neg xs hneg]
    simp [Int.not_le.mpr hneg]
  · obtain ⟨n, rfl⟩ := Int.eq_ofNat_of_zero_le hnonneg
    rw [pick?_ofNat, ← Option.isSome_iff_exists]
    simp

end Multistage
