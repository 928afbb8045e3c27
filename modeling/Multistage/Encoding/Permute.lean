import Multistage.Encoding.Basic

/-!
# Permuted layouts

The layout of a buffer seen through a permutation of its dimensions: result dimension `i` is
dimension `perm[i]` of the buffer. A layout that describes another number of dimensions than the
permutation is left as it is.
-/

namespace Multistage

/-- The position of `d` in `perm`, and -1 if it is not there. -/
def renamed (perm : List Int) (d : Int) : Int :=
  match perm.idxOf? d with
  | some i => i
  | none => -1

/-- An order of dimensions under their new names. -/
def permuteOrder (order perm : List Int) : List Int :=
  order.map (renamed perm)

/-- The split over the cluster under the permutation, if every entry it asks for is there. -/
def CTALayout.permute? (c : CTALayout) (perm : List Int) : Option CTALayout :=
  if c.ctasPerCGA.length ≠ perm.length then some c
  else do
    let ctasPerCGA ← perm.mapM (pick? c.ctasPerCGA)
    let splitNum ← perm.mapM (pick? c.splitNum)
    some { ctasPerCGA, splitNum, order := permuteOrder c.order perm }

/-- The layout under the permutation, if every entry it asks for is there. Of the layouts that the
tensor cores read, only an exchange of two dimensions turns the transposed flag. -/
def SharedLayout.permute? (s : SharedLayout) (perm : List Int) : Option SharedLayout :=
  match s with
  | swizzled z =>
    if z.order.length ≠ perm.length then some s
    else do
      let cta ← z.cta.permute? perm
      some (swizzled { z with statedOrder := some (permuteOrder z.order perm), cta })
  | nvMma n =>
    if n.cta.order.length ≠ perm.length then some s
    else do
      let cta ← n.cta.permute? perm
      some (nvMma { n with cta, transposed := if perm = [1, 0] then !n.transposed else n.transposed })

end Multistage
