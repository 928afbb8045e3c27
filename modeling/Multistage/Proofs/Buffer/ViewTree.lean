import Mathlib.Logic.Relation
import Multistage.Buffer.Views
import Multistage.Proofs.Encoding.PermutedTypes
import Multistage.Proofs.Graph.OperandChanges
import Multistage.Proofs.Graph.SegmentValues

/-!
# The views of an operation

A view reads a result of an operation, another view reads the first one, and so on. Where every view
reads such a value in one place only, its source, the views form a tree below the operation
(`ViewTree`): each has one parent, and what hangs below two views of one parent is apart. The types
that the views get when they are built anew on another buffer follow from the type of that buffer
down the tree (`Rebuilds`).
-/

namespace Multistage

open Relation

/-! ## Permuted buffer types -/

namespace MemDescTy

/-- `order` is a permutation of the dimensions of `t`, and a layout in shared memory splits as many
dimensions as it spreads over blocks. -/
structure Permutable (t : MemDescTy) (order : List Int) : Prop where
  perm : order.Perm ((List.range t.rank).map Int.ofNat)
  cta : ∀ s, t.encoding = some (.encoding (.shared s)) →
    s.cta.splitNum.length = s.cta.ctasPerCGA.length

theorem Permutable.transposed {t : MemDescTy} {order : List Int} (h : t.Permutable order) :
    ∃ t', t.transposed order = .ok t' := by
  obtain ⟨σ, rfl⟩ := exists_eq_axes h.perm
  obtain ⟨t', ht'⟩ := (actsAt_permute? t.rank h.cta).exists_eq_some σ
  exact ⟨t', transposed_eq_ok (length_axes σ) ht'⟩

end MemDescTy

namespace Graph

variable {g : Graph}

/-! ## Views -/

/-- `x` is a view with a slot that holds a result of `p`. -/
def Feeds (g : Graph) (p x : OpId) : Prop :=
  Ops.isView g x = true ∧
    ∃ s, (g.slot s).owner = x ∧ ∃ r ∈ (g.op p).results, (g.slot s).value = some r

/-- The views of `old`, their views, and so on. -/
abbrev ViewOf (g : Graph) (old x : OpId) : Prop := TransGen g.Feeds old x

/-- `old` itself or one of the views below it. -/
abbrev Viewed (g : Graph) (old p : OpId) : Prop := ReflTransGen g.Feeds old p

/-- The type that a view gets when it is built anew on a buffer of type `src`. -/
def viewTy? (g : Graph) (x : OpId) (src : MemDescTy) : Option MemDescTy :=
  if (g.op x).name = Kinds.memDescSubview then
    (((g.op x).results.head?.bind g.typeOf).bind Ty.memDesc?).map fun t =>
      { t with isMutable := src.isMutable, allocShape := src.allocShape }
  else (src.transposed (Ops.transOrder g x)).toOption

/-- The types of the views below an operation, built anew on a buffer of type `ty`. -/
inductive Rebuilds (g : Graph) (old : OpId) (ty : MemDescTy) : OpId → MemDescTy → Prop
  | base : Rebuilds g old ty old ty
  | view {p x : OpId} {t u : MemDescTy} : Rebuilds g old ty p t → g.Feeds p x →
      g.viewTy? x t = some u → Rebuilds g old ty x u

/-- The views below an operation can be built anew on a buffer of type `ty`: they do not go round in
a circle, read one another only as their source and have one buffer as their result, and the order
of a transposed view fits what it will read. -/
structure ViewTree (g : Graph) (old : OpId) (ty : MemDescTy) : Prop where
  acyclic : ∀ x, g.Viewed old x → ¬ TransGen g.Feeds x x
  source : ∀ p, g.Viewed old p → ∀ r ∈ (g.op p).results, ∀ s, (g.slot s).value = some r →
    Ops.isView g (g.slot s).owner = true →
    ∃ rest, (g.op (g.slot s).owner).segmentSlots? Seg.src = some (s :: rest)
  result : ∀ x, g.ViewOf old x →
    ∃ r t, (g.op x).results = [r] ∧ g.typeOf r = some (.memDesc t)
  permutable : ∀ p x t, g.Rebuilds old ty p t → g.Feeds p x →
    (g.op x).name = Kinds.memDescTrans → t.Permutable (Ops.transOrder g x)

theorem Rebuilds.viewed {old x : OpId} {ty t : MemDescTy} (h : g.Rebuilds old ty x t) :
    g.Viewed old x := by
  induction h with
  | base => exact .refl
  | view _ hfeeds _ ih => exact ih.tail hfeeds

theorem ViewOf.isView {old x : OpId} (hx : g.ViewOf old x) : Ops.isView g x = true := by
  obtain ⟨p, -, hfeeds⟩ := TransGen.tail'_iff.mp hx
  exact hfeeds.1

theorem hasOp_of_isView {x : OpId} (hx : Ops.isView g x = true) : g.HasOp x := by
  by_contra hthere
  rw [Ops.isView, op_of_not_hasOp hthere] at hx
  cases hx

/-- `p` feeds a view `x` that has a result `r` of it in slot `s`. -/
theorem Feeds.of_slot {p x : OpId} (s : SlotId) (r : ValueId)
    (h : Ops.isView g x = true ∧ (g.slot s).owner = x ∧ r ∈ (g.op p).results ∧
      (g.slot s).value = some r) : g.Feeds p x :=
  ⟨h.1, s, h.2.1, r, h.2.2.1, h.2.2.2⟩

theorem Feeds.hasOp {p x : OpId} (h : g.Feeds p x) : g.HasOp x := hasOp_of_isView h.1

theorem ViewOf.hasOp {old x : OpId} (hx : g.ViewOf old x) : g.HasOp x := hasOp_of_isView hx.isView

namespace ViewTree

variable {old : OpId} {ty : MemDescTy} (h : g.ViewTree old ty)

include h

theorem not_viewOf_self : ¬ g.ViewOf old old := h.acyclic old .refl

theorem ne_of_viewOf {x : OpId} (hx : g.ViewOf old x) : x ≠ old := by
  rintro rfl
  exact h.not_viewOf_self hx

/-- A view `x` of the tree below `old` has one parent. -/
theorem parent_unique (hwf : g.WellFormed) {p q x : OpId} (hp : g.Viewed old p)
    (hq : g.Viewed old q) (hpx : g.Feeds p x) (hqx : g.Feeds q x) : p = q := by
  obtain ⟨hview, s, rfl, r, hr, hs⟩ := hpx
  obtain ⟨-, s', howner, r', hr', hs'⟩ := hqx
  obtain ⟨rest, hsrc⟩ := h.source p hp r hr s hs hview
  obtain ⟨rest', hsrc'⟩ := h.source q hq r' hr' s' hs' (howner ▸ hview)
  -- both slots are the first one of the source, so they hold one value
  rw [howner, hsrc] at hsrc'
  cases hsrc'
  rw [hs] at hs'
  cases hs'
  obtain ⟨-, n, hn⟩ := hwf.owned.mem_results_iff.mp hr
  obtain ⟨-, m, hm⟩ := hwf.owned.mem_results_iff.mp hr'
  rw [hn] at hm
  cases hm
  rfl

/-- What hangs below two views of `o` is apart. -/
theorem below_unique (hwf : g.WellFormed) {o x y z : OpId} (ho : g.Viewed old o)
    (hx : g.Feeds o x) (hy : g.Feeds o y) (hxz : g.Viewed x z) (hyz : g.Viewed y z) : x = y := by
  -- below a view of `o` there is no view of `o`
  have happart : ∀ {a b : OpId}, g.Feeds o a → g.Feeds o b → ¬ TransGen g.Feeds a b := by
    intro a b ha hb hab
    obtain ⟨p, hap, hpb⟩ := TransGen.tail'_iff.mp hab
    have hpo : p = o := h.parent_unique hwf ((ho.tail ha).trans hap) ho hpb hb
    subst hpo
    exact h.acyclic p ho (.head' ha hap)
  induction hxz with
  | refl =>
    rcases reflTransGen_iff_eq_or_transGen.mp hyz with hxy | hxy
    · exact hxy
    · exact absurd hxy (happart hy hx)
  | @tail w z hxw hwz ih =>
    rcases reflTransGen_iff_eq_or_transGen.mp hyz with rfl | hyz
    · exact absurd (TransGen.tail' hxw hwz) (happart hx hy)
    · obtain ⟨w', hyw, hwz'⟩ := TransGen.tail'_iff.mp hyz
      have hww : w' = w := h.parent_unique hwf ((ho.tail hy).trans hyw)
        ((ho.tail hx).trans hxw) hwz' hwz
      exact ih (hww ▸ hyw)

/-- A chain of views below `old` has no repetition, so there is no longer one than there are
operations. -/
theorem length_lt_of_isChain (hold : g.HasOp old) {l : List OpId}
    (hl : List.IsChain g.Feeds (old :: l)) : l.length < g.ops.size := by
  have hbelow : (old :: l).Pairwise (TransGen g.Feeds) :=
    (hl.imp fun _ _ hab => TransGen.single hab).pairwise
  have hviewed : ∀ x ∈ old :: l, g.Viewed old x := by
    intro x hx
    rcases List.mem_cons.mp hx with rfl | hx
    · exact .refl
    · exact ((List.pairwise_cons.mp hbelow).1 x hx).to_reflTransGen
  -- of two entries the later one hangs below the earlier one
  have hnodup : (old :: l).Nodup := by
    refine hbelow.imp_of_mem fun {a b} ha _ hab => ?_
    rintro rfl
    exact h.acyclic a (hviewed a ha) hab
  refine length_le_size_of_nodup hnodup fun x hx => ?_
  rcases List.mem_cons.mp hx with rfl | hx
  · exact hold
  · exact ViewOf.hasOp ((List.pairwise_cons.mp hbelow).1 x hx)

end ViewTree

/-! ## Listed views -/

/-- `old` and `views` have no views but these, each of them later than what it reads as its source
and with one buffer as its result; a `memDescTrans` is a view of `old` itself. -/
structure ListsViews (g : Graph) (old : OpId) (views : List OpId) : Prop where
  listed : ∀ p ∈ old :: views, ∀ r ∈ (g.op p).results, ∀ s ∈ (g.value r).uses,
    Ops.isView g (g.slot s).owner = true →
    (g.slot s).owner ∈ views ∧ p.index < (g.slot s).owner.index ∧
      ((g.op (g.slot s).owner).segmentSlots? Seg.src).bind List.head? = some s ∧
      ((g.op (g.slot s).owner).name = Kinds.memDescTrans → p = old)
  results : ∀ x ∈ views, (g.op x).results.length = 1 ∧
    ∀ r ∈ (g.op x).results, ((g.typeOf r).bind Ty.memDesc?).isSome

instance (g : Graph) (old : OpId) (views : List OpId) : Decidable (g.ListsViews old views) :=
  decidable_of_iff (_ ∧ _) ⟨fun h => ⟨h.1, h.2⟩, fun h => ⟨h.1, h.2⟩⟩

namespace ListsViews

variable {old : OpId} {views : List OpId} (h : g.ListsViews old views) (hwf : g.WellFormed)

include h hwf

theorem feeds {p x : OpId} (hp : p ∈ old :: views) (hx : g.Feeds p x) :
    x ∈ views ∧ p.index < x.index ∧ ((g.op x).name = Kinds.memDescTrans → p = old) := by
  obtain ⟨hview, s, rfl, r, hr, hs⟩ := hx
  obtain ⟨hmem, hlt, -, htrans⟩ := h.listed p hp r hr s (hwf.uses.mem_uses_iff.mpr hs) hview
  exact ⟨hmem, hlt, htrans⟩

theorem mem_of_viewed {p : OpId} (hp : g.Viewed old p) : p ∈ old :: views := by
  induction hp with
  | refl => exact List.mem_cons_self
  | tail _ hx ih => exact List.mem_cons_of_mem _ (h.feeds hwf ih hx).1

theorem mem_of_viewOf {x : OpId} (hx : g.ViewOf old x) : x ∈ views := by
  obtain ⟨p, hp, hfeeds⟩ := TransGen.tail'_iff.mp hx
  exact (h.feeds hwf (h.mem_of_viewed hwf hp) hfeeds).1

theorem index_lt {p x : OpId} (hp : g.Viewed old p) (hx : g.ViewOf p x) : p.index < x.index := by
  induction hx with
  | single hx => exact (h.feeds hwf (h.mem_of_viewed hwf hp) hx).2.1
  | @tail y z hy hz ih =>
    have hy' : y ∈ old :: views := h.mem_of_viewed hwf (hp.trans hy.to_reflTransGen)
    exact Nat.lt_trans ih (h.feeds hwf hy' hz).2.1

/-- Views that are listed form a `ViewTree`, if the orders fit. -/
theorem viewTree {ty : MemDescTy}
    (hpermutable : ∀ x ∈ views, (g.op x).name = Kinds.memDescTrans →
      ty.Permutable (Ops.transOrder g x)) : g.ViewTree old ty where
  acyclic x hx hcycle := Nat.lt_irrefl _ (h.index_lt hwf hx hcycle)
  source p hp r hr s hs hview := by
    obtain ⟨-, -, hsrc, -⟩ :=
      h.listed p (h.mem_of_viewed hwf hp) r hr s (hwf.uses.mem_uses_iff.mpr hs) hview
    obtain ⟨slots, hslots, hhead⟩ := Option.bind_eq_some_iff.mp hsrc
    obtain ⟨rest, rfl⟩ := List.head?_eq_some_iff.mp hhead
    exact ⟨rest, hslots⟩
  result x hx := by
    obtain ⟨hlength, htype⟩ := h.results x (h.mem_of_viewOf hwf hx)
    obtain ⟨r, hr⟩ := List.length_eq_one_iff.mp hlength
    obtain ⟨t, ht⟩ := Option.isSome_iff_exists.mp (htype r (by rw [hr]; exact List.mem_cons_self))
    obtain ⟨u, hu, hut⟩ := Option.bind_eq_some_iff.mp ht
    refine ⟨r, t, hr, ?_⟩
    rw [hu]
    cases u with
    | memDesc _ =>
      cases hut
      rfl
    | _ => cases hut
  permutable p x t ht hx hname := by
    obtain ⟨hmem, -, htrans⟩ := h.feeds hwf (h.mem_of_viewed hwf ht.viewed) hx
    obtain rfl := htrans hname
    -- a transposed view reads the operation itself, which has the type that is given
    cases ht with
    | base => exact hpermutable x hmem hname
    | view hq hfeeds =>
      exact absurd (h.index_lt hwf .refl (.tail' hq.viewed hfeeds)) (Nat.lt_irrefl _)

end ListsViews

end Graph

end Multistage
