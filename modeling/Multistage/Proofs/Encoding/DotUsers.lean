import Mathlib.Data.List.Chain
import Mathlib.Logic.Relation
import Multistage.Buffer.Layout
import Multistage.Proofs.Encoding.RegisterOrders
import Multistage.Proofs.Graph.OperandChanges

/-!
# What the users of a value need

The search for the layout that all users of a value need goes through the buffers that they make,
with a bound on their number. Where no buffer is made from itself the bound plays no part:
`dotLayout?_eq` says that the search is the recursion it is meant to be. It has an answer for values
whose order names their own dimensions, and what it answers is a matter of what each user needs and
not of their order (`agreed?_sameNeed`).
-/

namespace Multistage

open Relation

/-! ## Buffers made from a value -/

namespace Graph

variable {g : Graph} {v w : ValueId}

/-- Some operation that reads `v` has the buffer `w` as its only result. -/
def MakesBuffer (g : Graph) (v w : ValueId) : Prop :=
  ∃ user ∈ g.users v, (g.op user).results = [w] ∧ ∃ ty, g.typeOf w = some (.memDesc ty)

/-- Of the values that come from `v` through buffers none comes from itself. -/
def BuffersEnd (g : Graph) (v : ValueId) : Prop :=
  ∀ w, ReflTransGen g.MakesBuffer v w → ¬ TransGen g.MakesBuffer w w

theorem hasValue_of_mem_users {user : OpId} (h : user ∈ g.users v) : g.HasValue v := by
  by_contra hv
  rw [users, value_of_not_hasValue hv] at h
  cases h

theorem MakesBuffer.hasValue (h : g.MakesBuffer v w) : g.HasValue v ∧ g.HasValue w := by
  obtain ⟨user, huser, _, ty, hty⟩ := h
  exact ⟨hasValue_of_mem_users huser, hasValue_of_typeOf hty⟩

theorem BuffersEnd.of_makesBuffer (hend : g.BuffersEnd v) (h : g.MakesBuffer v w) :
    g.BuffersEnd w :=
  fun x hx => hend x (.head h hx)

/-- Buffers end where each `y` that is made from `x` has a later row than `x`. -/
theorem buffersEnd_of_lt (h : ∀ x y, g.MakesBuffer x y → x.index < y.index) :
    g.BuffersEnd v := by
  intro w _ hw
  have hlt : ∀ y, TransGen g.MakesBuffer w y → w.index < y.index := by
    intro y hy
    induction hy with
    | single hwy => exact h w _ hwy
    | tail _ hyz ih => exact ih.trans (h _ _ hyz)
  exact Nat.lt_irrefl _ (hlt w hw)

/-- A chain of `MakesBuffer` has no repetition, so there is no longer one than there are values. -/
theorem BuffersEnd.length_le (hend : g.BuffersEnd v) {l : List ValueId}
    (hl : List.IsChain g.MakesBuffer (v :: w :: l)) : (v :: w :: l).length ≤ g.values.size := by
  have hbelow : (v :: w :: l).Pairwise (TransGen g.MakesBuffer) :=
    (hl.imp fun _ _ hab => TransGen.single hab).pairwise
  have hafter := (List.pairwise_cons.mp hbelow).1
  -- a repeated value would come from itself
  have hnodup : (v :: w :: l).Nodup := by
    refine hbelow.imp_of_mem fun {a b} ha _ hab => ?_
    rintro rfl
    rcases List.mem_cons.mp ha with rfl | ha
    · exact hend a .refl hab
    · exact hend a (hafter a ha).to_reflTransGen hab
  have hindex : Function.Injective ValueId.index := fun ⟨_⟩ ⟨_⟩ => congrArg ValueId.mk
  refine length_le_of_index_lt hindex hnodup fun x hx => ?_
  rcases List.mem_cons.mp hx with rfl | hx
  · exact (List.isChain_cons_cons.mp hl).1.hasValue.1
  · obtain ⟨y, _, hy⟩ := TransGen.tail'_iff.mp (hafter x hx)
    exact hy.hasValue.2

/-- What holds of a value `x` as soon as it holds of the buffers made from it, holds of every value
from which they end. -/
theorem BuffersEnd.induction {motive : ValueId → Prop} (hend : g.BuffersEnd v)
    (step : ∀ x, g.BuffersEnd x → (∀ y, g.MakesBuffer x y → motive y) → motive x) : motive v := by
  -- by induction on a bound for the chains that start at the value
  have hbounded : ∀ (n : Nat) (x : ValueId), g.BuffersEnd x →
      (∀ l, List.IsChain g.MakesBuffer (x :: l) → l.length < n) → motive x := by
    intro n
    induction n with
    | zero => exact fun x _ hx => absurd (hx [] (.singleton x)) (Nat.not_lt_zero _)
    | succ n ih =>
      intro x hx hchains
      refine step x hx fun y hy => ih y (hx.of_makesBuffer hy) fun l hl => ?_
      exact Nat.lt_of_succ_lt_succ (hchains (y :: l) (.cons_cons hy hl))
  refine hbounded (g.values.size + 1) v hend fun l hl => ?_
  cases l with
  | nil => exact Nat.succ_pos _
  | cons w l =>
    have hle := hend.length_le hl
    rw [List.length_cons] at hle
    omega

end Graph

theorem SharedLayout.same_iff {a b : SharedLayout} : a.same b = true ↔ a.text = b.text :=
  beq_iff_eq

theorem quotient?_of_pos (a : Int) {b : Int} (h : 0 < b) : quotient? a b = some (a.tdiv b) := by
  rw [quotient?, if_neg (by omega)]

/-- `rowsPerPhase?` always has an answer, and the stride can be divided by it. -/
theorem exists_rowsPerPhase? (elems : Int) : ∃ rows, rowsPerPhase? elems = some rows ∧ 1 ≤ rows := by
  unfold rowsPerPhase?
  split
  · next hpos =>
    rw [quotient?_of_pos 128 hpos]
    exact ⟨_, rfl, Int.le_max_right _ 1⟩
  · exact ⟨1, rfl, Int.le_refl 1⟩

namespace Buffer

variable {g : Graph} {v : ValueId}

/-! ## The search without its bound -/

section Unbounded

variable {deeper deeper' : ValueId → Option (Option SharedLayout)}

/-- `neededBy?` asks `deeper` only of the buffers that are made from `v`. -/
theorem neededBy?_congr {user : OpId} (huser : user ∈ g.users v)
    (h : ∀ w, g.MakesBuffer v w → deeper w = deeper' w) :
    neededBy? g deeper v user = neededBy? g deeper' v user := by
  unfold neededBy?
  split
  · rename_i res hres
    split
    · rename_i ty hty
      rw [h res ⟨user, huser, hres, ty, hty⟩]
    all_goals rfl
  · rfl

theorem agreed?_congr {needed needed' : OpId → Option (Option SharedLayout)} {users : List OpId}
    (h : ∀ user ∈ users, needed user = needed' user) (acc : Option SharedLayout) :
    agreed? needed acc users = agreed? needed' acc users := by
  induction users generalizing acc with
  | nil => rfl
  | cons user rest ih =>
    have hrest := ih fun x hx => h x (List.mem_cons_of_mem _ hx)
    simp only [agreed?, h user List.mem_cons_self, hrest]

/-- `dotLayoutWithin?` at more depth than the longest chain of buffers needs gives the same. -/
theorem dotLayoutWithin?_succ {n : Nat}
    (h : ∀ l, List.IsChain g.MakesBuffer (v :: l) → l.length < n) :
    dotLayoutWithin? g (n + 1) v = dotLayoutWithin? g n v := by
  induction n generalizing v with
  | zero => exact absurd (h [] (.singleton v)) (Nat.not_lt_zero _)
  | succ n ih =>
    refine agreed?_congr (fun user huser => neededBy?_congr huser fun w hw => ih fun l hl => ?_) none
    exact Nat.lt_of_succ_lt_succ (h (w :: l) (.cons_cons hw hl))

/-- `dotLayout?` asks each user, and where one makes a buffer it starts again there. -/
theorem dotLayout?_eq (hend : g.BuffersEnd v) :
    dotLayout? g v = agreed? (neededBy? g (dotLayout? g) v) none (g.users v) := by
  cases hsize : g.values.size with
  | zero =>
    have hnone : g.users v = [] := List.eq_nil_iff_forall_not_mem.mpr fun user huser => by
      have hv := Graph.hasValue_of_mem_users huser
      rw [Graph.HasValue, hsize] at hv
      exact Nat.not_lt_zero _ hv
    rw [dotLayout?, hsize, hnone]
    rfl
  | succ n =>
    rw [dotLayout?, hsize]
    refine agreed?_congr (fun user huser => neededBy?_congr huser fun w hw => ?_) none
    rw [dotLayout?, hsize]
    refine (dotLayoutWithin?_succ fun l hl => ?_).symm
    have hle := hend.length_le (.cons_cons hw hl)
    rw [hsize, List.length_cons, List.length_cons] at hle
    omega

end Unbounded

/-! ## Orders that name the dimensions -/

/-- Every entry of `order` is one of `rank` dimensions. -/
def NamesDimensions (order : List Int) (rank : Nat) : Prop :=
  ∀ d ∈ order, 0 ≤ d ∧ d < rank

theorem NamesDimensions.of_perm {order : List Int} {rank : Nat}
    (h : order.Perm (dimensions rank)) : NamesDimensions order rank :=
  fun _ hd => mem_dimensions.mp (h.mem_iff.mp hd)

/-- The `order` that a blocked or a swizzled layout states is an order of all dimensions of the
type. -/
def OrderFits : Option Ty → Prop
  | some (.tensor t) => ∀ b, t.encoding = some (.encoding (.blocked b)) →
      b.order.Perm (defaultOrder t.rank)
  | some (.memDesc t) => ∀ s, t.encoding = some (.encoding (.shared (.swizzled s))) →
      s.order.Perm (defaultOrder t.rank)
  | _ => True

/-- `orderForMemory` of a tensor is the order of its registers. -/
theorem orderForMemory_tensor (t : TensorTy) :
    (orderForMemory (some (.tensor t))).getD [] = t.order := by
  simp only [orderForMemory, TensorTy.order]
  split
  · rename_i b hb
    rw [hb]
    rfl
  · rfl

theorem namesDimensions_registerOrder {t : TensorTy} (hfit : OrderFits (some (.tensor t)))
    (hrank : 2 ≤ t.rank) : NamesDimensions t.order t.rank := by
  refine .of_perm ((TensorTy.perm_order_iff (by omega) fun b hb => ?_).mpr (by omega))
  exact (hfit b hb).trans (perm_defaultOrder t.rank)

theorem bind_shared?_eq_some_iff {enc : Option Attr} {layout : SharedLayout} :
    enc.bind Attr.shared? = some layout ↔ enc = some (.encoding (.shared layout)) := by
  constructor
  · intro h
    obtain ⟨attr, rfl, hshared⟩ := Option.bind_eq_some_iff.mp h
    match attr, hshared with
    | .encoding (.shared _), rfl => rfl
  · rintro rfl
    rfl

theorem namesDimensions_bufferOrder {t : MemDescTy} (hfit : OrderFits (some (.memDesc t))) :
    NamesDimensions ((orderForMemory (some (.memDesc t))).getD []) t.rank := by
  simp only [orderForMemory]
  split
  · rename_i s hs
    exact .of_perm ((hfit s (bind_shared?_eq_some_iff.mp hs)).trans (perm_defaultOrder t.rank))
  · rename_i layout hlayout hs
    cases layout with
    | swizzled s => exact absurd rfl (hlayout s)
    | nvMma n => exact .of_perm (SharedLayout.perm_order_nvMma n t.rank)
  · exact .of_perm (perm_defaultOrder t.rank)

/-- `forDotOperand?` has an answer for every `order` that names dimensions of the `shape`. -/
theorem forDotOperand?_isSome {shape order : List Int}
    (horder : 2 ≤ shape.length → NamesDimensions order shape.length) (index kWidth : Int)
    (parent : Option Encoding) (cta : CTALayout) (bitWidth : Int) :
    ∃ s, Swizzled.forDotOperand? index kWidth parent shape order cta bitWidth = some s := by
  unfold Swizzled.forDotOperand?
  split
  · split
    · exact ⟨_, rfl⟩
    · rename_i m hguard
      simp only [Bool.or_eq_true, decide_eq_true_eq, not_or] at hguard
      -- only here the shape is read at the fastest dimension of the order
      have hrank : 2 ≤ shape.length := by omega
      have hlength : order.length = shape.length := by omega
      cases order with
      | nil => exact absurd hlength (by rw [List.length_nil]; omega)
      | cons fast rest =>
        have hfast := horder hrank fast List.mem_cons_self
        rw [← CTALayout.length_shapePerCTA cta] at hfast
        obtain ⟨extent, hextent⟩ := exists_pick?_iff.mpr hfast
        have hkWidth (a : Int) : quotient? a kWidth = some _ := quotient?_of_pos a (by omega)
        have hbitWidth : quotient? 32 bitWidth = some _ := quotient?_of_pos 32 (by omega)
        obtain ⟨rows, hrows, hone⟩ := exists_rowsPerPhase? ((wrap64 (extent * 4)).tdiv kWidth)
        have hphases (a : Int) : quotient? a rows = some _ := quotient?_of_pos a (by omega)
        simp only [Swizzled.forMma?, List.head?_cons, Option.bind_eq_bind, Option.bind_some,
          hextent, hkWidth, hbitWidth, hrows, hphases]
        exact ⟨_, (apply_ite some _ _ _).symm⟩
  · exact ⟨_, rfl⟩

theorem dotOperandShared?_isSome {ty : Option Ty} (hfit : OrderFits ty) (index kWidth : Int)
    (parent : Option Encoding) : ∃ o, dotOperandShared? ty index kWidth parent = some o := by
  unfold dotOperandShared?
  split
  · rename_i t
    have horder := fun hrank => namesDimensions_registerOrder hfit hrank
    rw [← orderForMemory_tensor t] at horder
    obtain ⟨s, hs⟩ := forDotOperand?_isSome horder index kWidth parent
      (ctaLayoutOf t.encoding t.shape.length) (elementBitWidth (some (.tensor t)))
    exact ⟨some (.swizzled s), by simp only [hs, Option.bind_eq_bind, Option.bind_some]⟩
  · rename_i t
    obtain ⟨s, hs⟩ := forDotOperand?_isSome (fun _ => namesDimensions_bufferOrder hfit) index kWidth
      parent (ctaLayoutOf t.encoding t.shape.length) (elementBitWidth (some (.memDesc t)))
    exact ⟨some (.swizzled s), by simp only [hs, Option.bind_eq_bind, Option.bind_some]⟩
  · exact ⟨_, rfl⟩

/-! ## Agreement -/

/-- `answer` names a layout with this `text`. -/
def Wants (answer : Option (Option SharedLayout)) (text : String) : Prop :=
  ∃ layout, answer = some (some layout) ∧ layout.text = text

/-- `agreed?` gives a layout exactly if there are `users` and each of them wants it. -/
theorem wants_agreed?_iff {needed : OpId → Option (Option SharedLayout)} {users : List OpId}
    {acc : Option SharedLayout} {text : String} :
    Wants (agreed? needed acc users) text ↔ (∀ a ∈ acc, a.text = text) ∧
      (∀ user ∈ users, Wants (needed user) text) ∧ (acc = none → users ≠ []) := by
  -- by induction on the users: what those before want is all that is kept of them
  induction users generalizing acc with
  | nil =>
    cases acc with
    | none =>
      refine ⟨fun h => ?_, fun h => absurd rfl (h.2.2 rfl)⟩
      obtain ⟨_, hnone, _⟩ := h
      cases hnone
    | some a => simp [Wants, agreed?]
  | cons user rest ih =>
    cases hneeded : needed user with
    | none => simp [Wants, agreed?, hneeded]
    | some o =>
      cases o with
      | none => simp [Wants, agreed?, hneeded]
      | some layout =>
        have huser : Wants (needed user) text ↔ layout.text = text := by simp [Wants, hneeded]
        have hacc : acc.all (·.same layout) = true ↔ ∀ a ∈ acc, a.text = layout.text := by
          cases acc <;> simp [SharedLayout.same_iff]
        rw [agreed?, hneeded, List.forall_mem_cons, huser]
        by_cases hsame : acc.all (·.same layout) = true
        · -- this user wants what those before want, and the search goes on with its layout
          simp only [hsame, if_true]
          rw [ih]
          constructor
          · rintro ⟨hlayout, hrest, -⟩
            have htext := hlayout layout rfl
            exact ⟨fun a ha => (hacc.mp hsame a ha).trans htext, ⟨htext, hrest⟩,
              fun _ => List.cons_ne_nil _ _⟩
          · rintro ⟨-, ⟨htext, hrest⟩, -⟩
            exact ⟨fun a ha => Option.mem_some.mp ha ▸ htext, hrest, nofun⟩
        · simp only [hsame]
          constructor
          · rintro ⟨_, hnone, _⟩
            cases hnone
          · rintro ⟨hall, ⟨htext, -⟩, -⟩
            exact absurd (hacc.mpr fun a ha => (hall a ha).trans htext.symm) hsame

/-- Two answers of `neededBy?`, of which both or neither name a layout, and the same one. -/
inductive SameNeed : Option (Option SharedLayout) → Option (Option SharedLayout) → Prop
  | nothing : SameNeed (some none) (some none)
  | layout {a b : SharedLayout} (h : a.text = b.text) : SameNeed (some (some a)) (some (some b))

theorem SameNeed.of_eq_some {answer : Option (Option SharedLayout)} {o : Option SharedLayout}
    (h : answer = some o) : SameNeed answer answer := by
  subst h
  cases o with
  | none => exact .nothing
  | some layout => exact .layout rfl

theorem SameNeed.wants_iff {a b : Option (Option SharedLayout)} (h : SameNeed a b)
    (text : String) : Wants a text ↔ Wants b text := by
  cases h with
  | nothing => exact Iff.rfl
  | layout h => simp only [Wants, Option.some.injEq, exists_eq_left', h]

theorem SameNeed.of_wants_iff {a b : Option (Option SharedLayout)} (ha : a.isSome)
    (hb : b.isSome) (h : ∀ text, Wants a text ↔ Wants b text) : SameNeed a b := by
  match a, b with
  | some none, some none => exact .nothing
  | some (some l), some (some l') =>
    obtain ⟨_, hl', htext⟩ := (h l.text).mp ⟨l, rfl, rfl⟩
    cases hl'
    exact .layout htext.symm
  | some (some l), some none =>
    obtain ⟨_, hnone, _⟩ := (h l.text).mp ⟨l, rfl, rfl⟩
    cases hnone
  | some none, some (some l') =>
    obtain ⟨_, hnone, _⟩ := (h l'.text).mpr ⟨l', rfl, rfl⟩
    cases hnone

theorem agreed?_isSome {needed : OpId → Option (Option SharedLayout)} {users : List OpId}
    (h : ∀ user ∈ users, (needed user).isSome) (acc : Option SharedLayout) :
    (agreed? needed acc users).isSome := by
  induction users generalizing acc with
  | nil => rfl
  | cons user rest ih =>
    have hrest := ih fun x hx => h x (List.mem_cons_of_mem _ hx)
    obtain ⟨o, ho⟩ := Option.isSome_iff_exists.mp (h user List.mem_cons_self)
    cases o with
    | none => simp only [agreed?, ho, Option.isSome_some]
    | some layout =>
      simp only [agreed?, ho]
      split
      · exact hrest _
      · rfl

theorem SameNeed.isSome {a b : Option (Option SharedLayout)} (h : SameNeed a b) :
    a.isSome ∧ b.isSome := by
  cases h with
  | nothing => exact ⟨rfl, rfl⟩
  | layout h => exact ⟨rfl, rfl⟩

/-- `agreed?` does not depend on the order of the `users`. -/
theorem agreed?_sameNeed {needed needed' : OpId → Option (Option SharedLayout)}
    {users users' : List OpId} (hmem : ∀ user, user ∈ users ↔ user ∈ users')
    (h : ∀ user ∈ users, SameNeed (needed user) (needed' user)) :
    SameNeed (agreed? needed none users) (agreed? needed' none users') := by
  have h' : ∀ user ∈ users', SameNeed (needed user) (needed' user) :=
    fun user huser => h user ((hmem user).mpr huser)
  refine .of_wants_iff (agreed?_isSome (fun user huser => (h user huser).isSome.1) none)
    (agreed?_isSome (fun user huser => (h' user huser).isSome.2) none) fun text => ?_
  rw [wants_agreed?_iff, wants_agreed?_iff]
  refine and_congr_right' (and_congr ?_ (imp_congr_right fun _ => not_congr ?_))
  · refine forall_congr' fun user => ⟨fun hall huser => ?_, fun hall huser => ?_⟩
    · exact ((h' user huser).wants_iff text).mp (hall ((hmem user).mpr huser))
    · exact ((h user huser).wants_iff text).mpr (hall ((hmem user).mp huser))
  · simp only [List.eq_nil_iff_forall_not_mem, hmem]

/-- What a `user` needs, if `deeper` and `deeper'` say the same of the buffer that it makes. -/
theorem neededBy?_sameNeed {deeper deeper' : ValueId → Option (Option SharedLayout)} {user : OpId}
    (huser : user ∈ g.users v) (hfit : OrderFits (g.typeOf v))
    (h : ∀ w, g.MakesBuffer v w → SameNeed (deeper w) (deeper' w)) :
    SameNeed (neededBy? g deeper v user) (neededBy? g deeper' v user) := by
  unfold neededBy?
  split
  · rename_i res hres
    split
    · rename_i ty hty
      -- a buffer: its layout is needed if its own users need any
      have hinner := h res ⟨user, huser, hres, ty, hty⟩
      split
      · exact .nothing
      · revert hinner
        generalize deeper res = a
        generalize deeper' res = b
        rintro (_ | _)
        · exact .nothing
        · exact .layout rfl
    · split
      · -- an operand of a product: nothing is asked of any other value
        split
        · obtain ⟨o, ho⟩ := dotOperandShared?_isSome hfit _ _ _
          exact .of_eq_some ho
        · obtain ⟨o, ho⟩ := dotOperandShared?_isSome hfit _ _ _
          exact .of_eq_some ho
        · exact .nothing
      · exact .nothing
    · exact .nothing
  · exact .nothing

end Buffer

end Multistage
