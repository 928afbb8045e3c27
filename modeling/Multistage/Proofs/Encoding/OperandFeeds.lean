import Multistage.Proofs.Encoding.DotUsers

/-!
# Values that feed operands of products

A value feeds operands of products if something reads it, and all that reads it does one of two
things: it loads or converts the value to an operand of a product, or it makes a buffer of a known
layout which again feeds operands. Each of the readers asks for a layout of the value in shared
memory, and they have to ask for the same one. `dotLayout?_exact` says that the search for such a
layout finds one for the values that feed operands and for no others.
-/

namespace Multistage.Buffer

open Relation

variable {g : Graph} {v : ValueId} {user : OpId}

/-! ## What a reader asks for -/

/-- An encoding of operand `index` of a product, with the layout of the accumulator if it has one. -/
inductive EncodesOperand : Option Attr → Int → Int → Option Encoding → Prop
  | accumulated (index kWidth : Int) (parent : Encoding) :
      EncodesOperand (some (.encoding (.dotOperand index kWidth parent))) index kWidth (some parent)
  | loose (index kWidth : Int) :
      EncodesOperand (some (.encoding (.looseDotOperand index kWidth))) index kWidth none

/-- The `shape` and the `encoding` of a tensor or of a buffer. -/
inductive Laid : Option Ty → List Int → Option Attr → Prop
  | tensor (t : TensorTy) : Laid (some (.tensor t)) t.shape t.encoding
  | memDesc (t : MemDescTy) : Laid (some (.memDesc t)) t.shape t.encoding

/-- The layout of `v` in shared memory that an operation with one result asks for. One that makes a
buffer asks for the layout of the buffer. One that loads or converts to an operand of a product asks
for the swizzled layout from which the operand is loaded, for the shape of `v`, its order in memory,
its split over the cluster and the width of its elements. -/
inductive Asks (g : Graph) (v : ValueId) (user : OpId) : SharedLayout → Prop
  | buffer {w : ValueId} {t : MemDescTy} {layout : SharedLayout}
      (hres : (g.op user).results = [w]) (hty : g.typeOf w = some (.memDesc t))
      (henc : t.encoding = some (.encoding (.shared layout))) : Asks g v user layout
  | operand {w : ValueId} {t : TensorTy} {index kWidth : Int} {parent : Option Encoding}
      {shape : List Int} {enc : Option Attr} {s : Swizzled}
      (hres : (g.op user).results = [w]) (hty : g.typeOf w = some (.tensor t))
      (hname : (g.op user).name = Kinds.localLoad ∨ (g.op user).name = Kinds.convertLayout)
      (henc : EncodesOperand t.encoding index kWidth parent) (hlaid : Laid (g.typeOf v) shape enc)
      (hs : Swizzled.forDotOperand? index kWidth parent shape ((orderForMemory (g.typeOf v)).getD [])
        (ctaLayoutOf enc shape.length) (elementBitWidth (g.typeOf v)) = some s) :
      Asks g v user (.swizzled s)

/-- Something reads `v`, all `users` of it ask for a layout, any two ask for the same one, and the
buffers that are made from it feed operands as well. -/
inductive FeedsOperands (g : Graph) : ValueId → Prop
  | intro {v : ValueId} (used : g.users v ≠ [])
      (asks : ∀ user ∈ g.users v, ∃ layout, Asks g v user layout)
      (agree : ∀ user ∈ g.users v, ∀ user' ∈ g.users v, ∀ layout layout',
        Asks g v user layout → Asks g v user' layout' → layout.same layout' = true)
      (deeper : ∀ w, g.MakesBuffer v w → FeedsOperands g w) : FeedsOperands g v

/-! ## One step of the search -/

theorem dotOperandShared?_eq_iff {ty : Option Ty} {index kWidth : Int} {parent : Option Encoding}
    {layout : SharedLayout} :
    dotOperandShared? ty index kWidth parent = some (some layout) ↔
      ∃ shape enc s, Laid ty shape enc ∧ layout = .swizzled s ∧
        Swizzled.forDotOperand? index kWidth parent shape ((orderForMemory ty).getD [])
          (ctaLayoutOf enc shape.length) (elementBitWidth ty) = some s := by
  unfold dotOperandShared?
  constructor
  · intro h
    split at h
    · rename_i t
      obtain ⟨s, hs, hlayout⟩ := Option.bind_eq_some_iff.mp h
      cases hlayout
      exact ⟨_, _, s, .tensor t, rfl, hs⟩
    · rename_i t
      obtain ⟨s, hs, hlayout⟩ := Option.bind_eq_some_iff.mp h
      cases hlayout
      exact ⟨_, _, s, .memDesc t, rfl, hs⟩
    · cases h
  · rintro ⟨_, _, s, ⟨t⟩ | ⟨t⟩, rfl, hs⟩
    · simp only [hs, Option.bind_eq_bind, Option.bind_some]
    · simp only [hs, Option.bind_eq_bind, Option.bind_some]

/-- `neededBy?` gives a layout exactly if `user` asks for it, and `deeper` gives one for the buffer
that it makes, if it makes one. -/
theorem neededBy?_eq_iff {deeper : ValueId → Option (Option SharedLayout)}
    {layout : SharedLayout} :
    neededBy? g deeper v user = some (some layout) ↔ Asks g v user layout ∧
      ∀ w t, (g.op user).results = [w] → g.typeOf w = some (.memDesc t) →
        ∃ inner, deeper w = some (some inner) := by
  unfold neededBy?
  constructor
  · intro h
    split at h
    · rename_i w hres
      split at h
      · -- a buffer: its layout is asked for, and one was found for its own users
        rename_i t hty
        split at h
        · cases h
        · rename_i found hfound
          obtain ⟨o, hdeeper, ho⟩ := Option.bind_eq_some_iff.mp h
          obtain ⟨inner, rfl, rfl⟩ := Option.map_eq_some_iff.mp (Option.some.inj ho)
          refine ⟨.buffer hres hty (bind_shared?_eq_some_iff.mp hfound), fun w' _ hres' _ => ?_⟩
          cases hres.symm.trans hres'
          exact ⟨inner, hdeeper⟩
      · -- a tensor: no buffer is made, so that nothing is to be shown of one
        rename_i t hty
        have hother : ∀ w' t', (g.op user).results = [w'] → g.typeOf w' = some (.memDesc t') →
            ∃ inner, deeper w' = some (some inner) := by
          intro w' t' hres' hty'
          cases hres.symm.trans hres'
          cases hty.symm.trans hty'
        split at h
        · rename_i hname
          split at h
          · rename_i henc
            obtain ⟨_, _, s, hlaid, rfl, hs⟩ := dotOperandShared?_eq_iff.mp h
            exact ⟨.operand hres hty hname (henc ▸ .accumulated ..) hlaid hs, hother⟩
          · rename_i henc
            obtain ⟨_, _, s, hlaid, rfl, hs⟩ := dotOperandShared?_eq_iff.mp h
            exact ⟨.operand hres hty hname (henc ▸ .loose ..) hlaid hs, hother⟩
          · cases h
        · cases h
      · cases h
    · cases h
  · rintro ⟨hasks, hdeeper⟩
    cases hasks with
    | buffer hres hty henc =>
      obtain ⟨inner, hinner⟩ := hdeeper _ _ hres hty
      simp only [hres, hty, bind_shared?_eq_some_iff.mpr henc, hinner, Option.bind_eq_bind,
        Option.bind_some, Option.map_some]
    | operand hres hty hname henc hlaid hs =>
      have hshared := dotOperandShared?_eq_iff.mpr ⟨_, _, _, hlaid, rfl, hs⟩
      simp only [hres, hty, if_pos hname]
      -- the two kinds of operands differ in the accumulator only
      generalize TensorTy.encoding _ = enc at henc ⊢
      cases henc with
      | accumulated index kWidth parent => exact hshared
      | loose index kWidth => exact hshared

/-! ## The whole search -/

theorem wants_dotLayout?_iff (hend : g.BuffersEnd v) {text : String} :
    Wants (dotLayout? g v) text ↔ g.users v ≠ [] ∧
      ∀ user ∈ g.users v, Wants (neededBy? g (dotLayout? g) v user) text := by
  rw [dotLayout?_eq hend, wants_agreed?_iff]
  constructor
  · rintro ⟨-, hwants, hused⟩
    exact ⟨hused rfl, hwants⟩
  · rintro ⟨hused, hwants⟩
    exact ⟨fun _ h => absurd h (Option.not_mem_none _), hwants, fun _ => hused⟩

/-- `dotLayout?` gives the layout that each `user` asks for. -/
theorem same_of_asks (hend : g.BuffersEnd v) {layout asked : SharedLayout}
    (hfound : dotLayout? g v = some (some layout)) (huser : user ∈ g.users v)
    (hasks : Asks g v user asked) : layout.same asked = true := by
  obtain ⟨needed, hneeded, htext⟩ :=
    ((wants_dotLayout?_iff hend).mp ⟨layout, hfound, rfl⟩).2 user huser
  -- what is asked for is what is needed, since the buffer on the way is in order
  have hasked : neededBy? g (dotLayout? g) v user = some (some asked) :=
    neededBy?_eq_iff.mpr ⟨hasks, (neededBy?_eq_iff.mp hneeded).2⟩
  cases hneeded.symm.trans hasked
  exact SharedLayout.same_iff.mpr htext.symm

theorem exists_dotLayout?_iff (hend : g.BuffersEnd v) :
    (∃ layout, dotLayout? g v = some (some layout)) ↔ FeedsOperands g v := by
  -- by induction on the buffers that are made from the value
  refine hend.induction (motive := fun x =>
    (∃ layout, dotLayout? g x = some (some layout)) ↔ FeedsOperands g x) fun x hx ih => ?_
  constructor
  · rintro ⟨layout, hfound⟩
    obtain ⟨hused, hwants⟩ := (wants_dotLayout?_iff hx).mp ⟨layout, hfound, rfl⟩
    refine .intro hused (fun user huser => ?_) ?_ ?_
    · obtain ⟨needed, hneeded, -⟩ := hwants user huser
      exact ⟨needed, (neededBy?_eq_iff.mp hneeded).1⟩
    · intro user huser user' huser' asked asked' hasks hasks'
      have hsame := SharedLayout.same_iff.mp (same_of_asks hx hfound huser hasks)
      have hsame' := SharedLayout.same_iff.mp (same_of_asks hx hfound huser' hasks')
      exact SharedLayout.same_iff.mpr (hsame.symm.trans hsame')
    · rintro w ⟨user, huser, hres, t, hty⟩
      obtain ⟨needed, hneeded, -⟩ := hwants user huser
      exact (ih w ⟨user, huser, hres, t, hty⟩).mp ((neededBy?_eq_iff.mp hneeded).2 w t hres hty)
  · rintro ⟨hused, hasks, hagree, hdeeper⟩
    obtain ⟨first, hfirst⟩ := List.exists_mem_of_ne_nil _ hused
    obtain ⟨layout, hlayout⟩ := hasks first hfirst
    -- every user needs what the first one asks for
    obtain ⟨found, hfound, -⟩ := (wants_dotLayout?_iff hx).mpr ⟨hused, fun user huser => by
      obtain ⟨asked, hasked⟩ := hasks user huser
      refine ⟨asked, neededBy?_eq_iff.mpr ⟨hasked, fun w t hres hty => ?_⟩,
        SharedLayout.same_iff.mp (hagree user huser first hfirst asked layout hasked hlayout)⟩
      have hw : g.MakesBuffer x w := ⟨user, huser, hres, t, hty⟩
      exact (ih w hw).mpr (hdeeper w hw)⟩
    exact ⟨found, hfound⟩

/-- `dotLayout?` has an answer if the orders of `v` and of all buffers on the way fit. -/
theorem dotLayout?_isSome (hend : g.BuffersEnd v)
    (hfit : ∀ w, ReflTransGen g.MakesBuffer v w → OrderFits (g.typeOf w)) :
    (dotLayout? g v).isSome := by
  refine hend.induction (motive := fun x =>
    (∀ w, ReflTransGen g.MakesBuffer x w → OrderFits (g.typeOf w)) → (dotLayout? g x).isSome)
    (fun x hx ih hfit => ?_) hfit
  rw [dotLayout?_eq hx]
  refine agreed?_isSome (fun user huser => ?_) none
  have hbuffers : ∀ w, g.MakesBuffer x w → SameNeed (dotLayout? g w) (dotLayout? g w) := by
    intro w hw
    obtain ⟨o, ho⟩ := Option.isSome_iff_exists.mp (ih w hw fun y hy => hfit y (.head hw hy))
    exact .of_eq_some ho
  exact (neededBy?_sameNeed huser (hfit x .refl) hbuffers).isSome.1

/-- For a value `v` from which buffers end, and whose order and theirs are orders of all dimensions
(`OrderFits`), `dotLayout?` ends with an answer. It names a layout exactly if `v` `FeedsOperands`,
and then the one that each of the users asks for. -/
theorem dotLayout?_exact (hend : g.BuffersEnd v)
    (hfit : ∀ w, ReflTransGen g.MakesBuffer v w → OrderFits (g.typeOf w)) :
    ∃ answer, dotLayout? g v = some answer ∧ (answer.isSome ↔ FeedsOperands g v) ∧
      ∀ layout ∈ answer, ∀ user ∈ g.users v, ∀ asked, Asks g v user asked →
        layout.same asked = true := by
  obtain ⟨answer, hanswer⟩ := Option.isSome_iff_exists.mp (dotLayout?_isSome hend hfit)
  refine ⟨answer, hanswer, ?_, fun layout hlayout user huser asked hasks => ?_⟩
  · rw [← exists_dotLayout?_iff hend, Option.isSome_iff_exists, hanswer]
    simp only [Option.some.injEq]
  · rw [Option.mem_def] at hlayout
    exact same_of_asks hend (hlayout ▸ hanswer) huser hasks

/-- A loaded matrix that is converted to the left operand of a product, and that is also allocated,
seen through a view and loaded from there as the same operand. -/
def sharedMatrix : Graph where
  ops := #[
    { name := Kinds.load, kind := none, loc := {}, results := [⟨0⟩] },
    { name := Kinds.convertLayout, kind := none, loc := {}, operands := [⟨0⟩], results := [⟨1⟩] },
    { name := Kinds.localAlloc, kind := none, loc := {}, operands := [⟨1⟩], results := [⟨2⟩] },
    { name := Kinds.memDescSubview, kind := none, loc := {}, operands := [⟨2⟩], results := [⟨3⟩] },
    { name := Kinds.localLoad, kind := none, loc := {}, operands := [⟨3⟩], results := [⟨4⟩] }]
  values := #[
    { ty := some (.tensor ⟨[64, 32], some .f16, blocked⟩), source := .result ⟨0⟩ 0,
      uses := [⟨0⟩, ⟨1⟩] },
    { ty := some (.tensor ⟨[64, 32], some .f16, leftOperand⟩), source := .result ⟨1⟩ 0, uses := [] },
    { ty := some (.memDesc (.whole [64, 32] (some .f16) staged (some .sharedMemory) false)),
      source := .result ⟨2⟩ 0, uses := [⟨2⟩] },
    { ty := some (.memDesc (.whole [64, 32] (some .f16) staged (some .sharedMemory) false)),
      source := .result ⟨3⟩ 0, uses := [⟨3⟩] },
    { ty := some (.tensor ⟨[64, 32], some .f16, leftOperand⟩), source := .result ⟨4⟩ 0, uses := [] }]
  slots := #[⟨⟨1⟩, 0, some ⟨0⟩⟩, ⟨⟨2⟩, 0, some ⟨0⟩⟩, ⟨⟨3⟩, 0, some ⟨2⟩⟩, ⟨⟨4⟩, 0, some ⟨3⟩⟩]
where
  blocked : Option Attr :=
    some (.encoding (.blocked ⟨[1, 8], [8, 4], [4, 1], some [1, 0], .single 2⟩))
  leftOperand : Option Attr :=
    some (.encoding (.dotOperand 0 2 (.mma ⟨2, 0, [4, 1], [16, 8], .single 2⟩)))
  staged : Option Attr := some (.encoding (.shared (.swizzled ⟨8, 2, 4, some [1, 0], .single 2⟩)))

theorem sharedMatrix_buffersEnd (v : ValueId) : sharedMatrix.BuffersEnd v := by
  have hlater : ∀ n < 5, ∀ user ∈ sharedMatrix.users ⟨n⟩,
      ∀ y ∈ (sharedMatrix.op user).results, n < y.index := by decide +kernel
  refine Graph.buffersEnd_of_lt fun x y ⟨user, huser, hres, _⟩ => ?_
  exact hlater x.index (Graph.hasValue_of_mem_users huser) user huser y (by simp [hres])

theorem sharedMatrix_orderFits : ∀ v, OrderFits (sharedMatrix.typeOf v)
  | ⟨0⟩ => by rintro _ ⟨⟩; exact .refl _
  | ⟨1⟩ | ⟨4⟩ => by rintro _ ⟨⟩
  | ⟨2⟩ | ⟨3⟩ => by rintro _ ⟨⟩; exact .refl _
  | ⟨_ + 5⟩ => trivial

/-- On `sharedMatrix` the matrix feeds operands, and its users ask for the layout of the buffer. -/
theorem sharedMatrix_feeds_operands :
    sharedMatrix.BuffersEnd ⟨0⟩ ∧ (∀ v, OrderFits (sharedMatrix.typeOf v)) ∧
    FeedsOperands sharedMatrix ⟨0⟩ ∧
    dotLayout? sharedMatrix ⟨0⟩ =
      some (some (.swizzled ⟨8, 2, 4, some [1, 0], .single 2⟩)) := by
  have hfound : dotLayout? sharedMatrix ⟨0⟩ =
      some (some (.swizzled ⟨8, 2, 4, some [1, 0], .single 2⟩)) := by decide +kernel
  obtain ⟨answer, hanswer, hfeeds, -⟩ := dotLayout?_exact (sharedMatrix_buffersEnd ⟨0⟩)
    fun v _ => sharedMatrix_orderFits v
  cases hanswer.symm.trans hfound
  exact ⟨sharedMatrix_buffersEnd ⟨0⟩, sharedMatrix_orderFits, hfeeds.mp rfl, hfound⟩

end Multistage.Buffer
