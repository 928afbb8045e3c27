import Multistage.Buffer.Alloc
import Multistage.Proofs.Build.BlockFilling
import Multistage.Proofs.Build.Reachable

/-!
# Allocations around a loop

A buffer or a set of barriers is allocated right before a loop and freed right after it. Allocations
around the same loop nest: what the first call puts there encloses what the next one puts there, and
so on. Nothing else changes, and the loop stays in a verified operation. The operations on either
side are laid one after the other (`Laying`), so what is to be shown of each is what it reads.
-/

namespace Multistage

open BuildM Build

/-! ## What is allocated -/

/-- A call of `createAlloc` or `createBarrierAlloc`, which allocates something around a loop. -/
inductive Bracket where
  /-- A buffer for `distance` copies of a tensor. -/
  | buffer (ty : TensorTy) (loc : Location) (layout : Option SharedLayout) (distance : Int)
  /-- So many barriers. -/
  | barriers (n : Int)

namespace Bracket

/-- The call itself, around `loop`. -/
def perform (loop : OpId) : Bracket → BuildM ValueId
  | buffer ty loc layout distance => Buffer.createAlloc loop ty loc layout distance
  | barriers n => Buffer.createBarrierAlloc loop n

/-- The type of `n` barriers, on `ctas` thread blocks. -/
def barrierTy (ctas n : Int) : MemDescTy :=
  Buffer.allocTy [n] (some Ty.i64)
    (some (.swizzled (Swizzled.plain [0] { ctasPerCGA := [ctas], splitNum := [1], order := [0] })))

end Bracket

namespace Piece

/-- The `localAlloc` that gives `buffer`. -/
def alloc (loc : Location) (ty : MemDescTy) (buffer : ValueId) : Piece where
  name := Kinds.localAlloc
  loc
  reads := [(Seg.src, [])]
  gives := some (buffer, .memDesc ty)

/-- The `localDealloc` of `buffer`. -/
def free (loc : Location) (buffer : ValueId) : Piece where
  name := Kinds.localDealloc
  loc
  reads := [(Seg.src, [buffer])]

/-- The constant `j` that selects a stage. -/
def number (loc : Location) (j : Nat) (idx : ValueId) : Piece where
  name := Kinds.constant
  loc
  attrs := .single "value" (some (.integer j (some Ty.i32)))
  gives := some (idx, Ty.i32)

/-- The view of the barrier that `idx` selects. -/
def view (loc : Location) (ty : MemDescTy) (buffer idx view : ValueId) : Piece where
  name := Kinds.memDescSubview
  loc
  reads := [(Seg.src, [buffer]), (Seg.offsets, [idx])]
  gives := some (view, .memDesc { ty with shape := [1] })

/-- The `initBarrier` of a view, for one arrival. -/
def init (loc : Location) (view : ValueId) : Piece where
  name := Kinds.initBarrier
  loc
  reads := [(Seg.alloc, [view])]
  attrs := .single "count" (some (.i32 1))

/-- The `invalBarrier` of a view. -/
def inval (loc : Location) (view : ValueId) : Piece where
  name := Kinds.invalBarrier
  loc
  reads := [(Seg.alloc, [view])]

/-- What is done with the barriers, in order: the `number`, the `view` of the barrier and its `use`.
The pairs of `names` are the numbers and views of all barriers. -/
def stages (loc : Location) (ty : MemDescTy) (buffer : ValueId) (use : Location → ValueId → Piece)
    (names : List (ValueId × ValueId)) : List Piece :=
  names.zipIdx.flatMap fun q =>
    [number loc q.2 q.1.1, view loc ty buffer q.1.1 q.1.2, use loc q.1.2]

end Piece

/-- A `call` that was made, the `buffer` that it gave, and the operations that it put before and
after the loop. -/
structure Bracketing where
  call : Bracket
  buffer : ValueId
  before : List OpId
  after : List OpId

/-- The operations of `l` before and after a loop at location `here` are those that its call asks
for. -/
def Graph.Brackets (g : Graph) (b : BlockId) (here : Location) (l : Bracketing) : Prop :=
  match l.call with
  | .buffer ty loc layout distance =>
    List.Forall₂ (g.Holds b) l.before
        [.alloc loc (Buffer.allocTy (distance :: ty.shape) ty.elem layout) l.buffer] ∧
      List.Forall₂ (g.Holds b) l.after [.free here l.buffer]
  | .barriers n => ∃ ctas inits invals,
      inits.length = n.toNat ∧ invals.length = n.toNat ∧
      List.Forall₂ (g.Holds b) l.before
        (.alloc here (Bracket.barrierTy ctas n) l.buffer ::
          Piece.stages here (Bracket.barrierTy ctas n) l.buffer Piece.init inits) ∧
      List.Forall₂ (g.Holds b) l.after
        (Piece.stages here (Bracket.barrierTy ctas n) l.buffer Piece.inval invals ++
          [.free here l.buffer])

/-! ## One side of the loop -/

section

variable {g₀ : Graph} {root loop : OpId} {b : BlockId} {front back new new' : List OpId}
  {c c' : Context} {loc : Location} {ty : MemDescTy} {buffer v : ValueId}
  {pieces pieces' : List Piece}

/-- The operations `new` were laid, and look like `pieces`. -/
structure LaysAll (g₀ : Graph) (root : OpId) (b : BlockId) (front back : List OpId) (c : Context)
    (new : List OpId) (pieces : List Piece) (c' : Context) : Prop where
  lays : Lays g₀ root b front back c new c'
  holds : List.Forall₂ (c'.graph.Holds b) new pieces

theorem LaysAll.nil (h : Laying g₀ root b front back c) :
    LaysAll g₀ root b front back c [] [] c :=
  ⟨.nil h, .nil⟩

theorem LaysAll.trans {c'' : Context} (hwf : c'.graph.WellFormed)
    (h : LaysAll g₀ root b front back c new pieces c')
    (h' : LaysAll g₀ root b (front ++ new) back c' new' pieces' c'') :
    LaysAll g₀ root b front back c (new ++ new') (pieces ++ pieces') c'' where
  lays := h.lays.trans h'.lays
  holds := List.rel_append (h.holds.imp fun _ _ hp => hp.inserts hwf h'.lays.inserts) h'.holds

namespace Laying

variable (h : Laying g₀ root b front back c)

include h

/-- `createValue` lays one piece, which gives the value. -/
theorem gives_newValue {p : ValueId → Piece} {spec : OpSpec} {t : Ty}
    (hasked : ∀ v, (p v).Asked spec) (hgives : ∀ v, (p v).gives = some (v, t))
    (hreads : ∀ v, ∀ w ∈ (p v).vals, g₀.Laid c.graph front w)
    (hloc : ∀ v, (p v).loc = c.cursor.loc) :
    (Build.createValue spec).Gives c fun v c' => ∃ i,
      LaysAll g₀ root b front back c [i] [p v] c' ∧ g₀.Laid c'.graph (front ++ [i]) v := by
  refine (h.gives_createValue hasked hgives hreads hloc).imp fun v c' _ hc => ?_
  obtain ⟨i, hlays, hholds, hlaid⟩ := hc
  exact ⟨i, ⟨hlays, .cons hholds .nil⟩, hlaid⟩

theorem gives_view {idx : ValueId} (hloc : loc = c.cursor.loc)
    (hbuffer : g₀.Laid c.graph front buffer) (hidx : g₀.Laid c.graph front idx) (ty : MemDescTy) :
    (Ops.memDescSubview { ty with shape := [1] } (some buffer) [some idx]).Gives c fun v c' => ∃ i,
      LaysAll g₀ root b front back c [i] [.view loc ty buffer idx v] c' ∧
        g₀.Laid c'.graph (front ++ [i]) v := by
  apply h.gives_newValue (p := .view loc ty buffer idx) (fun v => ?_) (fun _ => rfl)
    (fun _ w hw => ?_) fun _ => hloc
  · exact
      { name := rfl, loc := rfl, operands := rfl, segments := rfl, attrs := rfl, results := rfl
        regions := rfl, kind := ⟨_, rfl, rfl, rfl⟩ }
  · rcases List.mem_cons.mp hw with rfl | hw
    · exact hbuffer
    · exact List.mem_singleton.mp hw ▸ hidx

end Laying

end

/-! ## One call -/

/-- What a call leaves: its operations stand right around `loop`, and nothing else has changed. -/
structure Surrounds (root loop : OpId) (b : BlockId) (front back : List OpId) (c : Context)
    (l : Bracketing) (c' : Context) : Prop where
  ops : (c'.graph.block b).ops = front ++ l.before ++ loop :: (l.after ++ back)
  inserts : c.graph.Inserts c'.graph b
  values : ∀ v, c.graph.HasValue v → c'.graph.value v = c.graph.value v
  verified : c'.graph.Verified root [b]
  brackets : c'.graph.Brackets b (c.graph.op loop).loc l
  rest : ∃ g log, c' = { c with graph := g, log }

section

variable {root loop : OpId} {b : BlockId} {front back : List OpId} {c : Context}

theorem gives_numCTAsHere : Buffer.numCTAsHere.Gives c fun _ c' => c' = c := by
  refine gives_graph.bind fun g c' _ hc => ?_
  obtain ⟨rfl, rfl⟩ := hc
  refine gives_cursor.bind fun p c'' _ hc => ?_
  obtain ⟨rfl, rfl⟩ := hc
  split <;> exact .pure rfl

end

/-! ## All calls -/

theorem Graph.Brackets.inserts {g g' : Graph} {b : BlockId} {here : Location} {l : Bracketing}
    (h : g.Brackets b here l) (hwf : g.WellFormed) (hinserts : g.Inserts g' b) :
    g'.Brackets b here l := by
  have hkept : ∀ {ops pieces}, List.Forall₂ (g.Holds b) ops pieces →
      List.Forall₂ (g'.Holds b) ops pieces :=
    fun hall => hall.imp fun _ _ hp => hp.inserts hwf hinserts
  obtain ⟨call, v, before, after⟩ := l
  cases call with
  | buffer ty loc layout distance => exact ⟨hkept h.1, hkept h.2⟩
  | barriers n =>
    obtain ⟨ctas, inits, invals, hinits, hinvals, hbefore, hafter⟩ := h
    exact ⟨ctas, inits, invals, hinits, hinvals, hkept hbefore, hkept hafter⟩

/-- What several calls leave: the operations of each of `laid` enclose those of the later ones. -/
structure Nests (root loop : OpId) (b : BlockId) (front back : List OpId) (c : Context)
    (laid : List Bracketing) (c' : Context) : Prop where
  ops : (c'.graph.block b).ops = front ++ laid.flatMap (·.before) ++
    loop :: (laid.reverse.flatMap (·.after) ++ back)
  inserts : c.graph.Inserts c'.graph b
  values : ∀ v, c.graph.HasValue v → c'.graph.value v = c.graph.value v
  verified : c'.graph.Verified root [b]
  brackets : ∀ l ∈ laid, c'.graph.Brackets b (c.graph.op loop).loc l
  rest : ∃ g log, c' = { c with graph := g, log }

section

variable {root loop : OpId} {b : BlockId} {front back : List OpId} {c c' c'' : Context}
  {laid : List Bracketing}

theorem Nests.nil (hverified : c.graph.Verified root [b])
    (hops : (c.graph.block b).ops = front ++ loop :: back) :
    Nests root loop b front back c [] c where
  ops := by simpa using hops
  inserts := .refl _ _
  values _ _ := rfl
  verified := hverified
  brackets := nofun
  rest := ⟨_, _, rfl⟩

/-- The first call `Surrounds` the loop, and the later ones nest around what it has left. -/
theorem Surrounds.cons {l : Bracketing} (h : Surrounds root loop b front back c l c')
    (hloop : c.graph.HasOp loop) (hwf : c'.graph.WellFormed)
    (hrest : Nests root loop b (front ++ l.before) (l.after ++ back) c' laid c'') :
    Nests root loop b front back c (l :: laid) c'' where
  ops := by
    have hops := hrest.ops
    simpa using hops
  inserts := h.inserts.trans hrest.inserts
  values v hv := (hrest.values v (h.inserts.within.hasValue hv)).trans (h.values v hv)
  verified := hrest.verified
  brackets l' hl' := by
    rcases List.mem_cons.mp hl' with rfl | hl'
    · exact h.brackets.inserts hwf hrest.inserts
    · -- the later calls see the loop at the location that it had
      have hbrackets := hrest.brackets l' hl'
      rw [h.inserts.op loop hloop] at hbrackets
      exact hbrackets
  rest := by
    obtain ⟨g, log, rfl⟩ := h.rest
    obtain ⟨g', log', rfl⟩ := hrest.rest
    exact ⟨g', log', rfl⟩

end

/-- A `func` with a loop between a sum and its end. -/
def looping : List Request := [
  .createDetached { name := Kinds.func },
  .addBlock ⟨0⟩ 0,
  .addArgument ⟨0⟩ (some Ty.i32),
  .moveToEnd (some ⟨0⟩),
  .create { name := Kinds.addI, operands := [some ⟨0⟩, some ⟨0⟩], results := [some Ty.i32] },
  .create { name := Kinds.forLoop, segments := [[some ⟨0⟩], [some ⟨1⟩], [some ⟨0⟩], []] },
  .addBlock ⟨2⟩ 0,
  .addArgument ⟨1⟩ (some Ty.i32),
  .create { name := Kinds.ret },
  .moveToEnd (some ⟨1⟩),
  .create { name := Kinds.yield }]

theorem reachable_looping : Reachable (Request.run looping {}) :=
  (Reachable.fresh .collect 0).run (by decide +kernel)

end Multistage
