import Multistage.Proofs.Copy.FreshNames

/-!
# Graphs that only grow

Building around an operation adds rows and puts new readers at the end of use lists; what was there
keeps its rows (`Enlarges`), but for the list of one block that new operations may go to. A copy
grows a graph by a tree: every operation that it adds lies inside the copy (`coversTo`).
-/

namespace Multistage.Graph

variable {g₀ g g' g'' : Graph} {x : BlockId}

/-! ## Growing -/

theorem within_addBlock (g : Graph) (r : RegionId) : g.Within (g.addBlock r).1 where
  ops := Nat.le_of_eq Array.size_modify.symm
  blocks := by
    show g.blocks.size ≤ (g.blocks.push _).size
    rw [Array.size_push]
    exact Nat.le_succ _
  values := Nat.le_refl _
  slots := Nat.le_refl _

/-- `g'` is `g` and more: the rows of `g` are as they were, but for the list of block `x`, use lists
have only got longer, and every new slot is an operand of a new operation. -/
structure Enlarges (g g' : Graph) (x : BlockId) : Prop where
  within : g.Within g'
  op : ∀ j, g.HasOp j → g'.op j = g.op j
  block : ∀ b, g.HasBlock b → b ≠ x → g'.block b = g.block b
  -- only the list of `x` may change
  frame : g.HasBlock x →
    (g'.block x).args = (g.block x).args ∧ (g'.block x).home = (g.block x).home
  row : ∀ s, g.HasSlot s → g'.slot s = g.slot s
  readers : ∀ v, g.HasValue v → ∃ new,
    g'.value v = { g.value v with uses := (g.value v).uses ++ new }
  -- what was there has got no further operands
  listed : ∀ s, g'.HasSlot s → g.HasSlot s ∨ ∃ j, ¬ g.HasOp j ∧ s ∈ (g'.op j).operands

namespace Enlarges

theorem refl (g : Graph) (x : BlockId) : g.Enlarges g x where
  within := .refl g
  op _ _ := rfl
  block _ _ _ := rfl
  frame _ := ⟨rfl, rfl⟩
  row _ _ := rfl
  readers v _ := ⟨[], by rw [List.append_nil]⟩
  listed _ hs := Or.inl hs

section

variable (h : g₀.Enlarges g x)

include h

theorem not_hasOp_next : ¬ g₀.HasOp g.nextOp := Nat.not_lt.mpr h.within.ops

/-- A slot `s` stays listed if the new operations keep their operands. -/
theorem still_listed {s : SlotId} (hs : g.HasSlot s)
    (hkept : ∀ j, s ∈ (g.op j).operands → s ∈ (g'.op j).operands) :
    g₀.HasSlot s ∨ ∃ j, ¬ g₀.HasOp j ∧ s ∈ (g'.op j).operands := by
  refine (h.listed s hs).imp_right ?_
  rintro ⟨j, hj, hmem⟩
  exact ⟨j, hj, hkept j hmem⟩

theorem install (o : Op) (vals : List (Option ValueId)) (types : List (Option Ty)) :
    g₀.Enlarges (g.install o vals types) x where
  within := h.within.trans (within_install g o vals types)
  op j hj := by
    rw [op_install, if_neg (h.within.hasOp hj).ne_nextOp]
    exact h.op j hj
  block b hb hne := by
    rw [block_install]
    exact h.block b hb hne
  frame hx := by
    rw [block_install]
    exact h.frame hx
  row s hs := by
    rw [slot_install_of_hasSlot g o vals types (h.within.hasSlot hs)]
    exact h.row s hs
  readers v hv := by
    obtain ⟨new, hnew⟩ := h.readers v hv
    refine ⟨new ++ readersFrom v g.slots.size vals, ?_⟩
    rw [value_install_of_hasValue g o vals types (h.within.hasValue hv), hnew, List.append_assoc]
  listed s hs := by
    by_cases hold : g.HasSlot s
    · refine h.still_listed hold fun j hmem => ?_
      rw [op_install, if_neg (hasOp_of_mem_operands hmem).ne_nextOp]
      exact hmem
    · refine Or.inr ⟨g.nextOp, h.not_hasOp_next, ?_⟩
      rw [HasSlot, size_slots_install] at hs
      rw [op_install, if_pos rfl]
      exact mem_slotsFrom.mpr ⟨Nat.not_lt.mp hold, hs⟩

theorem place {b : BlockId} (hb : g₀.HasBlock b → b = x) (k : Nat) {i : OpId}
    (hi : ¬ g₀.HasOp i) : g₀.Enlarges (g.place b k i) x where
  within := h.within.trans ((within_modifyBlock _ _ _).trans (within_modifyOp _ _ _))
  op j hj := by
    have hij : i ≠ j := by
      rintro rfl
      exact hi hj
    rw [op_place, if_neg fun hc => hij hc.1]
    exact h.op j hj
  block c hc hne := by
    have hbc : b ≠ c := by
      rintro rfl
      exact hne (hb hc)
    rw [block_place, if_neg fun heq => hbc heq.1]
    exact h.block c hc hne
  frame hx := by
    rw [block_place]
    split <;> exact h.frame hx
  row := h.row
  readers := h.readers
  listed s hs := by
    refine h.still_listed hs fun j hmem => ?_
    rw [op_place]
    split <;> exact hmem

/-- A new operation in a block `b` that is new or the block `x` that may change. -/
theorem inserted {b : BlockId} (hb : g₀.HasBlock b → b = x) (o : Op)
    (vals : List (Option ValueId)) (types : List (Option Ty)) (k : Nat) :
    g₀.Enlarges (g.inserted o vals types b k) x :=
  (h.install o vals types).place hb k h.not_hasOp_next

theorem addBlock {r : RegionId} (hr : ¬ g₀.HasOp r.op) : g₀.Enlarges (g.addBlock r).1 x where
  within := h.within.trans (within_addBlock g r)
  op j hj := by
    have hrj : r.op ≠ j := by
      rintro rfl
      exact hr hj
    rw [Owned.op_addBlock, if_neg fun hc => hrj hc.1]
    exact h.op j hj
  block b hb hne := by
    rw [Owned.block_addBlock, if_neg (h.within.hasBlock hb).ne_next]
    exact h.block b hb hne
  frame hx := by
    rw [Owned.block_addBlock, if_neg (h.within.hasBlock hx).ne_next]
    exact h.frame hx
  row := h.row
  readers := h.readers
  listed s hs := by
    refine h.still_listed hs fun j hmem => ?_
    rw [Owned.op_addBlock]
    split <;> exact hmem

theorem addArguments {b : BlockId} (hb : ¬ g₀.HasBlock b) (types : List (Option Ty)) :
    g₀.Enlarges (g.addArguments b types).1 x := by
  -- only the row of `b` changes, and `b` is new
  have hrow {c : BlockId} (hc : g₀.HasBlock c) :
      (g.addArguments b types).1.block c = g.block c := by
    have hbc : b ≠ c := by
      rintro rfl
      exact hb hc
    rw [block_addArguments, if_neg fun heq => hbc heq.1]
  have hop (j : OpId) : (g.addArguments b types).1.op j = g.op j := by
    rw [Graph.op, ops_addArguments, ← Graph.op]
  constructor
  case within => exact h.within.trans (hasValue_addArguments b types).1
  case op =>
    intro j hj
    rw [hop]
    exact h.op j hj
  case block =>
    intro c hc hne
    rw [hrow hc]
    exact h.block c hc hne
  case frame =>
    intro hx
    rw [hrow hx]
    exact h.frame hx
  case row =>
    intro s hs
    rw [slot, slots_addArguments, ← slot]
    exact h.row s hs
  case readers =>
    intro v hv
    rw [value_addArguments_of_hasValue g b types (h.within.hasValue hv)]
    exact h.readers v hv
  case listed =>
    intro s hs
    rw [HasSlot, slots_addArguments] at hs
    refine h.still_listed hs fun j hmem => ?_
    rw [hop]
    exact hmem

/-- What grows on in a block `y` that is new may have grown from the start. -/
theorem trans {y : BlockId} (h' : g.Enlarges g' y) (hy : g₀.HasBlock y → y = x) :
    g₀.Enlarges g' x where
  within := h.within.trans h'.within
  op j hj := (h'.op j (h.within.hasOp hj)).trans (h.op j hj)
  block b hb hne := by
    have hby : b ≠ y := by
      rintro rfl
      exact hne (hy hb)
    exact (h'.block b (h.within.hasBlock hb) hby).trans (h.block b hb hne)
  frame hx := by
    have hx' : (g'.block x).args = (g.block x).args ∧ (g'.block x).home = (g.block x).home := by
      by_cases hxy : x = y
      · subst hxy
        exact h'.frame (h.within.hasBlock hx)
      · rw [h'.block x (h.within.hasBlock hx) hxy]
        exact ⟨rfl, rfl⟩
    exact ⟨hx'.1.trans (h.frame hx).1, hx'.2.trans (h.frame hx).2⟩
  row s hs := (h'.row s (h.within.hasSlot hs)).trans (h.row s hs)
  readers v hv := by
    obtain ⟨new, hnew⟩ := h.readers v hv
    obtain ⟨new', hnew'⟩ := h'.readers v (h.within.hasValue hv)
    refine ⟨new ++ new', ?_⟩
    rw [hnew', hnew, List.append_assoc]
  listed s hs := by
    rcases h'.listed s hs with hs' | ⟨j, hj, hmem⟩
    · refine h.still_listed hs' fun j hmem => ?_
      rw [h'.op j (hasOp_of_mem_operands hmem)]
      exact hmem
    · exact Or.inr ⟨j, fun hold => hj (h.within.hasOp hold), hmem⟩

end

/-- `copyTree` only adds. -/
theorem copyTree {s : Graph × Mapping} (h : g₀.Enlarges s.1 x) (n : Nat) (i : OpId) :
    g₀.Enlarges (copyTree n i s).2.1 x ∧ ¬ g₀.HasOp (copyTree n i s).1 := by
  refine copyTree_keeps (I := fun s => g₀.Enlarges s.1 x) (P := fun i => ¬ g₀.HasOp i)
    (Q := fun b => ¬ g₀.HasBlock b) (fun i s h => ?_) (fun r b s hr h => ?_)
    (fun b i s hb hi h => ?_) n i h
  · rw [copyHead_eq i s.1 s.2]
    exact ⟨h.install _ _ _, h.not_hasOp_next⟩
  · rw [copyBlock_eq r b s.1 s.2]
    have hnew : ¬ g₀.HasBlock (s.1.addBlock r).2 := Nat.not_lt.mpr h.within.blocks
    exact ⟨(h.addBlock hr).addArguments hnew _, hnew⟩
  · rw [adopt_eq b i s.1 s.2]
    exact h.place (fun hthere => absurd hthere hb) _ hi

/-! ### Readings -/

section

variable (h : g.Enlarges g' x)

include h

/-- No block gets another argument. -/
theorem args {b : BlockId} (hb : g.HasBlock b) : (g'.block b).args = (g.block b).args := by
  by_cases hx : b = x
  · subst hx
    exact (h.frame hb).1
  · rw [h.block b hb hx]

theorem typeOf {v : ValueId} (hv : g.HasValue v) : g'.typeOf v = g.typeOf v := by
  obtain ⟨new, hnew⟩ := h.readers v hv
  rw [Graph.typeOf, hnew, Graph.typeOf]

variable (hwf : g.WellFormed) {j : OpId} (hj : g.HasOp j)

include hwf hj

theorem operands : g'.operands j = g.operands j := by
  rw [Graph.operands, h.op j hj]
  refine List.map_congr_left fun s hs => ?_
  rw [h.row s (hwf.numbered.of_mem hs).1]

theorem resultTypes : g'.resultTypes j = g.resultTypes j := by
  rw [Graph.resultTypes, h.op j hj]
  exact List.map_congr_left fun v hv => h.typeOf (hwf.owned.mem_results_iff.mp hv).1

end

/-! ### Nesting -/

section

variable (h : g.Enlarges g' x)

include h

theorem blockParent {b : BlockId} (hb : g.HasBlock b) : g'.blockParent b = g.blockParent b := by
  have hhome : (g'.block b).home = (g.block b).home := by
    by_cases hbx : b = x
    · subst hbx
      exact (h.frame hb).2
    · rw [h.block b hb hbx]
  rw [Graph.blockParent, hhome, Graph.blockParent]

variable (hwf : g.WellFormed)

include hwf

theorem parent {j : OpId} (hj : g.HasOp j) : g'.parent j = g.parent j := by
  rw [Graph.parent, h.op j hj, Graph.parent]
  cases hb : (g.op j).block with
  | none => rfl
  | some b => exact h.blockParent (hwf.members.hasBlock hb)

/-- What was there lies inside the `root` that it lay in. -/
theorem inside_iff {root j : OpId} (hj : g.HasOp j) : g'.Inside root j ↔ g.Inside root j := by
  -- from what was there one comes up only to what was there
  refine Inside.congr (S := g.HasOp) (fun i hi => h.parent hwf hi) (fun i p _ hp => ?_) hj
  obtain ⟨b, -, hb⟩ := Option.bind_eq_some_iff.mp hp
  exact hasOp_of_blockParent hwf hb

theorem not_inside_new {n j : OpId} (hn : ¬ g.HasOp n) (hj : g.HasOp j) : ¬ g'.Inside n j := by
  intro hin
  have hne : j ≠ n := by
    rintro rfl
    exact hn hj
  exact hn (((h.inside_iff hwf hj).mp hin).hasOp_root hwf hne)

end

end Enlarges

/-! ## What is new in a copy -/

/-- No operation of `g` that had a place has lost it, and no block has gone to another region. -/
structure Anchors (g g' : Graph) : Prop where
  within : g.Within g'
  op : ∀ j b, (g.op j).block = some b → (g'.op j).block = some b
  home : ∀ b, g.HasBlock b → (g'.block b).home = (g.block b).home

namespace Anchors

theorem refl (g : Graph) : g.Anchors g := ⟨.refl g, fun _ _ h => h, fun _ _ => rfl⟩

theorem trans (h : g.Anchors g') (h' : g'.Anchors g'') : g.Anchors g'' where
  within := h.within.trans h'.within
  op j b hb := h'.op j b (h.op j b hb)
  home b hb := (h'.home b (h.within.hasBlock hb)).trans (h.home b hb)

theorem inside (h : g.Anchors g') (hmembers : g.MembersAgree) {root j : OpId}
    (hj : g.Inside root j) : g'.Inside root j := by
  induction hj with
  | root => exact .root
  | step hp _ ih =>
    refine .step ?_ ih
    obtain ⟨b, hb, hhome⟩ := Option.bind_eq_some_iff.mp hp
    rw [Graph.parent, h.op _ b hb]
    show g'.blockParent b = _
    rw [blockParent, h.home b (hmembers.hasBlock hb)]
    exact hhome

end Anchors

theorem Enlarges.anchors (h : g.Enlarges g' x) : g.Anchors g' where
  within := h.within
  op j b hb := by
    rw [h.op j (hasOp_of_block_eq_some hb)]
    exact hb
  home b hb := by
    by_cases hbx : b = x
    · subst hbx
      exact (h.frame hb).2
    · rw [h.block b hb hbx]

theorem anchors_place (b : BlockId) (k : Nat) {i : OpId} (hi : (g.op i).block = none) :
    g.Anchors (g.place b k i) where
  within := (within_modifyBlock _ _ _).trans (within_modifyOp _ _ _)
  op j c hc := by
    have hij : i ≠ j := by
      rintro rfl
      rw [hi] at hc
      cases hc
    rw [op_place, if_neg fun h => hij h.1]
    exact hc
  home c _ := by
    rw [block_place]
    split <;> rfl

/-- Every operation that `g'` has and `g` has not lies inside `n`. -/
def Covers (g g' : Graph) (n : OpId) : Prop := ∀ j, g'.HasOp j → g.HasOp j ∨ g'.Inside n j

/-- After `install` the new operation is all that is new. -/
theorem eq_or_hasOp_install {o : Op} {vals : List (Option ValueId)} {types : List (Option Ty)}
    {j : OpId} (hj : (g.install o vals types).HasOp j) : g.HasOp j ∨ j = g.nextOp := by
  rw [HasOp, size_ops_install] at hj
  exact (Nat.lt_succ_iff_lt_or_eq.mp hj).imp_right (congrArg OpId.mk)

theorem covers_install (g : Graph) (o : Op) (vals : List (Option ValueId))
    (types : List (Option Ty)) : g.Covers (g.install o vals types) g.nextOp := by
  intro j hj
  refine (eq_or_hasOp_install hj).imp_right ?_
  rintro rfl
  exact .root

theorem Covers.anchors {n : OpId} (h : g.Covers g' n) (hmembers : g'.MembersAgree)
    (hanchors : g'.Anchors g'') (hops : ∀ j, g''.HasOp j → g'.HasOp j) : g.Covers g'' n := fun j hj =>
  (h j (hops j hj)).imp_right (hanchors.inside hmembers)

theorem hasOp_place {b : BlockId} {k : Nat} {i j : OpId} :
    (g.place b k i).HasOp j ↔ g.HasOp j := by
  rw [HasOp, place, size_ops_modifyOp]
  exact Iff.rfl

/-- What a tree that is put into a block inside `n` adds lies inside `n` as well. -/
theorem Covers.place {n m : OpId} {b : BlockId} {k : Nat} (h : g₀.Covers g n)
    (hnew : g.Covers g' m) (hanchors : g.Anchors g') (hmembers : g.MembersAgree)
    (hmembers' : g'.MembersAgree) (hm : g'.HasOp m) (hloose : (g'.op m).block = none)
    {p : OpId} (hb : g.blockParent b = some p) (hp : g.Inside n p) :
    g₀.Covers (g'.place b k m) n := by
  have hplace := anchors_place b k hloose
  have hinside : ∀ {j}, g.Inside n j → (g'.place b k m).Inside n j := fun hj =>
    hplace.inside hmembers' (hanchors.inside hmembers hj)
  -- the root of the tree lies in the block now
  have hroot : (g'.place b k m).parent m = some p := by
    have hthere := hasBlock_of_blockParent hb
    rw [parent, op_place, if_pos ⟨rfl, hm⟩]
    show (g'.place b k m).blockParent b = some p
    rw [blockParent, hplace.home b (hanchors.within.hasBlock hthere), hanchors.home b hthere]
    exact hb
  intro j hj
  rcases hnew j (hasOp_place.mp hj) with hold | hin
  · exact (h j hold).imp_right hinside
  · exact Or.inr (.trans (.step hroot (hinside hp)) (hplace.inside hmembers' hin))

section

variable {s : Graph × Mapping}

theorem anchors_copyBlock (r : RegionId) (b : BlockId) :
    s.1.Anchors (copyBlock r b s).2.1 ∧
      (∀ j, (copyBlock r b s).2.1.HasOp j → s.1.HasOp j) ∧
      (copyBlock r b s).2.1.blockParent (copyBlock r b s).1 = some r.op := by
  obtain ⟨g, m⟩ := s
  -- the new block is at home in the region, and all others stay
  have hhome : ∀ c, ((copyBlock r b (g, m)).2.1.block c).home =
      if c = ⟨g.blocks.size⟩ then some r else (g.block c).home := by
    intro c
    rw [copyBlock_eq]
    show ((addArguments _ _ _).1.block c).home = _
    rw [block_addArguments, Owned.block_addBlock]
    by_cases hc : c = ⟨g.blocks.size⟩
    · rw [if_pos hc, if_pos hc]
      split <;> rfl
    · rw [if_neg hc, if_neg hc]
      split <;> rfl
  have hops : (copyBlock r b (g, m)).2.1.ops = (g.addBlock r).1.ops := by
    rw [copyBlock_eq]
    exact ops_addArguments _ _ _
  refine ⟨⟨?_, fun j c hc => ?_, fun c hc => ?_⟩, fun j hj => ?_, ?_⟩
  · rw [copyBlock_eq]
    exact (within_addBlock g r).trans (hasValue_addArguments _ _).1
  · rw [op, hops, ← op]
    exact (op_addBlock_fields g r.op r.index j).1.trans hc
  · rw [hhome, if_neg hc.ne_next]
  · rw [HasOp, hops] at hj
    exact Nat.lt_of_lt_of_eq hj Array.size_modify
  · rw [blockParent, hhome, copyBlock_eq]
    exact congrArg _ (if_pos rfl)

/-- `copyBlock` adds new blocks to region `r`, with nothing in them. -/
theorem anchors_mapM_copyBlock (r : RegionId) (blocks : List BlockId) :
    s.1.Anchors (blocks.mapM (copyBlock r) s).2.1 ∧
      (∀ j, (blocks.mapM (copyBlock r) s).2.1.HasOp j → s.1.HasOp j) ∧
      ∀ b ∈ (blocks.mapM (copyBlock r) s).1,
        (blocks.mapM (copyBlock r) s).2.1.blockParent b = some r.op := by
  induction blocks generalizing s with
  | nil => exact ⟨.refl _, fun _ h => h, nofun⟩
  | cons b rest ih =>
    obtain ⟨hfirst, hops, hnew⟩ := anchors_copyBlock (s := s) r b
    obtain ⟨hrest, hops', hnews⟩ := ih (s := (copyBlock r b s).2)
    rw [List.mapM_cons]
    refine ⟨hfirst.trans hrest, fun j hj => hops j (hops' j hj), fun c hc => ?_⟩
    rcases List.mem_cons.mp hc with rfl | hc
    · have hhome := hrest.home _ (hasBlock_of_blockParent hnew)
      exact (congrArg (·.map (·.op)) hhome).trans hnew
    · exact hnews c hc

/-- What holds of copies of depth `n`: all that is new lies inside the copy. -/
def CoversTo (n : Nat) : Prop :=
  ∀ (i : OpId) (s : Graph × Mapping), s.1.WellFormed → s.2.Into s.1 →
    s.1.Covers (copyTree n i s).2.1 s.1.nextOp

theorem covers_copyHead (i : OpId) : s.1.Covers (copyHead i s).2.1 s.1.nextOp := by
  rw [copyHead_eq i s.1 s.2]
  exact covers_install _ _ _ _

theorem covers_copyChild {n : Nat} (hn : CoversTo n) (h : s.1.WellFormed) (hm : s.2.Into s.1)
    {new : OpId} (hcovers : g₀.Covers s.1 new) {target : BlockId} {p : OpId}
    (htarget : s.1.blockParent target = some p) (hp : s.1.Inside new p) (child : OpId) :
    s.1.Anchors (copyChild n target child s).2.1 ∧
      g₀.Covers (copyChild n target child s).2.1 new := by
  obtain ⟨hgrows, hid, hloose⟩ := copiesTo {} n child s h hm
  have hanchors : s.1.Anchors (copyTree n child s).2.1 :=
    ((Enlarges.refl s.1 ⟨s.1.blocks.size⟩).copyTree n child).1.anchors
  have hwf' : (copyTree n child s).2.1.WellFormed := h.edits hgrows.path
  show s.1.Anchors (adopt target (copyTree n child s).1 _).2.1 ∧
    g₀.Covers (adopt target (copyTree n child s).1 _).2.1 new
  rw [hid, adopt_eq target s.1.nextOp (copyTree n child s).2.1 (copyTree n child s).2.2]
  exact ⟨hanchors.trans (anchors_place _ _ hloose.block), hcovers.place (hn child s h hm) hanchors
    h.members hwf'.members hloose.there hloose.block htarget hp⟩

/-- The loops of `copyRegion` over the blocks and over their operations: everything that they add
lies inside `new`. -/
theorem covers_copyBlocks {n : Nat} (hn : CoversTo n) (h : s.1.WellFormed) (hm : s.2.Into s.1)
    {new : OpId} (hcovers : g₀.Covers s.1 new) (source : Graph)
    {targets : List (BlockId × BlockId)}
    (htargets : ∀ bt ∈ targets, s.1.blockParent bt.2 = some new) :
    g₀.Covers (targets.forM (fun bt => (source.block bt.1).ops.forM (copyChild n bt.2)) s).2.1
      new := by
  -- both loops keep that all has its place since the blocks were made
  refine (forM_keeps (I := fun s' => Grows {} s s' ∧ s.1.Anchors s'.1 ∧ g₀.Covers s'.1 new)
    (fun bt hbt s₁ h₁ => ?_) ⟨Grows.refl hm, .refl _, hcovers⟩).2.2
  refine forM_keeps (I := fun s' => Grows {} s s' ∧ s.1.Anchors s'.1 ∧ g₀.Covers s'.1 new)
    (fun child _ s₂ ⟨hgrows, hheld, hin⟩ => ?_) h₁
  have hthere := hasBlock_of_blockParent (htargets bt hbt)
  have htarget : s₂.1.blockParent bt.2 = some new :=
    (congrArg (·.map (·.op)) (hheld.home _ hthere)).trans (htargets bt hbt)
  have hwf := h.edits hgrows.path
  obtain ⟨hanchors, hcovers'⟩ := covers_copyChild hn hwf hgrows.into hin htarget .root child
  exact ⟨hgrows.trans (grows_copyChild (copiesTo {} n) hwf hgrows.into
    (hgrows.path.within.hasBlock hthere) child), hheld.trans hanchors, hcovers'⟩

theorem covers_copyRegion {n : Nat} (hn : CoversTo n) (h : s.1.WellFormed) (hm : s.2.Into s.1)
    {new : OpId} (hcovers : g₀.Covers s.1 new) (source : Graph) {region : List BlockId × Nat}
    (hnew : s.1.HasOp new) (hregion : region.2 < (s.1.op new).regions.length) :
    g₀.Covers (copyRegion n new source region s).2.1 new := by
  obtain ⟨hblocks, -⟩ := grows_mapM_copyBlock {} (r := ⟨new, region.2⟩) hm hnew hregion region.1
  obtain ⟨hanchors, hops, hhomes⟩ := anchors_mapM_copyBlock (s := s) ⟨new, region.2⟩ region.1
  exact covers_copyBlocks hn (h.edits hblocks.path) hblocks.into
    (hcovers.anchors h.members hanchors hops) source fun bt hbt => hhomes bt.2 (List.of_mem_zip hbt).2

theorem coversTo (n : Nat) : CoversTo n := by
  induction n with
  | zero => exact fun i s _ _ => covers_copyHead i
  | succ n ih =>
    intro i s h hm
    obtain ⟨g, m⟩ := s
    obtain ⟨hhead, hid, hloose⟩ := grows_copyHead {} h hm i
    have hregions := length_regions_copyHead i g m
    have hcovers : g.Covers (copyHead i (g, m)).2.1 g.nextOp := covers_copyHead (s := (g, m)) i
    rw [copyTree_succ]
    -- from here on only what is known of the head matters
    generalize copyHead i (g, m) = head at hhead hid hloose hregions hcovers ⊢
    obtain ⟨new, s₁⟩ := head
    obtain rfl : new = g.nextOp := hid
    have h₁ : s₁.1.WellFormed := h.edits hhead.path
    refine (forM_keeps (I := fun s' : Graph × Mapping => Grows {} s₁ s' ∧ g.Covers s'.1 g.nextOp)
      (fun region hregion s₂ ⟨hgrows, hin⟩ => ?_) ⟨Grows.refl hhead.into, hcovers⟩).2
    have hthere := hgrows.path.within.hasOp hloose.there
    have hlength : region.2 < (s₂.1.op g.nextOp).regions.length := by
      rw [hgrows.path.length_regions hloose.there, ← hregions]
      exact List.snd_lt_of_mem_zipIdx hregion
    exact ⟨hgrows.trans (grows_copyRegion (copiesTo {} n) (h₁.edits hgrows.path) hgrows.into s₁.1
      hthere hlength), covers_copyRegion ih (h₁.edits hgrows.path) hgrows.into hin s₁.1 hthere
      hlength⟩

end

/-! ## Values that nobody reads -/

/-- No slot of `g` holds `v`. -/
def Unread (g : Graph) (v : ValueId) : Prop := ∀ s, (g.slot s).value ≠ some v

namespace Unread

variable {v : ValueId}

theorem install (h : g.Unread v) (o : Op) {vals : List (Option ValueId)} (types : List (Option Ty))
    (hv : some v ∉ vals) : (g.install o vals types).Unread v := by
  intro s hs
  rcases slot_inserted_cases g o vals types ⟨0⟩ 0 hs with ⟨-, hold⟩ | ⟨hmem, -⟩
  · rw [slot_inserted] at hold
    rw [hold] at hs
    exact h s hs
  · exact hv hmem

/-- What `copyTree` adds reads what the original reads, or other copies. -/
theorem copyTree {s : Graph × Mapping} (h : s.1.Unread v) (hv : s.1.HasValue v)
    (hm : ∀ e ∈ s.2.entries, e.2 ≠ some v) (n : Nat) (i : OpId) :
    (copyTree n i s).2.1.Unread v := by
  refine (copyTree_keeps (P := fun _ => True) (Q := fun _ => True)
    (I := fun s => s.1.Unread v ∧ s.1.HasValue v ∧ ∀ e ∈ s.2.entries, e.2 ≠ some v)
    (fun i s ⟨h, hv, hm⟩ => ?_) (fun r b s _ ⟨h, hv, hm⟩ => ?_) (fun b i s _ _ ⟨h, hv, hm⟩ => ?_)
    n i ⟨h, hv, hm⟩).1.1
  · rw [copyHead_eq i s.1 s.2]
    -- an operand of the copy is what is read in the place of one of the original
    have hvals : some v ∉ (s.1.operands i).map s.2.get := by
      intro hmem
      obtain ⟨u, hu, heq⟩ := List.mem_map.mp hmem
      obtain ⟨t, -, rfl⟩ := List.mem_map.mp hu
      exact Mapping.get_of_forall (P := (· ≠ some v)) hm (h t) heq
    have hwithin := within_install s.1 (copyRow (s.1.op i)) ((s.1.operands i).map s.2.get)
      (s.1.resultTypes i)
    refine ⟨⟨h.install _ _ hvals, hwithin.hasValue hv, ?_⟩, trivial⟩
    refine Mapping.forall_insertAll (P := (· ≠ some v)) hm fun w hw heq => ?_
    cases heq
    exact Nat.not_lt.mpr (mem_valuesFrom.mp hw).1 hv
  · rw [copyBlock_eq r b s.1 s.2]
    have hwithin := (within_addBlock s.1 r).trans (hasValue_addArguments (s.1.addBlock r).2
      ((s.1.block b).args.map s.1.typeOf)).1
    refine ⟨⟨fun t => ?_, hwithin.hasValue hv, ?_⟩, trivial⟩
    · rw [slot, slots_addArguments]
      exact h t
    · refine Mapping.forall_insertAll (P := (· ≠ some v)) hm fun w hw heq => ?_
      cases heq
      rw [snd_addArguments] at hw
      exact Nat.not_lt.mpr (mem_valuesFrom.mp hw).1 hv
  · rw [adopt_eq b i s.1 s.2]
    exact ⟨h, hv, hm⟩

end Unread

end Multistage.Graph
