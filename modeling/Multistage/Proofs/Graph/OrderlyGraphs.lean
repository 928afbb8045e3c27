import Multistage.Proofs.Build.Builder
import Multistage.Proofs.Tree.Erasure

/-!
# Orderly graphs

A graph is orderly if only operands of live operations hold values, whatever lies inside an erased
operation is erased with it, and no operation lies inside itself. A well-formed graph need not be
orderly: a slot that an operation let go of can be assigned, and an operation can be put into its
own block. Every edit that does neither keeps a graph orderly, and erasing and copying whole trees
do as well.
-/

namespace Multistage.Graph

variable {g g' : Graph}

instance (g : Graph) (s : SlotId) : Decidable (g.Current s) :=
  inferInstanceAs (Decidable (_ ∧ _))

/-- Only `Current` slots hold values, an operation with an erased one in its blocks is erased, and
no operation lies inside itself. -/
structure Orderly (g : Graph) : Prop where
  current : ∀ s v, (g.slot s).value = some v → g.Current s
  around : ∀ i p, (g.op i).erased = true → g.parent i = some p → (g.op p).erased = true
  acyclic : g.Acyclic

/-- Where nothing gets a new `parent`, nothing comes to lie inside anything. -/
theorem Inside.of_parent {root i : OpId} (hinside : g'.Inside root i)
    (hparent : ∀ j p, g'.parent j = some p → g.parent j = some p) : g.Inside root i := by
  induction hinside with
  | root => exact .root
  | step hp _ ih => exact .step (hparent _ _ hp) ih

theorem Acyclic.of_parent (h : g.Acyclic)
    (hparent : ∀ j p, g'.parent j = some p → g.parent j = some p) : g'.Acyclic := by
  rw [acyclic_iff] at h ⊢
  exact fun i p hp hinside => h i p (hparent i p hp) (hinside.of_parent hparent)

namespace Orderly

theorem empty : Orderly {} where
  current _ _ hs := nomatch hs
  around _ _ _ hp := nomatch hp
  acyclic _ _ hp := nomatch hp

/-- All that lies inside a live operation `root` is live. -/
theorem live_of_inside (h : g.Orderly) {root i : OpId} (hroot : (g.op root).erased = false)
    (hinside : g.Inside root i) : (g.op i).erased = false := by
  induction hinside with
  | root => exact hroot
  | @step i p hp _ ih =>
    refine Bool.eq_false_iff.mpr fun herased => ?_
    rw [h.around i p herased hp] at ih
    cases ih

/-- `Orderly` looks at parents, marks and operands only. -/
theorem congr (h : g.Orderly) (hparent : ∀ i, g'.parent i = g.parent i)
    (hop : ∀ i, (g'.op i).erased = (g.op i).erased ∧ (g'.op i).operands = (g.op i).operands)
    (hslot : ∀ s, (g'.slot s).owner = (g.slot s).owner ∧ (g'.slot s).value = (g.slot s).value) :
    g'.Orderly where
  current s v hs := by
    rw [(hslot s).2] at hs
    rw [Current, (hslot s).1, (hop _).1, (hop _).2]
    exact h.current s v hs
  around i p hi hp := by
    rw [hparent] at hp
    rw [(hop _).1] at hi ⊢
    exact h.around i p hi hp
  acyclic := h.acyclic.of_parent fun i _ hp => by rwa [hparent i] at hp

/-- Where everything is `Standing`, only the slots matter. -/
theorem of_standing (h : g.Orderly) (hstanding : Standing g g')
    (hcurrent : ∀ s v, (g'.slot s).value = some v → g'.Current s) : g'.Orderly where
  current := hcurrent
  around i p hi hp := by
    rw [hstanding.parent] at hp
    rw [hstanding.erased] at hi ⊢
    exact h.around i p hi hp
  acyclic := h.acyclic.of_parent fun i _ hp => by rwa [hstanding.parent i] at hp

end Orderly

/-! ## Slots -/

theorem current_assign {s t : SlotId} {v : Option ValueId} :
    (g.assign s v).Current t ↔ g.Current t := by
  rw [Current, owner_assign, op_assign, Current]

theorem current_of_mem (h : g.WellFormed) {i : OpId} (hlive : (g.op i).erased = false)
    {s : SlotId} (hs : s ∈ (g.op i).operands) : g.Current s := by
  rw [Current, (h.numbered.of_mem hs).2.1]
  exact ⟨hlive, hs⟩

/-- An operation `i` that is not there has no segments. -/
theorem hasOp_of_segment? {i : OpId} {name : String} {segment : Nat × Nat}
    (hfound : (g.op i).segment? name = some segment) : g.HasOp i := by
  by_contra hout
  rw [op_of_not_hasOp hout] at hfound
  cases hfound

namespace Orderly

/-- A `Current` slot may get any value, and any slot may be left without one. -/
theorem assign (h : g.Orderly) {s : SlotId} {v : Option ValueId} (hs : v.isSome → g.Current s) :
    (g.assign s v).Orderly := by
  refine h.of_standing (.assign g s v) fun t w ht => current_assign.mpr ?_
  rw [slot_assign] at ht
  split at ht
  · next hst =>
    obtain ⟨rfl, -⟩ := hst
    exact hs (Option.isSome_iff_exists.mpr ⟨w, ht⟩)
  · exact h.current t w ht

theorem assignAll (h : g.Orderly) {slots : List SlotId} {v : Option ValueId}
    (hslots : v.isSome → ∀ s ∈ slots, g.Current s) : (g.assignAll slots v).Orderly := by
  induction slots generalizing g with
  | nil => exact h
  | cons s rest ih =>
    refine ih (h.assign fun hv => hslots hv s List.mem_cons_self) fun hv t ht => ?_
    exact current_assign.mpr (hslots hv t (List.mem_cons_of_mem s ht))

theorem assignEach (h : g.Orderly) {slots : List SlotId} {vals : List ValueId}
    (hslots : ∀ s ∈ slots, g.Current s) : (g.assignEach slots vals).Orderly := by
  induction slots generalizing g vals with
  | nil => exact h
  | cons s rest ih =>
    cases vals with
    | nil => exact h
    | cons v vals =>
      refine ih (h.assign fun _ => hslots s List.mem_cons_self) fun t ht => ?_
      exact current_assign.mpr (hslots t (List.mem_cons_of_mem s ht))

/-- `replaceUsesIf` gives values to slots that hold one already. -/
theorem replaceUsesIf (h : g.Orderly) (huses : g.UsesAgree) (v : ValueId) (new : Option ValueId)
    (keep : SlotId → Bool) : (g.replaceUsesIf v new keep).Orderly := by
  unfold Graph.replaceUsesIf
  split
  · exact h
  · refine h.assignAll fun _ s hs => ?_
    exact h.current s v (huses.mem_uses_iff.mp (List.mem_of_mem_filter hs))

theorem replaceAll (h : g.Orderly) (hwf : g.WellFormed) {pairs : List (ValueId × Option ValueId)}
    (hpairs : ∀ p ∈ pairs, g.HasOptValue p.2) : (Build.replaceAll g pairs).Orderly := by
  induction pairs generalizing g with
  | nil => exact h
  | cons p rest ih =>
    have hfirst : Edits {} g (g.replaceUses p.1 p.2) :=
      edits_replaceUsesIf hwf.uses p.1 (hpairs p List.mem_cons_self) _
    refine ih (h.replaceUsesIf hwf.uses p.1 p.2 _) (hwf.edits hfirst) fun q hq => ?_
    exact hfirst.within.hasOptValue (hpairs q (List.mem_cons_of_mem p hq))

/-- `setSegment` of a live operation `i`. -/
theorem setSegment (h : g.Orderly) (hwf : g.WellFormed) {i : OpId}
    (hlive : (g.op i).erased = false) {name : String} {vals : List (Option ValueId)}
    (hok : g.setSegment i name vals = .ok g') : g'.Orderly := by
  obtain ⟨start, size, hfound, ⟨-, -, rfl⟩ | ⟨-, rfl⟩⟩ := setSegment_ok hok
  -- a segment of the same length keeps its slots, any other gets new ones
  · refine h.assignEach fun s hs => ?_
    exact current_of_mem hwf hlive (List.mem_of_mem_drop (List.mem_of_mem_take hs))
  · have hi : g.HasOp i := hasOp_of_segment? hfound
    refine h.of_standing (.spliceSegment g i name start size _) fun s v hs => ?_
    rcases current_spliceSegment i name start size _ hwf.numbered hi hlive hs with
      ⟨hold, hkept⟩ | hcurrent
    · exact hkept (h.current s v hold)
    · exact hcurrent

/-! ## New rows -/

theorem install (h : g.Orderly) (hwf : g.WellFormed) {o : Op} (ho : o.Blank)
    (vals : List (Option ValueId)) (types : List (Option Ty)) :
    (g.install o vals types).Orderly := by
  have hrow := op_install g o vals types
  have hparent : ∀ j p, (g.install o vals types).parent j = some p → g.parent j = some p := by
    intro j p hp
    obtain ⟨b, hb, hbp⟩ := Option.bind_eq_some_iff.mp hp
    rw [blockParent, block_install] at hbp
    rw [hrow] at hb
    split at hb
    · rw [show _ = none from ho.block] at hb
      cases hb
    · exact Option.bind_eq_some_iff.mpr ⟨b, hb, hbp⟩
  refine ⟨fun s v hs => ?_, fun j p hj hp => ?_, h.acyclic.of_parent hparent⟩
  · unfold Current
    by_cases hold : g.HasSlot s
    · rw [slot_install_of_hasSlot g o vals types hold] at hs ⊢
      have hcurrent := h.current s v hs
      rw [hrow, if_neg (hasOp_of_mem_operands hcurrent.2).ne_nextOp]
      exact hcurrent
    · -- only the slots of the new operation are new
      have hlt : s.index < g.slots.size + vals.length := by
        rw [← size_slots_install g o vals types]
        exact hasSlot_of_value_eq_some hs
      obtain ⟨n, rfl⟩ := exists_slot_of_le (Nat.not_lt.mp hold)
      have hget := List.getElem?_eq_getElem (Nat.lt_of_add_lt_add_left hlt)
      rw [slot_install_of_getElem? g o vals types hget, hrow, if_pos rfl]
      exact ⟨ho.live, mem_slotsFrom.mpr ⟨Nat.le_add_right _ _, hlt⟩⟩
  · have hold := hparent j p hp
    rw [hrow, if_neg (hasOp_of_parent hold).ne_nextOp] at hj
    obtain ⟨b, -, hb⟩ := Option.bind_eq_some_iff.mp hold
    rw [hrow, if_neg (hasOp_of_blockParent hwf hb).ne_nextOp]
    exact h.around j p hj hold

theorem skipOp (h : g.Orderly) : g.skipOp.Orderly :=
  h.congr (fun _ => by unfold parent; rw [op_skipOp]; rfl)
    (fun _ => by rw [op_skipOp]; exact ⟨rfl, rfl⟩) fun _ => ⟨rfl, rfl⟩

theorem addBlock (h : g.Orderly) (hwf : g.WellFormed) (i : OpId) (r : Nat) :
    (g.addBlock ⟨i, r⟩).1.Orderly := by
  refine h.congr (parent_addBlock hwf i r) (fun j => ?_) fun _ => ⟨rfl, rfl⟩
  obtain ⟨-, herased, hoperands, -⟩ := op_addBlock_fields g i r j
  exact ⟨herased, hoperands⟩

theorem addArgument (h : g.Orderly) (b : BlockId) (ty : Option Ty) :
    (g.addArgument b ty).1.Orderly := by
  refine h.congr (fun i => ?_) (fun _ => ⟨rfl, rfl⟩) fun _ => ⟨rfl, rfl⟩
  refine Option.bind_congr fun c _ => ?_
  rw [blockParent, Owned.home_addArgument, blockParent]

theorem addArguments (h : g.Orderly) (b : BlockId) (types : List (Option Ty)) :
    (g.addArguments b types).1.Orderly := by
  induction types generalizing g with
  | nil => exact h
  | cons ty rest ih => exact ih (h.addArgument b ty)

/-- `Orderly` does not look at `attrs` and `loc`. -/
theorem describe (h : g.Orderly) (i : OpId) {f : Op → Op}
    (hf : ∀ o, ∃ attrs loc, f o = { o with attrs := attrs, loc := loc }) :
    (g.modifyOp i f).Orderly := by
  have hrow : ∀ j, ((g.modifyOp i f).op j).block = (g.op j).block ∧
      ((g.modifyOp i f).op j).erased = (g.op j).erased ∧
      ((g.modifyOp i f).op j).operands = (g.op j).operands := by
    intro j
    rw [op_modifyOp]
    split
    · obtain ⟨attrs, loc, ho⟩ := hf (g.op j)
      rw [ho]
      exact ⟨rfl, rfl, rfl⟩
    · exact ⟨rfl, rfl, rfl⟩
  refine h.congr (fun j => ?_) (fun j => (hrow j).2) fun _ => ⟨rfl, rfl⟩
  unfold parent
  rw [(hrow j).1]
  rfl

theorem retype (h : g.Orderly) (v : ValueId) (ty : Option Ty) :
    (g.modifyValue v fun x => { x with ty }).Orderly :=
  h.congr (fun _ => rfl) (fun _ => ⟨rfl, rfl⟩) fun _ => ⟨rfl, rfl⟩

end Orderly

/-! ## Places -/

theorem parent_place (b : BlockId) (k : Nat) (i j : OpId) :
    (g.place b k i).parent j =
      if i = j ∧ j.index < g.ops.size then g.blockParent b else g.parent j := by
  have hblocks : ∀ c, (g.place b k i).blockParent c = g.blockParent c := by
    intro c
    unfold blockParent
    rw [block_place]
    split <;> rfl
  by_cases hij : i = j ∧ j.index < g.ops.size
  · rw [parent, op_place, if_pos hij, if_pos hij]
    exact hblocks b
  · rw [parent, op_place, if_neg hij, if_neg hij]
    exact Option.bind_congr fun c _ => hblocks c

/-- What `x` lies inside of after `place`: as before, or around the block `b`. -/
theorem inside_of_inside_place {b : BlockId} {k : Nat} {i a x : OpId}
    (hout : ∀ p, g.blockParent b = some p → ¬ g.Inside i p)
    (hinside : (g.place b k i).Inside a x) :
    g.Inside a x ∨ g.Inside i x ∧ ∃ p, g.blockParent b = some p ∧ g.Inside a p := by
  induction hinside with
  | root => exact Or.inl .root
  | @step x q hq _ ih =>
    rw [parent_place] at hq
    split at hq
    · next hx =>
      obtain ⟨rfl, -⟩ := hx
      rcases ih with hold | ⟨hinside, -⟩
      · exact Or.inr ⟨.root, q, hq, hold⟩
      · exact absurd hinside (hout q hq)
    · rcases ih with hold | ⟨hinside, hp⟩
      · exact Or.inl (.step hq hold)
      · exact Or.inr ⟨.step hq hinside, hp⟩

namespace Orderly

/-- A live operation `i` may be put into a block `b` that is not inside it. -/
theorem place (h : g.Orderly) {b : BlockId} (k : Nat) {i : OpId} (hlive : (g.op i).erased = false)
    (hout : ∀ p, g.blockParent b = some p → ¬ g.Inside i p) : (g.place b k i).Orderly := by
  have hrow : ∀ j, ((g.place b k i).op j).erased = (g.op j).erased ∧
      ((g.place b k i).op j).operands = (g.op j).operands := by
    intro j
    rw [op_place]
    split <;> exact ⟨rfl, rfl⟩
  refine ⟨fun s v hs => ?_, fun j p hj hp => ?_, acyclic_iff.mpr fun j p hp hinside => ?_⟩
  · rw [Current, (hrow _).1, (hrow _).2]
    exact h.current s v hs
  · rw [parent_place] at hp
    rw [(hrow _).1] at hj ⊢
    split at hp
    · -- the placed operation is live, whatever it is put into
      next hij =>
      rw [← hij.1, hlive] at hj
      cases hj
    · exact h.around j p hj hp
  · have hcases := inside_of_inside_place hout hinside
    rw [parent_place] at hp
    split at hp
    · next hij =>
      obtain ⟨rfl, -⟩ := hij
      exact hout p hp (hcases.elim id And.left)
    · rcases hcases with hold | ⟨hi, q, hq, hjq⟩
      · exact h.acyclic.not_inside hp hold
      · -- the place is inside `j`, which is inside the placed operation
        exact hout q hq (hi.step hp |>.trans hjq)

theorem insertAt (h : g.Orderly) {b : BlockId} {k : Nat} {i : OpId}
    (hout : ∀ p, g.blockParent b = some p → ¬ g.Inside i p)
    (hok : g.insertAt b k i = .ok g') : g'.Orderly := by
  obtain ⟨-, hlive, rfl⟩ := insertAt_ok hok
  exact h.place k hlive hout

end Orderly

theorem blockParent_detach (i : OpId) (b : BlockId) :
    (g.detach i).blockParent b = g.blockParent b := by
  unfold blockParent
  rw [block_detach]
  split <;> rfl

theorem block_of_detach {i j : OpId} {b : BlockId} (hb : ((g.detach i).op j).block = some b) :
    (g.op j).block = some b := by
  rw [op_detach] at hb
  split at hb
  · cases hb
  · exact hb

theorem parent_of_detach {i : OpId} (j p : OpId) (hp : (g.detach i).parent j = some p) :
    g.parent j = some p := by
  obtain ⟨b, hb, hbp⟩ := Option.bind_eq_some_iff.mp hp
  rw [blockParent_detach] at hbp
  exact Option.bind_eq_some_iff.mpr ⟨b, block_of_detach hb, hbp⟩

namespace Orderly

theorem detach (h : g.Orderly) (i : OpId) : (g.detach i).Orderly := by
  have hrow : ∀ j, ((g.detach i).op j).erased = (g.op j).erased ∧
      ((g.detach i).op j).operands = (g.op j).operands := by
    intro j
    rw [op_detach]
    split <;> exact ⟨rfl, rfl⟩
  refine ⟨fun s v hs => ?_, fun j p hj hp => ?_, h.acyclic.of_parent parent_of_detach⟩
  · rw [slot_detach] at hs
    rw [Current, slot_detach, (hrow _).1, (hrow _).2]
    exact h.current s v hs
  · rw [(hrow _).1] at hj ⊢
    exact h.around j p hj (parent_of_detach j p hp)

/-- `i` may be moved before an operation `other` that is not inside it. -/
theorem relocate (h : g.Orderly) {i other : OpId}
    (hout : ∀ p, g.parent other = some p → ¬ g.Inside i p)
    (hok : (g.detach i).insertBefore i other = .ok g') : g'.Orderly := by
  unfold insertBefore at hok
  split at hok
  · cases hok
  · next b hb =>
    split at hok
    · cases hok
    · refine (h.detach i).insertAt (fun p hp hinside => ?_) hok
      rw [blockParent_detach] at hp
      have hother : g.parent other = some p :=
        Option.bind_eq_some_iff.mpr ⟨b, block_of_detach hb, hp⟩
      exact hout p hother (hinside.of_parent parent_of_detach)

/-- `erase` takes a whole tree, with all that its operations hold. -/
theorem erase (h : g.Orderly) (hwf : g.WellFormed) {i : OpId} (hi : g.HasOp i)
    (hok : g.erase i = .ok g') : g'.Orderly := by
  obtain ⟨-, -, rfl⟩ := erase_eq_ok_iff.mp hok
  have hparent : ∀ j p, (g.felled i).parent j = some p → j ≠ i ∧ g.parent j = some p := by
    intro j p hp
    rw [parent_felled] at hp
    split at hp
    · cases hp
    · next hij => exact ⟨Ne.symm hij, hp⟩
  refine ⟨fun s v hs => ?_, fun j p hj hp => ?_,
    h.acyclic.of_parent fun j p hp => (hparent j p hp).2⟩
  · obtain ⟨howner, hheld⟩ := slot_felled (g := g) i s
    rw [hheld] at hs
    split at hs
    · cases hs
    · next hout =>
      obtain ⟨hlive, hmem⟩ := h.current s v hs
      -- the owner is not in the tree, since the slot kept its value
      rw [Current, howner, op_felled]
      refine ⟨?_, hmem⟩
      rw [hlive, Bool.false_or, decide_eq_false_iff_not]
      exact fun hc => hout ⟨_, hc.1, hmem⟩
  · obtain ⟨hji, hold⟩ := hparent j p hp
    rw [erased_felled hwf hi] at hj ⊢
    rcases hj with hj | hinside
    · exact Or.inl (h.around j p hj hold)
    · cases hinside with
      | root => exact absurd rfl hji
      | step hq hrest =>
        -- one step up the tree of `i` is still in it
        rw [hold] at hq
        cases hq
        exact Or.inr hrest

end Orderly

/-! ## Copies -/

/-- No `Edit` moves a block to another region. -/
theorem Edit.home {cat : Catalog} (he : Edit cat g g') {b : BlockId} (hb : g.HasBlock b) :
    (g'.block b).home = (g.block b).home := by
  cases he with
  | install o vals types => rw [block_install]
  | skip => rfl
  | assign s v => rw [block, blocks_assign, ← block]
  | splice i name start size vals =>
    rw [(Standing.spliceSegment g i name start size vals).blocks]
  | place c k i =>
    rw [block_place]
    split <;> rfl
  | detach i =>
    rw [block_detach]
    split <;> rfl
  | mark i => rfl
  | addBlock i r => rw [block_addBlock_of_ne g i r hb.ne_next]
  | addArgument c ty => rw [Owned.home_addArgument]
  | describe i f => rfl
  | retype v ty => rfl

theorem Edits.home {cat : Catalog} (he : Edits cat g g') {b : BlockId} (hb : g.HasBlock b) :
    (g'.block b).home = (g.block b).home := by
  induction he with
  | refl => rfl
  | tail hfirst hlast ih => exact (hlast.home (Edits.within hfirst |>.hasBlock hb)).trans ih

/-- `g'` has a new operation `i`, which is `Loose`, and all others are where they were. -/
structure Arrives (cat : Catalog) (g g' : Graph) (i : OpId) : Prop where
  path : Edits cat g g'
  kept : ∀ j, g.HasOp j →
    (g'.op j).block = (g.op j).block ∧ (g'.op j).erased = (g.op j).erased
  new : ¬ g.HasOp i
  loose : g'.Loose i

/-- Nothing that was there lies inside the new operation `i`. -/
theorem Arrives.not_inside {cat : Catalog} {i p : OpId} (h : Arrives cat g g' i)
    (hwf : g.WellFormed) (hp : g.HasOp p) : ¬ g'.Inside i p := by
  have hparent : ∀ j, g.HasOp j → g'.parent j = g.parent j := by
    intro j hj
    unfold parent
    rw [(h.kept j hj).1]
    refine Option.bind_congr fun b hb => ?_
    rw [blockParent, h.path.home (hwf.members.hasBlock hb), blockParent]
  rw [Inside.congr hparent (fun x q _ hq => ?_) hp]
  · intro hinside
    exact h.new (hinside.hasOp_root hwf fun hpi => h.new (hpi ▸ hp))
  · obtain ⟨b, -, hb⟩ := Option.bind_eq_some_iff.mp hq
    exact hasOp_of_blockParent hwf hb

/-- The new operation `i` may be put into any block `b` that was there before it. -/
theorem Arrives.not_inside_block {cat : Catalog} {i p : OpId} (h : Arrives cat g g' i)
    (hwf : g.WellFormed) {b : BlockId} (hb : g.HasBlock b) (hp : g'.blockParent b = some p) :
    ¬ g'.Inside i p := by
  rw [blockParent, h.path.home hb] at hp
  exact h.not_inside hwf (hasOp_of_blockParent hwf hp)

theorem arrives_install {cat : Catalog} {o : Op} (ho : o.Blank) {vals : List (Option ValueId)}
    {types : List (Option Ty)} (he : Edit cat g (g.install o vals types)) :
    Arrives cat g (g.install o vals types) g.nextOp := by
  have hrow := op_install g o vals types
  refine ⟨.single he, fun j hj => ?_, Nat.lt_irrefl _, ?_, ?_, ?_⟩
  · rw [hrow, if_neg hj.ne_nextOp]
    exact ⟨rfl, rfl⟩
  · show g.ops.size < _
    rw [size_ops_install]
    exact Nat.lt_succ_self _
  · rw [hrow, if_pos rfl]
    exact ho.block
  · rw [hrow, if_pos rfl]
    exact ho.live

section

variable {s : Graph × Mapping}

/-- Copies of depth `n` keep graphs orderly. -/
def CopiesOrderly (n : Nat) : Prop :=
  ∀ (i : OpId) (s : Graph × Mapping), s.1.WellFormed → s.2.Into s.1 → s.1.Orderly →
    (copyTree n i s).2.1.Orderly

theorem Orderly.copyHead (h : s.1.Orderly) (hwf : s.1.WellFormed) (i : OpId) :
    (copyHead i s).2.1.Orderly := by
  obtain ⟨g, m⟩ := s
  rw [copyHead_eq]
  exact h.install hwf (blank_copyRow _) _ _

theorem Orderly.mapM_copyBlock (h : s.1.Orderly) (hwf : s.1.WellFormed) (hm : s.2.Into s.1)
    {r : RegionId} (hr : s.1.HasOp r.op) (hregion : r.index < (s.1.op r.op).regions.length)
    (blocks : List BlockId) : (blocks.mapM (copyBlock r) s).2.1.Orderly := by
  induction blocks generalizing s with
  | nil => exact h
  | cons b rest ih =>
    obtain ⟨hfirst, -⟩ := grows_copyBlock {} hm hr hregion b
    rw [List.mapM_cons]
    have horderly : (copyBlock r b s).2.1.Orderly := by
      show (copyBlock r b (s.1, s.2)).2.1.Orderly
      rw [copyBlock_eq]
      exact (h.addBlock hwf r.op r.index).addArguments _ _
    have hlt : r.index < ((copyBlock r b s).2.1.op r.op).regions.length := by
      rw [hfirst.path.length_regions hr]
      exact hregion
    exact ih horderly (hwf.edits hfirst.path) hfirst.into (hfirst.path.within.hasOp hr) hlt

theorem Orderly.copyChild {n : Nat} (hn : CopiesOrderly n) (h : s.1.Orderly)
    (hwf : s.1.WellFormed) (hm : s.2.Into s.1) {target : BlockId} (htarget : s.1.HasBlock target)
    (child : OpId) : (copyChild n target child s).2.1.Orderly := by
  obtain ⟨hgrows, hid, hloose⟩ := copiesTo {} n child s hwf hm
  show (adopt target (copyTree n child s).1 (copyTree n child s).2).2.1.Orderly
  rw [hid, adopt_eq]
  -- the block was there before the copy, so it is not inside it
  have harrives : Arrives {} s.1 (copyTree n child s).2.1 s.1.nextOp :=
    ⟨hgrows.path, hgrows.kept, Nat.lt_irrefl _, hloose⟩
  exact (hn child s hwf hm h).place _ hloose.live fun p => harrives.not_inside_block hwf htarget

theorem Orderly.copyRegion {n : Nat} (hn : CopiesOrderly n) (h : s.1.Orderly)
    (hwf : s.1.WellFormed) (hm : s.2.Into s.1) {new : OpId} (source : Graph)
    {region : List BlockId × Nat} (hnew : s.1.HasOp new)
    (hregion : region.2 < (s.1.op new).regions.length) :
    (copyRegion n new source region s).2.1.Orderly := by
  obtain ⟨hblocks, hnews⟩ := grows_mapM_copyBlock {} (r := ⟨new, region.2⟩) hm hnew hregion
    region.1
  have horderly := h.mapM_copyBlock hwf hm (r := ⟨new, region.2⟩) hnew hregion region.1
  show ((region.1.zip (region.1.mapM (copyBlock ⟨new, region.2⟩) s).1).forM
    (fun bt => (source.block bt.1).ops.forM (Graph.copyChild n bt.2)) _).2.1.Orderly
  set s₁ := (region.1.mapM (copyBlock ⟨new, region.2⟩) s).2
  have h₁ : s₁.1.WellFormed := hwf.edits hblocks.path
  -- both loops keep that the graph grew since the blocks were made, and stayed orderly
  refine (forM_keeps (I := fun s₂ => Grows {} s₁ s₂ ∧ s₂.1.Orderly) (fun bt hbt s₂ h₂ => ?_)
    ⟨Grows.refl hblocks.into, horderly⟩).2
  refine forM_keeps (I := fun s₃ => Grows {} s₁ s₃ ∧ s₃.1.Orderly) (fun child _ s₃ h₃ => ?_) h₂
  have htarget := h₃.1.path.within.hasBlock (hnews bt.2 (List.of_mem_zip hbt).2)
  have hwf₃ := h₁.edits h₃.1.path
  exact ⟨h₃.1.trans (grows_copyChild (copiesTo {} n) hwf₃ h₃.1.into htarget child),
    h₃.2.copyChild hn hwf₃ h₃.1.into htarget child⟩

theorem copiesOrderly (n : Nat) : CopiesOrderly n := by
  induction n with
  | zero => exact fun i s hwf _ h => h.copyHead hwf i
  | succ n ih =>
    intro i s hwf hm h
    obtain ⟨g, m⟩ := s
    obtain ⟨hhead, hid, hloose⟩ := grows_copyHead {} hwf hm i
    have hregions := length_regions_copyHead i g m
    have horderly := h.copyHead hwf i
    rw [copyTree_succ]
    generalize Graph.copyHead i (g, m) = head at hhead hid hloose hregions horderly ⊢
    obtain ⟨new, s₁⟩ := head
    obtain rfl : new = g.nextOp := hid
    refine (forM_keeps (I := fun s₂ => Grows {} s₁ s₂ ∧ s₂.1.Orderly) (fun region hregion s₂ h₂ => ?_)
      ⟨Grows.refl hhead.into, horderly⟩).2
    have hwf₂ := (hwf.edits hhead.path).edits h₂.1.path
    have hthere := h₂.1.path.within.hasOp hloose.there
    have hlt : region.2 < (s₂.1.op g.nextOp).regions.length := by
      rw [h₂.1.path.length_regions hloose.there, ← hregions]
      exact List.snd_lt_of_mem_zipIdx hregion
    exact ⟨h₂.1.trans (grows_copyRegion (copiesTo {} n) hwf₂ h₂.1.into s₁.1 hthere hlt),
      h₂.2.copyRegion ih hwf₂ h₂.1.into s₁.1 hthere hlt⟩

end

theorem arrives_clone (cat : Catalog) (hwf : g.WellFormed) {m : Mapping} (hm : m.Into g)
    (i : OpId) : Arrives cat g (g.clone i m).2.1 (g.clone i m).1 := by
  obtain ⟨hgrows, hid, hloose⟩ := copiesTo cat g.ops.size i (g, m) hwf hm
  have hnext : (g.clone i m).1 = g.nextOp := hid
  rw [hnext]
  exact ⟨hgrows.path, hgrows.kept, Nat.lt_irrefl _, hloose⟩

theorem Orderly.clone (h : g.Orderly) (hwf : g.WellFormed) {m : Mapping} (hm : m.Into g)
    (i : OpId) : (g.clone i m).2.1.Orderly :=
  copiesOrderly g.ops.size i (g, m) hwf hm h

end Multistage.Graph
