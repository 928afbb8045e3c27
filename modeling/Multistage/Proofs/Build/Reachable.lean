import Multistage.Proofs.Build.BuilderSuccess

/-!
# What holds in every reachable state

A program is built by requests: creating, placing, copying, changing and erasing operations, moving
the cursor and registering kinds and strategies. A request may fail, and a failed request keeps what
it had done. A context is reachable if a sequence of requests, each about things that were there,
leads to it from a fresh one. Every request makes moves only, so every reachable context is sound;
the theorems of this module read the use lists, the membership of blocks and the partition into
segments off that.
-/

namespace Multistage

open BuildM

/-! ## Requests -/

/-- The operations, blocks, values and slots that a `Request` refers to. -/
structure Refs where
  ops : List OpId := []
  blocks : List BlockId := []
  values : List (Option ValueId) := []
  slots : List SlotId := []

/-- Everything that `r` refers to is in `g`. -/
def Refs.In (r : Refs) (g : Graph) : Prop :=
  (∀ i ∈ r.ops, g.HasOp i) ∧ (∀ b ∈ r.blocks, g.HasBlock b) ∧
    (∀ v ∈ r.values, g.HasOptValue v) ∧ ∀ s ∈ r.slots, g.HasSlot s

instance (r : Refs) (g : Graph) : Decidable (r.In g) :=
  inferInstanceAs (Decidable (_ ∧ _ ∧ _ ∧ _))

/-- One call of the building interface. Each constructor is a function of `Build` or `BuildM` and
has its arguments. -/
inductive Request where
  | registerKind (k : OpKind)
  | registerStrategy (name : String) (s : Strategy)
  /-- Goes on with another cursor, a fresh one or one that was used before. -/
  | useCursor (p : Cursor)
  | moveBefore (i : OpId)
  | moveAfter (i : OpId)
  | moveToStart (b : BlockId)
  | moveToEnd (b : Option BlockId)
  | setLoc (loc : Location)
  | createDetached (spec : OpSpec)
  | create (spec : OpSpec)
  | insert (i : OpId)
  | cloneDetached (i : OpId) (m : Mapping)
  | clone (i : OpId) (m : Mapping)
  | addBlock (i : OpId) (region : Int)
  | addArgument (b : BlockId) (ty : Option Ty)
  | append (b : BlockId) (i : OpId)
  | relocate (i other : OpId)
  | erase (i : OpId)
  | eraseOp (i : OpId)
  | replaceOp (i : OpId) (vals : List (Option ValueId))
  | setSegment (i : OpId) (name : String) (vals : List (Option ValueId))
  | setOperand (i : OpId) (k : Int) (v : Option ValueId)
  /-- Puts a value into a slot, also into one that its operation has let go of. -/
  | setSlot (s : SlotId) (v : Option ValueId)
  | replaceUses (v : ValueId) (new : Option ValueId)
  | replaceUsesIf (v : ValueId) (new : Option ValueId) (keep : SlotId → Bool)
  | setAttr (i : OpId) (name : String) (value : Option Attr)
  | setAttrs (i : OpId) (attrs : AttrDict)
  | removeAttr (i : OpId) (name : String)
  | setOpLoc (i : OpId) (loc : Location)
  | setType (v : ValueId) (ty : Option Ty)
  | trace (level : Int) (text : String)
  | emit (severity : Severity) (i : OpId) (message : String)

namespace Request

/-- What a request names. -/
def refs : Request → Refs
  | registerKind _ | registerStrategy _ _ | setLoc _ | trace _ _ => {}
  | useCursor p => { ops := p.before.toList, blocks := p.block.toList }
  | moveBefore i | moveAfter i | insert i | addBlock i _ | erase i | eraseOp i => { ops := [i] }
  | moveToStart b | addArgument b _ => { blocks := [b] }
  | moveToEnd b => { blocks := b.toList }
  | createDetached spec | create spec => { values := spec.operands ++ spec.segments.flatten }
  | cloneDetached i m | clone i m => { ops := [i], values := m.entries.map (·.2) }
  | append b i => { ops := [i], blocks := [b] }
  | relocate i other => { ops := [i, other] }
  | replaceOp i vals | setSegment i _ vals => { ops := [i], values := vals }
  | setOperand i _ v => { ops := [i], values := [v] }
  | setSlot s v => { slots := [s], values := [v] }
  | replaceUses v new | replaceUsesIf v new _ => { values := [some v, new] }
  | setAttr i _ _ | setAttrs i _ | removeAttr i _ | setOpLoc i _ | emit _ i _ => { ops := [i] }
  | setType v _ => { values := [some v] }

/-- The work that a `Request` asks for. -/
def perform : Request → BuildM Unit
  | registerKind k => BuildM.registerKind k
  | registerStrategy name s => BuildM.registerStrategy name s
  | useCursor p => BuildM.setCursor p
  | moveBefore i => Build.moveBefore i
  | moveAfter i => Build.moveAfter i
  | moveToStart b => Build.moveToStart b
  | moveToEnd b => Build.moveToEnd b
  | setLoc loc => Build.setLoc loc
  | createDetached spec => discard (Build.createDetached spec)
  | create spec => discard (Build.create spec)
  | insert i => discard (Build.insert i)
  | cloneDetached i m => discard (Build.cloneDetached i m)
  | clone i m => discard (Build.clone i m)
  | addBlock i region => discard (Build.addBlock i region)
  | addArgument b ty => discard (Build.addArgument b ty)
  | append b i => Build.append b i
  | relocate i other => Build.relocate i other
  | erase i => Build.erase i
  | eraseOp i => Build.eraseOp i
  | replaceOp i vals => Build.replaceOp i vals
  | setSegment i name vals => Build.setSegment i name vals
  | setOperand i k v => Build.setOperand i k v
  | setSlot s v => modifyGraph (·.assign s v)
  | replaceUses v new => modifyGraph (·.replaceUses v new)
  | replaceUsesIf v new keep => modifyGraph (·.replaceUsesIf v new keep)
  | setAttr i name value => Build.setAttr i name value
  | setAttrs i attrs => Build.setAttrs i attrs
  | removeAttr i name => discard (Build.removeAttr i name)
  | setOpLoc i loc => modifyGraph (·.modifyOp i fun o => { o with loc })
  | setType v ty => modifyGraph (·.modifyValue v fun x => { x with ty })
  | trace level text => BuildM.trace level text
  | emit severity i message => BuildM.emit severity i message

/-- The context that `r` leaves of `c`, whether it succeeds or fails. -/
def outcome (r : Request) (c : Context) : Context :=
  match r.perform c with
  | .ok _ c' => c'
  | .error _ c' => c'

end Request

/-- The context that the requests `rs` leave of `c`, one after the other. -/
def Request.run (rs : List Request) (c : Context) : Context := rs.foldl (fun c r => r.outcome c) c

/-- Every `Request` refers only to what is there when its turn comes. -/
def Request.ValidRun : List Request → Context → Prop
  | [], _ => True
  | r :: rest, c => r.refs.In c.graph ∧ ValidRun rest (r.outcome c)

instance Request.decidableValidRun : (rs : List Request) → (c : Context) → Decidable (ValidRun rs c)
  | [], _ => .isTrue trivial
  | r :: rest, c =>
    have := decidableValidRun rest (r.outcome c)
    inferInstanceAs (Decidable (_ ∧ _))

/-- The contexts that a fresh one becomes by any number of requests whose `refs` are there. -/
inductive Reachable : Context → Prop
  | fresh (channel : Channel) (verbosity : Int) : Reachable { channel, verbosity }
  | after {c : Context} (r : Request) (h : Reachable c) (hrefs : r.refs.In c.graph) :
      Reachable (r.outcome c)

/-! ## Every request only makes moves -/

namespace BuildM.Leads

variable {α : Type} {x : BuildM α} {c : Context} {Q : α → Context → Prop}

theorem any (h : x.Leads c Q) : x.Leads c fun _ _ => True := h.imp fun _ _ _ _ => trivial

theorem forget (h : x.Leads c Q) : (discard x).Leads c fun _ _ => True :=
  h.bind fun _ _ _ _ => .pure trivial

end BuildM.Leads

theorem hasSpec_of_refs {g : Graph} {spec : OpSpec}
    (h : ∀ v ∈ spec.operands ++ spec.segments.flatten, g.HasOptValue v) : g.HasSpec spec := by
  refine ⟨fun v hv => h v (List.mem_append_left _ hv), fun vals hvals v hv => ?_⟩
  exact h v (List.mem_append_right _ (List.mem_flatten.mpr ⟨vals, hvals, hv⟩))

theorem into_of_refs {g : Graph} {m : Mapping}
    (h : ∀ v ∈ m.entries.map (·.2), g.HasOptValue v) : m.Into g :=
  fun e he => h e.2 (List.mem_map_of_mem he)

section

open Build

variable {c : Context}

/-- A request whose `refs` are there only makes moves, case by case. -/
theorem leads_perform (h : c.Sound) {r : Request} (hrefs : r.refs.In c.graph) :
    r.perform.Leads c fun _ _ => True := by
  obtain ⟨hops, hblocks, hvalues, hslots⟩ := hrefs
  cases r with
  | registerKind k => exact (meets_registerKind k).leads
  | registerStrategy name s => exact (meets_registerStrategy name s).leads
  | useCursor p =>
    have hp : c.graph.HasCursor p :=
      ⟨fun b hb => hblocks b (Option.mem_toList.mpr hb),
        fun i hi => hops i (Option.mem_toList.mpr hi)⟩
    exact (leads_modify (.single (.move p hp))).any
  | moveBefore i => exact (leads_moveBefore h i).any
  | moveAfter i => exact (leads_moveAfter h i).any
  | moveToStart b =>
    exact (leads_moveToStart h (hblocks b List.mem_cons_self)).any
  | moveToEnd b =>
    exact (leads_moveToEnd fun x hx => hblocks x (Option.mem_toList.mpr hx)).any
  | setLoc loc => exact (leads_setLoc h loc).any
  | createDetached spec => exact (leads_createDetached (hasSpec_of_refs hvalues)).forget
  | create spec => exact (leads_create h (hasSpec_of_refs hvalues)).forget
  | insert i => exact (leads_insert h (hops i List.mem_cons_self)).forget
  | cloneDetached i m => exact (leads_cloneDetached h (into_of_refs hvalues) i).forget
  | clone i m => exact (leads_clone h (into_of_refs hvalues) i).forget
  | addBlock i region => exact (leads_addBlock region).forget
  | addArgument b ty => exact (leads_addArgument (hblocks b List.mem_cons_self) ty).forget
  | append b i =>
    exact (leads_append (hblocks b List.mem_cons_self) (hops i List.mem_cons_self)).any
  | relocate i other =>
    exact (leads_relocate h (hops i List.mem_cons_self) other).any
  | erase i => exact (leads_erase i).any
  | eraseOp i => exact (leads_eraseOp h i).any
  | replaceOp i vals => exact (leads_replaceOp h i hvalues).any
  | setSegment i name vals => exact (leads_setSegment h i name hvalues).any
  | setOperand i k v =>
    exact (leads_setOperand h i k (hvalues v List.mem_cons_self)).any
  | setSlot s v =>
    -- a slot in use may take any value, and so may one that its operation has let go of
    have hassign : Graph.Edit c.catalog c.graph (c.graph.assign s v) :=
      .assign s v (hslots s List.mem_cons_self) (hvalues v List.mem_cons_self)
    exact (gives_modifyGraph (f := (·.assign s v)) (.single hassign)).leads.any
  | replaceUses v new =>
    have hnew := hvalues new (List.mem_cons_of_mem _ List.mem_cons_self)
    exact (gives_modifyGraph (f := (·.replaceUses v new))
      (Graph.edits_replaceUsesIf h.graph.uses v hnew _)).leads.any
  | replaceUsesIf v new keep =>
    have hnew := hvalues new (List.mem_cons_of_mem _ List.mem_cons_self)
    exact (gives_modifyGraph (f := (·.replaceUsesIf v new keep))
      (Graph.edits_replaceUsesIf h.graph.uses v hnew keep)).leads.any
  | setAttr i name value =>
    exact (leads_describe i _ fun o => ⟨_, _, rfl⟩).any
  | setAttrs i attrs => exact (leads_describe i _ fun o => ⟨_, _, rfl⟩).any
  | removeAttr i name =>
    refine Leads.forget (Q := fun _ _ => True) (leads_graph.bind fun g c' _ _ => ?_)
    exact (leads_describe i _ fun o => ⟨_, _, rfl⟩).bind fun _ _ _ _ => .pure trivial
  | setOpLoc i loc => exact (leads_describe i _ fun o => ⟨_, _, rfl⟩).any
  | setType v ty =>
    exact (gives_modifyGraph (f := (·.modifyValue v fun x => { x with ty }))
      (.single (.retype v ty))).leads.any
  | trace level text => exact (leads_trace level text).any
  | emit severity i message => exact (leads_emit severity i message).any

theorem advances_outcome (h : c.Sound) {r : Request} (hrefs : r.refs.In c.graph) :
    c.Advances (r.outcome c) := by
  have hleads := leads_perform h hrefs
  unfold Request.outcome
  cases hrun : r.perform c with
  | ok _ c' => exact (hleads.of_ok hrun).1
  | error _ c' => exact (hleads.of_error hrun).1

end

/-! ## Every reachable context is sound -/

namespace Reachable

variable {c : Context}

theorem sound (h : Reachable c) : c.Sound := by
  induction h with
  | fresh channel verbosity =>
    -- nothing is there at first, so there is nothing that could be at odds
    exact ⟨.empty, .empty, .empty, fun _ _ hk => hk, fun _ _ hs => hs, nofun, nofun⟩
  | after r _ hrefs ih => exact ih.advances (advances_outcome ih hrefs)

theorem slotsOwned (h : Reachable c) : c.graph.SlotsOwned := by
  induction h with
  | fresh channel verbosity => exact .empty
  | after r h hrefs ih => exact ih.advances (advances_outcome h.sound hrefs)

theorem run (h : Reachable c) {rs : List Request} (hvalid : Request.ValidRun rs c) :
    Reachable (Request.run rs c) := by
  induction rs generalizing c with
  | nil => exact h
  | cons r rest ih => exact ih (h.after r hvalid.1) hvalid.2

end Reachable

/-- A `func` with a load and a store. The store is moved before the load and erased; erasing the
load while it is read and moving the erased store fail, the latter after it was taken out. -/
def draft : List Request := [
  .createDetached { name := Kinds.func },
  .addBlock ⟨0⟩ 0,
  .addArgument ⟨0⟩ none,
  .addArgument ⟨0⟩ none,
  .moveToEnd (some ⟨0⟩),
  .create { name := Kinds.load, segments := [[some ⟨0⟩]], results := [none] },
  .create { name := Kinds.store, segments := [[some ⟨0⟩], [some ⟨2⟩]] },
  .setSegment ⟨1⟩ Seg.mask [some ⟨1⟩],
  .erase ⟨1⟩,
  .relocate ⟨2⟩ ⟨1⟩,
  .erase ⟨2⟩,
  .relocate ⟨2⟩ ⟨1⟩]

theorem reachable_draft : Reachable (Request.run draft {}) :=
  (Reachable.fresh .collect 0).run (by decide +kernel)

/-! ## Use lists -/

/-- Slot `s` is in the use list of `v` exactly if it holds `v`, and then it is there once: for every
slot that ever was, also one that its operation has let go of. -/
theorem listed_as_use_iff_held {c : Context} (h : Reachable c) (s : SlotId) (v : ValueId) :
    (s ∈ (c.graph.value v).uses ↔ (c.graph.slot s).value = some v) ∧
      ((c.graph.slot s).value = some v → (c.graph.value v).uses.count s = 1) := by
  have huses := h.sound.graph.uses
  refine ⟨huses.mem_uses_iff, fun hheld => ?_⟩
  rw [huses.count, if_pos hheld]

theorem draft_mask_used_once :
    ((Request.run draft {}).graph.slot ⟨3⟩).value = some ⟨1⟩ ∧
      ((Request.run draft {}).graph.value ⟨1⟩).uses.count ⟨3⟩ = 1 ∧
      ⟨1⟩ ∉ ((Request.run draft {}).graph.value ⟨0⟩).uses :=
  ⟨by decide +kernel, (listed_as_use_iff_held reachable_draft ⟨3⟩ ⟨1⟩).2 (by decide +kernel),
    mt (listed_as_use_iff_held reachable_draft ⟨1⟩ ⟨0⟩).1.mp (by decide +kernel)⟩

/-! ## Blocks -/

/-- `Build.position` gives no position exactly if the cursor is in no block, or stands before an
operation that is not in its block any more. -/
theorem position_refuses_iff {c : Context} (h : c.graph.MembersAgree) (label : Option OpLabel) :
    (∃ f c', Build.position label c = .error f c') ↔
      ∀ b, c.cursor.block = some b →
        ∃ i, c.cursor.before = some i ∧ (c.graph.op i).block ≠ some b := by
  cases hrun : Build.position label c with
  | ok p c' =>
    obtain ⟨-, hat, -⟩ := (Build.leads_position label).of_ok hrun
    refine iff_of_false (by rintro ⟨_, _, ⟨⟩⟩) fun hrefuses => ?_
    obtain ⟨i, hi, hleft⟩ := hrefuses p.1 hat.1
    exact hleft ((h.mem_iff i p.1).mpr (List.mem_of_getElem? (hat.getElem? hi)))
  | error f c' =>
    refine iff_of_true ⟨f, c', rfl⟩ fun b hb => ?_
    -- if the operation were in the block, the cursor would stand somewhere
    by_contra hnone
    have hstands : ∀ i, c.cursor.before = some i → (c.graph.op i).block = some b :=
      fun i hi => by_contra fun hleft => hnone ⟨i, hi, hleft⟩
    obtain ⟨k, hat⟩ : ∃ k, c.At b k := by
      unfold Context.At
      cases hbefore : c.cursor.before with
      | none => exact ⟨_, hb, rfl⟩
      | some i =>
        obtain ⟨k, hk⟩ := Option.isSome_iff_exists.mp (h.idxOf?_isSome (hstands i hbefore))
        exact ⟨k, hb, hk⟩
    obtain ⟨p, c'', hok, -⟩ := (Build.gives_position hat label).ok
    rw [hrun] at hok
    cases hok

/-- An operation is in a block exactly if the block lists it, in one block at most and there once.
So the operation that another one is put before is found, also right after that one was taken out.
`Build.position` gives a position within the block of the cursor, that of the operation which the
cursor stands before, and refuses only if there is no such block or the operation has left it. -/
theorem placed_iff_listed {c : Context} (h : Reachable c) :
    (∀ i b, (c.graph.op i).block = some b ↔ i ∈ (c.graph.block b).ops) ∧
      (∀ i b b', i ∈ (c.graph.block b).ops → i ∈ (c.graph.block b').ops → b = b') ∧
      (∀ i b, (c.graph.block b).ops.count i ≤ 1) ∧
      (∀ i other b, ((c.graph.detach i).op other).block = some b →
        ∃ k, ((c.graph.detach i).block b).ops.idxOf? other = some k) ∧
      ∀ label,
        (∀ b k c', Build.position label c = .ok (b, k) c' →
          c.cursor.block = some b ∧ k ≤ (c.graph.block b).ops.length ∧
          ∀ i, c.cursor.before = some i → (c.graph.block b).ops[k]? = some i) ∧
        ((∃ f c', Build.position label c = .error f c') ↔ ∀ b, c.cursor.block = some b →
          ∃ i, c.cursor.before = some i ∧ (c.graph.op i).block ≠ some b) := by
  have hmembers := h.sound.graph.members
  refine ⟨hmembers.mem_iff, fun i b b' => hmembers.block_unique, fun i b => ?_,
    fun i other b hb => ?_, fun label => ⟨fun b k c' hok => ?_, position_refuses_iff hmembers label⟩⟩
  · exact List.nodup_iff_count_le_one.mp (hmembers.nodup b) i
  -- the operation that the other one is put before stays in its block when that one is taken out
  · exact Option.isSome_iff_exists.mp ((hmembers.detach i).idxOf?_isSome hb)
  · obtain ⟨-, hat, -⟩ := (Build.leads_position label).of_ok hok
    exact ⟨hat.1, hat.le_length, fun i hi => hat.getElem? hi⟩

theorem draft_members :
    ((Request.run draft {}).graph.op ⟨1⟩).block = some ⟨0⟩ ∧
      ⟨1⟩ ∈ ((Request.run draft {}).graph.block ⟨0⟩).ops ∧
      ((Request.run draft {}).graph.op ⟨2⟩).block = none ∧
      ⟨2⟩ ∉ ((Request.run draft {}).graph.block ⟨0⟩).ops := by
  have hiff := (placed_iff_listed reachable_draft).1
  exact ⟨by decide +kernel, (hiff ⟨1⟩ ⟨0⟩).mp (by decide +kernel), by decide +kernel,
    mt (hiff ⟨2⟩ ⟨0⟩).mpr (by decide +kernel)⟩

/-! ## Segments -/

/-- The slots of operation `i` are its own, numbered by their positions, and the segments that its
kind declares, one after the other, are all of them. -/
theorem segments_partition_operands {c : Context} (h : Reachable c)
    (hdistinct : ∀ k ∈ c.catalog.kinds, k.segments.Nodup) (i : OpId) :
    (∀ n s, (c.graph.op i).operands[n]? = some s →
        (c.graph.slot s).owner = i ∧ (c.graph.slot s).index = n) ∧
      ∀ k, (c.graph.op i).kind = some k → k.segments ≠ [] →
        (k.segments.mapM (c.graph.op i).segmentSlots?).map List.flatten =
            some (c.graph.op i).operands ∧
          ((c.graph.op i).segments.map (·.2)).sum = (c.graph.op i).operands.length := by
  refine ⟨fun n s hs => (h.sound.graph.numbered i n s hs).2, fun k hk hsegments => ?_⟩
  have hdeclared : (c.graph.op i).declared = k.segments := by rw [Op.declared, hk]; rfl
  -- a kind is in the catalog for good, so the names that it declares are the ones that are distinct
  have hknown : k ∈ c.catalog.kinds := List.mem_of_find?_eq_some (h.sound.kinds.known i k hk)
  have hnodup : (c.graph.op i).declared.Nodup := hdeclared ▸ hdistinct k hknown
  have htiled := h.sound.tiles i hnodup
  have hne : (c.graph.op i).declared ≠ [] := hdeclared ▸ hsegments
  rw [← hdeclared]
  exact ⟨Op.mapM_segmentSlots? htiled hnodup hne, htiled.2 hne⟩

theorem draft_load_segments :
    (∀ k ∈ Catalog.builtin.kinds, k.segments.Nodup) ∧
      ((Request.run draft {}).graph.op ⟨1⟩).operands = [⟨0⟩, ⟨3⟩] ∧
      ([Seg.ptr, Seg.mask, Seg.other].mapM
          ((Request.run draft {}).graph.op ⟨1⟩).segmentSlots?).map List.flatten =
        some ((Request.run draft {}).graph.op ⟨1⟩).operands := by
  have hdistinct : ∀ k ∈ (Request.run draft {}).catalog.kinds, k.segments.Nodup := by
    decide +kernel
  refine ⟨by decide +kernel, by decide +kernel, ?_⟩
  exact ((segments_partition_operands reachable_draft hdistinct ⟨1⟩).2
    { name := Kinds.load, segments := [Seg.ptr, Seg.mask, Seg.other], effects := .read }
    (by decide +kernel) (by decide +kernel)).1

end Multistage
