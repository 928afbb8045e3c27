import Multistage.Graph.Printer
import Multistage.Proofs.Copy.DeepCopies
import Multistage.Proofs.Graph.SegmentValues
import Multistage.Proofs.OptionLists

/-!
# Printed names

A text names values and blocks by the order in which they appear and operations not at all. So a
tree and the same tree under other names have one text (`Graph.Renames.print?_eq`), as long as no
two values of the graph get the same new name, and results stay results. The two printers run side
by side (`PrintM.Alike`): what has a name in one table has the same name in the other under its new
name (`NameTable.Renamed`). Values from outside the tree may keep their names: the text numbers them
like the others.
-/

namespace Multistage

/-! ## Printers side by side -/

/-- From tables related by `R` both computations give the same and leave related tables, or both
stop. -/
def PrintM.Alike {α : Type} (R : NameTable → NameTable → Prop) (x y : PrintM α) : Prop :=
  ∀ t u, R t u → Option.Rel (fun p q => p.1 = q.1 ∧ R p.2 q.2) (x t) (y u)

namespace PrintM.Alike

variable {α β γ : Type} {R : NameTable → NameTable → Prop}

theorem pure (a : α) : Alike R (pure a) (pure a) :=
  fun _ _ h => .some ⟨rfl, h⟩

theorem lift (o : Option α) : Alike R (liftM o) (liftM o) := by
  intro t u h
  cases o with
  | none => exact .none
  | some a => exact .some ⟨rfl, h⟩

theorem lift_bind {e : γ → α} {o : Option γ} {f : α → PrintM β} {k : γ → PrintM β}
    (h : ∀ a, o = some a → Alike R (f (e a)) (k a)) :
    Alike R (liftM (o.map e) >>= f) (liftM o >>= k) := by
  cases o with
  | none => exact fun t u htu => .none
  | some a => exact fun t u htu => h a rfl t u htu

theorem bind {x y : PrintM α} {f k : α → PrintM β} (h : Alike R x y)
    (hk : ∀ a, Alike R (f a) (k a)) : Alike R (x >>= f) (y >>= k) := by
  intro t u htu
  have hrel := h t u htu
  show Option.Rel _ ((x t).bind fun p => f p.1 p.2) ((y u).bind fun p => k p.1 p.2)
  generalize x t = r, y u = r' at hrel
  cases hrel with
  | none => exact .none
  | some hboth =>
    obtain ⟨heq, hnext⟩ := hboth
    rw [Option.bind_some, Option.bind_some, heq]
    exact hk _ _ _ hnext

theorem mapM {e : γ → α} {f : α → PrintM β} {k : γ → PrintM β} {l : List γ}
    (h : ∀ a ∈ l, Alike R (f (e a)) (k a)) : Alike R ((l.map e).mapM f) (l.mapM k) := by
  induction l with
  | nil => exact .pure []
  | cons a rest ih =>
    rw [List.map_cons, List.mapM_cons, List.mapM_cons]
    apply (h a List.mem_cons_self).bind
    intro b
    apply (ih fun c hc => h c (List.mem_cons_of_mem a hc)).bind
    exact fun bs => .pure (b :: bs)

end PrintM.Alike

/-- What has a name in `u` has the same name in `t` under its new name. -/
structure NameTable.Renamed (g : Graph) (φ : Renaming) (t u : NameTable) : Prop where
  names : ∀ v, g.HasValue v → t.names.lookup (φ.value v) = u.names.lookup v
  nextResult : t.nextResult = u.nextResult
  nextArg : t.nextArg = u.nextArg
  nextBlock : t.nextBlock = u.nextBlock

/-! ## Shown operands -/

/-- The same operands in other slots, which `σ` gives. -/
def Shown.map (σ : SlotId → SlotId) : Shown → Shown
  | .flat slots => .flat (slots.map σ)
  | .grouped groups => .grouped (groups.map fun (name, slots) => (name, slots.map σ))

namespace Op

variable {o o' : Op} {σ : SlotId → SlotId}

/-- `segmentSlots?` looks at names and lengths only. -/
theorem segmentSlots?_map (hsegments : o'.segments = o.segments)
    (hoperands : o'.operands = o.operands.map σ) (name : String) :
    o'.segmentSlots? name = (o.segmentSlots? name).map (List.map σ) := by
  unfold segmentSlots? segment?
  rw [hsegments, hoperands, List.length_map]
  cases locate name 0 o.segments with
  | none => rfl
  | some found =>
    obtain ⟨start, size⟩ := found
    by_cases hfits : start + size ≤ o.operands.length
    · simp [hfits]
    · simp [hfits]

theorem shown?_map (hsegments : o'.segments = o.segments)
    (hoperands : o'.operands = o.operands.map σ) : o'.shown? = o.shown?.map (Shown.map σ) := by
  unfold shown?
  rw [hsegments, hoperands]
  split
  · rfl
  · -- segment by segment: a group is found in both rows or in none
    have hgroup : ∀ seg ∈ o.segments,
        (o'.segmentSlots? seg.1 >>= fun slots => some (seg.1, slots)) =
          (o.segmentSlots? seg.1 >>= fun slots => some (seg.1, slots)).map
            fun (name, slots) => (name, slots.map σ) := by
      intro seg _
      rw [segmentSlots?_map hsegments hoperands]
      cases o.segmentSlots? seg.1 <;> rfl
    apply (congrArg (· >>= fun groups => some (Shown.grouped groups)) (mapM_eq_map hgroup)).trans
    cases o.segments.mapM fun seg => o.segmentSlots? seg.1 >>= fun slots => some (seg.1, slots) <;>
      rfl

theorem mem_operands_of_shown? {shown : Shown} (h : o.shown? = some shown) :
    ∀ s ∈ shown.slots, s ∈ o.operands := by
  unfold shown? at h
  split at h
  · cases h
    exact fun s hs => hs
  · obtain ⟨groups, hgroups, h⟩ := Option.bind_eq_some_iff.mp h
    cases h
    intro s hs
    obtain ⟨group, hgroup, hs⟩ := List.mem_flatMap.mp hs
    obtain ⟨seg, -, hseg⟩ := exists_of_mem_mapM hgroups hgroup
    obtain ⟨slots, hslots, hpair⟩ := Option.bind_eq_some_iff.mp hseg
    cases hpair
    exact mem_operands_of_segmentSlots? hslots s hs

end Op

namespace Graph

/-! ## Trees under other names -/

/-- The tree of `φ.op root` in the second graph is the tree of `root` in the first under other
names, also for the values from outside that it reads, and wherever the two trees stand. -/
structure Renames (g g' : Graph) (root : OpId) (φ : Renaming) : Prop where
  op : ∀ j, g.Inside root j → ∃ slots place gone, g'.op (φ.op j) = { g.op j with
    operands := slots
    results := (g.op j).results.map φ.value
    regions := (g.op j).regions.map (·.map φ.block)
    block := place
    erased := gone }
  args : ∀ b, g.BlockInside root b → (g'.block (φ.block b)).args = (g.block b).args.map φ.value
  ops : ∀ b, g.BlockInside root b → (g'.block (φ.block b)).ops = (g.block b).ops.map φ.op
  type : ∀ v, g.DefinedIn root v → g'.typeOf (φ.value v) = g.typeOf v
  reads : ∀ j, g.Inside root j → g'.operands (φ.op j) = (g.operands j).map (·.map φ.value)
  isArgument : ∀ v, g.HasValue v → g'.isArgument (φ.value v) = g.isArgument v
  values : Set.InjOn φ.value {v | g.HasValue v}

namespace Renames

variable {g g' : Graph} {root : OpId} {φ : Renaming} (h : g.Renames g' root φ)

include h

theorem regions_eq {j : OpId} (hj : g.Inside root j) :
    (g'.op (φ.op j)).regions = (g.op j).regions.map (·.map φ.block) := by
  obtain ⟨slots, place, gone, hrow⟩ := h.op j hj
  rw [hrow]

theorem results_eq {j : OpId} (hj : g.Inside root j) :
    (g'.op (φ.op j)).results = (g.op j).results.map φ.value := by
  obtain ⟨slots, place, gone, hrow⟩ := h.op j hj
  rw [hrow]

/-- `printName` gives `v` and `φ.value v` the same name. -/
theorem alike_printName {v : ValueId} (hv : g.HasValue v) :
    (g'.printName (φ.value v)).Alike (NameTable.Renamed g φ) (g.printName v) := by
  intro t u htu
  show Option.Rel _ (some (t.name g' (φ.value v))) (some (u.name g v))
  refine .some ?_
  unfold NameTable.name
  rw [htu.names v hv, h.isArgument v hv, htu.nextArg, htu.nextResult]
  -- a new name is found under the new name of the value and of no other
  have hnew (name : String) (w : ValueId) (hw : g.HasValue w) :
      ((φ.value v, name) :: t.names).lookup (φ.value w) = ((v, name) :: u.names).lookup w := by
    have hsame : (φ.value w == φ.value v) = (w == v) := by
      rw [Bool.eq_iff_iff, beq_iff_eq, beq_iff_eq, h.values.eq_iff hw hv]
    rw [List.lookup_cons, List.lookup_cons, hsame, htu.names w hw]
  cases u.names.lookup v with
  | some name => exact ⟨rfl, htu⟩
  | none =>
    dsimp only
    split <;> exact ⟨rfl, hnew _, rfl, rfl, htu.nextBlock⟩

variable (hwf : g.WellFormed)

include hwf

/-- The slots of `j` and `φ.op j` correspond by their positions. -/
theorem exists_slots {j : OpId} (hj : g.Inside root j) : ∃ σ : SlotId → SlotId,
    (g'.op (φ.op j)).operands = (g.op j).operands.map σ ∧
    ∀ s ∈ (g.op j).operands, (g'.slot (σ s)).value = (g.slot s).value.map φ.value := by
  have hreads := h.reads j hj
  unfold operands at hreads
  rw [List.map_map] at hreads
  have hlength := congrArg List.length hreads
  rw [List.length_map, List.length_map] at hlength
  -- a slot goes to the one at the same position
  let σ : SlotId → SlotId := fun s => (g'.op (φ.op j)).operands.getD (g.slot s).index s
  have hσ : (g'.op (φ.op j)).operands = (g.op j).operands.map σ := by
    apply List.ext_getElem
    · rw [List.length_map, hlength]
    · intro n hn hn'
      rw [List.length_map] at hn'
      obtain ⟨-, -, hindex⟩ := hwf.numbered j n _ (List.getElem?_eq_getElem hn')
      rw [List.getElem_map]
      show _ = (g'.op (φ.op j)).operands.getD (g.slot _).index _
      rw [hindex, List.getD_eq_getElem?_getD, List.getElem?_eq_getElem hn, Option.getD_some]
  refine ⟨σ, hσ, ?_⟩
  rw [hσ, List.map_map] at hreads
  exact List.map_inj_left.mp hreads

theorem shown?_eq {j : OpId} (hj : g.Inside root j) : ∃ σ : SlotId → SlotId,
    (g'.op (φ.op j)).shown? = (g.op j).shown?.map (Shown.map σ) ∧
    ∀ shown, (g.op j).shown? = some shown → ∀ s ∈ shown.slots,
      (g'.slot (σ s)).value = (g.slot s).value.map φ.value := by
  obtain ⟨σ, hσ, hvalue⟩ := h.exists_slots hwf hj
  obtain ⟨slots, place, gone, hrow⟩ := h.op j hj
  refine ⟨σ, Op.shown?_map (by rw [hrow]) hσ, ?_⟩
  intro shown hshown s hs
  exact hvalue s (Op.mem_operands_of_shown? hshown s hs)

/-! ## Texts -/

theorem alike_printOperand {s s' : SlotId} (hs : (g'.slot s').value = (g.slot s).value.map φ.value) :
    (g'.printOperand s').Alike (NameTable.Renamed g φ) (g.printOperand s) := by
  unfold printOperand
  rw [hs]
  cases hv : (g.slot s).value with
  | none => exact .pure _
  | some v => exact h.alike_printName (hwf.uses.held s v hv)

theorem alike_printOperands {σ : SlotId → SlotId} {shown : Shown}
    (hσ : ∀ s ∈ shown.slots, (g'.slot (σ s)).value = (g.slot s).value.map φ.value) :
    (g'.printOperands (shown.map σ)).Alike (NameTable.Renamed g φ) (g.printOperands shown) := by
  have hnames : ∀ slots : List SlotId, (∀ s ∈ slots, s ∈ shown.slots) →
      ((slots.map σ).mapM g'.printOperand).Alike (NameTable.Renamed g φ)
        (slots.mapM g.printOperand) :=
    fun slots hslots => .mapM fun s hs => h.alike_printOperand hwf (hσ s (hslots s hs))
  cases shown with
  | flat slots => exact (hnames slots fun s hs => hs).bind fun names => .pure _
  | grouped groups =>
    refine .bind (.mapM ?_) fun parts => .pure _
    rintro ⟨segment, slots⟩ hgroup
    have hslots : ∀ s ∈ slots, s ∈ (Shown.grouped groups).slots :=
      fun s hs => List.mem_flatMap.mpr ⟨_, hgroup, hs⟩
    -- no slot, one slot and several are written differently
    rcases slots with _ | ⟨s, _ | ⟨r, rest⟩⟩
    · exact .pure none
    · exact (h.alike_printOperand hwf (hσ s (hslots s List.mem_cons_self))).bind fun name => .pure _
    · exact (hnames _ hslots).bind fun names => .pure _

theorem alike_printHead {j : OpId} (hj : g.Inside root j) :
    (g'.printHead (φ.op j)).Alike (NameTable.Renamed g φ) (g.printHead j) := by
  obtain ⟨σ, hshown, hσ⟩ := h.shown?_eq hwf hj
  obtain ⟨slots, place, gone, hrow⟩ := h.op j hj
  have hdefined : ∀ v ∈ (g.op j).results, g.DefinedIn root v := fun v hv => ⟨j, hj, Or.inl hv⟩
  have htypes : ((g.op j).results.map φ.value).mapM g'.typeText =
      (g.op j).results.mapM g.typeText := by
    rw [List.mapM_map]
    apply mapM_congr
    intro v hv
    rw [Function.comp_apply, typeText, h.type v (hdefined v hv), typeText]
  have hname : (g'.op (φ.op j)).name = (g.op j).name := by rw [hrow]
  have hattrs : (g'.op (φ.op j)).attrs = (g.op j).attrs := by rw [hrow]
  unfold printHead
  dsimp only
  rw [hname, hattrs, hshown, h.results_eq hj, htypes, List.isEmpty_map]
  refine .lift_bind fun shown hs => ?_
  refine (h.alike_printOperands hwf (hσ shown hs)).bind fun operands => ?_
  refine .bind (.mapM fun v hv => ?_) fun results => ?_
  · exact h.alike_printName ((hdefined v hv).hasValue hwf.owned)
  · exact .bind (.lift _) fun attrs => .bind (.lift _) fun types => .pure _

theorem alike_printBlockHead {b : BlockId} (hb : g.BlockInside root b) :
    (g'.printBlockHead (φ.block b)).Alike (NameTable.Renamed g φ) (g.printBlockHead b) := by
  obtain ⟨j, hbj, hj⟩ := hb
  have hlabel : (modifyGet NameTable.label : PrintM String).Alike (NameTable.Renamed g φ)
      (modifyGet NameTable.label) := by
    intro t u htu
    refine .some ⟨congrArg ("^bb" ++ toString ·) htu.nextBlock, htu.names, htu.nextResult,
      htu.nextArg, congrArg (· + 1) htu.nextBlock⟩
  unfold printBlockHead
  dsimp only
  rw [h.args b ⟨j, hbj, hj⟩, List.isEmpty_map]
  refine hlabel.bind fun label => .bind (.mapM fun v hv => ?_) fun parts => .pure _
  have hdefined : g.DefinedIn root v := ⟨j, hj, Or.inr ⟨b, hbj, hv⟩⟩
  rw [typeText, h.type v hdefined, ← typeText]
  refine (h.alike_printName (hdefined.hasValue hwf.owned)).bind fun name => ?_
  exact .bind (.lift _) fun type => .pure _

theorem alike_printRegion {inner inner' : OpId → PrintM String} {j : OpId} (hj : g.Inside root j)
    (hinner : ∀ c ∈ g.children j, (inner' (φ.op c)).Alike (NameTable.Renamed g φ) (inner c))
    (indent : Nat) {blocks : List BlockId} (hblocks : blocks ∈ (g.op j).regions) :
    (g'.printRegion inner' indent (blocks.map φ.block)).Alike (NameTable.Renamed g φ)
      (g.printRegion inner indent blocks) := by
  unfold printRegion
  rw [List.isEmpty_map]
  split
  · exact .pure _
  refine .bind (.mapM fun b hb => ?_) fun bodies => .pure _
  have hmem : b ∈ (g.op j).regions.flatten := List.mem_flatten.mpr ⟨blocks, hblocks, hb⟩
  have hinside : g.BlockInside root b := ⟨j, (blockParent_eq_some_iff hwf.owned).mpr hmem, hj⟩
  unfold printBody
  rw [h.ops b hinside]
  refine (h.alike_printBlockHead hwf hinside).bind fun header => ?_
  refine .bind (.mapM fun c hc => ?_) fun ops => .pure _
  exact hinner c (List.mem_flatMap.mpr ⟨b, hmem, hc⟩)

/-- `printTo` with more levels than the tree has shows nothing more. -/
theorem alike_printTo {n n' : Nat} (hle : n ≤ n') {j : OpId} (hj : g.Inside root j)
    (hfits : g.Fits n j) (indent : Nat) :
    (g'.printTo n' indent (φ.op j)).Alike (NameTable.Renamed g φ) (g.printTo n indent j) := by
  induction n generalizing n' j indent with
  | zero => exact hfits.elim
  | succ n ih =>
    -- the second graph may have more operations, and so its texts go further down
    obtain ⟨n', rfl⟩ := Nat.exists_eq_add_of_le' (Nat.one_le_of_lt hle)
    rw [printTo, printTo, h.regions_eq hj]
    refine (h.alike_printHead hwf hj).bind fun head => ?_
    refine .bind (.mapM fun blocks hblocks => ?_) fun regions => .pure _
    refine h.alike_printRegion hwf hj (fun c hc => ?_) indent hblocks
    exact ih (Nat.le_of_succ_le_succ hle) (hj.trans (inside_child hwf hc)) (hfits c hc) _

/-- `print?` of a tree under other names is the text that it has. -/
theorem print?_eq (hfits : g.Fits g.ops.size root) (hsize : g.ops.size ≤ g'.ops.size) :
    g'.print? (φ.op root) = g.print? root := by
  have hrel := h.alike_printTo hwf hsize .root hfits 0 {} {} ⟨fun _ _ => rfl, rfl, rfl, rfl⟩
  show (g'.printTo _ 0 (φ.op root) {}).map Prod.fst = (g.printTo _ 0 root {}).map Prod.fst
  generalize g'.printTo _ _ _ _ = r, g.printTo _ _ _ _ = r' at hrel
  cases hrel with
  | none => rfl
  | some hboth => exact congrArg some hboth.1

end Renames

end Graph

end Multistage
