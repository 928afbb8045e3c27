import Multistage.Graph.Verify
import Multistage.Proofs.Tree.Nesting

/-!
# What verification means

On well-formed graphs the verifier accepts an operation exactly if everything inside it is live,
reads only values that are visible to it, is read by live operations only and has blocks that end as
they have to (`Verified`). Visibility is stated twice: for an operation, and for a position of a
block, which is what an operation put there sees.
-/

namespace Multistage

/-- In a list without repetitions, what comes before the entry at `k` is what the list has up to it.
-/
theorem pair_sublist_iff_mem_take {α : Type} {l : List α} (hnodup : l.Nodup) {k : Nat} {a d : α}
    (ha : l[k]? = some a) : [d, a].Sublist l ↔ d ∈ l.take k := by
  induction l generalizing k with
  | nil => cases ha
  | cons x rest ih =>
    obtain ⟨hx, hrest⟩ := List.nodup_cons.mp hnodup
    rw [List.cons_sublist_cons', List.singleton_sublist]
    cases k with
    | zero =>
      cases ha
      constructor
      · rintro (h | ⟨-, h⟩)
        · exact absurd (h.subset (List.mem_cons_of_mem _ List.mem_cons_self)) hx
        · exact absurd h hx
      · intro h
        cases h
    | succ k =>
      rw [List.getElem?_cons_succ] at ha
      have hmem : a ∈ rest := List.mem_of_getElem? ha
      rw [ih hrest ha, List.take_succ_cons, List.mem_cons, and_iff_left hmem, or_comm]

/-- In a list without repetitions, coming before is transitive. -/
theorem pair_sublist_trans {α : Type} {l : List α} (hnodup : l.Nodup) {x y z : α}
    (hxy : [x, y].Sublist l) (hyz : [y, z].Sublist l) : [x, z].Sublist l := by
  obtain ⟨k, hk⟩ := List.mem_iff_getElem?.mp (hyz.subset List.mem_cons_self)
  obtain ⟨m, hm⟩ := List.mem_iff_getElem?.mp
    (hyz.subset (List.mem_cons_of_mem _ List.mem_cons_self))
  rw [pair_sublist_iff_mem_take hnodup hk] at hxy
  rw [pair_sublist_iff_mem_take hnodup hm] at hyz ⊢
  obtain ⟨j, hj, hjy⟩ := List.mem_take_iff_getElem.mp hyz
  have hjk : j = k := by
    obtain ⟨hlt, hget⟩ := List.getElem?_eq_some_iff.mp hk
    exact hnodup.getElem_inj_iff.mp (hjy.trans hget.symm)
  exact (List.take_subset_take_left l (by omega)) hxy

namespace Graph

variable {g : Graph}

/-! ## Order in a block -/

theorem isBefore_iff (h : g.MembersAgree) {d a : OpId} :
    g.isBefore d a = true ↔ ∃ b, (g.op d).block = some b ∧ (g.op a).block = some b ∧
      [d, a].Sublist (g.block b).ops := by
  unfold isBefore
  cases hd : (g.op d).block with
  | none => exact ⟨nofun, fun ⟨_, hb, _⟩ => nomatch hb⟩
  | some b =>
    simp only [Bool.and_eq_true, beq_iff_eq, decide_eq_true_eq, Option.some.injEq, exists_eq_left']
    refine and_congr_right fun ha => ?_
    have hmem : a ∈ (g.block b).ops := (h.mem_iff a b).mp ha
    have hat : (g.block b).ops[(g.block b).ops.idxOf a]? = some a :=
      List.getElem?_idxOf hmem
    rw [pair_sublist_iff_mem_take (h.nodup b) hat,
      List.mem_take_iff_idxOf_lt ((h.mem_iff d b).mp hd)]

/-! ## Visible values -/

/-- Operation `i` may read `v`: its block has a home, or its operation is live, in a block, and
comes first there if `i` or an operation around it is in that block as well. -/
def Visible (g : Graph) (v : ValueId) (i : OpId) : Prop :=
  match (g.value v).source with
  | .argument b _ => (g.block b).home.isSome
  | .result d _ => (g.op d).erased = false ∧ ∃ b, (g.op d).block = some b ∧
      ∀ a, g.Encloses b a i → [d, a].Sublist (g.block b).ops

theorem visible_of_argument {v : ValueId} {b : BlockId} {n : Nat}
    (hv : (g.value v).source = .argument b n) (i : OpId) :
    g.Visible v i ↔ (g.block b).home.isSome := by
  rw [Visible, hv]

theorem visible_of_result {v : ValueId} {d : OpId} {n : Nat}
    (hv : (g.value v).source = .result d n) (i : OpId) :
    g.Visible v i ↔ (g.op d).erased = false ∧ ∃ b, (g.op d).block = some b ∧
      ∀ a, g.Encloses b a i → [d, a].Sublist (g.block b).ops := by
  rw [Visible, hv]

/-- `definitionFlaw` accepts exactly the `Visible` values. -/
theorem definitionFlaw_eq_none_iff (h : g.MembersAgree) {i : OpId} {k : Nat} {v : ValueId} :
    g.definitionFlaw i k v = none ↔ g.Visible v i := by
  unfold definitionFlaw
  cases hv : (g.value v).source with
  | argument b n =>
    rw [visible_of_argument hv]
    dsimp only
    cases (g.block b).home <;> simp
  | result d n =>
    rw [visible_of_result hv]
    dsimp only
    cases herased : (g.op d).erased with
    | true => simp
    | false =>
      cases hb : (g.op d).block with
      | none => simp
      | some b =>
        simp only [Bool.false_eq_true, if_false, true_and, Option.some.injEq, exists_eq_left']
        cases ha : (g.ancestors i).find? fun x => (g.op x).block == some b with
        | none =>
          -- the reader is nowhere in the block, so there is no order to keep
          refine iff_of_true rfl fun a hencloses => ?_
          rw [find?_ancestors.mpr hencloses] at ha
          cases ha
        | some a =>
          have hencloses := find?_ancestors.mp ha
          have hbefore : g.isBefore d a = true ↔ [d, a].Sublist (g.block b).ops := by
            rw [isBefore_iff h, hb]
            simp [hencloses.block]
          have hself : a = d → ¬ [d, a].Sublist (g.block b).ops := by
            rintro rfl hsublist
            exact absurd (hsublist.nodup (h.nodup b)) (by simp)
          -- the search finds one operation, so the reader is enclosed by that one only
          have honly : (∀ x, g.Encloses b x i → [d, x].Sublist (g.block b).ops) ↔
              [d, a].Sublist (g.block b).ops := by
            refine ⟨fun hall => hall a hencloses, fun hsublist x hx => ?_⟩
            rw [find?_ancestors.mpr hx] at ha
            cases ha
            exact hsublist
          rw [honly, ← hbefore]
          by_cases hd : g.isBefore d a = true
          · have hne : a ≠ d := fun heq => hself heq (hbefore.mp hd)
            simp [hd, hne]
          · simp [hd]

/-- A value may be read by an operation that is put at position `k` of a block. -/
def VisibleAt (g : Graph) (v : ValueId) (b : BlockId) (k : Nat) : Prop :=
  match (g.value v).source with
  | .argument c _ => (g.block c).home.isSome
  | .result d _ => (g.op d).erased = false ∧ ∃ c, (g.op d).block = some c ∧
      (c = b → d ∈ (g.block b).ops.take k) ∧
      (c ≠ b → ∀ p, g.blockParent b = some p → ∀ a, g.Encloses c a p →
        [d, a].Sublist (g.block c).ops)

theorem visibleAt_of_argument {v : ValueId} {c : BlockId} {n : Nat}
    (hv : (g.value v).source = .argument c n) (b : BlockId) (k : Nat) :
    g.VisibleAt v b k ↔ (g.block c).home.isSome := by
  rw [VisibleAt, hv]

theorem visibleAt_of_result {v : ValueId} {d : OpId} {n : Nat}
    (hv : (g.value v).source = .result d n) (b : BlockId) (k : Nat) :
    g.VisibleAt v b k ↔ (g.op d).erased = false ∧ ∃ c, (g.op d).block = some c ∧
      (c = b → d ∈ (g.block b).ops.take k) ∧
      (c ≠ b → ∀ p, g.blockParent b = some p → ∀ a, g.Encloses c a p →
        [d, a].Sublist (g.block c).ops) := by
  rw [VisibleAt, hv]

/-- What `i` sees is what its position sees. -/
theorem visible_iff_visibleAt (h : g.MembersAgree) {v : ValueId} {i : OpId} {b : BlockId} {k : Nat}
    (hi : (g.block b).ops[k]? = some i) : g.Visible v i ↔ g.VisibleAt v b k := by
  have hblock : (g.op i).block = some b := (h.mem_iff i b).mpr (List.mem_of_getElem? hi)
  cases hv : (g.value v).source with
  | argument c n => rw [visible_of_argument hv, visibleAt_of_argument hv]
  | result d n =>
    rw [visible_of_result hv, visibleAt_of_result hv]
    refine and_congr_right fun _ => exists_congr fun c => and_congr_right fun hc => ?_
    by_cases hcb : c = b
    · -- in its own block the operation is enclosed by itself
      subst hcb
      rw [← pair_sublist_iff_mem_take (h.nodup c) hi]
      constructor
      · exact fun hall => ⟨fun _ => hall i (.here hblock), fun hne => absurd rfl hne⟩
      · intro hat a ha
        rw [ha.eq_of_block hblock]
        exact hat.1 rfl
    · -- in another block it is enclosed by what encloses the operation around its own
      have hne : (g.op i).block ≠ some c := by
        rw [hblock]
        exact fun heq => hcb (Option.some.inj heq).symm
      constructor
      · refine fun hall => ⟨fun heq => absurd heq hcb, fun _ p hp a ha => ?_⟩
        refine hall a (.outer hne ?_ ha)
        rw [parent, hblock]
        exact hp
      · intro hat a ha
        cases ha with
        | here hself => exact absurd hself hne
        | outer _ hp ha =>
          rw [parent, hblock] at hp
          exact hat.2 hcb _ hp a ha

/-! ## Verified operations -/

/-- Slot `s` belongs to a live operation that still has it. -/
def Current (g : Graph) (s : SlotId) : Prop :=
  (g.op (g.slot s).owner).erased = false ∧ s ∈ (g.op (g.slot s).owner).operands

/-- Block `b` ends as the kind of the operation `i` around it asks. -/
def Ends (g : Graph) (i : OpId) (b : BlockId) : Prop :=
  ∀ t, (g.op i).kind.bind (·.terminator) = some t →
    ∃ last, (g.block b).ops.getLast? = some last ∧ (g.op last).name = t

/-- Operation `i` closes a block that has to end in some way. -/
def ClosesBlock (g : Graph) (i : OpId) : Prop :=
  ∃ b p t, (g.op i).block = some b ∧ g.blockParent b = some p ∧
    (g.op p).kind.bind (·.terminator) = some t ∧ (g.block b).ops.getLast? = some i

/-- An operation breaks no rule, but for the ends of blocks in `draft`, which are still being
filled. -/
structure Sane (g : Graph) (draft : List BlockId) (i : OpId) : Prop where
  live : (g.op i).erased = false
  reads : ∀ s ∈ (g.op i).operands, ∃ v, (g.slot s).value = some v ∧ g.Visible v i
  uses : ∀ v ∈ (g.op i).results, ∀ s, (g.slot s).value = some v → g.Current s
  ends : ∀ b, g.blockParent b = some i → b ∉ draft → g.Ends i b

/-- What a `Sane` operation reads, it sees. -/
theorem Sane.visible {draft : List BlockId} {i : OpId} (h : g.Sane draft i) {s : SlotId}
    (hs : s ∈ (g.op i).operands) {v : ValueId} (hv : (g.slot s).value = some v) :
    g.Visible v i := by
  obtain ⟨w, hw, hvisible⟩ := h.reads s hs
  rw [hv] at hw
  cases hw
  exact hvisible

/-- Everything inside `root` is `Sane`, where blocks of the `draft` need not end yet. -/
def Verified (g : Graph) (root : OpId) (draft : List BlockId) : Prop :=
  ∀ i, g.Inside root i → g.Sane draft i

theorem firstFlaw_eq_none_iff {α : Type} {xs : List α} {check : Nat → α → Option Flaw} :
    firstFlaw xs check = none ↔ ∀ k x, xs[k]? = some x → check k x = none := by
  rw [firstFlaw, List.findSome?_eq_none_iff]
  constructor
  · exact fun hall k x hx => hall (x, k) (List.mem_zipIdx_iff_getElem?.mpr hx)
  · exact fun hall p hp => hall p.2 p.1 (List.mem_zipIdx_iff_getElem?.mp hp)

section

variable (h : g.WellFormed)

include h

theorem operandFlaw_eq_none_iff {i : OpId} {k : Nat} {s : SlotId}
    (hs : (g.op i).operands[k]? = some s) :
    g.operandFlaw i k s = none ↔ ∃ v, (g.slot s).value = some v ∧ g.Visible v i := by
  -- owner, number and use list are as they have to be; what remains is the definition
  obtain ⟨-, howner, hindex⟩ := h.numbered i k s hs
  unfold operandFlaw
  simp only [howner, hindex, ne_eq, not_true_eq_false, or_self, if_false]
  cases hv : (g.slot s).value with
  | none => simp
  | some v =>
    have hlisted : (g.value v).uses.contains s = true :=
      List.contains_iff_mem.mpr (h.uses.mem_uses_iff.mpr hv)
    simp only [hlisted, Bool.not_true, Bool.false_eq_true, if_false, Option.some.injEq,
      exists_eq_left']
    exact definitionFlaw_eq_none_iff h.members

theorem useFlaw_eq_none_iff {i : OpId} {v : ValueId} {s : SlotId} (hs : (g.slot s).value = some v) :
    g.useFlaw i v s = none ↔ g.Current s := by
  have hlisted : (g.op (g.slot s).owner).operands[(g.slot s).index]? = some s ↔
      s ∈ (g.op (g.slot s).owner).operands :=
    ⟨List.mem_of_getElem?, fun hmem => (h.numbered.of_mem hmem).2.2⟩
  unfold useFlaw Current
  rw [← hlisted]
  dsimp only
  cases (g.op (g.slot s).owner).erased <;> simp [hs]

theorem blockFlaw_eq_none_iff {i : OpId} {r k : Nat} {b : BlockId}
    (hb : (g.block b).home = some ⟨i, r⟩) : g.blockFlaw i r k b = none ↔ g.Ends i b := by
  -- the two checks of back references never fail on a well-formed graph
  have hplaced : ((g.block b).ops.find? fun c => (g.op c).block != some b) = none := by
    rw [List.find?_eq_none]
    intro c hc
    simp [(h.members.mem_iff c b).mpr hc]
  unfold blockFlaw Ends
  simp only [hb, ne_eq, not_true_eq_false, if_false, hplaced]
  cases (g.op i).kind.bind (·.terminator) with
  | none => simp
  | some t =>
    cases (g.block b).ops.getLast? with
    | none => simp
    | some last => simp

/-- `opFlaw` accepts exactly what is `Sane`. -/
theorem opFlaw_eq_none_iff {i : OpId} : g.opFlaw i = none ↔ g.Sane [] i := by
  have hoperands : firstFlaw (g.op i).operands (g.operandFlaw i) = none ↔
      ∀ s ∈ (g.op i).operands, ∃ v, (g.slot s).value = some v ∧ g.Visible v i := by
    rw [firstFlaw_eq_none_iff]
    constructor
    · intro hall s hs
      obtain ⟨k, hk⟩ := List.mem_iff_getElem?.mp hs
      exact (operandFlaw_eq_none_iff h hk).mp (hall k s hk)
    · exact fun hall k s hk =>
        (operandFlaw_eq_none_iff h hk).mpr (hall s (List.mem_of_getElem? hk))
  have huses : ((g.op i).results.findSome? fun v => (g.value v).uses.findSome? (g.useFlaw i v)) =
      none ↔ ∀ v ∈ (g.op i).results, ∀ s, (g.slot s).value = some v → g.Current s := by
    simp only [List.findSome?_eq_none_iff, h.uses.mem_uses_iff]
    exact forall₄_congr fun v _ s hs => useFlaw_eq_none_iff h hs
  have hblocks : (firstFlaw (g.op i).regions fun r blocks =>
      firstFlaw blocks (g.blockFlaw i r)) = none ↔ ∀ b, g.blockParent b = some i → g.Ends i b := by
    simp only [firstFlaw_eq_none_iff]
    constructor
    · intro hall b hb
      obtain ⟨⟨j, r⟩, hr, rfl⟩ := Option.map_eq_some_iff.mp hb
      obtain ⟨blocks, hblocks, hmem⟩ := (h.owned.home_iff b j r).mp hr
      obtain ⟨k, hk⟩ := List.mem_iff_getElem?.mp hmem
      exact (blockFlaw_eq_none_iff h hr).mp (hall r blocks hblocks k b hk)
    · intro hall r blocks hblocks k b hk
      have hr := (h.owned.home_iff b i r).mpr ⟨blocks, hblocks, List.mem_of_getElem? hk⟩
      refine (blockFlaw_eq_none_iff h hr).mpr (hall b ?_)
      rw [blockParent, hr]
      rfl
  unfold opFlaw
  dsimp only
  cases herased : (g.op i).erased with
  | true =>
    refine ⟨fun hnone => ?_, fun hsane => ?_⟩
    · cases hnone
    · rw [hsane.live] at herased
      cases herased
  | false =>
    simp only [Bool.false_eq_true, if_false, Option.or_eq_none_iff, hoperands, huses, hblocks]
    constructor
    · rintro ⟨hreads, hcurrent, hends⟩
      exact ⟨herased, hreads, hcurrent, fun b hb _ => hends b hb⟩
    · intro hsane
      exact ⟨hsane.reads, hsane.uses, fun b hb => hsane.ends b hb List.not_mem_nil⟩

theorem verify_eq_none_iff {root : OpId} (hroot : g.HasOp root) :
    g.verify root = none ↔ g.Verified root [] := by
  rw [verify, List.findSome?_eq_none_iff]
  simp only [mem_postorder_iff h hroot, opFlaw_eq_none_iff h]
  rfl

end

/-- More blocks may be in the `draft`. -/
theorem Verified.mono {root : OpId} {draft draft' : List BlockId} (hv : g.Verified root draft)
    (hsubset : draft ⊆ draft') : g.Verified root draft' := by
  intro i hi
  have hsane := hv i hi
  exact ⟨hsane.live, hsane.reads, hsane.uses, fun b hb hdraft =>
    hsane.ends b hb fun hmem => hdraft (hsubset hmem)⟩

/-- A block `b` that `Ends` as it has to need not be in the `draft`. -/
theorem Verified.close {root : OpId} {b : BlockId} {draft : List BlockId}
    (hv : g.Verified root (b :: draft)) (hb : ∀ i, g.blockParent b = some i → g.Ends i b) :
    g.Verified root draft := by
  intro i hi
  have hsane := hv i hi
  refine ⟨hsane.live, hsane.reads, hsane.uses, fun c hc hdraft => ?_⟩
  by_cases hcb : c = b
  · subst hcb
    exact hb i hc
  · exact hsane.ends c hc (by rw [List.mem_cons, not_or]; exact ⟨hcb, hdraft⟩)

end Graph

end Multistage
