import Multistage.Proofs.Verify.Verified

/-!
# Putting a new operation into a verified one

A new operation that reads only what its position sees may be put anywhere but at the end of a block
that has to end in some way. What was visible stays visible; the new operation sees what its
position saw, and its results are visible at every later position of the block.
-/

namespace Multistage

theorem insertIdx_eq_append {α : Type} {l : List α} {k : Nat} (hk : k ≤ l.length) (x : α) :
    l.insertIdx k x = l.take k ++ x :: l.drop k := by
  induction l generalizing k with
  | nil =>
    obtain rfl : k = 0 := Nat.le_zero.mp hk
    rfl
  | cons y rest ih =>
    cases k with
    | zero => rfl
    | succ k =>
      rw [List.insertIdx_succ_cons, ih (Nat.le_of_succ_le_succ hk)]
      rfl

/-- An entry `x` that is put before another one does not come last. -/
theorem getLast?_insertIdx {α : Type} {l : List α} {k : Nat} (hk : k < l.length) (x : α) :
    (l.insertIdx k x).getLast? = l.getLast? := by
  have hdrop : l.drop k ≠ [] := by
    rw [Ne, List.drop_eq_nil_iff]
    omega
  obtain ⟨y, rest, hrest⟩ := List.exists_cons_of_ne_nil hdrop
  have hsplit : l = l.take k ++ y :: rest := by rw [← hrest, List.take_append_drop]
  rw [insertIdx_eq_append (Nat.le_of_lt hk), hrest]
  conv_rhs => rw [hsplit]
  rw [List.getLast?_append, List.getLast?_append, List.getLast?_cons_cons]

theorem idxOf?_append_cons {α : Type} [DecidableEq α] {front back : List α} {x : α}
    (hnodup : (front ++ x :: back).Nodup) : (front ++ x :: back).idxOf? x = some front.length := by
  have hx : x ∉ front := fun hmem =>
    (List.nodup_append.mp hnodup).2.2 x hmem x List.mem_cons_self rfl
  rw [List.idxOf?_eq_some_iff]
  refine ⟨by simp, by simp, fun j hj heq => hx ?_⟩
  rw [List.getElem_append_left hj] at heq
  exact heq ▸ List.getElem_mem hj

namespace Graph

variable {g g' : Graph}

/-- `Visible` survives a change that keeps `v` where it is from, has `i` enclosed as it was, and
keeps the order of the definition and what encloses it. -/
theorem Visible.transfer {v : ValueId} {i : OpId} (h : g.Visible v i)
    (hsource : (g'.value v).source = (g.value v).source)
    (hhome : ∀ b, (g.block b).home.isSome → (g'.block b).home.isSome)
    (hdef : ∀ d n, (g.value v).source = .result d n →
      (g'.op d).erased = (g.op d).erased ∧ (g'.op d).block = (g.op d).block ∧
      ∀ b a, g'.Encloses b a i → g.Encloses b a i ∧
        ([d, a].Sublist (g.block b).ops → [d, a].Sublist (g'.block b).ops)) :
    g'.Visible v i := by
  cases hv : (g.value v).source with
  | argument b n =>
    rw [visible_of_argument hv] at h
    exact (visible_of_argument (hsource.trans hv) i).mpr (hhome b h)
  | result d n =>
    obtain ⟨herased, hblock, hencloses⟩ := hdef d n hv
    obtain ⟨hlive, b, hb, hall⟩ := (visible_of_result hv i).mp h
    refine (visible_of_result (hsource.trans hv) i).mpr
      ⟨herased.trans hlive, b, hblock.trans hb, fun a ha => ?_⟩
    obtain ⟨hold, hsublist⟩ := hencloses b a ha
    exact hsublist (hall a hold)

/-! ## Rows -/

/-- The graph with a new operation at position `k` of a block. -/
def inserted (g : Graph) (o : Op) (vals : List (Option ValueId)) (types : List (Option Ty))
    (b : BlockId) (k : Nat) : Graph :=
  (g.install o vals types).place b k g.nextOp

/-- A row `o` can be put into block `b` at position `k`, to read `vals`. -/
structure Insertable (g : Graph) (o : Op) (vals : List (Option ValueId)) (b : BlockId) (k : Nat) :
    Prop where
  wellFormed : g.WellFormed
  blank : o.Blank
  vals_there : ∀ v ∈ vals, g.HasOptValue v
  block_there : g.HasBlock b
  le_length : k ≤ (g.block b).ops.length

section

variable (g : Graph) (o : Op) (vals : List (Option ValueId)) (types : List (Option Ty))
  (b : BlockId) (k : Nat)

theorem op_inserted_of_ne {j : OpId} (hj : j ≠ g.nextOp) :
    (g.inserted o vals types b k).op j = g.op j := by
  rw [inserted, op_place, if_neg fun h => hj h.1.symm, op_install, if_neg hj]

theorem op_inserted_self :
    (g.inserted o vals types b k).op g.nextOp =
      { o with
        operands := slotsFrom g.slots.size vals.length
        results := valuesFrom g.values.size types.length
        block := some b } := by
  have hthere : g.nextOp.index < (g.install o vals types).ops.size := by
    rw [size_ops_install]
    exact Nat.lt_succ_self _
  rw [inserted, op_place, if_pos ⟨rfl, hthere⟩, op_install, if_pos rfl]

theorem block_inserted_of_ne {c : BlockId} (hc : c ≠ b) :
    (g.inserted o vals types b k).block c = g.block c := by
  rw [inserted, block_place, if_neg fun h => hc h.1.symm, block_install]

theorem home_inserted (c : BlockId) :
    ((g.inserted o vals types b k).block c).home = (g.block c).home := by
  rw [inserted, block_place]
  split <;> rw [block_install]

theorem blockParent_inserted (c : BlockId) :
    (g.inserted o vals types b k).blockParent c = g.blockParent c := by
  rw [blockParent, home_inserted, ← blockParent]

theorem slot_inserted (s : SlotId) :
    (g.inserted o vals types b k).slot s = (g.install o vals types).slot s := rfl

theorem source_inserted {v : ValueId} (hv : g.HasValue v) :
    ((g.inserted o vals types b k).value v).source = (g.value v).source := by
  exact ((source_install_iff g o vals types).mpr (Or.inl ⟨hv, rfl⟩)).2

/-- A slot `s` of `inserted` that holds a value was there and held it, or is one of the new ones. -/
theorem slot_inserted_cases {s : SlotId} {v : ValueId}
    (hs : ((g.inserted o vals types b k).slot s).value = some v) :
    (g.HasSlot s ∧ (g.inserted o vals types b k).slot s = g.slot s) ∨
      (some v ∈ vals ∧ s ∈ slotsFrom g.slots.size vals.length ∧
        ((g.inserted o vals types b k).slot s).owner = g.nextOp) := by
  rw [slot_inserted] at hs ⊢
  by_cases hold : g.HasSlot s
  · exact Or.inl ⟨hold, slot_install_of_hasSlot g o vals types hold⟩
  · have hlt : s.index < g.slots.size + vals.length := by
      rw [← size_slots_install g o vals types]
      exact hasSlot_of_value_eq_some hs
    obtain ⟨n, rfl⟩ := exists_slot_of_le (Nat.not_lt.mp hold)
    obtain ⟨w, hw⟩ : ∃ w, vals[n]? = some w :=
      ⟨_, List.getElem?_eq_getElem (Nat.lt_of_add_lt_add_left hlt)⟩
    have hrow := slot_install_of_getElem? g o vals types hw
    rw [hrow] at hs ⊢
    refine Or.inr ⟨?_, mem_slotsFrom.mpr ⟨Nat.le_add_right _ _, hlt⟩, rfl⟩
    rw [← show w = some v from hs]
    exact List.mem_of_getElem? hw

theorem parent_inserted_of_ne {j : OpId} (hj : j ≠ g.nextOp) :
    (g.inserted o vals types b k).parent j = g.parent j := by
  unfold parent
  rw [op_inserted_of_ne g o vals types b k hj]
  exact Option.bind_congr fun c _ => blockParent_inserted g o vals types b k c

theorem current_inserted {s : SlotId} (hold : g.HasSlot s) (hs : g.Current s) :
    (g.inserted o vals types b k).Current s := by
  obtain ⟨hlive, hmem⟩ := hs
  have hne : (g.slot s).owner ≠ g.nextOp := (hasOp_of_mem_operands hmem).ne_nextOp
  rw [Current, slot_inserted, slot_install_of_hasSlot g o vals types hold,
    op_inserted_of_ne g o vals types b k hne]
  exact ⟨hlive, hmem⟩

end

namespace Insertable

variable {o : Op} {vals : List (Option ValueId)} {types : List (Option Ty)} {b : BlockId} {k : Nat}
  (h : g.Insertable o vals b k)

include h

theorem ops_inserted_self : ((g.inserted o vals types b k).block b).ops =
    (g.block b).ops.insertIdx k g.nextOp := by
  have hthere : b.index < (g.install o vals types).blocks.size := by
    rw [blocks_install]
    exact h.block_there
  rw [inserted, block_place, if_pos ⟨rfl, hthere⟩, block_install]

theorem sublist_ops_inserted (c : BlockId) :
    (g.block c).ops.Sublist ((g.inserted o vals types b k).block c).ops := by
  by_cases hc : c = b
  · subst hc
    rw [h.ops_inserted_self]
    exact List.sublist_insertIdx _ _ _
  · rw [block_inserted_of_ne g o vals types b k hc]

/-! ## Nesting -/

theorem parent_ne_nextOp {x p : OpId} (hp : g.parent x = some p) : p ≠ g.nextOp := by
  obtain ⟨c, -, hc⟩ := Option.bind_eq_some_iff.mp hp
  exact (hasOp_of_blockParent h.wellFormed hc).ne_nextOp

theorem inside_inserted {root j : OpId} (hj : j ≠ g.nextOp) :
    (g.inserted o vals types b k).Inside root j ↔ g.Inside root j :=
  Inside.congr (S := (· ≠ g.nextOp)) (fun _ hx => parent_inserted_of_ne g o vals types b k hx)
    (fun _ _ _ hp => h.parent_ne_nextOp hp) hj

theorem encloses_inserted {c : BlockId} {a j : OpId} (hj : j ≠ g.nextOp) :
    (g.inserted o vals types b k).Encloses c a j ↔ g.Encloses c a j :=
  Encloses.congr (S := (· ≠ g.nextOp))
    (fun x hx => by rw [op_inserted_of_ne g o vals types b k hx])
    (fun _ hx => parent_inserted_of_ne g o vals types b k hx)
    (fun _ _ _ hp => h.parent_ne_nextOp hp) hj

/-! ## Visibility -/

theorem visible_inserted {v : ValueId} (hv : g.HasValue v) {j : OpId} (hj : j ≠ g.nextOp)
    (hvisible : g.Visible v j) : (g.inserted o vals types b k).Visible v j := by
  refine hvisible.transfer (source_inserted g o vals types b k hv)
    (fun c hc => by rw [home_inserted]; exact hc) fun d n hd => ?_
  have hne : d ≠ g.nextOp := by
    rintro rfl
    exact h.wellFormed.owned.not_result_nextOp hv hd
  rw [op_inserted_of_ne g o vals types b k hne]
  refine ⟨rfl, rfl, fun c a ha => ⟨(h.encloses_inserted hj).mp ha, fun hsublist => ?_⟩⟩
  exact hsublist.trans (h.sublist_ops_inserted c)

/-- What a position saw, it sees with the new operation there, and so does every later position
`m`. -/
theorem visibleAt_inserted {v : ValueId} (hv : g.HasValue v) (hvisible : g.VisibleAt v b k) {m : Nat}
    (hm : k ≤ m) : (g.inserted o vals types b k).VisibleAt v b m := by
  have hsource := source_inserted g o vals types b k hv
  cases hdef : (g.value v).source with
  | argument c n =>
    rw [visibleAt_of_argument hdef] at hvisible
    rw [visibleAt_of_argument (hsource.trans hdef), home_inserted]
    exact hvisible
  | result d n =>
    have hne : d ≠ g.nextOp := by
      rintro rfl
      exact h.wellFormed.owned.not_result_nextOp hv hdef
    obtain ⟨hlive, c, hc, hsame, houter⟩ := (visibleAt_of_result hdef b k).mp hvisible
    rw [visibleAt_of_result (hsource.trans hdef), op_inserted_of_ne g o vals types b k hne]
    refine ⟨hlive, c, hc, fun hcb => ?_, fun hcb p hp a ha => ?_⟩
    · -- the first `k` entries are still the first ones
      have hlength : ((g.block b).ops.take k).length = k := by
        rw [List.length_take, Nat.min_eq_left h.le_length]
      rw [h.ops_inserted_self, insertIdx_eq_append h.le_length, List.take_append, hlength]
      refine List.mem_append_left _ ?_
      rw [List.take_of_length_le (by omega)]
      exact hsame hcb
    · rw [blockParent_inserted] at hp
      have hpn := (hasOp_of_blockParent h.wellFormed hp).ne_nextOp
      exact (houter hcb p hp a ((h.encloses_inserted hpn).mp ha)).trans (h.sublist_ops_inserted c)

theorem membersAgree_inserted : (g.inserted o vals types b k).MembersAgree := by
  refine (h.wellFormed.members.install h.blank.block vals types).place ?_ ?_ ?_ ?_
  · rw [HasBlock, blocks_install]
    exact h.block_there
  · rw [HasOp, size_ops_install]
    exact Nat.lt_succ_self _
  · rw [op_install, if_pos rfl]
    exact h.blank.block
  · rw [block_install]
    exact h.le_length

/-- The new operation sees what its position saw. -/
theorem visible_inserted_self {v : ValueId} (hv : g.HasValue v) (hvisible : g.VisibleAt v b k) :
    (g.inserted o vals types b k).Visible v g.nextOp := by
  have hat : (g.inserted o vals types b k).VisibleAt v b k :=
    h.visibleAt_inserted hv hvisible (Nat.le_refl k)
  refine (visible_iff_visibleAt h.membersAgree_inserted ?_).mpr hat
  rw [h.ops_inserted_self, List.getElem?_insertIdx_self, if_pos h.le_length]

/-- The results of the new operation are visible right after it. -/
theorem visibleAt_result {v : ValueId}
    (hv : v ∈ ((g.inserted o vals types b k).op g.nextOp).results) :
    (g.inserted o vals types b k).VisibleAt v b (k + 1) := by
  rw [op_inserted_self] at hv
  obtain ⟨n, hn⟩ := List.mem_iff_getElem?.mp hv
  obtain ⟨hlt, rfl⟩ := getElem?_valuesFrom.mp hn
  have hsource : ((g.inserted o vals types b k).value ⟨g.values.size + n⟩).source =
      .result g.nextOp n :=
    ((source_install_iff g o vals types).mpr (Or.inr ⟨n, hlt, rfl, rfl⟩)).2
  rw [visibleAt_of_result hsource, op_inserted_self]
  refine ⟨h.blank.live, b, rfl, fun _ => ?_, fun hne => absurd rfl hne⟩
  rw [h.ops_inserted_self]
  refine List.mem_of_getElem? (i := k) ?_
  rw [List.getElem?_take_of_lt (Nat.lt_succ_self k), List.getElem?_insertIdx_self,
    if_pos h.le_length]

/-! ## Verification -/

theorem ends_inserted {c : BlockId} {i : OpId} (hi : i ≠ g.nextOp)
    (hc : c = b → k < (g.block b).ops.length) (hends : g.Ends i c) :
    (g.inserted o vals types b k).Ends i c := by
  intro t ht
  rw [op_inserted_of_ne g o vals types b k hi] at ht
  obtain ⟨last, hlast, hname⟩ := hends t ht
  have hmem : last ∈ (g.block c).ops := List.mem_of_getLast? hlast
  refine ⟨last, ?_, ?_⟩
  · by_cases hcb : c = b
    · subst hcb
      rw [h.ops_inserted_self, getLast?_insertIdx (hc rfl)]
      exact hlast
    · rw [block_inserted_of_ne g o vals types b k hcb]
      exact hlast
  · rw [op_inserted_of_ne g o vals types b k (h.wellFormed.members.hasOp hmem).ne_nextOp]
    exact hname

/-- The new operation is `Sane`. -/
theorem sane_inserted_self {draft : List BlockId}
    (hvals : ∀ v ∈ vals, ∃ w, v = some w ∧ g.VisibleAt w b k) :
    (g.inserted o vals types b k).Sane draft g.nextOp where
  live := by
    rw [op_inserted_self]
    exact h.blank.live
  reads s hs := by
    rw [op_inserted_self] at hs
    obtain ⟨n, hn⟩ := List.mem_iff_getElem?.mp hs
    obtain ⟨hlt, rfl⟩ := getElem?_slotsFrom.mp hn
    obtain ⟨w, hw, hvisible⟩ := hvals vals[n] (List.getElem_mem hlt)
    have hrow := slot_install_of_getElem? g o vals types (List.getElem?_eq_getElem hlt)
    refine ⟨w, ?_, h.visible_inserted_self ?_ hvisible⟩
    · rw [slot_inserted, hrow]
      exact hw
    · exact h.vals_there vals[n] (List.getElem_mem hlt) w hw
  uses v hv s hs := by
    -- a new result is read by no slot yet
    rw [op_inserted_self] at hv
    have hnew : ¬ g.HasValue v := Nat.not_lt.mpr (mem_valuesFrom.mp hv).1
    rcases slot_inserted_cases g o vals types b k hs with ⟨-, hold⟩ | ⟨hmem, -⟩
    · rw [hold] at hs
      exact absurd (h.wellFormed.uses.held s v hs) hnew
    · exact absurd (h.vals_there _ hmem v rfl) hnew
  ends c hc := by
    -- it has no blocks
    rw [blockParent_inserted] at hc
    exact absurd rfl (hasOp_of_blockParent h.wellFormed hc).ne_nextOp

/-- `root` stays verified in `inserted`, at the end of block `b` only if it is in the `draft`. -/
theorem verified_inserted {root : OpId} {draft : List BlockId} (hverified : g.Verified root draft)
    (hvals : ∀ v ∈ vals, ∃ w, v = some w ∧ g.VisibleAt w b k)
    (hend : b ∉ draft → k < (g.block b).ops.length) :
    (g.inserted o vals types b k).Verified root draft := by
  intro j hj
  by_cases hnew : j = g.nextOp
  · subst hnew
    exact h.sane_inserted_self hvals
  · have hsane := hverified j ((h.inside_inserted hnew).mp hj)
    refine ⟨?_, fun s hs => ?_, fun v hv s hs => ?_, fun c hc hdraft => ?_⟩
    · rw [op_inserted_of_ne g o vals types b k hnew]
      exact hsane.live
    · rw [op_inserted_of_ne g o vals types b k hnew] at hs
      obtain ⟨v, hheld, hvisible⟩ := hsane.reads s hs
      have hold := (h.wellFormed.numbered.of_mem hs).1
      refine ⟨v, ?_, h.visible_inserted (h.wellFormed.uses.held s v hheld) hnew hvisible⟩
      rw [slot_inserted, slot_install_of_hasSlot g o vals types hold]
      exact hheld
    · rw [op_inserted_of_ne g o vals types b k hnew] at hv
      rcases slot_inserted_cases g o vals types b k hs with ⟨hold, hrow⟩ | ⟨-, hmem, howner⟩
      · rw [hrow] at hs
        exact current_inserted g o vals types b k hold (hsane.uses v hv s hs)
      · rw [Current, howner, op_inserted_self]
        exact ⟨h.blank.live, hmem⟩
    · -- outside the draft the new operation does not come last
      rw [blockParent_inserted] at hc
      refine h.ends_inserted hnew (fun hcb => hend ?_) (hsane.ends c hc hdraft)
      rwa [← hcb]

end Insertable

end Graph

end Multistage
