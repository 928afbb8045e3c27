import Multistage.Proofs.Graph.Edits

/-!
# Operations and blocks agree

An operation names the block that it lies in, and the block lists it. Placing and detaching change
both sides; between the two changes of a move the operation is in no block, which is a state of its
own and not a breach.
-/

namespace Multistage.Graph

/-- `block` of an operation names a block exactly if `ops` of the block lists it, and no block lists
one twice. -/
structure MembersAgree (g : Graph) : Prop where
  mem_iff : ∀ i b, (g.op i).block = some b ↔ i ∈ (g.block b).ops
  nodup : ∀ b, (g.block b).ops.Nodup

namespace MembersAgree

variable {g g' : Graph}

theorem empty : MembersAgree {} :=
  ⟨fun _ _ => ⟨nofun, nofun⟩, fun _ => List.nodup_nil⟩

theorem hasBlock (h : g.MembersAgree) {i : OpId} {b : BlockId} (hb : (g.op i).block = some b) :
    g.HasBlock b :=
  hasBlock_of_mem_ops ((h.mem_iff i b).mp hb)

theorem hasOp (h : g.MembersAgree) {i : OpId} {b : BlockId} (hi : i ∈ (g.block b).ops) :
    g.HasOp i :=
  hasOp_of_block_eq_some ((h.mem_iff i b).mpr hi)

/-- No two blocks list the same operation `i`. -/
theorem block_unique (h : g.MembersAgree) {i : OpId} {b c : BlockId} (hb : i ∈ (g.block b).ops)
    (hc : i ∈ (g.block c).ops) : b = c := by
  have heq := (h.mem_iff i b).mpr hb
  rw [(h.mem_iff i c).mpr hc] at heq
  exact (Option.some.inj heq).symm

/-- `i` has a position in the block that it names. -/
theorem idxOf?_isSome (h : g.MembersAgree) {i : OpId} {b : BlockId} (hb : (g.op i).block = some b) :
    ((g.block b).ops.idxOf? i).isSome := by
  rw [List.isSome_idxOf?]
  exact (h.mem_iff i b).mp hb

/-- `MembersAgree` looks at what operations name and what blocks list only. -/
theorem congr (h : g.MembersAgree) (hop : ∀ i, (g'.op i).block = (g.op i).block)
    (hblock : ∀ b, (g'.block b).ops = (g.block b).ops) : g'.MembersAgree where
  mem_iff i b := by rw [hop, hblock]; exact h.mem_iff i b
  nodup b := by rw [hblock]; exact h.nodup b

theorem place (h : g.MembersAgree) {b : BlockId} {k : Nat} {i : OpId} (hb : g.HasBlock b)
    (hi : g.HasOp i) (hdetached : (g.op i).block = none) (hk : k ≤ (g.block b).ops.length) :
    (g.place b k i).MembersAgree := by
  -- naming no block, the operation is listed nowhere, so the new entry is the only one
  have hfree : ∀ c, i ∉ (g.block c).ops := by
    intro c hc
    rw [← h.mem_iff, hdetached] at hc
    cases hc
  refine ⟨fun j c => ?_, fun c => ?_⟩
  · rw [op_place, block_place]
    by_cases hij : i = j
    · subst hij
      rw [if_pos ⟨rfl, hi⟩]
      by_cases hbc : b = c
      · subst hbc
        rw [if_pos ⟨rfl, hb⟩]
        simp only [List.mem_insertIdx hk, true_or]
      · rw [if_neg fun hc => hbc hc.1]
        exact ⟨fun heq => absurd (Option.some.inj heq) hbc, fun hc => absurd hc (hfree c)⟩
    · rw [if_neg fun hc => hij hc.1, h.mem_iff]
      split
      · next hbc =>
        obtain ⟨rfl, -⟩ := hbc
        rw [List.mem_insertIdx hk]
        exact ⟨Or.inr, fun hor => hor.resolve_left fun hji => hij hji.symm⟩
      · rfl
  · rw [block_place]
    split
    · next hbc =>
      obtain ⟨rfl, -⟩ := hbc
      rw [(List.perm_insertIdx i _ hk).nodup_iff, List.nodup_cons]
      exact ⟨hfree b, h.nodup b⟩
    · exact h.nodup c

theorem detach (h : g.MembersAgree) (i : OpId) : (g.detach i).MembersAgree := by
  refine ⟨fun j c => ?_, fun c => ?_⟩
  · rw [op_detach, block_detach]
    by_cases hij : i = j
    · subst hij
      rw [if_pos rfl]
      refine ⟨nofun, fun hc => ?_⟩
      -- listed once, it is gone from its block, and no other block listed it
      split at hc
      · rw [(h.nodup c).mem_erase_iff] at hc
        exact absurd rfl hc.1
      · next hne =>
        rw [← h.mem_iff] at hc
        exact absurd hc hne
    · rw [if_neg hij, h.mem_iff]
      split
      · rw [(h.nodup c).mem_erase_iff]
        exact ⟨fun hc => ⟨fun hji => hij hji.symm, hc⟩, fun hc => hc.2⟩
      · rfl
  · rw [block_detach]
    split
    · exact (h.nodup c).erase i
    · exact h.nodup c

theorem install (h : g.MembersAgree) {o : Op} (ho : o.block = none) (vals : List (Option ValueId))
    (types : List (Option Ty)) : (g.install o vals types).MembersAgree := by
  refine h.congr (fun i => ?_) (fun b => by rw [block_install])
  rw [op_install]
  split
  · next hi =>
    show o.block = _
    rw [ho, hi, op_nextOp]
    rfl
  · rfl

/-- `modifyOp` that leaves the block of `i` alone. -/
theorem modifyOp (h : g.MembersAgree) (i : OpId) {f : Op → Op} (hf : ∀ o, (f o).block = o.block) :
    (g.modifyOp i f).MembersAgree := by
  refine h.congr (fun j => ?_) (fun _ => rfl)
  rw [op_modifyOp]
  split
  · exact hf _
  · rfl

theorem spliceSegment (h : g.MembersAgree) (i : OpId) (name : String) (start size : Nat)
    (vals : List ValueId) : (g.spliceSegment i name start size vals).MembersAgree := by
  refine h.congr (fun j => ?_) (fun b => ?_)
  · rw [op_spliceSegment]
    split <;> rfl
  · rw [block, blocks_spliceSegment, ← block]

/-- A fresh block of `addBlock` lists nothing. -/
theorem addBlock (h : g.MembersAgree) (r : RegionId) : (g.addBlock r).1.MembersAgree := by
  have hpush : (g.pushBlock { home := some r }).1.MembersAgree := by
    refine h.congr (fun _ => rfl) fun b => ?_
    rw [block_pushBlock]
    split
    · next hb =>
      have hout : ¬ g.HasBlock b := by
        rw [hb]
        exact Nat.lt_irrefl _
      rw [block_of_not_hasBlock hout]
      rfl
    · rfl
  exact hpush.modifyOp r.op fun _ => rfl

/-! ## Runs -/

/-- Every `Edit` keeps operations and blocks in step. -/
theorem edit (h : g.MembersAgree) {cat : Catalog} (he : Edit cat g g') : g'.MembersAgree := by
  cases he with
  | install o vals types blank => exact h.install blank.block vals types
  | skip => exact h.congr (fun i => by rw [op_skipOp]) fun _ => rfl
  | assign s v => exact h.congr (fun _ => by rw [op_assign]) (fun _ => by rw [block_assign])
  | splice i name start size vals => exact h.spliceSegment i name start size vals
  | place b k i hb hi hdetached _ hk => exact h.place hb hi hdetached hk
  | detach i => exact h.detach i
  | mark i => exact h.modifyOp i fun _ => rfl
  | addBlock i r => exact h.addBlock ⟨i, r⟩
  | addArgument b ty =>
    refine h.congr (fun _ => rfl) fun c => ?_
    rw [Graph.addArgument, block_modifyBlock]
    split <;> rfl
  | describe i f hf =>
    refine h.modifyOp i fun o => ?_
    obtain ⟨attrs, loc, ho⟩ := hf o
    rw [ho]
  | retype v ty => exact h.congr (fun _ => rfl) (fun _ => rfl)

end MembersAgree

end Multistage.Graph
