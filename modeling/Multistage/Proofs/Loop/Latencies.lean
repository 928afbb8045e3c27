import Mathlib.Algebra.Group.Int.Defs
import Multistage.Latency
import Multistage.Proofs.Tree.Walking

/-!
# Latencies on the way

A table is written to the operations one entry after the other, and read back on a walk. Writing and
reading change one attribute of operations only (`Relabels`), so the walk meets what the entries
were checked against, and every operation of the tree gives up what it was last given: its entry of
the table, or the integer that it had before.
-/

namespace Multistage

/-! ## Tables -/

namespace LatencyTable

/-- The tables that there are: an empty one, and what `insert` and `erase` make of a table. -/
inductive Built : LatencyTable → Prop
  | empty : Built {}
  | insert {t : LatencyTable} (h : Built t) (i : Option OpId) (latency : Int) :
      Built (t.insert i latency)
  | erase {t : LatencyTable} (h : Built t) (i : Option OpId) : Built (t.erase i)

/-- The `entries` come in the order of the operations. -/
def Sorted (entries : List (OpId × Int)) : Prop :=
  entries.Pairwise fun a b => a.1.index < b.1.index

theorem Sorted.put {entries : List (OpId × Int)} (h : Sorted entries) (i : OpId) (latency : Int) :
    Sorted (Assoc.put (fun a b => decide (a.index < b.index)) i latency entries) ∧
      ∀ e ∈ Assoc.put (fun a b => decide (a.index < b.index)) i latency entries,
        e = (i, latency) ∨ e ∈ entries := by
  induction entries with
  | nil =>
    rw [Assoc.put]
    exact ⟨List.pairwise_singleton _ _, fun e he => Or.inl (List.mem_singleton.mp he)⟩
  | cons first rest ih =>
    obtain ⟨k, l⟩ := first
    obtain ⟨hfirst, hrest⟩ := List.pairwise_cons.mp h
    obtain ⟨hsorted, hmem⟩ := ih hrest
    -- the entry goes before the first one, takes its place, or goes into the rest
    simp only [Assoc.put, decide_eq_true_eq]
    split
    · next hlt =>
      refine ⟨List.pairwise_cons.mpr ⟨fun e he => ?_, h⟩, by simp⟩
      rcases List.mem_cons.mp he with rfl | he
      · exact hlt
      · exact Nat.lt_trans hlt (hfirst e he)
    · next hge =>
      split
      · next hik =>
        subst hik
        exact ⟨List.pairwise_cons.mpr ⟨hfirst, hrest⟩, by simp +contextual⟩
      · next hne =>
        have hindex : k.index ≠ i.index := fun heq => hne (congrArg OpId.mk heq).symm
        refine ⟨List.pairwise_cons.mpr ⟨fun e he => ?_, hsorted⟩, fun e he => ?_⟩
        · rcases hmem e he with rfl | he
          · show k.index < i.index
            omega
          · exact hfirst e he
        · rcases List.mem_cons.mp he with rfl | he
          · exact Or.inr List.mem_cons_self
          · exact (hmem e he).imp_right (List.mem_cons_of_mem _)

theorem Built.sorted {t : LatencyTable} (h : t.Built) : Sorted t.entries := by
  induction h with
  | empty => exact List.Pairwise.nil
  | insert _ i latency ih =>
    cases i with
    | none => exact ih
    | some i => exact (ih.put i latency).1
  | erase _ i ih =>
    cases i with
    | none => exact ih
    | some i => exact ih.sublist List.filter_sublist

end LatencyTable

/-! ## One attribute -/

namespace Graph

variable {name : String} {g g' g'' : Graph}

/-- Changes the `attrs` of operation `i`. -/
def relabel (g : Graph) (i : OpId) (f : AttrDict → AttrDict) : Graph :=
  g.modifyOp i fun o => { o with attrs := f o.attrs }

/-- `g'` is `g` but for the attribute `name` of its operations. -/
structure Relabels (name : String) (g g' : Graph) : Prop where
  size : g'.ops.size = g.ops.size
  op : ∀ i, g'.op i = { g.op i with attrs := (g'.op i).attrs }
  others : ∀ i other, other ≠ name → (g'.op i).attrs.find? other = (g.op i).attrs.find? other
  blocks : g'.blocks = g.blocks
  values : g'.values = g.values
  slots : g'.slots = g.slots

namespace Relabels

theorem refl (name : String) (g : Graph) : g.Relabels name g :=
  ⟨rfl, fun _ => rfl, fun _ _ _ => rfl, rfl, rfl, rfl⟩

theorem trans (h : g.Relabels name g') (h' : g'.Relabels name g'') : g.Relabels name g'' where
  size := h'.size.trans h.size
  op i := by
    rw [h'.op i, h.op i]
  others i other hne := (h'.others i other hne).trans (h.others i other hne)
  blocks := h'.blocks.trans h.blocks
  values := h'.values.trans h.values
  slots := h'.slots.trans h.slots

theorem relabel (g : Graph) (i : OpId) {f : AttrDict → AttrDict}
    (hf : ∀ d other, other ≠ name → (f d).find? other = d.find? other) :
    g.Relabels name (g.relabel i f) where
  size := size_ops_modifyOp g i _
  op j := by
    rw [Graph.relabel, op_modifyOp]
    split <;> rfl
  others j other hne := by
    rw [Graph.relabel, op_modifyOp]
    split
    · exact hf _ other hne
    · rfl
  blocks := rfl
  values := rfl
  slots := rfl

variable (h : g.Relabels name g')

include h

/-- `walk` follows the same lists. -/
theorem pruned : g.Pruned g' [] := by
  refine ⟨fun j => by rw [h.op j], fun b _ => ?_⟩
  rw [block, h.blocks, ← block]

theorem parent (i : OpId) : g'.parent i = g.parent i := by
  have hparent : g'.blockParent = g.blockParent := by
    funext b
    rw [blockParent, block, h.blocks, ← block, blockParent]
  rw [Graph.parent, h.op i, hparent, Graph.parent]

theorem isAncestorOf (i j : OpId) : g'.isAncestorOf i j = g.isAncestorOf i j := by
  have hchain : ∀ n j, g'.chain n j = g.chain n j := by
    intro n
    induction n with
    | zero => exact fun _ => rfl
    | succ n ih =>
      intro j
      simp only [chain, h.parent, ih]
  rw [Graph.isAncestorOf, Graph.isAncestorOf, ancestors, ancestors, h.size, hchain]

end Relabels

end Graph

/-! ## Writing and taking one latency -/

namespace Latency

open BuildM Build

/-- What operation `i` has as its latency attribute. -/
def mark (g : Graph) (i : OpId) : Option (Option Attr) := (g.op i).attrs.find? attrName

/-- The latency that an operation gives up for its `mark`. -/
def ofMark : Option (Option Attr) → Option Int
  | some (some (.integer latency _)) => some latency
  | _ => none

theorem ofMark_eq_some_iff {g : Graph} {i : OpId} {latency : Int} :
    ofMark (mark g i) = some latency ↔
      ∃ ty, (g.op i).attrs.get? attrName = some (.integer latency ty) := by
  rw [AttrDict.get?, ← mark]
  cases mark g i with
  | none => simp [ofMark]
  | some m =>
    cases m with
    | none => simp [ofMark]
    | some a => cases a <;> simp [ofMark]

theorem mark_relabel {g : Graph} {i : OpId} (hi : g.HasOp i) (f : AttrDict → AttrDict) (j : OpId) :
    mark (g.relabel i f) j = if j = i then (f (g.op i).attrs).find? attrName else mark g j := by
  rw [mark, Graph.relabel, Graph.op_modifyOp]
  by_cases hij : j = i
  · subst hij
    rw [if_pos ⟨rfl, hi⟩, if_pos rfl]
  · rw [if_neg fun h => hij h.1.symm, if_neg hij, mark]

theorem serializeEntry_eq {c : Context} {root i : OpId} (hin : c.graph.isAncestorOf root i = true)
    (hi : c.graph.HasOp i) (latency : Int) :
    ∃ c', serializeEntry (some root) (some i) latency c = .ok () c' ∧
      c.graph.Relabels attrName c'.graph ∧
      ∀ j, mark c'.graph j = if j = i then some (some (.i32 latency)) else mark c.graph j := by
  refine ⟨{ c with graph := c.graph.relabel i (·.insert attrName (some (.i32 latency))) }, ?_, ?_,
    fun j => ?_⟩
  · show (if !c.graph.isAncestorOf root i then _ else _ : BuildM Unit) c = _
    rw [hin]
    rfl
  · refine Graph.Relabels.relabel c.graph i (f := (·.insert attrName (some (.i32 latency)))) ?_
    intro d other hne
    rw [AttrDict.find?_insert, if_neg hne]
  · rw [mark_relabel hi, AttrDict.find?_insert, if_pos rfl]

/-- `takeEntry` takes off a `mark`, and the table gets it if it is an integer. -/
theorem takeEntry_of_mark (t : LatencyTable) {i : OpId} {c : Context} {m : Option Attr}
    (hm : mark c.graph i = some m) :
    ∃ log, takeEntry t i c = .ok ((ofMark (some m)).elim t (t.insert (some i)))
      { c with graph := c.graph.relabel i (·.erase attrName), log } := by
  have hcontains : (c.graph.op i).attrs.contains attrName = true := by
    rw [AttrDict.contains, ← mark, hm]
    rfl
  have hremove : removeAttr i attrName c =
      .ok m { c with graph := c.graph.relabel i (·.erase attrName) } := by
    show EStateM.Result.ok ((c.graph.op i).attrs.get? attrName) _ = _
    rw [AttrDict.get?, ← mark, hm]
    rfl
  show ∃ log, (if !(c.graph.op i).attrs.contains attrName then _ else _ : BuildM LatencyTable) c = _
  rw [hcontains]
  show ∃ log, (removeAttr i attrName >>= _) c = _
  rw [bind_of_ok hremove]
  -- only an integer is filed; anything else is reported, which changes the log
  cases m with
  | none => exact ⟨_, rfl⟩
  | some a => cases a <;> exact ⟨_, rfl⟩

/-- `takeEntry` leaves `i` without a `mark`, and the table has it if it was an integer. -/
theorem takeEntry_eq (t : LatencyTable) (i : OpId) (c : Context) :
    ∃ t' c', takeEntry t i c = .ok t' c' ∧ c.graph.Relabels attrName c'.graph ∧
      (∀ j, mark c'.graph j = if j = i then none else mark c.graph j) ∧
      ∀ j, t'.get? j = if j = some i then (ofMark (mark c.graph i)).or (t.get? j) else t.get? j := by
  -- a missing attribute leaves all as it is; an operation that has one is there
  cases hm : mark c.graph i with
  | none =>
    refine ⟨t, c, ?_, .refl _ _, fun j => ?_, fun j => ?_⟩
    · show (if !(c.graph.op i).attrs.contains attrName then _ else _ : BuildM LatencyTable) c = _
      rw [AttrDict.contains, ← mark, hm]
      rfl
    · split
      · next hij => rw [hij, hm]
      · rfl
    · split <;> rfl
  | some m =>
    have hi : c.graph.HasOp i := by
      by_contra hout
      rw [mark, Graph.op_of_not_hasOp hout] at hm
      cases hm
    obtain ⟨log, hrun⟩ := takeEntry_of_mark t hm
    refine ⟨_, _, hrun, ?_, fun j => ?_, fun j => ?_⟩
    · refine Graph.Relabels.relabel c.graph i (f := (·.erase attrName)) ?_
      intro d other hne
      rw [AttrDict.find?_erase, if_neg hne]
    · rw [mark_relabel hi, AttrDict.find?_erase, if_pos rfl]
    · cases ofMark (some m) with
      | none => simp
      | some latency => simp [LatencyTable.get?_insert]

/-! ## Writing and taking all of them -/

/-- `serializeEntry` of `entries` that all lie inside `root`: every operation of the table is given
its latency. The induction is on `entries`; an operation that has been written to does not come
again. -/
theorem forM_serializeEntry {root : OpId} {entries : List (OpId × Int)} {c : Context}
    (hsorted : LatencyTable.Sorted entries)
    (hin : ∀ e ∈ entries, c.graph.isAncestorOf root e.1 = true ∧ c.graph.HasOp e.1) :
    ∃ c', (entries.map fun e => (some e.1, e.2)).forM
        (fun e => serializeEntry (some root) e.1 e.2) c = .ok () c' ∧
      c.graph.Relabels attrName c'.graph ∧
      ∀ j, mark c'.graph j =
        ((entries.lookup j).map fun latency => some (.i32 latency)).or (mark c.graph j) := by
  induction entries generalizing c with
  | nil => exact ⟨c, rfl, .refl _ _, fun _ => rfl⟩
  | cons first rest ih =>
    obtain ⟨i, latency⟩ := first
    obtain ⟨hfirst, hrest⟩ := List.pairwise_cons.mp hsorted
    obtain ⟨hini, hi⟩ := hin _ List.mem_cons_self
    obtain ⟨c₁, hrun₁, hrel₁, hmark₁⟩ := serializeEntry_eq hini hi latency
    -- writing does not move anything, so what is left lies in the module still
    obtain ⟨c₂, hrun₂, hrel₂, hmark₂⟩ := ih (c := c₁) hrest fun e he => by
      rw [hrel₁.isAncestorOf, Graph.HasOp, hrel₁.size]
      exact hin e (List.mem_cons_of_mem _ he)
    refine ⟨c₂, ?_, hrel₁.trans hrel₂, fun j => ?_⟩
    · show (serializeEntry (some root) (some i) latency >>= fun _ => _) c = _
      rw [bind_of_ok hrun₁]
      exact hrun₂
    · rw [hmark₂, hmark₁, Assoc.lookup_cons]
      by_cases hji : j = i
      · subst hji
        -- later entries are of other operations, so the first entry is what stays written
        have hnone : rest.lookup j = none := by
          rw [List.lookup_eq_none_iff]
          intro e he
          rw [bne_iff_ne]
          exact fun heq => Nat.lt_irrefl _ (heq ▸ hfirst e he)
        rw [hnone, if_pos rfl, if_pos rfl]
        rfl
      · rw [if_neg hji, if_neg hji]

/-- `takeEntry` of operations `l`, each of which comes once: the table has what they had, over what
it had before. -/
theorem foldlM_takeEntry {l : List OpId} (hnodup : l.Nodup) (t : LatencyTable) (c : Context) :
    ∃ t' c', l.foldlM takeEntry t c = .ok t' c' ∧ c.graph.Relabels attrName c'.graph ∧
      (∀ j, mark c'.graph j = if j ∈ l then none else mark c.graph j) ∧
      t'.get? none = t.get? none ∧
      ∀ i, t'.get? (some i) =
        if i ∈ l then (ofMark (mark c.graph i)).or (t.get? (some i)) else t.get? (some i) := by
  induction l generalizing t c with
  | nil => exact ⟨t, c, rfl, .refl _ _, fun _ => rfl, rfl, fun _ => rfl⟩
  | cons i rest ih =>
    obtain ⟨hnotin, hrest⟩ := List.nodup_cons.mp hnodup
    obtain ⟨t₁, c₁, hrun₁, hrel₁, hmark₁, hget₁⟩ := takeEntry_eq t i c
    obtain ⟨t₂, c₂, hrun₂, hrel₂, hmark₂, hnone₂, hget₂⟩ := ih hrest t₁ c₁
    refine ⟨t₂, c₂, ?_, hrel₁.trans hrel₂, fun j => ?_, ?_, fun j => ?_⟩
    · rw [List.foldlM_cons, bind_of_ok hrun₁]
      exact hrun₂
    · rw [hmark₂, hmark₁]
      by_cases hji : j = i <;> simp [hji]
    · rw [hnone₂, hget₁, if_neg nofun]
    · rw [hget₂, hget₁, hmark₁]
      by_cases hji : j = i
      · subst hji
        simp [hnotin]
      · simp [hji]

/-- `takeEntry` leaves operations without a `mark` as they are. -/
theorem foldlM_takeEntry_of_unmarked {l : List OpId} {c : Context}
    (hl : ∀ i ∈ l, mark c.graph i = none) (t : LatencyTable) :
    l.foldlM takeEntry t c = .ok t c := by
  induction l with
  | nil => rfl
  | cons i rest ih =>
    have hfirst : takeEntry t i c = .ok t c := by
      show (if !(c.graph.op i).attrs.contains attrName then _ else _ : BuildM LatencyTable) c = _
      rw [AttrDict.contains, ← mark, hl i List.mem_cons_self]
      rfl
    rw [List.foldlM_cons, bind_of_ok hfirst]
    exact ih fun j hj => hl j (List.mem_cons_of_mem _ hj)

theorem prunes_takeEntry : Prunes takeEntry := by
  intro t i c t' c' hok
  obtain ⟨t₁, c₁, hrun, hrel, -⟩ := takeEntry_eq t i c
  rw [hrun] at hok
  cases hok
  exact ⟨hrel.pruned.regions, fun b _ => hrel.pruned.ops b nofun⟩

section

variable {c : Context} {root : OpId}

theorem serialize_eq (hroot : c.graph.HasOp root) {t : LatencyTable} (ht : t.Built)
    (hin : ∀ j latency, t.get? j = some latency →
      ∃ i, j = some i ∧ c.graph.isAncestorOf root i = true) :
    ∃ c', serialize (some root) t c = .ok () c' ∧ c.graph.Relabels attrName c'.graph ∧
      ∀ j, mark c'.graph j =
        ((t.get? (some j)).map fun latency => some (.i32 latency)).or (mark c.graph j) := by
  -- an entry for no operation would have to lie in the module
  have hunowned : t.unowned = none := by
    cases hu : t.unowned with
    | none => rfl
    | some latency =>
      obtain ⟨i, hi, -⟩ := hin none latency hu
      cases hi
  have hentries : ∀ e ∈ t.entries, c.graph.isAncestorOf root e.1 = true ∧ c.graph.HasOp e.1 := by
    intro e he
    obtain ⟨latency, hlookup⟩ : ∃ latency, t.entries.lookup e.1 = some latency := by
      rw [← Option.isSome_iff_exists, List.lookup_isSome_iff]
      exact ⟨e, he, beq_self_eq_true _⟩
    obtain ⟨i, hi, hini⟩ := hin (some e.1) latency hlookup
    cases hi
    exact ⟨hini, (Graph.inside_of_isAncestorOf hini).hasOp hroot⟩
  obtain ⟨c', hrun, hrel, hmark⟩ := forM_serializeEntry ht.sorted hentries
  refine ⟨c', ?_, hrel, hmark⟩
  show (present t.ordered? >>= _) c = _
  rw [LatencyTable.ordered?, hunowned]
  exact hrun

/-- Reading back from a graph that differs from `g` in its latencies walks through the tree as `g`
has it. The table has the integers, and nothing is left for a second reading. -/
theorem deserialize_eq {g : Graph} (hwf : g.WellFormed) (honce : g.BlocksOnce)
    (hroot : g.HasOp root) (htree : g.FiniteTree root) (hrel : g.Relabels attrName c.graph) :
    ∃ t c', deserialize root c = .ok t c' ∧ g.Relabels attrName c'.graph ∧
      (∀ j latency, t.get? j = some latency ↔
        ∃ i, j = some i ∧ g.isAncestorOf root i = true ∧ ofMark (mark c.graph i) = some latency) ∧
      (∀ i, g.isAncestorOf root i = true → mark c'.graph i = none) ∧
      deserialize root c' = .ok {} c' := by
  -- a walk over a relabelled graph visits what the list of `g` has, in that order
  have hwalk : ∀ c : Context, g.Relabels attrName c.graph →
      deserialize root c = (g.postorder root).foldlM takeEntry {} c := by
    intro c hrel
    show walkTo takeEntry c.graph.ops.size {} root c = _
    rw [hrel.size]
    exact walkTo_eq_foldlM hwf honce prunes_takeEntry _ htree hrel.pruned nofun {}
  have hmem : ∀ i, i ∈ g.postorder root ↔ g.isAncestorOf root i = true := by
    intro i
    rw [Graph.mem_postorder_iff hwf hroot, Graph.isAncestorOf_iff hroot]
  have hnodup : (g.postorder root).Nodup := Graph.nodup_postorderTo hwf honce htree _
  obtain ⟨t, c', hrun, hrel', hmark, hnone, hget⟩ := foldlM_takeEntry hnodup {} c
  have hunmarked : ∀ i ∈ g.postorder root, mark c'.graph i = none := by
    intro i hi
    rw [hmark, if_pos hi]
  refine ⟨t, c', (hwalk c hrel).trans hrun, hrel.trans hrel', fun j latency => ?_,
    fun i hi => hunmarked i ((hmem i).mpr hi), ?_⟩
  · cases j with
    | none =>
      rw [hnone]
      simp [LatencyTable.get?]
    | some i =>
      rw [hget]
      by_cases hi : i ∈ g.postorder root <;> simp [hi, LatencyTable.get?, ← hmem]
  · -- in the second reading no operation of the walk has a latency left
    rw [hwalk c' (hrel.trans hrel')]
    exact foldlM_takeEntry_of_unmarked hunmarked {}

end

/-- `serialize` of a table of latencies of operations inside `root` succeeds, and `deserialize` then
gives a latency to exactly the operations that the table gives it to, and to those without an entry
that had it as an integer before. Then no operation inside `root` has a latency, all other
attributes are as before, and there is nothing more to read. -/
theorem deserialize_serialize {c : Context} (h : Reachable c) {root : OpId}
    (hroot : c.graph.HasOp root) (htree : c.graph.FiniteTree root) {t : LatencyTable} (ht : t.Built)
    (hin : ∀ j latency, t.get? j = some latency →
      ∃ i, j = some i ∧ c.graph.isAncestorOf root i = true) :
    ∃ c₁ t' c₂, serialize (some root) t c = .ok () c₁ ∧ deserialize root c₁ = .ok t' c₂ ∧
      (∀ j latency, t'.get? j = some latency ↔ t.get? j = some latency ∨
        t.get? j = none ∧ ∃ i ty, j = some i ∧ c.graph.isAncestorOf root i = true ∧
          (c.graph.op i).attrs.get? attrName = some (.integer latency ty)) ∧
      (∀ i, c.graph.isAncestorOf root i = true →
        (c₂.graph.op i).attrs.contains attrName = false) ∧
      (∀ i name, name ≠ attrName →
        (c₂.graph.op i).attrs.find? name = (c.graph.op i).attrs.find? name) ∧
      deserialize root c₂ = .ok {} c₂ := by
  obtain ⟨c₁, hrun₁, hrel₁, hmark₁⟩ := serialize_eq hroot ht hin
  obtain ⟨t', c₂, hrun₂, hrel₂, hget, hunmarked, hagain⟩ := deserialize_eq h.sound.graph
    (Graph.BlocksOnce.reachable h) hroot htree hrel₁
  refine ⟨c₁, t', c₂, hrun₁, hrun₂, fun j latency => ?_, fun i hi => ?_, hrel₂.others, hagain⟩
  · -- an operation gives up its entry, or without one what it had
    have hgiven : ∀ i, ofMark (mark c₁.graph i) = (t.get? (some i)).or (ofMark (mark c.graph i)) := by
      intro i
      rw [hmark₁]
      cases t.get? (some i) <;> rfl
    rw [hget]
    constructor
    · rintro ⟨i, rfl, hini, hi⟩
      rw [hgiven, Option.or_eq_some_iff, ofMark_eq_some_iff] at hi
      obtain hi | ⟨hnone, ty, hi⟩ := hi
      · exact Or.inl hi
      · exact Or.inr ⟨hnone, i, ty, rfl, hini, hi⟩
    · rintro (hj | ⟨hnone, i, ty, rfl, hini, hi⟩)
      · obtain ⟨i, rfl, hini⟩ := hin j latency hj
        exact ⟨i, rfl, hini, by rw [hgiven, hj]; rfl⟩
      · refine ⟨i, rfl, hini, ?_⟩
        rw [hgiven, hnone, Option.none_or, ofMark_eq_some_iff]
        exact ⟨ty, hi⟩
  · rw [AttrDict.contains, ← mark, hunmarked i hi]
    rfl

/-- A `func` with a loop, whose sum and constant have latencies already and whose yield has one that
is no integer. -/
def scheduled : List Request := wasteful ++ [
  .setAttr ⟨3⟩ attrName (some (.i32 1)),
  .setAttr ⟨4⟩ attrName (some (.i32 7)),
  .setAttr ⟨5⟩ attrName (some (.bool true))]

/-- Latencies of the loop of `scheduled`, beyond what fits into the type of the attribute, and of
the sum. -/
def longLatencies : LatencyTable :=
  (LatencyTable.insert {} (some ⟨3⟩) (-5)).insert (some ⟨1⟩) (2 ^ 40)

/-- In `scheduled` the loop keeps its long latency, the sum gets that of the table over its own, the
constant keeps its own, and the yield has none. -/
theorem scheduled_latencies_kept :
    Reachable (Request.run scheduled {}) ∧ (Request.run scheduled {}).graph.FiniteTree ⟨0⟩ ∧
      ∃ c₁ t' c₂, serialize (some ⟨0⟩) longLatencies (Request.run scheduled {}) = .ok () c₁ ∧
        deserialize ⟨0⟩ c₁ = .ok t' c₂ ∧ t'.get? (some ⟨1⟩) = some (2 ^ 40) ∧
        t'.get? (some ⟨3⟩) = some (-5) ∧ t'.get? (some ⟨4⟩) = some 7 ∧ t'.get? (some ⟨5⟩) = none := by
  have hreachable : Reachable (Request.run scheduled {}) :=
    (Reachable.fresh .collect 0).run (by decide +kernel)
  have hfits : (Request.run scheduled {}).graph.Fits 3 ⟨0⟩ := by decide +kernel
  have hin : ∀ j latency, longLatencies.get? j = some latency →
      ∃ i, j = some i ∧ (Request.run scheduled {}).graph.isAncestorOf ⟨0⟩ i = true := by
    intro j latency hj
    simp only [longLatencies, LatencyTable.get?_insert] at hj
    split at hj
    · next hloop => exact ⟨_, hloop, by decide +kernel⟩
    · split at hj
      · next hsum => exact ⟨_, hsum, by decide +kernel⟩
      · cases j <;> cases hj
  have hroot : (Request.run scheduled {}).graph.HasOp ⟨0⟩ := by decide +kernel
  obtain ⟨c₁, t', c₂, hrun₁, hrun₂, hget, -⟩ := deserialize_serialize hreachable hroot
    hfits.finiteTree (.insert (.insert .empty _ _) _ _) hin
  refine ⟨hreachable, hfits.finiteTree, c₁, t', c₂, hrun₁, hrun₂, ?_, ?_, ?_, ?_⟩
  · exact (hget _ _).mpr (Or.inl rfl)
  · exact (hget _ _).mpr (Or.inl rfl)
  · have hconstant : ofMark (mark (Request.run scheduled {}).graph ⟨4⟩) = some 7 := by
      decide +kernel
    obtain ⟨ty, hty⟩ := ofMark_eq_some_iff.mp hconstant
    exact (hget _ _).mpr (Or.inr ⟨rfl, ⟨4⟩, ty, rfl, by decide +kernel, hty⟩)
  · have hyield : ofMark (mark (Request.run scheduled {}).graph ⟨5⟩) = none := by decide +kernel
    rw [Option.eq_none_iff_forall_ne_some]
    intro latency hlatency
    rcases (hget _ _).mp hlatency with hentry | ⟨-, i, ty, hi, -, hattr⟩
    · cases hentry
    · cases hi
      rw [ofMark_eq_some_iff.mpr ⟨ty, hattr⟩] at hyield
      cases hyield

end Latency

end Multistage
