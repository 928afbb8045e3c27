import Mathlib.Data.List.ReduceOption
import Multistage.Proofs.OptionLists
import Multistage.Proofs.Printer.PrintedPhrases
import Multistage.Proofs.Tree.TreeOrder

/-!
# Tables of names

While a tree is printed, the table of names holds what its first values and blocks are called in the
whole text (`NameTable.Tracks`): a new value gets the number of those of its kind before it, and what
comes later renames nothing (`Naming.name_of_prefix`). So every part of the printer writes what its
phrase says under the names of the tree (`Graph.Writes`), and the text is what all phrases say
(`Graph.print?_eq_map`), if no block is printed twice.
-/

namespace Multistage

/-! ## Names of the first values -/

namespace Naming

variable {g : Graph} {vs : List ValueId} {bs : List BlockId} {v : ValueId}

theorem name_ofLists_append (hv : v ∈ vs) (ws : List ValueId) (bs ds : List BlockId) :
    (ofLists g (vs ++ ws) ds).name g v = (ofLists g vs bs).name g v := by
  unfold name ofLists
  split <;> dsimp only <;> rw [List.filter_append, List.eraseDups_append, List.idxOf_append_of_mem]
  · exact List.mem_eraseDups.mpr (List.mem_filter.mpr ⟨hv, ‹_›⟩)
  · exact List.mem_eraseDups.mpr (List.mem_filter.mpr ⟨hv, by simp [*]⟩)

/-- The values of the beginning `vs` of `V` have the names that they have in the whole list. -/
theorem name_of_prefix {V : List ValueId} (h : vs <+: V) (hv : v ∈ vs) (bs B : List BlockId) :
    (ofLists g V B).name g v = (ofLists g vs bs).name g v := by
  obtain ⟨ws, rfl⟩ := h
  exact name_ofLists_append hv ws bs B

/-- One more value `v` is new in the list of its kind, or it is in the list already. -/
theorem eraseDups_filter_concat (p : ValueId → Bool) :
    ((vs ++ [v]).filter p).eraseDups =
      (vs.filter p).eraseDups ++ if p v = true ∧ v ∉ vs then [v] else [] := by
  rw [List.filter_append, List.eraseDups_append]
  congr 1
  cases hp : p v <;> by_cases hv : v ∈ vs <;>
    simp [hp, hv, List.removeAll, List.eraseDups_cons]

theorem ofLists_concat : ofLists g (vs ++ [v]) bs =
    { results := (ofLists g vs bs).results ++ if (!g.isArgument v) = true ∧ v ∉ vs then [v] else []
      args := (ofLists g vs bs).args ++ if g.isArgument v = true ∧ v ∉ vs then [v] else []
      blocks := bs } := by
  rw [ofLists, eraseDups_filter_concat, eraseDups_filter_concat]
  rfl

theorem idxOf_filter_concat {p : ValueId → Bool} (hp : p v = true) (hv : v ∉ vs) :
    ((vs ++ [v]).filter p).eraseDups.idxOf v = (vs.filter p).eraseDups.length := by
  rw [eraseDups_filter_concat, if_pos ⟨hp, hv⟩, List.idxOf_append_of_notMem]
  · simp
  · exact fun hmem => hv (List.mem_of_mem_filter (List.mem_eraseDups.mp hmem))

end Naming

/-! ## What a table holds -/

/-- The table after the values `vs` and the blocks `bs` have been printed. -/
structure NameTable.Tracks (g : Graph) (t : NameTable) (vs : List ValueId) (bs : List BlockId) :
    Prop where
  names : ∀ v, t.names.lookup v =
    if v ∈ vs then some ((Naming.ofLists g vs bs).name g v) else none
  results : t.nextResult = (Naming.ofLists g vs bs).results.length
  args : t.nextArg = (Naming.ofLists g vs bs).args.length
  blocks : t.nextBlock = bs.length

namespace NameTable.Tracks

variable {g : Graph} {t : NameTable} {vs : List ValueId} {bs : List BlockId}

theorem empty (g : Graph) : Tracks g {} [] [] := ⟨fun _ => rfl, rfl, rfl, rfl⟩

/-- `NameTable.name` calls a value that has no name yet by the number of those of its kind before
it. -/
theorem name (h : t.Tracks g vs bs) (v : ValueId) :
    (t.name g v).1 = (Naming.ofLists g (vs ++ [v]) bs).name g v ∧
      (t.name g v).2.Tracks g (vs ++ [v]) bs := by
  unfold NameTable.name
  rw [h.names v]
  by_cases hv : v ∈ vs
  · have hsame : Naming.ofLists g (vs ++ [v]) bs = Naming.ofLists g vs bs := by
      simp only [Naming.ofLists_concat, hv, not_true_eq_false, and_false, if_false, List.append_nil]
      rfl
    rw [if_pos hv]
    refine ⟨congrArg (Naming.name · g v) hsame.symm, fun w => ?_, ?_, ?_, h.blocks⟩ <;> rw [hsame]
    · have hmem : w ∈ vs ++ [v] ↔ w ∈ vs := by simp +contextual [or_iff_left_iff_imp, hv]
      simp only [hmem, h.names w]
    · exact h.results
    · exact h.args
  · rw [if_neg hv]
    -- the values before have kept their names
    have hlookup (name : String) (hname : name = (Naming.ofLists g (vs ++ [v]) bs).name g v)
        (w : ValueId) : ((v, name) :: t.names).lookup w = if w ∈ vs ++ [v] then
          some ((Naming.ofLists g (vs ++ [v]) bs).name g w) else none := by
      by_cases hw : w = v
      · simp [hw, hname]
      · rw [List.lookup_cons, beq_false_of_ne hw, h.names w]
        by_cases hwin : w ∈ vs
        · simp [hwin, Naming.name_ofLists_append hwin [v] bs bs]
        · simp [hwin, hw]
    dsimp only
    split
    · next harg =>
      have hname : "%arg" ++ toString t.nextArg = (Naming.ofLists g (vs ++ [v]) bs).name g v := by
        rw [Naming.name, if_pos harg, h.args]
        exact congrArg ("%arg" ++ toString ·) (Naming.idxOf_filter_concat harg hv).symm
      refine ⟨hname, hlookup _ hname, ?_, ?_, h.blocks⟩
      · simp [Naming.ofLists_concat, harg, h.results]
      · simp [Naming.ofLists_concat, harg, hv, h.args]
    · next harg =>
      have hresult : (!g.isArgument v) = true := by simp [harg]
      have hname : "%" ++ toString t.nextResult = (Naming.ofLists g (vs ++ [v]) bs).name g v := by
        rw [Naming.name, if_neg harg, h.results]
        exact congrArg ("%" ++ toString ·)
          (Naming.idxOf_filter_concat (p := fun v => !g.isArgument v) hresult hv).symm
      refine ⟨hname, hlookup _ hname, ?_, ?_, h.blocks⟩
      · simp [Naming.ofLists_concat, harg, hv, h.results]
      · simp [Naming.ofLists_concat, harg, h.args]

theorem label (h : t.Tracks g vs bs) (b : BlockId) : t.label.2.Tracks g vs (bs ++ [b]) where
  names := h.names
  results := h.results
  args := h.args
  blocks := by
    rw [List.length_append, ← h.blocks]
    rfl

end NameTable.Tracks

/-! ## What the printer writes -/

namespace Graph

open Phrase

/-- In a text that shows the values `V` and the blocks `B`, the computation gives `out`, if anything,
and shows `vs` and `bs`. -/
def Writes (g : Graph) (V : List ValueId) (B : List BlockId) {α : Type} (x : PrintM α)
    (out : Option α) (vs : List ValueId) (bs : List BlockId) : Prop :=
  ∀ t seen blocks, t.Tracks g seen blocks → seen ++ vs <+: V → blocks ++ bs <+: B →
    ∃ t', x t = out.map (·, t') ∧ (out.isSome → t'.Tracks g (seen ++ vs) (blocks ++ bs))

namespace Writes

variable {g : Graph} {V : List ValueId} {B : List BlockId} {α β : Type} {x : PrintM α}
  {out : Option α} {vs ws : List ValueId} {bs ds : List BlockId}

theorem of_eq {out' : Option α} {vs' : List ValueId} {bs' : List BlockId}
    (h : g.Writes V B x out vs bs) (hout : out = out') (hvs : vs = vs') (hbs : bs = bs') :
    g.Writes V B x out' vs' bs' := by
  subst hout hvs hbs
  exact h

theorem lift (out : Option α) : g.Writes V B (liftM out) out [] [] := by
  intro t seen blocks ht _ _
  refine ⟨t, by cases out <;> rfl, fun _ => ?_⟩
  rwa [List.append_nil, List.append_nil]

theorem pure (a : α) : g.Writes V B (pure a) (some a) [] [] := lift (some a)

theorem bind {f : α → PrintM β} {k : α → Option β} (h : g.Writes V B x out vs bs)
    (hk : ∀ a, out = some a → g.Writes V B (f a) (k a) ws ds) :
    g.Writes V B (x >>= f) (out >>= k) (vs ++ ws) (bs ++ ds) := by
  intro t seen blocks ht hV hB
  rw [← List.append_assoc] at hV hB
  obtain ⟨t₁, hx, ht₁⟩ := h t seen blocks ht ((List.prefix_append _ _).trans hV)
    ((List.prefix_append _ _).trans hB)
  have hrun : (x >>= f) t = (x t).bind fun p => f p.1 p.2 := rfl
  rw [hrun, hx]
  cases out with
  | none => exact ⟨t, rfl, fun h => nomatch h⟩
  | some a =>
    rw [← List.append_assoc, ← List.append_assoc]
    exact hk a rfl t₁ _ _ (ht₁ rfl) hV hB

theorem map (h : g.Writes V B x out vs bs) (k : α → β) :
    g.Writes V B (x >>= fun a => Pure.pure (k a)) (out.map k) vs bs := by
  have hboth := h.bind fun a _ => pure (g := g) (V := V) (B := B) (k a)
  rw [List.append_nil, List.append_nil] at hboth
  rw [Option.map_eq_bind]
  exact hboth

theorem mapM {l : List β} {f : β → PrintM α} {k : β → Option α} {vs : β → List ValueId}
    {bs : β → List BlockId} (h : ∀ a ∈ l, g.Writes V B (f a) (k a) (vs a) (bs a)) :
    g.Writes V B (l.mapM f) (l.mapM k) (l.flatMap vs) (l.flatMap bs) := by
  induction l with
  | nil => exact pure []
  | cons a rest ih =>
    rw [List.mapM_cons, List.mapM_cons, List.flatMap_cons, List.flatMap_cons]
    apply (h a List.mem_cons_self).bind
    intro b _
    have hrest := (ih fun c hc => h c (List.mem_cons_of_mem a hc)).map (b :: ·)
    rw [Option.map_eq_bind] at hrest
    exact hrest

/-- `mapM` of work that gives names, without labels and always. -/
theorem mapM_names {l : List β} {f : β → PrintM α} {k : β → α} {vs : β → List ValueId}
    (h : ∀ a ∈ l, g.Writes V B (f a) (some (k a)) (vs a) []) :
    g.Writes V B (l.mapM f) (some (l.map k)) (l.flatMap vs) [] := by
  have hnone : l.flatMap (fun _ => ([] : List BlockId)) = [] :=
    List.flatMap_eq_nil_iff.mpr fun _ _ => rfl
  have hall := mapM h
  rwa [mapM_eq_some_map fun _ _ => rfl, hnone] at hall

theorem printName (v : ValueId) :
    g.Writes V B (g.printName v) (some ((Naming.ofLists g V B).name g v)) [v] [] := by
  intro t seen blocks ht hV _
  obtain ⟨hname, hnext⟩ := ht.name v
  refine ⟨(t.name g v).2, ?_, fun _ => by rwa [List.append_nil]⟩
  rw [Naming.name_of_prefix hV (by simp) blocks B, ← hname]
  rfl

theorem label (hB : B.Nodup) (b : BlockId) :
    g.Writes V B (modifyGet NameTable.label) (some ((Naming.ofLists g V B).label b)) [] [b] := by
  intro t seen blocks ht _ hprefix
  refine ⟨t.label.2, ?_, fun _ => by rw [List.append_nil]; exact ht.label b⟩
  obtain ⟨rest, rfl⟩ := hprefix
  -- the block is not among those before it
  have hat : (blocks ++ [b] ++ rest).idxOf b = blocks.length := by
    have hnew : b ∉ blocks := by
      intro hmem
      rw [List.append_assoc, List.nodup_append] at hB
      exact hB.2.2 b hmem b List.mem_cons_self rfl
    rw [List.append_assoc, List.idxOf_append_of_notMem hnew]
    simp
  show some ("^bb" ++ toString t.nextBlock, t.label.2) =
    some ("^bb" ++ toString ((blocks ++ [b] ++ rest).idxOf b), t.label.2)
  rw [hat, ht.blocks]

end Writes

section

variable (g : Graph) (V : List ValueId) (B : List BlockId)

theorem writes_printOperand (s : SlotId) :
    g.Writes V B (g.printOperand s) (some ((g.operandFragment s).write g (.ofLists g V B)))
      (g.slot s).value.toList [] := by
  unfold printOperand operandFragment
  cases (g.slot s).value with
  | none => exact .pure _
  | some v => exact .printName v

theorem writes_mapM_printOperand (slots : List SlotId) :
    g.Writes V B (slots.mapM g.printOperand)
      (some ((slots.map fun s => [g.operandFragment s]).map (written g (.ofLists g V B))))
      (slots.filterMap fun s => (g.slot s).value) [] := by
  have h := Writes.mapM_names fun s (_ : s ∈ slots) => g.writes_printOperand V B s
  rw [← List.filterMap_eq_flatMap_toList] at h
  simpa [Function.comp_def] using h

theorem writes_printSegment (group : String × List SlotId) :
    g.Writes V B (g.printSegment group)
      (some ((g.segmentPhrase group).map (written g (.ofLists g V B))))
      (group.2.filterMap fun s => (g.slot s).value) [] := by
  obtain ⟨segment, slots⟩ := group
  -- no slot, one slot and several are written differently
  rcases slots with _ | ⟨s, _ | ⟨r, rest⟩⟩
  · exact .pure none
  · have h := (g.writes_printOperand V B s).map fun name => some (segment ++ ": " ++ name)
    simpa [segmentPhrase, printSegment, filterMap_cons_eq_append] using h
  · have h := (g.writes_mapM_printOperand V B (s :: r :: rest)).map fun names =>
      some (segment ++ ": [" ++ commaList names ++ "]")
    simpa [segmentPhrase, printSegment, String.append_assoc] using h

theorem writes_printOperands (shown : Shown) :
    g.Writes V B (g.printOperands shown)
      (some ("(" ++ commaList ((g.operandParts shown).map (written g (.ofLists g V B))) ++ ")"))
      (shown.slots.filterMap fun s => (g.slot s).value) [] := by
  cases shown with
  | flat slots =>
    exact (g.writes_mapM_printOperand V B slots).map fun names => "(" ++ commaList names ++ ")"
  | grouped groups =>
    have h := (Writes.mapM_names fun group (_ : group ∈ groups) =>
      g.writes_printSegment V B group).map fun parts => "(" ++ commaList parts.reduceOption ++ ")"
    rw [← List.filterMap_flatMap, Option.map_some, List.reduceOption, List.filterMap_map,
      Function.id_comp, ← List.map_filterMap] at h
    exact h

theorem writes_printHead (i : OpId) :
    g.Writes V B (g.printHead i) ((g.opPhrase i).map (written g (.ofLists g V B)))
      (g.shownValues i ++ (g.op i).results) [] := by
  have hresults := Writes.mapM_names fun v (_ : v ∈ (g.op i).results) =>
    Writes.printName (g := g) (V := V) (B := B) v
  rw [← List.map_eq_flatMap, List.map_id'] at hresults
  have hoperands (shown : Shown) (hshown : (g.op i).shown? = some shown) :=
    (g.writes_printOperands V B shown).of_eq rfl (shownValues_eq hshown).symm rfl
  refine .of_eq ((Writes.lift _).bind fun shown hshown => (hoperands shown hshown).bind
    fun operands _ => hresults.bind fun results _ => (Writes.lift _).bind fun attrs _ =>
      (Writes.lift _).map _) ?_ (by simp) rfl
  unfold opPhrase
  dsimp only
  -- both fail at the same piece, if they do
  cases (g.op i).shown? with
  | none => rfl
  | some shown =>
    cases attrsText (g.op i).attrs with
    | none => rfl
    | some attrs =>
      cases (g.op i).results.mapM g.typeText with
      | none => rfl
      | some types =>
        simp only [Option.bind_eq_bind, Option.bind_some, Option.map_some]
        split <;> simp [String.append_assoc, Function.comp_def]

theorem writes_printBlockHead (hB : B.Nodup) (b : BlockId) :
    g.Writes V B (g.printBlockHead b) ((g.blockPhrase b).map (written g (.ofLists g V B)))
      (g.block b).args [b] := by
  have hargs := Writes.mapM fun v (_ : v ∈ (g.block b).args) =>
    (Writes.printName (g := g) (V := V) (B := B) v).bind fun name _ =>
      (Writes.lift (g.typeText v)).map fun type => name ++ ": " ++ type
  refine .of_eq ((Writes.label hB b).bind fun label _ => hargs.map _) ?_ (by simp) (by simp)
  -- argument by argument, as each has a type that may have no text
  have hparts : ((g.block b).args.mapM fun v =>
        some ((Naming.ofLists g V B).name g v) >>= fun name =>
          (g.typeText v).map fun type => name ++ ": " ++ type) =
      ((g.block b).args.mapM fun v => do
        let type ← g.typeText v
        some [Fragment.argument v, .words (": " ++ type)]).map
          (List.map (written g (.ofLists g V B))) := by
    apply mapM_eq_map
    intro v _
    cases g.typeText v with
    | none => rfl
    | some type => simp [String.append_assoc]
  rw [hparts, blockPhrase]
  cases (g.block b).args.mapM fun v => do
      let type ← g.typeText v
      some [Fragment.argument v, .words (": " ++ type)] with
  | none => rfl
  | some parts =>
    simp only [Option.bind_eq_bind, Option.bind_some, Option.map_some]
    split <;> simp [String.append_assoc]

section

variable (hB : B.Nodup) {inner : OpId → PrintM String} {phrases : OpId → Option (List Phrase)}
  {values : OpId → List ValueId} {blocks : OpId → List BlockId}
  (hinner : ∀ c, g.Writes V B (inner c)
    ((phrases c).map fun ps => written g (.ofLists g V B) ps.flatten) (values c) (blocks c))

include hB hinner

theorem writes_printBody (indent : Nat) (b : BlockId) :
    g.Writes V B (g.printBody inner indent b)
      ((g.bodyPhrases phrases indent b).map fun ps => written g (.ofLists g V B) ps.flatten)
      ((g.block b).args ++ (g.block b).ops.flatMap values)
      (b :: (g.block b).ops.flatMap blocks) := by
  refine .of_eq ((g.writes_printBlockHead V B hB b).bind fun header _ =>
    (Writes.mapM fun c _ => hinner c).map _) ?_ rfl rfl
  rw [mapM_eq_map fun _ _ => rfl, bodyPhrases]
  cases g.blockPhrase b with
  | none => rfl
  | some header =>
    cases (g.block b).ops.mapM phrases with
    | none => rfl
    | some ops => simp [written_flatten_flatten, String.append_assoc]

theorem writes_printRegion (indent : Nat) (bs : List BlockId) :
    g.Writes V B (g.printRegion inner indent bs)
      ((g.regionPhrases phrases indent bs).map fun ps => written g (.ofLists g V B) ps.flatten)
      (bs.flatMap fun b => (g.block b).args ++ (g.block b).ops.flatMap values)
      (bs.flatMap fun b => b :: (g.block b).ops.flatMap blocks) := by
  unfold printRegion regionPhrases
  split
  · next hempty =>
    rw [List.isEmpty_iff.mp hempty]
    exact .of_eq (.pure _) (by simp) rfl rfl
  · refine .of_eq ((Writes.mapM fun b _ => g.writes_printBody V B hB hinner indent b).map _) ?_ rfl
      rfl
    rw [mapM_eq_map fun _ _ => rfl]
    cases bs.mapM (g.bodyPhrases phrases indent) with
    | none => rfl
    | some bodies => simp [written_flatten_flatten, String.append_assoc]

end

theorem writes_printTo (hB : B.Nodup) (n indent : Nat) (i : OpId) :
    g.Writes V B (g.printTo n indent i)
      ((g.phrasesTo n indent i).map fun ps => written g (.ofLists g V B) ps.flatten)
      (g.appearancesTo n i) (g.printedBlocksTo n i) := by
  induction n generalizing indent i with
  | zero => exact fun t seen blocks ht hV hB => ⟨t, rfl, fun h => nomatch h⟩
  | succ n ih =>
    -- the operations of a block are two levels further in
    refine .of_eq ((g.writes_printHead V B i).bind fun head _ =>
      (Writes.mapM fun bs _ => g.writes_printRegion V B hB (ih (indent + 2)) indent bs).map _) ?_
      ?_ ?_
    · rw [mapM_eq_map fun _ _ => rfl, phrasesTo]
      cases g.opPhrase i with
      | none => rfl
      | some head =>
        cases (g.op i).regions.mapM (g.regionPhrases (g.phrasesTo n (indent + 2)) indent) with
        | none => rfl
        | some regions => simp [written_flatten_flatten, String.append_assoc]
    · rw [appearancesTo, flatMap_flatten]
    · rw [printedBlocksTo, flatMap_flatten]
      rfl

/-- `print?` is what the phrases of `phrases?` say under the names of the tree. -/
theorem print?_eq_map {g : Graph} {root : OpId}
    (hblocks : (g.printedBlocksTo g.ops.size root).Nodup) : g.print? root =
      (g.phrases? root).map fun ps => written g (g.naming root) ps.flatten := by
  obtain ⟨t, hrun, -⟩ := g.writes_printTo _ _ hblocks g.ops.size 0 root {} [] [] (.empty g)
    (List.prefix_refl _) (List.prefix_refl _)
  show (g.printTo g.ops.size 0 root {}).map Prod.fst = _
  rw [hrun, Option.map_map]
  exact Option.map_id'

end

/-! ## Printed blocks -/

section

variable {g : Graph} {root : OpId}

/-- `printedBlocksTo` has the blocks among the parts of the tree. -/
theorem perm_printedBlocksTo (n : Nat) (i : OpId) :
    (g.printedBlocksTo n i).Perm ((g.partsTo n i).filterMap Part.block?) := by
  induction n generalizing i with
  | zero => exact .nil
  | succ n ih =>
    -- the text enters a block before it comes to the next one, the parts list all blocks first
    have hblocks : ((g.op i).regions.flatten.map Part.block).filterMap Part.block? =
        (g.op i).regions.flatten.flatMap fun b => [b] := by
      rw [List.filterMap_map, ← List.map_eq_flatMap]
      exact congrFun List.filterMap_eq_map _
    have hinner : (((g.children i).flatMap fun c => g.partsTo n c ++ [.placed c]).filterMap
        Part.block?).Perm ((g.op i).regions.flatten.flatMap fun b =>
          (g.block b).ops.flatMap (g.printedBlocksTo n)) := by
      rw [List.filterMap_flatMap, ← List.flatMap_assoc]
      apply List.Perm.flatMap_left
      intro c _
      rw [List.filterMap_append, List.filterMap_cons_none rfl, List.filterMap_nil, List.append_nil]
      exact (ih c).symm
    have hparts := (perm_partsTo_succ (g := g) n i).filterMap Part.block?
    rw [List.filterMap_cons_none rfl, List.filterMap_append, hblocks] at hparts
    exact ((List.flatMap_append_perm _ _ _).symm.trans (hinner.symm.append_left _)).trans
      hparts.symm

theorem nodup_printedBlocksTo (hwf : g.WellFormed) (honce : g.BlocksOnce)
    (htree : g.FiniteTree root) (n : Nat) : (g.printedBlocksTo n root).Nodup := by
  rw [(perm_printedBlocksTo n root).nodup_iff]
  exact (nodup_partsTo hwf honce htree n).filterMap Part.block?_inj

end

end Graph

end Multistage
