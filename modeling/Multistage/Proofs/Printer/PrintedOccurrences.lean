import Multistage.Proofs.Printer.PrintedCopies
import Multistage.Proofs.Text.Readings

/-!
# Occurrences in a text

In the text of a tree a name stands for one value only, and names are numbered without gaps: block
arguments and blocks in the order of the text, results phrase by phrase, those that an operation
reads before those that it defines (`Graph.NamesIdentify`). So results are numbered in the order of
the text where an operation with results reads none that the text has not shown before; for an
operation printed alone, whose operands are shown nowhere else, they are not.
-/

namespace Multistage

/-! ## Numbered lists -/

section

variable {α : Type} [DecidableEq α]

theorem nodup_eraseDups (l : List α) : l.eraseDups.Nodup := by
  -- on the length: the rest loses the copies of the head before it is looked at
  induction hn : l.length using Nat.strong_induction_on generalizing l with
  | _ n ih =>
    cases l with
    | nil => exact List.nodup_nil
    | cons a rest =>
      have hlt : (rest.filter fun b => !b == a).length < n := by
        subst hn
        exact Nat.lt_succ_of_le (List.length_filter_le _ _)
      rw [List.eraseDups_cons, List.nodup_cons]
      refine ⟨fun ha => ?_, ih _ hlt _ rfl⟩
      simpa using List.mem_filter.mp (List.mem_eraseDups.mp ha)

/-- The positions in a list `l` without repetitions are counted from zero without gaps. -/
theorem map_idxOf_eq_range {l : List α} (h : l.Nodup) :
    l.map l.idxOf = List.range l.length := by
  apply List.ext_getElem
  · simp
  · intro n hn _
    rw [List.getElem_map, List.getElem_range, h.idxOf_getElem]

/-- `texts` are numbered from zero without gaps, behind `stem`. -/
def Numbered (stem : String) (texts : List String) : Prop :=
  texts = (List.range texts.length).map fun n => stem ++ toString n

instance decidableNumbered (stem : String) (texts : List String) :
    Decidable (Numbered stem texts) :=
  inferInstanceAs (Decidable (_ = _))

theorem Numbered.of_idxOf {stem : String} {write : α → String} {l : List α} (hl : l.Nodup)
    (h : ∀ a ∈ l, write a = stem ++ toString (l.idxOf a)) : Numbered stem (l.map write) := by
  rw [Numbered, List.length_map, ← map_idxOf_eq_range hl, List.map_map]
  exact List.map_congr_left h

end

/-- No number begins like an argument. -/
theorem numbered_ne_argument (m n : Nat) : "%" ++ toString m ≠ "%arg" ++ toString n := by
  intro h
  have hchars := congrArg String.toList h
  rw [Nat.toString_eq_repr, String.toList_append, String.toList_append, Nat.toList_repr] at hchars
  -- the second character would be a digit and a letter
  have hmem : 'a' ∈ Nat.toDigits 10 m := by
    have htail := congrArg List.tail hchars
    rw [show Nat.toDigits 10 m = _ from htail]
    exact List.mem_cons_self
  exact absurd (Nat.isDigit_of_mem_toDigits (by decide) (by decide) hmem) (by decide)

namespace Graph

open Phrase

/-! ## What occurs in a text -/

section

variable {g : Graph} {α : Type}

/-- What the operations and blocks of a tree bring, down to depth `n`, in the order in which they
are printed. -/
def collectTo (g : Graph) (line : OpId → List α) (header : BlockId → List α) : Nat → OpId → List α
  | 0, _ => []
  | n + 1, i =>
    line i ++ (g.op i).regions.flatten.flatMap fun b =>
      header b ++ (g.block b).ops.flatMap (collectTo g line header n)

theorem appearancesTo_eq_collectTo (n : Nat) (i : OpId) : g.appearancesTo n i =
    g.collectTo (fun j => g.shownValues j ++ (g.op j).results) (fun b => (g.block b).args) n i := by
  induction n generalizing i with
  | zero => rfl
  | succ n ih => rw [appearancesTo, collectTo, funext ih]

theorem printedBlocksTo_eq_collectTo (n : Nat) (i : OpId) :
    g.printedBlocksTo n i = g.collectTo (fun _ => []) (fun b => [b]) n i := by
  induction n generalizing i with
  | zero => rfl
  | succ n ih => rw [printedBlocksTo, collectTo, funext ih]; rfl

theorem mem_collectTo_iff (hwf : g.WellFormed) {line : OpId → List α} {header : BlockId → List α}
    {n : Nat} {i : OpId} (hfits : g.Fits n i) {a : α} : a ∈ g.collectTo line header n i ↔
      ∃ j, g.Inside i j ∧ (a ∈ line j ∨ ∃ b, g.blockParent b = some j ∧ a ∈ header b) := by
  induction n generalizing i with
  | zero => exact hfits.elim
  | succ n ih =>
    have hchild : ∀ b ∈ (g.op i).regions.flatten, ∀ c ∈ (g.block b).ops, c ∈ g.children i :=
      fun b hb c hc => List.mem_flatMap.mpr ⟨b, hb, hc⟩
    rw [collectTo, List.mem_append, List.mem_flatMap]
    constructor
    · rintro (ha | ⟨b, hb, ha⟩)
      · exact ⟨i, .root, Or.inl ha⟩
      rcases List.mem_append.mp ha with ha | ha
      · exact ⟨i, .root, Or.inr ⟨b, (blockParent_eq_some_iff hwf.owned).mpr hb, ha⟩⟩
      · obtain ⟨c, hc, ha⟩ := List.mem_flatMap.mp ha
        obtain ⟨j, hj, hat⟩ := (ih (hfits c (hchild b hb c hc))).mp ha
        exact ⟨j, (inside_child hwf (hchild b hb c hc)).trans hj, hat⟩
    · rintro ⟨j, hj, ha⟩
      -- the operation itself, or one inside a child, which has a level less
      rcases hj.eq_or_child hwf with rfl | ⟨c, hc, hcj⟩
      · rcases ha with ha | ⟨b, hb, ha⟩
        · exact Or.inl ha
        · exact Or.inr ⟨b, (blockParent_eq_some_iff hwf.owned).mp hb, List.mem_append_left _ ha⟩
      · obtain ⟨b, hb, hcb⟩ := List.mem_flatMap.mp hc
        have hinner := (ih (hfits c hc)).mpr ⟨j, hcj, ha⟩
        exact Or.inr ⟨b, hb, List.mem_append_right _ (List.mem_flatMap.mpr ⟨c, hcb, hinner⟩)⟩

/-- What is read off a phrase: nothing off words, `line` off an operation and `header` off a
block. -/
structure ReadsOff (g : Graph) (read : Phrase → List α) (line : OpId → List α)
    (header : BlockId → List α) : Prop where
  words : ∀ text, read [.words text] = []
  op : ∀ i p, g.opPhrase i = some p → read p = line i
  block : ∀ b p, g.blockPhrase b = some p → read p = header b

namespace ReadsOff

variable {read : Phrase → List α} {line : OpId → List α} {header : BlockId → List α}
  (h : g.ReadsOff read line header)

include h

theorem body {inner : OpId → Option (List Phrase)} {within : OpId → List α}
    (hinner : ∀ c ps, inner c = some ps → ps.flatMap read = within c) (indent : Nat) (b : BlockId)
    (ps : List Phrase) (hps : g.bodyPhrases inner indent b = some ps) :
    ps.flatMap read = header b ++ (g.block b).ops.flatMap within := by
  obtain ⟨p, hp, hps⟩ := Option.bind_eq_some_iff.mp hps
  obtain ⟨ops, hops, hps⟩ := Option.bind_eq_some_iff.mp hps
  cases hps
  simp [h.words, h.block b p hp, flatMap_flatten_of_mapM hinner hops]

theorem region {inner : OpId → Option (List Phrase)} {within : OpId → List α}
    (hinner : ∀ c ps, inner c = some ps → ps.flatMap read = within c) (indent : Nat)
    (blocks : List BlockId) (ps : List Phrase)
    (hps : g.regionPhrases inner indent blocks = some ps) : ps.flatMap read =
      blocks.flatMap fun b => header b ++ (g.block b).ops.flatMap within := by
  unfold regionPhrases at hps
  split at hps
  · next hempty =>
    cases hps
    simp [h.words, List.isEmpty_iff.mp hempty]
  · obtain ⟨bodies, hbodies, hps⟩ := Option.bind_eq_some_iff.mp hps
    cases hps
    simp [h.words, flatMap_flatten_of_mapM (h.body hinner indent) hbodies]

/-- What `read` gives of the phrases of a tree is what its operations and blocks bring. -/
theorem phrasesTo (n indent : Nat) (i : OpId) (ps : List Phrase)
    (hps : g.phrasesTo n indent i = some ps) : ps.flatMap read = g.collectTo line header n i := by
  induction n generalizing indent i ps with
  | zero => cases hps
  | succ n ih =>
    obtain ⟨p, hp, hps⟩ := Option.bind_eq_some_iff.mp hps
    obtain ⟨regions, hregions, hps⟩ := Option.bind_eq_some_iff.mp hps
    cases hps
    have hinner := flatMap_flatten_of_mapM (h.region (ih (indent + 2)) indent) hregions
    simp [h.words, h.op i p hp, hinner, collectTo, flatMap_flatten]

end ReadsOff

/-! ## The phrases of a tree -/

/-- What holds of words, of every `opPhrase` and of every `blockPhrase` holds of all phrases. -/
theorem forall_phrasesTo {P : Phrase → Prop} (hwords : ∀ text, P [.words text])
    (hop : ∀ i p, g.opPhrase i = some p → P p) (hblock : ∀ b p, g.blockPhrase b = some p → P p)
    {n indent : Nat} {i : OpId} {ps : List Phrase} (hps : g.phrasesTo n indent i = some ps) :
    ∀ p ∈ ps, P p := by
  classical
  -- the phrases of which it does not hold are collected, and there are none
  have hbad : g.ReadsOff (fun p => if P p then [] else [p]) (fun _ => []) (fun _ => []) :=
    ⟨fun text => if_pos (hwords text), fun i p hp => if_pos (hop i p hp),
      fun b p hp => if_pos (hblock b p hp)⟩
  have hnone : ∀ m j, g.collectTo (fun _ => ([] : List Phrase)) (fun _ => []) m j = [] := by
    intro m
    induction m with
    | zero => exact fun _ => rfl
    | succ m ih => simp [collectTo, ih]
  have hempty := hbad.phrasesTo n indent i ps hps
  rw [hnone, List.flatMap_eq_nil_iff] at hempty
  intro p hp
  by_contra hnot
  simpa [hnot] using hempty p hp

/-! ## The order of the results -/

/-- The results that a phrase of `ps` with results reads stand on an earlier phrase. -/
def ReadsEarlier (g : Graph) (ps : List Phrase) : Prop :=
  ∀ n < ps.length, ∀ p ∈ ps[n]?, p.results ≠ [] →
    ∀ v ∈ p.operands, g.isArgument v = false → v ∈ Phrase.values (ps.take n).flatten

instance decidableReadsEarlier (g : Graph) (ps : List Phrase) : Decidable (g.ReadsEarlier ps) :=
  inferInstanceAs (Decidable (∀ n < ps.length, ∀ p ∈ ps[n]?, p.results ≠ [] →
    ∀ v ∈ p.operands, g.isArgument v = false → v ∈ Phrase.values (ps.take n).flatten))

theorem ReadsEarlier.of_append {before after : List Phrase}
    (h : g.ReadsEarlier (before ++ after)) : g.ReadsEarlier before := by
  intro n hn p hp
  have hearlier := h n (by rw [List.length_append]; omega) p
  rw [List.getElem?_append_left hn, List.take_append_of_le_length (Nat.le_of_lt hn)] at hearlier
  exact hearlier hp

/-- A phrase `p` shows and names what is new on it in the same order: only what it defines is new,
or it defines nothing. -/
theorem removeAll_values_eq {p : Phrase} (hp : Ordered g p) (seen : List ValueId)
    (hread : p.results ≠ [] → ∀ v ∈ p.operands, g.isArgument v = false → v ∈ seen) :
    (p.values.filter fun v => !g.isArgument v).removeAll seen =
      (p.named.filter fun v => !g.isArgument v).removeAll seen := by
  by_cases hresults : p.results = []
  · rw [hp.values, named, hresults, List.append_nil, List.nil_append]
  · have hold : (p.operands.filter fun v => !decide (v ∈ seen) && !g.isArgument v) = [] := by
      rw [List.filter_eq_nil_iff]
      intro v hv
      cases harg : g.isArgument v with
      | true => simp
      | false => simpa using hread hresults v hv harg
    simp [hp.values, named, List.removeAll, hold]

/-- Where `ps` reads nothing before it stands in the text, results are new in the order of the text.
-/
theorem eraseDups_values_eq {ps : List Phrase} (hordered : ∀ p ∈ ps, Ordered g p)
    (hearlier : g.ReadsEarlier ps) :
    ((Phrase.values ps.flatten).filter fun v => !g.isArgument v).eraseDups =
      ((ps.flatMap named).filter fun v => !g.isArgument v).eraseDups := by
  -- from the end: what is new on the last phrase is decided by all phrases before it
  induction ps using List.reverseRecOn with
  | nil => rfl
  | append_singleton before p ih =>
    have hbefore := ih (fun q hq => hordered q (List.mem_append_left _ hq)) hearlier.of_append
    have hmem : ∀ v, v ∈ (Phrase.values before.flatten).filter (fun v => !g.isArgument v) ↔
        v ∈ (before.flatMap named).filter fun v => !g.isArgument v := by
      intro v
      simp only [List.mem_filter, values_flatten, List.mem_flatMap, mem_named_iff]
    have hseen : ∀ l : List ValueId,
        l.removeAll ((before.flatMap named).filter fun v => !g.isArgument v) =
          l.removeAll ((Phrase.values before.flatten).filter fun v => !g.isArgument v) := by
      intro l
      apply List.filter_congr
      intro v _
      simp only [List.elem_eq_mem, hmem v]
    have hlast := hearlier before.length (by simp) p (by simp)
    rw [List.take_left] at hlast
    have hnew := removeAll_values_eq (hordered p (by simp))
      ((Phrase.values before.flatten).filter fun v => !g.isArgument v)
      fun hresults v hv harg => by simpa [harg] using hlast hresults v hv harg
    rw [values_flatten] at hbefore hnew hseen ⊢
    simp only [List.flatMap_append, List.flatMap_singleton, List.filter_append,
      List.eraseDups_append, hbefore, hseen, hnew]

/-! ## The order of a text -/

section

variable {root : OpId} {ps : List Phrase} (hps : g.phrases? root = some ps)

include hps

theorem flatMap_named_eq : ps.flatMap named = g.appearancesTo g.ops.size root := by
  rw [appearancesTo_eq_collectTo]
  refine ReadsOff.phrasesTo ⟨fun _ => rfl, fun i p hp => ?_, fun b p hp => ?_⟩ _ _ _ _ hps
  · have h := shows_opPhrase hp
    rw [named, h.operands, h.results, h.arguments, List.append_nil]
  · have h := shows_blockPhrase hp
    rw [named, h.operands, h.results, h.arguments, List.append_nil, List.nil_append]

theorem labels_flatten_eq : labels ps.flatten = g.printedBlocksTo g.ops.size root := by
  rw [printedBlocksTo_eq_collectTo, labels, List.filterMap_flatten, ← List.flatMap_def]
  exact ReadsOff.phrasesTo ⟨fun _ => rfl, fun i p hp => (shows_opPhrase hp).labels,
    fun b p hp => (shows_blockPhrase hp).labels⟩ _ _ _ _ hps

theorem ordered_of_mem (howned : g.Owned) : ∀ p ∈ ps, Ordered g p := by
  refine forall_phrasesTo ?_ ?_ ?_ hps
  · exact fun text => (shows_words text).ordered nofun
  · exact fun i p hp => (shows_opPhrase hp).ordered fun v => isArgument_of_mem_results howned
  · exact fun b p hp => (shows_blockPhrase hp).ordered nofun

theorem mem_values_iff {v : ValueId} :
    v ∈ Phrase.values ps.flatten ↔ v ∈ g.appearancesTo g.ops.size root := by
  rw [← flatMap_named_eq hps, values_flatten]
  simp only [List.mem_flatMap, mem_named_iff]

/-- Arguments are named in the order of the text. -/
theorem filter_isArgument_values (howned : g.Owned) :
    (Phrase.values ps.flatten).filter g.isArgument =
      (g.appearancesTo g.ops.size root).filter g.isArgument := by
  rw [← flatMap_named_eq hps, values_flatten, List.filter_flatMap, List.filter_flatMap]
  apply List.flatMap_congr
  intro p hp
  have h := ordered_of_mem hps howned p hp
  have hnone : p.results.filter g.isArgument = [] :=
    List.filter_eq_nil_iff.mpr fun v hv => by simp [h.results v hv]
  simp [h.values, named, hnone]

end

end

/-! ## Names -/

section

variable {g : Graph} {root : OpId}

theorem mem_naming {v : ValueId} (hv : v ∈ g.appearancesTo g.ops.size root) :
    if g.isArgument v then v ∈ (g.naming root).args else v ∈ (g.naming root).results := by
  split
  · next harg => exact List.mem_eraseDups.mpr (List.mem_filter.mpr ⟨hv, harg⟩)
  · next harg => exact List.mem_eraseDups.mpr (List.mem_filter.mpr ⟨hv, by simpa using harg⟩)

/-- No other value `w` has the name of a value `v` of the text. -/
theorem name_inj {v : ValueId} (hv : v ∈ g.appearancesTo g.ops.size root) (w : ValueId) :
    (g.naming root).name g v = (g.naming root).name g w ↔ v = w := by
  refine ⟨fun h => ?_, congrArg _⟩
  have hlisted := mem_naming hv
  unfold Naming.name at h
  -- a result and an argument never look alike, and two of one kind are told apart by their places
  split at h <;> split at h
  · rw [if_pos ‹_›] at hlisted
    exact (List.idxOf_inj hlisted).mp (Nat.repr_inj.mp ((String.append_right_inj _).mp h))
  · exact absurd h.symm (numbered_ne_argument _ _)
  · exact absurd h (numbered_ne_argument _ _)
  · rw [if_neg ‹_›] at hlisted
    exact (List.idxOf_inj hlisted).mp (Nat.repr_inj.mp ((String.append_right_inj _).mp h))

theorem numbered_args :
    Numbered "%arg" ((g.naming root).args.map ((g.naming root).name g)) := by
  apply Numbered.of_idxOf (nodup_eraseDups _)
  intro v hv
  have harg := (List.mem_filter.mp (List.mem_eraseDups.mp hv)).2
  exact if_pos harg

theorem numbered_results :
    Numbered "%" ((g.naming root).results.map ((g.naming root).name g)) := by
  apply Numbered.of_idxOf (nodup_eraseDups _)
  intro v hv
  have harg := (List.mem_filter.mp (List.mem_eraseDups.mp hv)).2
  exact if_neg (by simpa using harg)

theorem numbered_labels (hwf : g.WellFormed) (honce : g.BlocksOnce) (htree : g.FiniteTree root) :
    Numbered "^bb" ((g.naming root).blocks.map (g.naming root).label) :=
  Numbered.of_idxOf (nodup_printedBlocksTo hwf honce htree g.ops.size) fun _ _ => rfl

end

/-! ## Occurrences -/

/-- What stands in `p` is what the operations and blocks of the tree of `root` bring. -/
structure Occurrences (g : Graph) (root : OpId) (p : Phrase) : Prop where
  operand : ∀ v, .operand v ∈ p ↔ ∃ j, g.Inside root j ∧ v ∈ g.shownValues j
  result : ∀ v, .result v ∈ p ↔ ∃ j, g.Inside root j ∧ v ∈ (g.op j).results
  argument : ∀ v, .argument v ∈ p ↔ ∃ b, g.BlockInside root b ∧ v ∈ (g.block b).args
  label : ∀ b, .label b ∈ p ↔ g.BlockInside root b

section

variable {g : Graph} {root : OpId} {ps : List Phrase} (hps : g.phrases? root = some ps)
  (hwf : g.WellFormed) (hfits : g.Fits g.ops.size root)

include hps hwf hfits

theorem mem_flatten_iff {e : Fragment} (he : ∀ text, e ≠ .words text) : e ∈ ps.flatten ↔
    ∃ j, g.Inside root j ∧
      (((∃ v ∈ (g.op j).results, .result v = e) ∨ ∃ v ∈ g.shownValues j, .operand v = e) ∨
        ∃ b, g.blockParent b = some j ∧
          (.label b = e ∨ ∃ v ∈ (g.block b).args, .argument v = e)) := by
  -- reads off a phrase how often the fragment stands in it
  have hf : ∀ text, Option.guard (· = e) (.words text) = none := by
    intro text
    simpa using (he text).symm
  have hread := ReadsOff.phrasesTo ⟨fun text => List.filterMap_cons_none (hf text),
    fun i p hp => filterMap_opPhrase hf hp, fun b p hp => filterMap_blockPhrase hf hp⟩ _ _ _ _ hps
  have hmem : e ∈ ps.flatten ↔ e ∈ ps.flatMap (List.filterMap (Option.guard (· = e))) := by
    simp [List.mem_flatten, List.mem_flatMap]
  rw [hmem, hread, mem_collectTo_iff hwf hfits]
  simp [List.mem_filterMap]

theorem occurrences_flatten : g.Occurrences root ps.flatten := by
  constructor
  case operand =>
    intro v
    rw [mem_flatten_iff hps hwf hfits (by simp)]
    simp
  case result =>
    intro v
    rw [mem_flatten_iff hps hwf hfits (by simp)]
    simp
  case argument =>
    intro v
    rw [mem_flatten_iff hps hwf hfits (by simp)]
    simp only [reduceCtorEq, and_false, exists_false, false_or, Fragment.argument.injEq,
      exists_eq_right]
    constructor
    · rintro ⟨j, hj, b, hb, hv⟩
      exact ⟨b, ⟨j, hb, hj⟩, hv⟩
    · rintro ⟨b, ⟨j, hb, hj⟩, hv⟩
      exact ⟨j, hj, b, hb, hv⟩
  case label =>
    intro b
    rw [mem_flatten_iff hps hwf hfits (by simp)]
    simp [BlockInside, and_comm]

end

/-- The names of the text of `ps`: which occurrences share one, and how they are counted. -/
structure NamesIdentify (g : Graph) (names : Naming) (ps : List Phrase) : Prop where
  /-- Two occurrences have one name if they are of one value. -/
  same : ∀ e ∈ ps.flatten, ∀ f ∈ ps.flatten, ∀ v w, e.value? = some v → f.value? = some w →
    (e.write g names = f.write g names ↔ v = w)
  /-- Arguments are counted in the order of the text. -/
  args : Numbered "%arg"
    (((Phrase.values ps.flatten).filter g.isArgument).eraseDups.map (names.name g))
  /-- Results are counted phrase by phrase, those that a phrase reads before those it defines. -/
  results : Numbered "%"
    (((ps.flatMap named).filter fun v => !g.isArgument v).eraseDups.map (names.name g))
  /-- This is the order of the text where nothing is read before it stands there. -/
  resultsInOrder : g.ReadsEarlier ps → Numbered "%"
    (((Phrase.values ps.flatten).filter fun v => !g.isArgument v).eraseDups.map (names.name g))
  /-- Every block has one label, and labels are counted in the order of the text. -/
  labels : Numbered "^bb" ((Phrase.labels ps.flatten).map names.label)

theorem namesIdentify {g : Graph} {root : OpId} {ps : List Phrase}
    (hps : g.phrases? root = some ps) (hwf : g.WellFormed) (honce : g.BlocksOnce)
    (htree : g.FiniteTree root) : g.NamesIdentify (g.naming root) ps := by
  have hresults : Numbered "%" (((ps.flatMap named).filter fun v =>
      !g.isArgument v).eraseDups.map ((g.naming root).name g)) := by
    rw [flatMap_named_eq hps]
    exact numbered_results
  constructor
  case same =>
    intro e he f _ v w hv hw
    rw [Fragment.write_of_value? hv, Fragment.write_of_value? hw]
    exact name_inj ((mem_values_iff hps).mp (List.mem_filterMap.mpr ⟨e, he, hv⟩)) w
  case args =>
    rw [filter_isArgument_values hps hwf.owned]
    exact numbered_args
  case results => exact hresults
  case resultsInOrder =>
    intro hearlier
    rw [eraseDups_values_eq (ordered_of_mem hps hwf.owned) hearlier]
    exact hresults
  case labels =>
    rw [labels_flatten_eq hps]
    exact numbered_labels hwf honce htree

end Graph

/-- A tree that is `Filled` has a text, and in it a name stands for one value only
(`NamesIdentify`). Arguments and blocks are numbered in the order of the text. Results are so too
where `ReadsEarlier` holds, that is, an operation with results reads none that has not been shown
before; elsewhere those that it reads come first. -/
theorem print_names_identify {c : Context} {root : OpId} (h : Reachable c)
    (hroot : c.graph.HasOp root) (htree : c.graph.FiniteTree root) :
    ((c.graph.print? root).isSome ↔
      c.graph.Filled root ∧ ∀ j, c.graph.Inside root j → (c.graph.op j).SegmentsFit) ∧
    ∀ text, c.graph.print? root = some text → ∃ ps, c.graph.phrases? root = some ps ∧
      text = Phrase.written c.graph (c.graph.naming root) ps.flatten ∧
      c.graph.Occurrences root ps.flatten ∧
      c.graph.NamesIdentify (c.graph.naming root) ps := by
  have hwf := h.sound.graph
  have hfits := htree.fits hwf hroot
  have hblocks := Graph.nodup_printedBlocksTo hwf (.reachable h) htree c.graph.ops.size
  refine ⟨Graph.isSome_print?_iff hwf hfits hblocks, fun text htext => ?_⟩
  rw [Graph.print?_eq_map hblocks, Option.map_eq_some_iff] at htext
  obtain ⟨ps, hps, rfl⟩ := htext
  exact ⟨ps, hps, rfl, Graph.occurrences_flatten hps hwf hfits,
    Graph.namesIdentify hps hwf (.reachable h) htree⟩

/-- A `load` from an argument under a constant mask. -/
def guarded : List Request := [
  .createDetached { name := Kinds.func },
  .addBlock ⟨0⟩ 0,
  .addArgument ⟨0⟩ (some (.pointer (some Ty.f16))),
  .moveToEnd (some ⟨0⟩),
  .create { name := Kinds.constant, results := [some Ty.i1],
            attrs := .single "value" (some (.bool true)) },
  .create { name := Kinds.load, segments := [[some ⟨0⟩], [some ⟨1⟩]], results := [some Ty.f16] }]

theorem reachable_guarded : Reachable (Request.run guarded {}) :=
  (Reachable.fresh .collect 0).run (by decide +kernel)

theorem fits_guarded : (Request.run guarded {}).graph.Fits 2 ⟨0⟩ := by decide +kernel

/-- In the text of the `func` of `guarded` the mask is shown before the load reads it. -/
theorem guarded_function_named :
    Reachable (Request.run guarded {}) ∧ (Request.run guarded {}).graph.HasOp ⟨0⟩ ∧
      (Request.run guarded {}).graph.FiniteTree ⟨0⟩ ∧
      (Request.run guarded {}).graph.Filled ⟨0⟩ ∧
      ∃ ps, (Request.run guarded {}).graph.phrases? ⟨0⟩ = some ps ∧
        Phrase.written (Request.run guarded {}).graph
            ((Request.run guarded {}).graph.naming ⟨0⟩) ps.flatten =
          "tt.func() \x7b\n" ++
          "  ^bb0(%arg0: !tt.ptr<f16>):\n" ++
          "    %0 = arith.constant() \x7bvalue = true\x7d : i1\n" ++
          "    %1 = tt.load(ptr: %arg0, mask: %0) : f16\n" ++
          "\x7d\n" ∧
        (Request.run guarded {}).graph.ReadsEarlier ps ∧
        (Request.run guarded {}).graph.Occurrences ⟨0⟩ ps.flatten ∧
        (Request.run guarded {}).graph.NamesIdentify ((Request.run guarded {}).graph.naming ⟨0⟩)
          ps := by
  have hroot : (Request.run guarded {}).graph.HasOp ⟨0⟩ := by decide +kernel
  have hearlier : ∀ ps ∈ (Request.run guarded {}).graph.phrases? ⟨0⟩,
      (Request.run guarded {}).graph.ReadsEarlier ps := by decide +kernel
  obtain ⟨hwritten, hnamed⟩ := print_names_identify reachable_guarded hroot fits_guarded.finiteTree
  obtain ⟨ps, hps, htext, hoccurrences, hnames⟩ := hnamed
    ("tt.func() \x7b\n" ++
      "  ^bb0(%arg0: !tt.ptr<f16>):\n" ++
      "    %0 = arith.constant() \x7bvalue = true\x7d : i1\n" ++
      "    %1 = tt.load(ptr: %arg0, mask: %0) : f16\n" ++
      "\x7d\n") (by decide +kernel)
  exact ⟨reachable_guarded, hroot, fits_guarded.finiteTree, (hwritten.mp (by decide +kernel)).1, ps,
    hps, htext.symm, hearlier ps hps, hoccurrences, hnames⟩

/-- The load of `guarded` alone: its result stands first in the text and is numbered second. -/
theorem guarded_load_numbered_after_mask :
    Reachable (Request.run guarded {}) ∧ (Request.run guarded {}).graph.HasOp ⟨2⟩ ∧
      (Request.run guarded {}).graph.FiniteTree ⟨2⟩ ∧
      (Request.run guarded {}).graph.print? ⟨2⟩ =
        some "%1 = tt.load(ptr: %arg0, mask: %0) : f16\n" ∧
      ∃ ps ∈ (Request.run guarded {}).graph.phrases? ⟨2⟩,
        ¬ Numbered "%" (((Phrase.values ps.flatten).filter fun v =>
          !(Request.run guarded {}).graph.isArgument v).eraseDups.map
            (((Request.run guarded {}).graph.naming ⟨2⟩).name (Request.run guarded {}).graph)) := by
  have hfits : (Request.run guarded {}).graph.Fits 1 ⟨2⟩ := by decide +kernel
  exact ⟨reachable_guarded, by decide +kernel, hfits.finiteTree, by decide +kernel,
    by decide +kernel⟩

end Multistage
