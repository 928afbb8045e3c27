import Mathlib.Data.List.Basic
import Multistage.Graph.Printer

/-!
# Phrases of a text

The text of a tree is a row of fragments: words that stand as they are, and the names of values and
the labels of blocks. So it can be said of an occurrence in the text which value it is of, whatever
the names are. The fragments come in phrases, where an operation without its regions is one phrase
and the header of a block another (`Graph.phrases?`). A `Naming` says what the values and blocks of
a whole tree are called (`Graph.naming`), and `Phrase.written` what a phrase says under these names.

In the text an operation shows the values that it defines before those that it reads. They get their
names the other way round (`Phrase.values`, `Phrase.named`).
-/

namespace Multistage

/-! ## Names -/

/-- The values and blocks of a printed tree, each once, in the order of first appearance. -/
structure Naming where
  results : List ValueId
  args : List ValueId
  blocks : List BlockId

namespace Naming

/-- The names for values that appear as in `vs` and blocks that are printed as in `bs`. -/
def ofLists (g : Graph) (vs : List ValueId) (bs : List BlockId) : Naming where
  results := (vs.filter fun v => !g.isArgument v).eraseDups
  args := (vs.filter g.isArgument).eraseDups
  blocks := bs

/-- The name of the value `v`. -/
def name (names : Naming) (g : Graph) (v : ValueId) : String :=
  if g.isArgument v then "%arg" ++ toString (names.args.idxOf v)
  else "%" ++ toString (names.results.idxOf v)

/-- The label of the block `b`. -/
def label (names : Naming) (b : BlockId) : String :=
  "^bb" ++ toString (names.blocks.idxOf b)

end Naming

namespace Graph

/-- The values that the operands of operation `i` show. -/
def shownValues (g : Graph) (i : OpId) : List ValueId :=
  match (g.op i).shown? with
  | none => []
  | some shown => shown.slots.filterMap fun s => (g.slot s).value

theorem shownValues_eq {g : Graph} {i : OpId} {shown : Shown} (h : (g.op i).shown? = some shown) :
    g.shownValues i = shown.slots.filterMap fun s => (g.slot s).value := by
  rw [shownValues, h]

/-- The values of a tree down to depth `n`, as often as they appear, in naming order. -/
def appearancesTo (g : Graph) : Nat → OpId → List ValueId
  | 0, _ => []
  | n + 1, i =>
    g.shownValues i ++ (g.op i).results ++
      (g.op i).regions.flatten.flatMap fun b =>
        (g.block b).args ++ (g.block b).ops.flatMap (appearancesTo g n)

/-- The blocks of a tree down to depth `n`, in the order in which they are printed. -/
def printedBlocksTo (g : Graph) : Nat → OpId → List BlockId
  | 0, _ => []
  | n + 1, i =>
    (g.op i).regions.flatten.flatMap fun b =>
      b :: (g.block b).ops.flatMap (printedBlocksTo g n)

/-- The names for the tree of operation `i`. -/
def naming (g : Graph) (i : OpId) : Naming :=
  .ofLists g (g.appearancesTo g.ops.size i) (g.printedBlocksTo g.ops.size i)

end Graph

/-! ## Fragments -/

/-- A piece of a text: `words` as they stand, or what something is called. -/
inductive Fragment where
  | words (text : String)
  /-- A value that an operation reads. -/
  | operand (v : ValueId)
  /-- A value that an operation defines. -/
  | result (v : ValueId)
  /-- A value that a block takes. -/
  | argument (v : ValueId)
  | label (b : BlockId)
  deriving DecidableEq

namespace Fragment

/-- The value of an `operand`. -/
def operand? : Fragment → Option ValueId
  | operand v => some v
  | _ => none

/-- The value of a `result`. -/
def result? : Fragment → Option ValueId
  | result v => some v
  | _ => none

/-- The value of an `argument`. -/
def argument? : Fragment → Option ValueId
  | argument v => some v
  | _ => none

/-- The block of a `label`. -/
def label? : Fragment → Option BlockId
  | label b => some b
  | _ => none

/-- The value that the fragment is an occurrence of. -/
def value? : Fragment → Option ValueId
  | operand v | result v | argument v => some v
  | words _ | label _ => none

/-- What stands in the text for the fragment, under `names`. -/
def write (g : Graph) (names : Naming) : Fragment → String
  | words text => text
  | operand v | result v | argument v => names.name g v
  | label b => names.label b

section

variable {g : Graph} {names : Naming}

@[simp] theorem write_words (text : String) : (words text).write g names = text := rfl

@[simp] theorem write_result (v : ValueId) : (result v).write g names = names.name g v := rfl

@[simp] theorem write_argument (v : ValueId) : (argument v).write g names = names.name g v := rfl

@[simp] theorem write_label (b : BlockId) : (label b).write g names = names.label b := rfl

theorem write_of_value? {e : Fragment} {v : ValueId} (h : e.value? = some v) :
    e.write g names = names.name g v := by
  cases e <;> cases h <;> rfl

end

end Fragment

/-- Fragments that belong together. -/
abbrev Phrase := List Fragment

namespace Phrase

/-- The values that `p` reads. -/
def operands (p : Phrase) : List ValueId := p.filterMap Fragment.operand?

/-- The values that `p` defines. -/
def results (p : Phrase) : List ValueId := p.filterMap Fragment.result?

/-- The values that the blocks of `p` take. -/
def arguments (p : Phrase) : List ValueId := p.filterMap Fragment.argument?

/-- The blocks that `p` labels. -/
def labels (p : Phrase) : List BlockId := p.filterMap Fragment.label?

/-- The values of `p` in the order of the text. -/
def values (p : Phrase) : List ValueId := p.filterMap Fragment.value?

/-- The values of `p` in the order in which they get their names: what is read, what is defined, and
what a block takes. -/
def named (p : Phrase) : List ValueId := p.operands ++ p.results ++ p.arguments

/-- The text of the fragments of `p`, under `names`. -/
def written (g : Graph) (names : Naming) (p : Phrase) : String :=
  String.join (p.map (Fragment.write g names))

/-- The fragments of `parts` with commas between them. -/
def commas (parts : List Phrase) : Phrase := List.intercalate [.words ", "] parts

section

variable {g : Graph} {names : Naming}

@[simp] theorem written_nil : written g names [] = "" := by simp [written]

@[simp] theorem written_cons (e : Fragment) (p : Phrase) :
    written g names (e :: p) = e.write g names ++ written g names p := by
  simp [written]

@[simp] theorem written_append (p q : Phrase) :
    written g names (p ++ q) = written g names p ++ written g names q := by
  simp [written]

theorem written_flatten_flatten (pss : List (List Phrase)) :
    written g names pss.flatten.flatten =
      String.join (pss.map fun ps => written g names ps.flatten) := by
  induction pss with
  | nil => simp
  | cons ps rest ih => simp [ih]

@[simp] theorem written_commas (parts : List Phrase) :
    written g names (commas parts) = commaList (parts.map (written g names)) := by
  unfold commas commaList
  induction parts with
  | nil => simp
  | cons p rest ih =>
    cases rest with
    | nil => simp
    | cons q rest =>
      rw [List.intercalate_cons_cons, written_append, written_append, ih]
      simp

end

/-- `commas` are words. -/
theorem filterMap_commas {α : Type} {f : Fragment → Option α} (hf : ∀ text, f (.words text) = none)
    (parts : List Phrase) : (commas parts).filterMap f = parts.flatMap (List.filterMap f) := by
  unfold commas
  induction parts with
  | nil => rfl
  | cons p rest ih =>
    cases rest with
    | nil => simp
    | cons q rest =>
      rw [List.intercalate_cons_cons, List.filterMap_append, List.filterMap_append, ih]
      simp [hf]

theorem filterMap_cons_eq_append {β γ : Type} (k : β → Option γ) (a : β) (l : List β) :
    (a :: l).filterMap k = (k a).toList ++ l.filterMap k := by
  cases h : k a <;> simp [h]

/-- Lists of one fragment each, put together. -/
theorem flatMap_singletons {α β : Type} (f : Fragment → Option α) (k : β → Fragment) (l : List β) :
    (l.map fun a => [k a]).flatMap (List.filterMap f) = (l.map k).filterMap f := by
  rw [List.flatMap_def, ← List.filterMap_flatten, ← List.flatMap_def, ← List.map_eq_flatMap]

theorem values_flatten (ps : List Phrase) : values ps.flatten = ps.flatMap values := by
  rw [values, List.filterMap_flatten, ← List.flatMap_def]
  rfl

theorem mem_named_iff {p : Phrase} {v : ValueId} : v ∈ p.named ↔ v ∈ p.values := by
  simp only [named, operands, results, arguments, values, List.mem_append, List.mem_filterMap]
  constructor
  · rintro ((⟨e, he, h⟩ | ⟨e, he, h⟩) | ⟨e, he, h⟩) <;> refine ⟨e, he, ?_⟩ <;>
      cases e <;> cases h <;> rfl
  · -- every kind of fragment that has a value is in one of the three lists
    rintro ⟨e, he, h⟩
    cases e with
    | words _ => cases h
    | label _ => cases h
    | operand _ => exact Or.inl (Or.inl ⟨_, he, h⟩)
    | result _ => exact Or.inl (Or.inr ⟨_, he, h⟩)
    | argument _ => exact Or.inr ⟨_, he, h⟩

/-- What `p` shows: the values that are `defined`, then those that are `read` and those that a block
has `taken`, and the `marks` of blocks. -/
structure Shows (p : Phrase) (defined read taken : List ValueId) (marks : List BlockId) : Prop where
  results : p.results = defined
  operands : p.operands = read
  arguments : p.arguments = taken
  labels : p.labels = marks
  values : p.values = defined ++ read ++ taken

/-- `Shows` is settled by what can be read off `p`, whatever `f` reads. -/
theorem Shows.of_filterMap {p : Phrase} {defined read taken : List ValueId} {marks : List BlockId}
    (h : ∀ (α : Type) (f : Fragment → Option α), (∀ text, f (.words text) = none) →
      p.filterMap f = (marks.filterMap fun b => f (.label b)) ++
        (defined.filterMap fun v => f (.result v)) ++
        (read.filterMap fun v => f (.operand v)) ++ taken.filterMap fun v => f (.argument v)) :
    Shows p defined read taken marks := by
  constructor
  case results =>
    exact (h _ Fragment.result? fun _ => rfl).trans (by simp [Fragment.result?])
  case operands =>
    exact (h _ Fragment.operand? fun _ => rfl).trans (by simp [Fragment.operand?])
  case arguments =>
    exact (h _ Fragment.argument? fun _ => rfl).trans (by simp [Fragment.argument?])
  case labels =>
    exact (h _ Fragment.label? fun _ => rfl).trans (by simp [Fragment.label?])
  case values =>
    exact (h _ Fragment.value? fun _ => rfl).trans (by simp [Fragment.value?])

theorem shows_words (text : String) : Shows [.words text] [] [] [] [] :=
  ⟨rfl, rfl, rfl, rfl, rfl⟩

/-- `p` shows what is defined before what is read, and what is defined is no argument. -/
structure Ordered (g : Graph) (p : Phrase) : Prop where
  values : p.values = p.results ++ p.operands ++ p.arguments
  results : ∀ v ∈ p.results, g.isArgument v = false

theorem Shows.ordered {g : Graph} {p : Phrase} {defined read taken : List ValueId}
    {marks : List BlockId} (h : Shows p defined read taken marks)
    (hdefined : ∀ v ∈ defined, g.isArgument v = false) : Ordered g p := by
  obtain ⟨rfl, rfl, rfl, rfl, hvalues⟩ := h
  exact ⟨hvalues, hdefined⟩

end Phrase

namespace Graph

open Phrase

/-! ## Phrases -/

/-- The fragment of the operand in slot `s`. -/
def operandFragment (g : Graph) (s : SlotId) : Fragment :=
  match (g.slot s).value with
  | some v => .operand v
  | none => .words "<<null>>"

/-- The operands of a segment under its name, if there are any. -/
def segmentPhrase (g : Graph) : String × List SlotId → Option Phrase
  | (_, []) => none
  | (segment, [s]) => some [.words (segment ++ ": "), g.operandFragment s]
  | (segment, slots) =>
    some ([.words (segment ++ ": [")] ++ commas (slots.map fun s => [g.operandFragment s]) ++
      [.words "]"])

/-- What stands between the commas of the operands. -/
def operandParts (g : Graph) : Shown → List Phrase
  | .flat slots => slots.map fun s => [g.operandFragment s]
  | .grouped groups => groups.filterMap g.segmentPhrase

/-- Operation `i` without indentation and without its regions. -/
def opPhrase (g : Graph) (i : OpId) : Option Phrase := do
  let o := g.op i
  let shown ← o.shown?
  let attrs ← attrsText o.attrs
  let types ← o.results.mapM g.typeText
  let core := [.words (o.name ++ "(")] ++ commas (g.operandParts shown) ++ [.words (")" ++ attrs)]
  some (if o.results.isEmpty then core
    else commas (o.results.map fun v => [.result v]) ++ [.words " = "] ++ core ++
      [.words (" : " ++ commaList types)])

/-- The header of block `b`, without indentation. -/
def blockPhrase (g : Graph) (b : BlockId) : Option Phrase := do
  let args := (g.block b).args
  let parts ← args.mapM fun v => do
    let type ← g.typeText v
    some [.argument v, .words (": " ++ type)]
  some ([.label b] ++ (if args.isEmpty then [] else [.words "("] ++ commas parts ++ [.words ")"]) ++
    [.words ":\n"])

/-- A block at a level of indentation, with what `inner` gives for its operations. -/
def bodyPhrases (g : Graph) (inner : OpId → Option (List Phrase)) (indent : Nat) (b : BlockId) :
    Option (List Phrase) := do
  let header ← g.blockPhrase b
  let ops ← (g.block b).ops.mapM inner
  some ([[.words (pad (indent + 1))], header] ++ ops.flatten)

/-- A region with these `blocks` at a level of indentation, where `inner` gives the phrases of the
operations in it. -/
def regionPhrases (g : Graph) (inner : OpId → Option (List Phrase)) (indent : Nat)
    (blocks : List BlockId) : Option (List Phrase) :=
  if blocks.isEmpty then some [[.words " \x7b\x7d"]]
  else do
    let bodies ← blocks.mapM (g.bodyPhrases inner indent)
    some ([[.words " \x7b\n"]] ++ bodies.flatten ++ [[.words (pad indent ++ "\x7d")]])

/-- The phrases of an operation at a level of indentation, down to depth `n`. -/
def phrasesTo (g : Graph) : Nat → Nat → OpId → Option (List Phrase)
  | 0, _, _ => none
  | n + 1, indent, i => do
    let head ← g.opPhrase i
    let regions ← (g.op i).regions.mapM (g.regionPhrases (phrasesTo g n (indent + 2)) indent)
    some ([[.words (pad indent)], head] ++ regions.flatten ++ [[.words "\n"]])

/-- The phrases of `root` and all that lies inside it. -/
def phrases? (g : Graph) (root : OpId) : Option (List Phrase) := g.phrasesTo g.ops.size 0 root

/-! ## What a phrase shows -/

section

variable {g : Graph}

section

variable {α : Type} {f : Fragment → Option α} (hf : ∀ text, f (.words text) = none)

include hf

theorem filterMap_operandFragment (slots : List SlotId) :
    (slots.map g.operandFragment).filterMap f =
      (slots.filterMap fun s => (g.slot s).value).filterMap fun v => f (.operand v) := by
  rw [List.filterMap_map, List.filterMap_filterMap]
  apply List.filterMap_congr
  intro s _
  rw [Function.comp_apply, operandFragment]
  cases (g.slot s).value with
  | none => exact hf _
  | some v => rfl

theorem filterMap_operandParts (shown : Shown) :
    (g.operandParts shown).flatMap (List.filterMap f) =
      (shown.slots.filterMap fun s => (g.slot s).value).filterMap fun v => f (.operand v) := by
  rw [← filterMap_operandFragment hf]
  cases shown with
  | flat slots => exact flatMap_singletons f g.operandFragment slots
  | grouped groups =>
    show List.flatMap _ (List.filterMap _ groups) =
      List.filterMap f (List.map _ (List.flatMap _ groups))
    induction groups with
    | nil => rfl
    | cons group rest ih =>
      obtain ⟨segment, slots⟩ := group
      rw [List.flatMap_cons, List.map_append, List.filterMap_append, ← ih]
      -- brackets and the names of segments are words
      rcases slots with _ | ⟨s, _ | ⟨t, others⟩⟩
      · rfl
      · simp [segmentPhrase, hf]
      · simp [segmentPhrase, filterMap_cons_eq_append, hf, filterMap_commas hf, flatMap_singletons]

theorem filterMap_opPhrase {i : OpId} {p : Phrase} (h : g.opPhrase i = some p) :
    p.filterMap f = ((g.op i).results.filterMap fun v => f (.result v)) ++
        (g.shownValues i).filterMap fun v => f (.operand v) := by
  obtain ⟨shown, hshown, h⟩ := Option.bind_eq_some_iff.mp h
  obtain ⟨attrs, -, h⟩ := Option.bind_eq_some_iff.mp h
  obtain ⟨types, -, h⟩ := Option.bind_eq_some_iff.mp h
  rw [shownValues_eq hshown, ← filterMap_operandParts hf]
  cases h
  split
  · next hempty => simp [hf, filterMap_commas hf, List.isEmpty_iff.mp hempty]
  · simp [hf, filterMap_commas hf, flatMap_singletons, List.filterMap_map]

theorem filterMap_argumentParts {args : List ValueId} {parts : List Phrase}
    (h : (args.mapM fun v => do
      let type ← g.typeText v
      some [Fragment.argument v, .words (": " ++ type)]) = some parts) :
    parts.flatMap (List.filterMap f) = args.filterMap fun v => f (.argument v) := by
  induction args generalizing parts with
  | nil =>
    cases h
    rfl
  | cons v rest ih =>
    rw [List.mapM_cons] at h
    obtain ⟨part, hpart, h⟩ := Option.bind_eq_some_iff.mp h
    obtain ⟨others, hothers, h⟩ := Option.bind_eq_some_iff.mp h
    obtain ⟨type, -, hpart⟩ := Option.bind_eq_some_iff.mp hpart
    cases hpart
    cases h
    simp [filterMap_cons_eq_append, hf, ih hothers]

theorem filterMap_blockPhrase {b : BlockId} {p : Phrase} (h : g.blockPhrase b = some p) :
    p.filterMap f =
      (f (.label b)).toList ++ (g.block b).args.filterMap fun v => f (.argument v) := by
  obtain ⟨parts, hparts, h⟩ := Option.bind_eq_some_iff.mp h
  have hargs := filterMap_argumentParts hf hparts
  cases h
  split
  · next hempty => simp [filterMap_cons_eq_append, hf, List.isEmpty_iff.mp hempty]
  · simp [filterMap_cons_eq_append, hf, filterMap_commas hf, hargs]

end

theorem shows_opPhrase {i : OpId} {p : Phrase} (h : g.opPhrase i = some p) :
    Shows p (g.op i).results (g.shownValues i) [] [] := by
  apply Shows.of_filterMap
  intro α f hf
  rw [filterMap_opPhrase hf h]
  simp

theorem shows_blockPhrase {b : BlockId} {p : Phrase} (h : g.blockPhrase b = some p) :
    Shows p [] [] (g.block b).args [b] := by
  apply Shows.of_filterMap
  intro α f hf
  rw [filterMap_blockPhrase hf h, filterMap_cons_eq_append]
  simp

end

end Graph

end Multistage
