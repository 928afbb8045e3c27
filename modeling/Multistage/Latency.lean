import Multistage.Builder

/-!
# Latencies

The latency of an operation, in a table while a schedule is made and as an attribute while the
program is handed on.
-/

namespace Multistage

/-- Latencies by operation. A latency may also be filed under no operation at all. -/
structure LatencyTable where
  /-- The latencies of operations, in the order of the operations' numbers. -/
  entries : List (OpId × Int) := []
  /-- The latency filed under no operation. -/
  unowned : Option Int := none
  deriving DecidableEq, Repr, Inhabited

namespace LatencyTable

/-- The latency filed under an operation, or under none. -/
def get? (t : LatencyTable) : Option OpId → Option Int
  | some i => t.entries.lookup i
  | none => t.unowned

/-- Puts an entry at its place, over an earlier one of the operation. -/
def insert (t : LatencyTable) (i : Option OpId) (latency : Int) : LatencyTable :=
  match i with
  | some i =>
    { t with entries := Assoc.put (fun a b => decide (a.index < b.index)) i latency t.entries }
  | none => { t with unowned := some latency }

/-- `t` without the entry of an operation, or without the one of none. -/
def erase (t : LatencyTable) : Option OpId → LatencyTable
  | some i => { t with entries := Assoc.drop i t.entries }
  | none => { t with unowned := none }

/-- The number of entries. -/
def size (t : LatencyTable) : Nat := t.entries.length + t.unowned.toList.length

/-- All entries in order. An entry without an operation has no number, so it has no place beside
others. -/
def ordered? (t : LatencyTable) : Option (List (Option OpId × Int)) :=
  match t.unowned, t.entries with
  | none, entries => some (entries.map fun (i, latency) => (some i, latency))
  | some latency, [] => some [(none, latency)]
  | some _, _ :: _ => none

theorem get?_insert (t : LatencyTable) (i j : Option OpId) (latency : Int) :
    (t.insert i latency).get? j = if j = i then some latency else t.get? j := by
  cases i <;> cases j
  · rfl
  · rfl
  · rfl
  · rw [insert, get?, Assoc.lookup_put]
    simp only [Option.some.injEq]
    rfl

theorem get?_erase (t : LatencyTable) (i j : Option OpId) :
    (t.erase i).get? j = if j = i then none else t.get? j := by
  cases i <;> cases j
  · rfl
  · rfl
  · rfl
  · rw [erase, get?, Assoc.lookup_drop]
    simp only [Option.some.injEq]
    rfl

end LatencyTable

namespace Latency

open BuildM Build

/-- The attribute that carries the latency of an operation. -/
def attrName : String := "tt.latency"

/-- Writes one latency as an attribute, if the operation lies in the module. -/
def serializeEntry (root i : Option OpId) (latency : Int) : BuildM Unit := do
  let g ← graph
  match root, i with
  | some r, some j =>
    if !g.isAncestorOf r j then reject (.latencyOutside (some (g.label j)) (some (g.label r)))
    setAttr j attrName (some (.i32 latency))
  | _, _ => reject (.latencyOutside (i.map g.label) (root.map g.label))

/-- Writes every latency of a table as an attribute, in order, up to the first operation that does
not lie in the module. -/
def serialize (root : Option OpId) (t : LatencyTable) : BuildM Unit := do
  (← present t.ordered?).forM fun (i, latency) => serializeEntry root i latency

/-- Moves the latency attribute of one operation into a table. An attribute that is no integer is
dropped with a warning. -/
def takeEntry (t : LatencyTable) (i : OpId) : BuildM LatencyTable := do
  if !((← graph).op i).attrs.contains attrName then return t
  match ← removeAttr i attrName with
  | some (.integer latency _) => return t.insert (some i) latency
  | other =>
    writeLog .warning ("pipeliner: dropping non-integer " ++ attrName ++ " = " ++ attrText other ++
      " on " ++ ((← graph).label i).text)
    return t

/-- Moves the latency attributes of an operation and all that lies inside it into a table. -/
def deserialize (root : OpId) : BuildM LatencyTable :=
  walk takeEntry {} root

end Latency

end Multistage
