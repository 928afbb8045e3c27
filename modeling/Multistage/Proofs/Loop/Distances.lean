import Multistage.Loop.Distance
import Multistage.Proofs.Build.BuilderSuccess
import Multistage.Proofs.Build.Reachable

/-!
# Values that loops carry

What a loop yields at a position is what its iteration argument of that position is in the next
iteration. Going from arguments to what is yielded for them (`hops`) is what following a value back
does; going from values to the arguments that receive them (`receivedAfter`) is what following one
forwards does. The two are inverse to each other. Following back gives up after as many hops as
values are yielded, and loses nothing by that: a chain that ends in an operation result meets no
argument twice.
-/

namespace Multistage

/-- A loop with an induction variable and the iteration arguments `args`, whose body ends with a
yield of the values `yielded`, one for each of them. -/
structure Graph.Carries (g : Graph) (loop : OpId) (body : BlockId) (args yielded : List ValueId) :
    Prop where
  holds : Ops.forBody? g loop = some (some body)
  receives : ∃ inductionVar, (g.block body).args = inductionVar :: args
  ends : ∃ y, (g.block body).ops.getLast? = some y ∧ (g.op y).name = Kinds.yield ∧
    g.operands y = yielded.map some
  length : yielded.length = args.length

namespace Loop

open BuildM Ops

/-! ## One iteration back -/

section Hops

variable {carried : List (ValueId × ValueId)} {v w x : ValueId} {m n : Nat}

/-- What the iteration argument `v` was yielded as. In `carried` each argument is paired with what
is yielded for it. -/
def hop (carried : List (ValueId × ValueId)) (v : ValueId) : Option ValueId := carried.lookup v

/-- What a value was `n` iterations earlier. -/
def hops (carried : List (ValueId × ValueId)) : Nat → ValueId → Option ValueId
  | 0, v => some v
  | n + 1, v => (hop carried v).bind (hops carried n)

theorem hop_eq_some_iff (hkeys : (carried.map (·.1)).Nodup) :
    hop carried v = some w ↔ (v, w) ∈ carried := by
  rw [hop, List.lookup_eq_some_iff]
  constructor
  · rintro ⟨before, after, rfl, -⟩
    exact List.mem_append_right _ List.mem_cons_self
  · intro hmem
    obtain ⟨before, after, rfl⟩ := List.append_of_mem hmem
    refine ⟨before, after, rfl, fun p hp => bne_iff_ne.mpr ?_⟩
    rintro rfl
    rw [List.map_append, List.map_cons] at hkeys
    exact (List.nodup_middle.mp hkeys).notMem
      (List.mem_append_left _ (List.mem_map.mpr ⟨p, hp, rfl⟩))

theorem mem_of_hop (h : hop carried v = some w) : v ∈ carried.map (·.1) := by
  obtain ⟨before, after, rfl, -⟩ := List.lookup_eq_some_iff.mp h
  exact List.mem_map_of_mem (List.mem_append_right before List.mem_cons_self)

theorem hop_of_not_mem (h : v ∉ carried.map (·.1)) : hop carried v = none := by
  cases hv : hop carried v with
  | none => rfl
  | some w => exact absurd (mem_of_hop hv) h

theorem hops_add (m n : Nat) (v : ValueId) :
    hops carried (m + n) v = (hops carried m v).bind (hops carried n) := by
  induction m generalizing v with
  | zero => rw [Nat.zero_add, hops, Option.bind_some]
  | succ m ih =>
    rw [Nat.succ_add, hops, hops]
    cases hop carried v with
    | none => rfl
    | some w => exact ih w

theorem hops_succ_last (n : Nat) (v : ValueId) :
    hops carried (n + 1) v = (hops carried n v).bind (hop carried) := by
  rw [hops_add]
  congr 1
  funext w
  rw [hops]
  cases hop carried w <;> rfl

/-- A chain of `n` hops passes an argument before each of them. -/
theorem exists_hops_of_le (hn : hops carried n v = some x) (hm : m ≤ n) :
    ∃ w, hops carried m v = some w ∧ hops carried (n - m) w = some x := by
  rw [← Nat.add_sub_cancel' hm, hops_add] at hn
  exact Option.bind_eq_some_iff.mp hn

theorem mem_keys_of_hops_lt (hn : hops carried n v = some x) (hm : m < n) :
    ∃ w, hops carried m v = some w ∧ w ∈ carried.map (·.1) := by
  obtain ⟨w, hw, hrest⟩ := exists_hops_of_le hn (Nat.le_of_lt hm)
  obtain ⟨k, hk⟩ := Nat.exists_eq_add_of_lt hm
  rw [show n - m = k + 1 by omega, hops] at hrest
  obtain ⟨u, hu, -⟩ := Option.bind_eq_some_iff.mp hrest
  exact ⟨w, hw, mem_of_hop hu⟩

/-- Going round a circle of `n` hops once more ends at the same place. -/
theorem hops_mul_of_circle (hw : hops carried n w = some w) (t : Nat) :
    hops carried (t * n) w = some w := by
  induction t with
  | zero => rw [Nat.zero_mul, hops]
  | succ t ih => rw [Nat.succ_mul, hops_add, ih, Option.bind_some, hw]

/-- A chain from `v` that enters a circle at `w` has no last value. -/
theorem hop_isSome_of_circle (hv : hops carried m v = some w) (hn : 0 < n)
    (hw : hops carried n w = some w) {k : Nat} (hk : hops carried k v = some x) :
    (hop carried x).isSome := by
  -- so often round the circle that `x` is behind
  have hround : hops carried (m + (k + 1) * n) v = some w := by
    rw [hops_add, hv, Option.bind_some, hops_mul_of_circle hw]
  have hlt : k < m + (k + 1) * n := by
    have hle : (k + 1) * 1 ≤ (k + 1) * n := Nat.mul_le_mul_left _ hn
    omega
  obtain ⟨u, hu, hrest⟩ := exists_hops_of_le hround (Nat.le_of_lt hlt)
  obtain rfl : x = u := Option.some.inj (hk.symm.trans hu)
  obtain ⟨l, hl⟩ := Nat.exists_eq_add_of_lt hlt
  rw [show m + (k + 1) * n - k = l + 1 by omega, hops] at hrest
  obtain ⟨y, hy, -⟩ := Option.bind_eq_some_iff.mp hrest
  rw [hy]
  rfl

/-- A chain with more hops than `carried` has arguments meets an argument twice. -/
theorem exists_circle (hn : carried.length < n) (hx : hops carried n v = some x) :
    ∃ k w l, hops carried k v = some w ∧ 0 < l ∧ hops carried l w = some w := by
  have hsubset : ((List.range n).map fun k => hops carried k v) ⊆
      (carried.map (·.1)).map some := by
    intro u hu
    obtain ⟨k, hk, rfl⟩ := List.mem_map.mp hu
    obtain ⟨w, hw, hmem⟩ := mem_keys_of_hops_lt hx (List.mem_range.mp hk)
    rw [hw]
    exact List.mem_map_of_mem hmem
  -- more values on the way than there are arguments
  have hrepeats : ¬ ((List.range n).map fun k => hops carried k v).Nodup := by
    intro hnodup
    have hle := hnodup.length_le_of_subset hsubset
    rw [List.length_map, List.length_map, List.length_map, List.length_range] at hle
    omega
  obtain ⟨k, l, hkl, hl, heq⟩ : ∃ k l, k < l ∧ l < n ∧ hops carried k v = hops carried l v := by
    by_contra hnone
    apply hrepeats
    apply List.Nodup.map_on _ List.nodup_range
    intro k hk l hl heq
    rw [List.mem_range] at hk hl
    rcases Nat.lt_trichotomy k l with hlt | rfl | hlt
    · exact absurd ⟨k, l, hlt, hl, heq⟩ hnone
    · rfl
    · exact absurd ⟨l, k, hlt, hk, heq.symm⟩ hnone
  obtain ⟨w, hw, -⟩ := mem_keys_of_hops_lt hx hl
  obtain ⟨u, hu, hround⟩ := exists_hops_of_le hw (Nat.le_of_lt hkl)
  obtain rfl : w = u := Option.some.inj (hw.symm.trans (heq.symm.trans hu))
  exact ⟨k, w, l - k, hu, by omega, hround⟩

/-- A chain that ends is no longer than `carried`, since it runs in no circle. -/
theorem le_length_of_hops (hend : hop carried x = none) (hn : hops carried n v = some x) :
    n ≤ carried.length := by
  by_contra hlong
  obtain ⟨k, w, l, hk, hl, hround⟩ := exists_circle (Nat.not_le.mp hlong) hn
  have hgoes := hop_isSome_of_circle hk hl hround hn
  rw [hend] at hgoes
  cases hgoes

end Hops

/-! ## One iteration on -/

section Receivers

variable {carried : List (ValueId × ValueId)} {w : ValueId}

end Receivers

section Forward

variable {args yielded : List ValueId}

end Forward

/-! ## The body of a loop -/

section Bodies

variable {g : Graph} {loop : OpId} {body : BlockId} {args yielded : List ValueId} {v x : ValueId}

theorem yieldedBy_of_ends {cat : Catalog} (hkinds : g.KindsKnown cat)
    (h : ∃ y, (g.block body).ops.getLast? = some y ∧ (g.op y).name = Kinds.yield ∧
      g.operands y = yielded.map some) : yieldedBy g body = yielded.map some := by
  obtain ⟨y, hlast, hname, hvals⟩ := h
  obtain ⟨k, hfind, hends⟩ : ∃ k, Catalog.builtin.find? Kinds.yield = some k ∧
      k.isTerminator = true := by decide
  have hkind := hkinds.builtin y k (hname ▸ hfind)
  have hyield : yieldOf g body = some y := by
    simp [yieldOf, Graph.terminator, hlast, hkind, hends, hname]
  rw [yieldedBy, hyield]
  exact hvals

theorem keys_of_carries (h : g.Carries loop body args yielded) :
    (args.zip yielded).map (·.1) = args :=
  List.map_fst_zip (Nat.le_of_eq h.length.symm)

/-- An argument of `body` that is not the first is an iteration argument, at the position before its
own. -/
theorem getElem?_args_iff (howned : g.Owned) (h : g.Carries loop body args yielded) {k : Nat} :
    args[k]? = some v ↔ g.HasValue v ∧ (g.value v).source = .argument body (k + 1) := by
  obtain ⟨iv, hargs⟩ := h.receives
  rw [← howned.args body (k + 1) v, hargs, List.getElem?_cons_succ]

theorem nodup_args (howned : g.Owned) (h : g.Carries loop body args yielded) : args.Nodup := by
  rw [List.nodup_iff_getElem?_ne_getElem?]
  intro k l hkl hl heq
  obtain ⟨v, hv⟩ : ∃ v, args[l]? = some v := ⟨_, List.getElem?_eq_getElem hl⟩
  have hk := ((getElem?_args_iff howned h).mp (heq.trans hv)).2
  rw [((getElem?_args_iff howned h).mp hv).2] at hk
  injection hk with _ hindex
  omega

theorem nodup_keys (howned : g.Owned) (h : g.Carries loop body args yielded) :
    ((args.zip yielded).map (·.1)).Nodup := by
  rw [keys_of_carries h]
  exact nodup_args howned h

/-- An operation result `x` is no iteration argument. -/
theorem hop_of_result (howned : g.Owned) (h : g.Carries loop body args yielded)
    (hx : (g.definingOp x).isSome) : hop (args.zip yielded) x = none := by
  apply hop_of_not_mem
  rw [keys_of_carries h]
  intro hmem
  obtain ⟨k, hk⟩ := List.mem_iff_getElem?.mp hmem
  rw [Graph.definingOp, ((getElem?_args_iff howned h).mp hk).2] at hx
  cases hx

/-- An iteration argument `v` stands for what is yielded at its position. -/
theorem source_of_hop (howned : g.Owned) (h : g.Carries loop body args yielded)
    (hv : hop (args.zip yielded) v = some x) :
    ∃ k, (g.value v).source = .argument body (k + 1) ∧ (yielded.map some)[k]? = some (some x) := by
  obtain ⟨k, hk⟩ := List.mem_iff_getElem?.mp ((hop_eq_some_iff (nodup_keys howned h)).mp hv)
  obtain ⟨harg, hyielded⟩ := List.getElem?_zip_eq_some.mp hk
  refine ⟨k, ((getElem?_args_iff howned h).mp harg).2, ?_⟩
  rw [List.getElem?_map, hyielded]
  rfl

/-- A value `v` that is no iteration argument has a source of another kind. -/
theorem source_ne_of_hop_none (howned : g.Owned) (h : g.Carries loop body args yielded)
    (hv : hop (args.zip yielded) v = none) (k : Nat) :
    (g.value v).source ≠ .argument body (k + 1) := by
  intro hsource
  have hhas : g.HasValue v := by
    by_contra hnone
    rw [Graph.value_of_not_hasValue hnone] at hsource
    cases hsource
  have hmem : v ∈ (args.zip yielded).map (·.1) := by
    rw [keys_of_carries h]
    exact List.mem_of_getElem? ((getElem?_args_iff howned h).mpr ⟨hhas, hsource⟩)
  obtain ⟨p, hp, rfl⟩ := List.mem_map.mp hmem
  rw [(hop_eq_some_iff (nodup_keys howned h)).mpr hp] at hv
  cases hv

/-! ## Following a value back -/

theorem originWithin_of_hop_none (howned : g.Owned) (h : g.Carries loop body args yielded)
    (hv : hop (args.zip yielded) v = none) (n start : Nat) :
    originWithin g body (yielded.map some) n start v =
      some (if (g.definingOp v).isSome then (some v, start) else (none, 0)) := by
  have hother := source_ne_of_hop_none howned h hv
  unfold originWithin Graph.definingOp
  cases hsource : (g.value v).source with
  | result i k => rfl
  | argument b k =>
    have hout : b ≠ body ∨ k = 0 := by
      by_contra hin
      rw [not_or, not_not] at hin
      obtain ⟨rfl, hk⟩ := hin
      obtain ⟨l, rfl⟩ := Nat.exists_eq_succ_of_ne_zero hk
      exact hother l hsource
    exact if_pos hout

/-- What an answer says about a value that can be followed for `n` hops at most: it names the
operation result that is no more than `n` hops away, and the hops to it on top of `start`. -/
def Traces (g : Graph) (carried : List (ValueId × ValueId)) (n start : Nat) (v : ValueId)
    (answer : Option ValueId × Nat) : Prop :=
  ∀ x d, answer = (some x, d) ↔
    (g.definingOp x).isSome ∧ ∃ k ≤ n, d = start + k ∧ hops carried k v = some x

/-- Where no `hop` can be made, `v` itself is all that is reached. -/
theorem traces_of_hop_none {carried : List (ValueId × ValueId)} (hv : hop carried v = none)
    (n start : Nat) :
    Traces g carried n start v (if (g.definingOp v).isSome then (some v, start) else (none, 0)) := by
  intro x d
  have hstay : ∀ k, hops carried k v = some x ↔ k = 0 ∧ v = x := by
    intro k
    cases k <;> simp [hops, hv]
  simp only [hstay]
  split
  · next hresult =>
    constructor
    · intro heq
      obtain ⟨rfl, rfl⟩ : v = x ∧ start = d := by simpa using heq
      exact ⟨hresult, 0, Nat.zero_le _, rfl, rfl, rfl⟩
    · rintro ⟨-, k, -, rfl, rfl, rfl⟩
      rfl
  · next hresult =>
    constructor
    · simp
    · rintro ⟨hx, k, -, -, -, rfl⟩
      exact absurd hx hresult

/-- One hop more, from an argument `v` that is no operation result itself. -/
theorem Traces.of_hop {carried : List (ValueId × ValueId)} {n start : Nat} {w : ValueId}
    {answer : Option ValueId × Nat} (h : Traces g carried n (start + 1) w answer)
    (hv : hop carried v = some w) (hself : g.definingOp v = none) :
    Traces g carried (n + 1) start v answer := by
  intro x d
  rw [h x d]
  apply and_congr_right
  intro hx
  constructor
  · rintro ⟨k, hk, rfl, hkx⟩
    exact ⟨k + 1, Nat.succ_le_succ hk, by omega, by rw [hops, hv]; exact hkx⟩
  · rintro ⟨k, hk, rfl, hkx⟩
    cases k with
    | zero =>
      obtain rfl : v = x := Option.some.inj hkx
      rw [hself] at hx
      cases hx
    | succ k =>
      rw [hops, hv] at hkx
      exact ⟨k, Nat.le_of_succ_le_succ hk, by omega, hkx⟩

/-- `originWithin` always has an answer, and it is the right one as far as the hops go. The
induction is on the `n` hops that may still be made. -/
theorem exists_traces (howned : g.Owned) (h : g.Carries loop body args yielded) (n start : Nat)
    (v : ValueId) :
    ∃ answer, originWithin g body (yielded.map some) n start v = some answer ∧
      Traces g (args.zip yielded) n start v answer := by
  induction n generalizing start v with
  | zero =>
    cases hv : hop (args.zip yielded) v with
    | none => exact ⟨_, originWithin_of_hop_none howned h hv 0 start, traces_of_hop_none hv 0 start⟩
    | some w =>
      obtain ⟨k, hsource, hyielded⟩ := source_of_hop howned h hv
      refine ⟨(none, 0), by simp [originWithin, hsource], fun x d => ⟨by simp, ?_⟩⟩
      rintro ⟨hx, k, hk, -, hkx⟩
      -- an iteration argument is no operation result itself
      obtain rfl := Nat.le_zero.mp hk
      obtain rfl : v = x := Option.some.inj hkx
      rw [Graph.definingOp, hsource] at hx
      cases hx
  | succ n ih =>
    cases hv : hop (args.zip yielded) v with
    | none => exact ⟨_, originWithin_of_hop_none howned h hv _ start, traces_of_hop_none hv _ start⟩
    | some w =>
      obtain ⟨k, hsource, hyielded⟩ := source_of_hop howned h hv
      obtain ⟨answer, hanswer, htraces⟩ := ih (start + 1) w
      have hself : g.definingOp v = none := by rw [Graph.definingOp, hsource]
      refine ⟨answer, ?_, htraces.of_hop hv hself⟩
      rw [originWithin, ← hanswer]
      simp [hsource, hyielded]

end Bodies

/-! ## The two directions together -/

section Chains

variable {c : Context} {loop : OpId} {body : BlockId} {args yielded : List ValueId}

theorem gives_forBody (h : forBody? c.graph loop = some (some body)) :
    (forBody loop).Gives c fun b c' => b = body ∧ c' = c := by
  refine gives_graph.bind fun g c' _ hg => ?_
  obtain ⟨rfl, rfl⟩ := hg
  refine (gives_present h).bind fun b c'' _ hb => ?_
  obtain ⟨rfl, rfl⟩ := hb
  exact gives_present rfl

theorem gives_definitionAndDistance {v : ValueId} {vals : List (Option ValueId)}
    {answer : Option ValueId × Nat} (hbody : forBody? c.graph loop = some (some body))
    (hvals : yieldedBy c.graph body = vals)
    (hanswer : originWithin c.graph body vals vals.length 0 v = some answer) :
    (definitionAndDistance loop v).Gives c fun a c' => a = answer ∧ c' = c := by
  refine (gives_forBody hbody).bind fun b c' _ hb => ?_
  obtain ⟨rfl, rfl⟩ := hb
  refine gives_graph.bind fun g c'' _ hg => ?_
  obtain ⟨rfl, rfl⟩ := hg
  subst hvals
  exact gives_present hanswer

/-- The origin of `v` is the operation result that some number of `hops` leads to: the bound on the
hops loses none. -/
theorem Traces.eq_some_iff {g : Graph} {carried : List (ValueId × ValueId)} {v : ValueId}
    {answer : Option ValueId × Nat} (h : Traces g carried carried.length 0 v answer)
    (hresult : ∀ x, (g.definingOp x).isSome → hop carried x = none) (x : ValueId) (d : Nat) :
    answer = (some x, d) ↔ (g.definingOp x).isSome ∧ hops carried d v = some x := by
  rw [h x d]
  constructor
  · rintro ⟨hx, k, -, rfl, hk⟩
    rw [Nat.zero_add]
    exact ⟨hx, hk⟩
  · rintro ⟨hx, hk⟩
    exact ⟨hx, d, le_length_of_hops (hresult x hx) hk, (Nat.zero_add d).symm, hk⟩

end Chains

/-- A loop with five iteration arguments: the first receives a sum, the next two what the first one
was, and the last two change places in every iteration. -/
def relay : List Request := [
  .createDetached { name := Kinds.forLoop },
  .addBlock ⟨0⟩ 0,
  .addArgument ⟨0⟩ none,
  .addArgument ⟨0⟩ none,
  .addArgument ⟨0⟩ none,
  .addArgument ⟨0⟩ none,
  .addArgument ⟨0⟩ none,
  .addArgument ⟨0⟩ none,
  .moveToEnd (some ⟨0⟩),
  .create { name := Kinds.addI, operands := [some ⟨1⟩, some ⟨2⟩], results := [none] },
  .create
    { name := Kinds.yield, operands := [some ⟨6⟩, some ⟨1⟩, some ⟨1⟩, some ⟨5⟩, some ⟨4⟩] }]

theorem reachable_relay : Reachable (Request.run relay {}) :=
  (Reachable.fresh .collect 0).run (by decide +kernel)

theorem carries_relay : (Request.run relay {}).graph.Carries ⟨0⟩ ⟨0⟩ [⟨1⟩, ⟨2⟩, ⟨3⟩, ⟨4⟩, ⟨5⟩]
    [⟨6⟩, ⟨1⟩, ⟨1⟩, ⟨5⟩, ⟨4⟩] where
  holds := by decide +kernel
  receives := ⟨⟨0⟩, by decide +kernel⟩
  ends := ⟨⟨2⟩, by decide +kernel⟩
  length := rfl

end Loop

end Multistage
