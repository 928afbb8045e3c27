import Multistage.Proofs.Loop.Distances

/-!
# Where carried values come from

A value of a loop is followed back from hop to hop, at most as many hops as the body yields values.
The bound costs nothing: what is found is the operation result at the end of the chain, and where
nothing is found, no number of hops leads to an operation result. Such a chain ends at an argument
that is not carried (the induction variable, or an argument of another block), or it runs in a
circle of iteration arguments.
-/

namespace Multistage

/-- The body of a loop ends with a yield of the values `yielded`, one for each iteration argument:
for each argument of the body but the first, which is the induction variable. -/
structure Graph.Yields (g : Graph) (loop : OpId) (body : BlockId) (yielded : List ValueId) :
    Prop where
  holds : Ops.forBody? g loop = some (some body)
  ends : ∃ y, (g.block body).ops.getLast? = some y ∧ (g.op y).name = Kinds.yield ∧
    g.operands y = yielded.map some
  length : yielded.length = (g.block body).args.tail.length

/-- The iteration arguments of `body`, each with what is `yielded` for it. -/
def Graph.carried (g : Graph) (body : BlockId) (yielded : List ValueId) :
    List (ValueId × ValueId) :=
  (g.block body).args.tail.zip yielded

namespace Loop

open BuildM Ops

section Chains

variable {carried : List (ValueId × ValueId)} {v : ValueId}

theorem hop_ne_none_of_mem (h : v ∈ carried.map (·.1)) : hop carried v ≠ none := by
  intro hnone
  obtain ⟨p, hp, rfl⟩ := List.mem_map.mp h
  exact absurd rfl (bne_iff_ne.mp (List.lookup_eq_none_iff.mp hnone p hp))

/-- A chain of `hops` ends, or it enters a circle. -/
theorem ends_or_circles (carried : List (ValueId × ValueId)) (v : ValueId) :
    (∃ k w, hops carried k v = some w ∧ hop carried w = none) ∨
      ∃ k w l, hops carried k v = some w ∧ 0 < l ∧ hops carried l w = some w := by
  by_cases hends : ∃ k w, hops carried k v = some w ∧ hop carried w = none
  · exact Or.inl hends
  · -- a chain without an end has more hops than there are arguments
    have hgoes : ∀ k, ∃ w, hops carried k v = some w := by
      intro k
      induction k with
      | zero => exact ⟨v, rfl⟩
      | succ k ih =>
        obtain ⟨w, hw⟩ := ih
        obtain ⟨u, hu⟩ := Option.ne_none_iff_exists'.mp fun hnone => hends ⟨k, w, hw, hnone⟩
        exact ⟨u, by rw [hops_succ_last, hw, Option.bind_some, hu]⟩
    obtain ⟨x, hx⟩ := hgoes (carried.length + 1)
    exact Or.inr (exists_circle (Nat.lt_succ_self _) hx)

/-- A chain of `hops` has one last value at most. -/
theorem end_unique {w x : ValueId} {m n : Nat} (hm : hops carried m v = some w)
    (hw : hop carried w = none) (hn : hops carried n v = some x) (hx : hop carried x = none) :
    w = x := by
  -- the one that comes first has nothing behind it
  have hle : ∀ {a b : Nat} {y z : ValueId}, a ≤ b → hops carried a v = some y →
      hop carried y = none → hops carried b v = some z → y = z := by
    intro a b y z hab hy hend hz
    obtain ⟨u, hu, hrest⟩ := exists_hops_of_le hz hab
    obtain rfl : y = u := Option.some.inj (hy.symm.trans hu)
    cases hk : b - a with
    | zero =>
      rw [hk, hops] at hrest
      exact Option.some.inj hrest
    | succ k =>
      rw [hk, hops, hend] at hrest
      cases hrest
  rcases Nat.le_total m n with hmn | hnm
  · exact hle hmn hm hw hn
  · exact (hle hnm hn hx hm).symm

end Chains

section Answers

variable {g : Graph} {loop : OpId} {body : BlockId} {yielded : List ValueId} {v : ValueId}

theorem keys_carried (h : g.Yields loop body yielded) :
    (g.carried body yielded).map (·.1) = (g.block body).args.tail :=
  List.map_fst_zip (Nat.le_of_eq h.length.symm)

/-- Where `originWithin` finds nothing, it tells no distance. -/
theorem originWithin_none {vals : List (Option ValueId)} {n start d : Nat}
    (h : originWithin g body vals n start v = some (none, d)) : d = 0 := by
  fun_induction originWithin g body vals n start v with
  | case1 => cases h
  | case2 => cases h; rfl
  | case3 => cases h; rfl
  | case4 _ _ _ _ _ _ _ _ _ ih => exact ih h
  | case5 => cases h

/-- A `body` without arguments carries nothing: each value is an operation result or an argument of
another block. -/
theorem originWithin_of_no_args (howned : g.Owned) (hargs : (g.block body).args = [])
    (vals : List (Option ValueId)) (n start : Nat) (v : ValueId) :
    originWithin g body vals n start v =
      some (if (g.definingOp v).isSome then (some v, start) else (none, 0)) := by
  unfold originWithin Graph.definingOp
  cases hsource : (g.value v).source with
  | result i k => rfl
  | argument b k =>
    have hother : b ≠ body := by
      rintro rfl
      have hhas : g.HasValue v := by
        by_contra hnone
        rw [Graph.value_of_not_hasValue hnone] at hsource
        cases hsource
      have hat := (howned.args b k v).mpr ⟨hhas, hsource⟩
      rw [hargs] at hat
      cases hat
    exact if_pos (Or.inl hother)

/-- `originWithin` gives the right answer as far as the hops go, also in a body without an induction
variable. -/
theorem exists_traces_of_yields (howned : g.Owned) (h : g.Yields loop body yielded) (v : ValueId) :
    ∃ answer, originWithin g body (yielded.map some) (yielded.map some).length 0 v = some answer ∧
      Traces g (g.carried body yielded) (g.carried body yielded).length 0 v answer ∧
      ∀ x, (g.definingOp x).isSome → hop (g.carried body yielded) x = none := by
  have hlength : (g.carried body yielded).length = yielded.length := by
    rw [Graph.carried, List.length_zip, ← h.length, Nat.min_self]
  rw [hlength, List.length_map]
  cases hargs : (g.block body).args with
  | nil =>
    have hempty : g.carried body yielded = [] := by rw [Graph.carried, hargs]; rfl
    have hstays : ∀ x, hop (g.carried body yielded) x = none := fun x => by rw [hempty]; rfl
    exact ⟨_, originWithin_of_no_args howned hargs _ _ _ v, traces_of_hop_none (hstays v) _ 0,
      fun x _ => hstays x⟩
  | cons inductionVar args =>
    have hcarries : g.Carries loop body args yielded :=
      ⟨h.holds, ⟨inductionVar, hargs⟩, h.ends, by rw [h.length, hargs, List.tail_cons]⟩
    have hcarried : g.carried body yielded = args.zip yielded := by rw [Graph.carried, hargs]; rfl
    rw [hcarried]
    obtain ⟨answer, hanswer, htraces⟩ := exists_traces howned hcarries yielded.length 0 v
    exact ⟨answer, hanswer, htraces, fun x => hop_of_result howned hcarries⟩

theorem definingOp_eq_none_iff : g.definingOp v = none ↔ g.isArgument v = true := by
  unfold Graph.definingOp Graph.isArgument Graph.ownerBlock
  cases (g.value v).source <;> simp

/-- No operation result is on the chain from `v` exactly if the chain ends at an argument that is
not carried or enters a circle. -/
theorem never_result_iff (h : g.Yields loop body yielded)
    (hresult : ∀ x, (g.definingOp x).isSome → hop (g.carried body yielded) x = none)
    (v : ValueId) :
    (∀ k x, hops (g.carried body yielded) k v = some x → g.definingOp x = none) ↔
      (∃ k w, hops (g.carried body yielded) k v = some w ∧ g.isArgument w = true ∧
        w ∉ (g.block body).args.tail) ∨
      ∃ k w n, hops (g.carried body yielded) k v = some w ∧ 0 < n ∧
        hops (g.carried body yielded) n w = some w := by
  have hkeys := keys_carried h
  constructor
  · intro hnever
    refine (ends_or_circles (g.carried body yielded) v).imp_left ?_
    rintro ⟨k, w, hk, hend⟩
    refine ⟨k, w, hk, definingOp_eq_none_iff.mp (hnever k w hk), fun hmem => ?_⟩
    rw [← hkeys] at hmem
    exact absurd hend (hop_ne_none_of_mem hmem)
  · intro hlost k x hk
    by_contra hx
    have hend := hresult x (Option.isSome_iff_ne_none.mpr hx)
    rcases hlost with ⟨l, w, hl, harg, hout⟩ | ⟨l, w, n, hl, hn, hround⟩
    · -- an operation result and an argument that is not carried are both ends of the chain
      obtain rfl := end_unique hl (hop_of_not_mem (hkeys ▸ hout)) hk hend
      exact hx (definingOp_eq_none_iff.mpr harg)
    · have hgoes := hop_isSome_of_circle hl hn hround hk
      rw [hend] at hgoes
      cases hgoes

end Answers

variable {c : Context} {loop : OpId} {body : BlockId} {yielded : List ValueId}

/-- Following a value back through the iteration arguments of a loop always gives an answer. It is
`x` at distance `d` exactly if `x` is an operation result, `d` hops lead to it, and every value
before it is an iteration argument. It is nothing exactly if no number of hops leads to an operation
result, that is, if the chain ends at an argument that is not carried or enters a circle. -/
theorem definitionAndDistance_follows_chain (hreachable : Reachable c)
    (h : c.graph.Yields loop body yielded) (v : ValueId) :
    ∃ answer, definitionAndDistance loop v c = .ok answer c ∧
      (∀ x d, answer = (some x, d) ↔
        (c.graph.definingOp x).isSome ∧ hops (c.graph.carried body yielded) d v = some x ∧
          ∀ k < d, ∃ w ∈ (c.graph.block body).args.tail,
            hops (c.graph.carried body yielded) k v = some w) ∧
      (answer = (none, 0) ↔
        ∀ k x, hops (c.graph.carried body yielded) k v = some x → c.graph.definingOp x = none) ∧
      (answer = (none, 0) ↔
        (∃ k w, hops (c.graph.carried body yielded) k v = some w ∧ c.graph.isArgument w = true ∧
          w ∉ (c.graph.block body).args.tail) ∨
        ∃ k w n, hops (c.graph.carried body yielded) k v = some w ∧ 0 < n ∧
          hops (c.graph.carried body yielded) n w = some w) := by
  have howned := hreachable.sound.graph.owned
  obtain ⟨answer, hanswer, htraces, hresult⟩ := exists_traces_of_yields howned h v
  obtain ⟨a, c', hrun, -, rfl, rfl⟩ := (gives_definitionAndDistance h.holds
    (yieldedBy_of_ends hreachable.sound.kinds h.ends) hanswer).ok
  have hfound := htraces.eq_some_iff hresult
  have hnone : a = (none, 0) ↔ ∀ k x, hops (c'.graph.carried body yielded) k v = some x →
      c'.graph.definingOp x = none := by
    constructor
    · rintro rfl k x hk
      by_contra hx
      cases (hfound x k).mpr ⟨Option.isSome_iff_ne_none.mpr hx, hk⟩
    · intro hnever
      obtain ⟨o, d⟩ := a
      cases o with
      | none => rw [originWithin_none hanswer]
      | some x =>
        obtain ⟨hx, hd⟩ := (hfound x d).mp rfl
        rw [hnever d x hd] at hx
        cases hx
  refine ⟨a, hrun, fun x d => ?_, hnone, hnone.trans (never_result_iff h hresult v)⟩
  rw [hfound, and_congr_right_iff]
  intro _
  refine (and_iff_left_of_imp fun hd k hk => ?_).symm
  obtain ⟨w, hw, hmem⟩ := mem_keys_of_hops_lt hd hk
  exact ⟨w, keys_carried h ▸ hmem, hw⟩

/-- What the loop of `relay` carries, and where the chains of three of its values lead. -/
theorem relay_chains :
    let g := (Request.run relay {}).graph
    let carried := g.carried ⟨0⟩ [⟨6⟩, ⟨1⟩, ⟨1⟩, ⟨5⟩, ⟨4⟩]
    (g.block ⟨0⟩).args.tail.length = 5 ∧ (g.definingOp ⟨6⟩).isSome ∧
      hops carried 2 ⟨3⟩ = some ⟨6⟩ ∧
      (∀ k < 2, ∃ w ∈ (g.block ⟨0⟩).args.tail, hops carried k ⟨3⟩ = some w) ∧
      hops carried 0 ⟨4⟩ = some ⟨4⟩ ∧ hops carried 2 ⟨4⟩ = some ⟨4⟩ ∧
      hops carried 0 ⟨0⟩ = some ⟨0⟩ ∧ g.isArgument ⟨0⟩ = true ∧ ⟨0⟩ ∉ (g.block ⟨0⟩).args.tail := by
  decide +kernel

/-- In `relay` the third argument comes from the sum, two iterations earlier; the fourth, which
changes places with the fifth, and the induction variable come from no operation. -/
theorem relay_origins :
    Reachable (Request.run relay {}) ∧
      (Request.run relay {}).graph.Yields ⟨0⟩ ⟨0⟩ [⟨6⟩, ⟨1⟩, ⟨1⟩, ⟨5⟩, ⟨4⟩] ∧
      definitionAndDistance ⟨0⟩ ⟨3⟩ (Request.run relay {}) =
        .ok (some ⟨6⟩, 2) (Request.run relay {}) ∧
      definitionAndDistance ⟨0⟩ ⟨4⟩ (Request.run relay {}) = .ok (none, 0) (Request.run relay {}) ∧
      definitionAndDistance ⟨0⟩ ⟨0⟩ (Request.run relay {}) =
        .ok (none, 0) (Request.run relay {}) := by
  obtain ⟨hlength, hsum, hthird, hbefore, hstart, hround, hself, harg, hout⟩ := relay_chains
  have hyields : (Request.run relay {}).graph.Yields ⟨0⟩ ⟨0⟩ [⟨6⟩, ⟨1⟩, ⟨1⟩, ⟨5⟩, ⟨4⟩] :=
    ⟨carries_relay.holds, carries_relay.ends, hlength.symm⟩
  have hfollows := definitionAndDistance_follows_chain reachable_relay hyields
  refine ⟨reachable_relay, hyields, ?_, ?_, ?_⟩
  · obtain ⟨answer, hrun, hfound, -, -⟩ := hfollows ⟨3⟩
    rw [hrun, (hfound ⟨6⟩ 2).mpr ⟨hsum, hthird, hbefore⟩]
  · obtain ⟨answer, hrun, -, -, hlost⟩ := hfollows ⟨4⟩
    rw [hrun, hlost.mpr (Or.inr ⟨0, ⟨4⟩, 2, hstart, by decide, hround⟩)]
  · obtain ⟨answer, hrun, -, -, hlost⟩ := hfollows ⟨0⟩
    rw [hrun, hlost.mpr (Or.inl ⟨0, ⟨0⟩, hself, harg, hout⟩)]

end Loop

end Multistage
