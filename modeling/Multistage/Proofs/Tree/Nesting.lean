import Mathlib.Data.Fintype.Card
import Multistage.Proofs.Graph.EditSequences

/-!
# Operations inside operations

The walks up and down the tree of operations are bounded by the number of operations. On well-formed
graphs the bound is enough, also where an operation lies inside itself: a walk that has not found
what it looks for has met a different operation at every step. So `Inside` and `Encloses`, which
know no bound, say what the walks find.
-/

namespace Multistage.Graph

variable {g g' : Graph}

/-! ## Going up -/

/-- The operation `n` levels up. -/
def up (g : Graph) : Nat → OpId → Option OpId
  | 0, i => some i
  | n + 1, i => (g.parent i).bind (up g n)

theorem up_succ (n : Nat) (i : OpId) : g.up (n + 1) i = (g.up n i).bind g.parent := by
  induction n generalizing i with
  | zero =>
    show (g.parent i).bind some = g.parent i
    exact Option.bind_fun_some _
  | succ n ih =>
    show (g.parent i).bind (g.up (n + 1)) = ((g.parent i).bind (g.up n)).bind g.parent
    rw [Option.bind_assoc]
    exact Option.bind_congr fun p _ => ih p

theorem up_add (m n : Nat) (i : OpId) : g.up (m + n) i = (g.up m i).bind (g.up n) := by
  induction m generalizing i with
  | zero => rw [Nat.zero_add]; rfl
  | succ m ih =>
    rw [Nat.succ_add]
    show (g.parent i).bind (g.up (m + n)) = ((g.parent i).bind (g.up m)).bind (g.up n)
    rw [Option.bind_assoc]
    exact Option.bind_congr fun p _ => ih p

theorem hasOp_of_parent {i p : OpId} (hp : g.parent i = some p) : g.HasOp i := by
  obtain ⟨b, hb, -⟩ := Option.bind_eq_some_iff.mp hp
  exact hasOp_of_block_eq_some hb

/-- The operation `p` around a block is there. -/
theorem hasOp_of_blockParent (h : g.WellFormed) {b : BlockId} {p : OpId}
    (hp : g.blockParent b = some p) : g.HasOp p := by
  obtain ⟨⟨q, r⟩, hr, rfl⟩ := Option.map_eq_some_iff.mp hp
  exact h.owned.hasOp_of_home hr

theorem hasBlock_of_blockParent {b : BlockId} {p : OpId} (h : g.blockParent b = some p) :
    g.HasBlock b := by
  obtain ⟨r, hr, -⟩ := Option.map_eq_some_iff.mp h
  exact hasBlock_of_home_eq_some hr

/-- The first operation `a` with the property `P` on the way up is fewer levels up than there are
operations: the operations on the way differ, since going on from one of them always leads to the
same place. -/
theorem lt_size_of_up {P : OpId → Prop} {n : Nat} {i a : OpId} (hn : g.up n i = some a) (ha : P a)
    (hfirst : ∀ m < n, ∀ x, g.up m i = some x → ¬ P x) (hthere : g.HasOp a) :
    n < g.ops.size := by
  have hsome : ∀ m ≤ n, ∃ x, g.up m i = some x ∧ g.HasOp x := by
    intro m hm
    rcases Nat.lt_or_eq_of_le hm with hlt | rfl
    · -- an operation with another one around it is there
      have hnext : (g.up (m + 1) i).isSome := by
        have hsplit := up_add (g := g) (m + 1) (n - (m + 1)) i
        rw [Nat.add_sub_cancel' hlt, hn] at hsplit
        obtain ⟨x, hx, -⟩ := Option.bind_eq_some_iff.mp hsplit.symm
        exact Option.isSome_of_mem hx
      rw [up_succ] at hnext
      obtain ⟨p, hp⟩ := Option.isSome_iff_exists.mp hnext
      obtain ⟨x, hx, hxp⟩ := Option.bind_eq_some_iff.mp hp
      exact ⟨x, hx, hasOp_of_parent hxp⟩
    · exact ⟨a, hn, hthere⟩
  choose f hf hfthere using fun m : Fin (n + 1) => hsome m (Nat.lt_succ_iff.mp m.isLt)
  -- a repetition would put `a` on an earlier level
  have hdistinct : ∀ m k : Fin (n + 1), m.val < k.val → f m ≠ f k := by
    intro m k hlt heq
    have hrest := up_add (g := g) k.val (n - k.val) i
    rw [Nat.add_sub_cancel' (Nat.lt_succ_iff.mp k.isLt), hn, hf k, ← heq, ← hf m, ← up_add] at hrest
    exact hfirst (m.val + (n - k.val)) (by omega) a hrest.symm ha
  have hinjective : Function.Injective fun m : Fin (n + 1) =>
      (⟨(f m).index, hfthere m⟩ : Fin g.ops.size) := by
    intro m k heq
    have hsame : f m = f k := by
      have hindex : (f m).index = (f k).index := congrArg Fin.val heq
      cases hm : f m
      cases hk : f k
      rw [hm, hk] at hindex
      exact congrArg OpId.mk hindex
    rcases Nat.lt_trichotomy m.val k.val with hlt | heq | hgt
    · exact absurd hsame (hdistinct m k hlt)
    · exact Fin.ext heq
    · exact absurd hsame.symm (hdistinct k m hgt)
  have hcard := Fintype.card_le_of_injective _ hinjective
  rw [Fintype.card_fin, Fintype.card_fin] at hcard
  exact hcard

/-! ## Inside an operation -/

/-- An operation is `root` or lies inside it. -/
inductive Inside (g : Graph) (root : OpId) : OpId → Prop
  | root : Inside g root root
  | step {i p : OpId} (hp : g.parent i = some p) (h : Inside g root p) : Inside g root i

theorem inside_iff_up {root i : OpId} : g.Inside root i ↔ ∃ n, g.up n i = some root := by
  constructor
  · intro h
    induction h with
    | root => exact ⟨0, rfl⟩
    | step hp _ ih =>
      obtain ⟨n, hn⟩ := ih
      refine ⟨n + 1, ?_⟩
      rw [up, hp]
      exact hn
  · rintro ⟨n, hn⟩
    induction n generalizing i with
    | zero =>
      cases hn
      exact .root
    | succ n ih =>
      obtain ⟨p, hp, hpn⟩ := Option.bind_eq_some_iff.mp hn
      exact .step hp (ih hpn)

theorem inside_iff_up_lt {root i : OpId} (hroot : g.HasOp root) :
    g.Inside root i ↔ ∃ n < g.ops.size, g.up n i = some root := by
  rw [inside_iff_up]
  constructor
  · intro h
    -- the first time that the walk comes by `root` is early enough
    have hmin : ∀ m < Nat.find h, ∀ x, g.up m i = some x → ¬ root = x := by
      rintro m hm x hx rfl
      exact Nat.find_min h hm hx
    exact ⟨Nat.find h, lt_size_of_up (Nat.find_spec h) rfl hmin hroot, Nat.find_spec h⟩
  · rintro ⟨n, -, hn⟩
    exact ⟨n, hn⟩

theorem Inside.hasOp {root i : OpId} (hinside : g.Inside root i) (hroot : g.HasOp root) :
    g.HasOp i := by
  cases hinside with
  | root => exact hroot
  | step hp _ => exact hasOp_of_parent hp

/-- An operation `root` with something else inside is there. -/
theorem Inside.hasOp_root {root i : OpId} (hinside : g.Inside root i) (h : g.WellFormed)
    (hne : i ≠ root) : g.HasOp root := by
  induction hinside with
  | root => exact absurd rfl hne
  | @step i p hp _ ih =>
    by_cases hroot : p = root
    · obtain ⟨b, -, hb⟩ := Option.bind_eq_some_iff.mp hp
      exact hroot ▸ hasOp_of_blockParent h hb
    · exact ih hroot

/-- `children` of `i` are the operations whose `parent` it is. -/
theorem mem_children_iff (h : g.WellFormed) {i c : OpId} :
    c ∈ g.children i ↔ g.parent c = some i := by
  unfold children parent
  rw [List.mem_flatMap, Option.bind_eq_some_iff]
  refine exists_congr fun b => ?_
  rw [h.owned.mem_regions_iff, ← h.members.mem_iff, and_comm, blockParent, Option.map_eq_some_iff]
  refine and_congr_right fun _ => ⟨?_, ?_⟩
  · rintro ⟨r, hr⟩
    exact ⟨⟨i, r⟩, hr, rfl⟩
  · rintro ⟨⟨j, r⟩, hr, rfl⟩
    exact ⟨r, hr⟩

theorem mem_postorderTo_iff (h : g.WellFormed) (n : Nat) {i j : OpId} :
    j ∈ g.postorderTo n i ↔ ∃ m < n, g.up m j = some i := by
  induction n generalizing i with
  | zero => exact ⟨nofun, fun ⟨_, hm, _⟩ => absurd hm (Nat.not_lt_zero _)⟩
  | succ n ih =>
    -- the walk goes down from `i`, so the last level of the way up is split off
    rw [postorderTo, List.mem_append, List.mem_flatMap, List.mem_singleton]
    constructor
    · rintro (⟨c, hc, hj⟩ | rfl)
      · obtain ⟨m, hm, hup⟩ := ih.mp hj
        refine ⟨m + 1, Nat.succ_lt_succ hm, ?_⟩
        rw [up_succ, hup]
        exact (mem_children_iff h).mp hc
      · exact ⟨0, Nat.succ_pos n, rfl⟩
    · rintro ⟨m, hm, hup⟩
      cases m with
      | zero =>
        cases hup
        exact Or.inr rfl
      | succ m =>
        rw [up_succ] at hup
        obtain ⟨c, hc, hci⟩ := Option.bind_eq_some_iff.mp hup
        exact Or.inl ⟨c, (mem_children_iff h).mpr hci, ih.mpr ⟨m, Nat.lt_of_succ_lt_succ hm, hc⟩⟩

/-- `postorder` has exactly what lies inside `root`. -/
theorem mem_postorder_iff (h : g.WellFormed) {root i : OpId} (hroot : g.HasOp root) :
    i ∈ g.postorder root ↔ g.Inside root i := by
  rw [postorder, mem_postorderTo_iff h, inside_iff_up_lt hroot]

theorem mem_chain_iff (n : Nat) {i a : OpId} : a ∈ g.chain n i ↔ ∃ m < n, g.up m i = some a := by
  induction n generalizing i with
  | zero => exact ⟨nofun, fun ⟨_, hm, _⟩ => absurd hm (Nat.not_lt_zero _)⟩
  | succ n ih =>
    rw [chain, List.mem_cons]
    constructor
    · rintro (rfl | ha)
      · exact ⟨0, Nat.succ_pos n, rfl⟩
      · cases hp : g.parent i with
        | none =>
          rw [hp] at ha
          cases ha
        | some p =>
          rw [hp] at ha
          obtain ⟨m, hm, hup⟩ := ih.mp ha
          refine ⟨m + 1, Nat.succ_lt_succ hm, ?_⟩
          rw [up, hp]
          exact hup
    · rintro ⟨m, hm, hup⟩
      cases m with
      | zero =>
        cases hup
        exact Or.inl rfl
      | succ m =>
        obtain ⟨p, hp, hup⟩ := Option.bind_eq_some_iff.mp hup
        rw [hp]
        exact Or.inr (ih.mpr ⟨m, Nat.lt_of_succ_lt_succ hm, hup⟩)

theorem inside_of_isAncestorOf {root i : OpId} (h : g.isAncestorOf root i = true) :
    g.Inside root i := by
  rw [isAncestorOf, List.contains_iff_mem, ancestors, mem_chain_iff] at h
  obtain ⟨n, -, hn⟩ := h
  exact inside_iff_up.mpr ⟨n, hn⟩

/-! ## The operation around an operation in a block -/

/-- `a` lies in block `b` and is, of the operation and those around it, the innermost that does. -/
inductive Encloses (g : Graph) (b : BlockId) (a : OpId) : OpId → Prop
  | here (ha : (g.op a).block = some b) : Encloses g b a a
  | outer {i p : OpId} (hi : (g.op i).block ≠ some b) (hp : g.parent i = some p)
      (h : Encloses g b a p) : Encloses g b a i

namespace Encloses

variable {a i : OpId} {b : BlockId}

theorem block (h : g.Encloses b a i) : (g.op a).block = some b := by
  induction h with
  | here ha => exact ha
  | outer _ _ _ ih => exact ih

/-- In its own block `i` is enclosed by itself. -/
theorem eq_of_block (h : g.Encloses b a i) (hi : (g.op i).block = some b) : a = i := by
  cases h with
  | here => rfl
  | outer hne => exact absurd hi hne

/-- What encloses an operation of `S` is in `S`, if `S` has with an operation the one around it. -/
theorem mem {S : OpId → Prop} (h : g.Encloses b a i)
    (hclosed : ∀ x p, S x → g.parent x = some p → S p) (hi : S i) : S a := by
  induction h with
  | here => exact hi
  | outer _ hp _ ih => exact ih (hclosed _ _ hi hp)

theorem iff_up : g.Encloses b a i ↔ ∃ n, g.up n i = some a ∧ (g.op a).block = some b ∧
    ∀ m < n, ∀ x, g.up m i = some x → ¬ (g.op x).block = some b := by
  constructor
  · intro h
    induction h with
    | here ha => exact ⟨0, rfl, ha, fun _ hm => absurd hm (Nat.not_lt_zero _)⟩
    | @outer i p hi hp _ ih =>
      obtain ⟨n, hn, ha, hfirst⟩ := ih
      refine ⟨n + 1, ?_, ha, fun m hm x hx => ?_⟩
      · rw [up, hp]
        exact hn
      · cases m with
        | zero =>
          cases hx
          exact hi
        | succ m =>
          rw [up, hp] at hx
          exact hfirst m (Nat.lt_of_succ_lt_succ hm) x hx
  · rintro ⟨n, hn, ha, hfirst⟩
    induction n generalizing i with
    | zero =>
      cases hn
      exact .here ha
    | succ n ih =>
      obtain ⟨p, hp, hpn⟩ := Option.bind_eq_some_iff.mp hn
      refine .outer (hfirst 0 (Nat.succ_pos n) i rfl) hp (ih hpn fun m hm x hx => ?_)
      refine hfirst (m + 1) (Nat.succ_lt_succ hm) x ?_
      rw [up, hp]
      exact hx

/-- What encloses an operation depends on where the operations around it lie only: it is the same in
a graph that has those of `S` in the same places, if `S` has with an operation the one around it. -/
theorem congr {S : OpId → Prop} (hblock : ∀ x, S x → (g'.op x).block = (g.op x).block)
    (hparent : ∀ x, S x → g'.parent x = g.parent x)
    (hclosed : ∀ x p, S x → g.parent x = some p → S p) (hi : S i) :
    g'.Encloses b a i ↔ g.Encloses b a i := by
  constructor
  · intro h
    induction h with
    | here ha => exact .here (hblock _ hi ▸ ha)
    | outer hne hp _ ih =>
      rw [hblock _ hi] at hne
      rw [hparent _ hi] at hp
      exact .outer hne hp (ih (hclosed _ _ hi hp))
  · intro h
    induction h with
    | here ha => exact .here ((hblock _ hi).trans ha)
    | outer hne hp _ ih =>
      refine .outer ?_ ((hparent _ hi).trans hp) (ih (hclosed _ _ hi hp))
      rwa [hblock _ hi]

end Encloses

theorem find?_chain {p : OpId → Bool} (n : Nat) {i a : OpId} :
    (g.chain n i).find? p = some a ↔ ∃ m < n, g.up m i = some a ∧ p a = true ∧
      ∀ k < m, ∀ x, g.up k i = some x → ¬ p x = true := by
  induction n generalizing i with
  | zero => exact ⟨nofun, fun ⟨_, hm, _⟩ => absurd hm (Nat.not_lt_zero _)⟩
  | succ n ih =>
    rw [chain, List.find?_cons]
    -- level 0 is the operation itself, and a match there ends the search
    cases hpi : p i with
    | true =>
      constructor
      · rintro ⟨⟩
        exact ⟨0, Nat.succ_pos n, rfl, hpi, fun _ hk => absurd hk (Nat.not_lt_zero _)⟩
      · rintro ⟨m, -, hup, -, hfirst⟩
        cases m with
        | zero =>
          cases hup
          rfl
        | succ m => exact absurd hpi (hfirst 0 (Nat.succ_pos m) i rfl)
    | false =>
      have hnot : ¬ p i = true := by rw [hpi]; exact Bool.false_ne_true
      cases hp : g.parent i with
      | none =>
        constructor
        · rintro ⟨⟩
        · rintro ⟨m, -, hup, ha, -⟩
          cases m with
          | zero =>
            cases hup
            exact absurd ha hnot
          | succ m =>
            rw [up, hp] at hup
            cases hup
      | some q =>
        refine ih.trans ⟨?_, ?_⟩
        · rintro ⟨m, hm, hup, ha, hfirst⟩
          refine ⟨m + 1, Nat.succ_lt_succ hm, by rw [up, hp]; exact hup, ha, fun k hk x hx => ?_⟩
          cases k with
          | zero =>
            cases hx
            exact hnot
          | succ k =>
            rw [up, hp] at hx
            exact hfirst k (Nat.lt_of_succ_lt_succ hk) x hx
        · rintro ⟨m, hm, hup, ha, hfirst⟩
          cases m with
          | zero =>
            cases hup
            exact absurd ha hnot
          | succ m =>
            rw [up, hp] at hup
            refine ⟨m, Nat.lt_of_succ_lt_succ hm, hup, ha, fun k hk x hx => ?_⟩
            refine hfirst (k + 1) (Nat.succ_lt_succ hk) x ?_
            rw [up, hp]
            exact hx

/-- The search among `ancestors` finds exactly the operation that `Encloses`. -/
theorem find?_ancestors {i a : OpId} {b : BlockId} :
    ((g.ancestors i).find? fun x => (g.op x).block == some b) = some a ↔ g.Encloses b a i := by
  rw [ancestors, find?_chain, Encloses.iff_up]
  simp only [beq_iff_eq]
  constructor
  · rintro ⟨n, -, hn⟩
    exact ⟨n, hn⟩
  · rintro ⟨n, hn, ha, hfirst⟩
    exact ⟨n, lt_size_of_up hn ha hfirst (hasOp_of_block_eq_some ha), hn, ha, hfirst⟩

/-- `Inside` looks at the operations around `i` only. -/
theorem Inside.congr {root i : OpId} {S : OpId → Prop}
    (hparent : ∀ x, S x → g'.parent x = g.parent x)
    (hclosed : ∀ x p, S x → g.parent x = some p → S p) (hi : S i) :
    g'.Inside root i ↔ g.Inside root i := by
  constructor
  · intro h
    induction h with
    | root => exact .root
    | step hp _ ih =>
      rw [hparent _ hi] at hp
      exact .step hp (ih (hclosed _ _ hi hp))
  · intro h
    induction h with
    | root => exact .root
    | step hp _ ih => exact .step ((hparent _ hi).trans hp) (ih (hclosed _ _ hi hp))

end Multistage.Graph
