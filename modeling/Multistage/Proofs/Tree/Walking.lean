import Multistage.Builder
import Multistage.Proofs.Tree.Erasure

/-!
# Walking a tree that changes

A walk reads the lists of a tree while its visits change them. As long as a visit takes nothing out
of a block but the operation that it is given (`Pruned`), the walk does not notice: a block is read
before anything in it is visited, and what is inside an operation stays in its blocks until its own
turn comes. So the walk is the loop over the list that the tree had at its start
(`walk_eq_foldlM`).
-/

namespace Multistage

/-! ## What visits leave of the lists -/

namespace Graph

variable {g g' g'' : Graph}

/-- The regions are as they were, and so are the lists of all blocks that held nothing of `done`. -/
structure Pruned (g g' : Graph) (done : List OpId) : Prop where
  regions : ∀ j, (g'.op j).regions = (g.op j).regions
  ops : ∀ b, (∀ i ∈ done, i ∉ (g.block b).ops) → (g'.block b).ops = (g.block b).ops

namespace Pruned

theorem refl (g : Graph) (done : List OpId) : g.Pruned g done := ⟨fun _ => rfl, fun _ _ => rfl⟩

theorem trans {done more : List OpId} (h : g.Pruned g' done) (h' : g'.Pruned g'' more) :
    g.Pruned g'' (done ++ more) where
  regions j := (h'.regions j).trans (h.regions j)
  ops b hb := by
    have hsame := h.ops b fun i hi => hb i (List.mem_append_left _ hi)
    rw [h'.ops b fun i hi => hsame ▸ hb i (List.mem_append_right _ hi), hsame]

end Pruned

/-- `erase` takes `i` out of its block and leaves what is inside it where it is. -/
theorem pruned_erase {i : OpId} (hok : g.erase i = .ok g') : g.Pruned g' [i] := by
  obtain ⟨-, -, rfl⟩ := erase_eq_ok_iff.mp hok
  refine ⟨fun j => by rw [op_felled], fun b hb => ?_⟩
  rw [block_felled]
  split
  · exact List.erase_of_not_mem (hb i List.mem_cons_self)
  · rfl

/-! ## What has been visited when -/

section

variable (hwf : g.WellFormed) (honce : g.BlocksOnce) {i : OpId} (htree : g.FiniteTree i)

include hwf honce htree

/-- The trees of operations in the blocks `front` have nothing that is in a later block. -/
theorem not_mem_of_earlier_block {n : Nat} {front rest : List BlockId} {b : BlockId}
    (hsplit : (g.op i).regions.flatten = front ++ b :: rest) {x : OpId}
    (hx : x ∈ (front.flatMap fun b => (g.block b).ops).flatMap (g.postorderTo n)) :
    x ∉ (g.block b).ops := by
  intro hxb
  obtain ⟨d, hd, hdx⟩ := List.mem_flatMap.mp hx
  obtain ⟨b', hb', hdb'⟩ := List.mem_flatMap.mp hd
  have hmem : b ∈ (g.op i).regions.flatten := by simp [hsplit]
  have hmem' : b' ∈ (g.op i).regions.flatten := by simp [hsplit, hb']
  have hdx : d = x := htree.child_unique hwf (List.mem_flatMap.mpr ⟨b', hmem', hdb'⟩)
    (List.mem_flatMap.mpr ⟨b, hmem, hxb⟩) (inside_of_mem_postorderTo hwf hdx) .root
  subst hdx
  -- an operation is in one block only, and no block comes twice
  have hsame := hwf.members.block_unique hdb' hxb
  subst hsame
  have hnodup := honce.nodup_flatten hwf.owned i
  rw [hsplit, List.nodup_append] at hnodup
  exact hnodup.2.2 _ hb' _ List.mem_cons_self rfl

/-- The trees of the operations `front` are apart from the tree of a later one. -/
theorem not_inside_of_earlier_child {n : Nat} {front rest : List OpId} {c : OpId}
    (hsplit : g.children i = front ++ c :: rest) {x p : OpId}
    (hx : x ∈ front.flatMap (g.postorderTo n)) (hp : g.parent x = some p) : ¬ g.Inside c p := by
  intro hin
  obtain ⟨d, hd, hdx⟩ := List.mem_flatMap.mp hx
  -- `d` and `c` are children of one operation, and `x` lies in the trees of both
  have hdc : d = c := htree.child_unique hwf (by simp [hsplit, hd]) (by simp [hsplit])
    (inside_of_mem_postorderTo hwf hdx) (.step hp hin)
  subst hdc
  have hnodup := honce.nodup_children hwf i
  rw [hsplit, List.nodup_append] at hnodup
  exact hnodup.2.2 _ hd _ List.mem_cons_self rfl

end

end Graph

/-! ## Loops -/

theorem foldlM_flatten {m : Type → Type} [Monad m] [LawfulMonad m] {α β : Type} (f : β → α → m β)
    (lists : List (List α)) (init : β) :
    lists.flatten.foldlM f init = lists.foldlM (fun acc l => l.foldlM f acc) init := by
  induction lists generalizing init with
  | nil => rfl
  | cons l rest ih => simp only [List.flatten_cons, List.foldlM_append, List.foldlM_cons, ih]

theorem foldlM_flatMap {m : Type → Type} [Monad m] [LawfulMonad m] {α β γ : Type} (f : β → α → m β)
    (h : γ → List α) (l : List γ) (init : β) :
    (l.flatMap h).foldlM f init = l.foldlM (fun acc x => (h x).foldlM f acc) init := by
  rw [List.flatMap_def, foldlM_flatten, List.foldlM_map]

namespace BuildM

variable {α β : Type}

theorem bind_eq_ok {x : BuildM α} {f : α → BuildM β} {c c'' : Context} {b : β}
    (h : (x >>= f) c = .ok b c'') : ∃ a c', x c = .ok a c' ∧ f a c' = .ok b c'' := by
  have hrun : EStateM.bind x f c = .ok b c'' := h
  unfold EStateM.bind at hrun
  cases hx : x c with
  | ok a c' =>
    rw [hx] at hrun
    exact ⟨a, c', rfl, hrun⟩
  | error e c' =>
    rw [hx] at hrun
    cases hrun

theorem tryGraph_eq_ok {f : Graph → Except Failure Graph} {c c' : Context} {u : Unit}
    (h : tryGraph f c = .ok u c') : ∃ g, f c.graph = .ok g ∧ c' = { c with graph := g } := by
  obtain ⟨g, c₁, hread, hrest⟩ := bind_eq_ok h
  cases hread
  cases hf : f c.graph with
  | ok g =>
    rw [hf] at hrest
    cases hrest
    exact ⟨g, rfl, rfl⟩
  | error e =>
    rw [hf] at hrest
    cases hrest

/-- Work that starts the same way at `c` goes on the same way. -/
theorem bind_congr_at {x y : BuildM α} {f f' : α → BuildM β} {c : Context} (hxy : x c = y c)
    (hf : ∀ a c', y c = .ok a c' → f a c' = f' a c') : (x >>= f) c = (y >>= f') c := by
  show EStateM.bind x f c = EStateM.bind y f' c
  unfold EStateM.bind
  rw [hxy]
  cases hy : y c with
  | ok a c' => exact hf a c' hy
  | error e c' => rfl

/-- Two loops come to the same if their steps do wherever an invariant `I` of the second holds. -/
theorem foldlM_congr_at {f f' : β → α → BuildM β} {l : List α} (I : List α → β → Context → Prop)
    (hstep : ∀ front a rest acc d, l = front ++ a :: rest → I front acc d →
      f acc a d = f' acc a d ∧ ∀ acc' d', f' acc a d = .ok acc' d' → I (front ++ [a]) acc' d')
    {init : β} {c : Context} (hinit : I [] init c) : l.foldlM f init c = l.foldlM f' init c := by
  -- on what is left of the list; the invariant is about what has been gone through
  have hrest : ∀ rest front acc d, l = front ++ rest → I front acc d →
      rest.foldlM f acc d = rest.foldlM f' acc d := by
    intro rest
    induction rest with
    | nil => exact fun _ _ _ _ _ => rfl
    | cons a rest ih =>
      intro front acc d hl hI
      obtain ⟨hsame, hnext⟩ := hstep front a rest acc d hl hI
      rw [List.foldlM_cons, List.foldlM_cons]
      refine bind_congr_at hsame fun acc' d' hok => ?_
      exact ih (front ++ [a]) acc' d' (by rw [hl, List.append_assoc]; rfl) (hnext acc' d' hok)
  exact hrest l [] init c rfl hinit

end BuildM

/-! ## The walk as a loop -/

namespace Build

open BuildM

variable {α : Type} {visit : α → OpId → BuildM α}

/-- `visit` leaves the lists alone, but for the place of what it is given. -/
def Prunes (visit : α → OpId → BuildM α) : Prop :=
  ∀ acc i c acc' c', visit acc i c = .ok acc' c' → c.graph.Pruned c'.graph [i]

theorem Prunes.foldlM (hvisit : Prunes visit) {l : List OpId} {acc acc' : α} {c c' : Context}
    (hok : l.foldlM visit acc c = .ok acc' c') : c.graph.Pruned c'.graph l := by
  induction l generalizing acc c with
  | nil =>
    cases hok
    exact .refl _ _
  | cons i rest ih =>
    rw [List.foldlM_cons] at hok
    obtain ⟨acc₁, c₁, hfirst, hrest⟩ := bind_eq_ok hok
    exact (hvisit _ _ _ _ _ hfirst).trans (ih hrest)

/-- A walk through a tree is the loop over the list of the tree. The list is that of an earlier
graph `g`, since which operations outside the tree have been visited. The induction is on the depth;
what each loop keeps is that the graph is `g` but for the places of what has been visited. -/
theorem walkTo_eq_foldlM {g : Graph} (hwf : g.WellFormed) (honce : g.BlocksOnce)
    (hvisit : Prunes visit) (n : Nat) {i : OpId} (htree : g.FiniteTree i) {done : List OpId}
    {c : Context} (hpruned : g.Pruned c.graph done)
    (hdone : ∀ x ∈ done, ∀ p, g.parent x = some p → ¬ g.Inside i p) (acc : α) :
    walkTo visit n acc i c = (g.postorderTo n i).foldlM visit acc c := by
  induction n generalizing i done c acc with
  | zero => rfl
  | succ n ih =>
    show ((c.graph.op i).regions.foldlM (fun acc blocks => blocks.foldlM (fun acc b => do
      ((← graph).block b).ops.foldlM (walkTo visit n) acc) acc) acc >>= fun acc => visit acc i) c = _
    rw [hpruned.regions, ← foldlM_flatten, Graph.postorderTo, List.foldlM_append, Graph.children,
      foldlM_flatMap, foldlM_flatMap]
    refine bind_congr_at (foldlM_congr_at (fun front _ d => g.Pruned d.graph
      (done ++ (front.flatMap fun b => (g.block b).ops).flatMap (g.postorderTo n))) ?_ ?_) ?_
    · intro front b rest acc d hblocks hd
      have hmem : b ∈ (g.op i).regions.flatten := by simp [hblocks]
      -- the block is still as it was, since it is its turn only now
      have hlist : (d.graph.block b).ops = (g.block b).ops := by
        apply hd.ops
        intro x hx hxb
        rcases List.mem_append.mp hx with hx | hx
        · have hchild : x ∈ g.children i := List.mem_flatMap.mpr ⟨b, hmem, hxb⟩
          exact hdone x hx i ((Graph.mem_children_iff hwf).mp hchild) .root
        · exact Graph.not_mem_of_earlier_block hwf honce htree hblocks hx hxb
      constructor
      · show (d.graph.block b).ops.foldlM (walkTo visit n) acc d = _
        rw [hlist]
        -- the inner loop has visited the earlier blocks and the earlier operations of this one
        refine foldlM_congr_at (fun front' _ d' => g.Pruned d'.graph
          (done ++ (front.flatMap (fun b => (g.block b).ops) ++ front').flatMap
            (g.postorderTo n))) ?_ (by rwa [List.append_nil])
        intro front' child rest' acc' d' hops hd'
        have hsplit : g.children i = (front.flatMap (fun b => (g.block b).ops) ++ front') ++
            child :: (rest' ++ rest.flatMap fun b => (g.block b).ops) := by
          simp [Graph.children, hblocks, hops]
        constructor
        · -- nothing inside the child has been visited, so the induction hypothesis applies to it
          refine ih (htree.child (by simp [hsplit])) hd' (fun x hx p hp hin => ?_) acc'
          rcases List.mem_append.mp hx with hx | hx
          · have hchild : child ∈ g.children i := by simp [hsplit]
            exact hdone x hx p hp ((Graph.inside_child hwf hchild).trans hin)
          · exact Graph.not_inside_of_earlier_child hwf honce htree hsplit hx hp hin
        · intro acc'' d'' hok
          have hlater := hd'.trans (hvisit.foldlM hok)
          simpa [List.append_assoc] using hlater
      · intro acc' d' hok
        rw [← foldlM_flatMap] at hok
        have hlater := hd.trans (hvisit.foldlM hok)
        simpa [List.append_assoc] using hlater
    · simpa using hpruned
    · intro acc' c' _
      simp

theorem walk_eq_foldlM {c : Context} (hwf : c.graph.WellFormed) (honce : c.graph.BlocksOnce)
    (hvisit : Prunes visit) {root : OpId} (htree : c.graph.FiniteTree root) (acc : α) :
    walk visit acc root c = (c.graph.postorder root).foldlM visit acc c :=
  walkTo_eq_foldlM hwf honce hvisit c.graph.ops.size htree (.refl c.graph []) (by simp) acc

/-- `visit` that also notes what it was given. -/
def recording (visit : α → OpId → BuildM α) (noted : α × List OpId) (i : OpId) :
    BuildM (α × List OpId) := do
  let acc ← visit noted.1 i
  return (acc, noted.2 ++ [i])

theorem foldlM_recording (l seen : List OpId) (acc : α) :
    l.foldlM (recording visit) (acc, seen) = do
      let acc ← l.foldlM visit acc
      return (acc, seen ++ l) := by
  induction l generalizing acc seen with
  | nil => simp
  | cons i rest ih => simp [recording, ih]

theorem Prunes.recording (hvisit : Prunes visit) : Prunes (recording visit) := by
  intro noted i c noted' c' hok
  obtain ⟨acc, c₁, hfirst, hrest⟩ := bind_eq_ok hok
  cases hrest
  exact hvisit _ _ _ _ _ hfirst

/-- `walk` with a `visit` that does nothing to the graph but erase what it is given comes by the
operations in the order of `postorder` of the tree as it was at the start. The list has what lies
inside `root`, once each, an operation after what is inside it and the operations of a block in
their order. -/
theorem walk_visits_postorder {c : Context} (h : Reachable c) (hacyclic : c.graph.Acyclic)
    {root : OpId} (hroot : c.graph.HasOp root)
    (hvisit : ∀ acc i d acc' d', visit acc i d = .ok acc' d' →
      d'.graph = d.graph ∨ d.graph.erase i = .ok d'.graph) (acc : α) :
    (walk (recording visit) (acc, []) root c = EStateM.run (do
        let acc ← (c.graph.postorder root).foldlM visit acc
        return (acc, c.graph.postorder root)) c) ∧
      (c.graph.postorder root).Nodup ∧
      (∀ i, i ∈ c.graph.postorder root ↔ c.graph.isAncestorOf root i = true) ∧
      (∀ i j, c.graph.isAncestorOf root i = true → c.graph.isAncestorOf i j = true → j ≠ i →
        [j, i].Sublist (c.graph.postorder root)) ∧
      ∀ b p i j, c.graph.blockParent b = some p → c.graph.isAncestorOf root p = true →
        [i, j].Sublist (c.graph.block b).ops → [i, j].Sublist (c.graph.postorder root) := by
  have hwf := h.sound.graph
  have honce := Graph.BlocksOnce.reachable h
  have htree := hacyclic.finiteTree hwf hroot
  have hfits := hacyclic.fits hwf hroot
  have hprunes : Prunes visit := by
    intro acc i d acc' d' hok
    rcases hvisit acc i d acc' d' hok with hsame | herase
    · rw [hsame]
      exact .refl _ _
    · exact Graph.pruned_erase herase
  refine ⟨?_, Graph.nodup_postorderTo hwf honce htree _, fun i => ?_, fun i j hi hj hne => ?_,
    fun b p i j hb hp hij => ?_⟩
  · rw [walk_eq_foldlM hwf honce hprunes.recording htree, foldlM_recording, List.nil_append]
    rfl
  · rw [Graph.mem_postorder_iff hwf hroot, Graph.isAncestorOf_iff hroot]
  · exact Graph.pair_sublist_postorder_of_inside hwf hfits (Graph.inside_of_isAncestorOf hi)
      (Graph.inside_of_isAncestorOf hj) hne
  · exact Graph.pair_sublist_postorder_of_block hwf hfits hb (Graph.inside_of_isAncestorOf hp) hij

/-- A visit that erases what nothing reads. -/
def eraseUnread (_ : Unit) (i : OpId) : BuildM Unit := do
  let g ← graph
  if (g.op i).results.all fun v => (g.value v).uses.isEmpty then erase i

/-- A `func` with a loop; in the loop are a sum, a constant that nothing reads, and a yield that
reads the sum. -/
def wasteful : List Request := [
  .createDetached { name := Kinds.func },
  .addBlock ⟨0⟩ 0,
  .addArgument ⟨0⟩ (some Ty.i32),
  .moveToEnd (some ⟨0⟩),
  .create
    { name := Kinds.forLoop, segments := [[some ⟨0⟩], [some ⟨0⟩], [some ⟨0⟩], [some ⟨0⟩]],
      results := [some Ty.i32] },
  .create { name := Kinds.ret },
  .addBlock ⟨1⟩ 0,
  .addArgument ⟨1⟩ (some Ty.i32),
  .addArgument ⟨1⟩ (some Ty.i32),
  .moveToEnd (some ⟨1⟩),
  .create { name := Kinds.addI, operands := [some ⟨2⟩, some ⟨3⟩], results := [some Ty.i32] },
  .create { name := Kinds.constant, results := [some Ty.i32] },
  .create { name := Kinds.yield, operands := [some ⟨4⟩] }]

theorem eraseUnread_ok {acc acc' : Unit} {i : OpId} {d d' : Context}
    (hok : eraseUnread acc i d = .ok acc' d') :
    d'.graph = d.graph ∨ d.graph.erase i = .ok d'.graph := by
  obtain ⟨g, d₁, hread, hrest⟩ := bind_eq_ok hok
  cases hread
  split at hrest
  · obtain ⟨g, herase, rfl⟩ := tryGraph_eq_ok hrest
    exact Or.inr herase
  · cases hrest
    exact Or.inl rfl

/-- In `wasteful` the loop, which is erased with the sum in it, is visited although what was in it
is gone, and the `func` is visited last. -/
theorem wasteful_walked :
    Reachable (Request.run wasteful {}) ∧ (Request.run wasteful {}).graph.Acyclic ∧
      ∃ d, walk (recording eraseUnread) ((), []) ⟨0⟩ (Request.run wasteful {}) =
          .ok ((), [⟨3⟩, ⟨4⟩, ⟨5⟩, ⟨1⟩, ⟨2⟩, ⟨0⟩]) d ∧
        (d.graph.op ⟨3⟩).erased = true ∧ (d.graph.block ⟨1⟩).ops = [⟨3⟩] := by
  have hreachable : Reachable (Request.run wasteful {}) :=
    (Reachable.fresh .collect 0).run (by decide +kernel)
  have hacyclic : (Request.run wasteful {}).graph.Acyclic := by decide +kernel
  have hlist : (Request.run wasteful {}).graph.postorder ⟨0⟩ =
      [⟨3⟩, ⟨4⟩, ⟨5⟩, ⟨1⟩, ⟨2⟩, ⟨0⟩] := by decide +kernel
  have hroot : (Request.run wasteful {}).graph.HasOp ⟨0⟩ := by decide +kernel
  obtain ⟨hwalk, -⟩ := walk_visits_postorder hreachable hacyclic hroot
    (fun _ _ _ _ _ => eraseUnread_ok) ()
  rw [hlist] at hwalk
  have hrun : (match [⟨3⟩, ⟨4⟩, ⟨5⟩, ⟨1⟩, ⟨2⟩, ⟨0⟩].foldlM eraseUnread ()
      (Request.run wasteful {}) with
    | .error _ _ => false
    | .ok _ d => (d.graph.op ⟨3⟩).erased && (d.graph.block ⟨1⟩).ops == [⟨3⟩]) = true := by
    decide +kernel
  cases hd : [⟨3⟩, ⟨4⟩, ⟨5⟩, ⟨1⟩, ⟨2⟩, ⟨0⟩].foldlM eraseUnread () (Request.run wasteful {}) with
  | error e d =>
    rw [hd] at hrun
    cases hrun
  | ok u d =>
    rw [hd, Bool.and_eq_true, beq_iff_eq] at hrun
    exact ⟨hreachable, hacyclic, d, hwalk.trans (bind_of_ok hd _), hrun⟩

end Build

end Multistage
