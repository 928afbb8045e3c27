import Multistage.Proofs.Predication.ConditionalBuilding

/-!
# The order of what is built

The cursor stands before an operation and not at a position: what is put there comes after all that
was put there earlier, and the builder moves the cursor on before it erases the operation that the
cursor stands before. So a builder that creates, inserts, copies, erases and replaces never loses its
place, and its block ends up with what was there before the cursor, then what was put there, then
what was there after the cursor, each in its order and without what was erased
(`run_keeps_creation_order`).
-/

namespace Multistage

open BuildM Build

/-- `e` says that the cursor stands before an operation that is no longer in its block. -/
def Failure.LosesPoint (e : Failure) : Prop := ∃ label, e = .misuse (.lostInsertionPoint label)

namespace Graph

variable {g g' g'' : Graph} {l : List OpId}

/-! ## Survivors -/

/-- The operations of `l` that were not erased on the way from `g` to `g'`. -/
def survivors (g g' : Graph) (l : List OpId) : List OpId :=
  l.filter fun i => (g'.op i).erased == (g.op i).erased

theorem survivors_eq_self (h : ∀ i ∈ l, (g'.op i).erased = (g.op i).erased) :
    g.survivors g' l = l :=
  List.filter_eq_self.mpr fun i hi => beq_iff_eq.mpr (h i hi)

theorem survivors_append (g g' : Graph) (l l' : List OpId) :
    g.survivors g' (l ++ l') = g.survivors g' l ++ g.survivors g' l' :=
  List.filter_append l l'

/-- What is erased stays erased, so `survivors` of the whole way are those of both parts of it. -/
theorem survivors_survivors (h : ∀ i, (g.op i).erased = true → (g'.op i).erased = true)
    (h' : ∀ i, (g'.op i).erased = true → (g''.op i).erased = true) (l : List OpId) :
    g'.survivors g'' (g.survivors g' l) = g.survivors g'' l := by
  rw [survivors, survivors, List.filter_filter]
  refine List.filter_congr fun i _ => ?_
  have hfirst := h i
  have hsecond := h' i
  cases hg : (g.op i).erased <;> cases hg' : (g'.op i).erased <;> cases hg'' : (g''.op i).erased <;>
    simp_all

theorem next_of_ops (h : g.MembersAgree) {b : BlockId} {i : OpId} {front rest : List OpId}
    (hops : (g.block b).ops = front ++ i :: rest) : g.next i = rest.head? := by
  have hb : (g.op i).block = some b :=
    (h.mem_iff i b).mpr (hops ▸ List.mem_append_right _ List.mem_cons_self)
  have hk : (front ++ i :: rest).idxOf? i = some front.length :=
    idxOf?_append_cons (hops ▸ h.nodup b)
  simp only [next, hb, Option.bind_eq_bind, Option.bind_some, hops, hk]
  rw [List.getElem?_append_right (Nat.le_add_right _ 1), Nat.add_sub_cancel_left,
    List.getElem?_cons_succ, List.head?_eq_getElem?]

/-- Of the operations of block `b` only `i` itself lies inside `i`, unless the block does. -/
theorem eq_of_inside_of_mem (h : g.MembersAgree) {b : BlockId} {i j : OpId}
    (hj : j ∈ (g.block b).ops) (hout : ∀ p ∈ g.blockParent b, ¬ g.Inside i p)
    (hin : g.Inside i j) : j = i := by
  cases hin with
  | root => rfl
  | step hp hin =>
    rw [parent, (h.mem_iff j b).mpr hj] at hp
    exact absurd hin (hout _ hp)

end Graph

namespace Context

variable {c c' c'' : Context} {b : BlockId} {front new new' back : List OpId}

/-! ## The place of the cursor -/

/-- The cursor stands in block `b`, after `front` and before `back`. -/
structure Between (c : Context) (b : BlockId) (front back : List OpId) : Prop where
  block : c.cursor.block = some b
  before : c.cursor.before = back.head?
  ops : (c.graph.block b).ops = front ++ back

theorem Between.at (h : c.Between b front back) (hmembers : c.graph.MembersAgree) :
    c.At b front.length := by
  refine ⟨h.block, ?_⟩
  rw [h.before, h.ops]
  cases back with
  | nil => rw [List.head?_nil, List.append_nil]
  | cons i rest => exact idxOf?_append_cons (h.ops ▸ hmembers.nodup b)

/-- On the way from `c` to `c'` the operations `new` were put between `front` and `back`, one after
the other, and some operations were erased. -/
structure Builds (c c' : Context) (b : BlockId) (front new back : List OpId) : Prop where
  point : c'.Between b (c.graph.survivors c'.graph front ++ c.graph.survivors c'.graph new)
    (c.graph.survivors c'.graph back)
  marks : ∀ i, (c.graph.op i).erased = true → (c'.graph.op i).erased = true
  live : ∀ i ∈ new, (c.graph.op i).erased = false

namespace Builds

theorem refl (h : c.Between b front back) : c.Builds c b front [] back where
  point := by
    simp only [Graph.survivors_eq_self fun _ _ => rfl, List.append_nil]
    exact h
  marks _ hi := hi
  live := nofun

theorem trans (h : c.Builds c' b front new back)
    (h' : c'.Builds c'' b (c.graph.survivors c'.graph front ++ c.graph.survivors c'.graph new) new'
      (c.graph.survivors c'.graph back)) : c.Builds c'' b front (new ++ new') back := by
  have hlive : ∀ i ∈ new', (c.graph.op i).erased = false := by
    intro i hi
    refine Bool.eq_false_iff.mpr fun herased => ?_
    have hlate := h'.live i hi
    rw [h.marks i herased] at hlate
    cases hlate
  have hboth := Graph.survivors_survivors h.marks h'.marks
  -- what is put there later was not erased on the first part of the way
  have hsame : c.graph.survivors c''.graph new' = c'.graph.survivors c''.graph new' :=
    List.filter_congr fun i hi => by rw [hlive i hi, h'.live i hi]
  refine ⟨⟨h'.point.block, ?_, ?_⟩, fun i hi => h'.marks i (h.marks i hi), fun i hi => ?_⟩
  · rw [h'.point.before, hboth]
  · rw [h'.point.ops, Graph.survivors_append, Graph.survivors_append, hboth, hboth, hboth, hsame,
      List.append_assoc (c.graph.survivors _ _)]
  · rcases List.mem_append.mp hi with hi | hi
    · exact h.live i hi
    · exact hlive i hi

/-- `Builds` does not see the redirection of operands, which leaves all `Standing`. -/
theorem of_standing {g : Graph} (hstanding : c.graph.Standing g)
    (h : Builds { c with graph := g } c' b front new back) : c.Builds c' b front new back := by
  have hsurvivors : c.graph.survivors c'.graph = g.survivors c'.graph := by
    funext l
    simp only [Graph.survivors, hstanding.erased]
  refine ⟨?_, fun i hi => h.marks i ((hstanding.erased i).trans hi), fun i hi => ?_⟩
  · rw [hsurvivors]
    exact h.point
  · exact (hstanding.erased i).symm.trans (h.live i hi)

/-- `place` puts operation `i` at the cursor, into a graph `g` that may have got new rows for it. -/
theorem place (h : c.Between b front back) (hsound : c.Sound) {g : Graph} {i : OpId}
    (hops : (g.block b).ops = (c.graph.block b).ops) (hb : g.HasBlock b)
    (hkept : ∀ j, c.graph.HasOp j → (g.op j).erased = (c.graph.op j).erased)
    (hlive : (g.op i).erased = false) :
    c.Builds { c with graph := g.place b front.length i } b front [i] back := by
  have herased : ∀ j, ((g.place b front.length i).op j).erased = (g.op j).erased := by
    intro j
    rw [Graph.op_place]
    split <;> rfl
  have hi : (c.graph.op i).erased = false := by
    by_cases hi : c.graph.HasOp i
    · exact (hkept i hi).symm.trans hlive
    · -- a row that is not there counts as not erased
      rw [Graph.op_of_not_hasOp hi]
      rfl
  have hlisted : ∀ j ∈ front ++ back, c.graph.HasOp j := fun j hj =>
    hsound.graph.members.hasOp (h.ops ▸ hj)
  have hfront : c.graph.survivors (g.place b front.length i) front = front :=
    Graph.survivors_eq_self fun j hj =>
      (herased j).trans (hkept j (hlisted j (List.mem_append_left _ hj)))
  have hback : c.graph.survivors (g.place b front.length i) back = back :=
    Graph.survivors_eq_self fun j hj =>
      (herased j).trans (hkept j (hlisted j (List.mem_append_right _ hj)))
  have hnew : c.graph.survivors (g.place b front.length i) [i] = [i] := by
    refine Graph.survivors_eq_self fun j hj => ?_
    rw [List.mem_singleton.mp hj, herased, hlive, hi]
  refine ⟨⟨h.block, ?_, ?_⟩, fun j hj => ?_, fun j hj => ?_⟩
  · rw [hback]
    exact h.before
  · rw [hfront, hnew, hback]
    show ((g.place b front.length i).block b).ops = _
    rw [Graph.block_place, if_pos ⟨rfl, hb⟩]
    show (g.block b).ops.insertIdx front.length i = _
    rw [hops, h.ops, insertIdx_eq_append (by simp), List.take_left, List.drop_left,
      List.append_assoc, List.singleton_append]
  · -- only a row that is there can be marked
    have hthere : c.graph.HasOp j := by
      by_contra hout
      rw [Graph.op_of_not_hasOp hout] at hj
      cases hj
    exact ((herased j).trans (hkept j hthere)).trans hj
  · rw [List.mem_singleton.mp hj, hi]

end Builds

/-! ## Erasing -/

/-- The cursor of `c` after it has been moved off operation `i`. -/
def leaving (c : Context) (i : OpId) : Cursor :=
  if c.cursor.before = some i then { c.cursor with before := c.graph.next i } else c.cursor

theorem block_leaving (c : Context) (i : OpId) : (c.leaving i).block = c.cursor.block := by
  unfold leaving
  split <;> rfl

theorem Between.before_leaving (h : c.Between b front back) (hmembers : c.graph.MembersAgree)
    (i : OpId) : (c.leaving i).before = (back.filter (· != i)).head? := by
  have hnodup : (front ++ back).Nodup := h.ops ▸ hmembers.nodup b
  unfold leaving
  rw [h.before]
  cases back with
  | nil =>
    rw [if_neg (by simp), h.before]
    rfl
  | cons j rest =>
    rw [List.head?_cons]
    by_cases hj : j = i
    · -- the operation that the cursor stands before is there once
      subst hj
      have hrest : ∀ k ∈ rest, (k != j) = true := by
        intro k hk
        rw [bne_iff_ne]
        rintro rfl
        exact (List.nodup_cons.mp (List.nodup_append.mp hnodup).2.1).1 hk
      rw [if_pos rfl, List.filter_cons_of_neg (by simp), List.filter_eq_self.mpr hrest]
      exact Graph.next_of_ops hmembers h.ops
    · rw [if_neg (by simpa using hj), List.filter_cons_of_pos (by simpa using hj), h.before]
      rfl

/-- `felled i` takes away an operation that block `b` does not lie in. -/
theorem Builds.felled (h : c.Between b front back) (hwf : c.graph.WellFormed) {i : OpId}
    (hi : c.graph.HasOp i) (hlive : (c.graph.op i).erased = false)
    (hout : ∀ p ∈ c.graph.blockParent b, ¬ c.graph.Inside i p) :
    c.Builds { c with graph := c.graph.felled i, cursor := c.leaving i } b front [] back := by
  -- of what is in the block, only the operation itself is marked
  have hmark : ∀ j ∈ front ++ back,
      (((c.graph.felled i).op j).erased == (c.graph.op j).erased) = (j != i) := by
    intro j hj
    have hin : c.graph.Inside i j ↔ j = i := by
      refine ⟨fun hin => ?_, fun heq => heq ▸ .root⟩
      exact Graph.eq_of_inside_of_mem hwf.members (h.ops ▸ hj) hout hin
    have herased := Graph.erased_felled hwf hi j
    rw [hin] at herased
    by_cases heq : j = i
    · subst heq
      simp [herased.mpr (Or.inr rfl), hlive]
    · simp only [heq, or_false] at herased
      rw [Bool.eq_iff_iff.mpr herased, bne_iff_ne.mpr heq, beq_self_eq_true]
  have hsurvivors : ∀ l, (∀ j ∈ l, j ∈ front ++ back) →
      c.graph.survivors (c.graph.felled i) l = l.filter (· != i) := fun l hl =>
    List.filter_congr fun j hj => hmark j (hl j hj)
  have hfront := hsurvivors front fun _ => List.mem_append_left back
  have hback := hsurvivors back fun _ => List.mem_append_right front
  refine ⟨⟨(c.block_leaving i).trans h.block, ?_, ?_⟩, fun j hj => ?_, nofun⟩
  · rw [hback]
    exact h.before_leaving hwf.members i
  · rw [hfront, hback]
    show ((c.graph.felled i).block b).ops = _ ++ [] ++ _
    rw [Graph.ops_felled hwf.members, h.ops, List.filter_append, List.append_nil]
  · exact (Graph.erased_felled hwf hi j).mpr (Or.inl hj)

end Context

/-! ## What the builder does -/

namespace Build

variable {c : Context} {b : BlockId} {k : Nat} {i : OpId} {front back : List OpId}

/-- Where the cursor has a position, `insert` refuses an operation for its own sake only. -/
theorem ends_insert (hat : c.At b k) (i : OpId) :
    (insert i).Ends c (fun j c' => j = i ∧ (c.graph.op i).erased = false ∧
      c' = { c with graph := c.graph.place b k i }) fun e _ => ¬ e.LosesPoint := by
  refine gives_graph.ends_bind fun g c' _ hc => ?_
  obtain ⟨rfl, rfl⟩ := hc
  refine (gives_position hat _).ends_bind fun p c₁ _ hc => ?_
  obtain ⟨rfl, rfl⟩ := hc
  refine (ends_tryGraph (Q := fun _ c' => (c₁.graph.op i).erased = false ∧
    c' = { c₁ with graph := c₁.graph.place b k i }) (fun g hg => ?_) fun e he => ?_).bind
      fun _ c₂ hc => .of_ok rfl ⟨rfl, hc⟩
  · obtain ⟨-, hlive, rfl⟩ := Graph.insertAt_ok hg
    exact ⟨hlive, rfl⟩
  · rintro ⟨label, rfl⟩
    unfold Graph.insertAt at he
    split at he
    · cases he
    · split at he <;> cases he

theorem ends_createDetached (c : Context) (spec : OpSpec) :
    (createDetached spec).Ends c (fun i c' => i = c.graph.nextOp ∧
      c' = { c with graph := (c.graph.addOp (c.catalog.find? spec.name) spec).1 })
      fun e _ => ¬ e.LosesPoint := by
  refine gives_get.ends_bind fun s c' _ hc => ?_
  obtain ⟨rfl, rfl⟩ := hc
  dsimp only
  split
  · refine .of_error rfl ?_
    rintro ⟨label, hlabel⟩
    cases hlabel
  · exact .of_ok rfl ⟨rfl, rfl⟩

theorem ends_create (hat : c.At b k) (spec : OpSpec) :
    (create spec).Ends c (fun i c' => i = c.graph.nextOp ∧ ∃ loc,
      c' = Created c { spec with loc } b k) fun e _ => ¬ e.LosesPoint := by
  refine gives_cursor.ends_bind fun p c' _ hc => ?_
  obtain ⟨rfl, rfl⟩ := hc
  refine (ends_createDetached c' _).bind fun i c₁ hc => ?_
  obtain ⟨rfl, rfl⟩ := hc
  -- the new row is in no block yet, so the cursor stands where it stood
  have hat' : ∀ kind spec, Context.At { c' with graph := (c'.graph.addOp kind spec).1 } b k := by
    intro kind spec
    refine hat.congr rfl ?_
    show ((c'.graph.addOp kind spec).1.block b).ops = _
    rw [Graph.addOp_eq_install, Graph.block_install]
  refine (ends_insert (hat' _ _) _).imp (fun j c₂ hc => ?_) fun _ _ hc => hc
  obtain ⟨rfl, -, rfl⟩ := hc
  exact ⟨rfl, _, rfl⟩

theorem eraseOp_eq (c : Context) (i : OpId) :
    eraseOp i c = erase i { c with cursor := c.leaving i } := by
  have hcursor : cursor c = .ok c.cursor c := rfl
  rw [eraseOp, bind_of_ok hcursor, Context.leaving]
  split <;> rfl

theorem ends_eraseOp (hwf : c.graph.WellFormed) (hpoint : c.Between b front back)
    (hi : c.graph.HasOp i) (hout : ∀ p ∈ c.graph.blockParent b, ¬ c.graph.Inside i p) :
    (eraseOp i).Ends c (fun _ c' => c.Builds c' b front [] back) fun e _ => ¬ e.LosesPoint := by
  unfold Ends
  rw [eraseOp_eq]
  refine ends_tryGraph (fun g hg => ?_) fun e he => ?_
  · obtain ⟨hlive, -, rfl⟩ := Graph.erase_eq_ok_iff.mp hg
    exact .felled hpoint hwf hi hlive hout
  · rintro ⟨label, rfl⟩
    unfold Graph.erase at he
    split at he
    · cases he
    · split at he <;> cases he

/-- `replaceOp` is an erasure in the graph where the results have been redirected. -/
theorem ends_replaceOp (h : c.Sound) (hpoint : c.Between b front back) (hi : c.graph.HasOp i)
    (hout : ∀ p ∈ c.graph.blockParent b, ¬ c.graph.Inside i p) {vals : List (Option ValueId)}
    (hvals : ∀ v ∈ vals, c.graph.HasOptValue v) :
    (replaceOp i vals).Ends c (fun _ c' => c.Builds c' b front [] back)
      fun e _ => ¬ e.LosesPoint := by
  have hstanding := Graph.Standing.replaceAll c.graph ((c.graph.op i).results.zip vals)
  have hedits : Graph.Edits c.catalog c.graph
      (replaceAll c.graph ((c.graph.op i).results.zip vals)) :=
    edits_replaceAll h.graph fun p hp => hvals p.2 (List.of_mem_zip hp).2
  have hpoint' : Context.Between
      { c with graph := replaceAll c.graph ((c.graph.op i).results.zip vals) } b front back :=
    ⟨hpoint.block, hpoint.before, (congrArg Block.ops (hstanding.blocks b)).trans hpoint.ops⟩
  have hout' : ∀ p ∈ (replaceAll c.graph ((c.graph.op i).results.zip vals)).blockParent b,
      ¬ (replaceAll c.graph ((c.graph.op i).results.zip vals)).Inside i p := by
    intro p hp hin
    rw [Graph.blockParent, hstanding.blocks] at hp
    exact hout p hp (hstanding.inside_iff.mp hin)
  have herase := (ends_eraseOp (h.graph.edits hedits) hpoint' (hedits.within.hasOp hi) hout').imp
    (fun _ _ hc => hc.of_standing hstanding) fun _ _ he => he
  refine gives_graph.ends_bind fun g c' _ hc => ?_
  obtain ⟨rfl, rfl⟩ := hc
  dsimp only
  split
  · refine .of_error rfl ?_
    rintro ⟨label, hlabel⟩
    cases hlabel
  · exact herase

end Build

/-! ## Calls of the builder -/

/-- A call of `Build` that puts an operation at the cursor or takes one away. -/
inductive BuilderCall where
  | create (spec : OpSpec)
  | insert (i : OpId)
  | clone (i : OpId) (m : Mapping)
  | eraseOp (i : OpId)
  | replaceOp (i : OpId) (vals : List (Option ValueId))

namespace BuilderCall

/-- The call as a `Request`. -/
def request : BuilderCall → Request
  | create spec => .create spec
  | insert i => .insert i
  | clone i m => .clone i m
  | eraseOp i => .eraseOp i
  | replaceOp i vals => .replaceOp i vals

/-- Makes a `BuilderCall` and gives the operations that it has put at the cursor. -/
def perform : BuilderCall → BuildM (List OpId)
  | create spec => do return [← Build.create spec]
  | insert i => do return [← Build.insert i]
  | clone i m => do return [(← Build.clone i m).1]
  | eraseOp i => do Build.eraseOp i; return []
  | replaceOp i vals => do Build.replaceOp i vals; return []

/-- Makes calls up to the first one that fails, and gives all that `perform` has put at the cursor,
in the order of the calls. -/
def run : List BuilderCall → BuildM (List OpId)
  | [] => return []
  | call :: rest => do
    let new ← call.perform
    return new ++ (← run rest)

/-- The operations that a `BuilderCall` takes away. -/
def erases : BuilderCall → List OpId
  | create _ | insert _ | clone _ _ => []
  | eraseOp i | replaceOp i _ => [i]

/-- Every call is about things that are there when its turn comes, and takes away no operation that
block `b` lies in. -/
def ValidRun (b : BlockId) : List BuilderCall → Context → Prop
  | [], _ => True
  | call :: rest, c =>
    (call.request.refs.In c.graph ∧
      ∀ i ∈ call.erases, ∀ p ∈ c.graph.blockParent b, c.graph.isAncestorOf i p = false) ∧
      ValidRun b rest (call.request.outcome c)

instance decidableValidRun (b : BlockId) :
    (calls : List BuilderCall) → (c : Context) → Decidable (ValidRun b calls c)
  | [], _ => .isTrue trivial
  | call :: rest, c =>
    have := decidableValidRun b rest (call.request.outcome c)
    inferInstanceAs (Decidable ((_ ∧ _) ∧ _))

variable {c c' : Context} {b : BlockId} {front new back : List OpId} {call : BuilderCall}
  {calls : List BuilderCall}

theorem outcome_of_ok (hok : call.perform c = .ok new c') : call.request.outcome c = c' := by
  have hdiscard : ∀ {α : Type} {x : BuildM α} {a : α}, x c = .ok a c' →
      (discard x) c = .ok () c' := fun hx => bind_of_ok hx _
  have hperform : call.request.perform c = .ok () c' := by
    cases call with
    | create spec =>
      obtain ⟨i, c₁, hi, hpure⟩ := bind_eq_ok hok
      cases hpure
      exact hdiscard hi
    | insert i =>
      obtain ⟨j, c₁, hj, hpure⟩ := bind_eq_ok hok
      cases hpure
      exact hdiscard hj
    | clone i m =>
      obtain ⟨p, c₁, hp, hpure⟩ := bind_eq_ok hok
      cases hpure
      exact hdiscard hp
    | eraseOp i =>
      obtain ⟨_, c₁, hi, hpure⟩ := bind_eq_ok hok
      cases hpure
      exact hi
    | replaceOp i vals =>
      obtain ⟨_, c₁, hi, hpure⟩ := bind_eq_ok hok
      cases hpure
      exact hi
  rw [Request.outcome, hperform]

/-- A `BuilderCall` extends what lies between `front` and `back`, case by case. -/
theorem ends_perform (h : c.Sound) (hpoint : c.Between b front back)
    (hrefs : call.request.refs.In c.graph)
    (hout : ∀ i ∈ call.erases, ∀ p ∈ c.graph.blockParent b, c.graph.isAncestorOf i p = false) :
    call.perform.Ends c (fun new c' => c.Builds c' b front new back) fun e _ => ¬ e.LosesPoint := by
  have hat := hpoint.at h.graph.members
  have hb := hat.hasBlock h.cursor
  obtain ⟨hops, -, hvalues, -⟩ := hrefs
  have hinside : ∀ i ∈ call.erases, c.graph.HasOp i → ∀ p ∈ c.graph.blockParent b,
      ¬ c.graph.Inside i p := by
    intro i hi hthere p hp hin
    have hnot := hout i hi p hp
    rw [(Graph.isAncestorOf_iff hthere).mpr hin] at hnot
    cases hnot
  cases call with
  | create spec =>
    refine (ends_create hat spec).bind fun i c' hc => .of_ok rfl ?_
    obtain ⟨rfl, loc, rfl⟩ := hc
    have hrow := Graph.addOp_eq_install c.graph (c.catalog.find? spec.name) { spec with loc }
    refine .place hpoint h ?_ ?_ (fun j hj => ?_) ?_
    · rw [hrow, Graph.block_install]
    · rw [hrow]
      exact (Graph.within_install _ _ _ _).hasBlock hb
    · rw [hrow, Graph.op_install, if_neg hj.ne_nextOp]
    · rw [hrow, Graph.op_install, if_pos rfl]
      rfl
  | insert i =>
    refine (ends_insert hat i).bind fun j c' hc => .of_ok rfl ?_
    obtain ⟨rfl, hlive, rfl⟩ := hc
    exact .place hpoint h rfl hb (fun _ _ => rfl) hlive
  | clone i m =>
    have hm := into_of_refs hvalues
    obtain ⟨hpath, hloose, -⟩ := Graph.edits_clone c.catalog h.graph hm i
    refine (gives_clone h i hm hat).ends_bind fun p c' _ hc => .of_ok rfl ?_
    obtain ⟨rfl, rfl⟩ := hc
    refine .place hpoint h ?_ (hpath.within.hasBlock hb) (fun j hj => ?_) hloose.live
    · rw [c.graph.block_clone i m hb]
    · rw [c.graph.op_clone i m hj]
  | eraseOp i =>
    have hi := hops i List.mem_cons_self
    exact (ends_eraseOp h.graph hpoint hi (hinside i List.mem_cons_self hi)).bind
      fun _ c' hc => .of_ok rfl hc
  | replaceOp i vals =>
    have hi := hops i List.mem_cons_self
    exact (ends_replaceOp h hpoint hi (hinside i List.mem_cons_self hi) hvalues).bind
      fun _ c' hc => .of_ok rfl hc

/-- Calls of a `ValidRun` extend what lies between `front` and `back`, one after the other. -/
theorem ends_run (h : c.Sound) (hpoint : c.Between b front back) (hcalls : ValidRun b calls c) :
    (run calls).Ends c (fun new c' => c.Builds c' b front new back) fun e _ => ¬ e.LosesPoint := by
  induction calls generalizing c front back with
  | nil => exact .of_ok rfl (.refl hpoint)
  | cons call rest ih =>
    obtain ⟨⟨hrefs, hout⟩, hrest⟩ := hcalls
    obtain ⟨hbuilds, hfails⟩ := ends_perform h hpoint hrefs hout
    have hfirst : call.perform.Ends c
        (fun new c' => call.request.outcome c = c' ∧ c.Builds c' b front new back)
        fun e _ => ¬ e.LosesPoint :=
      ⟨fun new c' hok => ⟨outcome_of_ok hok, hbuilds new c' hok⟩, hfails⟩
    refine hfirst.bind fun new c' hc => ?_
    obtain ⟨rfl, hnew⟩ := hc
    -- the other calls start between the survivors of the first one
    have hsound := h.advances (advances_outcome h hrefs)
    exact (ih hsound hnew.point hrest).bind fun new' c'' hnew' => .of_ok rfl (hnew.trans hnew')

/-- Calls that succeed leave what `Request.run` leaves of their requests. -/
theorem request_run_of_ok (hok : run calls c = .ok new c') :
    Request.run (calls.map request) c = c' := by
  induction calls generalizing c new with
  | nil =>
    cases hok
    rfl
  | cons call rest ih =>
    obtain ⟨first, c₁, hfirst, hrest⟩ := bind_eq_ok hok
    obtain ⟨later, c₂, hlater, hpure⟩ := bind_eq_ok hrest
    cases hpure
    show Request.run (rest.map request) (call.request.outcome c) = c'
    rw [outcome_of_ok hfirst]
    exact ih hlater

/-- A builder stands in a block between `front` and `back`. As long as its calls do not fail for
another reason and take away nothing that the block lies in, it does not lose its place: the block
ends up with the survivors of `front`, then those of what was put there, in the order of the calls,
then those of `back`, and the cursor stands before the first survivor of `back`, or at the end. -/
theorem run_keeps_creation_order (h : Reachable c) (hpoint : c.Between b front back)
    (hcalls : ValidRun b calls c)
    (hfails : ∀ e c', run calls c = .error e c' → e.LosesPoint) :
    ∃ new c', run calls c = .ok new c' ∧
      c'.Between b (c.graph.survivors c'.graph front ++ c.graph.survivors c'.graph new)
        (c.graph.survivors c'.graph back) := by
  obtain ⟨hbuilds, hothers⟩ := ends_run h.sound hpoint hcalls
  cases hrun : run calls c with
  | ok new c' => exact ⟨new, c', rfl, (hbuilds new c' hrun).point⟩
  | error e c' => exact absurd (hfails e c' hrun) (hothers e c' hrun)

end BuilderCall

theorem BuildM.exists_ok_of_run' {α : Type} {x : BuildM α} {a : α} {c : Context}
    (h : EStateM.run' x c = some a) : ∃ c', x c = .ok a c' := by
  unfold EStateM.run' EStateM.run at h
  cases hx : x c with
  | ok a' c' =>
    rw [hx] at h
    cases h
    exact ⟨c', rfl⟩
  | error e c' =>
    rw [hx] at h
    cases h

/-- A `func` with three sums, and two more that are in no block; the cursor stands before the second
sum. -/
def sums : List Request := [
  .createDetached { name := Kinds.func },
  .addBlock ⟨0⟩ 0,
  .addArgument ⟨0⟩ (some Ty.i32),
  .moveToEnd (some ⟨0⟩),
  .create { name := Kinds.addI, operands := [some ⟨0⟩, some ⟨0⟩], results := [some Ty.i32] },
  .create { name := Kinds.addI, operands := [some ⟨0⟩, some ⟨1⟩], results := [some Ty.i32] },
  .create { name := Kinds.addI, operands := [some ⟨1⟩, some ⟨2⟩], results := [some Ty.i32] },
  .createDetached { name := Kinds.addI, operands := [some ⟨0⟩, some ⟨0⟩],
                    results := [some Ty.i32] },
  .createDetached { name := Kinds.addI, operands := [some ⟨1⟩, some ⟨1⟩],
                    results := [some Ty.i32] },
  .moveBefore ⟨2⟩]

theorem reachable_sums : Reachable (Request.run sums {}) :=
  (Reachable.fresh .collect 0).run (by decide +kernel)

/-- Calls on `sums`: the operation that the cursor stands before is replaced and the next one
erased, and so is one of the operations that were put there in the meantime. -/
def revision : List BuilderCall := [
  .create { name := Kinds.addI, operands := [some ⟨1⟩, some ⟨1⟩], results := [some Ty.i32] },
  .replaceOp ⟨2⟩ [some ⟨1⟩],
  .insert ⟨4⟩,
  .clone ⟨1⟩ {},
  .eraseOp ⟨6⟩,
  .eraseOp ⟨3⟩,
  .eraseOp ⟨5⟩,
  .create { name := Kinds.addI, operands := [some ⟨0⟩, some ⟨1⟩], results := [some Ty.i32] }]

theorem sums_revised :
    Reachable (Request.run sums {}) ∧ (Request.run sums {}).Between ⟨0⟩ [⟨1⟩] [⟨2⟩, ⟨3⟩] ∧
      BuilderCall.ValidRun ⟨0⟩ revision (Request.run sums {}) ∧
      ∃ c', BuilderCall.run revision (Request.run sums {}) = .ok [⟨6⟩, ⟨4⟩, ⟨7⟩, ⟨8⟩] c' ∧
        c'.Between ⟨0⟩ [⟨1⟩, ⟨4⟩, ⟨7⟩, ⟨8⟩] [] := by
  obtain ⟨hblock, hbefore, hops, hvalid, hrun, hfront, hnew, hback⟩ :
      (Request.run sums {}).cursor.block = some ⟨0⟩ ∧
        (Request.run sums {}).cursor.before = some ⟨2⟩ ∧
        ((Request.run sums {}).graph.block ⟨0⟩).ops = [⟨1⟩, ⟨2⟩, ⟨3⟩] ∧
        BuilderCall.ValidRun ⟨0⟩ revision (Request.run sums {}) ∧
        (BuilderCall.run revision).run' (Request.run sums {}) = some [⟨6⟩, ⟨4⟩, ⟨7⟩, ⟨8⟩] ∧
        (Request.run sums {}).graph.survivors
          (Request.run (revision.map (·.request)) (Request.run sums {})).graph [⟨1⟩] = [⟨1⟩] ∧
        (Request.run sums {}).graph.survivors
          (Request.run (revision.map (·.request)) (Request.run sums {})).graph
            [⟨6⟩, ⟨4⟩, ⟨7⟩, ⟨8⟩] = [⟨4⟩, ⟨7⟩, ⟨8⟩] ∧
        (Request.run sums {}).graph.survivors
          (Request.run (revision.map (·.request)) (Request.run sums {})).graph
            [⟨2⟩, ⟨3⟩] = [] := by decide +kernel
  have hpoint : (Request.run sums {}).Between ⟨0⟩ [⟨1⟩] [⟨2⟩, ⟨3⟩] := ⟨hblock, hbefore, hops⟩
  obtain ⟨c₁, hok⟩ := exists_ok_of_run' hrun
  obtain ⟨new, c', hok', hend⟩ := BuilderCall.run_keeps_creation_order reachable_sums hpoint hvalid
    fun e c' herror => by rw [hok] at herror; cases herror
  rw [hok] at hok'
  cases hok'
  obtain rfl := BuilderCall.request_run_of_ok hok
  rw [hfront, hnew, hback] at hend
  exact ⟨reachable_sums, hpoint, hvalid, _, hok, hend⟩

end Multistage
