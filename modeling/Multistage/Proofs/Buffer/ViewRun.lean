import Multistage.Proofs.Buffer.ViewBuilding

/-!
# Replacing a buffer

Replacing the uses of an operation goes through the slots that hold its results. A view among the
readers is built anew, then the uses of the view are replaced in the same way; the other readers are
redirected after that, and last the old views are erased. Each of these calls deals with what hangs
below its operation and leaves the rest of the stage as it was (`Finishes`). It fails only where a
view is in no block or erased already, and even then the graph is at some stage.
-/

namespace Multistage

open BuildM Build Relation

namespace Build

/-- `eraseOp` of an operation that nothing reads and has nothing inside fails only if it is erased
already. -/
theorem meets_eraseOp {c : Context} (h : c.Sound) {i : OpId} (hi : c.graph.HasOp i)
    (hleaf : c.graph.children i = [])
    (hunused : ∀ v ∈ (c.graph.op i).results, ∀ s, (c.graph.slot s).value ≠ some v) :
    (eraseOp i).Meets c (fun _ c' => c'.graph = c.graph.erasedLeaf i)
      fun _ c' => (c.graph.op i).erased = true ∧ c'.graph = c.graph := by
  -- erasing itself does the same wherever the cursor stands
  have herase : ∀ c' : Context, c'.graph = c.graph →
      (Build.erase i).Meets c' (fun _ c'' => c''.graph = c.graph.erasedLeaf i)
        fun _ c'' => (c.graph.op i).erased = true ∧ c''.graph = c.graph := by
    intro c' hgraph
    cases hlive : (c.graph.op i).erased with
    | false =>
      have hok : c'.graph.erase i = .ok (c.graph.erasedLeaf i) := by
        rw [hgraph]
        exact Graph.erase_leaf h.graph hi hlive hleaf hunused
      exact ((gives_tryGraph hok (Graph.edits_erase hok)).imp fun _ _ _ hc => by rw [hc]).meets _
    | true =>
      have hno : ∀ g, c'.graph.erase i ≠ .ok g := by
        intro g hg
        rw [hgraph, Graph.erase, if_pos hlive] at hg
        cases hg
      refine (meets_tryGraph (fun g hg => absurd hg (hno g)) fun _ _ => ⟨rfl, hgraph⟩).imp
        (fun _ _ _ hc => ?_) fun _ _ _ hR => hR
      obtain ⟨g, hg, -⟩ := hc
      exact absurd hg (hno g)
  refine (gives_cursor.meets _).bind fun p c' _ hc => ?_
  obtain ⟨rfl, rfl⟩ := hc
  have hmoved : c'.graph.HasCursor { c'.cursor with before := c'.graph.next i } :=
    ⟨h.cursor.1, fun j hj => hasOp_next h.graph hj⟩
  dsimp only
  split
  · -- the cursor stood before the operation and moves on to the next one
    refine ((gives_modify (.single (.move _ hmoved))).meets _).bind fun _ c₁ _ hc => ?_
    exact herase c₁ (by rw [hc])
  · exact herase c' rfl

end Build

namespace Buffer

/-! ## Parts of a stage -/

namespace Stage

/-- All that the stage `st` says about operation `z`. -/
def status (st : Stage) (z : OpId) : Option ValueId × Option OpId × Bool × Bool :=
  (st.value z, st.view z, st.settled z, st.gone z)

theorem status_eq {st st' : Stage} {z : OpId} (h : st'.status z = st.status z) :
    st'.value z = st.value z ∧ st'.view z = st.view z ∧ st'.settled z = st.settled z ∧
      st'.gone z = st.gone z := by
  unfold status at h
  simpa only [Prod.mk.injEq] using h

theorem status_rebuild_of_ne (st : Stage) {x z : OpId} (hz : z ≠ x) (y : OpId) (v : ValueId) :
    (st.rebuild x y v).status z = st.status z := by
  unfold status
  rw [value_rebuild, view_rebuild, if_neg hz, if_neg hz]
  rfl

theorem status_settle_of_ne (st : Stage) {o z : OpId} (hz : z ≠ o) :
    (st.settle o).status z = st.status z := by
  unfold status
  rw [settled_settle, if_neg hz]
  rfl

/-- Erasing `views` changes `gone`, and nothing else. -/
theorem foldl_erase (st : Stage) (views : List OpId) :
    views.foldl erase st = { st with gone := fun z => decide (z ∈ views) || st.gone z } := by
  induction views generalizing st with
  | nil => rfl
  | cons x rest ih =>
    rw [List.foldl_cons, ih]
    refine congrArg (fun gone => { st with gone }) ?_
    funext z
    rw [gone_erase]
    by_cases hz : z = x
    · simp [hz]
    · simp [hz]

end Stage

/-- The views below `o` are gone and its other readers are redirected; what is not below `o` is as
it was. -/
structure Finishes (g₀ : Graph) (o : OpId) (st st' : Stage) : Prop where
  view : st'.view o = st.view o
  settled : st'.settled o = true
  gone : st'.gone o = st.gone o
  below : ∀ z, g₀.ViewOf o z → st'.gone z = true
  others : ∀ z, ¬ g₀.Viewed o z → st'.status z = st.status z

/-- The view `x` was built anew, and nothing is left to be done but to erase it. -/
structure Handled (g₀ : Graph) (x : OpId) (st : Stage) : Prop where
  view : ∃ y, st.view x = some y
  settled : st.settled x = true
  gone : st.gone x = false
  below : ∀ z, g₀.ViewOf x z → st.gone z = true

theorem Handled.congr {g₀ : Graph} {x : OpId} {st st' : Stage} (h : Handled g₀ x st)
    (hsame : ∀ z, g₀.Viewed x z → st'.status z = st.status z) : Handled g₀ x st' := by
  obtain ⟨-, hview, hsettled, hgone⟩ := Stage.status_eq (hsame x .refl)
  refine ⟨?_, hsettled.trans h.settled, hgone.trans h.gone, fun z hz => ?_⟩
  · rw [hview]
    exact h.view
  · obtain ⟨-, -, -, hgone⟩ := Stage.status_eq (hsame z hz.to_reflTransGen)
    exact hgone.trans (h.below z hz)

theorem Handled.settle {g₀ : Graph} {x : OpId} {st : Stage} (h : Handled g₀ x st) (o : OpId) :
    Handled g₀ x (st.settle o) where
  view := h.view
  settled := by rw [Stage.settled_settle, h.settled, ite_self]
  gone := h.gone
  below := h.below

theorem Handled.foldl_erase {g₀ : Graph} {x : OpId} {st : Stage} (h : Handled g₀ x st)
    {views : List OpId} (hx : x ∉ views) : Handled g₀ x (views.foldl Stage.erase st) := by
  rw [Stage.foldl_erase]
  refine ⟨h.view, h.settled, ?_, fun z hz => ?_⟩
  · show (decide (x ∈ views) || st.gone x) = false
    rw [h.gone, decide_eq_false hx]
    rfl
  · show (decide (z ∈ views) || st.gone z) = true
    rw [h.below z hz, Bool.or_true]

theorem Finishes.handled {g₀ : Graph} {x y : OpId} {v : ValueId} {st st' : Stage}
    (h : Finishes g₀ x (st.rebuild x y v) st') (hgone : st.gone x = false) : Handled g₀ x st' where
  view := ⟨y, by rw [h.view, Stage.view_rebuild, if_pos rfl]⟩
  settled := h.settled
  gone := h.gone.trans hgone
  below := h.below

/-! ## The readers of an operation -/

/-- Some slots that hold results of `o` have been gone through: the views among their owners are
handled, the other slots are kept for later, and the rest of the stage is as it was. -/
structure Partway (g₀ : Graph) (o : OpId) (st st' : Stage) (done : List SlotId) (views : List OpId)
    (direct : List SlotId) : Prop where
  mem_direct : ∀ s, s ∈ direct ↔ s ∈ done ∧ Ops.isView g₀ (g₀.slot s).owner = false
  mem_views : ∀ x, x ∈ views ↔ Ops.isView g₀ x = true ∧ ∃ s ∈ done, (g₀.slot s).owner = x
  feeds : ∀ x ∈ views, g₀.Feeds o x
  nodup : views.Nodup
  handled : ∀ x ∈ views, Handled g₀ x st'
  others : ∀ z, (∀ x ∈ views, ¬ g₀.Viewed x z) → st'.status z = st.status z

namespace Partway

variable {g₀ : Graph} {o : OpId} {st st' st'' : Stage} {done : List SlotId} {views : List OpId}
  {direct : List SlotId} {s : SlotId}

theorem nil (g₀ : Graph) (o : OpId) (st : Stage) : Partway g₀ o st st [] [] [] where
  mem_direct _ := by simp
  mem_views _ := by simp
  feeds _ hx := nomatch hx
  nodup := .nil
  handled _ hx := nomatch hx
  others _ _ := rfl

/-- The slots `direct` stay the same if the next slot belongs to a view. -/
theorem mem_direct_append (h : Partway g₀ o st st' done views direct)
    (hs : Ops.isView g₀ (g₀.slot s).owner = true) (t : SlotId) :
    t ∈ direct ↔ t ∈ done ++ [s] ∧ Ops.isView g₀ (g₀.slot t).owner = false := by
  rw [h.mem_direct t]
  refine and_congr_left fun ht => ⟨List.mem_append_left _, fun hmem => ?_⟩
  rcases List.mem_append.mp hmem with hmem | hmem
  · exact hmem
  · rw [List.mem_singleton.mp hmem, hs] at ht
    cases ht

/-- The list `views` stays the same if the next slot belongs to none or to one that was handled
before. -/
theorem mem_views_append (h : Partway g₀ o st st' done views direct)
    (hs : Ops.isView g₀ (g₀.slot s).owner = true → (g₀.slot s).owner ∈ views) (x : OpId) :
    x ∈ views ↔ Ops.isView g₀ x = true ∧ ∃ t ∈ done ++ [s], (g₀.slot t).owner = x := by
  constructor
  · intro hx
    obtain ⟨hview, t, ht, hxt⟩ := (h.mem_views x).mp hx
    exact ⟨hview, t, List.mem_append_left _ ht, hxt⟩
  · rintro ⟨hview, t, ht, rfl⟩
    rcases List.mem_append.mp ht with ht | ht
    · exact (h.mem_views _).mpr ⟨hview, t, ht, rfl⟩
    · rw [List.mem_singleton.mp ht] at hview ⊢
      exact hs hview

/-- `Partway` after a slot `s` that belongs to no view. -/
theorem keep (h : Partway g₀ o st st' done views direct)
    (hs : Ops.isView g₀ (g₀.slot s).owner = false) :
    Partway g₀ o st st' (done ++ [s]) views (direct ++ [s]) where
  mem_direct t := by
    rw [List.mem_append, List.mem_append, List.mem_singleton, h.mem_direct t, or_and_right]
    refine or_congr_right ⟨fun ht => ⟨ht, ?_⟩, fun ht => ht.1⟩
    rw [ht]
    exact hs
  mem_views := h.mem_views_append fun hview => by rw [hs] at hview; cases hview
  feeds := h.feeds
  nodup := h.nodup
  handled := h.handled
  others := h.others

/-- `Partway` after a slot `s` of a view that was handled before. -/
theorem again (h : Partway g₀ o st st' done views direct) (hs : (g₀.slot s).owner ∈ views) :
    Partway g₀ o st st' (done ++ [s]) views direct where
  mem_direct := h.mem_direct_append ((h.mem_views _).mp hs).1
  mem_views := h.mem_views_append fun _ => hs
  feeds := h.feeds
  nodup := h.nodup
  handled := h.handled
  others := h.others

/-- `Partway` after a slot `s` of a view that is handled now. -/
theorem handle (h : Partway g₀ o st st' done views direct) (hfeeds : g₀.Feeds o (g₀.slot s).owner)
    (hnew : (g₀.slot s).owner ∉ views)
    (hapart : ∀ x ∈ views, ∀ z, g₀.Viewed x z → ¬ g₀.Viewed (g₀.slot s).owner z)
    (hhandled : Handled g₀ (g₀.slot s).owner st'')
    (hothers : ∀ z, ¬ g₀.Viewed (g₀.slot s).owner z → st''.status z = st'.status z) :
    Partway g₀ o st st'' (done ++ [s]) (views ++ [(g₀.slot s).owner]) direct where
  mem_direct := h.mem_direct_append hfeeds.1
  mem_views x := by
    rw [List.mem_append, List.mem_singleton, h.mem_views x]
    constructor
    · rintro (⟨hx, t, ht, hxt⟩ | rfl)
      · exact ⟨hx, t, List.mem_append_left _ ht, hxt⟩
      · exact ⟨hfeeds.1, s, List.mem_append_right _ (List.mem_singleton_self s), rfl⟩
    · rintro ⟨hx, t, ht, rfl⟩
      rcases List.mem_append.mp ht with ht | ht
      · exact Or.inl ⟨hx, t, ht, rfl⟩
      · exact Or.inr (by rw [List.mem_singleton.mp ht])
  feeds x hx := by
    rcases List.mem_append.mp hx with hx | hx
    · exact h.feeds x hx
    · rw [List.mem_singleton.mp hx]
      exact hfeeds
  nodup := List.nodup_append.mpr ⟨h.nodup, List.nodup_singleton _, fun x hx y hy => by
    rw [List.mem_singleton.mp hy]
    rintro rfl
    exact hnew hx⟩
  handled x hx := by
    rcases List.mem_append.mp hx with hx | hx
    · exact (h.handled x hx).congr fun z hz => hothers z (hapart x hx z hz)
    · rw [List.mem_singleton.mp hx]
      exact hhandled
  others z hz := by
    rw [hothers z (hz _ (List.mem_append_right _ (List.mem_singleton_self _)))]
    exact h.others z fun x hx => hz x (List.mem_append_left _ hx)

end Partway

/-! ## Going through them -/

/-- Work was given up at some stage, because of a view below `old` that is in no block or erased. -/
def Halts (c₀ : Context) (old : OpId) (val : ValueId) (ty : MemDescTy) (c : Context) : Prop :=
  (∃ x, c₀.graph.ViewOf old x ∧ ((c₀.graph.op x).block = none ∨ (c₀.graph.op x).erased = true)) ∧
    ∃ st, Progress c₀.graph old val ty st c.graph

/-- The readers of `o` are to read `w`, and nothing has been done to them yet. -/
structure Pending (c₀ : Context) (old : OpId) (val : ValueId) (ty : MemDescTy) (o : OpId)
    (w : ValueId) (st : Stage) (c : Context) : Prop where
  sound : c.Sound
  progress : Progress c₀.graph old val ty st c.graph
  value : st.value o = some w
  settled : st.settled o = false
  below : ∀ z, c₀.graph.ViewOf o z → st.view z = none

/-- Through `n` views one below the other, replacing finishes what is pending or halts. -/
def Completes (c₀ : Context) (old : OpId) (val : ValueId) (ty : MemDescTy) (n : Nat) : Prop :=
  ∀ o w st c, Pending c₀ old val ty o w st c →
    (∀ l, List.IsChain c₀.graph.Feeds (o :: l) → l.length < n) →
    (replaceUsesWithin n o (some w)).Meets c
      (fun _ c' => ∃ st', Progress c₀.graph old val ty st' c'.graph ∧ Finishes c₀.graph o st st')
      fun _ => Halts c₀ old val ty

section

variable {c₀ c : Context} {old o : OpId} {val w : ValueId} {ty : MemDescTy} {st : Stage}
  (h : Replacing c₀ old val ty) (hq : Pending c₀ old val ty o w st c)

include h hq

/-- The slots that hold a result of `o` are those that did at the start. -/
theorem Pending.mem_uses_iff {s : SlotId} :
    s ∈ ((c.graph.op o).results.flatMap fun r => (c.graph.value r).uses) ↔
      ∃ r ∈ (c₀.graph.op o).results, (c₀.graph.slot s).value = some r := by
  have hp := hq.progress
  have hviewed := hp.viewed_of_value hq.value
  have ho : c₀.graph.HasOp o := by
    rcases reflTransGen_iff_eq_or_transGen.mp hviewed with rfl | hview
    · exact h.there
    · exact Graph.ViewOf.hasOp hview
  rw [List.mem_flatMap, hp.results ho]
  refine exists_congr fun r => and_congr_right fun hr => ?_
  rw [hq.sound.graph.uses.mem_uses_iff, hp.held_iff h hviewed hr]
  -- no slot of a reader has been touched, so each holds what it held at the start
  refine and_iff_left_of_imp fun hs => ?_
  split
  · next hview =>
    have hbelow : c₀.graph.ViewOf o (c₀.graph.slot s).owner := .single ⟨hview, s, rfl, r, hr, hs⟩
    exact (hp.untouched (h.tree.ne_of_viewOf (.trans_right hviewed hbelow))
      (hq.below _ hbelow)).2.2
  · exact hq.settled

variable {done : List SlotId} {views : List OpId} {direct : List SlotId} {st' : Stage}
  (hpart : Partway c₀.graph o st st' done views direct)

include hpart

/-- Handling views of `o` does nothing to `o` itself. -/
theorem Partway.status_self : st'.status o = st.status o := by
  have hviewed := hq.progress.viewed_of_value hq.value
  refine hpart.others o fun x hx hxo => ?_
  exact h.tree.acyclic o hviewed (.head' (hpart.feeds x hx) hxo)

/-- What hangs below a view of `o` that has not been handled is as it was. -/
theorem Partway.status_below {x z : OpId} (hx : c₀.graph.Feeds o x) (hnew : x ∉ views)
    (hz : c₀.graph.Viewed x z) : st'.status z = st.status z := by
  have hviewed := hq.progress.viewed_of_value hq.value
  refine hpart.others z fun x' hx' hz' => hnew ?_
  rw [h.tree.below_unique h.sound.graph hviewed hx (hpart.feeds x' hx') hz hz']
  exact hx'

/-- A view of `o` that has not been handled is next. -/
theorem Completes.meets_view {n : Nat} (hn : Completes c₀ old val ty n)
    (hdepth : ∀ l, List.IsChain c₀.graph.Feeds (o :: l) → l.length < n + 1) {c' : Context}
    (hadv : c.Advances c') (hp : Progress c₀.graph old val ty st' c'.graph) {s : SlotId}
    (hfeeds : c₀.graph.Feeds o (c₀.graph.slot s).owner) (hnew : (c₀.graph.slot s).owner ∉ views) :
    Meets (do
      let new ← rebuildView (c₀.graph.slot s).owner (some w)
      replaceUsesWithin n (c₀.graph.slot s).owner (some new)
      return (views ++ [(c₀.graph.slot s).owner], direct)) c'
      (fun acc c'' => ∃ st'', Progress c₀.graph old val ty st'' c''.graph ∧
        Partway c₀.graph o st st'' (done ++ [s]) acc.1 acc.2)
      fun _ => Halts c₀ old val ty := by
  have hviewed := hq.progress.viewed_of_value hq.value
  have hwf := h.sound.graph
  -- nothing is below two views of `o`, so the others are as they were before any was handled
  have hbelow : ∀ z, c₀.graph.Viewed (c₀.graph.slot s).owner z → st'.view z = none := by
    intro z hz
    rw [(Stage.status_eq (hpart.status_below h hq hfeeds hnew hz)).2.1]
    exact hq.below z (.head' hfeeds hz)
  have hw : st'.value o = some w := by
    rw [(Stage.status_eq (hpart.status_self h hq)).1]
    exact hq.value
  have hview : c₀.graph.ViewOf old (c₀.graph.slot s).owner := .tail' hviewed hfeeds
  obtain ⟨-, hsettled, hgone⟩ := hp.untouched (h.tree.ne_of_viewOf hview) (hbelow _ .refl)
  have hrebuild := meets_rebuildView h hp (hq.sound.advances hadv) hfeeds hw (hbelow _ .refl)
  refine (hrebuild.imp (fun _ _ _ hc => hc) fun _ c₁ _ hc => ?_).bind fun v c₁ hadv₁ hc => ?_
  · exact ⟨⟨_, hview, Or.inl hc.1⟩, st', by rw [hc.2]; exact hp⟩
  obtain ⟨y, hp₁⟩ := hc
  have hpending : Pending c₀ old val ty (c₀.graph.slot s).owner v
      (st'.rebuild (c₀.graph.slot s).owner y v) c₁ := by
    refine ⟨hq.sound.advances (hadv.trans hadv₁), hp₁, ?_, hsettled, fun z hz => ?_⟩
    · rw [Stage.value_rebuild, if_pos rfl]
    · rw [Stage.view_rebuild, if_neg]
      · exact hbelow z hz.to_reflTransGen
      · rintro rfl
        exact h.tree.acyclic _ hview.to_reflTransGen hz
  -- every chain below the view is one shorter than with `o` before it
  have hdepth' : ∀ l, List.IsChain c₀.graph.Feeds ((c₀.graph.slot s).owner :: l) →
      l.length < n := fun l hl => Nat.lt_of_succ_lt_succ (hdepth _ (.cons_cons hfeeds hl))
  refine (hn _ v _ c₁ hpending hdepth').bind fun _ c₂ _ hc => ?_
  obtain ⟨st₂, hp₂, hfinishes⟩ := hc
  refine .pure ⟨st₂, hp₂, hpart.handle hfeeds hnew ?_ (hfinishes.handled hgone) fun z hz => ?_⟩
  · intro x hx z hxz hz
    rw [h.tree.below_unique hwf hviewed (hpart.feeds x hx) hfeeds hxz hz] at hx
    exact hnew hx
  · rw [hfinishes.others z hz]
    refine st'.status_rebuild_of_ne ?_ y v
    rintro rfl
    exact hz .refl

/-! ## The end of a call -/

omit hq hpart in
/-- A view that is `Handled` is erased, if it has not been before. -/
theorem Handled.meets_eraseOp {x : OpId} (hhandled : Handled c₀.graph x st') {c' : Context}
    (hsound : c'.Sound) (hp : Progress c₀.graph old val ty st' c'.graph) :
    (eraseOp x).Meets c' (fun _ c'' => Progress c₀.graph old val ty (st'.erase x) c''.graph)
      fun _ => Halts c₀ old val ty := by
  obtain ⟨y, hy⟩ := hhandled.view
  have hview := hp.viewOf_of_view hy
  have hrow := hp.op_of_not_gone hview.hasOp hhandled.gone
  have hbelow : ∀ z, c₀.graph.Feeds x z → st'.gone z = true := fun z hz =>
    hhandled.below z (.single hz)
  -- a view had nothing inside, and where nothing stood nothing stands now
  have hleaf : c'.graph.children x = [] := by
    refine List.flatMap_eq_nil_iff.mpr fun b hb => ?_
    rw [hrow] at hb
    rw [hp.block b, List.flatMap_eq_nil_iff.mp (h.leaf x hview) b hb]
    rfl
  have hunused := hp.unused h hview.to_reflTransGen hhandled.settled hbelow
  refine (Build.meets_eraseOp hsound (hp.within.hasOp hview.hasOp) hleaf ?_).imp
    (fun _ c'' _ hc => ?_) fun _ c'' _ hc => ?_
  · rw [hrow]
    exact hunused
  · rw [hc]
    exact hp.erase h hy hhandled.settled hhandled.gone hbelow
  · rw [hrow] at hc
    exact ⟨⟨x, hview, Or.inr hc.1⟩, st', by rw [hc.2]; exact hp⟩

section

variable (hdone : ∀ s, s ∈ done ↔
  ∃ r ∈ (c₀.graph.op o).results, (c₀.graph.slot s).value = some r)

include hdone

omit hq h in
/-- All views of `o` have been met. -/
theorem Partway.mem_views_iff {x : OpId} : x ∈ views ↔ c₀.graph.Feeds o x := by
  refine ⟨hpart.feeds x, fun hx => (hpart.mem_views x).mpr ⟨hx.1, ?_⟩⟩
  obtain ⟨-, s, rfl, hs⟩ := hx
  exact ⟨s, (hdone s).mpr hs, rfl⟩

/-- With the readers of `o` redirected and its `views` erased, nothing is left to be done. -/
theorem Partway.finishes :
    Finishes c₀.graph o st (views.foldl Stage.erase (st'.settle o)) := by
  have hviewed := hq.progress.viewed_of_value hq.value
  have hmem : ∀ x, x ∈ views ↔ c₀.graph.Feeds o x := fun x => hpart.mem_views_iff hdone
  obtain ⟨-, hview, -, hgone⟩ := Stage.status_eq (hpart.status_self h hq)
  rw [Stage.foldl_erase]
  refine ⟨hview, ?_, ?_, fun z hz => ?_, fun z hz => ?_⟩
  · show (st'.settle o).settled o = true
    rw [Stage.settled_settle, if_pos rfl]
  · show (decide (o ∈ views) || st'.gone o) = st.gone o
    rw [decide_eq_false fun ho => h.tree.acyclic o hviewed (.single ((hmem o).mp ho)), hgone]
    rfl
  · show (decide (z ∈ views) || st'.gone z) = true
    -- what is below `o` is one of its views or below one, and those were handled
    obtain ⟨x, hx, hxz⟩ := TransGen.head'_iff.mp hz
    rcases reflTransGen_iff_eq_or_transGen.mp hxz with rfl | hxz
    · rw [decide_eq_true ((hmem z).mpr hx)]
      rfl
    · rw [(hpart.handled x ((hmem x).mpr hx)).below z hxz, Bool.or_true]
  · have hzo : z ≠ o := by
      rintro rfl
      exact hz .refl
    have hout : z ∉ views := fun hmem' => hz (.single ((hmem z).mp hmem'))
    rw [← hpart.others z fun x hx hxz => hz (.head ((hmem x).mp hx) hxz),
      ← st'.status_settle_of_ne hzo]
    unfold Stage.status
    dsimp only
    rw [decide_eq_false hout]
    rfl

/-- The slots `direct` are redirected, and then the `views` are erased. -/
theorem Partway.meets_finish {c' : Context} (hadv : c.Advances c')
    (hp : Progress c₀.graph old val ty st' c'.graph) :
    Meets (do
      modifyGraph (·.assignAll direct (some w))
      views.forM eraseOp) c'
      (fun _ c'' => ∃ st'', Progress c₀.graph old val ty st'' c''.graph ∧
        Finishes c₀.graph o st st'')
      fun _ => Halts c₀ old val ty := by
  have hsound := hq.sound.advances hadv
  have hw : st'.value o = some w := by
    rw [(Stage.status_eq (hpart.status_self h hq)).1]
    exact hq.value
  obtain ⟨t, -, htype⟩ := hp.typed h hw
  have hslots : ∀ s ∈ direct, c'.graph.HasSlot s := by
    intro s hs
    obtain ⟨r, -, hr⟩ := (hdone s).mp ((hpart.mem_direct s).mp hs).1
    exact hp.within.hasSlot (Graph.hasSlot_of_value_eq_some hr)
  have hdirect : ∀ s, s ∈ direct ↔ Ops.isView c₀.graph (c₀.graph.slot s).owner = false ∧
      ∃ r ∈ (c₀.graph.op o).results, (c₀.graph.slot s).value = some r := by
    intro s
    rw [hpart.mem_direct s, hdone s, and_comm]
  refine ((gives_modifyGraph (Graph.edits_assignAll hslots
    (Graph.hasValue_of_typeOf htype).opt)).meets _).bind fun _ c₁ hadv₁ hc => ?_
  have hp₁ : Progress c₀.graph old val ty (st'.settle o) c₁.graph := by
    rw [hc]
    exact hp.settle h hw hdirect
  -- the loop erases one view after the other, each of which is still handled when its turn comes
  refine (Meets.forM
    (fun gone c₂ => Progress c₀.graph old val ty (gone.foldl Stage.erase (st'.settle o)) c₂.graph)
    (fun gone x rest c₂ hviews hadv₂ hp₂ => ?_) hp₁).imp (fun _ c₂ _ hp₂ => ?_) fun _ _ _ hR => hR
  · have hx : x ∈ views := hviews ▸ List.mem_append_right _ List.mem_cons_self
    have hnew : x ∉ gone := by
      have hnodup := hpart.nodup
      rw [hviews] at hnodup
      exact fun hmem => (List.nodup_append.mp hnodup).2.2 x hmem x List.mem_cons_self rfl
    rw [List.foldl_append]
    exact (((hpart.handled x hx).settle o).foldl_erase hnew).meets_eraseOp h
      (hsound.advances (hadv₁.trans hadv₂)) hp₂
  · exact ⟨_, hp₂, hpart.finishes h hq hdone⟩

end

end

/-- `replaceUsesWithin` finishes an operation or halts. The induction is on the bound `n`. -/
theorem completes {c₀ : Context} {old : OpId} {val : ValueId} {ty : MemDescTy}
    (h : Replacing c₀ old val ty) (n : Nat) : Completes c₀ old val ty n := by
  -- the induction is on the depth of the views; the loop invariant is `Partway`
  induction n with
  | zero => exact fun o _ _ _ _ hdepth => absurd (hdepth [] (.singleton o)) (Nat.lt_irrefl 0)
  | succ n ih =>
    intro o w st c hq hdepth
    refine (gives_graph.meets _).bind fun g c' _ hc => ?_
    obtain ⟨rfl, rfl⟩ := hc
    refine (Meets.foldlM (fun done acc c₁ => ∃ st', Progress c₀.graph old val ty st' c₁.graph ∧
      Partway c₀.graph o st st' done acc.1 acc.2) (fun done s acc c₁ hs hadv hI => ?_)
      ⟨st, hq.progress, .nil _ _ _⟩).bind fun acc c₁ hadv hI => ?_
    · obtain ⟨st', hp, hpart⟩ := hI
      obtain ⟨views, direct⟩ := acc
      obtain ⟨r, hr, hheld⟩ := (hq.mem_uses_iff h).mp hs
      have hslot := Graph.hasSlot_of_value_eq_some hheld
      have hisView : Ops.isView c'.graph (c₀.graph.slot s).owner =
          Ops.isView c₀.graph (c₀.graph.slot s).owner := by
        rw [Ops.isView, hq.progress.name (h.owners s hslot)]
        rfl
      dsimp only
      rw [hq.progress.owner s hslot, hisView]
      split
      · next hview =>
        refine .pure ⟨st', hp, hpart.keep ?_⟩
        rwa [Bool.not_eq_true'] at hview
      · next hview =>
        rw [Bool.not_eq_true', Bool.not_eq_false] at hview
        split
        · next hseen =>
          rw [List.contains_iff_mem] at hseen
          exact .pure ⟨st', hp, hpart.again hseen⟩
        · next hseen =>
          rw [List.contains_iff_mem] at hseen
          exact ih.meets_view h hq hpart hdepth hadv hp ⟨hview, s, rfl, r, hr, hheld⟩ hseen
    · obtain ⟨st', hp, hpart⟩ := hI
      obtain ⟨views, direct⟩ := acc
      exact hpart.meets_finish h hq (fun s => hq.mem_uses_iff h) hadv hp

end Buffer

end Multistage
