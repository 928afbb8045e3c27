import Mathlib.Data.List.Flatten
import Multistage.Proofs.Buffer.ViewRun

/-!
# What is visible while a buffer is replaced

At every stage an operation stands in the place of one that was there at the start: itself, or the
view that was built anew as it. What it reads comes from something that stands in the place of what
was visible at the start, so it is still visible. A verified operation therefore stays verified at
every stage, if the other buffer is visible to the direct readers of the old operation.
-/

namespace Multistage

open Relation

/-- What `f` puts in the places of two entries comes in their order. -/
theorem pair_sublist_flatMap {α : Type} {l : List α} {f : α → List α} {a b x y : α}
    (hab : [a, b].Sublist l) (hx : x ∈ f a) (hy : y ∈ f b) : [x, y].Sublist (l.flatMap f) := by
  have hpair : [x, y].Sublist ([a, b].flatMap f) := by
    rw [List.flatMap_cons, List.flatMap_singleton]
    exact (List.singleton_sublist.mpr hx).append (List.singleton_sublist.mpr hy)
  exact hpair.trans (hab.flatMap f)

/-- The last entry of `flatMap` is the last of what the last one becomes. -/
theorem getLast?_flatMap {α : Type} {l : List α} {f : α → List α} {z : α}
    (hz : l.getLast? = some z) (hf : f z ≠ []) : (l.flatMap f).getLast? = (f z).getLast? := by
  obtain ⟨before, rfl⟩ := List.getLast?_eq_some_iff.mp hz
  rw [List.flatMap_append, List.flatMap_singleton, List.getLast?_append,
    Option.or_of_isSome (List.getLast?_isSome.mpr hf)]

/-- If something else lies inside `root`, something has it as its parent. -/
theorem Graph.Inside.exists_child {g : Graph} {root i : OpId} (h : g.Inside root i)
    (hne : i ≠ root) : ∃ j, g.parent j = some root := by
  induction h with
  | root => exact absurd rfl hne
  | @step i p hparent _ ih =>
    by_cases hp : p = root
    · exact ⟨i, hp ▸ hparent⟩
    · exact ih hp

namespace Buffer

theorem Stage.mem_places {st : Stage} {i x : OpId} :
    i ∈ st.places x ↔ st.view x = some i ∨ st.gone x = false ∧ i = x := by
  rw [places, List.mem_append, Option.mem_toList]
  cases st.gone x <;> simp

theorem Stage.mem_places_self {st : Stage} {i : OpId} (hgone : st.gone i = false) :
    i ∈ st.places i :=
  mem_places.mpr (Or.inr ⟨hgone, rfl⟩)

theorem Stage.mem_places_view {st : Stage} {x y : OpId} (hy : st.view x = some y) :
    y ∈ st.places x :=
  mem_places.mpr (Or.inl hy)

namespace Progress

variable {c₀ : Context} {old : OpId} {val : ValueId} {ty : MemDescTy} {st : Stage} {g : Graph}
  (hp : Progress c₀.graph old val ty st g)

include hp

/-! ## Places -/

/-- Something stands in every one of `places`. -/
theorem places_ne_nil (x : OpId) : st.places x ≠ [] := by
  intro hnil
  have hnone : ∀ i, i ∉ st.places x := fun i hi => by rw [hnil] at hi; cases hi
  cases hgone : st.gone x with
  | false => exact hnone x (Stage.mem_places_self hgone)
  | true =>
    obtain ⟨-, y, hy⟩ := hp.gone_settled x hgone
    exact hnone y (Stage.mem_places_view hy)

theorem home (b : BlockId) : (g.block b).home = (c₀.graph.block b).home := by
  rw [hp.block b]

theorem blockParent (b : BlockId) : g.blockParent b = c₀.graph.blockParent b := by
  rw [Graph.blockParent, hp.home b]
  rfl

/-- What stands in the place of `i₀` is in its block and has its name. -/
theorem row_of_places {i i₀ : OpId} (hi : i ∈ st.places i₀) (hi₀ : c₀.graph.HasOp i₀) :
    (g.op i).block = (c₀.graph.op i₀).block ∧ (g.op i).name = (c₀.graph.op i₀).name ∧
      ((c₀.graph.op i₀).erased = false → (g.op i).erased = false) := by
  rcases Stage.mem_places.mp hi with hview | ⟨hgone, rfl⟩
  · obtain ⟨_, _, _, _, -, -, -, -, hrebuilt, -⟩ := hp.views i₀ i hview
    obtain ⟨slots, hrow⟩ := hrebuilt.row
    rw [hrow]
    exact ⟨rfl, rfl, fun _ => rfl⟩
  · rw [hp.op_of_not_gone hi₀ hgone]
    exact ⟨rfl, rfl, id⟩

theorem parent_of_places {i i₀ : OpId} (hi : i ∈ st.places i₀) (hi₀ : c₀.graph.HasOp i₀) :
    g.parent i = c₀.graph.parent i₀ := by
  rw [Graph.parent, (hp.row_of_places hi hi₀).1]
  exact Option.bind_congr fun b _ => hp.blockParent b

variable (h : Replacing c₀ old val ty)

include h

/-- An operation `p` with something inside stays where it is. -/
theorem stays_of_parent {i p : OpId} (hparent : c₀.graph.parent i = some p) :
    st.gone p = false ∧ c₀.graph.HasOp p := by
  obtain ⟨b, -, hb⟩ := Option.bind_eq_some_iff.mp hparent
  refine ⟨?_, Graph.hasOp_of_blockParent h.sound.graph hb⟩
  rw [← Bool.not_eq_true]
  intro hgone
  have hchild := (Graph.mem_children_iff h.sound.graph).mpr hparent
  rw [h.leaf p (hp.viewOf_of_gone hgone)] at hchild
  cases hchild

/-- What encloses `i` stands in the place of what enclosed `i₀`. -/
theorem encloses_of_places {b : BlockId} {a i i₀ : OpId} (hencloses : g.Encloses b a i)
    (hi : i ∈ st.places i₀) (hi₀ : c₀.graph.HasOp i₀) :
    ∃ a₀, a ∈ st.places a₀ ∧ c₀.graph.Encloses b a₀ i₀ := by
  induction hencloses generalizing i₀ with
  | here ha =>
    rw [(hp.row_of_places hi hi₀).1] at ha
    exact ⟨i₀, hi, .here ha⟩
  | outer hne hparent _ ih =>
    rw [(hp.row_of_places hi hi₀).1] at hne
    rw [hp.parent_of_places hi hi₀] at hparent
    obtain ⟨hgone, hthere⟩ := hp.stays_of_parent h hparent
    obtain ⟨a₀, ha, hencloses₀⟩ := ih (Stage.mem_places_self hgone) hthere
    exact ⟨a₀, ha, .outer hne hparent hencloses₀⟩

/-- What lies inside an operation `root` that stays stands in the place of what did. -/
theorem inside_of_places {root i i₀ : OpId} (hinside : g.Inside root i)
    (hroot : c₀.graph.HasOp root) (hi : i ∈ st.places i₀) (hi₀ : c₀.graph.HasOp i₀) :
    c₀.graph.Inside root i₀ := by
  induction hinside generalizing i₀ with
  | root =>
    have hsame : i₀ = root := by
      by_contra hne
      exact hp.not_mem_places hroot hne hi
    rw [hsame]
    exact .root
  | step hparent _ ih =>
    rw [hp.parent_of_places hi hi₀] at hparent
    obtain ⟨hgone, hthere⟩ := hp.stays_of_parent h hparent
    exact .step hparent (ih (Stage.mem_places_self hgone) hthere)

/-! ## Visible values -/

/-- `v` is visible if what defines it stands in the place of what defined a value `u` that was
visible. -/
theorem visible_of_places {i i₀ d d₀ : OpId} {u v : ValueId} {n m : Nat} (hi : i ∈ st.places i₀)
    (hi₀ : c₀.graph.HasOp i₀) (hu : (c₀.graph.value u).source = .result d₀ n)
    (hv : (g.value v).source = .result d m) (hd : d ∈ st.places d₀)
    (hvisible : c₀.graph.Visible u i₀) : g.Visible v i := by
  obtain ⟨hlive, b, hb, hall⟩ := (Graph.visible_of_result hu i₀).mp hvisible
  obtain ⟨hblock, -, herased⟩ := hp.row_of_places hd (Graph.hasOp_of_block_eq_some hb)
  refine (Graph.visible_of_result hv i).mpr ⟨herased hlive, b, hblock.trans hb, fun a ha => ?_⟩
  obtain ⟨a₀, hplace, hencloses⟩ := hp.encloses_of_places h ha hi hi₀
  rw [hp.block b]
  exact pair_sublist_flatMap (hall a₀ hencloses) hd hplace

/-- A value `u` that was visible still is, unless it is a result of a view that is gone. -/
theorem visible_of_not_gone {i i₀ : OpId} {u : ValueId} (hi : i ∈ st.places i₀)
    (hi₀ : c₀.graph.HasOp i₀) (hu : c₀.graph.HasValue u)
    (hgone : ∀ d, u ∈ (c₀.graph.op d).results → st.gone d = false)
    (hvisible : c₀.graph.Visible u i₀) : g.Visible u i := by
  have hsource := hp.source u hu
  cases hdef : (c₀.graph.value u).source with
  | argument b n =>
    rw [Graph.visible_of_argument hdef] at hvisible
    rw [Graph.visible_of_argument (hsource.trans hdef), hp.home b]
    exact hvisible
  | result d n =>
    have hd := hgone d (h.sound.graph.owned.mem_results_iff.mpr ⟨hu, n, hdef⟩)
    exact hp.visible_of_places h hi hi₀ hdef (hsource.trans hdef)
      (Stage.mem_places_self hd) hvisible

/-- The value `w` that is read instead of `u` is visible where `u` was. -/
theorem visible_value (hg : g.WellFormed) {i i₀ o : OpId} {u w : ValueId} (hi : i ∈ st.places i₀)
    (hi₀ : c₀.graph.HasOp i₀) (hw : st.value o = some w) (hu : u ∈ (c₀.graph.op o).results)
    (hvisible : c₀.graph.Visible u i₀) (hval : o = old → c₀.graph.Visible val i₀) :
    g.Visible w i := by
  obtain rfl | ⟨y, hy⟩ := hp.value_view o w hw
  · rw [hp.value_old] at hw
    cases hw
    refine hp.visible_of_not_gone h hi hi₀ (Graph.hasValue_of_typeOf h.typed) (fun d hd => ?_)
      (hval rfl)
    rw [← Bool.not_eq_true]
    exact fun hgone => h.apart d (hp.viewOf_of_gone hgone).to_reflTransGen hd
  · obtain ⟨_, _, v, _, -, -, -, hv, hrebuilt, -⟩ := hp.views o y hy
    rw [hv] at hw
    cases hw
    obtain ⟨slots, hrow⟩ := hrebuilt.row
    obtain ⟨-, m, hsource⟩ := hg.owned.mem_results_iff.mp
      (show w ∈ (g.op y).results by rw [hrow]; exact List.mem_singleton_self w)
    obtain ⟨-, n, hdef⟩ := h.sound.graph.owned.mem_results_iff.mp hu
    exact hp.visible_of_places h hi hi₀ hdef hsource (Stage.mem_places_view hy) hvisible

/-! ## Verified operations -/

/-- A slot that was `Current` is so, unless it belongs to a view that is gone. -/
theorem current_of_not_gone {s : SlotId} (hs : c₀.graph.HasSlot s) (hcurrent : c₀.graph.Current s)
    (hgone : st.gone (c₀.graph.slot s).owner = false) : g.Current s := by
  have hthere := h.owners s hs
  rw [Graph.Current, hp.owner s hs, hp.op_of_not_gone hthere hgone]
  exact hcurrent

/-- The value `v` that a slot holds was there, or is what the readers of some `o` read instead. -/
theorem held_cases {s : SlotId} (hs : c₀.graph.HasSlot s) {v : ValueId}
    (hv : (g.slot s).value = some v) :
    ¬ (st.gone (c₀.graph.slot s).owner = true ∧
        s ∈ (c₀.graph.op (c₀.graph.slot s).owner).operands) ∧
      ((c₀.graph.slot s).value = some v ∧
          (Ops.isView c₀.graph (c₀.graph.slot s).owner = true ∨
            ∀ o, v ∈ (c₀.graph.op o).results → st.settled o = false) ∨
        Ops.isView c₀.graph (c₀.graph.slot s).owner = false ∧
          ∃ o, ∃ u ∈ (c₀.graph.op o).results, (c₀.graph.slot s).value = some u ∧
            st.value o = some v) := by
  have howned := h.sound.graph.owned
  rw [hp.held s hs, Stage.held] at hv
  split at hv
  · cases hv
  · next hgone =>
    refine ⟨hgone, ?_⟩
    split at hv
    · next hview => exact Or.inl ⟨hv, Or.inl hview⟩
    · next hview =>
      obtain ⟨u, hu, huv⟩ := Option.map_eq_some_iff.mp hv
      have hthere := h.sound.graph.uses.held s u hu
      by_cases hsettled : ∃ o, u ∈ (c₀.graph.op o).results ∧ st.settled o = true
      · obtain ⟨o, huo, hso⟩ := hsettled
        obtain ⟨w, hw⟩ := hp.settled_value o hso
        rw [Stage.redirected_of_mem howned huo, hso, hw] at huv
        cases huv
        exact Or.inr ⟨Bool.eq_false_iff.mpr hview, o, u, huo, hu, hw⟩
      · have hno : ∀ o, u ∈ (c₀.graph.op o).results → st.settled o = false := by
          intro o huo
          rw [← Bool.not_eq_true]
          exact fun hso => hsettled ⟨o, huo, hso⟩
        rw [Stage.redirected_eq howned hthere hno] at huv
        subst huv
        exact Or.inl ⟨hu, Or.inr hno⟩

section

variable (hg : g.WellFormed)

include hg

/-- A slot that holds `v` is current, if it was when it held `v` or what `v` replaces. -/
theorem current {s : SlotId} {v : ValueId} (hv : (g.slot s).value = some v)
    (hkept : (c₀.graph.slot s).value = some v → c₀.graph.Current s)
    (hnew : ∀ o, st.value o = some v → ∀ u ∈ (c₀.graph.op o).results,
      (c₀.graph.slot s).value = some u → c₀.graph.Current s) : g.Current s := by
  by_cases hs : c₀.graph.HasSlot s
  · obtain ⟨hgone, ⟨hheld, -⟩ | ⟨hview, o, u, hu, hheld, hw⟩⟩ := hp.held_cases h hs hv
    · have hcurrent := hkept hheld
      refine hp.current_of_not_gone h hs hcurrent ?_
      rw [← Bool.not_eq_true]
      exact fun hc => hgone ⟨hc, hcurrent.2⟩
    · refine hp.current_of_not_gone h hs (hnew o hw u hu hheld) ?_
      rw [← Bool.not_eq_true]
      intro hc
      rw [(hp.viewOf_of_gone hc).isView] at hview
      cases hview
  · -- a new slot is an operand of a new view
    obtain ⟨x, y, hy, hmem⟩ := hp.fresh_slot s hs v hv
    obtain ⟨_, _, _, _, -, -, -, -, hrebuilt, -⟩ := hp.views x y hy
    obtain ⟨slots, hrow⟩ := hrebuilt.row
    rw [Graph.Current, (hg.numbered.of_mem hmem).2.1]
    refine ⟨?_, hmem⟩
    rw [hrow]

variable {root : OpId} (hverified : c₀.graph.Verified root [])
  (hinside : c₀.graph.Inside root old)
  (hval : ∀ r ∈ (c₀.graph.op old).results, ∀ s, (c₀.graph.slot s).value = some r →
    c₀.graph.Visible val (c₀.graph.slot s).owner)

include hval in
/-- What an operation `i` that stays reads is visible to it. -/
theorem reads_of_stays {i : OpId} (hi : c₀.graph.HasOp i) (hgone : st.gone i = false)
    (hsane : c₀.graph.Sane [] i) :
    ∀ s ∈ (g.op i).operands, ∃ v, (g.slot s).value = some v ∧ g.Visible v i := by
  intro s hs
  rw [hp.op_of_not_gone hi hgone] at hs
  obtain ⟨hslot, howner, -⟩ := h.sound.graph.numbered.of_mem hs
  obtain ⟨u, hu, hvisible⟩ := hsane.reads s hs
  have hplace : i ∈ st.places i := Stage.mem_places_self hgone
  obtain ⟨v, hv⟩ : ∃ v, (g.slot s).value = some v := by
    rw [hp.held s hslot, Stage.held, howner, hgone, if_neg fun hc => Bool.false_ne_true hc.1, hu]
    split
    · exact ⟨_, rfl⟩
    · exact ⟨_, rfl⟩
  refine ⟨v, hv, ?_⟩
  obtain ⟨-, ⟨hheld, hkept⟩ | ⟨-, o, u', hu', hheld, hw⟩⟩ := hp.held_cases h hslot hv
  · rw [hu] at hheld
    cases hheld
    refine hp.visible_of_not_gone h hplace hi (h.sound.graph.uses.held s u hu) (fun d hd => ?_)
      hvisible
    -- a view that is gone would have no readers left
    rw [← Bool.not_eq_true]
    intro hdgone
    rcases hkept with hview | hsettled
    · rw [howner] at hview
      rw [hp.gone_below d i hdgone ⟨hview, s, howner, u, hd, hu⟩] at hgone
      cases hgone
    · have hno := hsettled d hd
      rw [(hp.gone_settled d hdgone).1] at hno
      cases hno
  · rw [hu] at hheld
    cases hheld
    refine hp.visible_value h hg hplace hi hw hu' hvisible fun ho => ?_
    subst ho
    exact howner ▸ hval u hu' s hu

include hverified hinside hval

/-- An operation `i` that stays is `Sane`. -/
theorem sane_of_stays {i : OpId} (hi : c₀.graph.HasOp i) (hgone : st.gone i = false)
    (hin : c₀.graph.Inside root i) : g.Sane [] i := by
  have hsane := hverified i hin
  have hrow := hp.op_of_not_gone hi hgone
  refine ⟨by rw [hrow]; exact hsane.live, hp.reads_of_stays h hg hval hi hgone hsane,
    fun v hv s hs => ?_, fun b hb _ t ht => ?_⟩
  · rw [hrow] at hv
    refine hp.current h hg hs (hsane.uses v hv s) fun o ho u hu hheld => ?_
    -- what was there before is read instead of results of the old operation only
    obtain rfl | ⟨y, hy⟩ := hp.value_view o v ho
    · exact (hverified _ hinside).uses u hu s hheld
    · obtain ⟨_, _, w, _, -, -, -, hw, hrebuilt, -⟩ := hp.views o y hy
      rw [hw] at ho
      cases ho
      exact absurd (h.sound.graph.owned.mem_results_iff.mp hv).1 hrebuilt.fresh_value
  · rw [hp.blockParent b] at hb
    rw [hrow] at ht
    obtain ⟨last, hlast, hname⟩ := hsane.ends b hb nofun t ht
    have hthere := h.sound.graph.members.hasOp (List.mem_of_getLast? hlast)
    have hne := hp.places_ne_nil last
    obtain ⟨last', hlast'⟩ := Option.isSome_iff_exists.mp (List.getLast?_isSome.mpr hne)
    refine ⟨last', ?_, ?_⟩
    · rw [hp.block b]
      exact (getLast?_flatMap hlast hne).trans hlast'
    · rw [(hp.row_of_places (List.mem_of_getLast? hlast') hthere).2.1]
      exact hname

/-- A view `y` that was built anew is `Sane`. -/
theorem sane_of_view (hroot : c₀.graph.HasOp root) {x y : OpId} (hy : st.view x = some y)
    (hin : g.Inside root y) : g.Sane [] y := by
  have hplace : y ∈ st.places x := Stage.mem_places_view hy
  have hview := hp.viewOf_of_view hy
  have hx := hview.hasOp
  have hsane := hverified x (hp.inside_of_places h hin hroot hplace hx)
  obtain ⟨p, w, v, t, hviewed, hfeeds, hw, hv, hrebuilt, -⟩ := hp.views x y hy
  obtain ⟨slots, hrow⟩ := hrebuilt.row
  refine ⟨by rw [hrow], fun s hs => ?_, fun r hr s hs => ?_, fun b hb _ => ?_⟩
  · have hmem : (g.slot s).value ∈ g.operands y := List.mem_map_of_mem hs
    rw [hrebuilt.reads] at hmem
    obtain ⟨u, hu, hvalue⟩ := List.mem_map.mp hmem
    refine ⟨u, hvalue.symm, ?_⟩
    rcases List.mem_cons.mp hu with rfl | hu
    · obtain ⟨hisView, s', howner, r, hr, hheld⟩ := hfeeds
      have hoperand := h.mem_operands hviewed hr hheld (howner ▸ hisView)
      rw [howner] at hoperand
      refine hp.visible_value h hg hplace hx hw hr (hsane.visible hoperand hheld) fun hpo => ?_
      subst hpo
      exact howner ▸ hval r hr s' hheld
    · obtain ⟨s', hs', hheld, -⟩ := h.mem_offsets hview.isView hu
      refine hp.visible_of_not_gone h hplace hx (h.sound.graph.uses.held s' u hheld)
        (fun d hd => ?_) (hsane.visible hs' hheld)
      rw [← Bool.not_eq_true]
      exact fun hgone => h.offsets_apart hview (hp.viewOf_of_gone hgone).to_reflTransGen hu hd
  · rw [hrow] at hr
    rw [List.mem_singleton.mp hr] at hs
    refine hp.current h hg hs (fun hheld => ?_) fun o ho u hu hheld => ?_
    · exact absurd (h.sound.graph.uses.held s v hheld) hrebuilt.fresh_value
    · have hthere : c₀.graph.Inside root o := by
        obtain rfl | ⟨y', hy'⟩ := hp.value_view o v ho
        · exact hinside
        · -- the value is the result of one view only, and that stands in the place of `o`
          obtain ⟨_, _, v', _, -, -, -, hv', hrebuilt', -⟩ := hp.views o y' hy'
          obtain ⟨slots', hrow'⟩ := hrebuilt'.row
          rw [hv'] at ho
          cases ho
          have hsame : y' = y := by
            obtain ⟨-, n, hn⟩ := hg.owned.mem_results_iff.mp
              (show v ∈ (g.op y).results by rw [hrow]; exact List.mem_singleton_self v)
            obtain ⟨-, m, hm⟩ := hg.owned.mem_results_iff.mp
              (show v ∈ (g.op y').results by rw [hrow']; exact List.mem_singleton_self v)
            rw [hn] at hm
            cases hm
            rfl
          subst hsame
          exact hp.inside_of_places h hin hroot (Stage.mem_places_view hy')
            (hp.viewOf_of_view hy').hasOp
      exact (hverified o hthere).uses u hu s hheld
  · -- what is new has nothing inside
    rw [hp.blockParent b] at hb
    exact absurd (Graph.hasOp_of_blockParent h.sound.graph hb) hrebuilt.fresh

/-- `root` is verified at every stage. -/
theorem verified (hne : old ≠ root) : g.Verified root [] := by
  obtain ⟨j, hj⟩ := hinside.exists_child hne
  obtain ⟨hstays, hroot⟩ := hp.stays_of_parent h hj
  intro i hi
  by_cases hthere : c₀.graph.HasOp i
  · -- what is gone is in no block, so it is not inside anything
    have hgone : st.gone i = false := by
      cases hi with
      | root => exact hstays
      | step hparent =>
        rw [← Bool.not_eq_true]
        intro hgone
        rw [Graph.parent, hp.op i hthere, hgone] at hparent
        cases hparent
    refine hp.sane_of_stays h hg hverified hinside hval hthere hgone ?_
    exact hp.inside_of_places h hi hroot (Stage.mem_places_self hgone) hthere
  · have hnew : g.HasOp i := by
      cases hi with
      | root => exact absurd hroot hthere
      | step hparent => exact Graph.hasOp_of_parent hparent
    obtain ⟨x, hx⟩ := hp.fresh_op i hnew hthere
    exact hp.sane_of_view h hg hverified hinside hval hroot hx hi

end

end Progress

end Buffer

end Multistage
