import Multistage.Proofs.Build.BuilderSuccess
import Multistage.Proofs.Graph.OrderlyGraphs

/-!
# Work that keeps contexts tidy

A context is tidy if it is sound and its graph is orderly. `Keeps` is the judgement for work that
leaves a tidy context tidy, whether it succeeds or fails, and `Asks` the one for work that only
looks at the context. `KeepsIf` is for work that may go wrong by succeeding. The functions of the
builder are gone through with them: what creates, copies and erases always keeps a context tidy,
and what sets operands or moves operations does so under a condition.
-/

namespace Multistage

open BuildM

/-- `c` is `Sound` and its graph is `Orderly`. -/
structure Context.Tidy (c : Context) : Prop where
  sound : c.Sound
  orderly : c.graph.Orderly

/-- The cursor does not matter to `Tidy`, as long as it stands at things that are there. -/
theorem Context.Tidy.withCursor {c : Context} (h : c.Tidy) {p : Cursor}
    (hp : c.graph.HasCursor p) : Context.Tidy { c with cursor := p } :=
  ⟨h.sound.advance (.move p hp), h.orderly⟩

namespace BuildM

variable {α β : Type} {c : Context}

/-- Some work only makes moves and leaves the context tidy, also if it fails. If it succeeds, the
answer and the context are as `Q` says. -/
abbrev Keeps (work : BuildM α) (c : Context) (Q : α → Context → Prop) : Prop :=
  work.Meets c (fun a c' => c'.Tidy ∧ Q a c') fun _ => Context.Tidy

/-- Some work leaves the context as it is, also if it fails. If it succeeds, the answer is as `P`
says. -/
abbrev Asks (work : BuildM α) (c : Context) (P : α → Prop) : Prop :=
  work.Meets c (fun a c' => c' = c ∧ P a) fun _ c' => c' = c

/-- Some work only makes moves and leaves the context tidy if it fails. If it succeeds, the context
is tidy provided that `p`, and as `Q` says in any case. -/
abbrev KeepsIf (work : BuildM α) (c : Context) (p : Prop) (Q : α → Context → Prop) : Prop :=
  work.Meets c (fun a c' => (p → c'.Tidy) ∧ Q a c') fun _ => Context.Tidy

namespace Keeps

variable {P : α → Context → Prop} {Q : β → Context → Prop}

theorem bind {x : BuildM α} {f : α → BuildM β} (hx : x.Keeps c P)
    (hf : ∀ a c', c.Advances c' → c'.Tidy → P a c' → (f a).Keeps c' Q) : (x >>= f).Keeps c Q :=
  Meets.bind hx fun a c' hadv hc => hf a c' hadv hc.1 hc.2

theorem pure (h : c.Tidy) {a : α} (ha : P a c) : (Pure.pure a : BuildM α).Keeps c P :=
  Meets.pure ⟨h, ha⟩

theorem throw (h : c.Tidy) {e : Failure} : (MonadExceptOf.throw e : BuildM α).Keeps c P :=
  Meets.throw h

theorem imp {x : BuildM α} {P' : α → Context → Prop} (hx : x.Keeps c P)
    (hP : ∀ a c', c.Advances c' → c'.Tidy → P a c' → P' a c') : x.Keeps c P' :=
  Meets.imp hx (fun a c' hadv hc => ⟨hc.1, hP a c' hadv hc.1 hc.2⟩) fun _ _ _ hc => hc

theorem any {x : BuildM α} (hx : x.Keeps c P) : x.Keeps c fun _ _ => True :=
  hx.imp fun _ _ _ _ _ => trivial

theorem map {x : BuildM α} {f : α → β} (hx : x.Keeps c P)
    (hf : ∀ a c', P a c' → Q (f a) c') : (f <$> x).Keeps c Q := by
  rw [map_eq_pure_bind]
  exact hx.bind fun a c' _ h ha => .pure h (hf a c' ha)

/-- `Keeps` where the answer does not matter. -/
theorem forget {x : BuildM α} (hx : x.Keeps c P) : (Functor.discard x).Keeps c fun _ _ => True :=
  hx.bind fun _ _ _ h _ => .pure h trivial

/-- `Keeps` of work of which `Leads` is known already. -/
theorem of_leads {x : BuildM α} (hx : x.Keeps c fun _ _ => True) (hleads : x.Leads c P) :
    x.Keeps c P := by
  refine .of_runs (fun a c' hrun => ?_) fun f c' hrun => hx.of_error hrun
  exact ⟨(hx.of_ok hrun).1, (hx.of_ok hrun).2.1, (hleads.of_ok hrun).2⟩

/-- The invariant `I` that every step keeps, a loop keeps. -/
theorem forM {f : α → BuildM Unit} {l : List α} (I : Context → Prop)
    (hstep : ∀ a ∈ l, ∀ c', c.Advances c' → c'.Tidy → I c' → (f a).Keeps c' fun _ => I)
    (h : c.Tidy) (hinit : I c) : (l.forM f).Keeps c fun _ => I :=
  Meets.forM (fun _ c' => c'.Tidy ∧ I c')
    (fun done a rest c' hl hadv hc => hstep a (by simp [hl]) c' hadv hc.1 hc.2) ⟨h, hinit⟩

theorem foldlM {f : β → α → BuildM β} {l : List α} (I : β → Context → Prop)
    (hstep : ∀ acc, ∀ a ∈ l, ∀ c', c.Advances c' → c'.Tidy → I acc c' → (f acc a).Keeps c' I)
    (h : c.Tidy) {init : β} (hinit : I init c) : (l.foldlM f init).Keeps c I :=
  Meets.foldlM (fun _ acc c' => c'.Tidy ∧ I acc c')
    (fun _ a acc c' ha hadv hc => hstep acc a ha c' hadv hc.1 hc.2) ⟨h, hinit⟩

end Keeps

namespace Asks

variable {P : α → Prop} {P' : β → Prop} {Q : β → Context → Prop}

/-- Work `f` that goes on after `Asks` goes on in the same context. -/
theorem bind {x : BuildM α} {f : α → BuildM β} (hx : x.Asks c P) (h : c.Tidy)
    (hf : ∀ a, P a → (f a).Keeps c Q) : (x >>= f).Keeps c Q := by
  refine Meets.bind (hx.imp (fun _ _ _ hc => hc) ?_) fun a c' _ hc => ?_
  · rintro _ _ _ rfl
    exact h
  · obtain ⟨rfl, ha⟩ := hc
    exact hf a ha

theorem map {x : BuildM α} {f : α → BuildM β} (hx : x.Asks c P)
    (hf : ∀ a, P a → (f a).Asks c P') : (x >>= f).Asks c P' := by
  refine Meets.bind hx fun a c' _ hc => ?_
  obtain ⟨rfl, ha⟩ := hc
  exact hf a ha

theorem pure {a : α} (ha : P a) : (Pure.pure a : BuildM α).Asks c P := Meets.pure ⟨rfl, ha⟩

theorem throw {e : Failure} : (MonadExceptOf.throw e : BuildM α).Asks c P := Meets.throw rfl

theorem imp {x : BuildM α} {P' : α → Prop} (hx : x.Asks c P) (hP : ∀ a, P a → P' a) :
    x.Asks c P' :=
  Meets.imp hx (fun a _ _ hc => ⟨hc.1, hP a hc.2⟩) fun _ _ _ hc => hc

theorem keeps {x : BuildM α} (hx : x.Asks c P) (h : c.Tidy) :
    x.Keeps c fun a c' => c' = c ∧ P a := by
  refine Meets.imp hx (fun a c' _ hc => ?_) ?_
  · obtain ⟨rfl, ha⟩ := hc
    exact ⟨h, rfl, ha⟩
  · rintro _ _ _ rfl
    exact h

end Asks

namespace KeepsIf

variable {p q : Prop} {P : α → Context → Prop} {Q : β → Context → Prop}

theorem of_keeps {x : BuildM α} (hx : x.Keeps c P) : x.KeepsIf c p P :=
  Meets.imp hx (fun _ _ _ hc => ⟨fun _ => hc.1, hc.2⟩) fun _ _ _ hc => hc

/-- For `KeepsIf` it is enough that `p` holds if the work succeeds. -/
theorem keeps {x : BuildM α} (hx : x.KeepsIf c p P) (hp : ∀ a c', x c = .ok a c' → p) :
    x.Keeps c P := by
  refine .of_runs (fun a c' hrun => ?_) fun f c' hrun => hx.of_error hrun
  obtain ⟨hadv, htidy, ha⟩ := hx.of_ok hrun
  exact ⟨hadv, htidy (hp a c' hrun), ha⟩

theorem imp {x : BuildM α} (hx : x.KeepsIf c p P) (hqp : q → p) : x.KeepsIf c q P :=
  Meets.imp hx (fun _ _ _ hc => ⟨fun hq => hc.1 (hqp hq), hc.2⟩) fun _ _ _ hc => hc

theorem after_keeps {x : BuildM α} {f : α → BuildM β} (hx : x.Keeps c P)
    (hf : ∀ a c', c.Advances c' → c'.Tidy → P a c' → (f a).KeepsIf c' p Q) :
    (x >>= f).KeepsIf c p Q :=
  Meets.bind hx fun a c' hadv hc => hf a c' hadv hc.1 hc.2

theorem after_asks {x : BuildM α} {P : α → Prop} {f : α → BuildM β} (hx : x.Asks c P)
    (h : c.Tidy) (hf : ∀ a, P a → (f a).KeepsIf c p Q) : (x >>= f).KeepsIf c p Q := by
  refine after_keeps (hx.keeps h) fun a c' _ _ hc => ?_
  obtain ⟨rfl, ha⟩ := hc
  exact hf a ha

theorem any {x : BuildM α} (hx : x.KeepsIf c p P) : x.KeepsIf c p fun _ _ => True :=
  Meets.imp hx (fun _ _ _ hc => ⟨hc.1, trivial⟩) fun _ _ _ hc => hc

/-- `KeepsIf` where the answer is changed in the end. -/
theorem bind_pure {x : BuildM α} (hx : x.KeepsIf c p P) {f : α → β}
    (hQ : ∀ a c', P a c' → Q (f a) c') : (x >>= fun a => Pure.pure (f a)).KeepsIf c p Q :=
  Meets.bind hx fun a c' _ hc => Meets.pure ⟨hc.1, hQ a c' hc.2⟩

theorem forget {x : BuildM α} (hx : x.KeepsIf c p P) :
    (Functor.discard x).KeepsIf c p fun _ _ => True :=
  hx.bind_pure (f := fun _ => PUnit.unit) fun _ _ _ => trivial

end KeepsIf

/-! ## The building blocks of work -/

theorem asks_get : Asks get c fun s => c = s := ⟨.refl, rfl, rfl⟩

theorem asks_graph : graph.Asks c fun g => g = c.graph := ⟨.refl, rfl, rfl⟩

theorem asks_cursor : cursor.Asks c fun p => p = c.cursor := ⟨.refl, rfl, rfl⟩

theorem asks_present (a : Option α) : (present a).Asks c fun x => a = some x := by
  cases a with
  | some a => exact .pure rfl
  | none => exact .throw

theorem keeps_modifyGraph (h : c.Tidy) {f : Graph → Graph}
    (hedits : Graph.Edits c.catalog c.graph (f c.graph)) (horderly : (f c.graph).Orderly) :
    (modifyGraph f).Keeps c fun _ c' => c' = { c with graph := f c.graph } :=
  have hadv := Context.advances_of_edits hedits
  ⟨hadv, ⟨h.sound.advances hadv, horderly⟩, rfl⟩

theorem keeps_updateGraph (h : c.Tidy) {f : Graph → Graph × α}
    (hedits : Graph.Edits c.catalog c.graph (f c.graph).1) (horderly : (f c.graph).1.Orderly) :
    (updateGraph f).Keeps c fun a c' =>
      a = (f c.graph).2 ∧ c' = { c with graph := (f c.graph).1 } :=
  have hadv := Context.advances_of_edits hedits
  ⟨hadv, ⟨h.sound.advances hadv, horderly⟩, rfl, rfl⟩

theorem keepsIf_tryGraph (h : c.Tidy) {p : Prop} {f : Graph → Except Failure Graph}
    (hedits : ∀ g, f c.graph = .ok g → Graph.Edits c.catalog c.graph g)
    (horderly : p → ∀ g, f c.graph = .ok g → g.Orderly) :
    (tryGraph f).KeepsIf c p fun _ c' => ∃ g, f c.graph = .ok g ∧ c' = { c with graph := g } := by
  refine (meets_tryGraph hedits fun _ _ => h).imp (fun _ c' hadv hc => ⟨fun hp => ?_, hc⟩)
    fun _ _ _ hc => hc
  obtain ⟨g, hg, rfl⟩ := hc
  exact ⟨h.sound.advances hadv, horderly hp g hg⟩

theorem keeps_tryGraph (h : c.Tidy) {f : Graph → Except Failure Graph}
    (hedits : ∀ g, f c.graph = .ok g → Graph.Edits c.catalog c.graph g)
    (horderly : ∀ g, f c.graph = .ok g → g.Orderly) :
    (tryGraph f).Keeps c fun _ c' => ∃ g, f c.graph = .ok g ∧ c' = { c with graph := g } :=
  (keepsIf_tryGraph h hedits fun _ => horderly).keeps fun _ _ _ => trivial

theorem keeps_move (h : c.Tidy) {f : Cursor → Cursor} (hf : c.graph.HasCursor (f c.cursor)) :
    Keeps (modify fun s : Context => { s with cursor := f s.cursor }) c
      fun _ c' => c' = { c with cursor := f c.cursor } :=
  ⟨.single (.move _ hf), h.withCursor hf, rfl⟩

theorem keeps_setCursor (h : c.Tidy) {p : Cursor} (hp : c.graph.HasCursor p) :
    (setCursor p).Keeps c fun _ c' => c' = { c with cursor := p } :=
  keeps_move h (f := fun _ => p) hp

/-- Whatever `p` does to the cursor in the end, `Keeps` asks for the graph only. -/
theorem keeps_of_cursor (h : c.Tidy) {work : BuildM α} {p : Context → Cursor}
    {Q : α → Graph → Prop} (hwork : work.Meets c
      (fun a c' => ∃ d : Context, (d.Tidy ∧ Q a d.graph) ∧ c' = { d with cursor := p d })
      fun _ c' => ∃ d : Context, d.Tidy ∧ c' = { d with cursor := p d }) :
    work.Keeps c fun a d => Q a d.graph := by
  refine hwork.imp (fun a c' hadv hc => ?_) fun _ c' hadv hc => ?_
  · obtain ⟨d, ⟨hd, hQ⟩, rfl⟩ := hc
    exact ⟨⟨h.sound.advances hadv, hd.orderly⟩, hQ⟩
  · obtain ⟨d, hd, rfl⟩ := hc
    exact ⟨h.sound.advances hadv, hd.orderly⟩

theorem keeps_withCursor (h : c.Tidy) {p : Cursor} (hp : c.graph.HasCursor p) {work : BuildM α}
    {Q : α → Graph → Prop} (hwork : work.Keeps { c with cursor := p } fun a d => Q a d.graph) :
    (withCursor p work).Keeps c fun a d => Q a d.graph :=
  keeps_of_cursor h (meets_withCursor h.sound.cursor hp hwork)

theorem keeps_withLoc (h : c.Tidy) {loc : Location} {work : BuildM α} {Q : α → Graph → Prop}
    (hwork : work.Keeps { c with cursor := { c.cursor with loc } } fun a d => Q a d.graph) :
    (withLoc loc work).Keeps c fun a d => Q a d.graph :=
  keeps_of_cursor h (meets_withLoc h.sound hwork)

theorem keeps_keepingPoint (h : c.Tidy) {work : BuildM α} {Q : α → Graph → Prop}
    (hwork : work.Keeps c fun a d => Q a d.graph) :
    (keepingPoint work).Keeps c fun a d => Q a d.graph :=
  keeps_of_cursor h (meets_keepingPoint h.sound hwork)

theorem keepsIf_keepingPoint (h : c.Tidy) {p : Prop} {work : BuildM α}
    (hwork : work.KeepsIf c p fun _ _ => True) :
    (keepingPoint work).KeepsIf c p fun _ _ => True := by
  refine (meets_keepingPoint h.sound hwork).imp (fun a c' hadv hc => ⟨fun hp => ?_, trivial⟩)
    fun _ c' hadv hc => ?_
  · obtain ⟨d, hd, rfl⟩ := hc
    exact ⟨h.sound.advances hadv, (hd.1 hp).orderly⟩
  · obtain ⟨d, hd, rfl⟩ := hc
    exact ⟨h.sound.advances hadv, hd.orderly⟩

/-! ## Reports and tables -/

theorem keeps_writeLog (h : c.Tidy) (level : LogLevel) (text : String) :
    (writeLog level text).Keeps c fun _ c' => c'.graph = c.graph :=
  ⟨.single (.report _ _), ⟨h.sound.advance (.report _ _), h.orderly⟩, rfl⟩

theorem keeps_trace (h : c.Tidy) (level : Int) (text : String) :
    (trace level text).Keeps c fun _ c' => c'.graph = c.graph := by
  refine asks_get.bind h fun s hs => ?_
  split
  · exact keeps_writeLog h _ _
  · exact .pure h rfl

theorem keeps_emit (h : c.Tidy) (severity : Severity) (i : OpId) (message : String) :
    (emit severity i message).Keeps c fun _ c' => c'.graph = c.graph := by
  refine asks_get.bind h fun s hs => ?_
  split
  · exact ⟨.single (.report _ _), ⟨h.sound.advance (.report _ _), h.orderly⟩, rfl⟩
  · exact asks_graph.bind h fun g _ => keeps_writeLog h _ _
  · exact .pure h rfl

theorem keeps_registerKind (h : c.Tidy) (k : OpKind) :
    (registerKind k).Keeps c fun _ _ => True := by
  refine asks_get.bind h fun s hs => ?_
  subst hs
  cases hk : c.catalog.insert? k with
  | some catalog =>
    have hadv : c.Advance { c with catalog } := .registerKind k hk
    exact ⟨.single hadv, ⟨h.sound.advance hadv, h.orderly⟩, trivial⟩
  | none => exact .throw h

theorem keeps_registerStrategy (h : c.Tidy) (name : String) (s : Strategy) :
    (registerStrategy name s).Keeps c fun _ _ => True := by
  unfold registerStrategy
  split
  · exact .throw h
  refine asks_get.bind h fun c' hc => ?_
  subst hc
  cases hfits : s.misfit? c.catalog name with
  | some r => exact .throw h
  | none =>
    refine asks_get.bind h fun c' hc => ?_
    subst hc
    cases hold : c.strategies.find? name with
    | some old => exact .throw h
    | none =>
      have hadv : c.Advance { c with strategies := c.strategies.insert name s } :=
        .registerStrategy name s hold hfits
      exact ⟨.single hadv, ⟨h.sound.advance hadv, h.orderly⟩, trivial⟩

end BuildM

/-- Every operation that was there has its name and operands and is erased only if it was or is one of
those in `S`, every slot belongs where it belonged, and no operation got another block. -/
structure Graph.Leaves (S : OpId → Prop) (g g' : Graph) : Prop where
  op : ∀ i, g.HasOp i → (g'.op i).name = (g.op i).name ∧ (g'.op i).operands = (g.op i).operands
  mark : ∀ i, g.HasOp i → ¬ S i → (g'.op i).erased = (g.op i).erased
  owner : ∀ s, g.HasSlot s → (g'.slot s).owner = (g.slot s).owner
  around : ∀ b, g'.blockParent b = g.blockParent b

/-- No operation is erased between `g` and `g'`. -/
abbrev Graph.LeavesAll (g g' : Graph) : Prop := Graph.Leaves (fun _ => False) g g'

namespace Graph.Leaves

variable {S T : OpId → Prop} {g g' g'' : Graph}

theorem refl (S : OpId → Prop) (g : Graph) : Leaves S g g :=
  ⟨fun _ _ => ⟨rfl, rfl⟩, fun _ _ _ => rfl, fun _ _ => rfl, fun _ => rfl⟩

theorem trans (h : Leaves S g g') (hwithin : g.Within g') (h' : Leaves T g' g'')
    (hTS : ∀ i, g.HasOp i → T i → S i) : Leaves S g g'' where
  op i hi := by
    obtain ⟨hname, hoperands⟩ := h'.op i (hwithin.hasOp hi)
    exact ⟨hname.trans (h.op i hi).1, hoperands.trans (h.op i hi).2⟩
  mark i hi hout :=
    (h'.mark i (hwithin.hasOp hi) fun hT => hout (hTS i hi hT)).trans (h.mark i hi hout)
  owner s hs := (h'.owner s (hwithin.hasSlot hs)).trans (h.owner s hs)
  around b := (h'.around b).trans (h.around b)

theorem install (g : Graph) (o : Op) (vals : List (Option ValueId)) (types : List (Option Ty)) :
    g.LeavesAll (g.install o vals types) where
  op i hi := by
    rw [op_install, if_neg hi.ne_nextOp]
    exact ⟨rfl, rfl⟩
  mark i hi _ := by rw [op_install, if_neg hi.ne_nextOp]
  owner s hs := by rw [slot_install_of_hasSlot g o vals types hs]
  around b := by rw [blockParent, block_install, blockParent]

theorem place (g : Graph) (b : BlockId) (k : Nat) (i : OpId) : g.LeavesAll (g.place b k i) where
  op j _ := by
    rw [op_place]
    split <;> exact ⟨rfl, rfl⟩
  mark j _ _ := by
    rw [op_place]
    split <;> rfl
  owner _ _ := rfl
  around c := by
    unfold blockParent
    rw [block_place]
    split <;> rfl

theorem describe (g : Graph) (i : OpId) {f : Op → Op}
    (hf : ∀ o, ∃ attrs loc, f o = { o with attrs := attrs, loc := loc }) :
    g.LeavesAll (g.modifyOp i f) := by
  have hrow : ∀ j, ((g.modifyOp i f).op j).name = (g.op j).name ∧
      ((g.modifyOp i f).op j).operands = (g.op j).operands ∧
      ((g.modifyOp i f).op j).erased = (g.op j).erased := by
    intro j
    rw [op_modifyOp]
    split
    · obtain ⟨attrs, loc, ho⟩ := hf (g.op j)
      rw [ho]
      exact ⟨rfl, rfl, rfl⟩
    · exact ⟨rfl, rfl, rfl⟩
  exact ⟨fun j _ => ⟨(hrow j).1, (hrow j).2.1⟩, fun j _ _ => (hrow j).2.2, fun _ _ => rfl,
    fun _ => rfl⟩

end Graph.Leaves

namespace Build

variable {c : Context}

/-! ## The cursor -/

theorem asks_blockOfPoint (i : OpId) :
    (blockOfPoint i).Asks c fun b => (c.graph.op i).block = some b := by
  refine asks_graph.map fun g hg => ?_
  subst hg
  cases hb : (c.graph.op i).block with
  | some b => exact .pure rfl
  | none => exact .throw

theorem asks_position (label : Option OpLabel) :
    (position label).Asks c fun p => c.At p.1 p.2 := by
  refine asks_cursor.map fun p hp => ?_
  subst hp
  refine asks_graph.map fun g hg => ?_
  subst hg
  cases hblock : c.cursor.block with
  | none => exact .throw
  | some b =>
    cases hbefore : c.cursor.before with
    | none =>
      refine .pure ⟨hblock, ?_⟩
      rw [hbefore]
    | some i =>
      dsimp only
      cases hk : (c.graph.block b).ops.idxOf? i with
      | none => exact .throw
      | some k =>
        refine .pure ⟨hblock, ?_⟩
        rw [hbefore]
        exact hk

theorem asks_cursorBefore (h : c.Sound) (i : OpId) :
    (cursorBefore i).Asks c fun p => c.graph.HasCursor p := by
  refine (asks_blockOfPoint i).map fun b hb => ?_
  exact asks_graph.map fun g _ => .pure (hasCursor_before h.graph hb _)

theorem keeps_moveBefore (h : c.Tidy) (i : OpId) :
    (moveBefore i).Keeps c fun _ c' => c'.graph = c.graph := by
  refine (asks_blockOfPoint i).bind h fun b hb => ?_
  have hcursor := hasCursor_before h.sound.graph hb c.cursor.loc
  exact ⟨.single (.move _ hcursor), h.withCursor hcursor, rfl⟩

theorem keeps_moveAfter (h : c.Tidy) (i : OpId) :
    (moveAfter i).Keeps c fun _ c' => c'.graph = c.graph := by
  refine (asks_blockOfPoint i).bind h fun b hb => ?_
  have hcursor : c.graph.HasCursor
      { c.cursor with block := some b, before := c.graph.next i } := by
    refine ⟨?_, fun j hj => hasOp_next h.sound.graph hj⟩
    rintro _ ⟨⟩
    exact h.sound.graph.members.hasBlock hb
  exact ⟨.single (.move _ hcursor), h.withCursor hcursor, rfl⟩

theorem keeps_moveToStart (h : c.Tidy) {b : BlockId} (hb : c.graph.HasBlock b) :
    (moveToStart b).Keeps c fun _ c' => c'.graph = c.graph := by
  have hcursor : c.graph.HasCursor
      { c.cursor with block := some b, before := (c.graph.block b).ops.head? } := by
    refine ⟨?_, fun i hi => h.sound.graph.members.hasOp (List.mem_of_mem_head? hi)⟩
    rintro _ ⟨⟩
    exact hb
  exact ⟨.single (.move _ hcursor), h.withCursor hcursor, rfl⟩

theorem keeps_moveToEnd (h : c.Tidy) {b : Option BlockId} (hb : ∀ x ∈ b, c.graph.HasBlock x) :
    (moveToEnd b).Keeps c fun _ c' => c'.graph = c.graph :=
  (keeps_move h (f := fun p => { p with block := b, before := none }) ⟨hb, nofun⟩).imp
    fun _ _ _ _ hc => by rw [hc]

theorem keeps_setLoc (h : c.Tidy) (loc : Location) :
    (setLoc loc).Keeps c fun _ c' => c'.graph = c.graph :=
  (keeps_move h (f := fun p => { p with loc }) h.sound.cursor).imp fun _ _ _ _ hc => by rw [hc]

/-! ## Creating and inserting -/

theorem keeps_createDetached (h : c.Tidy) {spec : OpSpec} (hspec : c.graph.HasSpec spec) :
    (createDetached spec).Keeps c fun i c' => Graph.Arrives c.catalog c.graph c'.graph i ∧
      c'.cursor = c.cursor ∧ c.graph.LeavesAll c'.graph := by
  refine asks_get.bind h fun s hs => ?_
  subst hs
  dsimp only
  split
  · -- a specification that does not fit still takes up a number
    refine (keeps_modifyGraph h (.single .skip) h.orderly.skipOp).bind fun _ _ _ h₁ _ => ?_
    exact .throw h₁
  · next hfit =>
    have hedit : Graph.Edit c.catalog c.graph (c.graph.addOp (c.catalog.find? spec.name) spec).1 :=
      Graph.edit_addOp hspec fun hdeclared => by
        simp only [Bool.and_eq_true, Bool.not_eq_true', decide_eq_true_eq, not_and,
          Nat.not_lt] at hfit
        exact hfit (List.isEmpty_eq_false_iff.mpr hdeclared)
    have hblank := Graph.blank_row spec (c.catalog.find? spec.name)
    refine (keeps_updateGraph h (.single hedit) ?_).imp fun i c₁ _ _ hc => ?_
    · exact h.orderly.install h.sound.graph hblank _ _
    · obtain ⟨rfl, rfl⟩ := hc
      exact ⟨Graph.arrives_install hblank hedit, rfl, .install _ _ _ _⟩

theorem keeps_cloneDetached (h : c.Tidy) {m : Mapping} (hm : m.Into c.graph) (i : OpId) :
    (cloneDetached i m).Keeps c fun p c' =>
      Graph.Arrives c.catalog c.graph c'.graph p.1 ∧ c'.cursor = c.cursor := by
  have harrives := Graph.arrives_clone c.catalog h.sound.graph hm i
  refine (keeps_updateGraph h (f := fun g => ((g.clone i m).2.1, ((g.clone i m).1, (g.clone i m).2.2)))
    harrives.path (h.orderly.clone h.sound.graph hm i)).imp fun p c₁ _ _ hc => ?_
  obtain ⟨rfl, rfl⟩ := hc
  exact ⟨harrives, rfl⟩

/-- `insert i` keeps a context tidy where the block of the cursor is not inside `i`. -/
theorem keepsIf_insert (h : c.Tidy) {i : OpId} (hi : c.graph.HasOp i) :
    (insert i).KeepsIf c
      (∀ b ∈ c.cursor.block, ∀ p, c.graph.blockParent b = some p → ¬ c.graph.Inside i p)
      fun j c' => j = i ∧ c.graph.LeavesAll c'.graph := by
  refine .after_asks asks_graph h fun g hg => ?_
  refine .after_asks (asks_position _) h fun p hat => ?_
  obtain ⟨b, k⟩ := p
  refine (keepsIf_tryGraph h (fun g hg => ?_) fun hout g hg => ?_).bind_pure (f := fun _ => i)
    fun _ c₁ hc => ?_
  · exact Graph.edits_insertAt (hat.hasBlock h.sound.cursor) hi hat.le_length hg
  · exact h.orderly.insertAt (hout b hat.1) hg
  · obtain ⟨g, hg, rfl⟩ := hc
    obtain ⟨-, -, rfl⟩ := Graph.insertAt_ok hg
    exact ⟨rfl, .place _ b k i⟩

/-- `insert i` puts a new operation at a cursor that was there before it. -/
theorem keeps_insert_new {c₀ : Context} (h₀ : c₀.Sound) (h : c.Tidy) {i : OpId}
    (harrives : Graph.Arrives c₀.catalog c₀.graph c.graph i) (hcursor : c.cursor = c₀.cursor) :
    (insert i).Keeps c fun j c' => c'.graph.HasOp j ∧ c.graph.LeavesAll c'.graph := by
  -- the cursor stands at things that were there before, and none of them is inside what is new
  have hout : ∀ b ∈ c.cursor.block, ∀ p, c.graph.blockParent b = some p → ¬ c.graph.Inside i p := by
    intro b hb p hp
    rw [hcursor] at hb
    exact harrives.not_inside_block h₀.graph (h₀.cursor.1 b hb) hp
  refine ((keepsIf_insert h harrives.loose.there).keeps fun _ _ _ => hout).imp
    fun j c' hadv _ hc => ?_
  obtain ⟨rfl, hleaves⟩ := hc
  exact ⟨hadv.within.hasOp harrives.loose.there, hleaves⟩

theorem keeps_create (h : c.Tidy) {spec : OpSpec} (hspec : c.graph.HasSpec spec) :
    (create spec).Keeps c fun i c' => c'.graph.HasOp i ∧ c.graph.LeavesAll c'.graph := by
  refine asks_cursor.bind h fun p _ => ?_
  have hlocated : c.graph.HasSpec { spec with loc := if spec.loc = {} then p.loc else spec.loc } :=
    hspec
  refine (keeps_createDetached h hlocated).bind fun i c₁ hadv h₁ hc => ?_
  obtain ⟨harrives, hcursor, hleaves⟩ := hc
  exact (keeps_insert_new h.sound h₁ harrives hcursor).imp
    fun j c₂ _ _ hj => ⟨hj.1, hleaves.trans hadv.within hj.2 fun _ _ => id⟩

theorem hasValue_of_mem_results {g : Graph} (h : g.WellFormed) {i : OpId} {v : ValueId}
    (hv : v ∈ (g.op i).results) : g.HasValue v := by
  obtain ⟨n, hn⟩ := List.mem_iff_getElem?.mp hv
  exact ((h.owned.results i n v).mp hn).1

theorem keeps_createValue (h : c.Tidy) {spec : OpSpec} (hspec : c.graph.HasSpec spec) :
    (createValue spec).Keeps c fun v c' => c'.graph.HasValue v ∧ c.graph.LeavesAll c'.graph := by
  refine (keeps_create h hspec).bind fun i c₁ _ h₁ hc => ?_
  refine asks_graph.bind h₁ fun g hg => ?_
  subst hg
  refine ((asks_present _).keeps h₁).imp fun v c₂ _ _ hv => ?_
  obtain ⟨rfl, hv⟩ := hv
  exact ⟨hasValue_of_mem_results h₁.sound.graph (List.mem_of_mem_head? hv), hc.2⟩

theorem keeps_clone (h : c.Tidy) {m : Mapping} (hm : m.Into c.graph) (i : OpId) :
    (clone i m).Keeps c fun p c' => c'.graph.HasOp p.1 := by
  refine (keeps_cloneDetached h hm i).bind fun p c₁ _ h₁ hc => ?_
  refine (keeps_insert_new h.sound h₁ hc.1 hc.2).bind fun j c₂ _ h₂ hj => ?_
  exact .pure h₂ hj.1

theorem keeps_addBlock (h : c.Tidy) (i : OpId) (region : Int) :
    (addBlock i region).Keeps c fun b c' => c'.graph.HasBlock b := by
  refine asks_graph.bind h fun g hg => ?_
  subst hg
  refine (asks_present _).bind h fun blocks hpick => ?_
  have hlt : region.toNat < (c.graph.op i).regions.length :=
    (List.getElem?_eq_some_iff.mp (getElem?_of_pick? hpick)).1
  -- an operation that is not there has no regions
  have hi : c.graph.HasOp i := by
    by_contra hout
    rw [Graph.op_of_not_hasOp hout] at hlt
    exact Nat.not_lt_zero _ hlt
  refine (keeps_updateGraph h (.single (.addBlock i region.toNat hi hlt))
    (h.orderly.addBlock h.sound.graph i region.toNat)).imp fun b c₁ _ _ hc => ?_
  obtain ⟨rfl, rfl⟩ := hc
  show c.graph.blocks.size < (c.graph.blocks.push _).size
  rw [Array.size_push]
  exact Nat.lt_succ_self _

theorem keeps_addArguments (h : c.Tidy) {b : BlockId} (hb : c.graph.HasBlock b)
    (types : List (Option Ty)) :
    (updateGraph (·.addArguments b types)).Keeps c fun vs c' => ∀ v ∈ vs, c'.graph.HasValue v := by
  refine (keeps_updateGraph h (Graph.edits_addArguments hb types)
    (h.orderly.addArguments b types)).imp fun vs c₁ _ _ hc => ?_
  obtain ⟨rfl, rfl⟩ := hc
  exact (Graph.hasValue_addArguments b types).2

theorem keeps_addArgument (h : c.Tidy) {b : BlockId} (hb : c.graph.HasBlock b) (ty : Option Ty) :
    (addArgument b ty).Keeps c fun _ _ => True :=
  (keeps_updateGraph h (.single (.addArgument b ty hb)) (h.orderly.addArgument b ty)).any

/-! ## Moving and erasing -/

/-- `append b i` keeps a context tidy where `b` is not inside `i`. -/
theorem keepsIf_append (h : c.Tidy) {b : BlockId} {i : OpId} (hb : c.graph.HasBlock b)
    (hi : c.graph.HasOp i) :
    (append b i).KeepsIf c (∀ p, c.graph.blockParent b = some p → ¬ c.graph.Inside i p)
      fun _ _ => True :=
  (keepsIf_tryGraph h (fun _ hg => Graph.edits_insertAt hb hi (Nat.le_refl _) hg)
    fun hout _ hg => h.orderly.insertAt hout hg).any

/-- `relocate i other` keeps a context tidy where `other` is not inside `i`. -/
theorem keepsIf_relocate (h : c.Tidy) {i other : OpId} (hi : c.graph.HasOp i) :
    (relocate i other).KeepsIf c (∀ p, c.graph.parent other = some p → ¬ c.graph.Inside i p)
      fun _ _ => True := by
  have hdetach : Graph.Edit c.catalog c.graph (c.graph.detach i) := .detach i
  refine .after_keeps (keeps_modifyGraph h (.single hdetach) (h.orderly.detach i))
    fun _ c₁ _ h₁ hc => ?_
  subst hc
  -- if there is no place before `other`, the operation stays without one
  refine (keepsIf_tryGraph h₁ (fun g hg => ?_) fun hout g hg => h.orderly.relocate hout hg).any
  exact Graph.edits_insertBefore h₁.sound.graph.members (hdetach.within.hasOp hi) hg

theorem keeps_erase (h : c.Tidy) {i : OpId} (hi : c.graph.HasOp i) :
    (erase i).Keeps c fun _ _ => True :=
  (keeps_tryGraph h (fun _ hg => Graph.edits_erase hg)
    fun _ hg => h.orderly.erase h.sound.graph hi hg).any

theorem keeps_eraseOp (h : c.Tidy) {i : OpId} (hi : c.graph.HasOp i) :
    (eraseOp i).Keeps c fun _ _ => True := by
  refine asks_cursor.bind h fun p hp => ?_
  have hmoved : c.graph.HasCursor { c.cursor with before := c.graph.next i } :=
    ⟨h.sound.cursor.1, fun j hj => hasOp_next h.sound.graph hj⟩
  dsimp only
  split
  · -- the cursor steps off what is about to go
    have hmove : Keeps (modify fun s : Context =>
        { s with cursor := { s.cursor with before := s.graph.next i } }) c
        fun _ c' => c' = { c with cursor := { c.cursor with before := c.graph.next i } } :=
      ⟨.single (.move _ hmoved), h.withCursor hmoved, rfl⟩
    refine hmove.bind fun _ c₁ _ h₁ hc => ?_
    subst hc
    exact keeps_erase h₁ hi
  · exact keeps_erase h hi

theorem keeps_replaceOp (h : c.Tidy) {i : OpId} (hi : c.graph.HasOp i)
    {vals : List (Option ValueId)} (hvals : ∀ v ∈ vals, c.graph.HasOptValue v) :
    (replaceOp i vals).Keeps c fun _ _ => True := by
  refine asks_graph.bind h fun g hg => ?_
  subst hg
  dsimp only
  split
  · exact .throw h
  · have hpairs : ∀ p ∈ (c.graph.op i).results.zip vals, c.graph.HasOptValue p.2 :=
      fun p hp => hvals p.2 (List.of_mem_zip hp).2
    refine (keeps_modifyGraph h (edits_replaceAll h.sound.graph hpairs)
      (h.orderly.replaceAll h.sound.graph hpairs)).bind fun _ c₁ hadv h₁ _ => ?_
    exact keeps_eraseOp h₁ (hadv.within.hasOp hi)

/-! ## Operands and attributes -/

/-- `segmentValue` gives a value that is there. -/
theorem asks_segmentValue (h : c.Sound) (i : OpId) (name : String) :
    (segmentValue i name).Asks c fun v => c.graph.HasOptValue v := by
  refine asks_graph.map fun g hg => ?_
  subst hg
  refine (asks_present _).imp fun v hv => ?_
  unfold Graph.segmentValue? at hv
  -- without the segment, or with an empty one, there is no value
  split at hv
  · cases hv
    exact nofun
  · cases hv
    exact nofun
  · obtain ⟨s, -, hheld⟩ := Option.bind_eq_some_iff.mp hv
    cases hheld
    exact h.graph.uses.hasOptValue_slot s

theorem asks_segment (h : c.Sound) (i : OpId) (name : String) :
    (segment i name).Asks c fun vals => ∀ v ∈ vals, c.graph.HasOptValue v := by
  refine asks_graph.map fun g hg => ?_
  subst hg
  refine (asks_present _).imp fun vals hvals v hv => ?_
  obtain ⟨slots, -, hslots⟩ := Option.bind_eq_some_iff.mp hvals
  cases hslots
  obtain ⟨s, -, rfl⟩ := List.mem_map.mp hv
  exact h.graph.uses.hasOptValue_slot s

theorem asks_typeOf (v : ValueId) : (typeOf v).Asks c fun _ => True :=
  asks_graph.map fun _ _ => .pure trivial

/-- `setSegment` keeps a context tidy for a live operation `i`. -/
theorem keepsIf_setSegment (h : c.Tidy) (i : OpId) (name : String) {vals : List (Option ValueId)}
    (hvals : ∀ v ∈ vals, c.graph.HasOptValue v) :
    (setSegment i name vals).KeepsIf c ((c.graph.op i).erased = false) fun _ _ => True :=
  (keepsIf_tryGraph h (fun _ hg => Graph.edits_setSegment h.sound.graph.numbered hvals hg)
    fun hlive _ hg => h.orderly.setSegment h.sound.graph hlive hg).any

theorem keepsIf_assign (h : c.Tidy) {s : SlotId} (hs : c.graph.HasSlot s) {v : Option ValueId}
    (hv : c.graph.HasOptValue v) :
    (modifyGraph (·.assign s v)).KeepsIf c (c.graph.Current s) fun _ _ => True :=
  have hadv := Context.advances_of_edits (.single (.assign s v hs hv))
  ⟨hadv, fun hcurrent => ⟨h.sound.advances hadv, h.orderly.assign fun _ => hcurrent⟩, trivial⟩

/-- `setOperand` keeps a context tidy for a live operation `i`. -/
theorem keepsIf_setOperand (h : c.Tidy) (i : OpId) (k : Int) {v : Option ValueId}
    (hv : c.graph.HasOptValue v) :
    (setOperand i k v).KeepsIf c ((c.graph.op i).erased = false) fun _ _ => True := by
  refine .after_asks asks_graph h fun g hg => ?_
  subst hg
  refine .after_asks (asks_present _) h fun s hpick => ?_
  have hs : s ∈ (c.graph.op i).operands := List.mem_of_getElem? (getElem?_of_pick? hpick)
  refine (keepsIf_assign h (h.sound.graph.numbered.of_mem hs).1 hv).imp fun hlive => ?_
  exact Graph.current_of_mem h.sound.graph hlive hs

theorem keeps_describe (h : c.Tidy) (i : OpId) (f : Op → Op)
    (hf : ∀ o, ∃ attrs loc, f o = { o with attrs := attrs, loc := loc }) :
    (modifyGraph (·.modifyOp i f)).Keeps c fun _ c' => c.graph.LeavesAll c'.graph :=
  (keeps_modifyGraph h (f := (·.modifyOp i f)) (.single (.describe i f hf))
    (h.orderly.describe i hf)).imp fun _ _ _ _ hc => hc ▸ .describe c.graph i hf

theorem keeps_removeAttr (h : c.Tidy) (i : OpId) (name : String) :
    (removeAttr i name).Keeps c fun _ _ => True := by
  refine asks_graph.bind h fun g _ => ?_
  exact (keeps_describe h i _ fun o => ⟨_, _, rfl⟩).bind fun _ _ _ h₁ _ => .pure h₁ trivial

/-- What every `visit` keeps, a walk keeps. -/
theorem keeps_walkTo {α : Type} {visit : α → OpId → BuildM α}
    (hvisit : ∀ acc i (c : Context), c.Tidy → (visit acc i).Keeps c fun _ _ => True) (n : Nat)
    (h : c.Tidy) (acc : α) (i : OpId) : (walkTo visit n acc i).Keeps c fun _ _ => True := by
  induction n generalizing c acc i with
  | zero => exact .pure h trivial
  | succ n ih =>
    refine asks_graph.bind h fun g _ => ?_
    -- the loops over regions, blocks and their operations come before the visit of `i` itself
    refine Keeps.bind (P := fun _ _ => True) ?_ fun acc c₁ _ h₁ _ => hvisit acc i c₁ h₁
    refine Keeps.foldlM _ (fun acc blocks _ c₁ _ h₁ _ => ?_) h trivial
    refine Keeps.foldlM _ (fun acc b _ c₂ _ h₂ _ => ?_) h₁ trivial
    refine asks_graph.bind h₂ fun g _ => ?_
    exact Keeps.foldlM _ (fun acc child _ c₃ _ h₃ _ => ih h₃ acc child) h₂ trivial

end Build

end Multistage
