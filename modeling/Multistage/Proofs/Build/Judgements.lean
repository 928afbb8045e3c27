import Multistage.Proofs.Build.Advances

/-!
# What work comes to

Work on a context only makes moves, whether it succeeds or fails: a failure keeps what was done
before it. `Meets` says what the answer and the context are like if the work succeeds, and what the
failure and the context are like if it fails. `Leads` is the case where failures do not matter, and
`Gives` the case of work that does not fail. All of it goes through sequences, loops and changes of
the cursor.
-/

namespace Multistage

namespace BuildM

variable {α β : Type} {c : Context}

theorem bind_of_ok {x : BuildM α} {a : α} {c c' : Context} (h : x c = .ok a c')
    (f : α → BuildM β) : (x >>= f) c = f a c' := by
  show EStateM.bind x f c = _
  rw [EStateM.bind, h]

theorem bind_of_error {x : BuildM α} {e : Failure} {c c' : Context} (h : x c = .error e c')
    (f : α → BuildM β) : (x >>= f) c = .error e c' := by
  show EStateM.bind x f c = _
  rw [EStateM.bind, h]

/-- `work` only makes moves from `c`, whether it succeeds or fails. If it succeeds, the answer and the
context are as `Q` says; if it fails, the failure and the context are as `R` says. -/
def Meets (work : BuildM α) (c : Context) (Q : α → Context → Prop)
    (R : Failure → Context → Prop) : Prop :=
  match work c with
  | .ok a c' => c.Advances c' ∧ Q a c'
  | .error f c' => c.Advances c' ∧ R f c'

/-- `work` meets `Q` if it succeeds; of a failure only the moves before it are known. -/
abbrev Leads (work : BuildM α) (c : Context) (Q : α → Context → Prop) : Prop :=
  work.Meets c Q fun _ _ => True

/-- `work` succeeds and meets `Q`. -/
abbrev Gives (work : BuildM α) (c : Context) (Q : α → Context → Prop) : Prop :=
  work.Meets c Q fun _ _ => False

namespace Meets

variable {x : BuildM α} {P P' : α → Context → Prop} {Q : β → Context → Prop}
variable {R R' : Failure → Context → Prop}

/-- What `Meets` says of work that succeeded. -/
theorem of_ok (hx : x.Meets c P R) {a : α} {c' : Context} (hok : x c = .ok a c') :
    c.Advances c' ∧ P a c' := by
  unfold Meets at hx
  rw [hok] at hx
  exact hx

/-- What `Meets` says of work that failed. -/
theorem of_error (hx : x.Meets c P R) {f : Failure} {c' : Context} (herror : x c = .error f c') :
    c.Advances c' ∧ R f c' := by
  unfold Meets at hx
  rw [herror] at hx
  exact hx

theorem of_runs (hok : ∀ a c', x c = .ok a c' → c.Advances c' ∧ P a c')
    (herror : ∀ f c', x c = .error f c' → c.Advances c' ∧ R f c') : x.Meets c P R := by
  unfold Meets
  cases hrun : x c with
  | ok a c' => exact hok a c' hrun
  | error f c' => exact herror f c' hrun

theorem bind {f : α → BuildM β} (hx : x.Meets c P R)
    (hf : ∀ a c', c.Advances c' → P a c' → (f a).Meets c' Q R) : (x >>= f).Meets c Q R := by
  cases hxc : x c with
  | error e c' =>
    unfold Meets
    rw [bind_of_error hxc]
    exact hx.of_error hxc
  | ok a c' =>
    obtain ⟨hadv, ha⟩ := hx.of_ok hxc
    -- whichever way the second part ends, the moves of the first one come before its own
    refine .of_runs (fun b c'' hrun => ?_) fun e c'' hrun => ?_
    · rw [bind_of_ok hxc] at hrun
      exact ((hf a c' hadv ha).of_ok hrun).imp_left hadv.trans
    · rw [bind_of_ok hxc] at hrun
      exact ((hf a c' hadv ha).of_error hrun).imp_left hadv.trans

theorem pure {a : α} (h : P a c) : (Pure.pure a : BuildM α).Meets c P R :=
  ⟨.refl, h⟩

theorem throw {e : Failure} (h : R e c) : (MonadExceptOf.throw e : BuildM α).Meets c P R :=
  ⟨.refl, h⟩

theorem imp (hx : x.Meets c P R) (hP : ∀ a c', c.Advances c' → P a c' → P' a c')
    (hR : ∀ f c', c.Advances c' → R f c' → R' f c') : x.Meets c P' R' := by
  refine .of_runs (fun a c' hrun => ?_) fun f c' hrun => ?_
  · obtain ⟨hadv, ha⟩ := hx.of_ok hrun
    exact ⟨hadv, hP a c' hadv ha⟩
  · obtain ⟨hadv, hf⟩ := hx.of_error hrun
    exact ⟨hadv, hR f c' hadv hf⟩

/-- `Meets` where failures do not matter. -/
theorem leads (hx : x.Meets c P R) : x.Leads c P :=
  hx.imp (fun _ _ _ h => h) fun _ _ _ _ => trivial

end Meets

variable {x : BuildM α} {P : α → Context → Prop} {Q : β → Context → Prop}

theorem Leads.bind {f : α → BuildM β} (hx : x.Leads c P)
    (hf : ∀ a c', c.Advances c' → P a c' → (f a).Leads c' Q) : (x >>= f).Leads c Q :=
  Meets.bind hx hf

theorem Leads.throw {e : Failure} : (MonadExceptOf.throw e : BuildM α).Leads c P :=
  Meets.throw trivial

theorem Leads.imp {Q : α → Context → Prop} (hx : x.Leads c P)
    (hPQ : ∀ a c', c.Advances c' → P a c' → Q a c') : x.Leads c Q :=
  Meets.imp hx hPQ fun _ _ _ h => h

/-- Work that `Leads` somewhere and succeeds `Gives` it. -/
theorem Leads.gives (hx : x.Leads c P) (hok : ∃ a c', x c = .ok a c') : x.Gives c P := by
  obtain ⟨a, c', hrun⟩ := hok
  unfold Gives Meets
  rw [hrun]
  exact hx.of_ok hrun

theorem Gives.ok (hx : x.Gives c P) : ∃ a c', x c = .ok a c' ∧ c.Advances c' ∧ P a c' := by
  cases hrun : x c with
  | ok a c' => exact ⟨a, c', rfl, hx.of_ok hrun⟩
  | error e c' => exact (hx.of_error hrun).2.elim

theorem Gives.imp {Q : α → Context → Prop} (hx : x.Gives c P)
    (hPQ : ∀ a c', c.Advances c' → P a c' → Q a c') : x.Gives c Q :=
  Meets.imp hx hPQ fun _ _ _ h => h

/-- `Gives` where the answer does not matter. -/
theorem Gives.discard (hx : x.Gives c P) :
    (Functor.discard x).Gives c fun _ c' => ∃ a, P a c' :=
  Meets.bind hx fun a _ _ ha => .pure ⟨a, ha⟩

/-- Work that does not fail meets any `R` about its failures. -/
theorem Gives.meets (hx : x.Gives c P) (R : Failure → Context → Prop) : x.Meets c P R :=
  Meets.imp hx (fun _ _ _ h => h) fun _ _ _ h => h.elim

/-! ## Loops -/

/-- If every step takes the invariant `I` from a part of `l` to the next one, the loop takes it from
the start to all of `l`. -/
theorem Meets.foldlM {f : β → α → BuildM β} {R : Failure → Context → Prop} {l : List α}
    (I : List α → β → Context → Prop)
    (hstep : ∀ done a acc c', a ∈ l → c.Advances c' → I done acc c' →
      (f acc a).Meets c' (I (done ++ [a])) R) {init : β} (hinit : I [] init c) :
    (l.foldlM f init).Meets c (I l) R := by
  -- the induction is on what is left, with what is done as the index of the invariant
  have hrest : ∀ rest done acc c', l = done ++ rest → c.Advances c' → I done acc c' →
      (rest.foldlM f acc).Meets c' (I l) R := by
    intro rest
    induction rest with
    | nil =>
      intro done acc c' hl _ hI
      rw [List.append_nil] at hl
      exact .pure (hl ▸ hI)
    | cons a rest ih =>
      intro done acc c' hl hadv hI
      have hmem : a ∈ l := hl ▸ List.mem_append_right _ List.mem_cons_self
      rw [List.foldlM_cons]
      refine (hstep done a acc c' hmem hadv hI).bind fun acc' c'' hadv' hI' => ?_
      exact ih (done ++ [a]) acc' c'' (by rw [hl, List.append_assoc]; rfl) (hadv.trans hadv') hI'
  exact hrest l [] init c rfl .refl hinit

theorem Meets.forM {f : α → BuildM Unit} {R : Failure → Context → Prop} {l : List α}
    (I : List α → Context → Prop)
    (hstep : ∀ done a rest c', l = done ++ a :: rest → c.Advances c' → I done c' →
      (f a).Meets c' (fun _ => I (done ++ [a])) R) (hinit : I [] c) :
    (l.forM f).Meets c (fun _ => I l) R := by
  have hrest : ∀ rest done c', l = done ++ rest → c.Advances c' → I done c' →
      (rest.forM f).Meets c' (fun _ => I l) R := by
    intro rest
    induction rest with
    | nil =>
      intro done c' hl _ hI
      rw [List.append_nil] at hl
      exact .pure (hl ▸ hI)
    | cons a rest ih =>
      intro done c' hl hadv hI
      show (f a >>= fun _ => rest.forM f).Meets c' _ R
      refine (hstep done a rest c' hl hadv hI).bind fun _ c'' hadv' hI' => ?_
      exact ih (done ++ [a]) c'' (by rw [hl, List.append_assoc]; rfl) (hadv.trans hadv') hI'
  exact hrest l [] c rfl .refl hinit

/-! ## The building blocks of work -/

theorem gives_get : Gives get c fun s c' => s = c ∧ c' = c := ⟨.refl, rfl, rfl⟩

theorem gives_graph : Gives graph c fun g c' => g = c.graph ∧ c' = c := ⟨.refl, rfl, rfl⟩

theorem gives_cursor : Gives cursor c fun p c' => p = c.cursor ∧ c' = c := ⟨.refl, rfl, rfl⟩

theorem gives_modify {f : Context → Context} (h : c.Advances (f c)) :
    Gives (modify f) c fun _ c' => c' = f c := ⟨h, rfl⟩

theorem gives_modifyGraph {f : Graph → Graph} (h : Graph.Edits c.catalog c.graph (f c.graph)) :
    (modifyGraph f).Gives c fun _ c' => c' = { c with graph := f c.graph } :=
  ⟨Context.advances_of_edits h, rfl⟩

theorem gives_updateGraph {f : Graph → Graph × α}
    (h : Graph.Edits c.catalog c.graph (f c.graph).1) :
    (updateGraph f).Gives c fun a c' =>
      a = (f c.graph).2 ∧ c' = { c with graph := (f c.graph).1 } :=
  ⟨Context.advances_of_edits h, rfl, rfl⟩

theorem leads_get : Leads get c fun s c' => s = c ∧ c' = c := gives_get.leads

theorem leads_graph : Leads graph c fun g c' => g = c.graph ∧ c' = c := gives_graph.leads

theorem leads_cursor : Leads cursor c fun p c' => p = c.cursor ∧ c' = c := gives_cursor.leads

theorem leads_modify {f : Context → Context} (h : c.Advances (f c)) :
    Leads (modify f) c fun _ c' => c' = f c :=
  (gives_modify h).leads

theorem gives_tryGraph {f : Graph → Except Failure Graph} {g : Graph} (hf : f c.graph = .ok g)
    (h : Graph.Edits c.catalog c.graph g) :
    (tryGraph f).Gives c fun _ c' => c' = { c with graph := g } := by
  refine gives_graph.bind fun _ c' _ hc => ?_
  obtain ⟨rfl, rfl⟩ := hc
  rw [hf]
  exact gives_modifyGraph h

theorem meets_tryGraph {f : Graph → Except Failure Graph} {R : Failure → Context → Prop}
    (h : ∀ g, f c.graph = .ok g → Graph.Edits c.catalog c.graph g)
    (hR : ∀ e, f c.graph = .error e → R e c) :
    (tryGraph f).Meets c (fun _ c' => ∃ g, f c.graph = .ok g ∧ c' = { c with graph := g }) R := by
  cases hf : f c.graph with
  | ok g => exact ((gives_tryGraph hf (h g hf)).imp fun _ _ _ hc => ⟨g, rfl, hc⟩).meets R
  | error e =>
    refine (gives_graph.meets R).bind fun g c' _ hc => ?_
    obtain ⟨rfl, rfl⟩ := hc
    rw [hf]
    exact .throw (hR e hf)

theorem leads_tryGraph {f : Graph → Except Failure Graph}
    (h : ∀ g, f c.graph = .ok g → Graph.Edits c.catalog c.graph g) :
    (tryGraph f).Leads c fun _ c' => ∃ g, f c.graph = .ok g ∧ c' = { c with graph := g } :=
  meets_tryGraph h fun _ _ => trivial

theorem gives_present {a : Option α} {y : α} (h : a = some y) :
    (present a).Gives c fun z c' => z = y ∧ c' = c := by
  subst h
  exact .pure ⟨rfl, rfl⟩

theorem meets_present {a : Option α} {R : Failure → Context → Prop} (hR : a = none → R .fault c) :
    (present a).Meets c (fun y c' => a = some y ∧ c' = c) R := by
  cases a with
  | some a => exact .pure ⟨rfl, rfl⟩
  | none => exact .throw (hR rfl)

theorem leads_present (a : Option α) : (present a).Leads c fun y c' => a = some y ∧ c' = c :=
  meets_present fun _ => trivial

/-- `ensuring` with a change `f` of the cursor in the end. -/
theorem meets_ensuring {R : Failure → Context → Prop} {f : Cursor → Cursor} (hx : x.Meets c P R)
    (hf : ∀ d, c.Advances d → d.graph.HasCursor (f d.cursor)) :
    (ensuring x fun s => { s with cursor := f s.cursor }).Meets c
      (fun a c' => ∃ d, P a d ∧ c' = { d with cursor := f d.cursor })
      fun e c' => ∃ d, R e d ∧ c' = { d with cursor := f d.cursor } := by
  unfold Meets ensuring at *
  cases hrun : x c with
  | ok a d =>
    rw [hrun] at hx
    exact ⟨hx.1.tail (.move _ (hf d hx.1)), d, hx.2, rfl⟩
  | error e d =>
    rw [hrun] at hx
    exact ⟨hx.1.tail (.move _ (hf d hx.1)), d, hx.2, rfl⟩

/-- `withCursor` puts the old cursor back, also if the work fails. -/
theorem meets_withCursor {R : Failure → Context → Prop} {p : Cursor}
    (hold : c.graph.HasCursor c.cursor) (hp : c.graph.HasCursor p)
    (hx : x.Meets { c with cursor := p } P R) :
    (withCursor p x).Meets c (fun a c' => ∃ d, P a d ∧ c' = { d with cursor := c.cursor })
      fun e c' => ∃ d, R e d ∧ c' = { d with cursor := c.cursor } := by
  refine (gives_cursor.meets _).bind fun old c' _ hc => ?_
  obtain ⟨rfl, rfl⟩ := hc
  refine ((gives_modify (.single (.move p hp))).meets _).bind fun _ c₁ _ hc => ?_
  subst hc
  exact meets_ensuring (f := fun _ => c'.cursor) hx fun d hd =>
    Graph.HasCursor.mono (g := c'.graph) hold hd.within

theorem leads_withCursor {p : Cursor} (hold : c.graph.HasCursor c.cursor)
    (hp : c.graph.HasCursor p) (hx : x.Leads { c with cursor := p } P) :
    (withCursor p x).Leads c fun a c' => ∃ d, P a d ∧ c' = { d with cursor := c.cursor } :=
  (meets_withCursor hold hp hx).leads

/-- Under `withCursor` the work does to the graph what it does at `p`. -/
theorem leads_withCursor_graph (h : c.Sound) {p : Cursor} (hp : c.graph.HasCursor p)
    {P : α → Graph → Prop}
    (hx : ∀ d : Context, d.Sound → c.Advances d → x.Leads d fun a d' => P a d'.graph) :
    (withCursor p x).Leads c fun a c' => P a c'.graph := by
  have hmove : c.Advances { c with cursor := p } := .single (.move p hp)
  refine (leads_withCursor h.cursor hp (hx _ (h.advances hmove) hmove)).imp fun a c' _ hc => ?_
  obtain ⟨d, hd, rfl⟩ := hc
  exact hd

theorem gives_withCursor {p : Cursor} (hold : c.graph.HasCursor c.cursor)
    (hp : c.graph.HasCursor p) (hx : x.Gives { c with cursor := p } P) :
    (withCursor p x).Gives c fun a c' => ∃ d, P a d ∧ c' = { d with cursor := c.cursor } := by
  refine (meets_withCursor hold hp hx).imp (fun _ _ _ h => h) ?_
  rintro e c' - ⟨d, hd, -⟩
  exact hd

/-- `withLoc` puts the old location back, wherever the work has left the cursor. -/
theorem meets_withLoc {R : Failure → Context → Prop} (h : c.Sound) {loc : Location}
    (hx : x.Meets { c with cursor := { c.cursor with loc } } P R) :
    (withLoc loc x).Meets c
      (fun a c' => ∃ d, P a d ∧ c' = { d with cursor := { d.cursor with loc := c.cursor.loc } })
      fun e c' => ∃ d, R e d ∧ c' = { d with cursor := { d.cursor with loc := c.cursor.loc } } := by
  refine (gives_cursor.meets _).bind fun old c' _ hc => ?_
  obtain ⟨rfl, rfl⟩ := hc
  have hmoved : c'.Advance { c' with cursor := { c'.cursor with loc } } := .move _ h.cursor
  refine ((gives_modify (.single hmoved)).meets _).bind fun _ c₁ _ hc => ?_
  subst hc
  exact meets_ensuring (f := fun p => { p with loc := c'.cursor.loc }) hx fun d hd =>
    ((h.advance hmoved).advances hd).cursor

/-- `keepingPoint` puts the old position back, with the location that the work has left. -/
theorem meets_keepingPoint {R : Failure → Context → Prop} (h : c.Sound) (hx : x.Meets c P R) :
    (keepingPoint x).Meets c
      (fun a c' => ∃ d, P a d ∧ c' = { d with cursor :=
        { d.cursor with block := c.cursor.block, before := c.cursor.before } })
      fun e c' => ∃ d, R e d ∧ c' = { d with cursor :=
        { d.cursor with block := c.cursor.block, before := c.cursor.before } } := by
  refine (gives_cursor.meets _).bind fun old c' _ hc => ?_
  obtain ⟨rfl, rfl⟩ := hc
  exact meets_ensuring
    (f := fun p => { p with block := c'.cursor.block, before := c'.cursor.before }) hx
    fun d hd => h.cursor.mono hd.within

/-- `trace` changes the log only. -/
theorem gives_trace (level : Int) (text : String) :
    (trace level text).Gives c fun _ c' => ∃ log, c' = { c with log } := by
  refine gives_get.bind fun s c' _ hc => ?_
  obtain ⟨rfl, rfl⟩ := hc
  split
  · exact (gives_modify (.single (.report _ _))).imp fun _ _ _ hc => ⟨_, hc⟩
  · exact .pure ⟨_, rfl⟩

/-- `emit` reports to the diagnostics or to the log, and changes nothing else. -/
theorem gives_emit (severity : Severity) (i : OpId) (message : String) :
    (emit severity i message).Gives c fun _ c' =>
      ∃ diagnostics log, c' = { c with diagnostics, log } := by
  refine gives_get.bind fun s c' _ hc => ?_
  obtain ⟨rfl, rfl⟩ := hc
  split
  · exact (gives_modify (.single (.report _ _))).imp fun _ _ _ hc => ⟨_, _, hc⟩
  · refine gives_graph.bind fun g c₁ _ hc => ?_
    obtain ⟨rfl, rfl⟩ := hc
    exact (gives_modify (.single (.report _ _))).imp fun _ _ _ hc => ⟨_, _, hc⟩
  · exact .pure ⟨_, _, rfl⟩

theorem leads_trace (level : Int) (text : String) :
    (trace level text).Leads c fun _ c' => c'.graph = c.graph := by
  refine (gives_trace level text).leads.imp fun _ c' _ hc => ?_
  obtain ⟨log, rfl⟩ := hc
  rfl

theorem leads_emit (severity : Severity) (i : OpId) (message : String) :
    (emit severity i message).Leads c fun _ c' => c'.graph = c.graph := by
  refine (gives_emit severity i message).leads.imp fun _ c' _ hc => ?_
  obtain ⟨diagnostics, log, rfl⟩ := hc
  rfl

/-- `registerKind` changes nothing if it fails. -/
theorem meets_registerKind (k : OpKind) :
    (registerKind k).Meets c (fun _ _ => True) fun _ c' => c' = c := by
  refine (gives_get.meets _).bind fun s c' _ hc => ?_
  obtain ⟨rfl, rfl⟩ := hc
  cases hk : c'.catalog.insert? k with
  | some catalog =>
    exact ((gives_modify (.single (.registerKind k hk))).imp fun _ _ _ _ => trivial).meets _
  | none => exact .throw rfl

/-- `registerStrategy` changes nothing if it fails. -/
theorem meets_registerStrategy (name : String) (s : Strategy) :
    (registerStrategy name s).Meets c (fun _ _ => True) fun _ c' => c' = c := by
  unfold registerStrategy
  split
  · exact .throw rfl
  refine (gives_get.meets _).bind fun s' c' _ hc => ?_
  obtain ⟨rfl, rfl⟩ := hc
  cases hfits : s.misfit? c'.catalog name with
  | some r => exact .throw rfl
  | none =>
    refine (gives_get.meets _).bind fun s' c' _ hc => ?_
    obtain ⟨rfl, rfl⟩ := hc
    cases hs : c'.strategies.find? name with
    | some old => exact .throw rfl
    | none =>
      exact ((gives_modify (.single (.registerStrategy name s hs hfits))).imp
        fun _ _ _ _ => trivial).meets _

end BuildM

end Multistage
