import Multistage.Proofs.Graph.OperandSlots

/-!
# Segments tile the operands

The segments of an operation are found by adding up the lengths of those before. As long as no name
is declared twice, a change of one segment changes one length, and the lengths keep adding up to the
number of operands; then the segments, one after the other, are the operands.
-/

namespace Multistage

/-! ## Locating segments -/

namespace Op

theorem locate_append (name : String) (start : Nat) (before after : List (String × Nat))
    (hname : name ∉ before.map (·.1)) :
    locate name start (before ++ after) = locate name (start + (before.map (·.2)).sum) after := by
  induction before generalizing start with
  | nil => rfl
  | cons seg rest ih =>
    obtain ⟨n, size⟩ := seg
    simp only [List.map_cons, List.mem_cons, not_or] at hname
    rw [List.cons_append, locate, if_neg fun h => hname.1 h.symm, ih (start + size) hname.2]
    simp only [List.map_cons, List.sum_cons, Nat.add_assoc]

/-- A segment that `locate` finds lies behind all before it. -/
theorem locate_eq_some {name : String} {start first size : Nat} {segments : List (String × Nat)}
    (h : locate name start segments = some (first, size)) :
    ∃ before after, segments = before ++ (name, size) :: after ∧ name ∉ before.map (·.1) ∧
      first = start + (before.map (·.2)).sum := by
  induction segments generalizing start with
  | nil => cases h
  | cons seg rest ih =>
    obtain ⟨n, k⟩ := seg
    rw [locate] at h
    split at h
    · next hn =>
      cases h
      exact ⟨[], rest, by rw [hn]; rfl, List.not_mem_nil, rfl⟩
    · next hn =>
      obtain ⟨before, after, rfl, hname, rfl⟩ := ih h
      refine ⟨(n, k) :: before, after, rfl, ?_, ?_⟩
      · rw [List.map_cons, List.mem_cons, not_or]
        exact ⟨fun h => hn h.symm, hname⟩
      · simp only [List.map_cons, List.sum_cons, Nat.add_assoc]

/-! ## Concatenating segments -/

/-- The slots of the segments `after` some point are the operands from that point on. -/
theorem mapM_segmentSlots?_of_append (o : Op) (before after : List (String × Nat))
    (hsegments : o.segments = before ++ after) (hnodup : (o.segments.map (·.1)).Nodup)
    (hsum : (o.segments.map (·.2)).sum = o.operands.length) :
    ((after.map (·.1)).mapM o.segmentSlots?).map List.flatten =
      some (o.operands.drop (before.map (·.2)).sum) := by
  -- the segments already behind us are `before`, and their lengths give the start of the next one
  induction after generalizing before with
  | nil =>
    rw [List.append_nil] at hsegments
    rw [hsegments] at hsum
    rw [hsum, List.drop_length]
    rfl
  | cons seg rest ih =>
    obtain ⟨name, size⟩ := seg
    have hrest := ih (before ++ [(name, size)]) (by rw [hsegments, List.append_assoc]; rfl)
    have hbefore : name ∉ before.map (·.1) := by
      rw [hsegments, List.map_append, List.nodup_append] at hnodup
      exact fun hc => hnodup.2.2 name hc name List.mem_cons_self rfl
    have hfound : o.segment? name = some ((before.map (·.2)).sum, size) := by
      rw [segment?, hsegments, locate_append name 0 before _ hbefore, locate, if_pos rfl,
        Nat.zero_add]
    have hfits : (before.map (·.2)).sum + size ≤ o.operands.length := by
      rw [← hsum, hsegments]
      simp only [List.map_append, List.map_cons, List.sum_append, List.sum_cons]
      omega
    have hslots : o.segmentSlots? name =
        some ((o.operands.drop (before.map (·.2)).sum).take size) := by
      rw [segmentSlots?, hfound]
      exact if_pos hfits
    rw [List.map_cons, List.mapM_cons, hslots]
    cases hm : (rest.map (·.1)).mapM o.segmentSlots? with
    | none =>
      rw [hm] at hrest
      cases hrest
    | some slots =>
      rw [hm, Option.map_some, Option.some.injEq] at hrest
      show some (_ ++ slots.flatten) = _
      rw [hrest, List.map_append, List.sum_append, ← List.drop_drop]
      simp only [List.map_cons, List.map_nil, List.sum_cons, List.sum_nil, Nat.add_zero,
        List.take_append_drop]

/-- If the segments of `o` are `Tiled`, they are the operands one after the other. -/
theorem mapM_segmentSlots? {o : Op} (h : o.Tiled o.operands.length) (hnodup : o.declared.Nodup)
    (hdeclared : o.declared ≠ []) :
    (o.declared.mapM o.segmentSlots?).map List.flatten = some o.operands := by
  obtain ⟨hnames, hsum⟩ := h
  rw [← hnames] at hnodup ⊢
  exact mapM_segmentSlots?_of_append o [] o.segments rfl hnodup (hsum hdeclared)

end Op

namespace Graph

/-! ## Changing a length -/

theorem map_fst_resized (name : String) (n : Nat) (segments : List (String × Nat)) :
    (resized name n segments).map (·.1) = segments.map (·.1) := by
  rw [resized, List.map_map]
  refine List.map_congr_left fun seg _ => ?_
  obtain ⟨m, k⟩ := seg
  by_cases hm : m = name
  · simp only [Function.comp_apply, hm, if_true]
  · simp only [Function.comp_apply, hm, if_false]

theorem resized_of_not_mem {name : String} {segments : List (String × Nat)}
    (hname : name ∉ segments.map (·.1)) (n : Nat) : resized name n segments = segments := by
  refine (List.map_congr_left fun seg hseg => ?_).trans (List.map_id' segments)
  have hne : seg.1 ≠ name := fun h => hname (h ▸ List.mem_map_of_mem hseg)
  exact if_neg hne

/-- If no name is declared twice, `resized` changes the total by the change of the segment. -/
theorem sum_resized {name : String} {first size : Nat} {segments : List (String × Nat)}
    (hfound : Op.locate name 0 segments = some (first, size))
    (hnodup : (segments.map (·.1)).Nodup) (n : Nat) :
    ((resized name n segments).map (·.2)).sum + size = (segments.map (·.2)).sum + n := by
  -- the name stands at the found place only, so one entry changes
  obtain ⟨before, after, rfl, hbefore, -⟩ := Op.locate_eq_some hfound
  have hafter : name ∉ after.map (·.1) := by
    rw [List.map_append, List.nodup_append] at hnodup
    exact (List.nodup_cons.mp hnodup.2.1).1
  have hsplit : resized name n (before ++ (name, size) :: after) =
      before ++ (name, n) :: after := by
    rw [resized, List.map_append, List.map_cons, ← resized, ← resized,
      resized_of_not_mem hbefore, resized_of_not_mem hafter]
    simp only [if_true]
  rw [hsplit]
  simp only [List.map_append, List.map_cons, List.sum_append, List.sum_cons]
  omega

/-! ## Runs -/

/-- The segments of an operation whose kind declares no name twice are `Tiled`. -/
def SegmentsTile (g : Graph) : Prop :=
  ∀ i, (g.op i).declared.Nodup → (g.op i).Tiled (g.op i).operands.length

namespace SegmentsTile

variable {g g' : Graph}

theorem empty : SegmentsTile {} := fun _ _ => ⟨rfl, fun h => absurd rfl h⟩

/-- `SegmentsTile` looks at kinds, segments and numbers of operands only. -/
theorem congr (h : g.SegmentsTile) (hkind : ∀ i, (g'.op i).kind = (g.op i).kind)
    (hsegments : ∀ i, (g'.op i).segments = (g.op i).segments)
    (hcount : ∀ i, (g'.op i).operands.length = (g.op i).operands.length) : g'.SegmentsTile := by
  intro i hnodup
  have hi := h i
  unfold Op.Tiled Op.declared at *
  rw [hkind] at hnodup ⊢
  rw [hsegments, hcount]
  exact hi hnodup

theorem install (h : g.SegmentsTile) {cat : Catalog} {o : Op} {vals : List (Option ValueId)}
    (types : List (Option Ty)) (horigin : g.Origin cat o vals.length) :
    (g.install o vals types).SegmentsTile := by
  intro i hnodup
  rw [op_install] at hnodup ⊢
  by_cases hi : i = g.nextOp
  · rw [if_pos hi] at hnodup ⊢
    show o.Tiled (slotsFrom g.slots.size vals.length).length
    rw [length_slotsFrom]
    cases horigin with
    | created _ htiled => exact htiled
    | copied j _ hkind hsegments hcount =>
      have hj := h j
      have hdeclared : o.declared = (g.op j).declared := by rw [Op.declared, hkind, ← Op.declared]
      have htiled := hj (hdeclared ▸ hnodup)
      rw [Op.Tiled, hdeclared, hsegments, hcount]
      exact htiled
  · rw [if_neg hi] at hnodup ⊢
    exact h i hnodup

theorem length_spliced (g : Graph) {i : OpId} {start size : Nat}
    (hinside : start + size ≤ (g.op i).operands.length) (n : Nat) :
    (g.spliced i start size n).length + size = (g.op i).operands.length + n := by
  simp only [spliced, List.length_append, List.length_take, List.length_drop, length_slotsFrom]
  omega

theorem spliceSegment (h : g.SegmentsTile) {i : OpId} {name : String} {start size : Nat}
    {vals : List ValueId} (hfound : (g.op i).segment? name = some (start, size))
    (hinside : start + size ≤ (g.op i).operands.length) :
    (g.spliceSegment i name start size vals).SegmentsTile := by
  intro j hnodup
  rw [op_spliceSegment] at hnodup ⊢
  split
  · next hij =>
    rw [if_pos hij] at hnodup
    obtain ⟨rfl, -⟩ := hij
    obtain ⟨hnames, hsum⟩ := h i hnodup
    refine ⟨(map_fst_resized _ _ _).trans hnames, fun hdeclared => ?_⟩
    have htotal := sum_resized hfound (hnames ▸ hnodup) vals.length
    have hlength := length_spliced g hinside vals.length
    have hold := hsum hdeclared
    -- lengths and operands change by the same number, and agreed before
    show ((resized name vals.length (g.op i).segments).map (·.2)).sum =
      (g.spliced i start size vals.length).length
    omega
  · next hij =>
    rw [if_neg hij] at hnodup
    exact h j hnodup

/-- `modifyOp` that leaves kind, segments and operands of `i` alone. -/
theorem modifyOp (h : g.SegmentsTile) (i : OpId) {f : Op → Op}
    (hf : ∀ o, (f o).kind = o.kind ∧ (f o).segments = o.segments ∧ (f o).operands = o.operands) :
    (g.modifyOp i f).SegmentsTile := by
  refine h.congr (fun j => ?_) (fun j => ?_) (fun j => ?_) <;> rw [op_modifyOp] <;> split
  · exact (hf _).1
  · rfl
  · exact (hf _).2.1
  · rfl
  · rw [(hf _).2.2]
  · rfl

/-- Every `Edit` keeps the segments tiling the operands. -/
theorem edit (h : g.SegmentsTile) {cat : Catalog} (he : Edit cat g g') : g'.SegmentsTile := by
  cases he with
  | install o vals types _ horigin => exact h.install types horigin
  | skip =>
    exact h.congr (fun i => by rw [op_skipOp]) (fun i => by rw [op_skipOp])
      fun i => by rw [op_skipOp]
  | assign s v =>
    exact h.congr (fun _ => by rw [op_assign]) (fun _ => by rw [op_assign])
      (fun _ => by rw [op_assign])
  | splice i name start size vals hfound hinside => exact h.spliceSegment hfound hinside
  | place b k i => exact modifyOp (g := g.modifyBlock b _) h i fun _ => ⟨rfl, rfl, rfl⟩
  | detach i =>
    refine h.congr (fun j => ?_) (fun j => ?_) (fun j => ?_) <;> rw [op_detach] <;> split <;> rfl
  | mark i => exact h.modifyOp i fun _ => ⟨rfl, rfl, rfl⟩
  | addBlock i r => exact modifyOp (g := (g.pushBlock _).1) h i fun _ => ⟨rfl, rfl, rfl⟩
  | addArgument b ty => exact h.congr (fun _ => rfl) (fun _ => rfl) (fun _ => rfl)
  | describe i f hf =>
    refine h.modifyOp i fun o => ?_
    obtain ⟨attrs, loc, ho⟩ := hf o
    rw [ho]
    exact ⟨rfl, rfl, rfl⟩
  | retype v ty => exact h.congr (fun _ => rfl) (fun _ => rfl) (fun _ => rfl)

end SegmentsTile

end Graph

end Multistage
