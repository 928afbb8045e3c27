import Multistage.Proofs.Tree.Undoing

/-!
# Redirecting uses

The uses of a value that a predicate accepts are made to hold another value, oldest first. Every
assignment takes one slot out of the use list of the old value and puts it at the end of that of the
new one. The slots to redirect are listed beforehand, so the changes of the lists do not disturb the
loop over them, and in the end both lists are known (`value_assignAll_of_held`): the old one without
the redirected slots, and the new one followed by them, each in its order.
-/

namespace Multistage

namespace Graph

variable {g : Graph} {v : ValueId} {new : Option ValueId}

/-! ## Use lists -/

/-- One slot goes over from `v` to another value, or lets go of `v`. -/
theorem value_assign_of_held (h : g.UsesAgree) {s : SlotId} (hs : (g.slot s).value = some v)
    (hne : new ≠ some v) (hnew : g.HasOptValue new) (w : ValueId) :
    (g.assign s new).value w =
      { g.value w with
        uses := if w = v then (g.value w).uses.filter fun t => t != s
          else if new = some w then (g.value w).uses ++ [s] else (g.value w).uses } := by
  by_cases hw : g.HasValue w
  · rw [value_assign g s new hw, hs, if_neg (Ne.symm hne)]
    by_cases hwv : w = v
    · subst hwv
      rw [if_pos rfl, if_neg hne, if_pos rfl, List.append_nil, (h.nodup_uses w).erase_eq_filter]
    · rw [if_neg fun heq => hwv (Option.some.inj heq).symm, if_neg hwv]
      split
      · rfl
      · rw [List.append_nil]
  · -- neither the old value nor the new one
    have hwv : w ≠ v := fun heq => hw (heq ▸ h.held s v hs)
    have hwnew : new ≠ some w := fun heq => hw (hnew w heq)
    have hw' : ¬ (g.assign s new).HasValue w := by
      rw [HasValue, size_values_assign]
      exact hw
    rw [if_neg hwv, if_neg hwnew, value_of_not_hasValue hw, value_of_not_hasValue hw']

/-- Any number of slots go over from `v` to another value, one after the other. -/
theorem value_assignAll_of_held (h : g.UsesAgree) {slots : List SlotId} (hnodup : slots.Nodup)
    (hheld : ∀ s ∈ slots, (g.slot s).value = some v) (hne : new ≠ some v)
    (hnew : g.HasOptValue new) (w : ValueId) :
    (g.assignAll slots new).value w =
      { g.value w with
        uses := if w = v then (g.value w).uses.filter fun t => decide (t ∉ slots)
          else if new = some w then (g.value w).uses ++ slots else (g.value w).uses } := by
  induction slots generalizing g with
  | nil => simp [assignAll]
  | cons s rest ih =>
    obtain ⟨hs, hrest⟩ := List.nodup_cons.mp hnodup
    have hfirst := hheld s List.mem_cons_self
    have hwithin := within_assign g s new
    -- the slots behind the first one still hold the old value
    have hstill : ∀ t ∈ rest, ((g.assign s new).slot t).value = some v := by
      intro t ht
      have hst : s ≠ t := by
        rintro rfl
        exact hs ht
      rw [held_assign_of_ne g hst]
      exact hheld t (List.mem_cons_of_mem s ht)
    have hagree := h.assign (hasSlot_of_value_eq_some hfirst) hnew
    show ((g.assign s new).assignAll rest new).value w = _
    rw [ih hagree hrest hstill (hwithin.hasOptValue hnew), value_assign_of_held h hfirst hne hnew]
    by_cases hwv : w = v
    · have hsame : ∀ t ∈ (g.value w).uses,
          (decide (t ∉ rest) && t != s) = decide (t ∉ s :: rest) := by
        intro t _
        by_cases hts : t = s <;> by_cases hmem : t ∈ rest <;> simp [hts, hmem]
      simp only [if_pos hwv, List.filter_filter, List.filter_congr hsame]
    · simp only [if_neg hwv]
      split
      · rw [List.append_assoc, List.singleton_append]
      · rfl

/-! ## Rows after a redirection -/

section

variable (h : g.UsesAgree) (hne : new ≠ some v) (keep : SlotId → Bool)

include h hne

/-- A use of `v` that `keep` accepts holds `new`, and every other slot is as it was. -/
theorem slot_replaceUsesIf (s : SlotId) :
    (g.replaceUsesIf v new keep).slot s =
      if s ∈ (g.value v).uses ∧ keep s = true then { g.slot s with value := new }
      else g.slot s := by
  have hslots : ∀ t ∈ (g.value v).uses.filter keep, g.HasSlot t := fun t ht =>
    h.hasSlot_of_mem_uses (List.mem_filter.mp ht).1
  rw [replaceUsesIf, if_neg (Ne.symm hne)]
  refine slot_eq_of_fields ?_ ?_ ?_
  · rw [owner_assignAll]
    split <;> rfl
  · rw [index_assignAll]
    split <;> rfl
  · simp only [held_assignAll g hslots, List.mem_filter]
    split <;> rfl

/-- `v` loses the uses that `keep` accepts, `new` gets them at the end of its list, and all other
values are as they were. -/
theorem value_replaceUsesIf (hnew : g.HasOptValue new) (w : ValueId) :
    (g.replaceUsesIf v new keep).value w =
      { g.value w with
        uses := if w = v then (g.value w).uses.filter fun s => !keep s
          else if new = some w then (g.value w).uses ++ (g.value v).uses.filter keep
          else (g.value w).uses } := by
  have hheld : ∀ s ∈ (g.value v).uses.filter keep, (g.slot s).value = some v := fun s hs =>
    h.mem_uses_iff.mp (List.mem_filter.mp hs).1
  rw [replaceUsesIf, if_neg (Ne.symm hne),
    value_assignAll_of_held h ((h.nodup_uses v).filter keep) hheld hne hnew]
  by_cases hwv : w = v
  · subst hwv
    have hsame : ∀ s ∈ (g.value w).uses,
        decide (s ∉ (g.value w).uses.filter keep) = !keep s := by
      intro s hs
      cases hkeep : keep s <;> simp [List.mem_filter, hs, hkeep]
    simp only [if_true, List.filter_congr hsame]
  · simp only [if_neg hwv]

end

theorem replaceUsesIf_self (g : Graph) (v : ValueId) (keep : SlotId → Bool) :
    g.replaceUsesIf v (some v) keep = g := if_pos rfl

theorem ops_replaceUsesIf (g : Graph) (v : ValueId) (new : Option ValueId) (keep : SlotId → Bool) :
    (g.replaceUsesIf v new keep).ops = g.ops := by
  unfold replaceUsesIf
  split
  · rfl
  · exact ops_assignAll g _ new

theorem blocks_replaceUsesIf (g : Graph) (v : ValueId) (new : Option ValueId)
    (keep : SlotId → Bool) : (g.replaceUsesIf v new keep).blocks = g.blocks := by
  unfold replaceUsesIf
  split
  · rfl
  · exact blocks_assignAll g _ new

/-! ## The whole redirection -/

/-- `g'` is `g` with those uses of `v` that `keep` accepts redirected to `new`. -/
structure Redirects (g g' : Graph) (v : ValueId) (new : Option ValueId) (keep : SlotId → Bool) :
    Prop where
  taken : ∀ s ∈ (g.value v).uses, keep s = true → (g'.slot s).value = new
  left : ∀ s ∈ (g.value v).uses, keep s = false → (g'.slot s).value = some v
  old_uses : (g'.value v).uses = (g.value v).uses.filter fun s => !keep s
  new_uses : ∀ w, new = some w →
    (g'.value w).uses = (g.value w).uses ++ (g.value v).uses.filter keep
  other_slots : ∀ s, s ∉ (g.value v).uses → g'.slot s = g.slot s
  other_values : ∀ w, w ≠ v → new ≠ some w → g'.value w = g.value w
  -- of a slot only the value changes, and of a value only the use list
  slots : ∀ s, g'.slot s = { g.slot s with value := (g'.slot s).value }
  values : ∀ w, g'.value w = { g.value w with uses := (g'.value w).uses }
  ops : g'.ops = g.ops
  blocks : g'.blocks = g.blocks

theorem redirects_replaceUsesIf (h : g.UsesAgree) (hne : new ≠ some v) (hnew : g.HasOptValue new)
    (keep : SlotId → Bool) : g.Redirects (g.replaceUsesIf v new keep) v new keep where
  taken s hs hkeep := by rw [slot_replaceUsesIf h hne, if_pos ⟨hs, hkeep⟩]
  left s hs hkeep := by
    rw [slot_replaceUsesIf h hne, if_neg (by simp [hkeep])]
    exact h.mem_uses_iff.mp hs
  old_uses := by
    rw [value_replaceUsesIf h hne keep hnew]
    exact if_pos rfl
  new_uses w hw := by
    have hwv : w ≠ v := fun heq => hne (heq ▸ hw)
    rw [value_replaceUsesIf h hne keep hnew]
    exact (if_neg hwv).trans (if_pos hw)
  other_slots s hs := by rw [slot_replaceUsesIf h hne, if_neg fun hmem => hs hmem.1]
  other_values w hwv hw := by rw [value_replaceUsesIf h hne keep hnew, if_neg hwv, if_neg hw]
  slots s := by
    rw [slot_replaceUsesIf h hne]
    split <;> rfl
  values w := by rw [value_replaceUsesIf h hne keep hnew]
  ops := ops_replaceUsesIf g v new keep
  blocks := blocks_replaceUsesIf g v new keep

end Graph

/-- `replaceUsesIf` splits the use list of `v` in two and keeps the order of both parts: the uses
that `keep` accepts go over to the end of the use list of `new`, if there is one, and the others
stay. Nothing else changes. `replaceUses`, which has no `keep`, moves all uses, and a value that is
redirected to itself keeps its uses. -/
theorem replaceUses_partition {c : Context} (h : Reachable c) (v : ValueId) {new : Option ValueId}
    (hnew : c.graph.HasOptValue new) (keep : SlotId → Bool) :
    (new ≠ some v →
      c.graph.Redirects (c.graph.replaceUsesIf v new keep) v new keep ∧
      c.graph.Redirects (c.graph.replaceUses v new) v new (fun _ => true) ∧
      ((c.graph.replaceUses v new).value v).uses = []) ∧
    (new = some v →
      c.graph.replaceUsesIf v new keep = c.graph ∧ c.graph.replaceUses v new = c.graph) := by
  have huses := h.sound.graph.uses
  refine ⟨fun hne => ?_, ?_⟩
  · have hall := Graph.redirects_replaceUsesIf huses hne hnew fun _ => true
    refine ⟨Graph.redirects_replaceUsesIf huses hne hnew keep, hall, ?_⟩
    exact hall.old_uses.trans (List.filter_eq_nil_iff.mpr fun _ _ => Bool.false_ne_true)
  · rintro rfl
    exact ⟨Graph.replaceUsesIf_self _ v keep, Graph.replaceUsesIf_self _ v _⟩

/-- The loop of `crowded` comes to read the first sum three times, after the second sum does. -/
theorem crowded_loop_redirected :
    Reachable (Request.run crowded {}) ∧
      ((Request.run crowded {}).graph.value ⟨0⟩).uses =
        [⟨1⟩, ⟨2⟩, ⟨3⟩, ⟨4⟩, ⟨6⟩, ⟨8⟩, ⟨0⟩] ∧
      (((Request.run crowded {}).graph.replaceUsesIf ⟨0⟩ (some ⟨1⟩)
        fun s => s ∈ [⟨2⟩, ⟨3⟩, ⟨4⟩]).value ⟨0⟩).uses = [⟨1⟩, ⟨6⟩, ⟨8⟩, ⟨0⟩] ∧
      (((Request.run crowded {}).graph.replaceUsesIf ⟨0⟩ (some ⟨1⟩)
        fun s => s ∈ [⟨2⟩, ⟨3⟩, ⟨4⟩]).value ⟨1⟩).uses = [⟨5⟩, ⟨2⟩, ⟨3⟩, ⟨4⟩] := by
  obtain ⟨hthere, hold, hnew, hleft, hright⟩ :
      (Request.run crowded {}).graph.HasOptValue (some ⟨1⟩) ∧
        ((Request.run crowded {}).graph.value ⟨0⟩).uses =
          [⟨1⟩, ⟨2⟩, ⟨3⟩, ⟨4⟩, ⟨6⟩, ⟨8⟩, ⟨0⟩] ∧
        ((Request.run crowded {}).graph.value ⟨1⟩).uses = [⟨5⟩] ∧
        (((Request.run crowded {}).graph.value ⟨0⟩).uses.filter
          fun s => !decide (s ∈ [(⟨2⟩ : SlotId), ⟨3⟩, ⟨4⟩])) = [⟨1⟩, ⟨6⟩, ⟨8⟩, ⟨0⟩] ∧
        (((Request.run crowded {}).graph.value ⟨0⟩).uses.filter
          fun s => decide (s ∈ [(⟨2⟩ : SlotId), ⟨3⟩, ⟨4⟩])) = [⟨2⟩, ⟨3⟩, ⟨4⟩] := by decide +kernel
  obtain ⟨hsplit, -⟩ := (replaceUses_partition reachable_crowded ⟨0⟩ hthere
    fun s => s ∈ [⟨2⟩, ⟨3⟩, ⟨4⟩]).1 (by decide)
  refine ⟨reachable_crowded, hold, hsplit.old_uses.trans hleft, ?_⟩
  rw [hsplit.new_uses _ rfl, hnew, hright]
  rfl

end Multistage
