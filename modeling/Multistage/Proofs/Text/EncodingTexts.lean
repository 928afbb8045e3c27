import Multistage.Proofs.Text.Readings

/-!
# Layouts and their texts

Two layouts are taken for the same if their texts are. The text of a layout fixes its kind and,
through any number of accumulators, every field that it shows (`Encoding.text_append_inj`). It does
not show how a blocked layout or an accumulator is split over the cluster, so layouts that differ in
nothing but such a split are taken for the same (`blocked_split_not_compared`). Shared layouts show
their split and are compared as a whole.
-/

namespace Multistage

/-! ## What a text stands for -/

/-- `b` with its order written out; one that is not stated is the empty one. -/
def Blocked.stated (b : Blocked) : Blocked := { b with statedOrder := some b.order }

/-- `s` with its order written out; one that is not stated is the empty one. -/
def Swizzled.stated (s : Swizzled) : Swizzled := { s with statedOrder := some s.order }

/-- The layout with its order written out. -/
def SharedLayout.stated : SharedLayout → SharedLayout
  | swizzled s => swizzled s.stated
  | nvMma n => nvMma n

/-- The layout with all its orders written out. Two layouts that are equal in this form are of the
same kind and agree on every field. -/
def Encoding.stated : Encoding → Encoding
  | blocked b => blocked b.stated
  | mma m => mma m
  | dotOperand index kWidth parent => dotOperand index kWidth parent.stated
  | looseDotOperand index kWidth => looseDotOperand index kWidth
  | shared s => shared s.stated

/-- The layout without the `cta` of a blocked layout or an accumulator. -/
def Encoding.unsplit : Encoding → Encoding
  | blocked b => blocked { b with cta := ⟨[], [], []⟩ }
  | mma m => mma { m with cta := ⟨[], [], []⟩ }
  | dotOperand index kWidth parent => dotOperand index kWidth parent.unsplit
  | looseDotOperand index kWidth => looseDotOperand index kWidth
  | shared s => shared s

theorem SharedLayout.text_stated (s : SharedLayout) : s.stated.text = s.text := by
  cases s <;> rfl

/-- `text` shows no more than this of a layout `e`. -/
theorem Encoding.text_unsplit_stated (e : Encoding) : e.unsplit.stated.text = e.text := by
  induction e with
  | blocked b => rfl
  | mma m => rfl
  | dotOperand index kWidth parent ih => rw [unsplit, stated, text, ih, text]
  | looseDotOperand index kWidth => rfl
  | shared s => exact s.text_stated

/-! ## Reading layouts back -/

theorem CTALayout.text_append_inj {a b : CTALayout} {r s : String}
    (h : a.text ++ r = b.text ++ s) : a = b ∧ r = s := by
  unfold text at h
  simp only [String.append_assoc] at h
  replace h := (String.append_right_inj _).mp h
  -- field by field: the words between the fields are the same on both sides
  obtain ⟨hper, h⟩ := list_field h
  obtain ⟨hsplit, h⟩ := list_field h
  obtain ⟨horder, h⟩ := listText_append_inj h
  cases a
  cases b
  simp_all

theorem Blocked.text_append_inj {a b : Blocked} {r s : String} (h : a.text ++ r = b.text ++ s) :
    (Encoding.blocked a).unsplit.stated = (Encoding.blocked b).unsplit.stated ∧ r = s := by
  unfold text at h
  simp only [String.append_assoc] at h
  replace h := (String.append_right_inj _).mp h
  obtain ⟨hsize, h⟩ := list_field h
  obtain ⟨hthreads, h⟩ := list_field h
  obtain ⟨hwarps, h⟩ := list_field h
  obtain ⟨horder, h⟩ := list_field h
  refine ⟨?_, h⟩
  simp only [Encoding.unsplit, Encoding.stated, stated, order] at horder ⊢
  rw [hsize, hthreads, hwarps, horder]

theorem Mma.text_append_inj {a b : Mma} {r s : String} (h : a.text ++ r = b.text ++ s) :
    (Encoding.mma a).unsplit = (Encoding.mma b).unsplit ∧ r = s := by
  unfold text at h
  simp only [String.append_assoc] at h
  replace h := (String.append_right_inj _).mp h
  obtain ⟨hmajor, h⟩ := number_field (by decide) h
  obtain ⟨hminor, h⟩ := number_field (by decide) h
  obtain ⟨hwarps, h⟩ := list_field h
  obtain ⟨hinstr, h⟩ := list_field h
  refine ⟨?_, h⟩
  simp only [Encoding.unsplit]
  rw [hmajor, hminor, hwarps, hinstr]

theorem Swizzled.text_append_inj {a b : Swizzled} {r s : String} (h : a.text ++ r = b.text ++ s) :
    a.stated = b.stated ∧ r = s := by
  unfold text at h
  simp only [String.append_assoc] at h
  replace h := (String.append_right_inj _).mp h
  obtain ⟨hvec, h⟩ := number_field (by decide) h
  obtain ⟨hper, h⟩ := number_field (by decide) h
  obtain ⟨hmax, h⟩ := number_field (by decide) h
  obtain ⟨horder, h⟩ := list_field h
  obtain ⟨hcta, h⟩ := CTALayout.text_append_inj h
  refine ⟨?_, (String.append_right_inj _).mp h⟩
  rw [stated, stated, hvec, hper, hmax, horder, hcta]

theorem NvMma.text_append_inj {a b : NvMma} {r s : String} (h : a.text ++ r = b.text ++ s) :
    a = b ∧ r = s := by
  unfold text at h
  simp only [String.append_assoc] at h
  replace h := (String.append_right_inj _).mp h
  obtain ⟨hwidth, h⟩ := number_field (by decide) h
  obtain ⟨htransposed, h⟩ := bool_field h
  obtain ⟨hbits, h⟩ := number_field (by decide) h
  obtain ⟨hpadded, h⟩ := bool_field h
  obtain ⟨hcta, h⟩ := CTALayout.text_append_inj h
  refine ⟨?_, (String.append_right_inj _).mp h⟩
  cases a
  cases b
  simp_all

/-- What `text` starts with; it tells the kinds apart. -/
def SharedLayout.opening : SharedLayout → String
  | swizzled _ => "#ttg.swi"
  | nvMma _ => "#ttg.nvm"

theorem SharedLayout.take_text (s : SharedLayout) (r : String) :
    (s.text ++ r).toList.take 8 = s.opening.toList := by
  cases s with
  | swizzled s =>
    show (s.text ++ r).toList.take 8 = "#ttg.swi".toList
    unfold Swizzled.text
    simp
  | nvMma n =>
    show (n.text ++ r).toList.take 8 = "#ttg.nvm".toList
    unfold NvMma.text
    simp

theorem SharedLayout.text_append_inj {a b : SharedLayout} {r s : String}
    (h : a.text ++ r = b.text ++ s) : a.stated = b.stated ∧ r = s := by
  -- texts of the two kinds differ within their first characters
  have hopening := congrArg (fun t : String => t.toList.take 8) h
  simp only [take_text] at hopening
  cases a with
  | swizzled a =>
    cases b with
    | swizzled b =>
      obtain ⟨hab, hrs⟩ := Swizzled.text_append_inj h
      exact ⟨congrArg swizzled hab, hrs⟩
    | nvMma b => exact absurd hopening (by simp [opening])
  | nvMma a =>
    cases b with
    | swizzled b => exact absurd hopening (by simp [opening])
    | nvMma b =>
      obtain ⟨hab, hrs⟩ := NvMma.text_append_inj h
      exact ⟨congrArg nvMma hab, hrs⟩

namespace Encoding

/-- What `text` starts with; it tells the kinds apart, `looseDotOperand` being of one kind with
`dotOperand`. -/
def opening : Encoding → String
  | blocked _ => "#ttg.blo"
  | mma _ => "#ttg.nvi"
  | dotOperand _ _ _ => "#ttg.dot"
  | looseDotOperand _ _ => "#ttg.dot"
  | shared s => s.opening

theorem take_dotText (index kWidth : Int) (parent r : String) :
    (dotText index kWidth parent ++ r).toList.take 8 = "#ttg.dot".toList := by
  unfold dotText
  simp

theorem take_text (e : Encoding) (r : String) :
    (e.text ++ r).toList.take 8 = e.opening.toList := by
  cases e with
  | blocked b =>
    show (b.text ++ r).toList.take 8 = "#ttg.blo".toList
    unfold Blocked.text
    simp
  | mma m =>
    show (m.text ++ r).toList.take 8 = "#ttg.nvi".toList
    unfold Mma.text
    simp
  | dotOperand index kWidth parent => exact take_dotText index kWidth parent.text r
  | looseDotOperand index kWidth => exact take_dotText index kWidth absentText r
  | shared s => exact s.take_text r

/-- The text of `e` is not `absentText`. -/
theorem text_append_ne_absentText (e : Encoding) (r s : String) :
    e.text ++ r ≠ absentText ++ s := by
  intro h
  have hopening := e.take_text r
  rw [h] at hopening
  rcases e with b | m | ⟨index, kWidth, parent⟩ | ⟨index, kWidth⟩ | (s | n)
  all_goals
    simp [absentText, opening, SharedLayout.opening] at hopening

/-- `dotText` fixes the index, and leaves the text of the accumulator to be read. -/
theorem dotText_append_inj {i j k l : Int} {p q r s : String}
    (h : dotText i k p ++ r = dotText j l q ++ s) :
    i = j ∧ p ++ (", kWidth = " ++ (toString k ++ ("\x7d>" ++ r))) =
      q ++ (", kWidth = " ++ (toString l ++ ("\x7d>" ++ s))) := by
  unfold dotText at h
  simp only [String.append_assoc] at h
  replace h := (String.append_right_inj _).mp h
  exact number_field (by decide) h

theorem kWidth_append_inj {k l : Int} {r s : String}
    (h : ", kWidth = " ++ (toString k ++ ("\x7d>" ++ r)) =
      ", kWidth = " ++ (toString l ++ ("\x7d>" ++ s))) : k = l ∧ r = s :=
  number_field (by decide) ((String.append_right_inj _).mp h)

/-- The texts of two kinds differ within their first characters. -/
theorem opening_eq_of_text {a b : Encoding} {r s : String} (h : a.text ++ r = b.text ++ s) :
    a.opening.toList = b.opening.toList := by
  rw [← a.take_text r, h, b.take_text s]

/-- The text of `a` with anything behind it fixes where the text ends, and all of `a` that is not a
split of a blocked layout or an accumulator. The induction goes down the accumulators of `a`. -/
theorem text_append_inj {a b : Encoding} {r s : String} (h : a.text ++ r = b.text ++ s) :
    a.unsplit.stated = b.unsplit.stated ∧ r = s := by
  induction a generalizing b r s with
  | blocked a =>
    rcases b with b | b | ⟨j, l, q⟩ | ⟨j, l⟩ | (b | b)
    case blocked => exact Blocked.text_append_inj h
    all_goals exact absurd (opening_eq_of_text h) (by simp [opening, SharedLayout.opening])
  | mma a =>
    rcases b with b | b | ⟨j, l, q⟩ | ⟨j, l⟩ | (b | b)
    case mma =>
      obtain ⟨hab, hrs⟩ := Mma.text_append_inj h
      exact ⟨congrArg stated hab, hrs⟩
    all_goals exact absurd (opening_eq_of_text h) (by simp [opening, SharedLayout.opening])
  | dotOperand i k p ih =>
    rcases b with b | b | ⟨j, l, q⟩ | ⟨j, l⟩ | (b | b)
    case dotOperand =>
      -- the accumulator stands between the index and the width, so it has to be read to its end
      obtain ⟨rfl, hrest⟩ := dotText_append_inj h
      obtain ⟨hpq, hwidth⟩ := ih hrest
      obtain ⟨rfl, hrs⟩ := kWidth_append_inj hwidth
      exact ⟨congrArg (dotOperand i k) hpq, hrs⟩
    case looseDotOperand =>
      exact absurd (dotText_append_inj h).2 (p.text_append_ne_absentText _ _)
    all_goals exact absurd (opening_eq_of_text h) (by simp [opening, SharedLayout.opening])
  | looseDotOperand i k =>
    rcases b with b | b | ⟨j, l, q⟩ | ⟨j, l⟩ | (b | b)
    case dotOperand =>
      exact absurd (dotText_append_inj h).2.symm (q.text_append_ne_absentText _ _)
    case looseDotOperand =>
      obtain ⟨rfl, hrest⟩ := dotText_append_inj h
      obtain ⟨rfl, hrs⟩ := kWidth_append_inj ((String.append_right_inj _).mp hrest)
      exact ⟨rfl, hrs⟩
    all_goals exact absurd (opening_eq_of_text h) (by simp [opening, SharedLayout.opening])
  | shared a =>
    rcases b with b | b | ⟨j, l, q⟩ | ⟨j, l⟩ | b
    case shared =>
      obtain ⟨hab, hrs⟩ := SharedLayout.text_append_inj h
      exact ⟨congrArg shared hab, hrs⟩
    all_goals
      cases a <;> exact absurd (opening_eq_of_text h) (by simp [opening, SharedLayout.opening])

theorem text_eq_iff {a b : Encoding} : a.text = b.text ↔ a.unsplit.stated = b.unsplit.stated := by
  constructor
  · intro h
    exact (text_append_inj (congrArg (· ++ "") h)).1
  · intro h
    rw [← a.text_unsplit_stated, h, b.text_unsplit_stated]

end Encoding

/-- `sameAttr?` takes two layouts for the same exactly if they are of the same kind and agree on
every field but the split over the cluster (`cta`) of a blocked layout or an accumulator. This goes
for the accumulators of dot operands too. -/
theorem sameAttr?_encoding (a b : Encoding) :
    sameAttr? (some (.encoding a)) (some (.encoding b)) =
      some (decide (a.unsplit.stated = b.unsplit.stated)) := by
  show some (a.text == b.text) = _
  rw [Option.some.injEq, Bool.beq_eq_decide_eq, decide_eq_decide]
  exact Encoding.text_eq_iff

/-- A blocked layout of matrices on one block. -/
def oneBlock : Blocked where
  sizePerThread := [1, 8]
  threadsPerWarp := [4, 8]
  warpsPerCTA := [4, 1]
  statedOrder := some [1, 0]
  cta := .single 2

/-- `oneBlock` with the rows split over two blocks. -/
def twoBlocks : Blocked := { oneBlock with cta := ⟨[2, 1], [2, 1], [1, 0]⟩ }

/-- `sameAttr?` does not look at whether the rows are split over blocks. -/
theorem blocked_split_not_compared :
    sameAttr? (some (.encoding (.blocked oneBlock))) (some (.encoding (.blocked twoBlocks))) =
        some true ∧
      oneBlock.cta ≠ twoBlocks.cta ∧
      (Encoding.blocked oneBlock).stated ≠ (Encoding.blocked twoBlocks).stated := by
  refine ⟨?_, by decide, by decide⟩
  show some (oneBlock.text == twoBlocks.text) = some true
  rw [show twoBlocks.text = oneBlock.text from rfl, beq_self_eq_true]

end Multistage
