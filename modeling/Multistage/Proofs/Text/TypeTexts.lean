import Multistage.Proofs.Text.EncodingTexts

/-!
# Types and their texts

Two types are taken for the same if their texts are. For types in which nothing is missing, and
whose layouts are layouts of shared memory, this is structural equality: the text of a type with a
delimiter behind it fixes the type and where the text ends (`Ty.WellFormed.text_append_inj`). The
extents of a shape end where the element starts, since no element starts like a number; the parts
behind the element are told apart by the characters they start with.
-/

namespace Multistage

/-! ## Well-formed types -/

/-- A type in which nothing is missing. Tensors and buffers may go without a layout, and have one of
shared memory otherwise; buffers may go without a memory space; and a buffer that names no shape of
its allocation has no dimensions itself. -/
inductive Ty.WellFormed : Ty → Prop
  | integer (width : Int) : WellFormed (.integer width)
  | f16 : WellFormed .f16
  | bf16 : WellFormed .bf16
  | f32 : WellFormed .f32
  | index : WellFormed .index
  | pointer {pointee : Ty} (h : WellFormed pointee) : WellFormed (.pointer (some pointee))
  | tensor {elem : Ty} (h : WellFormed elem) (shape : List Int) (layout : Option SharedLayout) :
      WellFormed (.tensor ⟨shape, some elem, layout.map fun s => .encoding (.shared s)⟩)
  | memDesc {elem : Ty} (h : WellFormed elem) (shape : List Int) (layout : Option SharedLayout)
      {memorySpace : Option Attr} (hspace : memorySpace = none ∨ memorySpace = some .sharedMemory ∨
        memorySpace = some .tensorMemory) (isMutable : Bool) {allocShape : List Int}
      (halloc : allocShape ≠ [] ∨ allocShape = shape) :
      WellFormed (.memDesc ⟨shape, some elem, layout.map fun s => .encoding (.shared s),
        memorySpace, isMutable, allocShape⟩)
  | tensorDesc {block : TensorTy} (h : WellFormed (.tensor block)) :
      WellFormed (.tensorDesc (some block))

/-- The attribute with the orders of a layout written out. -/
def Attr.stated : Attr → Attr
  | .encoding e => .encoding e.stated
  | a => a

mutual

/-- The type with the orders of its layouts written out; one that is not stated is the empty one.
Nothing else about the type changes, so that two types are structurally equal if they are equal in
this form. -/
def Ty.stated : Ty → Ty
  | .pointer (some t) => .pointer (some t.stated)
  | .tensor t => .tensor t.stated
  | .memDesc t => .memDesc t.stated
  | .tensorDesc (some t) => .tensorDesc (some t.stated)
  | t => t

/-- `Ty.stated` of a tensor type. -/
def TensorTy.stated : TensorTy → TensorTy
  | ⟨shape, none, encoding⟩ => ⟨shape, none, encoding.map Attr.stated⟩
  | ⟨shape, some elem, encoding⟩ => ⟨shape, some elem.stated, encoding.map Attr.stated⟩

/-- `Ty.stated` of a buffer type. -/
def MemDescTy.stated : MemDescTy → MemDescTy
  | ⟨shape, none, encoding, memorySpace, isMutable, allocShape⟩ =>
    ⟨shape, none, encoding.map Attr.stated, memorySpace, isMutable, allocShape⟩
  | ⟨shape, some elem, encoding, memorySpace, isMutable, allocShape⟩ =>
    ⟨shape, some elem.stated, encoding.map Attr.stated, memorySpace, isMutable, allocShape⟩

end

/-! ## The parts behind the element -/

/-- What may follow the element of a tensor or a buffer, besides the shape of the allocation. -/
inductive TypePart where
  | layout (s : SharedLayout)
  | sharedMemory
  | tensorMemory
  | writable

namespace TypePart

/-- The text of the part, as `trailingText` has it. -/
def text : TypePart → String
  | layout s => s.text
  | sharedMemory => "#ttg.shared_memory"
  | tensorMemory => "#ttng.tensor_memory"
  | writable => "mutable"

/-- The part with the order of a layout written out. -/
def stated : TypePart → TypePart
  | layout s => layout s.stated
  | part => part

/-- What `TypePart.text` starts with. -/
def opening : TypePart → String
  | layout (.swizzled _) => "#ttg.sw"
  | layout (.nvMma _) => "#ttg.nv"
  | sharedMemory => "#ttg.sh"
  | tensorMemory => "#ttng.t"
  | writable => "mutable"

theorem take_text (p : TypePart) (r : String) : (p.text ++ r).toList.take 7 = p.opening.toList := by
  cases p with
  | layout s =>
    have h := congrArg (List.take 7) (s.take_text r)
    rw [List.take_take] at h
    cases s <;> simpa [text, opening, SharedLayout.opening] using h
  | sharedMemory => simp [text, opening]
  | tensorMemory => simp [text, opening]
  | writable => simp [text, opening]

theorem stops_text_append (p : TypePart) (r : String) : Stops (p.text ++ r) := by
  have h := p.take_text r
  have hhead : (p.text ++ r).toList.head? = p.opening.toList.head? := by
    rw [← h, List.head?_take, if_neg (by decide)]
  rw [Stops, hhead]
  rcases p with (s | n) | _ | _ | _ <;> simp only [opening] <;> decide

/-- Parts of two kinds have another `opening`. -/
theorem eq_or_layout_of_opening {p q : TypePart} (h : p.opening.toList = q.opening.toList) :
    p = q ∨ ∃ a b, p = layout a ∧ q = layout b := by
  rcases p with (a | a) | _ | _ | _ <;> rcases q with (b | b) | _ | _ | _ <;>
    simp [opening] at h ⊢

theorem text_append_inj {p q : TypePart} {r s : String} (h : p.text ++ r = q.text ++ s) :
    p.stated = q.stated ∧ r = s := by
  have hopening : p.opening.toList = q.opening.toList := by
    rw [← p.take_text r, h, q.take_text s]
  rcases eq_or_layout_of_opening hopening with rfl | ⟨a, b, rfl, rfl⟩
  · exact ⟨rfl, (String.append_right_inj _).mp h⟩
  · obtain ⟨hab, hrs⟩ := SharedLayout.text_append_inj h
    exact ⟨congrArg layout hab, hrs⟩

end TypePart

/-- The `parts` behind the element, each after a comma. -/
def partsText (parts : List TypePart) : String :=
  String.join (parts.map fun p => ", " ++ p.text)

theorem partsText_append_inj {ps qs : List TypePart} {r s : String}
    (hr : ∀ (p : TypePart) t, r ≠ ", " ++ p.text ++ t)
    (hs : ∀ (p : TypePart) t, s ≠ ", " ++ p.text ++ t)
    (h : partsText ps ++ r = partsText qs ++ s) :
    ps.map TypePart.stated = qs.map TypePart.stated ∧ r = s := by
  have hreads : ∀ (p q : TypePart) (t u : String), True → True →
      ", " ++ p.text ++ t = ", " ++ q.text ++ u → p.stated = q.stated ∧ t = u := by
    intro p q t u _ _ hpq
    rw [String.append_assoc, String.append_assoc] at hpq
    exact TypePart.text_append_inj ((String.append_right_inj _).mp hpq)
  exact join_append_inj hreads (fun _ _ => trivial) trivial trivial hr hs h

theorem stops_partsText_append {t : String} (ht : Stops t) (ps : List TypePart) :
    Stops (partsText ps ++ t) := by
  cases ps with
  | nil => simpa [partsText] using ht
  | cons p ps =>
    rw [partsText, List.map_cons, String.join_cons, String.append_assoc, String.append_assoc]
    exact stops_append _ (by decide)

/-! ### The shape of the allocation -/

/-- `allocShape`, as far as it is written: not if it is the `shape` of the buffer. -/
def shownAlloc (shape allocShape : List Int) : List Int :=
  if allocShape = shape then [] else allocShape

/-- A shape after a comma, and nothing for the empty one. -/
def allocText : List Int → String
  | [] => ""
  | d :: ds => ", " ++ (toString d ++ String.join (ds.map fun d => "x" ++ toString d))

theorem shownAlloc_inj {shape a b : List Int} (ha : a ≠ [] ∨ a = shape) (hb : b ≠ [] ∨ b = shape)
    (h : shownAlloc shape a = shownAlloc shape b) : a = b := by
  unfold shownAlloc at h
  split at h
  · next has =>
    split at h
    · next hbs => rw [has, hbs]
    · next hbs => exact absurd h.symm (hb.resolve_right hbs)
  · next has =>
    split at h
    · exact absurd h (ha.resolve_right has)
    · exact h

theorem allocText_shownAlloc (shape allocShape : List Int) :
    (if !allocShape.isEmpty && allocShape != shape then ", " ++ shapeText allocShape else "") =
      allocText (shownAlloc shape allocShape) := by
  unfold shownAlloc
  by_cases h : allocShape = shape
  · simp [h, allocText]
  · cases allocShape with
    | nil => simp [allocText]
    | cons d ds =>
      have hne : (d :: ds != shape) = true := bne_iff_ne.mpr h
      rw [if_neg h, allocText, shapeText, List.map_cons, intercalate_cons, List.map_map, hne]
      rfl

/-- `allocText` at the end of a buffer type. -/
theorem allocText_append_inj {xs ys : List Int} {r s : String}
    (h : allocText xs ++ (">" ++ r) = allocText ys ++ (">" ++ s)) : xs = ys ∧ r = s := by
  have hclose : ∀ t : String, Stops (">" ++ t) := fun t => stops_append t (by decide)
  have hcross : "x" ≠ "" ∧ Stops "x" := by decide
  have hend : ∀ t u : String, ">" ++ t ≠ "x" ++ u := by
    intro t u htu
    simpa using congrArg String.toList htu
  have hcomma : ∀ t u : String, ">" ++ t ≠ ", " ++ u := by
    intro t u htu
    simpa using congrArg String.toList htu
  cases xs with
  | nil =>
    cases ys with
    | nil => exact ⟨rfl, by simpa [allocText] using h⟩
    | cons y ys =>
      rw [allocText, allocText, String.empty_append, String.append_assoc] at h
      exact absurd h (hcomma r _)
  | cons x xs =>
    cases ys with
    | nil =>
      rw [allocText, allocText, String.empty_append, String.append_assoc] at h
      exact absurd h.symm (hcomma s _)
    | cons y ys =>
      simp only [allocText, String.append_assoc] at h
      obtain ⟨rfl, hrest⟩ := toString_append_inj (stops_separated hcross (hclose r) xs)
        (stops_separated hcross (hclose s) ys) ((String.append_right_inj _).mp h)
      obtain ⟨rfl, hrs⟩ := separated_append_inj hcross (hclose r) (hclose s) (hend r) (hend s) hrest
      exact ⟨rfl, (String.append_right_inj _).mp hrs⟩

theorem stops_allocText_append (xs : List Int) (r : String) :
    Stops (allocText xs ++ (">" ++ r)) := by
  cases xs with
  | nil =>
    rw [allocText, String.empty_append]
    exact stops_append r (by decide)
  | cons x xs =>
    rw [allocText, String.append_assoc]
    exact stops_append _ (by decide)

/-- `allocText` starts with none of the other parts. -/
theorem allocText_ne_part (xs : List Int) (r : String) (p : TypePart) (t : String) :
    allocText xs ++ (">" ++ r) ≠ ", " ++ p.text ++ t := by
  intro h
  rw [String.append_assoc] at h
  cases xs with
  | nil =>
    rw [allocText, String.empty_append] at h
    simpa using congrArg String.toList h
  | cons x xs =>
    simp only [allocText, String.append_assoc] at h
    exact (p.stops_text_append t).ne_toString x _ ((String.append_right_inj _).mp h).symm

/-! ### The extents of a shape -/

theorem extentsText_append_inj {xs ys : List Int} {r s : String} (hr : Stops r) (hs : Stops s)
    (h : extentsText xs ++ r = extentsText ys ++ s) : xs = ys ∧ r = s := by
  have hreads : ∀ (a b : Int) (t u : String), True → True →
      toString a ++ "x" ++ t = toString b ++ "x" ++ u → id a = id b ∧ t = u := by
    intro a b t u _ _ hab
    rw [String.append_assoc, String.append_assoc] at hab
    exact number_field (by decide) hab
  obtain ⟨hxy, hrs⟩ := join_append_inj hreads (fun _ _ => trivial) trivial trivial
    (fun a t => by rw [String.append_assoc]; exact hr.ne_toString a _)
    (fun a t => by rw [String.append_assoc]; exact hs.ne_toString a _) h
  exact ⟨by simpa using hxy, hrs⟩

/-! ## The texts of well-formed types -/

/-- The part for a layout, if there is one. -/
def layoutParts (layout : Option SharedLayout) : List TypePart := layout.toList.map .layout

/-- The part for a memory space, if there is one. -/
def spaceParts : Option Attr → List TypePart
  | some .sharedMemory => [.sharedMemory]
  | some .tensorMemory => [.tensorMemory]
  | _ => []

/-- The parts behind the element of a buffer. A tensor has those of a buffer without a memory space
that is not written. -/
def bufferParts (layout : Option SharedLayout) (memorySpace : Option Attr) (isMutable : Bool) :
    List TypePart :=
  layoutParts layout ++ (spaceParts memorySpace ++ if isMutable then [.writable] else [])

theorem partsText_append (ps qs : List TypePart) :
    partsText (ps ++ qs) = partsText ps ++ partsText qs := by
  rw [partsText, List.map_append, String.join_append]
  rfl

theorem trailingText_layout (layout : Option SharedLayout) :
    trailingText (layout.map fun s => .encoding (.shared s)) = partsText (layoutParts layout) := by
  cases layout with
  | none => simp [trailingText, layoutParts, partsText]
  | some s =>
    rw [Option.map_some, trailingText, Attr.text]
    simp [layoutParts, partsText, TypePart.text, partText, Encoding.text]

theorem trailingText_space {memorySpace : Option Attr} (h : memorySpace = none ∨
    memorySpace = some .sharedMemory ∨ memorySpace = some .tensorMemory) :
    trailingText memorySpace = partsText (spaceParts memorySpace) := by
  rcases h with rfl | rfl | rfl
  all_goals simp [trailingText, spaceParts, partsText, TypePart.text, Attr.text, partText]

/-! ### What the parts tell -/

namespace TypePart

/-- The layout that the part tells. -/
def layout? : TypePart → Option SharedLayout
  | layout s => some s
  | _ => none

/-- The memory space that the part tells. -/
def space? : TypePart → Option Attr
  | sharedMemory => some .sharedMemory
  | tensorMemory => some .tensorMemory
  | _ => none

/-- Whether the part says that the buffer may be written. -/
def isWritable : TypePart → Bool
  | writable => true
  | _ => false

end TypePart

theorem findSome?_bufferParts (layout : Option SharedLayout) {memorySpace : Option Attr}
    (hspace : memorySpace = none ∨ memorySpace = some .sharedMemory ∨
      memorySpace = some .tensorMemory) (isMutable : Bool) :
    let parts := (bufferParts layout memorySpace isMutable).map TypePart.stated
    parts.findSome? TypePart.layout? = layout.map SharedLayout.stated ∧
      parts.findSome? TypePart.space? = memorySpace ∧
      parts.any TypePart.isWritable = isMutable := by
  cases layout <;> rcases hspace with rfl | rfl | rfl <;> cases isMutable <;>
    exact ⟨rfl, rfl, rfl⟩

/-- `bufferParts` fixes the layout, the memory space and whether the buffer may be written. -/
theorem bufferParts_inj {l l' : Option SharedLayout} {m m' : Option Attr} {w w' : Bool}
    (hm : m = none ∨ m = some .sharedMemory ∨ m = some .tensorMemory)
    (hm' : m' = none ∨ m' = some .sharedMemory ∨ m' = some .tensorMemory)
    (h : (bufferParts l m w).map TypePart.stated = (bufferParts l' m' w').map TypePart.stated) :
    l.map SharedLayout.stated = l'.map SharedLayout.stated ∧ m = m' ∧ w = w' := by
  obtain ⟨hlayout, hspace, hwritable⟩ := findSome?_bufferParts l hm w
  obtain ⟨hlayout', hspace', hwritable'⟩ := findSome?_bufferParts l' hm' w'
  rw [h] at hlayout hspace hwritable
  exact ⟨hlayout.symm.trans hlayout', hspace.symm.trans hspace', hwritable.symm.trans hwritable'⟩

theorem partsText_stated (layout : Option SharedLayout) (memorySpace : Option Attr)
    (isMutable : Bool) :
    partsText (bufferParts (layout.map SharedLayout.stated) memorySpace isMutable) =
      partsText (bufferParts layout memorySpace isMutable) := by
  have hlayout : partsText (layoutParts (layout.map SharedLayout.stated)) =
      partsText (layoutParts layout) := by
    cases layout with
    | none => rfl
    | some s => simp [layoutParts, partsText, TypePart.text, s.text_stated]
  simp only [bufferParts, partsText_append, hlayout]

theorem map_stated_layout (layout : Option SharedLayout) :
    (layout.map fun s => Attr.encoding (.shared s)).map Attr.stated =
      (layout.map SharedLayout.stated).map fun s => .encoding (.shared s) := by
  cases layout <;> rfl

namespace Ty

variable {t elem : Ty} {x : String}

theorem text_pointer (h : t.text = some x) :
    (Ty.pointer (some t)).text = some ("!tt.ptr<" ++ (x ++ ">")) := by
  rw [text, h, partText, Option.getD_some, String.append_assoc]

theorem text_tensor (h : elem.text = some x) (shape : List Int) (layout : Option SharedLayout) :
    (Ty.tensor ⟨shape, some elem, layout.map fun s => .encoding (.shared s)⟩).text =
      some ("tensor<" ++ (extentsText shape ++ (x ++
        (partsText (bufferParts layout none false) ++ ">")))) := by
  have hparts : bufferParts layout none false = layoutParts layout := List.append_nil _
  rw [text, TensorTy.text, h, trailingText_layout, hparts]
  simp only [Option.bind_eq_bind, Option.bind_some, String.append_assoc]

theorem text_memDesc (h : elem.text = some x) (shape : List Int) (layout : Option SharedLayout)
    {memorySpace : Option Attr} (hspace : memorySpace = none ∨ memorySpace = some .sharedMemory ∨
      memorySpace = some .tensorMemory) (isMutable : Bool) (allocShape : List Int) :
    (Ty.memDesc ⟨shape, some elem, layout.map fun s => .encoding (.shared s), memorySpace, isMutable,
      allocShape⟩).text =
      some ("!ttg.memdesc<" ++ (extentsText shape ++ (x ++
        (partsText (bufferParts layout memorySpace isMutable) ++
          (allocText (shownAlloc shape allocShape) ++ ">"))))) := by
  rw [text, MemDescTy.text, h, trailingText_layout, trailingText_space hspace]
  have hwritable : (if isMutable then ", mutable" else "") =
      partsText (if isMutable then [.writable] else []) := by
    cases isMutable <;> simp [partsText, TypePart.text]
  simp only [Option.bind_eq_bind, Option.bind_some, hwritable, bufferParts, partsText_append,
    String.append_assoc]
  rw [allocText_shownAlloc]

theorem text_tensorDesc {block : TensorTy} (h : (Ty.tensor block).text = some x) :
    (Ty.tensorDesc (some block)).text = some ("!tt.tensordesc<" ++ (x ++ ">")) := by
  have hblock : block.text = some x := by rwa [text] at h
  rw [text, hblock, partText, Option.getD_some, String.append_assoc]

namespace WellFormed

theorem exists_text (h : t.WellFormed) : ∃ x, t.text = some x := by
  induction h with
  | integer | f16 | bf16 | f32 | index => exact ⟨_, rfl⟩
  | pointer _ ih =>
    obtain ⟨x, hx⟩ := ih
    exact ⟨_, text_pointer hx⟩
  | tensor _ shape layout ih =>
    obtain ⟨x, hx⟩ := ih
    exact ⟨_, text_tensor hx shape layout⟩
  | memDesc _ shape layout hspace isMutable _ ih =>
    obtain ⟨x, hx⟩ := ih
    exact ⟨_, text_memDesc hx shape layout hspace isMutable _⟩
  | tensorDesc _ ih =>
    obtain ⟨x, hx⟩ := ih
    exact ⟨_, text_tensorDesc hx⟩

end WellFormed

/-! ### Telling kinds apart -/

/-- The kinds of `WellFormed` types, formats of numbers apart. -/
inductive Kind where
  | integer
  | index
  | f16
  | bf16
  | f32
  | pointer
  | tensor
  | memDesc
  | tensorDesc
  deriving DecidableEq

/-- The kind of a `WellFormed` type. -/
def kind : Ty → Option Kind
  | .integer _ => some .integer
  | .float name _ => if name = "f16" then some .f16 else if name = "bf16" then some .bf16 else some .f32
  | .index => some .index
  | .token _ => none
  | .pointer _ => some .pointer
  | .tensor _ => some .tensor
  | .memDesc _ => some .memDesc
  | .tensorDesc _ => some .tensorDesc

/-- The kind of the type that a text starts with; five characters tell. -/
def kindAt : List Char → Option Kind
  | 'i' :: 'n' :: _ => some .index
  | 'i' :: _ => some .integer
  | 'f' :: '1' :: _ => some .f16
  | 'f' :: _ => some .f32
  | 'b' :: _ => some .bf16
  | 't' :: _ => some .tensor
  | '!' :: 't' :: 't' :: 'g' :: _ => some .memDesc
  | '!' :: 't' :: 't' :: '.' :: 'p' :: _ => some .pointer
  | '!' :: 't' :: 't' :: '.' :: 't' :: _ => some .tensorDesc
  | _ => none

theorem kindAt_integer (width : Int) (r : String) :
    kindAt ("i" ++ toString width ++ r).toList = some .integer := by
  obtain ⟨c, cs, hcs⟩ := exists_toList_toString width
  have hc : isNumeral c = true :=
    isNumeral_of_mem_toString (n := width) (by rw [hcs]; exact List.mem_cons_self)
  -- a width starts with a numeral, which tells it from the word `index`
  have hne : c ≠ 'n' := by
    rintro rfl
    exact absurd hc (by decide)
  rw [String.append_assoc, String.toList_append, String.toList_append, hcs]
  simp [kindAt, hne]

theorem stops_of_kindAt {s : String} (h : (kindAt s.toList).isSome) : Stops s := by
  unfold Stops
  generalize s.toList = cs at h
  unfold kindAt at h
  split at h
  case h_10 => cases h
  all_goals rfl

namespace WellFormed

theorem isSome_kind (h : t.WellFormed) : t.kind.isSome := by
  cases h <;> simp [kind, Ty.f16, Ty.bf16, Ty.f32]

theorem kindAt_text (h : t.WellFormed) (ht : t.text = some x) (r : String) :
    kindAt (x ++ r).toList = t.kind := by
  cases h with
  | integer width =>
    obtain rfl : "i" ++ toString width = x := Option.some.inj ht
    exact kindAt_integer width r
  | f16 | bf16 | f32 | index =>
    obtain rfl := Option.some.inj ht
    simp [kindAt, kind, Ty.f16, Ty.bf16, Ty.f32]
  | pointer h =>
    obtain ⟨y, hy⟩ := h.exists_text
    obtain rfl := Option.some.inj ((text_pointer hy).symm.trans ht)
    simp [kindAt, kind]
  | tensor h shape layout =>
    obtain ⟨y, hy⟩ := h.exists_text
    obtain rfl := Option.some.inj ((text_tensor hy shape layout).symm.trans ht)
    simp [kindAt, kind]
  | memDesc h shape layout hspace isMutable _ =>
    obtain ⟨y, hy⟩ := h.exists_text
    obtain rfl := Option.some.inj ((text_memDesc hy shape layout hspace isMutable _).symm.trans ht)
    simp [kindAt, kind]
  | tensorDesc h =>
    obtain ⟨y, hy⟩ := h.exists_text
    obtain rfl := Option.some.inj ((text_tensorDesc hy).symm.trans ht)
    simp [kindAt, kind]

/-- No type starts like a number. -/
theorem stops_text (h : t.WellFormed) (ht : t.text = some x) (r : String) : Stops (x ++ r) := by
  apply stops_of_kindAt
  rw [h.kindAt_text ht r]
  exact h.isSome_kind

theorem kind_eq {a b : Ty} {x y r s : String} (ha : a.WellFormed) (hb : b.WellFormed)
    (hx : a.text = some x) (hy : b.text = some y) (h : x ++ r = y ++ s) : a.kind = b.kind := by
  rw [← ha.kindAt_text hx r, h, hb.kindAt_text hy s]

/-- The types that are written with one word have no other type of their kind. -/
theorem word_append_inj {a b : Ty} {x y r s : String} (ha : a.WellFormed)
    (hword : a = .f16 ∨ a = .bf16 ∨ a = .f32 ∨ a = .index) (hb : b.WellFormed)
    (hx : a.text = some x) (hy : b.text = some y) (h : x ++ r = y ++ s) :
    a.stated = b.stated ∧ r = s := by
  have hkind := kind_eq ha hb hx hy h
  have hab : a = b := by
    rcases hword with rfl | rfl | rfl | rfl <;> cases hb <;>
      simp [kind, Ty.f16, Ty.bf16, Ty.f32] at hkind ⊢
  subst hab
  obtain rfl := Option.some.inj (hx.symm.trans hy)
  exact ⟨rfl, (String.append_right_inj _).mp h⟩

end WellFormed

/-- What is between the brackets of a tensor or a buffer type fixes all that it was written from, if
the texts `x` and `y` of the elements can be read. -/
theorem shaped_append_inj {shape shape' alloc alloc' : List Int} {ps ps' : List TypePart}
    {P : Prop} {x y r s : String} (hx : ∀ t, Stops (x ++ t)) (hy : ∀ t, Stops (y ++ t))
    (hreads : ∀ t u, Stops t → Stops u → x ++ t = y ++ u → P ∧ t = u)
    (h : extentsText shape ++ (x ++ (partsText ps ++ (allocText alloc ++ (">" ++ r)))) =
      extentsText shape' ++ (y ++ (partsText ps' ++ (allocText alloc' ++ (">" ++ s))))) :
    shape = shape' ∧ P ∧ ps.map TypePart.stated = ps'.map TypePart.stated ∧ alloc = alloc' ∧
      r = s := by
  -- the pieces are read off from left to right, each ending where the next one starts
  obtain ⟨hshape, h⟩ := extentsText_append_inj (hx _) (hy _) h
  obtain ⟨helem, h⟩ := hreads _ _ (stops_partsText_append (stops_allocText_append alloc r) ps)
    (stops_partsText_append (stops_allocText_append alloc' s) ps') h
  obtain ⟨hparts, h⟩ := partsText_append_inj (allocText_ne_part alloc r) (allocText_ne_part alloc' s) h
  obtain ⟨halloc, hrs⟩ := allocText_append_inj h
  exact ⟨hshape, helem, hparts, halloc, hrs⟩

/-- `Ty.text` of a `WellFormed` type with a delimiter behind it fixes the type and where its text
ends. The induction is on `a`; texts of two kinds of types start differently. -/
theorem WellFormed.text_append_inj {a b : Ty} {x y r s : String} (ha : a.WellFormed)
    (hb : b.WellFormed) (hx : a.text = some x) (hy : b.text = some y) (hr : Stops r) (hs : Stops s)
    (h : x ++ r = y ++ s) : a.stated = b.stated ∧ r = s := by
  induction ha generalizing b x y r s with
  | integer width =>
    have hkind := kind_eq (.integer width) hb hx hy h
    cases hb with
    | integer width' =>
      obtain rfl : "i" ++ toString width = x := Option.some.inj hx
      obtain rfl : "i" ++ toString width' = y := Option.some.inj hy
      rw [String.append_assoc, String.append_assoc] at h
      obtain ⟨rfl, hrs⟩ := toString_append_inj hr hs ((String.append_right_inj _).mp h)
      exact ⟨rfl, hrs⟩
    | _ => simp [kind, Ty.f16, Ty.bf16, Ty.f32] at hkind
  | f16 => exact word_append_inj .f16 (by simp) hb hx hy h
  | bf16 => exact word_append_inj .bf16 (by simp) hb hx hy h
  | f32 => exact word_append_inj .f32 (by simp) hb hx hy h
  | index => exact word_append_inj .index (by simp) hb hx hy h
  | pointer ha ih =>
    have hkind := kind_eq (.pointer ha) hb hx hy h
    cases hb with
    | pointer hb =>
      obtain ⟨u, hu⟩ := ha.exists_text
      obtain ⟨v, hv⟩ := hb.exists_text
      obtain rfl := Option.some.inj ((text_pointer hu).symm.trans hx)
      obtain rfl := Option.some.inj ((text_pointer hv).symm.trans hy)
      simp only [String.append_assoc] at h
      obtain ⟨hpointee, hrs⟩ := ih hb hu hv (stops_append r (by decide)) (stops_append s (by decide))
        ((String.append_right_inj _).mp h)
      refine ⟨?_, (String.append_right_inj _).mp hrs⟩
      rw [stated, stated, hpointee]
    | _ => simp [kind, Ty.f16, Ty.bf16, Ty.f32] at hkind
  | tensor ha shape layout ih =>
    have hkind := kind_eq (.tensor ha shape layout) hb hx hy h
    cases hb with
    | tensor hb shape' layout' =>
      obtain ⟨u, hu⟩ := ha.exists_text
      obtain ⟨v, hv⟩ := hb.exists_text
      obtain rfl := Option.some.inj ((text_tensor hu shape layout).symm.trans hx)
      obtain rfl := Option.some.inj ((text_tensor hv shape' layout').symm.trans hy)
      simp only [String.append_assoc] at h
      -- a tensor is written like a buffer whose allocation has its own shape
      have hend : ∀ t : String, ">" ++ t = allocText [] ++ (">" ++ t) := fun t => by
        rw [allocText, String.empty_append]
      rw [hend r, hend s] at h
      obtain ⟨rfl, helem, hparts, -, hrs⟩ := shaped_append_inj (ha.stops_text hu) (hb.stops_text hv)
        (fun t w ht hw htw => ih hb hu hv ht hw htw) ((String.append_right_inj _).mp h)
      refine ⟨?_, hrs⟩
      have hlayout := (bufferParts_inj (Or.inl rfl) (Or.inl rfl) hparts).1
      rw [stated, stated, TensorTy.stated, TensorTy.stated, map_stated_layout, map_stated_layout,
        helem, hlayout]
    | _ => simp [kind, Ty.f16, Ty.bf16, Ty.f32] at hkind
  | memDesc ha shape layout hspace isMutable halloc ih =>
    have hkind := kind_eq (.memDesc ha shape layout hspace isMutable halloc) hb hx hy h
    cases hb with
    | memDesc hb shape' layout' hspace' isMutable' halloc' =>
      obtain ⟨u, hu⟩ := ha.exists_text
      obtain ⟨v, hv⟩ := hb.exists_text
      obtain rfl := Option.some.inj ((text_memDesc hu shape layout hspace isMutable _).symm.trans hx)
      obtain rfl :=
        Option.some.inj ((text_memDesc hv shape' layout' hspace' isMutable' _).symm.trans hy)
      simp only [String.append_assoc] at h
      obtain ⟨rfl, helem, hparts, hshown, hrs⟩ := shaped_append_inj (ha.stops_text hu)
        (hb.stops_text hv) (fun t w ht hw htw => ih hb hu hv ht hw htw)
        ((String.append_right_inj _).mp h)
      -- with equal shapes, what is shown of the allocations tells them apart
      obtain ⟨hlayout, rfl, rfl⟩ := bufferParts_inj hspace hspace' hparts
      obtain rfl := shownAlloc_inj halloc halloc' hshown
      refine ⟨?_, hrs⟩
      rw [stated, stated, MemDescTy.stated, MemDescTy.stated, map_stated_layout, map_stated_layout,
        helem, hlayout]
    | _ => simp [kind, Ty.f16, Ty.bf16, Ty.f32] at hkind
  | tensorDesc ha ih =>
    have hkind := kind_eq (.tensorDesc ha) hb hx hy h
    cases hb with
    | tensorDesc hb =>
      obtain ⟨u, hu⟩ := ha.exists_text
      obtain ⟨v, hv⟩ := hb.exists_text
      obtain rfl := Option.some.inj ((text_tensorDesc hu).symm.trans hx)
      obtain rfl := Option.some.inj ((text_tensorDesc hv).symm.trans hy)
      simp only [String.append_assoc] at h
      obtain ⟨hblock, hrs⟩ := ih hb hu hv (stops_append r (by decide)) (stops_append s (by decide))
        ((String.append_right_inj _).mp h)
      refine ⟨?_, (String.append_right_inj _).mp hrs⟩
      rw [stated, stated, Ty.tensor.injEq] at hblock
      rw [stated, stated, hblock]
    | _ => simp [kind, Ty.f16, Ty.bf16, Ty.f32] at hkind

/-- `stated` does not change the text. -/
theorem WellFormed.text_stated (h : t.WellFormed) : t.stated.text = t.text := by
  induction h with
  | integer | f16 | bf16 | f32 | index => rfl
  | pointer h ih =>
    obtain ⟨x, hx⟩ := h.exists_text
    rw [stated, text_pointer hx, text_pointer (ih.trans hx)]
  | tensor h shape layout ih =>
    obtain ⟨x, hx⟩ := h.exists_text
    rw [stated, TensorTy.stated, map_stated_layout, text_tensor hx, text_tensor (ih.trans hx),
      partsText_stated]
  | memDesc h shape layout hspace isMutable halloc ih =>
    obtain ⟨x, hx⟩ := h.exists_text
    rw [stated, MemDescTy.stated, map_stated_layout, text_memDesc hx _ _ hspace,
      text_memDesc (ih.trans hx) _ _ hspace, partsText_stated]
  | @tensorDesc block h ih =>
    obtain ⟨x, hx⟩ := h.exists_text
    have hblock : (Ty.tensor block.stated).text = some x := ih.trans hx
    rw [stated, text_tensorDesc hx, text_tensorDesc hblock]

end Ty

/-- `sameTy?` takes `WellFormed` types for the same exactly if they are structurally equal. -/
theorem sameTy?_eq_structural {a b : Ty} (ha : a.WellFormed) (hb : b.WellFormed) :
    ∃ answer, sameTy? (some a) (some b) = some answer ∧ (answer = true ↔ a.stated = b.stated) := by
  obtain ⟨x, hx⟩ := ha.exists_text
  obtain ⟨y, hy⟩ := hb.exists_text
  refine ⟨x == y, by simp [sameTy?, hx, hy], ?_⟩
  rw [beq_iff_eq]
  constructor
  · rintro rfl
    exact (ha.text_append_inj hb hx hy (by decide) (by decide) (Eq.refl (x ++ ""))).1
  · intro h
    have htext : a.text = b.text := by rw [← ha.text_stated, h, hb.text_stated]
    exact Option.some.inj (hx.symm.trans (htext.trans hy))

/-- A buffer of pointers to vectors in shared memory, as a view of an allocation of shape
`allocShape`. -/
def pointerBuffer (allocShape : List Int) : Ty :=
  .memDesc
    { shape := [128, 64]
      elem := some (.pointer (some (.tensor ⟨[8], some .bf16, none⟩)))
      encoding := some (.encoding (.shared (.swizzled
        { vec := 8, perPhase := 1, maxPhase := 8, statedOrder := some [1, 0], cta := .single 2 })))
      memorySpace := some .sharedMemory
      isMutable := true
      allocShape }

theorem wellFormed_pointerBuffer {allocShape : List Int} (h : allocShape ≠ []) :
    (pointerBuffer allocShape).WellFormed :=
  .memDesc (.pointer (.tensor .bf16 [8] none)) [128, 64] (some (.swizzled _)) (Or.inr (Or.inl rfl))
    true (Or.inl h)

/-- The `pointerBuffer` of one of three stages is taken for itself, and for no whole allocation. -/
theorem pointerBuffers_compared :
    (pointerBuffer [3, 128, 64]).WellFormed ∧ (pointerBuffer [128, 64]).WellFormed ∧
      sameTy? (some (pointerBuffer [3, 128, 64])) (some (pointerBuffer [3, 128, 64])) = some true ∧
      sameTy? (some (pointerBuffer [3, 128, 64])) (some (pointerBuffer [128, 64])) = some false := by
  have hview := wellFormed_pointerBuffer (List.cons_ne_nil 3 [128, 64])
  have hwhole := wellFormed_pointerBuffer (List.cons_ne_nil 128 [64])
  obtain ⟨self, hself, heq⟩ := sameTy?_eq_structural hview hview
  obtain ⟨other, hother, hne⟩ := sameTy?_eq_structural hview hwhole
  refine ⟨hview, hwhole, by rw [hself, heq.mpr rfl], ?_⟩
  cases other with
  | false => exact hother
  | true =>
    have halloc := congrArg (fun t => t.memDesc?.map MemDescTy.allocShape) (hne.mp rfl)
    simp [pointerBuffer, Ty.stated, MemDescTy.stated, Ty.memDesc?] at halloc

end Multistage
